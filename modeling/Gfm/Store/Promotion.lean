import Gfm.Lib.Programs
import Gfm.Store.Manifest

/-!
# Content manifest promotion

The manifest lists the active content archives. A promotion publishes a side journal, then the
new manifest, then removes the journal; the recovery completes or cleans up a promotion that
was interrupted.

The two files are kept by what their readers find in them. Control checks, faults of the file
system and the death of the process are choices of the environment, asked for at every call;
both files are replaced by a rename, so a write that stops early leaves the old file.
-/

namespace Gfm.Store

open Programs Sorted

structure ContentManifestPromotion where
  manifest : ContentArchiveManifest
  retiredArchives : List ArchivePath
  missingRetirements : List ArchivePath
  deriving DecidableEq, Repr

structure ContentManifestPromotionJournal where
  previous : ContentArchiveManifest
  newArchive : ContentArchiveManifestEntry
  retiredPaths : List ArchivePath
  deriving DecidableEq, Repr

inductive ContentManifestPromotionRecoveryAction where
  | ready
  | completePromotion
  | removeStaleJournal
  | cannotRecover
  deriving DecidableEq, Repr

structure ContentManifestPromotionRecoveryPlan where
  action : ContentManifestPromotionRecoveryAction
  detail : Option String
  deriving DecidableEq, Repr

structure ContentManifestPromotionRecovery where
  before : ContentManifestPromotionRecoveryPlan
  after : ContentManifestPromotionRecoveryPlan
  completedPromotion : Bool
  removedJournal : Bool
  deriving DecidableEq, Repr

/-- A file, by what its reader makes of it. -/
inductive FileContent (Value : Type) where
  | absent
  | garbled (reason : String)
  | holds (value : Value)
  deriving DecidableEq, Repr

structure ManifestFiles where
  manifest : FileContent ContentArchiveManifest
  journal : FileContent ContentManifestPromotionJournal
  deriving DecidableEq, Repr

structure Choice where
  dies : Bool
  interrupt : Option GfmError
  fault : Option String

instance : Inhabited Choice := ⟨⟨false, none, none⟩⟩

abbrev Step (α : Type) := Program Choice ManifestFiles GfmError α

section Calls

def call : Step Choice := .ask fun choice => if choice.dies then .die else .done choice

def checkControl : Step Unit := do
  let choice ← call
  match choice.interrupt with
  | some error => .fail error
  | none => .done ()

def accessFile (path : Path) : Step Unit := do
  let choice ← call
  match choice.fault with
  | some message => .fail (.io path message)
  | none => .done ()

def files : Step ManifestFiles := .observe .done

def liftExcept {α : Type} : Except GfmError α → Step α
  | .ok value => .done value
  | .error error => .fail error

def forEach {Item : Type} (step : Item → Step Unit) : List Item → Step Unit
  | [] => .done ()
  | item :: items => do
      step item
      forEach step items

/-- `durable::atomic_write_checked`: everything goes to a temporary file, which is renamed. -/
def atomicWrite (path : Path) (writes : Step Unit) (publish : ManifestFiles → ManifestFiles) :
    Step Unit := do
  checkControl
  accessFile path
  checkControl
  writes
  checkControl
  accessFile path
  checkControl
  accessFile path
  checkControl
  accessFile path
  accessFile path
  .observe fun files => .install (publish files) (.done ())

end Calls

namespace ContentArchiveManifest

/-- A path counts from the directory of the manifest, which is absolute. -/
def resolved (manifestPath : Path) (entry : ContentArchiveManifestEntry) : ArchivePath :=
  resolveManifestPath (.absolute manifestPath) entry.path

@[simp]
theorem resolved_absolute {manifestPath : Path} {tier : ContentMergeTier} (path : Path) :
    resolved manifestPath ⟨tier, .absolute path⟩ = .absolute path := rfl

/-- What the reader accepts: some archives, no two at one resolved path. -/
def Readable (manifestPath : Path) (manifest : ContentArchiveManifest) : Prop :=
  manifest.archives ≠ [] ∧ (manifest.archives.map (resolved manifestPath)).Nodup

instance (manifestPath : Path) (manifest : ContentArchiveManifest) :
    Decidable (manifest.Readable manifestPath) := inferInstanceAs (Decidable (_ ∧ _))

/-- Every archive has a line, the first one the second line of the file. -/
def duplicateLine (manifestPath : Path) (repeated : ContentArchiveManifestEntry × Nat) : GfmError :=
  .format (manifestPath.display ++ " line " ++ toString (repeated.2 + 2) ++
    ": duplicate content archive path \x60" ++ repeated.1.path.display ++ "\x60")

def read (manifestPath : Path) : Step ContentArchiveManifest := do
  checkControl
  accessFile manifestPath
  checkControl
  match (← files).manifest with
  | .absent => .fail (.io manifestPath "No such file or directory (os error 2)")
  | .garbled reason => .fail (.format reason)
  | .holds manifest => do
      checkControl
      forEach (fun _ => do checkControl; accessFile manifestPath; checkControl) manifest.archives
      match firstRepeat (resolved manifestPath) manifest.archives with
      | some repeated => .fail (duplicateLine manifestPath repeated)
      | none => do
          checkControl
          liftExcept (Manifest.new id ArchivePath.display manifest.archives)

def write (manifestPath : Path) (manifest : ContentArchiveManifest) : Step Unit := do
  checkControl
  if manifest.archives = [] then .fail (.format "content manifest requires at least one archive")
  else
    atomicWrite manifestPath
      (do
        accessFile manifestPath
        checkControl
        forEach (fun _ => do checkControl; accessFile manifestPath) manifest.archives)
      fun files => { files with manifest := .holds manifest }

/-- The archives of a promotion, without the control checks. -/
def promoted (manifestPath : Path) (manifest : ContentArchiveManifest)
    (newArchive : ContentArchiveManifestEntry) (retiredPaths : List ArchivePath) :
    Except GfmError ContentManifestPromotion :=
  let retiredSet := sortDedup (retiredPaths.map (resolveManifestPath (.absolute manifestPath)))
  let retires (entry : ContentArchiveManifestEntry) : Bool :=
    resolved manifestPath entry ∈ retiredSet ||
      resolved manifestPath entry = resolved manifestPath newArchive
  let retiredArchives := (manifest.archives.filter retires).map (resolved manifestPath)
  let retained := manifest.archives.filter fun entry => !retires entry
  (Manifest.new id ArchivePath.display (retained ++ [newArchive])).map fun manifest =>
    { manifest, retiredArchives
      missingRetirements := retiredSet.filter fun path => path ∉ retiredArchives }

def promoteArchive (manifestPath : Path) (manifest : ContentArchiveManifest)
    (newArchive : ContentArchiveManifestEntry) (retiredPaths : List ArchivePath) :
    Step ContentManifestPromotion := do
  checkControl
  forEach (fun _ => checkControl) retiredPaths
  checkControl
  checkControl
  forEach (fun _ => checkControl) manifest.archives
  checkControl
  checkControl
  liftExcept (promoted manifestPath manifest newArchive retiredPaths)

end ContentArchiveManifest

def contentManifestPromotionJournalPath (manifestPath : Path) : Path :=
  manifestPath.dropLast ++
    ["." ++ (Path.fileName manifestPath).getD "content.gfmmanifest" ++ ".promotion-journal"]

namespace ContentManifestPromotionJournal

def new (previous : ContentArchiveManifest) (newArchive : ContentArchiveManifestEntry)
    (retiredPaths : List ArchivePath) : Except GfmError ContentManifestPromotionJournal :=
  if previous.archives = [] then
    .error (.format "content promotion journal requires previous manifest archives")
  else
    match firstRepeat id retiredPaths with
    | some (path, _) => .error (.format
        ("content promotion journal has duplicate retired archive path \x60" ++ path.display ++
          "\x60"))
    | none => .ok { previous, newArchive, retiredPaths }

def read (journalPath : Path) : Step ContentManifestPromotionJournal := do
  checkControl
  accessFile journalPath
  checkControl
  match (← files).journal with
  | .absent => .fail (.io journalPath "No such file or directory (os error 2)")
  | .garbled reason => .fail (.format reason)
  | .holds journal => do
      checkControl
      forEach (fun _ => do checkControl; accessFile journalPath; checkControl)
        journal.previous.archives
      forEach (fun _ => do checkControl; accessFile journalPath; checkControl)
        [journal.newArchive]
      forEach (fun _ => do checkControl; accessFile journalPath; checkControl)
        journal.retiredPaths
      checkControl
      let previous ← liftExcept (Manifest.new id ArchivePath.display
        journal.previous.archives)
      liftExcept (new previous journal.newArchive journal.retiredPaths)

def write (journalPath : Path) (journal : ContentManifestPromotionJournal) : Step Unit := do
  checkControl
  atomicWrite journalPath
    (do
      accessFile journalPath
      checkControl
      forEach (fun _ => do checkControl; accessFile journalPath) journal.previous.archives
      checkControl
      accessFile journalPath
      forEach (fun _ => do checkControl; accessFile journalPath) journal.retiredPaths)
    fun files => { files with journal := .holds journal }

def promotion (manifestPath : Path) (journal : ContentManifestPromotionJournal) :
    Step ContentManifestPromotion :=
  journal.previous.promoteArchive manifestPath journal.newArchive journal.retiredPaths

end ContentManifestPromotionJournal

def removeJournalIfExists (journalPath : Path) : Step Unit := do
  accessFile journalPath
  .observe fun files => .install { files with journal := .absent } (.done ())

def promoteContentArchiveManifest (manifestPath : Path)
    (newArchive : ContentArchiveManifestEntry) (retiredPaths : List ArchivePath) :
    Step ContentManifestPromotion := do
  checkControl
  let manifest ← ContentArchiveManifest.read manifestPath
  checkControl
  checkControl
  let journal ← liftExcept (ContentManifestPromotionJournal.new manifest newArchive retiredPaths)
  let journalPath := contentManifestPromotionJournalPath manifestPath
  checkControl
  journal.write journalPath
  checkControl
  let promotion ← manifest.promoteArchive manifestPath newArchive retiredPaths
  checkControl
  promotion.manifest.write manifestPath
  checkControl
  removeJournalIfExists journalPath
  .done promotion

/-- Opens every archive of the promoted manifest; the text of the first one that fails. -/
def firstUnreadable (manifestPath : Path) : List ContentArchiveManifestEntry → Step (Option String)
  | [] => .done none
  | entry :: entries => do
      checkControl
      let path := ContentArchiveManifest.resolved manifestPath entry
      match ← (accessFile path.components).attempt with
      | .error error =>
          .done (some ("promoted archive " ++ path.display ++ " is not readable: " ++ error.toText))
      | .ok () => do
          checkControl
          firstUnreadable manifestPath entries

def planContentManifestPromotionRecovery (manifestPath : Path) :
    Step ContentManifestPromotionRecoveryPlan := do
  let journalPath := contentManifestPromotionJournalPath manifestPath
  checkControl
  match ← (accessFile journalPath).attempt with
  | .error error =>
      .done ⟨.cannotRecover,
        some ("content promotion journal existence unavailable: " ++ error.toText)⟩
  | .ok () => do
      let journalExists := (← files).journal ≠ .absent
      checkControl
      if ¬journalExists then .done ⟨.ready, some "no pending promotion journal"⟩
      else
        match ← (ContentManifestPromotionJournal.read journalPath).attempt with
        | .error error => .done ⟨.cannotRecover, some error.toText⟩
        | .ok journal => do
            checkControl
            match ← (journal.promotion manifestPath).attempt with
            | .error error => .done ⟨.cannotRecover, some error.toText⟩
            | .ok promotion => do
                checkControl
                let current ← (ContentArchiveManifest.read manifestPath).attempt
                checkControl
                if current = .ok promotion.manifest then
                  .done ⟨.removeStaleJournal, some "manifest already contains promoted archive"⟩
                else
                  match ← firstUnreadable manifestPath promotion.manifest.archives with
                  | some detail => .done ⟨.cannotRecover, some detail⟩
                  | none =>
                      .done ⟨.completePromotion, match current with
                        | .error error => some error.toText
                        | .ok _ => none⟩

def recoverContentManifestPromotion (manifestPath : Path) :
    Step ContentManifestPromotionRecovery := do
  let journalPath := contentManifestPromotionJournalPath manifestPath
  checkControl
  let before ← planContentManifestPromotionRecovery manifestPath
  checkControl
  match before.action with
  | .ready => do
      checkControl
      let after ← planContentManifestPromotionRecovery manifestPath
      .done ⟨before, after, false, false⟩
  | .removeStaleJournal => do
      checkControl
      removeJournalIfExists journalPath
      checkControl
      checkControl
      let after ← planContentManifestPromotionRecovery manifestPath
      .done ⟨before, after, false, true⟩
  | .completePromotion => do
      checkControl
      let journal ← ContentManifestPromotionJournal.read journalPath
      checkControl
      let promotion ← journal.promotion manifestPath
      checkControl
      promotion.manifest.write manifestPath
      checkControl
      removeJournalIfExists journalPath
      checkControl
      checkControl
      let after ← planContentManifestPromotionRecovery manifestPath
      .done ⟨before, after, true, true⟩
  | .cannotRecover =>
      .fail (.format (manifestPath.display ++ " promotion cannot be recovered: " ++
        before.detail.getD "invalid promotion journal"))

end Gfm.Store

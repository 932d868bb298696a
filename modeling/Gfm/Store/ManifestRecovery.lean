import Gfm.Store.ContentArchive
import Gfm.Store.Manifest
import Gfm.Tsv

/-!
# Content manifest recovery

The recovery plans from the manifest file and the archives that it lists or that were discovered,
quarantines a manifest that cannot be read, writes the usable archives to a new one and plans
again. A disk gives what is at a path; two spellings name one file when they have the same
components.
-/

namespace Gfm.Store.ManifestRecovery

open LineLog

section Manifest

abbrev ContentArchiveManifestEntry := ManifestEntry Text

abbrev ContentArchiveManifest := Manifest Text

def resolveManifestPath (manifestPath : ArchivePath) (path : Text) : ArchivePath :=
  Store.resolveManifestPath manifestPath (.ofText path)

def contentManifestHeader : Text := "gfm-content-manifest-v1".toList

def tierName : ContentMergeTier → Text
  | .hot => "hot".toList
  | .warm => "warm".toList
  | .cold => "cold".toList

def parseTier (value : Text) : Except String ContentMergeTier :=
  if value = "hot".toList then .ok .hot
  else if value = "warm".toList then .ok .warm
  else if value = "cold".toList then .ok .cold
  else .error ("unsupported content archive tier \x60" ++ String.ofList value ++ "\x60")

def encodeEntry (entry : ContentArchiveManifestEntry) : Text :=
  Tsv.join ["archive".toList, tierName entry.tier, Tsv.escape entry.path]

theorem plain_tierName (tier : ContentMergeTier) : Tsv.Plain (tierName tier) := by
  cases tier <;> decide

theorem parseTier_tierName (tier : ContentMergeTier) : parseTier (tierName tier) = .ok tier := by
  cases tier <;> rfl

theorem plain_parts (entry : ContentArchiveManifestEntry) :
    ∀ part ∈ ["archive".toList, tierName entry.tier, Tsv.escape entry.path], Tsv.Plain part := by
  intro part listed
  simp only [List.mem_cons, List.not_mem_nil, or_false] at listed
  rcases listed with rfl | rfl | rfl
  · decide
  · exact plain_tierName entry.tier
  · exact Tsv.plain_escape entry.path

namespace ContentArchiveManifest

def new (archives : List ContentArchiveManifestEntry) : Except GfmError ContentArchiveManifest :=
  Manifest.new .ofText String.ofList archives

/-- What the writer puts into the file. -/
def text (manifest : ContentArchiveManifest) : Bytes :=
  (contentManifestHeader :: manifest.archives.map encodeEntry).flatMap fun line =>
    encodeText line ++ [newline]

end ContentArchiveManifest

/-- Characters with the White_Space property. -/
def isWhitespace (char : Char) : Bool :=
  let code := char.toNat
  (9 ≤ code && code ≤ 13) || code = 0x20 || code = 0x85 || code = 0xA0 || code = 0x1680 ||
    (0x2000 ≤ code && code ≤ 0x200A) || code = 0x2028 || code = 0x2029 || code = 0x202F ||
    code = 0x205F || code = 0x3000

variable (manifestPath : ArchivePath)

def lineError (line : Nat) (reason : String) : GfmError :=
  .format (manifestPath.display ++ " line " ++ toString line ++ ": " ++ reason)

/-- The tier and the path of a line, the tier not yet parsed. -/
def archiveLine (number : Nat) (line : Text) : Except GfmError (Text × Text) :=
  match Tsv.fields line with
  | [kind, tier, path] =>
      if kind ≠ "archive".toList then
        .error (lineError manifestPath number "expected archive, tier, path")
      else (Tsv.unescapeAs "content manifest" path).map fun path => (tier, path)
  | _ => .error (lineError manifestPath number "expected archive, tier, path")

/-- The entries of the lines from a line on, none of whose archives was seen before. -/
def readLines (seen : List ArchivePath) : Nat → List Bytes →
    Except GfmError (List ContentArchiveManifestEntry)
  | _, [] => .ok []
  | number, line :: rest =>
      match decodeText line with
      | none => .error (.io manifestPath.components "stream did not contain valid UTF-8")
      | some text =>
          if text.all isWhitespace then readLines seen (number + 1) rest
          else
            match archiveLine manifestPath number text with
            | .error error => .error error
            | .ok (tier, path) =>
                let resolved := resolveManifestPath manifestPath path
                if resolved ∈ seen then
                  .error (lineError manifestPath number ("duplicate content archive path \x60" ++
                    String.ofList path ++ "\x60"))
                else
                  match parseTier tier with
                  | .error reason => .error (lineError manifestPath number reason)
                  | .ok tier =>
                      (readLines (resolved :: seen) (number + 1) rest).map (⟨tier, path⟩ :: ·)

def readManifest (content : Bytes) : Except GfmError ContentArchiveManifest :=
  match lines content with
  | [] => .error (.format ("empty content manifest " ++ manifestPath.display))
  | header :: rest =>
      match decodeText header with
      | none => .error (.io manifestPath.components "stream did not contain valid UTF-8")
      | some header =>
          if header ≠ contentManifestHeader then
            .error (.format ("unsupported content manifest header \x60" ++ String.ofList header ++
              "\x60 in " ++ manifestPath.display))
          else
            match readLines manifestPath [] 2 rest with
            | .error error => .error error
            | .ok archives => ContentArchiveManifest.new archives

end Manifest

section Plan

/-- What is at a path: a file, one that cannot be read, or one whose metadata cannot be read. -/
inductive Node where
  | file (content : Bytes)
  | unreadable (message : String)
  | hidden (message : String)

/-- Why the metadata cannot be read. -/
def Node.fault : Node → Option String
  | .hidden message => some message
  | _ => none

abbrev Disk := ArchivePath → Option Node

inductive ContentManifestRecoveryAction where
  | ready
  | writeDiscoveredManifest
  | quarantineManifestAndWriteDiscovered
  | pruneInvalidArchives
  | cannotRecover
  deriving DecidableEq, Repr

inductive ContentManifestRecoveryReason where
  | healthy
  | missingManifest
  | unreadableManifest
  | missingArchive
  | unreadableArchive
  | noUsableArchives
  deriving DecidableEq, Repr

structure ContentArchiveHealth where
  entry : ContentArchiveManifestEntry
  resolvedPath : ArchivePath
  detail : Option String

def ContentArchiveHealth.valid (health : ContentArchiveHealth) : Bool := health.detail.isNone

structure ContentManifestRecoveryPlan where
  action : ContentManifestRecoveryAction
  reason : ContentManifestRecoveryReason
  validArchives : List ContentArchiveHealth
  invalidArchives : List ContentArchiveHealth
  detail : Option String

variable (report : Bytes → String) (manifestPath : ArchivePath)

def missingFile (key : ArchivePath) : GfmError :=
  .io key.components "No such file or directory (os error 2)"

/-- Why the archive at a path cannot be opened; nothing where it can. -/
def archiveDetail (disk : Disk) (key : ArchivePath) : Except Fault (Option String) :=
  match disk key with
  | none => .ok (some (missingFile key).toText)
  | some (.unreadable message) | some (.hidden message) =>
      .ok (some (GfmError.io key.components message).toText)
  | some (.file content) =>
      match MmapContentArchive.openArchive key.components report content with
      | .ok _ => .ok none
      | .error (.error error) => .ok (some error.toText)
      | .error .panic => .error .panic

def archiveHealth (disk : Disk) (entry : ContentArchiveManifestEntry) :
    Except Fault ContentArchiveHealth :=
  let key := resolveManifestPath manifestPath entry.path
  (archiveDetail report disk key).map fun detail => ⟨entry, key, detail⟩

def classifyArchives (disk : Disk) (archives : List ContentArchiveManifestEntry) :
    Except Fault (List ContentArchiveHealth × List ContentArchiveHealth) :=
  (archives.mapM (archiveHealth report manifestPath disk)).map fun healths =>
    (healths.filter ContentArchiveHealth.valid, healths.filter fun health => !health.valid)

def isMissingArchive (detail : String) : Bool :=
  ["No such file", "no such file", "os error 2", "not found"].any fun words =>
    words.toList <:+: detail.toList

def invalidReason (invalid : List ContentArchiveHealth) : ContentManifestRecoveryReason :=
  if invalid.any fun health => health.detail.any isMissingArchive then .missingArchive
  else .unreadableArchive

def planFromDiscovered (valid invalid : List ContentArchiveHealth)
    (reason : ContentManifestRecoveryReason) (detail : Option String) :
    ContentManifestRecoveryPlan :=
  if valid.isEmpty then
    ⟨.cannotRecover, .noUsableArchives, valid, invalid,
      some (detail.getD "no valid discovered content archives are available")⟩
  else if reason = .unreadableManifest then
    ⟨.quarantineManifestAndWriteDiscovered, reason, valid, invalid, detail⟩
  else ⟨.writeDiscoveredManifest, reason, valid, invalid, detail⟩

def readNode : Node → Except GfmError ContentArchiveManifest
  | .unreadable message | .hidden message => .error (.io manifestPath.components message)
  | .file content => readManifest manifestPath content

variable (discovered : List ContentArchiveManifestEntry)

def planContentManifestRecovery (disk : Disk) : Except Fault ContentManifestRecoveryPlan :=
  match disk manifestPath with
  | none => do
      let (valid, invalid) ← classifyArchives report manifestPath disk discovered
      pure (planFromDiscovered valid invalid .missingManifest none)
  | some node =>
      match node.fault with
      | some message =>
          pure ⟨.cannotRecover, .unreadableManifest, [], [],
            some ("content manifest existence unavailable: " ++ message)⟩
      | none =>
          match readNode manifestPath node with
          | .error error => do
              let (valid, invalid) ← classifyArchives report manifestPath disk discovered
              pure (planFromDiscovered valid invalid .unreadableManifest (some error.toText))
          | .ok manifest => do
              let (valid, invalid) ← classifyArchives report manifestPath disk manifest.archives
              if invalid.isEmpty then pure ⟨.ready, .healthy, valid, invalid, none⟩
              else if !valid.isEmpty then
                pure ⟨.pruneInvalidArchives, invalidReason invalid, valid, invalid, none⟩
              else
                let (discoveredValid, discoveredInvalid) ←
                  classifyArchives report manifestPath disk discovered
                let invalidArchives := invalid ++ discoveredInvalid
                if !discoveredValid.isEmpty then
                  pure ⟨.writeDiscoveredManifest, invalidReason invalidArchives, discoveredValid,
                    invalidArchives, some "manifest contains no usable active archives"⟩
                else
                  pure ⟨.cannotRecover, .noUsableArchives, [], invalidArchives,
                    some "no valid content archives are available for recovery"⟩

end Plan

section Recovery

structure ContentManifestRecovery where
  before : ContentManifestRecoveryPlan
  after : ContentManifestRecoveryPlan
  wroteManifest : Bool
  quarantinedManifestPath : Option ArchivePath

/-- What the file system answers to the calls that change it: making the quarantine directory and
renaming into it, and writing a file under another name and renaming it. -/
structure Answers where
  quarantine : Option GfmError
  write : Option GfmError

variable (report : Bytes → String) (manifestPath : ArchivePath)
  (discovered : List ContentArchiveManifestEntry) (quarantineDir : ArchivePath) (stamp : String)
  (answers : Answers)

/-- The stamp is the process id and the time. -/
def quarantinePath : ArchivePath :=
  let name := manifestPath.fileName.getD "content.gfmmanifest"
  quarantineDir.join (.relative [name ++ ".corrupt." ++ stamp])

def quarantineManifest (disk : Disk) : Except Fault ArchivePath × Disk :=
  match answers.quarantine with
  | some error => (.error (.error error), disk)
  | none =>
      let target := quarantinePath manifestPath quarantineDir stamp
      (.ok target, Function.update (Function.update disk manifestPath none) target
        (disk manifestPath))

def writeRecoveredManifest (plan : ContentManifestRecoveryPlan) (disk : Disk) :
    Except Fault Unit × Disk :=
  match ContentArchiveManifest.new (plan.validArchives.map ContentArchiveHealth.entry) with
  | .error error => (.error (.error error), disk)
  | .ok manifest =>
      match answers.write with
      | some error => (.error (.error error), disk)
      | none => (.ok (), Function.update disk manifestPath (some (.file manifest.text)))

/-- The plan that a recovery reports at its end. -/
def finished (before : ContentManifestRecoveryPlan) (wrote : Bool)
    (quarantined : Option ArchivePath) (disk : Disk) :
    Except Fault ContentManifestRecovery × Disk :=
  ((planContentManifestRecovery report manifestPath discovered disk).map fun after =>
    ⟨before, after, wrote, quarantined⟩, disk)

def recoverContentManifest (disk : Disk) : Except Fault ContentManifestRecovery × Disk :=
  match planContentManifestRecovery report manifestPath discovered disk with
  | .error fault => (.error fault, disk)
  | .ok before =>
      match before.action with
      | .ready => finished report manifestPath discovered before false none disk
      | .writeDiscoveredManifest | .pruneInvalidArchives =>
          match writeRecoveredManifest manifestPath answers before disk with
          | (.error fault, disk) => (.error fault, disk)
          | (.ok _, disk) => finished report manifestPath discovered before true none disk
      | .quarantineManifestAndWriteDiscovered =>
          match quarantineManifest manifestPath quarantineDir stamp answers disk with
          | (.error fault, disk) => (.error fault, disk)
          | (.ok target, disk) =>
              match writeRecoveredManifest manifestPath answers before disk with
              | (.error fault, disk) => (.error fault, disk)
              | (.ok _, disk) =>
                  finished report manifestPath discovered before true (some target) disk
      | .cannotRecover =>
          (.error (.error (.format (manifestPath.display ++ " cannot be recovered: " ++
            before.detail.getD "no usable content archives"))), disk)

end Recovery

end Gfm.Store.ManifestRecovery

import Gfm.Store.Promotion

/-!
# Recovered promotions

Along a run of promotions, direct writes of the manifest and recoveries, each of them
interrupted anywhere, a pending journal and the manifest fit together: the manifest is the one
the journal replaces or the promoted one. A direct write while a journal is pending breaks this,
since the recovery does not look at what it replaces.
-/

namespace Gfm.Store

open Programs

section Reading

theorem readsOnly_call : ReadsOnly call := by
  intro Always files holds choice _
  cases dies : choice.dies with
  | false =>
      simp only [dies, Bool.false_eq_true, if_false]
      exact holds
  | true =>
      simp only [dies, if_true]
      exact holds

theorem readsOnly_checkControl : ReadsOnly checkControl := by
  refine readsOnly_call.bind fun choice => ?_
  cases choice.interrupt with
  | none => exact ReadsOnly.done
  | some error => exact ReadsOnly.fail

theorem readsOnly_accessFile (path : Path) : ReadsOnly (accessFile path) := by
  refine readsOnly_call.bind fun choice => ?_
  cases choice.fault with
  | none => exact ReadsOnly.done
  | some message => exact ReadsOnly.fail

theorem readsOnly_liftExcept {α : Type} (result : Except GfmError α) :
    ReadsOnly (liftExcept result) := by
  cases result with
  | ok value => exact ReadsOnly.done
  | error error => exact ReadsOnly.fail

theorem meets_liftExcept {α : Type} (result : Except GfmError α) (before : ManifestFiles) :
    Meets (fun _ => True) (liftExcept result)
      (fun value after => after = before ∧ result = .ok value) (fun _ after => after = before)
      before := by
  cases result with
  | ok value => exact ⟨rfl, rfl⟩
  | error error => exact rfl

theorem readsOnly_forEach {Item : Type} {step : Item → Step Unit}
    (each : ∀ item, ReadsOnly (step item)) (items : List Item) :
    ReadsOnly (forEach step items) := by
  induction items with
  | nil => exact ReadsOnly.done
  | cons item items ih => exact (each item).bind fun _ => ih

theorem readsOnly_line (path : Path) : ReadsOnly (do checkControl; accessFile path; checkControl) :=
  readsOnly_checkControl.bind fun _ => (readsOnly_accessFile path).bind fun _ =>
    readsOnly_checkControl

theorem readsOnly_written (path : Path) : ReadsOnly (do checkControl; accessFile path) :=
  readsOnly_checkControl.bind fun _ => readsOnly_accessFile path

theorem journal_new_eq {previous : ContentArchiveManifest}
    {newArchive : ContentArchiveManifestEntry} {retiredPaths : List ArchivePath}
    {journal : ContentManifestPromotionJournal}
    (made : ContentManifestPromotionJournal.new previous newArchive retiredPaths = .ok journal) :
    journal = ⟨previous, newArchive, retiredPaths⟩ := by
  simp only [ContentManifestPromotionJournal.new] at made
  split at made
  case isTrue => cases made
  case isFalse =>
    split at made
    case h_1 => cases made
    case h_2 => cases made; rfl

variable {manifestPath : Path} {before : ManifestFiles}

theorem readsOnly_readManifest : ReadsOnly (ContentArchiveManifest.read manifestPath) := by
  refine readsOnly_checkControl.bind fun _ => (readsOnly_accessFile manifestPath).bind fun _ =>
    readsOnly_checkControl.bind fun _ => ReadsOnly.observe.bind fun seen => ?_
  cases seen.manifest with
  | absent => exact ReadsOnly.fail
  | garbled reason => exact ReadsOnly.fail
  | holds manifest =>
      refine readsOnly_checkControl.bind fun _ => ?_
      refine (readsOnly_forEach (fun _ => readsOnly_line manifestPath) _).bind fun _ => ?_
      cases firstRepeat (ContentArchiveManifest.resolved manifestPath) manifest.archives with
      | some repeated => exact ReadsOnly.fail
      | none => exact readsOnly_checkControl.bind fun _ => readsOnly_liftExcept _

/-- What the reader of the manifest returns is what the file holds. -/
theorem meets_readManifest : Meets (fun _ => True) (ContentArchiveManifest.read manifestPath)
    (fun manifest after => after = before ∧ before.manifest = .holds manifest)
    (fun _ after => after = before) before := by
  refine readsOnly_checkControl.before (fun _ => ?_) fun _ => rfl
  refine (readsOnly_accessFile manifestPath).before (fun _ => ?_) fun _ => rfl
  refine readsOnly_checkControl.before (fun _ => ?_) fun _ => rfl
  refine Meets.observe_iff.mpr ?_
  cases held : before.manifest with
  | absent => exact rfl
  | garbled reason => exact rfl
  | holds manifest =>
      refine readsOnly_checkControl.before (fun _ => ?_) fun _ => rfl
      refine (readsOnly_forEach (fun _ => readsOnly_line manifestPath) _).before (fun _ => ?_)
        fun _ => rfl
      split
      case h_1 => exact rfl
      case h_2 =>
        refine readsOnly_checkControl.before (fun _ => ?_) fun _ => rfl
        cases made : Manifest.new id ArchivePath.display manifest.archives with
        | error error => exact rfl
        | ok read =>
            rw [(Manifest.new_eq_ok.mp made).2.2]
            exact ⟨rfl, rfl⟩

theorem readsOnly_readJournal (path : Path) :
    ReadsOnly (ContentManifestPromotionJournal.read path) := by
  refine readsOnly_checkControl.bind fun _ => (readsOnly_accessFile path).bind fun _ =>
    readsOnly_checkControl.bind fun _ => ReadsOnly.observe.bind fun seen => ?_
  have each : ∀ {Item : Type} (items : List Item),
      ReadsOnly (forEach (fun _ => do checkControl; accessFile path; checkControl) items) :=
    fun items => readsOnly_forEach (fun _ => readsOnly_line path) items
  cases seen.journal with
  | absent => exact ReadsOnly.fail
  | garbled reason => exact ReadsOnly.fail
  | holds journal =>
      refine readsOnly_checkControl.bind fun _ => (each _).bind fun _ => (each _).bind fun _ =>
        (each _).bind fun _ => readsOnly_checkControl.bind fun _ => ?_
      exact (readsOnly_liftExcept _).bind fun _ => readsOnly_liftExcept _

theorem meets_readJournal {path : Path} : Meets (fun _ => True)
    (ContentManifestPromotionJournal.read path)
    (fun journal after => after = before ∧ before.journal = .holds journal)
    (fun _ after => after = before) before := by
  refine readsOnly_checkControl.before (fun _ => ?_) fun _ => rfl
  refine (readsOnly_accessFile path).before (fun _ => ?_) fun _ => rfl
  refine readsOnly_checkControl.before (fun _ => ?_) fun _ => rfl
  refine Meets.observe_iff.mpr ?_
  have each : ∀ {Item : Type} (items : List Item),
      ReadsOnly (forEach (fun _ => do checkControl; accessFile path; checkControl) items) :=
    fun items => readsOnly_forEach (fun _ => readsOnly_line path) items
  cases held : before.journal with
  | absent => exact rfl
  | garbled reason => exact rfl
  | holds journal =>
      refine readsOnly_checkControl.before (fun _ => ?_) fun _ => rfl
      refine (each _).before (fun _ => ?_) fun _ => rfl
      refine (each _).before (fun _ => ?_) fun _ => rfl
      refine (each _).before (fun _ => ?_) fun _ => rfl
      refine readsOnly_checkControl.before (fun _ => ?_) fun _ => rfl
      refine (meets_liftExcept _ before).bind ?_ fun _ _ same => same
      rintro previous after ⟨rfl, known⟩
      refine (meets_liftExcept _ after).mono ?_ fun _ _ same => same
      rintro read final ⟨rfl, made⟩
      rw [journal_new_eq made, (Manifest.new_eq_ok.mp known).2.2]
      exact ⟨rfl, rfl⟩

theorem readsOnly_promoteArchive (manifest : ContentArchiveManifest)
    (newArchive : ContentArchiveManifestEntry) (retiredPaths : List ArchivePath) :
    ReadsOnly (manifest.promoteArchive manifestPath newArchive retiredPaths) :=
  readsOnly_checkControl.bind fun _ =>
    (readsOnly_forEach (fun _ => readsOnly_checkControl) _).bind fun _ =>
    readsOnly_checkControl.bind fun _ => readsOnly_checkControl.bind fun _ =>
    (readsOnly_forEach (fun _ => readsOnly_checkControl) _).bind fun _ =>
    readsOnly_checkControl.bind fun _ => readsOnly_checkControl.bind fun _ =>
    readsOnly_liftExcept _

theorem meets_promoteArchive (manifest : ContentArchiveManifest)
    (newArchive : ContentArchiveManifestEntry) (retiredPaths : List ArchivePath) :
    Meets (fun _ => True) (manifest.promoteArchive manifestPath newArchive retiredPaths)
      (fun promotion after => after = before ∧
        manifest.promoted manifestPath newArchive retiredPaths = .ok promotion)
      (fun _ after => after = before) before := by
  refine readsOnly_checkControl.before (fun _ => ?_) fun _ => rfl
  refine (readsOnly_forEach (fun _ => readsOnly_checkControl) _).before (fun _ => ?_) fun _ => rfl
  refine readsOnly_checkControl.before (fun _ => ?_) fun _ => rfl
  refine readsOnly_checkControl.before (fun _ => ?_) fun _ => rfl
  refine (readsOnly_forEach (fun _ => readsOnly_checkControl) _).before (fun _ => ?_) fun _ => rfl
  refine readsOnly_checkControl.before (fun _ => ?_) fun _ => rfl
  refine readsOnly_checkControl.before (fun _ => ?_) fun _ => rfl
  exact meets_liftExcept _ before

theorem readsOnly_firstUnreadable (entries : List ContentArchiveManifestEntry) :
    ReadsOnly (firstUnreadable manifestPath entries) := by
  induction entries with
  | nil => exact ReadsOnly.done
  | cons entry entries ih =>
      refine readsOnly_checkControl.bind fun _ =>
        (readsOnly_accessFile _).attempt.bind fun opened => ?_
      cases opened with
      | error error => exact ReadsOnly.done
      | ok opened => exact readsOnly_checkControl.bind fun _ => ih

theorem readsOnly_plan (manifestPath : Path) :
    ReadsOnly (planContentManifestPromotionRecovery manifestPath) := by
  refine readsOnly_checkControl.bind fun _ => (readsOnly_accessFile _).attempt.bind fun probed => ?_
  cases probed with
  | error error => exact ReadsOnly.done
  | ok probed =>
      refine ReadsOnly.observe.bind fun seen => readsOnly_checkControl.bind fun _ => ?_
      refine ReadsOnly.ite ReadsOnly.done ?_
      refine (readsOnly_readJournal _).attempt.bind fun read => ?_
      cases read with
      | error error => exact ReadsOnly.done
      | ok journal =>
          refine readsOnly_checkControl.bind fun _ =>
            (readsOnly_promoteArchive _ _ _).attempt.bind fun promoted => ?_
          cases promoted with
          | error error => exact ReadsOnly.done
          | ok promotion =>
              refine readsOnly_checkControl.bind fun _ =>
                readsOnly_readManifest.attempt.bind fun current =>
                readsOnly_checkControl.bind fun _ => ?_
              refine ReadsOnly.ite ReadsOnly.done ?_
              refine (readsOnly_firstUnreadable _).bind fun unreadable => ?_
              cases unreadable with
              | some detail => exact ReadsOnly.done
              | none => exact ReadsOnly.done

end Reading

section Writing

variable {manifestPath path : Path} {before : ManifestFiles}

/-- A file is replaced as a whole or not at all. -/
theorem meets_atomicWrite {writes : Step Unit} {publish : ManifestFiles → ManifestFiles}
    (readsOnly : ReadsOnly writes) :
    Meets (fun _ => True) (atomicWrite path writes publish)
      (fun _ after => after = publish before) (fun _ after => after = before) before := by
  have access := readsOnly_accessFile path
  refine readsOnly_checkControl.before (fun _ => ?_) fun _ => rfl
  refine access.before (fun _ => ?_) fun _ => rfl
  refine readsOnly_checkControl.before (fun _ => ?_) fun _ => rfl
  refine readsOnly.before (fun _ => ?_) fun _ => rfl
  refine readsOnly_checkControl.before (fun _ => ?_) fun _ => rfl
  refine access.before (fun _ => ?_) fun _ => rfl
  refine readsOnly_checkControl.before (fun _ => ?_) fun _ => rfl
  refine access.before (fun _ => ?_) fun _ => rfl
  refine readsOnly_checkControl.before (fun _ => ?_) fun _ => rfl
  refine access.before (fun _ => ?_) fun _ => rfl
  refine access.before (fun _ => ?_) fun _ => rfl
  exact rfl

theorem meets_writeManifest (manifest : ContentArchiveManifest) :
    Meets (fun _ => True) (manifest.write manifestPath)
      (fun _ after => after = { before with manifest := .holds manifest })
      (fun _ after => after = before) before := by
  refine readsOnly_checkControl.before (fun _ => ?_) fun _ => rfl
  split
  case isTrue => exact rfl
  case isFalse =>
    refine meets_atomicWrite ((readsOnly_accessFile _).bind fun _ =>
      readsOnly_checkControl.bind fun _ => ?_)
    exact readsOnly_forEach (fun _ => readsOnly_written manifestPath) _

theorem meets_writeJournal (journal : ContentManifestPromotionJournal) :
    Meets (fun _ => True) (journal.write path)
      (fun _ after => after = { before with journal := .holds journal })
      (fun _ after => after = before) before := by
  have each : ∀ {Item : Type} (items : List Item),
      ReadsOnly (forEach (fun _ => do checkControl; accessFile path) items) :=
    fun items => readsOnly_forEach (fun _ => readsOnly_written path) items
  refine readsOnly_checkControl.before (fun _ => ?_) fun _ => rfl
  refine meets_atomicWrite ((readsOnly_accessFile _).bind fun _ =>
    readsOnly_checkControl.bind fun _ => (each _).bind fun _ =>
    readsOnly_checkControl.bind fun _ => (readsOnly_accessFile _).bind fun _ => each _)

theorem meets_removeJournal : Meets (fun _ => True) (removeJournalIfExists path)
    (fun _ after => after = { before with journal := .absent }) (fun _ after => after = before)
    before :=
  (readsOnly_accessFile path).before (fun _ => rfl) fun _ => rfl

end Writing

/-- A manifest that its reader does not accept. -/
def Unreadable (manifestPath : Path) : FileContent ContentArchiveManifest → Prop
  | .holds manifest => ¬manifest.Readable manifestPath
  | _ => True

def ContentManifestPromotionJournal.Promotes (manifestPath : Path)
    (journal : ContentManifestPromotionJournal) (manifest : ContentArchiveManifest) : Prop :=
  ∃ promotion, journal.previous.promoted manifestPath journal.newArchive journal.retiredPaths =
    .ok promotion ∧ manifest = promotion.manifest

/-- A recovery completes a journaled promotion only over the manifest that the journal replaces,
or over one that cannot be read. -/
def RecoversInOrder (manifestPath : Path) (before after : ManifestFiles) : Prop :=
  after.manifest = before.manifest ∨ Unreadable manifestPath before.manifest ∨
    ∃ journal, before.journal = .holds journal ∧ before.manifest = .holds journal.previous

/-- The manifest beside a pending journal is the one it replaces or the promoted one. -/
def Settled (manifestPath : Path) (files : ManifestFiles) : Prop :=
  ∀ journal, files.journal = .holds journal →
    files.manifest = .holds journal.previous ∨
    ∃ manifest, files.manifest = .holds manifest ∧ journal.Promotes manifestPath manifest

section Steps

variable {manifestPath : Path} {before : ManifestFiles}

theorem settled_of_absent {files : ManifestFiles} (absent : files.journal = .absent) :
    Settled manifestPath files := by
  intro journal held
  rw [absent] at held
  cases held

theorem settled_of_promotes {journal : ContentManifestPromotionJournal}
    {manifest : ContentArchiveManifest} (promotes : journal.Promotes manifestPath manifest) :
    Settled manifestPath ⟨.holds manifest, .holds journal⟩ := by
  intro other held
  cases held
  exact .inr ⟨manifest, rfl, promotes⟩

theorem meets_promote (newArchive : ContentArchiveManifestEntry)
    (retiredPaths : List ArchivePath) (settled : Settled manifestPath before) :
    Meets (fun _ => True) (promoteContentArchiveManifest manifestPath newArchive retiredPaths)
      (fun _ => Settled manifestPath) (fun _ => Settled manifestPath) before := by
  refine readsOnly_checkControl.before (fun _ => ?_) fun _ => settled
  refine meets_readManifest.bind ?_ fun _ _ same => same ▸ settled
  rintro manifest _ ⟨rfl, held⟩
  refine readsOnly_checkControl.before (fun _ => ?_) fun _ => settled
  refine readsOnly_checkControl.before (fun _ => ?_) fun _ => settled
  refine (meets_liftExcept _ _).bind ?_ fun _ _ same => same ▸ settled
  rintro journal journaled ⟨rfl, made⟩
  refine readsOnly_checkControl.before (fun _ => ?_) fun _ => settled
  refine (meets_writeJournal journal).bind ?_ fun _ _ same => same ▸ settled
  rintro ⟨⟩ _ rfl
  -- From here on the journal is pending: first beside the manifest it replaces.
  have pending : Settled manifestPath { journaled with journal := .holds journal } := by
    intro other same
    cases same
    rw [journal_new_eq made]
    exact .inl held
  refine readsOnly_checkControl.before (fun _ => ?_) fun _ => pending
  refine (meets_promoteArchive manifest newArchive retiredPaths).bind ?_
    fun _ _ same => same ▸ pending
  rintro promotion _ ⟨rfl, promoted⟩
  refine readsOnly_checkControl.before (fun _ => ?_) fun _ => pending
  refine (meets_writeManifest promotion.manifest).bind ?_ fun _ _ same => same ▸ pending
  rintro ⟨⟩ _ rfl
  have published : Settled manifestPath ⟨.holds promotion.manifest, .holds journal⟩ := by
    refine settled_of_promotes ⟨promotion, ?_, rfl⟩
    rw [journal_new_eq made]
    exact promoted
  refine readsOnly_checkControl.before (fun _ => ?_) fun _ => published
  refine meets_removeJournal.bind ?_ fun _ _ same => same ▸ published
  rintro ⟨⟩ _ rfl
  exact settled_of_absent rfl

theorem meets_recover (settled : Settled manifestPath before) :
    Meets (fun _ => True) (recoverContentManifestPromotion manifestPath)
      (fun _ after => Settled manifestPath after ∧ RecoversInOrder manifestPath before after)
      (fun _ after => Settled manifestPath after ∧ RecoversInOrder manifestPath before after)
      before := by
  have unchanged : Settled manifestPath before ∧ RecoversInOrder manifestPath before before :=
    ⟨settled, .inl rfl⟩
  have removed : Settled manifestPath { before with journal := .absent } ∧
      RecoversInOrder manifestPath before { before with journal := .absent } :=
    ⟨settled_of_absent rfl, .inl rfl⟩
  refine readsOnly_checkControl.before (fun _ => ?_) fun _ => unchanged
  refine (readsOnly_plan manifestPath).before (fun plan => ?_) fun _ => unchanged
  refine readsOnly_checkControl.before (fun _ => ?_) fun _ => unchanged
  cases plan.action with
  | ready =>
      refine readsOnly_checkControl.before (fun _ => ?_) fun _ => unchanged
      exact (readsOnly_plan manifestPath).before (fun _ => unchanged) fun _ => unchanged
  | removeStaleJournal =>
      refine readsOnly_checkControl.before (fun _ => ?_) fun _ => unchanged
      refine meets_removeJournal.bind ?_ fun _ _ same => same ▸ unchanged
      rintro ⟨⟩ _ rfl
      refine readsOnly_checkControl.before (fun _ => ?_) fun _ => removed
      refine readsOnly_checkControl.before (fun _ => ?_) fun _ => removed
      exact (readsOnly_plan manifestPath).before (fun _ => removed) fun _ => removed
  | completePromotion =>
      refine readsOnly_checkControl.before (fun _ => ?_) fun _ => unchanged
      refine meets_readJournal.bind ?_ fun _ _ same => same ▸ unchanged
      rintro journal _ ⟨rfl, held⟩
      refine readsOnly_checkControl.before (fun _ => ?_) fun _ => unchanged
      refine (meets_promoteArchive _ _ _).bind ?_ fun _ _ same => same ▸ unchanged
      rintro promotion current ⟨rfl, promoted⟩
      refine readsOnly_checkControl.before (fun _ => ?_) fun _ => unchanged
      refine (meets_writeManifest promotion.manifest).bind ?_ fun _ _ same => same ▸ unchanged
      rintro ⟨⟩ _ rfl
      -- The manifest that is replaced: the invariant says which one it was.
      have inOrder : ∀ final : ManifestFiles, final.manifest = .holds promotion.manifest →
          RecoversInOrder manifestPath current final := by
        intro final published
        rcases settled journal held with previous | ⟨manifest, holds, other, again, same⟩
        · exact .inr (.inr ⟨journal, held, previous⟩)
        · rw [promoted] at again
          cases again
          rw [RecoversInOrder, published, holds, same]
          exact .inl rfl
      have published : Settled manifestPath { current with manifest := .holds promotion.manifest } ∧
          RecoversInOrder manifestPath current
            { current with manifest := .holds promotion.manifest } := by
        refine ⟨?_, inOrder _ rfl⟩
        have promotes : journal.Promotes manifestPath promotion.manifest :=
          ⟨promotion, promoted, rfl⟩
        have settledAfter := settled_of_promotes promotes
        rwa [← held] at settledAfter
      refine readsOnly_checkControl.before (fun _ => ?_) fun _ => published
      refine meets_removeJournal.bind ?_ fun _ _ same => same ▸ published
      rintro ⟨⟩ _ rfl
      have finished : Settled manifestPath ⟨.holds promotion.manifest, .absent⟩ ∧
          RecoversInOrder manifestPath current ⟨.holds promotion.manifest, .absent⟩ :=
        ⟨settled_of_absent rfl, inOrder _ rfl⟩
      refine readsOnly_checkControl.before (fun _ => ?_) fun _ => finished
      refine readsOnly_checkControl.before (fun _ => ?_) fun _ => finished
      exact (readsOnly_plan manifestPath).before (fun _ => finished) fun _ => finished
  | cannotRecover => exact unchanged

theorem meets_write {manifest : ContentArchiveManifest} (settled : Settled manifestPath before)
    (fits : ∀ journal, before.journal = .holds journal →
      manifest = journal.previous ∨ journal.Promotes manifestPath manifest) :
    Meets (fun _ => True) (manifest.write manifestPath) (fun _ => Settled manifestPath)
      (fun _ => Settled manifestPath) before := by
  refine (meets_writeManifest manifest).mono ?_ fun _ _ same => same ▸ settled
  rintro ⟨⟩ _ rfl journal held
  rcases fits journal held with rfl | promotes
  · exact .inl rfl
  · exact .inr ⟨manifest, rfl, promotes⟩

end Steps

section Runs

/-- What the processes that share the two files do. -/
inductive Action where
  | promote (newArchive : ContentArchiveManifestEntry) (retiredPaths : List ArchivePath)
  | write (manifest : ContentArchiveManifest)
  | recover
  deriving DecidableEq, Repr

variable (manifestPath : Path)

/-- The files after an action that ran on the script, however it ended. -/
def Action.after (script : List Choice) (before : ManifestFiles) : Action → ManifestFiles
  | .promote newArchive retiredPaths =>
      ((promoteContentArchiveManifest manifestPath newArchive retiredPaths).run script before).2
  | .write manifest => ((manifest.write manifestPath).run script before).2
  | .recover => ((recoverContentManifestPromotion manifestPath).run script before).2

/-- Every recovery of the run replaces the manifest in order. -/
def RunInOrder : ManifestFiles → List (Action × List Choice) → Prop
  | _, [] => True
  | before, (action, script) :: rest =>
      (action = .recover →
        RecoversInOrder manifestPath before (action.after manifestPath script before)) ∧
      RunInOrder (action.after manifestPath script before) rest

/-- A direct write while a journal is pending writes one of the two manifests the journal is
about. -/
def Action.Fits (before : ManifestFiles) : Action → Prop
  | .write manifest => ∀ journal, before.journal = .holds journal →
      manifest = journal.previous ∨ journal.Promotes manifestPath manifest
  | _ => True

def RunFits : ManifestFiles → List (Action × List Choice) → Prop
  | _, [] => True
  | before, (action, script) :: rest =>
      action.Fits manifestPath before ∧ RunFits (action.after manifestPath script before) rest

variable {manifestPath}

theorem settled_after {before : ManifestFiles} {action : Action} (script : List Choice)
    (settled : Settled manifestPath before) (fits : action.Fits manifestPath before) :
    Settled manifestPath (action.after manifestPath script before) := by
  cases action with
  | promote newArchive retiredPaths =>
      have run := (meets_promote newArchive retiredPaths settled).run trivial script
        fun _ _ => trivial
      rw [Action.after]
      revert run
      cases
        (promoteContentArchiveManifest manifestPath newArchive retiredPaths).run script before with
      | mk outcome after => cases outcome <;> exact id
  | write manifest =>
      have run := (meets_write settled fits).run trivial script fun _ _ => trivial
      rw [Action.after]
      revert run
      cases (manifest.write manifestPath).run script before with
      | mk outcome after => cases outcome <;> exact id
  | recover =>
      have run := (meets_recover settled).run trivial script fun _ _ => trivial
      rw [Action.after]
      revert run
      cases (recoverContentManifestPromotion manifestPath).run script before with
      | mk outcome after => cases outcome <;> exact And.left

theorem inOrder_of_settled {before : ManifestFiles} (script : List Choice)
    (settled : Settled manifestPath before) :
    RecoversInOrder manifestPath before (Action.recover.after manifestPath script before) := by
  have run := (meets_recover settled).run trivial script fun _ _ => trivial
  rw [Action.after]
  revert run
  cases (recoverContentManifestPromotion manifestPath).run script before with
  | mk outcome after => cases outcome <;> exact And.right

theorem runInOrder_of_settled {before : ManifestFiles} {run : List (Action × List Choice)}
    (settled : Settled manifestPath before) (fits : RunFits manifestPath before run) :
    RunInOrder manifestPath before run := by
  induction run generalizing before with
  | nil => trivial
  | cons step run ih =>
      rcases step with ⟨action, script⟩
      refine ⟨?_, ih (settled_after script settled fits.1) fits.2⟩
      rintro rfl
      exact inOrder_of_settled script settled

section Regression

def newest : ContentArchiveManifest := ⟨[⟨.warm, .relative ["c.gfmcontent"]⟩]⟩

/-- A promotion of `b` over `a` that dies once its journal is written, a direct write of `c`,
and a recovery. -/
def regressingRun (newArchive : ContentArchiveManifest) : List (Action × List Choice) :=
  [(.promote ⟨.warm, .relative ["b.gfmcontent"]⟩ [.relative ["a.gfmcontent"]],
      List.replicate 40 default ++ [⟨true, none, none⟩]),
    (.write newArchive, []), (.recover, [])]

def firstManifest : FileContent ContentArchiveManifest :=
  .holds ⟨[⟨.hot, .relative ["a.gfmcontent"]⟩]⟩

def pendingJournal : ContentManifestPromotionJournal where
  previous := ⟨[⟨.hot, .relative ["a.gfmcontent"]⟩]⟩
  newArchive := ⟨.warm, .relative ["b.gfmcontent"]⟩
  retiredPaths := [.relative ["a.gfmcontent"]]

end Regression

end Runs

end Gfm.Store

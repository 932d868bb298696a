import Mathlib

/-!
# Updates that read a file and replace it

A keyed store is a file of records. An update probes for the file, reads it, changes the
records in memory and replaces the whole file at once; nothing excludes another update in
between. Two updates of different records run in any interleaving of their steps. They are
both stored exactly if at no moment both have read the file and are about to replace it.
-/

namespace Replacing

variable {Record Key : Type}

/-- How the records of a file are read, and what an update of one of them writes: nothing where
the record is already there. -/
structure Store (Record Key : Type) where
  key : Record → Key
  read : List Record → List Record
  upsert : List Record → Record → Option (List Record)

namespace Store

variable (store : Store Record Key) [DecidableEq Key]

def lookup (records : List Record) (key : Key) : Option Record :=
  (store.read records).find? fun record => store.key record = key

/-- What the interleavings need to know of a store. -/
structure Lawful : Prop where
  empty : store.read [] = []
  stored : ∀ {records record after}, store.upsert (store.read records) record = some after →
    store.lookup after (store.key record) = some record
  unchanged : ∀ {records record}, store.upsert (store.read records) record = none →
    store.lookup records (store.key record) = some record
  kept : ∀ {records record after key}, store.upsert (store.read records) record = some after →
    key ≠ store.key record → store.lookup after key = store.lookup records key
  changed : ∀ {records record after}, store.upsert (store.read records) record = some after →
    store.lookup records (store.key record) ≠ some record

end Store

inductive Phase (Record : Type) where
  | idle
  | probed
  | staged (records : List Record)
  | returned
  | failed

structure System (Record : Type) where
  file : Option (List Record)
  /-- The two updates. -/
  phases : Bool → Phase Record

/-- A step of one update: it goes on, or it fails before it has replaced the file. -/
structure Step where
  update : Bool
  fails : Bool
  deriving DecidableEq, Repr

namespace System

variable (store : Store Record Key) (records : Bool → Record)

def setPhase (system : System Record) (update : Bool) (phase : Phase Record) : System Record :=
  { system with phases := Function.update system.phases update phase }

/-- What an update does with the records that it has read. -/
def stage (found : List Record) (record : Record) : Phase Record :=
  match store.upsert found record with
  | some after => .staged after
  | none => .returned

def advance (system : System Record) (update : Bool) : System Record :=
  match system.phases update with
  | .idle =>
      match system.file with
      | none => system.setPhase update (stage store [] (records update))
      | some _ => system.setPhase update .probed
  | .probed =>
      system.setPhase update (stage store (store.read (system.file.getD [])) (records update))
  | .staged after => { system.setPhase update .returned with file := some after }
  | .returned => system
  | .failed => system

def perform (system : System Record) (step : Step) : System Record :=
  if step.fails then
    match system.phases step.update with
    | .returned => system
    | _ => system.setPhase step.update .failed
  else system.advance store records step.update

def run (system : System Record) (schedule : List Step) : System Record :=
  schedule.foldl (perform store records) system

def start (file : Option (List Record)) : System Record := ⟨file, fun _ => .idle⟩

def Returned (system : System Record) (update : Bool) : Prop := system.phases update = .returned

/-- The file holds the record of the update. -/
def Stored [DecidableEq Key] (system : System Record) (update : Bool) : Prop :=
  store.lookup (system.file.getD []) (store.key (records update)) = some (records update)

/-- Both updates have read the file and are about to replace it. -/
def Overlaps (system : System Record) : Prop :=
  ∀ update, ∃ after, system.phases update = .staged after

section Runs

variable {store records} [DecidableEq Key] {system : System Record}

@[simp]
theorem phases_setPhase {update : Bool} {phase : Phase Record} :
    (system.setPhase update phase).phases update = phase := by
  simp [setPhase]

theorem phases_setPhase_of_ne {update other : Bool} {phase : Phase Record}
    (different : other ≠ update) :
    (system.setPhase update phase).phases other = system.phases other := by
  simp [setPhase, different]

@[simp]
theorem file_setPhase {update : Bool} {phase : Phase Record} :
    (system.setPhase update phase).file = system.file := rfl

/-- What an update has staged is made of the file as it is; what has returned is stored. -/
def Settled (store : Store Record Key) (records : Bool → Record) (system : System Record)
    (update : Bool) : Prop :=
  match system.phases update with
  | .staged after => store.upsert (store.read (system.file.getD [])) (records update) = some after
  | .returned => Stored store records system update
  | _ => True

theorem settled_setPhase {update other : Bool} {phase : Phase Record} (different : other ≠ update)
    (settled : Settled store records system other) :
    Settled store records (system.setPhase update phase) other := by
  unfold Settled Stored at *
  rw [phases_setPhase_of_ne different]
  exact settled

theorem settled_stage (lawful : store.Lawful) {update : Bool} :
    Settled store records
      (system.setPhase update (stage store (store.read (system.file.getD []))
        (records update))) update := by
  unfold stage
  split
  case h_1 after changed =>
    simp only [Settled, phases_setPhase, file_setPhase]
    exact changed
  case h_2 same =>
    simp only [Settled, phases_setPhase]
    exact lawful.unchanged same

/-- As long as the updates do not overlap, every step keeps them settled. -/
theorem settled_perform (lawful : store.Lawful)
    (distinct : store.key (records false) ≠ store.key (records true))
    (settled : ∀ update, Settled store records system update) (apart : ¬system.Overlaps)
    (step : Step) :
    ∀ update, Settled store records (system.perform store records step) update := by
  have failed : ∀ update, Settled store records (system.setPhase step.update .failed) update := by
    intro update
    by_cases same : update = step.update
    · rw [same]
      simp [Settled]
    · exact settled_setPhase same (settled update)
  have differ : ∀ {first second : Bool}, first ≠ second →
    store.key (records first) ≠ store.key (records second) := by
    intro first second different
    cases first <;> cases second
    · exact absurd rfl different
    · exact distinct
    · exact distinct.symm
    · exact absurd rfl different
  intro update
  unfold perform
  split
  case isTrue _ =>
    split
    · exact settled update
    · exact failed update
  case isFalse _ =>
    unfold advance
    rcases phase : system.phases step.update with _ | _ | after | _ | _
    · rcases file : system.file with _ | found
      · by_cases same : update = step.update
        · have staging : Settled store records (system.setPhase step.update
              (stage store (store.read (system.file.getD [])) (records step.update)))
              step.update := settled_stage lawful
          rw [file, Option.getD_none, lawful.empty] at staging
          rw [same]
          exact staging
        · exact settled_setPhase same (settled update)
      · by_cases same : update = step.update
        · rw [same]
          simp [Settled]
        · exact settled_setPhase same (settled update)
    · by_cases same : update = step.update
      · rw [same]
        exact settled_stage lawful
      · exact settled_setPhase same (settled update)
    · have staged := settled step.update
      simp only [Settled, phase] at staged
      by_cases same : update = step.update
      · rw [same]
        simp only [Settled, setPhase, Function.update_self, Stored, Option.getD_some]
        exact lawful.stored staged
      · have other := settled update
        simp only [Settled, setPhase, Function.update_of_ne same] at other ⊢
        rcases waiting : system.phases update with _ | _ | later | _ | _
        · trivial
        · trivial
        · refine absurd (fun one => ?_) apart
          by_cases this : one = step.update
          · exact ⟨after, this ▸ phase⟩
          · have equal : one = update := by
              revert this same
              cases one <;> cases update <;> cases step.update <;> decide
            exact ⟨later, equal ▸ waiting⟩
        · simp only [waiting, Stored] at other ⊢
          rw [Option.getD_some, lawful.kept staged (differ same)]
          exact other
        · trivial
    · exact settled update
    · exact settled update

/-- What the updates come to once both have read the file and have not replaced it. -/
inductive Clashed (store : Store Record Key) (records : Bool → Record) (system : System Record) :
    Prop where
  | staged (both : ∀ update, ∃ after, system.phases update = .staged after ∧
      store.upsert (store.read (system.file.getD [])) (records update) = some after)
  | replaced (first : Bool) (before after : List Record)
      (returned : system.phases first = .returned)
      (staged : system.phases (!first) = .staged after)
      (changed : store.upsert (store.read before) (records !first) = some after)
      (missing : store.lookup before (store.key (records first)) ≠ some (records first))
  | lost (first : Bool) (returned : ∀ update, system.phases update = .returned)
      (missing : ¬Stored store records system first)
  | failed (update : Bool) (stopped : system.phases update = .failed)

omit [DecidableEq Key] in
theorem distinct_not (distinct : store.key (records false) ≠ store.key (records true))
    (update : Bool) :
    store.key (records update) ≠ store.key (records !update) := by
  cases update
  · exact distinct
  · exact distinct.symm

/-- A clash stays: one of the updates fails, or the one that replaces first is lost. -/
theorem clashed_perform (lawful : store.Lawful)
    (distinct : store.key (records false) ≠ store.key (records true))
    (clashed : Clashed store records system) (step : Step) :
    Clashed store records (system.perform store records step) := by
  unfold perform
  split
  case isTrue _ =>
    split
    case h_1 _ => exact clashed
    case h_2 _ => exact .failed step.update phases_setPhase
  case isFalse _ =>
    cases clashed with
    | staged both =>
        rcases both step.update with ⟨after, phase, staged⟩
        rcases both (!step.update) with ⟨later, waiting, changed⟩
        unfold advance
        rw [phase]
        refine .replaced step.update (system.file.getD []) later ?_ ?_ changed
          (lawful.changed staged)
        · exact phases_setPhase
        · exact (phases_setPhase_of_ne (Bool.not_ne_self _)).trans waiting
    | replaced first before after returned staged changed missing =>
        unfold advance
        by_cases same : step.update = first
        · rw [same, returned]
          exact .replaced first before after returned staged changed missing
        · have other : step.update = !first := Bool.eq_not.mpr same
          rw [other, staged]
          refine .lost first ?_ ?_
          · intro update
            by_cases second : update = !first
            · rw [second]
              exact phases_setPhase
            · refine (phases_setPhase_of_ne second).trans ?_
              rw [Bool.eq_not, not_not] at second
              rw [second]
              exact returned
          · simp only [Stored, Option.getD_some]
            rw [lawful.kept changed (distinct_not distinct first)]
            exact missing
    | lost first returned missing =>
        unfold advance
        rw [returned step.update]
        exact .lost first returned missing
    | failed update stopped =>
        by_cases same : step.update = update
        · unfold advance
          rw [same, stopped]
          exact .failed update stopped
        · refine .failed update ?_
          have kept : ∀ phase, (system.setPhase step.update phase).phases update =
            system.phases update :=
            fun phase => phases_setPhase_of_ne fun equal => same equal.symm
          unfold advance
          split
          · split
            · exact (kept _).trans stopped
            · exact (kept _).trans stopped
          · exact (kept _).trans stopped
          · exact (kept _).trans stopped
          · exact stopped
          · exact stopped

theorem run_settled_or_clashed (lawful : store.Lawful)
    (distinct : store.key (records false) ≠ store.key (records true)) (schedule : List Step)
    (settled : ∀ update, Settled store records system update) :
    (∀ done, done <+: schedule → ¬(system.run store records done).Overlaps) ∧
        (∀ update, Settled store records (system.run store records schedule) update) ∨
      (∃ done, done <+: schedule ∧ (system.run store records done).Overlaps) ∧
        Clashed store records (system.run store records schedule) := by
  induction schedule generalizing system with
  | nil =>
      by_cases overlaps : system.Overlaps
      · refine .inr ⟨⟨[], List.nil_prefix, overlaps⟩, .staged fun update => ?_⟩
        rcases overlaps update with ⟨after, phase⟩
        have made := settled update
        simp only [Settled, phase] at made
        exact ⟨after, phase, made⟩
      · refine .inl ⟨fun done reached => ?_, settled⟩
        rw [List.prefix_nil.mp reached]
        exact overlaps
  | cons step schedule ih =>
      by_cases overlaps : system.Overlaps
      · refine .inr ⟨⟨[], List.nil_prefix, overlaps⟩, ?_⟩
        have clashed : Clashed store records system := .staged fun update => by
          rcases overlaps update with ⟨after, phase⟩
          have made := settled update
          simp only [Settled, phase] at made
          exact ⟨after, phase, made⟩
        clear ih overlaps settled
        generalize step :: schedule = steps
        induction steps generalizing system with
        | nil => exact clashed
        | cons step steps ih => exact ih (clashed_perform lawful distinct clashed step)
      · rcases ih (settled_perform lawful distinct settled overlaps step) with
          ⟨apart, made⟩ | ⟨⟨done, reached, meets⟩, clashed⟩
        · refine .inl ⟨fun done reached => ?_, made⟩
          cases done with
          | nil => exact overlaps
          | cons head done =>
              rcases List.cons_prefix_cons.mp reached with ⟨rfl, shorter⟩
              exact apart done shorter
        · exact .inr ⟨⟨step :: done, List.cons_prefix_cons.mpr ⟨rfl, reached⟩, meets⟩, clashed⟩

/-- Two updates of different records that have returned are both stored exactly if they did not
overlap. -/
theorem stored_iff (lawful : store.Lawful)
    (distinct : store.key (records false) ≠ store.key (records true))
    (file : Option (List Record)) (schedule : List Step)
    (returned : ∀ update, ((start file).run store records schedule).Returned update) :
    (∀ update, Stored store records ((start file).run store records schedule) update) ↔
      ∀ done, done <+: schedule → ¬((start file).run store records done).Overlaps := by
  have fresh : ∀ update, Settled store records (start file) update := fun _ => trivial
  rcases run_settled_or_clashed lawful distinct schedule fresh
    with ⟨apart, settled⟩ | ⟨⟨done, reached, overlaps⟩, clashed⟩
  · refine iff_of_true (fun update => ?_) apart
    have made := settled update
    simp only [Settled, show _ = _ from returned update] at made
    exact made
  · refine iff_of_false (fun stored => ?_) fun apart => apart done reached overlaps
    cases clashed with
    | staged both =>
        rcases both false with ⟨after, phase, _⟩
        have same := phase.symm.trans (returned false)
        contradiction
    | replaced first before after _ staged =>
        have same := staged.symm.trans (returned !first)
        contradiction
    | lost first _ missing => exact missing (stored first)
    | failed update stopped =>
        have same := stopped.symm.trans (returned update)
        contradiction

end Runs

end System

end Replacing

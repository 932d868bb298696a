import Gfm.Jobs.Recovery
import Gfm.Ops.Journal

/-!
# The operator

An operation is journaled as started, carried out, and journaled with how it ended; the retrying
form consults the journal after an error and may carry it out once more. What the file system,
the access gate and the control do is left open: each call has any outcome.
-/

namespace Gfm.Ops

inductive ConflictPolicy where
  | fail
  | replace
  | keepBoth
  | merge
  | skip
  deriving DecidableEq, Repr

structure OperationRecoveryPolicy where
  retryFailed : Bool
  maxAttempts : Jobs.U64
  deriving DecidableEq, Repr

def Operation.targetPath {Location : Type} : Operation Location → Option Location
  | .copy _ destination => some destination
  | .move _ destination => some destination
  | .rename _ destination => some destination
  | .restore _ destination => some destination
  | .delete _ => none
  | .trash _ => none
  | .emptyTrash _ => none

def operationStatusFromError : GfmError → OperationStatus
  | .paused => .paused
  | .cancelled => .cancelled
  | _ => .failed

namespace JournalEntry

variable (id : U128) (operation : Operation Text) (timestampNanos : U128)

def opened : JournalEntry := ⟨id, .started, operation, none, timestampNanos⟩

def completed : JournalEntry := ⟨id, .completed, operation, none, timestampNanos⟩

def skipped : JournalEntry :=
  ⟨id, .skipped, operation, some "operation skipped by conflict policy".toList, timestampNanos⟩

def fromError (error : GfmError) : JournalEntry :=
  match error with
  | .paused => ⟨id, .paused, operation, none, timestampNanos⟩
  | .cancelled => ⟨id, .cancelled, operation, none, timestampNanos⟩
  | error => ⟨id, .failed, operation, some error.toText.toList, timestampNanos⟩

end JournalEntry

section Recovery

structure OperationRecoveryState where
  id : U128
  operation : Operation Text
  lastStatus : OperationStatus
  startedCount : Nat
  message : Option Text
  timestampNanos : U128

structure OperationRecoveryPlan where
  entry : JournalEntry
  appendStarted : Bool

def openings (status : OperationStatus) : Nat := if status = .started then 1 else 0

def OperationRecoveryState.fromEntry (entry : JournalEntry) : OperationRecoveryState :=
  ⟨entry.id, entry.operation, entry.status, openings entry.status, entry.message,
    entry.timestampNanos⟩

def OperationRecoveryState.apply (state : OperationRecoveryState) (entry : JournalEntry) :
    OperationRecoveryState :=
  ⟨state.id, entry.operation, entry.status, state.startedCount + openings entry.status,
    entry.message, entry.timestampNanos⟩

def absorb (entry : JournalEntry) : List OperationRecoveryState → List OperationRecoveryState
  | [] => [.fromEntry entry]
  | state :: states =>
      if state.id = entry.id then state.apply entry :: states
      else state :: absorb entry states

def recoveryStates (entries : List JournalEntry) : List OperationRecoveryState :=
  entries.foldl (fun states entry => absorb entry states) []

variable (policy : OperationRecoveryPolicy)

def retryableFailureMessage (message : Option Text) (attempts : Nat) : Bool :=
  match message with
  | none => false
  | some message =>
      (Jobs.RetryPolicy.retryDecision ⟨policy.maxAttempts⟩ attempts
        (String.ofList message)).retryable

def OperationRecoveryState.plan (state : OperationRecoveryState) : Option OperationRecoveryPlan :=
  let failedRetryable := policy.retryFailed ∧ state.lastStatus = .failed ∧
    state.startedCount < (Jobs.RetryPolicy.mk policy.maxAttempts).attempts ∧
    retryableFailureMessage policy state.message state.startedCount
  let entry : JournalEntry :=
    ⟨state.id, state.lastStatus, state.operation, state.message, state.timestampNanos⟩
  if state.lastStatus = .started then some ⟨entry, false⟩
  else if state.lastStatus = .paused ∨ failedRetryable then some ⟨entry, true⟩
  else none

def recoverableOperations (entries : List JournalEntry) : List OperationRecoveryPlan :=
  ((recoveryStates entries).mergeSort fun left right => decide (left.timestampNanos <
    right.timestampNanos ∨ left.timestampNanos = right.timestampNanos ∧ left.id ≤ right.id)
    ).filterMap (·.plan policy)

/-- The one plan of an id, where there is one. -/
def retryPlan (entries : List JournalEntry) (id : U128) : Option OperationRecoveryPlan :=
  let recoverable := recoverableOperations policy entries
  match recoverable.getLast? with
  | none => none
  | some plan => if plan.entry.id ≠ id ∨ recoverable.dropLast ≠ [] then none else some plan

def retryDelayForFailedOperation (entries : List JournalEntry) (id : U128) : Option Nat :=
  let attempts := (entries.filter fun entry => entry.id = id ∧ entry.status = .started).length
  ((entries.reverse.find? fun entry => entry.id = id ∧ entry.status = .failed).bind
    JournalEntry.message).bind fun message =>
      let delay := (Jobs.RetryPolicy.retryDecision ⟨policy.maxAttempts⟩ attempts
        (String.ofList message)).nextDelayMs
      if 0 < delay then some delay else none

end Recovery

def sleepFrom (cancelled : Nat → Bool) (poll remaining : Nat) : Bool :=
  if remaining = 0 then true
  else if cancelled poll then false
  else sleepFrom cancelled (poll + 1) (remaining - min remaining 5)
  termination_by remaining

def sleepRetryBackoffChecked (cancelled : Nat → Bool) (delay : Nat) : Except GfmError Unit :=
  if cancelled 0 ∨ ¬sleepFrom cancelled 1 delay then .error .cancelled else .ok ()

/-- The appends of a run: at the opening and at the end of an attempt. -/
inductive Place where
  | opened (attempt : Nat)
  | closed (attempt : Nat)
  deriving DecidableEq, Repr

/-- What a run of an operation meets. The attempts are numbered from one; the gate is asked once
before the first. -/
structure Setting where
  conflict : ConflictPolicy
  path : Path
  id : U128
  clock : Place → U128
  gate : Nat → Option GfmError
  resolved : Except GfmError (Operation Text)
  targetExists : Nat → Except String Bool
  retryProbe : Option (Nat → Except GfmError Unit)
  plan : Nat → Except GfmError Unit
  apply : Nat → Except GfmError Unit
  appendFault : Place → Option String
  readFault : Option String
  cancelled : Nat → Bool

/-- How a run returns, the journal then, and the id that it journaled as started. -/
structure Run where
  result : Except GfmError JournalEntry
  journal : List JournalEntry
  started : Option U128

namespace Setting

variable (setting : Setting)

def append (place : Place) (journal : List JournalEntry) (entry : JournalEntry) :
    Except GfmError (List JournalEntry) :=
  match setting.appendFault place with
  | some message => .error (.io setting.path message)
  | none => .ok (journal ++ [entry])

def shouldSkipOperation (attempt : Nat) (operation : Operation Text) : Except GfmError Bool :=
  if setting.conflict ≠ .skip then .ok false
  else
    match operation.targetPath with
    | none => .ok false
    | some target => (setting.targetExists attempt).mapError fun message =>
        .io [String.ofList target] ("path existence unavailable: " ++ message)

/-- The attempt ends with an error that is journaled; a fault of the append goes unnoticed. -/
def failAttempt (attempt : Nat) (operation : Operation Text) (journal : List JournalEntry)
    (error : GfmError) : Except GfmError JournalEntry × List JournalEntry :=
  match setting.append (.closed attempt) journal
      (.fromError setting.id operation (setting.clock (.closed attempt)) error) with
  | .ok journal => (.error error, journal)
  | .error _ => (.error error, journal)

def endAttempt (attempt : Nat) (journal : List JournalEntry) (entry : JournalEntry) :
    Except GfmError JournalEntry × List JournalEntry :=
  match setting.append (.closed attempt) journal entry with
  | .ok journal => (.ok entry, journal)
  | .error error => (.error error, journal)

def executeStartedInner (attempt : Nat) (operation : Operation Text)
    (journal : List JournalEntry) : Except GfmError JournalEntry × List JournalEntry :=
  match setting.gate attempt with
  | some error => setting.failAttempt attempt operation journal error
  | none =>
      match setting.shouldSkipOperation attempt operation with
      -- The question mark leaves here without an entry.
      | .error error => (.error error, journal)
      | .ok true =>
          setting.endAttempt attempt journal
            (.skipped setting.id operation (setting.clock (.closed attempt)))
      | .ok false =>
          match setting.retryProbe.elim (.ok ()) (· attempt) with
          | .error error => setting.failAttempt attempt operation journal error
          | .ok () =>
              match setting.plan attempt with
              | .error error => setting.failAttempt attempt operation journal error
              | .ok () =>
                  match setting.apply attempt with
                  | .error error => setting.failAttempt attempt operation journal error
                  | .ok () =>
                      setting.endAttempt attempt journal
                        (.completed setting.id operation (setting.clock (.closed attempt)))

def executeWithProgress (operation : Operation Text) (journal : List JournalEntry) : Run :=
  match setting.gate 0 with
  | some error =>
      match setting.append (.opened 0) journal
          (.opened setting.id operation (setting.clock (.opened 0))) with
      | .error error => ⟨.error error, journal, none⟩
      | .ok journal =>
          let (result, journal) := setting.failAttempt 0 operation journal error
          ⟨result, journal, some setting.id⟩
  | none =>
      match setting.resolved with
      | .error error => ⟨.error error, journal, none⟩
      | .ok operation =>
          match setting.append (.opened 1) journal
              (.opened setting.id operation (setting.clock (.opened 1))) with
          | .error error => ⟨.error error, journal, none⟩
          | .ok journal =>
              let (result, journal) := setting.executeStartedInner 1 operation journal
              ⟨result, journal, some setting.id⟩

/-- The entries of the run's id, as they are read back. -/
def ownEntries (journal : List JournalEntry) : List JournalEntry :=
  (journal.map JournalEntry.kept).filter fun entry => entry.id = setting.id

/-- The second attempt, where the journal plans one. -/
def retryFailedById (policy : OperationRecoveryPolicy) (journal : List JournalEntry) :
    Except GfmError (Option JournalEntry) × List JournalEntry :=
  match setting.readFault with
  | some message => (.error (.io setting.path message), journal)
  | none =>
      let entries := setting.ownEntries journal
      match retryPlan policy entries setting.id with
      | none => (.ok none, journal)
      | some plan =>
          match (retryDelayForFailedOperation policy entries setting.id).elim (.ok ())
              (sleepRetryBackoffChecked setting.cancelled) with
          | .error error => (.error error, journal)
          | .ok () =>
              let opened :=
                if plan.appendStarted then
                  setting.append (.opened 2) journal
                    (.opened setting.id plan.entry.operation (setting.clock (.opened 2)))
                else .ok journal
              match opened with
              | .error error => (.error error, journal)
              | .ok journal =>
                  let (result, journal) :=
                    setting.executeStartedInner 2 plan.entry.operation journal
                  (result.map some, journal)

/-- The run of an opened operation whose first attempt failed, after the retry. -/
def afterRetry (id : U128) (failure : GfmError) :
    Except GfmError (Option JournalEntry) × List JournalEntry → Run
  | (.error error, journal) => ⟨.error error, journal, some id⟩
  | (.ok (some entry), journal) => ⟨.ok entry, journal, some id⟩
  | (.ok none, journal) => ⟨.error failure, journal, some id⟩

def executeWithRetryPolicyAndProgress (policy : OperationRecoveryPolicy)
    (operation : Operation Text) (journal : List JournalEntry) : Run :=
  let run := setting.executeWithProgress operation journal
  match run.started, run.result with
  | some id, .error error => afterRetry id error (setting.retryFailedById policy run.journal)
  | _, _ => run

/-- The target's existence is asked for after the opening, and cannot be told. -/
def SkipUnknown (attempt : Nat) (operation : Operation Text) : Prop :=
  setting.gate attempt = none ∧ ∃ error, setting.shouldSkipOperation attempt operation =
    .error error

def AppendsSucceed : Prop := ∀ place, setting.appendFault place = none

end Setting

/-- How a status agrees with what was returned. -/
def Agrees (result : Except GfmError JournalEntry) (status : OperationStatus) : Prop :=
  match result with
  | .ok entry => entry.status = status ∧ (status = .completed ∨ status = .skipped)
  | .error error => status = operationStatusFromError error

/-- A run that journaled an id as started has a last entry of that id, which is not a start and
agrees with what was returned. -/
def Run.Settled (run : Run) : Prop :=
  ∀ id, run.started = some id → ∃ entry,
    (run.journal.filter fun entry => entry.id = id).getLast? = some entry ∧
      entry.status ≠ .started ∧ Agrees run.result entry.status

section Attempts

variable {setting : Setting} {attempt : Nat} {operation : Operation Text}
  {journal : List JournalEntry}

theorem status_fromError (id : U128) (operation : Operation Text) (timestamp : U128)
    (error : GfmError) : (JournalEntry.fromError id operation timestamp error).status =
      operationStatusFromError error := by
  cases error <;> rfl

theorem id_fromError (id : U128) (operation : Operation Text) (timestamp : U128)
    (error : GfmError) : (JournalEntry.fromError id operation timestamp error).id = id := by
  cases error <;> rfl

theorem operationStatusFromError_ne_started (error : GfmError) :
    operationStatusFromError error ≠ .started := by
  cases error <;> simp [operationStatusFromError]

/-- The attempt has journaled how it ended. -/
def Closed (setting : Setting) (journal : List JournalEntry)
    (outcome : Except GfmError JournalEntry × List JournalEntry) : Prop :=
  ∃ entry : JournalEntry, outcome.2 = journal ++ [entry] ∧ entry.id = setting.id ∧
    entry.status ≠ .started ∧ Agrees outcome.1 entry.status

theorem failAttempt_closed (succeed : setting.AppendsSucceed) (error : GfmError) :
    Closed setting journal (setting.failAttempt attempt operation journal error) := by
  refine ⟨.fromError setting.id operation (setting.clock (.closed attempt)) error, ?_,
    id_fromError _ _ _ _, ?_, ?_⟩
  · simp only [Setting.failAttempt, Setting.append, succeed (.closed attempt)]
  · rw [status_fromError]
    exact operationStatusFromError_ne_started error
  · simp only [Setting.failAttempt, Setting.append, succeed (.closed attempt), Agrees]
    exact status_fromError _ _ _ _

theorem endAttempt_closed (succeed : setting.AppendsSucceed) {entry : JournalEntry}
    (own : entry.id = setting.id) (ended : entry.status = .completed ∨ entry.status = .skipped) :
    Closed setting journal (setting.endAttempt attempt journal entry) := by
  refine ⟨entry, ?_, own, ?_, ?_⟩
  · simp only [Setting.endAttempt, Setting.append, succeed (.closed attempt)]
  · rcases ended with status | status
    · simp [status]
    · simp [status]
  · simp only [Setting.endAttempt, Setting.append, succeed (.closed attempt), Agrees]
    exact ⟨trivial, ended⟩

/-- An attempt closes, unless it cannot tell whether to skip. -/
theorem executeStartedInner_closed (succeed : setting.AppendsSucceed)
    (known : ¬setting.SkipUnknown attempt operation) :
    Closed setting journal (setting.executeStartedInner attempt operation journal) := by
  unfold Setting.executeStartedInner
  split
  · exact failAttempt_closed succeed _
  next open_ =>
    split
    next error skips => exact absurd ⟨open_, error, skips⟩ known
    · exact endAttempt_closed succeed rfl (.inr rfl)
    · split
      · exact failAttempt_closed succeed _
      · split
        · exact failAttempt_closed succeed _
        · split
          · exact failAttempt_closed succeed _
          · exact endAttempt_closed succeed rfl (.inl rfl)

theorem executeStartedInner_unknown (unknown : setting.SkipUnknown attempt operation) :
    ∃ error, setting.executeStartedInner attempt operation journal = (.error error, journal) := by
  rcases unknown with ⟨gate, error, skips⟩
  exact ⟨error, by simp only [Setting.executeStartedInner, gate, skips]⟩

end Attempts

section Plans

variable {policy : OperationRecoveryPolicy} {entries : List JournalEntry} {id : U128}
  {last : JournalEntry}

theorem recoveryStates_append (entries : List JournalEntry) (entry : JournalEntry) :
    recoveryStates (entries ++ [entry]) = absorb entry (recoveryStates entries) := by
  simp [recoveryStates]

/-- The entries of one id give one state, which has the status of the last of them. -/
theorem recoveryStates_single (own : ∀ entry ∈ entries, entry.id = id)
    (ends : entries.getLast? = some last) : ∃ state, recoveryStates entries = [state] ∧
      state.id = id ∧ state.lastStatus = last.status := by
  induction entries using List.reverseRecOn generalizing last with
  | nil => cases ends
  | append_singleton entries entry ih =>
      rw [List.getLast?_concat, Option.some.injEq] at ends
      subst ends
      have entryOwn : entry.id = id := own entry (by simp)
      have frontOwn : ∀ other ∈ entries, other.id = id :=
        fun other member => own other (List.mem_append_left _ member)
      rw [recoveryStates_append]
      cases before : entries.getLast? with
      | none =>
          rw [List.getLast?_eq_none_iff.mp before]
          exact ⟨.fromEntry entry, rfl, entryOwn, rfl⟩
      | some previous =>
          rcases ih frontOwn before with ⟨state, states, stateOwn, _⟩
          refine ⟨state.apply entry, ?_, stateOwn, rfl⟩
          rw [states, absorb, if_pos (stateOwn.trans entryOwn.symm)]

theorem retryPlan_single (own : ∀ entry ∈ entries, entry.id = id)
    (ends : entries.getLast? = some last) : ∃ state : OperationRecoveryState,
      state.lastStatus = last.status ∧ retryPlan policy entries id = state.plan policy := by
  rcases recoveryStates_single own ends with ⟨state, states, stateOwn, status⟩
  refine ⟨state, status, ?_⟩
  have planned : ∀ plan, state.plan policy = some plan → plan.entry.id = state.id := by
    intro plan found
    unfold OperationRecoveryState.plan at found
    dsimp only at found
    split at found
    · exact (Option.some.inj found) ▸ rfl
    · split at found
      · exact (Option.some.inj found) ▸ rfl
      · cases found
  unfold retryPlan recoverableOperations
  rw [states, List.mergeSort_singleton]
  cases found : state.plan policy with
  | none => simp [found]
  | some plan =>
      have same : plan.entry.id = id := (planned plan found).trans stateOwn
      simp [found, same]

/-- An operation that was left as started is always planned, without a new start. -/
theorem retryPlan_started (own : ∀ entry ∈ entries, entry.id = id)
    (ends : entries.getLast? = some last) (started : last.status = .started) :
    ∃ plan, retryPlan policy entries id = some plan := by
  rcases @retryPlan_single policy _ _ _ own ends with ⟨state, status, plans⟩
  rw [plans, OperationRecoveryState.plan, if_pos (status.trans started)]
  exact ⟨_, rfl⟩

/-- What is planned was left as started, or paused or failed and is started anew. -/
theorem retryPlan_status (own : ∀ entry ∈ entries, entry.id = id)
    (ends : entries.getLast? = some last) {plan : OperationRecoveryPlan}
    (planned : retryPlan policy entries id = some plan) :
    (last.status = .started ∧ plan.appendStarted = false) ∨
      ((last.status = .paused ∨ last.status = .failed) ∧ plan.appendStarted = true) := by
  rcases @retryPlan_single policy _ _ _ own ends with ⟨state, status, plans⟩
  rw [plans, OperationRecoveryState.plan, status] at planned
  split at planned
  case isTrue started => exact .inl ⟨started, (Option.some.inj planned) ▸ rfl⟩
  case isFalse _ =>
    split at planned
    case isTrue retried =>
      refine .inr ⟨?_, (Option.some.inj planned) ▸ rfl⟩
      rcases retried with paused | failed
      · exact .inl paused
      · exact .inr failed.2.1
    case isFalse _ => cases planned

end Plans

section Runs

variable {setting : Setting} {operation : Operation Text} {journal : List JournalEntry}
  {policy : OperationRecoveryPolicy} {entry : JournalEntry}

/-- The last entry of an id. -/
def lastOf (journal : List JournalEntry) (id : U128) : Option JournalEntry :=
  (journal.filter fun entry => entry.id = id).getLast?

theorem lastOf_append {id : U128} (own : entry.id = id) :
    lastOf (journal ++ [entry]) id = some entry := by
  simp [lastOf, List.filter_append, own]

theorem status_kept (entry : JournalEntry) : entry.kept.status = entry.status := rfl

theorem getLast?_ownEntries (ends : lastOf journal setting.id = some entry) :
    (setting.ownEntries journal).getLast? = some entry.kept := by
  have kept : setting.ownEntries journal =
      (journal.filter fun entry => entry.id = setting.id).map JournalEntry.kept := by
    rw [Setting.ownEntries, List.filter_map]
    rfl
  rw [kept, List.getLast?_map]
  unfold lastOf at ends
  rw [ends]
  rfl

theorem ownEntries_own : ∀ entry ∈ setting.ownEntries journal, entry.id = setting.id := by
  intro entry member
  simpa using (List.mem_filter.mp member).2

/-- The first attempt is opened and cannot tell whether to skip. -/
def Setting.FirstUnknown (setting : Setting) : Prop :=
  setting.gate 0 = none ∧ ∃ operation, setting.resolved = .ok operation ∧
    setting.SkipUnknown 1 operation

/-- How a first attempt that was opened leaves the journal. -/
theorem executeWithProgress_last (succeed : setting.AppendsSucceed) {id : U128}
    (started : (setting.executeWithProgress operation journal).started = some id) :
    id = setting.id ∧
    ∃ entry, lastOf (setting.executeWithProgress operation journal).journal setting.id =
        some entry ∧
      ((setting.FirstUnknown ∧ entry.status = .started ∧
          ∃ error, (setting.executeWithProgress operation journal).result = .error error) ∨
        (¬setting.FirstUnknown ∧ entry.status ≠ .started ∧
          Agrees (setting.executeWithProgress operation journal).result entry.status)) := by
  unfold Setting.executeWithProgress at started ⊢
  cases gate : setting.gate 0 with
  | some error =>
      simp only [gate, Setting.append, succeed (.opened 0)] at started ⊢
      rcases @failAttempt_closed setting 0 operation (journal ++ [_]) succeed error with
        ⟨entry, left, own, status, agrees⟩
      refine ⟨(Option.some.inj started).symm, entry, ?_, .inr ⟨?_, status, agrees⟩⟩
      · rw [left]
        exact lastOf_append own
      · rintro ⟨open_, _⟩
        rw [gate] at open_
        cases open_
  | none =>
      cases resolved : setting.resolved with
      | error error => simp [gate, resolved] at started
      | ok operation =>
          simp only [gate, resolved, Setting.append, succeed (.opened 1)] at started ⊢
          refine ⟨(Option.some.inj started).symm, ?_⟩
          by_cases unknown : setting.SkipUnknown 1 operation
          · rcases @executeStartedInner_unknown setting 1 operation (journal ++ [_]) unknown with
              ⟨error, left⟩
            rw [left]
            exact ⟨_, lastOf_append rfl, .inl ⟨⟨gate, operation, resolved, unknown⟩, rfl,
              error, rfl⟩⟩
          · rcases @executeStartedInner_closed setting 1 operation (journal ++ [_]) succeed unknown
              with ⟨entry, left, own, status, agrees⟩
            refine ⟨entry, ?_, .inr ⟨?_, status, agrees⟩⟩
            · rw [left]
              exact lastOf_append own
            · rintro ⟨_, other, same, others⟩
              rw [resolved, Except.ok.injEq] at same
              exact unknown (same ▸ others)

theorem executeWithProgress_started (succeed : setting.AppendsSucceed)
    (unknown : setting.FirstUnknown) :
    (setting.executeWithProgress operation journal).started = some setting.id := by
  rcases unknown with ⟨gate, operation, resolved, _⟩
  simp only [Setting.executeWithProgress, gate, resolved, Setting.append, succeed (.opened 1)]

theorem settled_iff_last {run : Run} {id : U128} (started : run.started = some id)
    (ends : lastOf run.journal id = some entry) :
    run.Settled ↔ entry.status ≠ .started ∧ Agrees run.result entry.status := by
  constructor
  · intro settled
    rcases settled id started with ⟨other, otherEnds, status⟩
    have same : other = entry := Option.some.inj (otherEnds.symm.trans ends)
    exact same ▸ status
  · intro status other otherStarted
    have same : id = other := Option.some.inj (started.symm.trans otherStarted)
    exact ⟨entry, same ▸ ends, status⟩

theorem executeWithProgress_settled_iff (succeed : setting.AppendsSucceed) :
    (setting.executeWithProgress operation journal).Settled ↔ ¬setting.FirstUnknown := by
  constructor
  · intro settled unknown
    have started : (setting.executeWithProgress operation journal).started = some setting.id :=
      executeWithProgress_started succeed unknown
    rcases (executeWithProgress_last succeed started).2 with
      ⟨entry, ends, ⟨_, status, _⟩ | ⟨known, _⟩⟩
    · exact ((settled_iff_last started ends).mp settled).1 status
    · exact known unknown
  · intro known id started
    rcases executeWithProgress_last succeed started with
      ⟨rfl, entry, ends, ⟨unknown, _⟩ | ⟨_, status⟩⟩
    · exact absurd unknown known
    · exact ⟨entry, ends, status⟩

/-- The run's back-off, where it has one, is not cancelled. -/
def Setting.Rests (setting : Setting) (policy : OperationRecoveryPolicy)
    (journal : List JournalEntry) : Prop :=
  ∀ delay, retryDelayForFailedOperation policy (setting.ownEntries journal) setting.id =
    some delay → sleepRetryBackoffChecked setting.cancelled delay = .ok ()

/-- After a first attempt that failed: the journal can be read back, unless the attempt ended as a
failure; and where a second attempt is planned, the back-off before it is not cancelled and it
can tell whether to skip. -/
def Setting.RetrySteady (setting : Setting) (policy : OperationRecoveryPolicy) (first : Run) :
    Prop :=
  ∀ error, first.started = some setting.id → first.result = .error error →
    (setting.readFault ≠ none →
      ¬setting.FirstUnknown ∧ operationStatusFromError error = .failed) ∧
    (setting.readFault = none → ∀ plan,
      retryPlan policy (setting.ownEntries first.journal) setting.id = some plan →
        setting.Rests policy first.journal ∧ ¬setting.SkipUnknown 2 plan.entry.operation)

theorem sleep_cancelled {cancelled : Nat → Bool} {delay : Nat} {error : GfmError}
    (slept : sleepRetryBackoffChecked cancelled delay = .error error) : error = .cancelled := by
  unfold sleepRetryBackoffChecked at slept
  split at slept
  · exact (Except.error.inj slept).symm
  · cases slept

/-- The second attempt on a journal whose last entry is a start. -/
theorem secondAttempt_agrees (succeed : setting.AppendsSucceed)
    (ends : lastOf journal setting.id = some entry) (opened : entry.status = .started) :
    ∃ last, lastOf (setting.executeStartedInner 2 operation journal).2 setting.id = some last ∧
      ((last.status ≠ .started ∧
          Agrees (setting.executeStartedInner 2 operation journal).1 last.status) ↔
        ¬setting.SkipUnknown 2 operation) := by
  by_cases unknown : setting.SkipUnknown 2 operation
  · rcases @executeStartedInner_unknown setting 2 operation journal unknown with ⟨error, left⟩
    rw [left]
    exact ⟨entry, ends, iff_of_false (fun agrees => agrees.1 opened) (not_not.mpr unknown)⟩
  · rcases @executeStartedInner_closed setting 2 operation journal succeed unknown with
      ⟨last, left, own, status⟩
    rw [left]
    exact ⟨last, lastOf_append own, iff_of_true status unknown⟩

/-- The second attempt, once it is planned: what it returns agrees with the last entry exactly when
the back-off is not cancelled and the attempt can tell whether to skip. -/
theorem retryFailedById_planned (succeed : setting.AppendsSucceed)
    (readable : setting.readFault = none) (ends : lastOf journal setting.id = some entry)
    {plan : OperationRecoveryPlan}
    (planned : retryPlan policy (setting.ownEntries journal) setting.id = some plan) :
    ∃ (result : Except GfmError JournalEntry) (left : List JournalEntry) (last : JournalEntry),
      setting.retryFailedById policy journal = (result.map some, left) ∧
      lastOf left setting.id = some last ∧
      ((last.status ≠ .started ∧ Agrees result last.status) ↔
        setting.Rests policy journal ∧ ¬setting.SkipUnknown 2 plan.entry.operation) := by
  have status := retryPlan_status ownEntries_own (getLast?_ownEntries ends) planned
  rw [status_kept] at status
  cases slept : (retryDelayForFailedOperation policy (setting.ownEntries journal)
      setting.id).elim (.ok ()) (sleepRetryBackoffChecked setting.cancelled) with
  | error error =>
      cases delayed : retryDelayForFailedOperation policy (setting.ownEntries journal)
          setting.id with
      | none => simp [delayed] at slept
      | some delay =>
          rw [delayed] at slept
          have cancelled : error = .cancelled := sleep_cancelled slept
          refine ⟨.error error, journal, entry, ?_, ends, iff_of_false ?_ ?_⟩
          · have slept' : sleepRetryBackoffChecked setting.cancelled delay = .error error := slept
            simp only [Setting.retryFailedById, readable, planned, delayed, Option.elim_some,
              slept', Except.map]
          · rintro ⟨_, agrees⟩
            rw [cancelled] at agrees
            have isCancelled : entry.status = .cancelled := agrees
            rw [isCancelled] at status
            simp at status
          · rintro ⟨rests, _⟩
            have passes := rests delay delayed
            rw [show sleepRetryBackoffChecked setting.cancelled delay = .error error from slept]
              at passes
            cases passes
  | ok _ =>
      have rests : setting.Rests policy journal := by
        intro delay delayed
        rw [delayed] at slept
        exact slept
      rcases status with ⟨started, notAppended⟩ | ⟨_, appended⟩
      · rcases @secondAttempt_agrees setting plan.entry.operation journal entry succeed ends started
          with ⟨last, lastEnds, agrees⟩
        refine ⟨_, _, last, ?_, lastEnds, agrees.trans ⟨fun known => ⟨rests, known⟩, And.right⟩⟩
        simp only [Setting.retryFailedById, readable, planned, slept, notAppended,
          Bool.false_eq_true, if_false]
      · rcases @secondAttempt_agrees setting plan.entry.operation
          (journal ++ [.opened setting.id plan.entry.operation (setting.clock (.opened 2))]) _
          succeed (lastOf_append rfl) rfl with ⟨last, lastEnds, agrees⟩
        refine ⟨_, _, last, ?_, lastEnds, agrees.trans ⟨fun known => ⟨rests, known⟩, And.right⟩⟩
        simp only [Setting.retryFailedById, readable, planned, slept, appended, if_true,
          Setting.append, succeed (.opened 2)]

/-- The retrying form is the first attempt, unless that was opened and failed. -/
theorem executeWithRetry_first
    (ends : (setting.executeWithProgress operation journal).started = none ∨
      ∃ entry, (setting.executeWithProgress operation journal).result = .ok entry) :
    setting.executeWithRetryPolicyAndProgress policy operation journal =
      setting.executeWithProgress operation journal := by
  unfold Setting.executeWithRetryPolicyAndProgress
  rcases ends with started | ⟨entry, result⟩
  · simp only [started]
  · dsimp only
    split
    next failed => simp [result] at failed
    next => rfl

theorem executeWithRetry_failed {error : GfmError}
    (started : (setting.executeWithProgress operation journal).started = some setting.id)
    (failed : (setting.executeWithProgress operation journal).result = .error error) :
    setting.executeWithRetryPolicyAndProgress policy operation journal =
      Setting.afterRetry setting.id error (setting.retryFailedById policy
        (setting.executeWithProgress operation journal).journal) := by
  simp only [Setting.executeWithRetryPolicyAndProgress, started, failed]

theorem executeWithRetry_settled_of_failed (succeed : setting.AppendsSucceed) {error : GfmError}
    (started : (setting.executeWithProgress operation journal).started = some setting.id)
    (failed : (setting.executeWithProgress operation journal).result = .error error) :
    (setting.executeWithRetryPolicyAndProgress policy operation journal).Settled ↔
      (setting.readFault ≠ none →
        ¬setting.FirstUnknown ∧ operationStatusFromError error = .failed) ∧
      (setting.readFault = none → ∀ plan, retryPlan policy (setting.ownEntries
          (setting.executeWithProgress operation journal).journal) setting.id = some plan →
        setting.Rests policy (setting.executeWithProgress operation journal).journal ∧
          ¬setting.SkipUnknown 2 plan.entry.operation) := by
  rcases (executeWithProgress_last succeed started).2 with ⟨entry, ends, first⟩
  cases readable : setting.readFault with
  | some message =>
      have retried : setting.retryFailedById policy
          (setting.executeWithProgress operation journal).journal =
            (.error (.io setting.path message),
              (setting.executeWithProgress operation journal).journal) := by
        simp only [Setting.retryFailedById, readable]
      rw [executeWithRetry_failed started failed, retried, Setting.afterRetry]
      refine Iff.trans (settled_iff_last rfl ends) ?_
      simp only [ne_eq, reduceCtorEq, not_false_eq_true, forall_const, false_implies, and_true]
      rcases first with ⟨unknown, status, _⟩ | ⟨known, status, agrees⟩
      · exact iff_of_false (fun settled => settled.1 status) fun condition => condition.1 unknown
      · rw [failed] at agrees
        have sameStatus : entry.status = operationStatusFromError error := agrees
        constructor
        · rintro ⟨_, agreesIo⟩
          exact ⟨known, sameStatus.symm.trans agreesIo⟩
        · rintro ⟨_, isFailed⟩
          exact ⟨status, sameStatus.trans isFailed⟩
  | none =>
      simp only [ne_eq, not_true_eq_false, false_implies, true_and, forall_const]
      cases planned : retryPlan policy (setting.ownEntries
          (setting.executeWithProgress operation journal).journal) setting.id with
      | none =>
          have retried : setting.retryFailedById policy
              (setting.executeWithProgress operation journal).journal =
                (.ok none, (setting.executeWithProgress operation journal).journal) := by
            simp only [Setting.retryFailedById, readable, planned]
          rw [executeWithRetry_failed started failed, retried, Setting.afterRetry]
          refine Iff.trans (settled_iff_last rfl ends) ?_
          refine iff_of_true ?_ (by simp)
          rcases first with ⟨_, status, _⟩ | ⟨_, status, agrees⟩
          · rcases @retryPlan_started policy _ _ _ ownEntries_own (getLast?_ownEntries ends) status
              with ⟨plan, found⟩
            rw [planned] at found
            cases found
          · rw [failed] at agrees
            exact ⟨status, agrees⟩
      | some plan =>
          rcases retryFailedById_planned succeed readable ends planned with
            ⟨result, left, last, retried, lastEnds, agrees⟩
          simp only [Option.some.injEq, forall_eq']
          rw [← agrees, executeWithRetry_failed started failed, retried]
          cases result with
          | error other => exact settled_iff_last rfl lastEnds
          | ok entry => exact settled_iff_last rfl lastEnds

theorem executeWithRetry_settled_iff (succeed : setting.AppendsSucceed) :
    (setting.executeWithRetryPolicyAndProgress policy operation journal).Settled ↔
      setting.RetrySteady policy (setting.executeWithProgress operation journal) := by
  cases started : (setting.executeWithProgress operation journal).started with
  | none =>
      rw [executeWithRetry_first (.inl started)]
      refine iff_of_true ?_ ?_
      · intro id other
        rw [started] at other
        cases other
      · intro error other
        rw [started] at other
        cases other
  | some id =>
      rcases executeWithProgress_last succeed started with ⟨rfl, entry, ends, first⟩
      cases failed : (setting.executeWithProgress operation journal).result with
      | ok completed =>
          rw [executeWithRetry_first (.inr ⟨completed, failed⟩)]
          refine iff_of_true ?_ ?_
          · rcases first with ⟨_, _, error, result⟩ | ⟨_, status⟩
            · rw [failed] at result
              cases result
            · exact (settled_iff_last started ends).mpr status
          · intro error _ result
            rw [failed] at result
            cases result
      | error error =>
          rw [executeWithRetry_settled_of_failed succeed started failed]
          constructor
          · intro condition other _ result
            rw [failed, Except.error.injEq] at result
            exact result ▸ condition
          · intro steady
            exact steady error started failed

/-- An operation is settled when it returns exactly where no attempt that is made leaves without
knowing whether to skip, and, in the retrying form, the journal can be read back after anything but
a failure and the back-off is not cancelled. -/
theorem settled_iff (setting : Setting) (succeed : setting.AppendsSucceed)
    (operation : Operation Text) (journal : List JournalEntry) :
    ((setting.executeWithProgress operation journal).Settled ↔ ¬setting.FirstUnknown) ∧
    ∀ policy,
      (setting.executeWithRetryPolicyAndProgress policy operation journal).Settled ↔
        setting.RetrySteady policy (setting.executeWithProgress operation journal) :=
  ⟨executeWithProgress_settled_iff succeed, fun _ => executeWithRetry_settled_iff succeed⟩

end Runs

section Unknown

/-- A copy under the skip policy; whether its target exists cannot be told at the given attempts. -/
def skippingCopy (unknown : Nat → Bool) : Setting where
  conflict := .skip
  path := ["journal"]
  id := 1
  clock := fun _ => 0
  gate := fun _ => none
  resolved := .ok (.copy ['a'] ['b'])
  targetExists := fun attempt => if unknown attempt then .error "Permission denied" else .ok false
  retryProbe := none
  plan := fun _ => .ok ()
  apply := fun _ => .ok ()
  appendFault := fun _ => none
  readFault := none
  cancelled := fun _ => false

theorem settled_skippingCopy :
    ((skippingCopy fun _ => false).executeWithProgress (.copy ['a'] ['b']) []).Settled := by
  refine (settled_iff (skippingCopy fun _ => false) (fun _ => rfl) (.copy ['a'] ['b']) []).1.mpr ?_
  rintro ⟨_, operation, resolved, _, error, unknown⟩
  rw [← Except.ok.inj resolved] at unknown
  cases unknown

/-- The operation returns an error, and its last entry says that it is started. -/
theorem skippingCopy_unsettled : ¬∀ setting : Setting, setting.AppendsSucceed →
    ∀ (operation : Operation Text) (journal : List JournalEntry),
      (setting.executeWithProgress operation journal).Settled := by
  intro settled
  have run := settled (skippingCopy fun _ => true) (fun _ => rfl) (.copy ['a'] ['b']) [] 1 rfl
  rcases run with ⟨entry, ends, status, _⟩
  apply status
  rw [← Option.some.inj ends]
  rfl

end Unknown

end Gfm.Ops

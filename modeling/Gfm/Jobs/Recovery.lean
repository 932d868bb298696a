import Gfm.Jobs.Journal
import Gfm.Lib.Gathering
import Gfm.Text

/-!
# Recovery from the job journal

The retry policy with its classes of failure, and what a journal offers for recovery: the jobs
whose last entry is a started attempt or a failure that the policy would retry.
-/

namespace Gfm.Jobs

open Gathering List

inductive FailureClass where
  | transient
  | permission
  | missingFile
  | corruptFile
  | offlineVolume
  | permanent
  deriving DecidableEq, Repr

namespace FailureClass

def retryable : FailureClass → Bool
  | .transient | .offlineVolume => true
  | .permission | .missingFile | .corruptFile | .permanent => false

def containsAny (message : Text) (needles : List String) : Bool :=
  needles.any fun needle => decide (needle.toList <:+: message)

def classify (message : String) : FailureClass :=
  let message := message.toList.map asciiLower
  if containsAny message ["offline", "not mounted", "unmounted", "ejected", "network is down",
      "network is unreachable", "device not configured", "stale file handle"] then
    .offlineVolume
  else if containsAny message ["permission", "denied", "not permitted", "tcc"] then
    .permission
  else if containsAny message ["missing", "not found", "no such file"] then
    .missingFile
  else if containsAny message ["corrupt", "checksum", "crc", "malformed"] then
    .corruptFile
  else if containsAny message ["temporary", "transient", "timed out", "timeout", "busy", "again",
      "resource temporarily unavailable", "interrupted system call",
      "source does not exist"] then
    .transient
  else
    .permanent

end FailureClass

structure RetryPolicy where
  maxAttempts : U64
  deriving DecidableEq, Repr

structure RetryDecision where
  failureClass : FailureClass
  retryable : Bool
  nextDelayMs : Nat
  deriving DecidableEq, Repr

def retryBackoffMs (failureClass : FailureClass) (attempts : Nat) : Nat :=
  let base :=
    match failureClass with
    | .transient => 25
    | .offlineVolume => 250
    | .permission | .missingFile | .corruptFile | .permanent => 0
  base * 2 ^ min (attempts - 1) 8

namespace RetryPolicy

/-- A policy that allows no attempt allows one. -/
def attempts (policy : RetryPolicy) : Nat := max policy.maxAttempts 1

def retryDecision (policy : RetryPolicy) (attempts : Nat) (message : String) : RetryDecision :=
  let failureClass := FailureClass.classify message
  let retryable := failureClass.retryable && decide (attempts < policy.attempts)
  { failureClass
    retryable
    nextDelayMs := if retryable then retryBackoffMs failureClass attempts else 0 }

end RetryPolicy

inductive RecoveryReason where
  | interrupted
  | retryableFailure
  deriving DecidableEq, Repr

structure RecoveryJob where
  id : JobId
  label : Text
  attempts : Nat
  reason : RecoveryReason
  failureClass : Option FailureClass
  nextDelayMs : Nat
  deriving DecidableEq, Repr

structure JobRecoveryState where
  id : JobId
  label : Text
  attempts : Nat
  lastStatus : Option TaskStatus
  deriving DecidableEq, Repr

namespace JobRecoveryState

def apply (state : JobRecoveryState) (entry : JournalEntry) : JobRecoveryState :=
  { state with
    label := entry.label
    attempts := max state.attempts entry.attempt
    lastStatus := some entry.status }

def fromEntry (entry : JournalEntry) : JobRecoveryState :=
  apply { id := entry.jobId, label := entry.label, attempts := 0, lastStatus := none } entry

def recover (policy : RetryPolicy) (state : JobRecoveryState) : Option RecoveryJob :=
  match state.lastStatus with
  | some .started =>
      some
        { id := state.id
          label := state.label
          attempts := state.attempts
          reason := .interrupted
          failureClass := none
          nextDelayMs := 0 }
  | some (.failed message) =>
      let decision := policy.retryDecision state.attempts message
      if decision.retryable ∧ state.attempts < policy.attempts then
        some
          { id := state.id
            label := state.label
            attempts := state.attempts
            reason := .retryableFailure
            failureClass := some decision.failureClass
            nextDelayMs := decision.nextDelayMs }
      else
        none
  | _ => none

end JobRecoveryState

/-- The state of the entry's job takes the entry; a job without a state gets one. -/
def absorb (entry : JournalEntry) : List JobRecoveryState → List JobRecoveryState
  | [] => [.fromEntry entry]
  | state :: states =>
      if state.id = entry.jobId then state.apply entry :: states
      else state :: absorb entry states

def recoveryStates (journal : List JournalEntry) : List JobRecoveryState :=
  journal.foldl (fun states entry => absorb entry states) []

namespace JobJournal

def recoverable (policy : RetryPolicy) (journal : List JournalEntry) : List RecoveryJob :=
  ((recoveryStates journal).filterMap (·.recover policy)).mergeSort
    fun left right => decide (left.id.value ≤ right.id.value)

/-- What recovery lists of the file that the journal's entries were appended to. -/
def recoverableIn (path : Path) (policy : RetryPolicy) (content : Option LineLog.Bytes) :
    Except GfmError (List RecoveryJob) :=
  (read path content).map (recoverable policy)

end JobJournal

/-- Recovery lists the job. -/
def Listed (policy : RetryPolicy) (journal : List JournalEntry) (id : JobId) : Prop :=
  ∃ job ∈ JobJournal.recoverable policy journal, job.id = id

instance (policy : RetryPolicy) (journal : List JournalEntry) (id : JobId) :
    Decidable (Listed policy journal id) :=
  inferInstanceAs (Decidable (∃ job ∈ JobJournal.recoverable policy journal, job.id = id))

section States

variable {policy : RetryPolicy} {journal : List JournalEntry} {entry : JournalEntry} {id : JobId}

/-- What the journal tells recovery about one job. -/
def stateOf (journal : List JournalEntry) (id : JobId) : Option JobRecoveryState :=
  (recoveryStates journal).find? fun state => state.id = id

/-- The highest attempt of the job that the journal knows. -/
def attemptsOf (journal : List JournalEntry) (id : JobId) : Nat :=
  ((stateOf journal id).map JobRecoveryState.attempts).getD 0

@[simp]
theorem id_apply (state : JobRecoveryState) (entry : JournalEntry) :
    (state.apply entry).id = state.id := rfl

@[simp]
theorem id_fromEntry (entry : JournalEntry) :
    (JobRecoveryState.fromEntry entry).id = entry.jobId := rfl

/-- The states of the jobs are gathered from the entries. -/
def recoveryScheme : Scheme JournalEntry JobRecoveryState JobId where
  key := JournalEntry.jobId
  own := JobRecoveryState.id
  start := .fromEntry
  push := .apply
  own_start := id_fromEntry
  own_push := id_apply

theorem recoveryStates_eq (journal : List JournalEntry) :
    recoveryStates journal = recoveryScheme.gather journal :=
  recoveryScheme.foldl_eq_gather absorb (fun _ => rfl) (fun _ _ _ => rfl) journal

theorem nodup_recoveryStates (journal : List JournalEntry) :
    ((recoveryStates journal).map JobRecoveryState.id).Nodup := by
  rw [recoveryStates_eq]
  exact recoveryScheme.nodup_gather journal

/-- What the entries of the job alone make. -/
theorem stateOf_eq (journal : List JournalEntry) (id : JobId) :
    stateOf journal id = recoveryScheme.summary (recoveryScheme.ofKey journal id) := by
  rw [stateOf, recoveryStates_eq]
  change (recoveryScheme.gather journal).find?
    (fun state => decide (recoveryScheme.own state = id)) = _
  exact Scheme.find?_gather journal id

theorem stateOf_append_self (same : entry.jobId = id) :
    stateOf (journal ++ [entry]) id =
      some (((stateOf journal id).map (·.apply entry)).getD (.fromEntry entry)) := by
  have last : recoveryScheme.ofKey (journal ++ [entry]) id =
      recoveryScheme.ofKey journal id ++ [entry] := by
    have own : recoveryScheme.key entry = id := same
    rw [Scheme.ofKey, filter_append, filter_singleton, decide_eq_true own, cond_true]
    rfl
  rw [stateOf_eq, last, Scheme.summary_append, ← stateOf_eq, Scheme.take]
  cases stateOf journal id <;> rfl

theorem exists_stateOf_append (journal : List JournalEntry) (same : entry.jobId = id) :
    ∃ state, stateOf (journal ++ [entry]) id = some state ∧ state.id = id ∧
      state.attempts = max (attemptsOf journal id) entry.attempt ∧
        state.lastStatus = some entry.status := by
  refine ⟨_, stateOf_append_self same, ?_⟩
  cases found : stateOf journal id with
  | none =>
      refine ⟨same, ?_, rfl⟩
      simp [attemptsOf, found, JobRecoveryState.fromEntry, JobRecoveryState.apply]
  | some state =>
      have hasId : state.id = id := by
        simpa using find?_some found
      refine ⟨hasId, ?_, rfl⟩
      simp [attemptsOf, found, JobRecoveryState.apply]

theorem attemptsOf_append (same : entry.jobId = id) :
    attemptsOf (journal ++ [entry]) id = max (attemptsOf journal id) entry.attempt := by
  rcases exists_stateOf_append journal same with ⟨state, found, _, attempts, _⟩
  rw [attemptsOf, found]
  exact attempts

theorem recover_id {state : JobRecoveryState} {job : RecoveryJob}
    (recovered : state.recover policy = some job) : job.id = state.id := by
  unfold JobRecoveryState.recover at recovered
  split at recovered
  · exact (Option.some.inj recovered) ▸ rfl
  · dsimp only at recovered
    split at recovered
    · exact (Option.some.inj recovered) ▸ rfl
    · cases recovered
  · cases recovered

theorem listed_iff : Listed policy journal id ↔
    ∃ state, stateOf journal id = some state ∧ (state.recover policy).isSome := by
  constructor
  · rintro ⟨job, listed, same⟩
    simp only [JobJournal.recoverable, mem_mergeSort, mem_filterMap] at listed
    rcases listed with ⟨state, present, recovered⟩
    have hasId : state.id = id := (recover_id recovered).symm.trans same
    refine ⟨state, ?_, by simp [recovered]⟩
    rcases found : stateOf journal id with _ | other
    · have absent := find?_eq_none.mp found state present
      simp [hasId] at absent
    · have otherPresent := mem_of_find?_eq_some found
      have otherId : other.id = id := by simpa using find?_some found
      exact congrArg some (inj_on_of_nodup_map (nodup_recoveryStates journal) otherPresent
        present (otherId.trans hasId.symm))
  · rintro ⟨state, found, recovers⟩
    rcases Option.isSome_iff_exists.mp recovers with ⟨job, recovered⟩
    have hasId : state.id = id := by simpa using find?_some found
    refine ⟨job, ?_, (recover_id recovered).trans hasId⟩
    simp only [JobJournal.recoverable, mem_mergeSort, mem_filterMap]
    exact ⟨state, mem_of_find?_eq_some found, recovered⟩

/-- A job whose last entry failed is listed when the policy would retry the failure. -/
theorem listed_append_failed {message : String} (same : entry.jobId = id)
    (failed : entry.status = .failed message) :
    Listed policy (journal ++ [entry]) id ↔
      (FailureClass.classify message).retryable ∧
        max (attemptsOf journal id) entry.attempt < policy.attempts := by
  rcases exists_stateOf_append journal same with ⟨state, found, _, attempts, last⟩
  rw [failed] at last
  simp only [listed_iff, found, Option.some.injEq, exists_eq_left', JobRecoveryState.recover, last,
    RetryPolicy.retryDecision, attempts]
  split
  case isTrue retried => simpa using retried
  case isFalse kept => simpa using kept

/-- A job whose last entry completed or was cancelled is not listed. -/
theorem not_listed_append (same : entry.jobId = id)
    (terminal : entry.status = .completed ∨ entry.status = .cancelled) :
    ¬Listed policy (journal ++ [entry]) id := by
  rcases exists_stateOf_append journal same with ⟨state, found, _, _, last⟩
  simp only [listed_iff, found, Option.some.injEq, exists_eq_left', JobRecoveryState.recover, last]
  rcases terminal with status | status
  · simp [status]
  · simp [status]

end States

/-- What the entries of a job tell. -/
def told (id : JobId) (entries : List JournalEntry) : Option JobRecoveryState :=
  entries.getLast?.map fun last =>
    ⟨id, last.label, (entries.map JournalEntry.attempt).foldl max 0, some last.status⟩

theorem summary_own {id : JobId} {entries : List JournalEntry}
    (own : ∀ entry ∈ entries, entry.jobId = id) :
    recoveryScheme.summary entries = told id entries := by
  induction entries using List.reverseRecOn with
  | nil => rfl
  | append_singleton entries entry ih =>
      have same := own entry (by simp)
      rw [Scheme.summary_append, ih fun other member => own other (by simp [member])]
      rcases entries.eq_nil_or_concat with rfl | ⟨before, last, rfl⟩
      · simp [told, Scheme.take, recoveryScheme, JobRecoveryState.fromEntry,
          JobRecoveryState.apply, same]
      · simp [told, Scheme.take, recoveryScheme, JobRecoveryState.apply]

theorem read_appended (path : Path) (journal : List JournalEntry) :
    JobJournal.read path (some (journal.foldl JobJournal.append [])) = .ok journal := by
  have written : journal.foldl JobJournal.append [] = journalFormat.written journal :=
    flatMap_eq_foldl.symm
  have whole : LineLog.read _ _ = .ok (journal.map id) := journalFormat.read_written journal
  rw [written, JobJournal.read, Tsv.readJournal]
  exact congrArg (Except.mapError _) (whole.trans (by rw [map_id]))

/-- After a restart, recovery lists the jobs that the journal leaves open: each once, in the order
of their ids, with what its entries tell. -/
theorem recoverableIn_appended (path : Path) (policy : RetryPolicy)
    (journal : List JournalEntry) :
    ∃ jobs, JobJournal.recoverableIn path policy (some (journal.foldl JobJournal.append [])) =
        .ok jobs ∧
      jobs.Pairwise (fun left right => left.id.value < right.id.value) ∧
      ∀ job, job ∈ jobs ↔ (told job.id (journal.filter (·.jobId = job.id))).bind
        (·.recover policy) = some job := by
  refine ⟨JobJournal.recoverable policy journal,
    by rw [JobJournal.recoverableIn, read_appended]; rfl, ?_, ?_⟩
  · have apart : (JobJournal.recoverable policy journal).Pairwise
        fun left right => left.id ≠ right.id := by
      rw [JobJournal.recoverable, (mergeSort_perm _ _).pairwise_iff Ne.symm,
        pairwise_filterMap]
      refine (pairwise_map.mp (nodup_recoveryStates journal)).imp
        fun differs left isLeft right isRight => ?_
      rwa [recover_id isLeft, recover_id isRight]
    have sorted : (JobJournal.recoverable policy journal).Pairwise
        fun left right => decide (left.id.value ≤ right.id.value) = true :=
      pairwise_mergeSort (by simpa using fun _ _ _ => le_trans)
        (by simpa using fun _ _ => le_total _ _) _
    refine (sorted.and apart).imp fun {left right} both => ?_
    exact lt_of_le_of_ne (of_decide_eq_true both.1) fun same => both.2 (congrArg JobId.mk same)
  · intro job
    have own : recoveryScheme.summary (recoveryScheme.ofKey journal job.id) =
        told job.id (journal.filter (·.jobId = job.id)) :=
      summary_own fun entry member => of_decide_eq_true (mem_filter.mp member).2
    simp only [JobJournal.recoverable, mem_mergeSort, mem_filterMap, recoveryStates_eq,
      Scheme.mem_gather, ← own, Option.bind_eq_some_iff]
    refine exists_congr fun state => and_congr_left fun recovered => ?_
    rw [recover_id recovered]
    rfl

end Gfm.Jobs

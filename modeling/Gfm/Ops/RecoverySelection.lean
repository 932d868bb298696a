import Gfm.Ops.Operator

/-!
# What recovery selects

The journal is folded into one state for each id; the states are sorted, and those that are to be
carried out again become plans. In terms of the journal alone: an id is planned by its last entry
and by how often it was started.
-/

namespace Gfm.Ops

open Gathering Jobs List

/-- One state for each id. -/
def recoveryScheme : Scheme JournalEntry OperationRecoveryState U128 where
  key := JournalEntry.id
  own := OperationRecoveryState.id
  start := .fromEntry
  push := .apply
  own_start := fun _ => rfl
  own_push := fun _ _ => rfl

/-- How often the journal starts an id. -/
def starts (entries : List JournalEntry) (id : U128) : Nat :=
  (entries.filter fun entry => entry.id = id ∧ entry.status = .started).length

/-- The entry is of a failure that may be tried again, after fewer starts than the limit. -/
def Retried (policy : OperationRecoveryPolicy) (limit : Nat) (entry : JournalEntry)
    (starts : Nat) : Prop :=
  policy.retryFailed ∧ entry.status = .failed ∧ starts < limit ∧
    ∃ message, entry.message = some message ∧
      (FailureClass.classify (String.ofList message)).retryable

/-- An id that was started so often and whose last entry is this one is carried out again. -/
def Recoverable (policy : OperationRecoveryPolicy) (limit : Nat) (entry : JournalEntry)
    (starts : Nat) : Prop :=
  entry.status = .started ∨ entry.status = .paused ∨ Retried policy limit entry starts

/-- The order of the plans: by the time of the last entry, then by the id. -/
def Before (first second : JournalEntry) : Prop :=
  first.timestampNanos < second.timestampNanos ∨
    first.timestampNanos = second.timestampNanos ∧ first.id < second.id

/-- One plan for each id that is to be carried out again, with its last entry, and no other. -/
structure Selects (policy : OperationRecoveryPolicy) (limit : Nat) (entries : List JournalEntry)
    (plans : List OperationRecoveryPlan) : Prop where
  single : (plans.map fun plan => plan.entry.id).Nodup
  ordered : plans.Pairwise fun first second => Before first.entry second.entry
  planned_iff : ∀ plan, plan ∈ plans ↔ lastOf entries plan.entry.id = some plan.entry ∧
    Recoverable policy limit plan.entry (starts entries plan.entry.id) ∧
      (plan.appendStarted = true ↔ plan.entry.status ≠ .started)
  unended : ∀ plan ∈ plans, plan.entry.status ≠ .completed ∧ plan.entry.status ≠ .skipped ∧
    plan.entry.status ≠ .cancelled

section States

variable {policy : OperationRecoveryPolicy} {entries : List JournalEntry} {id : U128}
  {entry : JournalEntry} {plan : OperationRecoveryPlan}

theorem recoveryStates_eq (entries : List JournalEntry) :
    recoveryStates entries = recoveryScheme.gather entries :=
  recoveryScheme.foldl_eq_gather absorb (fun _ => rfl) (fun _ _ _ => rfl) entries

theorem starts_append (own : entry.id = id) :
    starts (entries ++ [entry]) id = starts entries id + openings entry.status := by
  rw [starts, starts, filter_append, length_append, openings]
  by_cases started : entry.status = .started
  · simp [own, started]
  · simp [own, started]

/-- The state of an id whose entries end with this one. -/
def stateAt (entry : JournalEntry) (starts : Nat) : OperationRecoveryState :=
  ⟨entry.id, entry.operation, entry.status, starts, entry.message, entry.timestampNanos⟩

theorem summary_own (own : ∀ entry ∈ entries, entry.id = id) :
    recoveryScheme.summary entries =
      entries.getLast?.map fun last => stateAt last (starts entries id) := by
  induction entries using List.reverseRecOn with
  | nil => rfl
  | append_singleton entries entry ih =>
      have entryOwn : entry.id = id := own entry (by simp)
      have frontOwn : ∀ other ∈ entries, other.id = id :=
        fun other member => own other (mem_append_left _ member)
      rw [Scheme.summary_append, ih frontOwn, getLast?_concat, Option.map_some,
        starts_append entryOwn]
      cases before : entries.getLast? with
      | none =>
          rw [getLast?_eq_none_iff.mp before, starts, filter_nil, length_nil,
            Nat.zero_add]
          rfl
      | some last =>
          have lastOwn : last.id = id := frontOwn last (mem_of_getLast? before)
          simp only [Scheme.take, recoveryScheme, Option.map_some, Option.elim_some,
            OperationRecoveryState.apply, stateAt, lastOwn, entryOwn]

theorem starts_own (entries : List JournalEntry) (id : U128) :
    starts (recoveryScheme.ofKey entries id) id = starts entries id := by
  rw [starts, starts, Scheme.ofKey, filter_filter]
  congr 1
  refine filter_congr fun entry _ => ?_
  by_cases own : entry.id = id
  · simp [recoveryScheme, own]
  · simp [own]

theorem mem_recoveryStates {state : OperationRecoveryState} :
    state ∈ recoveryStates entries ↔ ∃ last, lastOf entries last.id = some last ∧
      state = stateAt last (starts entries last.id) := by
  have own : ∀ id, ∀ entry ∈ recoveryScheme.ofKey entries id, entry.id = id :=
    fun id entry member => of_decide_eq_true (mem_filter.mp member).2
  have made : ∀ id, recoveryScheme.summary (recoveryScheme.ofKey entries id) =
      (lastOf entries id).map fun last => stateAt last (starts entries id) := by
    intro id
    rw [summary_own (own id), starts_own]
    rfl
  rw [recoveryStates_eq, Scheme.mem_gather, made, Option.map_eq_some_iff]
  constructor
  · rintro ⟨last, ends, same⟩
    have lastOwn : last.id = state.id := congrArg OperationRecoveryState.id same
    refine ⟨last, ?_, ?_⟩
    · rw [lastOwn]
      exact ends
    · rw [lastOwn]
      exact same.symm
  · rintro ⟨last, ends, rfl⟩
    exact ⟨last, ends, rfl⟩

theorem retryableFailureMessage_iff {message : Option Text} {count : Nat} :
    retryableFailureMessage policy message count ↔
      count < (RetryPolicy.mk policy.maxAttempts).attempts ∧
        ∃ text, message = some text ∧
          (FailureClass.classify (String.ofList text)).retryable := by
  cases message with
  | none => simp [retryableFailureMessage]
  | some text => simp [retryableFailureMessage, RetryPolicy.retryDecision, and_comm]

theorem plan_stateAt {count : Nat} : (stateAt entry count).plan policy = some plan ↔
    plan.entry = entry ∧
      Recoverable policy (RetryPolicy.mk policy.maxAttempts).attempts entry count ∧
        (plan.appendStarted = true ↔ entry.status ≠ .started) := by
  rcases plan with ⟨planned, appended⟩
  have retried : (policy.retryFailed ∧ entry.status = .failed ∧
      count < (RetryPolicy.mk policy.maxAttempts).attempts ∧
        retryableFailureMessage policy entry.message count) ↔
      Retried policy (RetryPolicy.mk policy.maxAttempts).attempts entry count := by
    rw [Retried, retryableFailureMessage_iff]
    tauto
  change (if entry.status = .started then some (OperationRecoveryPlan.mk entry false)
    else if entry.status = .paused ∨ (policy.retryFailed ∧ entry.status = .failed ∧
      count < (RetryPolicy.mk policy.maxAttempts).attempts ∧
        retryableFailureMessage policy entry.message count) then
      some (OperationRecoveryPlan.mk entry true)
    else none) = some ⟨planned, appended⟩ ↔ planned = entry ∧
      Recoverable policy (RetryPolicy.mk policy.maxAttempts).attempts entry count ∧
        (appended = true ↔ entry.status ≠ .started)
  rw [Recoverable]
  by_cases started : entry.status = .started
  · rw [if_pos started]
    constructor
    · intro same
      cases same
      exact ⟨rfl, .inl started, by simp [started]⟩
    · rintro ⟨same, -, appends⟩
      have kept : appended = false := by simpa [started] using appends
      rw [kept, same]
  · rw [if_neg started]
    by_cases again : entry.status = .paused ∨
        Retried policy (RetryPolicy.mk policy.maxAttempts).attempts entry count
    · rw [if_pos (again.imp_right retried.mpr)]
      constructor
      · intro same
        cases same
        exact ⟨rfl, .inr again, by simp [started]⟩
      · rintro ⟨same, -, appends⟩
        rw [appends.mpr started, same]
    · rw [if_neg fun held => again (held.imp_right retried.mp)]
      refine iff_of_false (by simp) ?_
      rintro ⟨-, recovered, -⟩
      exact again (recovered.resolve_left started)

/-- The plans before they are put in order of time. -/
theorem mem_recoverableOperations : plan ∈ recoverableOperations policy entries ↔
    lastOf entries plan.entry.id = some plan.entry ∧
      Recoverable policy (RetryPolicy.mk policy.maxAttempts).attempts plan.entry
        (starts entries plan.entry.id) ∧
      (plan.appendStarted = true ↔ plan.entry.status ≠ .started) := by
  simp only [recoverableOperations, mem_filterMap, mem_mergeSort, mem_recoveryStates]
  constructor
  · rintro ⟨_, ⟨last, ends, rfl⟩, planned⟩
    rcases plan_stateAt.mp planned with ⟨rfl, recovered, appended⟩
    exact ⟨ends, recovered, appended⟩
  · rintro ⟨ends, recovered, appended⟩
    exact ⟨_, ⟨plan.entry, ends, rfl⟩, plan_stateAt.mpr ⟨rfl, recovered, appended⟩⟩

theorem Recoverable.unended {limit count : Nat} (recovered : Recoverable policy limit entry count) :
    entry.status ≠ .completed ∧ entry.status ≠ .skipped ∧ entry.status ≠ .cancelled := by
  rcases recovered with status | status | ⟨-, status, -⟩ <;> simp [status]

theorem entry_of_plan {state : OperationRecoveryState} (planned : state.plan policy = some plan) :
    plan.entry.timestampNanos = state.timestampNanos ∧ plan.entry.id = state.id := by
  have same : state.plan policy = (stateAt ⟨state.id, state.lastStatus, state.operation,
      state.message, state.timestampNanos⟩ state.startedCount).plan policy := rfl
  rw [same, plan_stateAt] at planned
  rw [planned.1]
  exact ⟨rfl, rfl⟩

/-- The states in the order of their times, which are apart at their ids. -/
theorem ordered_recoverableOperations (policy : OperationRecoveryPolicy)
    (entries : List JournalEntry) :
    (recoverableOperations policy entries).Pairwise fun first second =>
      Before first.entry second.entry := by
  have apart : ((recoveryStates entries).mergeSort fun left right => decide (left.timestampNanos <
      right.timestampNanos ∨ left.timestampNanos = right.timestampNanos ∧ left.id ≤ right.id)
      ).Pairwise fun left right => left.id ≠ right.id := by
    have nodup : ((recoveryStates entries).map OperationRecoveryState.id).Nodup := by
      rw [recoveryStates_eq]
      exact recoveryScheme.nodup_gather entries
    exact pairwise_map.mp (((mergeSort_perm _ _).map _).nodup_iff.mpr nodup)
  have sorted : ((recoveryStates entries).mergeSort fun left right => decide (left.timestampNanos <
      right.timestampNanos ∨ left.timestampNanos = right.timestampNanos ∧ left.id ≤ right.id)
      ).Pairwise fun left right => (left.timestampNanos < right.timestampNanos ∨
        left.timestampNanos = right.timestampNanos ∧ left.id ≤ right.id) := by
    refine (pairwise_mergeSort ?_ ?_ _).imp fun listed => of_decide_eq_true listed
    · intro first second third
      simp only [decide_eq_true_eq, Fin.lt_def, Fin.le_def, Fin.ext_iff]
      omega
    · intro first second
      simp only [Bool.or_eq_true, decide_eq_true_eq, Fin.lt_def, Fin.le_def, Fin.ext_iff]
      omega
  rw [recoverableOperations, pairwise_filterMap]
  refine (sorted.and apart).imp ?_
  intro left right before first planned second plannedSecond
  rcases entry_of_plan planned with ⟨time, id⟩
  rcases entry_of_plan plannedSecond with ⟨timeSecond, idSecond⟩
  rw [Before, time, id, timeSecond, idSecond]
  rcases before with ⟨earlier | ⟨same, atMost⟩, differs⟩
  · exact .inl earlier
  · exact .inr ⟨same, lt_of_le_of_ne atMost differs⟩

/-- Two plans of one id would have the same last entry. -/
theorem nodup_recoverableOperations (policy : OperationRecoveryPolicy)
    (entries : List JournalEntry) :
    ((recoverableOperations policy entries).map fun plan => plan.entry.id).Nodup := by
  refine pairwise_map.mpr ((ordered_recoverableOperations policy entries).imp_of_mem ?_)
  intro first second member memberSecond before same
  have last := (mem_recoverableOperations.mp member).1
  rw [same, (mem_recoverableOperations.mp memberSecond).1, Option.some.injEq] at last
  rw [Before, last] at before
  exact before.elim (lt_irrefl _) fun tied => lt_irrefl _ tied.2

end States

/-- What recovery selects of any journal, under any policy. -/
theorem recoverableOperations_selects (policy : OperationRecoveryPolicy)
    (entries : List JournalEntry) :
    Selects policy (RetryPolicy.mk policy.maxAttempts).attempts entries
      (recoverableOperations policy entries) where
  single := nodup_recoverableOperations policy entries
  ordered := ordered_recoverableOperations policy entries
  planned_iff := fun _ => mem_recoverableOperations
  unended := fun _ member => (mem_recoverableOperations.mp member).2.1.unended

/-- A failure of an id that the journal does not start. -/
def unopened : JournalEntry :=
  ⟨1, .failed, .delete "/tmp/a".toList, some "timed out".toList, 0⟩

/-- A limit of no attempt allows one, so the limit of the policy is not the one that counts. -/
theorem unopened_selected : ¬∀ policy entries,
    Selects policy policy.maxAttempts entries (recoverableOperations policy entries) := by
  intro selects
  have chosen : OperationRecoveryPlan.mk unopened true ∈
      recoverableOperations ⟨true, 0⟩ [unopened] := by
    refine mem_recoverableOperations.mpr ⟨rfl, .inr (.inr ?_), by decide⟩
    exact ⟨rfl, rfl, by decide, _, rfl, by decide +kernel⟩
  have recovered := (((selects ⟨true, 0⟩ [unopened]).planned_iff _).mp chosen).2.1
  rcases recovered with status | status | ⟨-, -, fewer, -⟩
  · cases status
  · cases status
  · exact absurd fewer (by decide)

end Gfm.Ops

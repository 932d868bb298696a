import Gfm.Ops.RecoverySelection

/-!
# The limit of the attempts

An operation is started by a call, by the retry of the call after an error, and by the recoveries
that follow. The starts are counted in the journal: a failed operation is started again only below
the limit of the policy, a paused one always. So the starts beyond the limit are no more than the
pauses; and an operation that fails for a while with errors that may be retried, and then
succeeds, ends as completed.
-/

namespace Gfm.Ops

open Gathering List Setting

structure OperationRecoveryOutcome where
  id : U128
  status : OperationStatus
  operation : Operation Text
  message : Option Text
  deriving DecidableEq, Repr

/-- What a recovery meets: whether the journal can be read, and for each id what its one attempt
meets. -/
structure Recovery where
  policy : OperationRecoveryPolicy
  path : Path
  readFault : Option String
  setting : U128 → Setting

namespace Recovery

variable (recovery : Recovery)

/-- The attempt of an id, under that id. -/
def attempt (id : U128) : Setting := { recovery.setting id with id }

def outcome (plan : OperationRecoveryPlan) : Except GfmError JournalEntry → OperationRecoveryOutcome
  | .ok completed => ⟨completed.id, completed.status, completed.operation, completed.message⟩
  | .error error =>
      ⟨plan.entry.id, operationStatusFromError error, plan.entry.operation,
        if error = .cancelled ∨ error = .paused then none else some error.toText.toList⟩

def recoverPlan (plan : OperationRecoveryPlan) (journal : List JournalEntry) :
    Except GfmError OperationRecoveryOutcome × List JournalEntry :=
  let setting := recovery.attempt plan.entry.id
  let opened :=
    if plan.appendStarted then
      setting.append (.opened 1) journal
        (.opened plan.entry.id plan.entry.operation (setting.clock (.opened 1)))
    else .ok journal
  match opened with
  | .error error => (.error error, journal)
  | .ok journal =>
      let (result, journal) := setting.executeStartedInner 1 plan.entry.operation journal
      (.ok (outcome plan result), journal)

def recoverPlans : List OperationRecoveryPlan → List JournalEntry →
    Except GfmError (List OperationRecoveryOutcome) × List JournalEntry
  | [], journal => (.ok [], journal)
  | plan :: plans, journal =>
      match recovery.recoverPlan plan journal with
      | (.error error, journal) => (.error error, journal)
      | (.ok outcome, journal) =>
          let (rest, journal) := recoverPlans plans journal
          (rest.map (outcome :: ·), journal)

def recoverWithPolicy (journal : List JournalEntry) :
    Except GfmError (List OperationRecoveryOutcome) × List JournalEntry :=
  match recovery.readFault with
  | some message => (.error (.io recovery.path message), journal)
  | none =>
      recovery.recoverPlans
        (recoverableOperations recovery.policy (journal.map JournalEntry.kept)) journal

end Recovery

/-- The journal after the recoveries, one after the other. -/
def recovered (recoveries : List Recovery) (journal : List JournalEntry) : List JournalEntry :=
  recoveries.foldl (fun journal recovery => (recovery.recoverWithPolicy journal).2) journal

/-- How often the journal pauses an id. -/
def pauses (entries : List JournalEntry) (id : U128) : Nat :=
  (entries.filter fun entry => entry.id = id ∧ entry.status = .paused).length

/-- The policy retries failures up to the limit at most. -/
def OperationRecoveryPolicy.Within (policy : OperationRecoveryPolicy) (limit : Nat) : Prop :=
  policy.retryFailed → (Jobs.RetryPolicy.mk policy.maxAttempts).attempts ≤ limit

/-- The last entry of the id is a pause. -/
def Resting (journal : List JournalEntry) (id : U128) : Prop :=
  ∃ entry, lastOf journal id = some entry ∧ entry.status = .paused

/-- The entries of the id count and end as before. -/
structure Untouched (id : U128) (journal later : List JournalEntry) : Prop where
  starts_eq : starts later id = starts journal id
  pauses_eq : pauses later id = pauses journal id
  lastOf_eq : lastOf later id = lastOf journal id

/-- The starts of the id beyond the limit are no more than its pauses, the last of which still
allows a start. -/
def Bounded (limit : Nat) (journal : List JournalEntry) (id : U128) : Prop :=
  starts journal id ≤ limit + pauses journal id ∧
    (Resting journal id → starts journal id < limit + pauses journal id)

section Entries

variable {limit : Nat} {journal : List JournalEntry} {entry : JournalEntry} {id : U128}

theorem pauses_append (own : entry.id = id) : pauses (journal ++ [entry]) id =
    pauses journal id + if entry.status = .paused then 1 else 0 := by
  rw [pauses, pauses, filter_append, length_append]
  by_cases paused : entry.status = .paused
  · simp [own, paused]
  · simp [own, paused]

theorem resting_append (own : entry.id = id) :
    Resting (journal ++ [entry]) id ↔ entry.status = .paused := by
  simp [Resting, lastOf_append own]

theorem untouched_append (other : entry.id ≠ id) : Untouched id journal (journal ++ [entry]) where
  starts_eq := by simp [starts, filter_append, other]
  pauses_eq := by simp [pauses, filter_append, other]
  lastOf_eq := by simp [lastOf, filter_append, other]

theorem Untouched.trans {middle later : List JournalEntry} (first : Untouched id journal middle)
    (second : Untouched id middle later) : Untouched id journal later where
  starts_eq := second.starts_eq.trans first.starts_eq
  pauses_eq := second.pauses_eq.trans first.pauses_eq
  lastOf_eq := second.lastOf_eq.trans first.lastOf_eq

theorem Untouched.bounded {later : List JournalEntry} (same : Untouched id journal later) :
    Bounded limit later id ↔ Bounded limit journal id := by
  rw [Bounded, Bounded, Resting, Resting, same.starts_eq, same.pauses_eq, same.lastOf_eq]

/-- An entry that starts nothing keeps the bound. -/
theorem Bounded.append (bounded : Bounded limit journal id) (closing : entry.status ≠ .started) :
    Bounded limit (journal ++ [entry]) id := by
  by_cases own : entry.id = id
  · rw [Bounded, resting_append own, starts_append own, pauses_append own, openings,
      if_neg closing]
    have atMost := bounded.1
    split
    · omega
    · rename_i awake
      exact ⟨by omega, fun paused => absurd paused awake⟩
  · exact (untouched_append own).bounded.mpr bounded

/-- A start below the limit, or after a pause, keeps the bound. -/
theorem bounded_append_start (own : entry.id = id) (started : entry.status = .started)
    (below : starts journal id < limit + pauses journal id) :
    Bounded limit (journal ++ [entry]) id := by
  have awake : entry.status ≠ .paused := by simp [started]
  rw [Bounded, resting_append own, starts_append own, pauses_append own, openings,
    if_pos started, if_neg awake]
  exact ⟨by omega, fun paused => absurd paused awake⟩

end Entries

section Attempts

variable {limit attempt : Nat} {setting : Setting} {operation : Operation Text}
  {journal later : List JournalEntry} {id own : U128}

/-- What an attempt of an id leaves behind the journal: entries of the id that start nothing. -/
def Closes (own : U128) (journal later : List JournalEntry) : Prop :=
  ∃ closing, later = journal ++ closing ∧
    ∀ entry ∈ closing, entry.id = own ∧ entry.status ≠ .started

theorem closes_refl : Closes own journal journal := ⟨[], by simp, by simp⟩

theorem closes_append {place : Place} {entry : JournalEntry} (named : entry.id = own)
    (closing : entry.status ≠ .started)
    (appended : setting.append place journal entry = .ok later) : Closes own journal later := by
  unfold Setting.append at appended
  split at appended
  · cases appended
  · cases appended
    exact ⟨[entry], rfl, by simp [named, closing]⟩

theorem failAttempt_closes (error : GfmError) :
    Closes setting.id journal (setting.failAttempt attempt operation journal error).2 := by
  unfold failAttempt
  split
  next appended =>
    refine closes_append (id_fromError _ _ _ _) ?_ appended
    rw [status_fromError]
    exact operationStatusFromError_ne_started error
  · exact closes_refl

theorem endAttempt_closes {entry : JournalEntry} (named : entry.id = setting.id)
    (closing : entry.status ≠ .started) :
    Closes setting.id journal (setting.endAttempt attempt journal entry).2 := by
  unfold endAttempt
  split
  next appended => exact closes_append named closing appended
  · exact closes_refl

theorem executeStartedInner_closes :
    Closes setting.id journal (setting.executeStartedInner attempt operation journal).2 := by
  unfold executeStartedInner
  split
  · exact failAttempt_closes _
  · split
    · exact closes_refl
    · exact endAttempt_closes rfl (by simp [JournalEntry.skipped])
    · split
      · exact failAttempt_closes _
      · split
        · exact failAttempt_closes _
        · split
          · exact failAttempt_closes _
          · exact endAttempt_closes rfl (by simp [JournalEntry.completed])

theorem Closes.bounded (closes : Closes own journal later) (bounded : Bounded limit journal id) :
    Bounded limit later id := by
  rcases closes with ⟨closing, rfl, each⟩
  induction closing generalizing journal with
  | nil => simpa using bounded
  | cons entry closing ih =>
      rw [forall_mem_cons] at each
      rw [append_cons]
      exact ih (bounded.append each.1.2) each.2

theorem Closes.untouched (closes : Closes own journal later) (other : own ≠ id) :
    Untouched id journal later := by
  rcases closes with ⟨closing, rfl, each⟩
  induction closing generalizing journal with
  | nil =>
      rw [append_nil]
      exact ⟨rfl, rfl, rfl⟩
  | cons entry closing ih =>
      rw [forall_mem_cons] at each
      have differs : entry.id ≠ id := each.1.1 ▸ other
      rw [append_cons]
      exact (untouched_append differs).trans (ih each.2)

end Attempts

section Kept

variable {journal : List JournalEntry} {id : U128}

theorem starts_kept (journal : List JournalEntry) (id : U128) :
    starts (journal.map JournalEntry.kept) id = starts journal id := by
  rw [starts, starts, filter_map, length_map]
  rfl

theorem lastOf_kept (journal : List JournalEntry) (id : U128) :
    lastOf (journal.map JournalEntry.kept) id = (lastOf journal id).map JournalEntry.kept := by
  rw [lastOf, lastOf, filter_map, getLast?_map]
  rfl

theorem starts_ownEntries {setting : Setting} (named : setting.id = id) :
    starts (setting.ownEntries journal) id = starts journal id := by
  subst named
  rw [← starts_kept journal]
  exact starts_own _ _

theorem lastOf_ownEntries {setting : Setting} (named : setting.id = id) :
    lastOf (setting.ownEntries journal) id = (lastOf journal id).map JournalEntry.kept := by
  subst named
  rw [← lastOf_kept, lastOf, lastOf, ownEntries, filter_filter]
  simp only [Bool.and_self]

/-- What is planned anew may be started anew. -/
theorem below_of_planned {policy : OperationRecoveryPolicy} {limit : Nat}
    {entries : List JournalEntry} (within : policy.Within limit)
    (bounded : Bounded limit journal id) (sameStarts : starts entries id = starts journal id)
    (sameLast : lastOf entries id = (lastOf journal id).map JournalEntry.kept)
    {plan : OperationRecoveryPlan} (named : plan.entry.id = id)
    (planned : plan ∈ recoverableOperations policy entries)
    (anew : plan.appendStarted = true) : starts journal id < limit + pauses journal id := by
  rcases mem_recoverableOperations.mp planned with ⟨ends, recovered, appended⟩
  rw [named, sameLast, Option.map_eq_some_iff] at ends
  rcases ends with ⟨last, ends, kept⟩
  have status : last.kept.status = plan.entry.status := congrArg JournalEntry.status kept
  rcases recovered with started | paused | ⟨retries, -, fewer, -⟩
  · exact absurd started (appended.mp anew)
  · exact bounded.2 ⟨last, ends, status.trans paused⟩
  · rw [named, sameStarts] at fewer
    have atMost := within retries
    omega

end Kept

section Recoveries

variable {limit : Nat} {recovery : Recovery} {journal : List JournalEntry} {id : U128}
  {plan : OperationRecoveryPlan} {plans : List OperationRecoveryPlan}

/-- The entry that starts the plan anew. -/
def Recovery.openedEntry (recovery : Recovery) (plan : OperationRecoveryPlan) : JournalEntry :=
  .opened plan.entry.id plan.entry.operation
    ((recovery.attempt plan.entry.id).clock (.opened 1))

theorem recoverPlan_cases (recovery : Recovery) (plan : OperationRecoveryPlan)
    (journal : List JournalEntry) :
    (recovery.recoverPlan plan journal).2 = journal ∨
      ∃ opened, (opened = journal ∨
          plan.appendStarted = true ∧ opened = journal ++ [recovery.openedEntry plan]) ∧
        Closes plan.entry.id opened (recovery.recoverPlan plan journal).2 := by
  unfold Recovery.recoverPlan
  dsimp only
  split
  · exact .inl rfl
  next opened =>
    refine .inr ⟨_, ?_, executeStartedInner_closes⟩
    split at opened
    next anew =>
      unfold Setting.append at opened
      split at opened
      · cases opened
      · cases opened
        exact .inr ⟨anew, rfl⟩
    · cases opened
      exact .inl rfl

theorem recoverPlan_bounded (bounded : Bounded limit journal id)
    (below : plan.entry.id = id → plan.appendStarted = true →
      starts journal id < limit + pauses journal id) :
    Bounded limit (recovery.recoverPlan plan journal).2 id := by
  rcases recoverPlan_cases recovery plan journal with same | ⟨opened, started, closes⟩
  · rw [same]
    exact bounded
  · refine closes.bounded ?_
    rcases started with rfl | ⟨anew, rfl⟩
    · exact bounded
    · by_cases own : plan.entry.id = id
      · exact bounded_append_start own rfl (below own anew)
      · exact (@untouched_append journal (recovery.openedEntry plan) id own).bounded.mpr bounded

theorem recoverPlan_untouched (recovery : Recovery) (other : plan.entry.id ≠ id) :
    Untouched id journal (recovery.recoverPlan plan journal).2 := by
  rcases recoverPlan_cases recovery plan journal with same | ⟨opened, started, closes⟩
  · rw [same]
    exact ⟨rfl, rfl, rfl⟩
  · refine Untouched.trans ?_ (closes.untouched other)
    rcases started with rfl | ⟨-, rfl⟩
    · exact ⟨rfl, rfl, rfl⟩
    · exact @untouched_append journal (recovery.openedEntry plan) id other

theorem recoverPlans_bounded (nodup : (plans.map fun plan => plan.entry.id).Nodup)
    (bounded : Bounded limit journal id)
    (below : ∀ plan ∈ plans, plan.entry.id = id → plan.appendStarted = true →
      starts journal id < limit + pauses journal id) :
    Bounded limit (recovery.recoverPlans plans journal).2 id := by
  induction plans generalizing journal with
  | nil => exact bounded
  | cons plan plans ih =>
      rw [map_cons, nodup_cons] at nodup
      rw [forall_mem_cons] at below
      have first : Bounded limit (recovery.recoverPlan plan journal).2 id :=
        recoverPlan_bounded bounded below.1
      unfold Recovery.recoverPlans
      split
      next failed =>
        rw [failed] at first
        exact first
      next done =>
        rw [done] at first
        refine ih nodup.2 first fun later member own anew => ?_
        have other : plan.entry.id ≠ id := by
          intro same
          exact nodup.1 (mem_map.mpr ⟨later, member, own.trans same.symm⟩)
        have same : Untouched id journal (recovery.recoverPlan plan journal).2 :=
          recoverPlan_untouched recovery other
        rw [done] at same
        rw [same.starts_eq, same.pauses_eq]
        exact below.2 later member own anew

theorem recoverWithPolicy_bounded (within : recovery.policy.Within limit)
    (bounded : Bounded limit journal id) :
    Bounded limit (recovery.recoverWithPolicy journal).2 id := by
  unfold Recovery.recoverWithPolicy
  split
  · exact bounded
  · exact recoverPlans_bounded (nodup_recoverableOperations _ _) bounded fun plan member own anew =>
      below_of_planned within bounded (starts_kept journal id) (lastOf_kept journal id) own member
        anew

theorem recovered_bounded {recoveries : List Recovery}
    (within : ∀ recovery ∈ recoveries, recovery.policy.Within limit)
    (bounded : Bounded limit journal id) : Bounded limit (recovered recoveries journal) id := by
  induction recoveries generalizing journal with
  | nil => exact bounded
  | cons recovery recoveries ih =>
      rw [forall_mem_cons] at within
      exact ih within.2 (recoverWithPolicy_bounded within.1 bounded)

end Recoveries

section Calls

variable {limit : Nat} {setting : Setting} {policy : OperationRecoveryPolicy}
  {operation : Operation Text} {journal : List JournalEntry}

theorem mem_of_retryPlan {entries : List JournalEntry} {id : U128} {plan : OperationRecoveryPlan}
    (planned : retryPlan policy entries id = some plan) :
    plan ∈ recoverableOperations policy entries ∧ plan.entry.id = id := by
  unfold retryPlan at planned
  dsimp only at planned
  split at planned
  · cases planned
  next last =>
    split at planned
    · cases planned
    next single =>
      cases planned
      rw [not_or, not_not] at single
      exact ⟨mem_of_getLast? last, single.1⟩

/-- The entries of one id have one plan at most. -/
theorem retryPlan_of_mem {entries : List JournalEntry} {id : U128} {plan : OperationRecoveryPlan}
    (own : ∀ entry ∈ entries, entry.id = id)
    (member : plan ∈ recoverableOperations policy entries) :
    retryPlan policy entries id = some plan := by
  have named : ∀ other ∈ recoverableOperations policy entries, other.entry.id = id := by
    intro other listed
    have ends := mem_of_getLast? (mem_recoverableOperations.mp listed).1
    exact own _ (mem_filter.mp ends).1
  have nodup := nodup_recoverableOperations policy entries
  have single : recoverableOperations policy entries = [plan] := by
    cases plans : recoverableOperations policy entries with
    | nil =>
        rw [plans] at member
        cases member
    | cons first rest =>
        rw [plans] at member named nodup
        cases rest with
        | nil => rw [mem_singleton.mp member]
        | cons second rest =>
            have same : first.entry.id = second.entry.id := by
              rw [named first (by simp), named second (by simp)]
            simp [same] at nodup
  have planOwn := named plan member
  unfold retryPlan
  simp [single, planOwn]

theorem executeWithProgress_bounded (operation : Operation Text)
    (above : starts journal setting.id < limit) :
    Bounded limit (setting.executeWithProgress operation journal).journal setting.id := by
  have begun : Bounded limit journal setting.id := ⟨by omega, fun _ => by omega⟩
  have opens : ∀ (place : Place) (operation : Operation Text) (timestamp : U128)
      (opened : List JournalEntry), setting.append place journal
        (.opened setting.id operation timestamp) = .ok opened →
      Bounded limit opened setting.id := by
    intro place operation timestamp opened appended
    unfold Setting.append at appended
    split at appended
    · cases appended
    · cases appended
      exact bounded_append_start rfl rfl (by omega)
  unfold Setting.executeWithProgress
  split
  · split
    · exact begun
    next opened => exact (failAttempt_closes _).bounded (opens _ _ _ _ opened)
  · split
    · exact begun
    · split
      · exact begun
      next opened => exact executeStartedInner_closes.bounded (opens _ _ _ _ opened)

theorem retryFailedById_bounded (within : policy.Within limit)
    (bounded : Bounded limit journal setting.id) :
    Bounded limit (setting.retryFailedById policy journal).2 setting.id := by
  unfold retryFailedById
  dsimp only
  split
  · exact bounded
  · split
    · exact bounded
    next plan planned =>
      split
      · exact bounded
      · split
        · exact bounded
        next opened =>
          refine executeStartedInner_closes.bounded ?_
          split at opened
          next anew =>
            unfold Setting.append at opened
            split at opened
            · cases opened
            · cases opened
              rcases mem_of_retryPlan planned with ⟨member, own⟩
              exact bounded_append_start rfl rfl (below_of_planned within bounded
                (starts_ownEntries rfl) (lastOf_ownEntries rfl) own member anew)
          · cases opened
            exact bounded

theorem executeWithRetry_bounded (within : policy.Within limit) (operation : Operation Text)
    (above : starts journal setting.id < limit) :
    Bounded limit (setting.executeWithRetryPolicyAndProgress policy operation journal).journal
      setting.id := by
  have first := executeWithProgress_bounded operation above
  unfold executeWithRetryPolicyAndProgress
  dsimp only
  split
  · have second := retryFailedById_bounded within first
    unfold afterRetry
    split
    next failed =>
      rw [failed] at second
      exact second
    next done =>
      rw [done] at second
      exact second
    next none =>
      rw [none] at second
      exact second
  · exact first

/-- Over the call and the recoveries that follow, whatever each of them meets. -/
theorem starts_recovered (within : policy.Within limit) (operation : Operation Text)
    (above : starts journal setting.id < limit) {recoveries : List Recovery}
    (each : ∀ recovery ∈ recoveries, recovery.policy.Within limit) :
    starts (recovered recoveries
        (setting.executeWithRetryPolicyAndProgress policy operation journal).journal) setting.id ≤
      limit + pauses (recovered recoveries
        (setting.executeWithRetryPolicyAndProgress policy operation journal).journal) setting.id :=
  (recovered_bounded each (executeWithRetry_bounded within operation above)).1

end Calls

/-- The error of an attempt that goes past the question of skipping. -/
def Setting.fault (setting : Setting) (attempt : Nat) : Option GfmError :=
  match setting.gate attempt with
  | some error => some error
  | none =>
      match setting.retryProbe.elim (.ok ()) (· attempt) with
      | .error error => some error
      | .ok () =>
          match setting.plan attempt with
          | .error error => some error
          | .ok () =>
              match setting.apply attempt with
              | .error error => some error
              | .ok () => none

/-- The error of the first attempt of a call, which the gate may refuse before it. -/
def Setting.firstFault (setting : Setting) : Option GfmError :=
  (setting.gate 0).or (setting.fault 1)

/-- The error is journaled as a failure that may be tried again. -/
def Retryable (error : GfmError) : Prop :=
  operationStatusFromError error = .failed ∧
    (Jobs.FailureClass.classify error.toText).retryable

/-- A call of an operation and the recoveries after it in which nothing goes wrong but the
attempts of the operation: the first so many fail with errors that may be tried again, the next
one succeeds. The id is new to the journal. -/
structure Persists (policy : OperationRecoveryPolicy) (setting : Setting)
    (recoveries : Nat → Recovery) (operation target : Operation Text)
    (journal : List JournalEntry) (faults : Nat → Option GfmError) (failures : Nat) : Prop where
  retries : policy.retryFailed
  fewer : failures < policy.maxAttempts
  fresh : starts journal setting.id = 0
  appends : setting.AppendsSucceed
  readable : setting.readFault = none
  uncancelled : setting.cancelled = fun _ => false
  opens : (setting.gate 0 = none ∧ setting.resolved = .ok target) ∨
    (setting.gate 0 ≠ none ∧ operation = target)
  unskipped : ∀ attempt, setting.shouldSkipOperation attempt target = .ok false
  first : setting.firstFault = faults 0
  second : setting.fault 2 = faults 1
  policies : ∀ round, (recoveries round).policy = policy
  readables : ∀ round, (recoveries round).readFault = none
  appendsAll : ∀ round id, ((recoveries round).attempt id).AppendsSucceed
  unskippedLater : ∀ round attempt,
    ((recoveries round).attempt setting.id).shouldSkipOperation attempt target = .ok false
  later : ∀ round, ((recoveries round).attempt setting.id).fault 1 = faults (round + 2)
  fails : ∀ attempt < failures, ∃ error, faults attempt = some error ∧ Retryable error
  succeeds : faults failures = none

/-- The operation failed last, with an error that may be tried again, after so many starts. -/
def Failing (journal : List JournalEntry) (id : U128) (target : Operation Text) (count : Nat) :
    Prop :=
  ∃ last text, lastOf journal id = some last ∧ last.status = .failed ∧ last.operation = target ∧
    last.message = some text ∧ (Jobs.FailureClass.classify (String.ofList text)).retryable ∧
    starts journal id = count

def Ended (journal : List JournalEntry) (id : U128) (target : Operation Text) : Prop :=
  ∃ last, lastOf journal id = some last ∧ last.status = .completed ∧ last.operation = target

section Persistence

variable {policy : OperationRecoveryPolicy} {setting : Setting} {target : Operation Text}
  {attempt count : Nat} {journal later : List JournalEntry} {id : U128} {error : GfmError}

theorem executeStartedInner_unskipped
    (unskipped : setting.shouldSkipOperation attempt target = .ok false) :
    setting.executeStartedInner attempt target journal =
      match setting.fault attempt with
      | some error => setting.failAttempt attempt target journal error
      | none => setting.endAttempt attempt journal
          (.completed setting.id target (setting.clock (.closed attempt))) := by
  unfold executeStartedInner Setting.fault
  cases setting.gate attempt with
  | some error => rfl
  | none =>
      rw [unskipped]
      dsimp only
      cases setting.retryProbe.elim (.ok ()) (· attempt) with
      | error error => rfl
      | ok done =>
          cases setting.plan attempt with
          | error error => rfl
          | ok planned => cases setting.apply attempt <;> rfl

theorem executeStartedInner_failed (appends : setting.AppendsSucceed)
    (unskipped : setting.shouldSkipOperation attempt target = .ok false)
    (fault : setting.fault attempt = some error) :
    setting.executeStartedInner attempt target journal = (.error error, journal ++
      [.fromError setting.id target (setting.clock (.closed attempt)) error]) := by
  rw [executeStartedInner_unskipped unskipped, fault]
  simp only [failAttempt, Setting.append, appends (.closed attempt)]

theorem executeStartedInner_completed (appends : setting.AppendsSucceed)
    (unskipped : setting.shouldSkipOperation attempt target = .ok false)
    (fault : setting.fault attempt = none) :
    setting.executeStartedInner attempt target journal =
      (.ok (.completed setting.id target (setting.clock (.closed attempt))), journal ++
        [.completed setting.id target (setting.clock (.closed attempt))]) := by
  rw [executeStartedInner_unskipped unskipped, fault]
  simp only [endAttempt, Setting.append, appends (.closed attempt)]

theorem fromError_retryable (retryable : Retryable error) (timestamp : U128) :
    JournalEntry.fromError id target timestamp error =
      ⟨id, .failed, target, some error.toText.toList, timestamp⟩ := by
  cases error with
  | paused => cases retryable.1
  | cancelled => cases retryable.1
  | _ => rfl

theorem failing_append (retryable : Retryable error) (timestamp : U128)
    (started : starts journal id = count) :
    Failing (journal ++ [.fromError id target timestamp error]) id target count := by
  rw [fromError_retryable retryable]
  refine ⟨_, error.toText.toList, lastOf_append rfl, rfl, rfl, rfl, ?_, ?_⟩
  · rw [String.ofList_toList]
    exact retryable.2
  · rw [starts_append rfl, started]
    rfl

theorem ended_append (timestamp : U128) :
    Ended (journal ++ [.completed id target timestamp]) id target :=
  ⟨_, lastOf_append rfl, rfl, rfl⟩

theorem starts_opened (timestamp : U128) :
    starts (journal ++ [.opened id target timestamp]) id = starts journal id + 1 :=
  starts_append rfl

theorem Untouched.failing (same : Untouched id journal later) :
    Failing later id target count ↔ Failing journal id target count := by
  rw [Failing, Failing, same.lastOf_eq, same.starts_eq]

theorem Untouched.ended (same : Untouched id journal later) :
    Ended later id target ↔ Ended journal id target := by
  rw [Ended, Ended, same.lastOf_eq]

/-- A failing operation below the limit is planned anew, whatever else the entries hold. -/
theorem Failing.planned (failing : Failing journal id target count)
    (retries : policy.retryFailed) (fewer : count < policy.maxAttempts)
    {entries : List JournalEntry} (sameStarts : starts entries id = starts journal id)
    (sameLast : lastOf entries id = (lastOf journal id).map JournalEntry.kept) :
    ∃ plan ∈ recoverableOperations policy entries, plan.entry.id = id := by
  rcases failing with ⟨last, text, ends, status, operation, message, retryable, started⟩
  have own : last.kept.id = id := by
    have member := mem_of_getLast? ends
    exact of_decide_eq_true (mem_filter.mp member).2
  have said : last.kept.message = some text := by
    have nonempty : text ≠ [] := by
      rintro rfl
      exact absurd retryable (by decide +kernel)
    simp [JournalEntry.kept, message, nonempty]
  refine ⟨⟨last.kept, true⟩, mem_recoverableOperations.mpr ⟨?_, .inr (.inr ?_), ?_⟩, own⟩
  · change lastOf entries last.kept.id = some last.kept
    rw [own, sameLast, ends]
    rfl
  · refine ⟨retries, status, ?_, text, said, retryable⟩
    change starts entries last.kept.id < _
    rw [own, sameStarts, started]
    exact lt_max_of_lt_left fewer
  · have awake : last.kept.status ≠ .started := by
      rw [status_kept, status]
      decide
    exact iff_of_true rfl awake

/-- What is planned of a failing operation: the same operation, to be started anew. -/
theorem Failing.plan (failing : Failing journal id target count)
    {entries : List JournalEntry}
    (sameLast : lastOf entries id = (lastOf journal id).map JournalEntry.kept)
    {plan : OperationRecoveryPlan} (member : plan ∈ recoverableOperations policy entries)
    (own : plan.entry.id = id) :
    plan.entry.operation = target ∧ plan.appendStarted = true := by
  rcases failing with ⟨last, text, ends, status, operation, -⟩
  rcases mem_recoverableOperations.mp member with ⟨planEnds, -, appended⟩
  rw [own, sameLast, ends, Option.map_some, Option.some.injEq] at planEnds
  rw [appended, ← planEnds]
  refine ⟨operation, ?_⟩
  rw [status_kept, status]
  decide

variable {recovery : Recovery} {plan : OperationRecoveryPlan} {plans : List OperationRecoveryPlan}

theorem recoverPlans_untouched (others : ∀ plan ∈ plans, plan.entry.id ≠ id) :
    Untouched id journal (recovery.recoverPlans plans journal).2 := by
  induction plans generalizing journal with
  | nil => exact ⟨rfl, rfl, rfl⟩
  | cons plan plans ih =>
      rw [forall_mem_cons] at others
      have first : Untouched id journal (recovery.recoverPlan plan journal).2 :=
        recoverPlan_untouched recovery others.1
      unfold Recovery.recoverPlans
      split
      next failed =>
        rw [failed] at first
        exact first
      next done =>
        rw [done] at first
        exact first.trans (ih others.2)

theorem recoverPlan_ok (appends : (recovery.attempt plan.entry.id).AppendsSucceed) :
    ∃ outcome, (recovery.recoverPlan plan journal).1 = .ok outcome := by
  have opens : ∃ opened, (if plan.appendStarted then
      (recovery.attempt plan.entry.id).append (.opened 1) journal (recovery.openedEntry plan)
      else .ok journal) = .ok opened := by
    split
    · refine ⟨journal ++ [recovery.openedEntry plan], ?_⟩
      simp only [Setting.append, appends (.opened 1)]
    · exact ⟨journal, rfl⟩
  rcases opens with ⟨opened, opens⟩
  refine ⟨Recovery.outcome plan
    ((recovery.attempt plan.entry.id).executeStartedInner 1 plan.entry.operation opened).1, ?_⟩
  unfold Recovery.recoverPlan
  rw [Recovery.openedEntry] at opens
  simp only [opens]

theorem recoverPlan_anew (appends : (recovery.attempt plan.entry.id).AppendsSucceed)
    (anew : plan.appendStarted = true) : (recovery.recoverPlan plan journal).2 =
      ((recovery.attempt plan.entry.id).executeStartedInner 1 plan.entry.operation
        (journal ++ [recovery.openedEntry plan])).2 := by
  have opened : (recovery.attempt plan.entry.id).append (.opened 1) journal
      (recovery.openedEntry plan) = .ok (journal ++ [recovery.openedEntry plan]) := by
    simp only [Setting.append, appends (.opened 1)]
  unfold Recovery.recoverPlan
  rw [Recovery.openedEntry] at opened ⊢
  simp only [anew, if_true, opened]

/-- The plans of other ids leave an id alone, before its own plan and after it. -/
theorem recoverPlans_own {before after : List JournalEntry → Prop}
    (appends : ∀ id, (recovery.attempt id).AppendsSucceed)
    (keepsBefore : ∀ {journal later}, Untouched id journal later → before journal → before later)
    (keepsAfter : ∀ {journal later}, Untouched id journal later → after journal → after later)
    (acts : ∀ plan ∈ plans, plan.entry.id = id → ∀ journal, before journal →
      after (recovery.recoverPlan plan journal).2)
    (nodup : (plans.map fun plan => plan.entry.id).Nodup)
    (planned : ∃ plan ∈ plans, plan.entry.id = id) (starting : before journal) :
    after (recovery.recoverPlans plans journal).2 := by
  induction plans generalizing journal with
  | nil =>
      rcases planned with ⟨plan, member, -⟩
      cases member
  | cons plan plans ih =>
      rw [map_cons, nodup_cons] at nodup
      rw [forall_mem_cons] at acts
      rcases @recoverPlan_ok journal recovery plan (appends plan.entry.id) with ⟨outcome, done⟩
      have later : (recovery.recoverPlans (plan :: plans) journal).2 =
          (recovery.recoverPlans plans (recovery.recoverPlan plan journal).2).2 := by
        rw [Recovery.recoverPlans, ← Prod.mk.eta (p := recovery.recoverPlan plan journal), done]
      rw [later]
      by_cases own : plan.entry.id = id
      · have others : ∀ other ∈ plans, other.entry.id ≠ id := by
          intro other member same
          exact nodup.1 (mem_map.mpr ⟨other, member, same.trans own.symm⟩)
        exact keepsAfter (recoverPlans_untouched others) (acts.1 own journal starting)
      · refine ih acts.2 nodup.2 ?_ (keepsBefore (recoverPlan_untouched recovery own) starting)
        rcases planned with ⟨mine, member, same⟩
        rcases mem_cons.mp member with rfl | member
        · exact absurd same own
        · exact ⟨mine, member, same⟩

/-- One recovery carries a failing operation out once more. -/
theorem Failing.recover (failing : Failing journal id target count)
    (policies : recovery.policy = policy) (retries : policy.retryFailed)
    (fewer : count < policy.maxAttempts) (readable : recovery.readFault = none)
    (appends : ∀ id, (recovery.attempt id).AppendsSucceed)
    (unskipped : (recovery.attempt id).shouldSkipOperation 1 target = .ok false) :
    match (recovery.attempt id).fault 1 with
    | none => Ended (recovery.recoverWithPolicy journal).2 id target
    | some error => Retryable error →
        Failing (recovery.recoverWithPolicy journal).2 id target (count + 1) := by
  have planned := failing.planned retries fewer (starts_kept journal id) (lastOf_kept journal id)
  have nodup := nodup_recoverableOperations policy (journal.map JournalEntry.kept)
  have run : (recovery.recoverWithPolicy journal).2 = (recovery.recoverPlans
      (recoverableOperations policy (journal.map JournalEntry.kept)) journal).2 := by
    simp only [Recovery.recoverWithPolicy, readable, policies]
  have opened : ∀ plan ∈ recoverableOperations policy (journal.map JournalEntry.kept),
      plan.entry.id = id → ∀ journal, (recovery.recoverPlan plan journal).2 =
        ((recovery.attempt id).executeStartedInner 1 target
          (journal ++ [.opened id target ((recovery.attempt id).clock (.opened 1))])).2 := by
    intro plan member own later
    rcases failing.plan (lastOf_kept journal id) member own with ⟨operation, anew⟩
    rw [recoverPlan_anew (appends _) anew, Recovery.openedEntry, own, operation]
  rw [run]
  cases fault : (recovery.attempt id).fault 1 with
  | none =>
      refine recoverPlans_own appends (fun same => same.failing.mpr) (fun same => same.ended.mpr)
        (fun plan member own later _ => ?_) nodup planned failing
      rw [opened plan member own, executeStartedInner_completed (appends id) unskipped fault]
      exact ended_append _
  | some error =>
      intro retryable
      refine recoverPlans_own appends (fun same => same.failing.mpr) (fun same => same.failing.mpr)
        (fun plan member own later held => ?_) nodup planned failing
      rw [opened plan member own, executeStartedInner_failed (appends id) unskipped fault]
      refine failing_append retryable _ ((starts_opened _).trans ?_)
      rcases held with ⟨-, -, -, -, -, -, -, started⟩
      rw [started]

theorem sleepFrom_uncancelled (poll remaining : Nat) :
    sleepFrom (fun _ => false) poll remaining = true := by
  fun_induction sleepFrom with
  | case1 => rfl
  | case2 _ _ _ seen => exact absurd seen Bool.false_ne_true
  | case3 _ _ _ _ ih => exact ih

theorem sleepRetryBackoffChecked_uncancelled (delay : Nat) :
    sleepRetryBackoffChecked (fun _ => false) delay = .ok () := by
  simp [sleepRetryBackoffChecked, sleepFrom_uncancelled]

variable {recoveries : Nat → Recovery} {operation : Operation Text} {faults : Nat → Option GfmError}
  {failures : Nat}

/-- The first attempt of the call. -/
theorem Persists.executeWithProgress
    (persists : Persists policy setting recoveries operation target journal faults failures) :
    (setting.executeWithProgress operation journal).started = some setting.id ∧
    match faults 0 with
    | none => (∃ entry, (setting.executeWithProgress operation journal).result = .ok entry ∧
          entry.status = .completed) ∧
        Ended (setting.executeWithProgress operation journal).journal setting.id target
    | some error => Retryable error →
        (setting.executeWithProgress operation journal).result = .error error ∧
          Failing (setting.executeWithProgress operation journal).journal setting.id target 1 := by
  have opened : ∀ attempt operation timestamp, setting.append (.opened attempt) journal
      (.opened setting.id operation timestamp) =
        .ok (journal ++ [.opened setting.id operation timestamp]) := by
    intro attempt operation timestamp
    simp only [Setting.append, persists.appends (.opened attempt)]
  have started : ∀ timestamp,
      starts (journal ++ [.opened setting.id target timestamp]) setting.id = 1 := by
    intro timestamp
    rw [starts_opened, persists.fresh]
  rw [← persists.first]
  unfold Setting.executeWithProgress firstFault
  rcases persists.opens with ⟨passes, resolves⟩ | ⟨refuses, rfl⟩
  · rw [passes, resolves]
    dsimp only [Option.or]
    rw [opened]
    dsimp only
    refine ⟨rfl, ?_⟩
    cases fault : setting.fault 1 with
    | none =>
        rw [executeStartedInner_completed persists.appends (persists.unskipped 1) fault]
        exact ⟨⟨_, rfl, rfl⟩, ended_append _⟩
    | some error =>
        intro retryable
        rw [executeStartedInner_failed persists.appends (persists.unskipped 1) fault]
        exact ⟨rfl, failing_append retryable _ (started _)⟩
  · cases gate : setting.gate 0 with
    | none => exact absurd gate refuses
    | some error =>
        dsimp only [Option.or]
        rw [opened]
        dsimp only
        refine ⟨rfl, fun retryable => ?_⟩
        have failed : ∀ later, setting.failAttempt 0 operation later error = (.error error, later ++
            [.fromError setting.id operation (setting.clock (.closed 0)) error]) := by
          intro later
          simp only [failAttempt, Setting.append, persists.appends (.closed 0)]
        rw [failed]
        exact ⟨rfl, failing_append retryable _ (started _)⟩

/-- The retry of a call carries a failing operation out once more. -/
theorem Failing.retry (failing : Failing journal setting.id target count)
    (retries : policy.retryFailed) (fewer : count < policy.maxAttempts)
    (readable : setting.readFault = none) (uncancelled : setting.cancelled = fun _ => false)
    (appends : setting.AppendsSucceed)
    (unskipped : setting.shouldSkipOperation 2 target = .ok false) :
    match setting.fault 2 with
    | none => ∃ entry, (setting.retryFailedById policy journal).1 = .ok (some entry) ∧
        entry.status = .completed ∧
          Ended (setting.retryFailedById policy journal).2 setting.id target
    | some error => Retryable error →
        (setting.retryFailedById policy journal).1 = .error error ∧
          Failing (setting.retryFailedById policy journal).2 setting.id target (count + 1) := by
  have sameLast := @lastOf_ownEntries journal setting.id setting rfl
  have planned : ∃ plan, retryPlan policy (setting.ownEntries journal) setting.id = some plan ∧
      plan.entry.operation = target ∧ plan.appendStarted = true := by
    rcases failing.planned retries fewer (@starts_ownEntries journal setting.id setting rfl)
      sameLast with ⟨plan, member, own⟩
    exact ⟨plan, retryPlan_of_mem ownEntries_own member, failing.plan sameLast member own⟩
  rcases planned with ⟨plan, planned, operation, anew⟩
  have rested : (retryDelayForFailedOperation policy (setting.ownEntries journal) setting.id).elim
      (.ok ()) (sleepRetryBackoffChecked setting.cancelled) = .ok () := by
    rw [uncancelled]
    cases retryDelayForFailedOperation policy (setting.ownEntries journal) setting.id with
    | none => rfl
    | some delay => exact sleepRetryBackoffChecked_uncancelled delay
  have run : setting.retryFailedById policy journal =
      ((setting.executeStartedInner 2 target (journal ++
          [.opened setting.id target (setting.clock (.opened 2))])).1.map some,
        (setting.executeStartedInner 2 target (journal ++
          [.opened setting.id target (setting.clock (.opened 2))])).2) := by
    simp only [retryFailedById, readable, planned, rested, anew, if_true, operation,
      Setting.append, appends (.opened 2)]
  rw [run]
  cases fault : setting.fault 2 with
  | none =>
      rw [executeStartedInner_completed appends unskipped fault]
      exact ⟨_, rfl, rfl, ended_append _⟩
  | some error =>
      intro retryable
      rw [executeStartedInner_failed appends unskipped fault]
      refine ⟨rfl, failing_append retryable _ ((starts_opened _).trans ?_)⟩
      rcases failing with ⟨-, -, -, -, -, -, -, started⟩
      rw [started]

/-- The recoveries after a call, from the first one on. -/
def following (recoveries : Nat → Recovery) (rounds : Nat) (journal : List JournalEntry) :
    List JournalEntry :=
  recovered ((List.range rounds).map recoveries) journal

theorem following_succ (recoveries : Nat → Recovery) (rounds : Nat) (journal : List JournalEntry) :
    following recoveries (rounds + 1) journal =
      ((recoveries rounds).recoverWithPolicy (following recoveries rounds journal)).2 := by
  simp [following, recovered, range_succ]

theorem Persists.following_failing
    (persists : Persists policy setting recoveries operation target journal faults failures)
    (failing : Failing later setting.id target 2) {rounds : Nat}
    (early : rounds + 2 ≤ failures) :
    Failing (following recoveries rounds later) setting.id target (rounds + 2) := by
  induction rounds with
  | zero => exact failing
  | succ rounds ih =>
      rw [following_succ]
      have fewer : rounds + 2 < policy.maxAttempts :=
        lt_of_lt_of_le (by omega) persists.fewer.le
      rcases persists.fails (rounds + 2) (by omega) with ⟨error, faulty, retryable⟩
      have next := (ih (by omega)).recover (persists.policies rounds) persists.retries fewer
        (persists.readables rounds) (persists.appendsAll rounds) (persists.unskippedLater rounds 1)
      rw [persists.later rounds, faulty] at next
      exact next retryable

/-- A call makes the first two attempts, and the recoveries one each. -/
theorem Persists.ended
    (persists : Persists policy setting recoveries operation target journal faults failures) :
    (failures ≤ 1 → ∃ entry,
      (setting.executeWithRetryPolicyAndProgress policy operation journal).result = .ok entry ∧
        entry.status = .completed) ∧
    Ended (following recoveries (failures - 1)
      (setting.executeWithRetryPolicyAndProgress policy operation journal).journal)
      setting.id target := by
  rcases persists.executeWithProgress with ⟨started, first⟩
  cases failures with
  | zero =>
      rw [persists.succeeds] at first
      rcases first with ⟨⟨entry, result, status⟩, ended⟩
      rw [executeWithRetry_first (.inr ⟨entry, result⟩)]
      exact ⟨fun _ => ⟨entry, result, status⟩, ended⟩
  | succ failures =>
      rcases persists.fails 0 (by omega) with ⟨error, faulty, retryable⟩
      rw [faulty] at first
      rcases first retryable with ⟨result, failing⟩
      have second := failing.retry persists.retries (lt_of_le_of_lt (by omega) persists.fewer)
        persists.readable persists.uncancelled persists.appends (persists.unskipped 2)
      rw [executeWithRetry_failed started result]
      rw [persists.second] at second
      rcases retried : setting.retryFailedById policy
        (setting.executeWithProgress operation journal).journal with ⟨outcome, left⟩
      rw [retried] at second
      cases failures with
      | zero =>
          rw [persists.succeeds] at second
          rcases second with ⟨entry, done, status, ended⟩
          rw [show outcome = .ok (some entry) from done]
          exact ⟨fun _ => ⟨entry, rfl, status⟩, ended⟩
      | succ failures =>
          rcases persists.fails 1 (by omega) with ⟨again, faultyAgain, retryableAgain⟩
          rw [faultyAgain] at second
          rcases second retryableAgain with ⟨refused, failingAgain⟩
          rw [show outcome = .error again from refused]
          refine ⟨fun few => absurd few (by omega), ?_⟩
          have last := (persists.following_failing failingAgain (le_refl _)).recover
            (persists.policies failures) persists.retries persists.fewer
            (persists.readables failures) (persists.appendsAll failures)
            (persists.unskippedLater failures 1)
          rw [persists.later failures, persists.succeeds, ← following_succ] at last
          exact last

end Persistence

section Copying

/-- A copy whose attempts end as given; nothing else goes wrong. -/
def copying (attempts : Nat → Except GfmError Unit) : Setting where
  conflict := .fail
  path := ["journal"]
  id := 1
  clock := fun _ => 0
  gate := fun _ => none
  resolved := .ok (.copy ['a'] ['b'])
  targetExists := fun _ => .ok false
  retryProbe := none
  plan := fun _ => .ok ()
  apply := attempts
  appendFault := fun _ => none
  readFault := none
  cancelled := fun _ => false

def timedOut : GfmError := .format "timed out"

/-- The copy times out in both attempts of the call. -/
def slowCopy : Setting := copying fun _ => .error timedOut

/-- In a recovery the copy succeeds. -/
def recovering (policy : OperationRecoveryPolicy) : Recovery :=
  ⟨policy, ["journal"], none, fun _ => copying fun _ => .ok ()⟩

def twice (attempt : Nat) : Option GfmError := if attempt < 2 then some timedOut else none

theorem persists_slowCopy : Persists ⟨true, 3⟩ slowCopy (fun _ => recovering ⟨true, 3⟩)
    (.copy ['a'] ['b']) (.copy ['a'] ['b']) [] twice 2 where
  retries := rfl
  fewer := by decide
  fresh := rfl
  appends := fun _ => rfl
  readable := rfl
  uncancelled := rfl
  opens := .inl ⟨rfl, rfl⟩
  unskipped := fun _ => rfl
  first := rfl
  second := rfl
  policies := fun _ => rfl
  readables := fun _ => rfl
  appendsAll := fun _ _ _ => rfl
  unskippedLater := fun _ _ => rfl
  later := fun round => by simp [twice, Recovery.attempt, recovering, copying, Setting.fault]
  fails := fun attempt few => ⟨timedOut, if_pos few, rfl, by decide +kernel⟩
  succeeds := rfl

end Copying

/-- The policy is honoured over a call and the recoveries after it. However the attempts end, the
operation is started no more often than the policy allows and once more for each pause. And an
operation that fails fewer times than the policy allows attempts, with errors that may be tried
again, and then succeeds, ends as completed: in the call, where it fails once at most. -/
theorem retryPolicy_honoured (policy : OperationRecoveryPolicy) (setting : Setting)
    (operation : Operation Text) (journal : List JournalEntry) :
    (∀ recoveries : List Recovery,
      (∀ recovery ∈ recoveries, recovery.policy.Within
        (Jobs.RetryPolicy.mk policy.maxAttempts).attempts) →
      starts (recovered recoveries
          (setting.executeWithRetryPolicyAndProgress policy operation journal).journal)
            setting.id ≤
        max (Jobs.RetryPolicy.mk policy.maxAttempts).attempts (starts journal setting.id + 1) +
          pauses (recovered recoveries
            (setting.executeWithRetryPolicyAndProgress policy operation journal).journal)
              setting.id) ∧
    ∀ (recoveries : Nat → Recovery) (target : Operation Text) (faults : Nat → Option GfmError)
      (failures : Nat),
      Persists policy setting recoveries operation target journal faults failures →
      (failures ≤ 1 → ∃ entry,
        (setting.executeWithRetryPolicyAndProgress policy operation journal).result = .ok entry ∧
          entry.status = .completed) ∧
      Ended (following recoveries (failures - 1)
        (setting.executeWithRetryPolicyAndProgress policy operation journal).journal)
        setting.id target := by
  refine ⟨fun recoveries each => ?_, fun recoveries target faults failures => Persists.ended⟩
  refine starts_recovered (fun _ => le_max_left _ _) operation
    (lt_max_of_lt_right (Nat.lt_succ_self _)) fun recovery member retries => ?_
  exact (each recovery member retries).trans (le_max_left _ _)

theorem retryPolicy_slowCopy :
    Ended (following (fun _ => recovering ⟨true, 3⟩) 1
      (slowCopy.executeWithRetryPolicyAndProgress ⟨true, 3⟩ (.copy ['a'] ['b']) []).journal) 1
        (.copy ['a'] ['b']) :=
  ((retryPolicy_honoured ⟨true, 3⟩ slowCopy (.copy ['a'] ['b']) []).2 _ _ _ _
    persists_slowCopy).2

/-- A copy that is paused in both attempts of the call. -/
def restingCopy : Setting := copying fun _ => .error .paused

/-- After two of three attempts the call gives up; and a call that may start a copy once starts it
again after a pause. -/
theorem slowCopy_unfinished :
    (Persists ⟨true, 3⟩ slowCopy (fun _ => recovering ⟨true, 3⟩) (.copy ['a'] ['b'])
        (.copy ['a'] ['b']) [] twice 2 ∧
      ¬∃ entry, (slowCopy.executeWithRetryPolicyAndProgress ⟨true, 3⟩ (.copy ['a'] ['b'])
        []).result = .ok entry) ∧
    starts (restingCopy.executeWithRetryPolicyAndProgress ⟨true, 1⟩ (.copy ['a'] ['b'])
      []).journal 1 = 2 := by
  refine ⟨⟨persists_slowCopy, ?_⟩, ?_⟩
  · rcases persists_slowCopy.executeWithProgress with ⟨started, first⟩
    rcases first ⟨rfl, by decide +kernel⟩ with ⟨result, failing⟩
    have second := @Failing.retry ⟨true, 3⟩ slowCopy _ 1 _ failing rfl (by decide) rfl rfl
      (fun _ => rfl) rfl
    have refused := (second ⟨rfl, by decide +kernel⟩).1
    rintro ⟨entry, done⟩
    rw [executeWithRetry_failed started result] at done
    rcases retried : slowCopy.retryFailedById ⟨true, 3⟩
      (slowCopy.executeWithProgress (.copy ['a'] ['b']) []).journal with ⟨outcome, left⟩
    rw [retried] at refused done
    rw [show outcome = .error timedOut from refused] at done
    cases done
  · have planned : retryPlan ⟨true, 1⟩ (restingCopy.ownEntries
        (restingCopy.executeWithProgress (.copy ['a'] ['b']) []).journal) 1 =
          some ⟨⟨1, .paused, .copy ['a'] ['b'], none, 0⟩, true⟩ :=
      retryPlan_of_mem ownEntries_own
        (mem_recoverableOperations.mpr ⟨rfl, .inr (.inl rfl), by decide⟩)
    have run := @executeWithRetry_failed restingCopy (.copy ['a'] ['b']) [] ⟨true, 1⟩ .paused rfl
      rfl
    have id : restingCopy.id = 1 := rfl
    rw [run, retryFailedById, id]
    dsimp only
    rw [planned]
    rfl

end Gfm.Ops

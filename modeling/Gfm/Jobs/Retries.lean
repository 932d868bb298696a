import Gfm.Jobs.Recovery

/-!
# Retriable tasks

A retriable task runs until it succeeds, until its failure is not to be retried, or until its
cancellation token is seen. The token may flip at any moment; the code polls it at the places
that are named here. Each attempt is journaled before and after the work.
-/

namespace Gfm.Jobs

/-- The places where an attempt polls the cancellation token, in their order. -/
inductive Poll where
  | head
  | starting (poll : Nat)
  | failed
  | backoff (poll : Nat)
  deriving DecidableEq, Repr

/-- The entries that an attempt appends. -/
inductive Append where
  | started
  | finished
  | cancelled
  deriving DecidableEq, Repr

inductive AppendCall where
  | createDirAll
  | openFile
  | write
  deriving DecidableEq, Repr

/-- What an execution meets: what each poll of the token sees, which calls of an append fail
and with what text, and how the work of each attempt ends. -/
structure Execution where
  id : U64
  label : Text
  path : Path
  cancelled : Nat → Poll → Bool
  fault : Nat → Append → AppendCall → Option String
  work : Nat → Except GfmError Unit

/-- One call of the file system on the journal or on its directory. -/
def perform (path : Path) (fault : Option String) : Except GfmError Unit :=
  match fault with
  | some message => .error (.io path message)
  | none => .ok ()

def checkCancelled (cancelled : Bool) : Except GfmError Unit :=
  if cancelled then .error .cancelled else .ok ()

/-- The journal with the entry. An append that fails is taken to leave the journal as it was. -/
def appendChecked (path : Path) (cancelled : Nat → Bool) (fault : AppendCall → Option String)
    (journal : List JournalEntry) (entry : JournalEntry) : Except GfmError (List JournalEntry) := do
  checkCancelled (cancelled 0)
  perform path.dropLast (fault .createDirAll)
  checkCancelled (cancelled 1)
  perform path (fault .openFile)
  checkCancelled (cancelled 2)
  checkCancelled (cancelled 3)
  perform path (fault .write)
  return journal ++ [entry]

def sleepRetryBackoffCancellable (cancelled : Nat → Bool) (poll remaining : Nat) : Bool :=
  if remaining = 0 then !cancelled poll
  else if cancelled poll then false
  else sleepRetryBackoffCancellable cancelled (poll + 1) (remaining - min remaining 5)
  termination_by remaining

namespace Execution

variable (execution : Execution) (policy : RetryPolicy)

def jobId : JobId := ⟨execution.id⟩

def entry (attempt : Nat) (status : TaskStatus) : JournalEntry where
  id := execution.id
  label := execution.label
  attempt := Fin.ofNat (2 ^ 64) attempt
  status := status

def workStatus (attempt : Nat) : TaskStatus :=
  match execution.work attempt with
  | .ok () => .completed
  | .error .cancelled => .cancelled
  | .error error => .failed error.toText

def append (journal : List JournalEntry) (attempt : Nat) (place : Append) (status : TaskStatus) :
    Except GfmError (List JournalEntry) :=
  appendChecked execution.path (fun _ => false) (execution.fault attempt place) journal
    (execution.entry attempt status)

/-- The exit of an attempt that is cancelled after its failure was journaled. -/
def cancelAttempt (journal : List JournalEntry) (attempt : Nat) :
    TaskStatus × List JournalEntry :=
  match execution.append journal attempt .cancelled .cancelled with
  | .error error => (.failed error.toText, journal)
  | .ok journal => (.cancelled, journal)

/-- The attempts from `attempt` on, of which `left` are allowed. -/
def attemptsFrom (attempt : Nat) (finalStatus : TaskStatus) (journal : List JournalEntry) :
    Nat → TaskStatus × List JournalEntry
  | 0 => (finalStatus, journal)
  | left + 1 =>
      if execution.cancelled attempt .head then (.cancelled, journal)
      else
        match appendChecked execution.path (fun poll =>
          execution.cancelled attempt (.starting poll))
            (execution.fault attempt .started) journal (execution.entry attempt .started) with
        | .error .cancelled => (.cancelled, journal)
        | .error error => (.failed error.toText, journal)
        | .ok journal =>
            let status := execution.workStatus attempt
            match execution.append journal attempt .finished status with
            | .error error => (.failed error.toText, journal)
            | .ok journal =>
                match status with
                | .failed message =>
                    if execution.cancelled attempt .failed then
                      execution.cancelAttempt journal attempt
                    else
                      let decision := policy.retryDecision attempt message
                      if ¬decision.retryable then (status, journal)
                      else if 0 < decision.nextDelayMs ∧ attempt < policy.attempts ∧
                          ¬sleepRetryBackoffCancellable
                            (fun poll => execution.cancelled attempt (.backoff poll)) 0
                            decision.nextDelayMs then
                        execution.cancelAttempt journal attempt
                      else
                        attemptsFrom (attempt + 1) status journal left
                | _ => (status, journal)

def executeRetriableTask (journal : List JournalEntry) : TaskStatus × List JournalEntry :=
  execution.attemptsFrom policy 1 (.failed "task did not run") journal policy.attempts

/-- Every call of every append succeeds. -/
def AppendsSucceed : Prop := ∀ attempt place call, execution.fault attempt place call = none

/-- The token is seen before the attempt's start is journaled. -/
def SeenBeforeStart (attempt : Nat) : Prop :=
  execution.cancelled attempt .head ∨ ∃ poll < 4, execution.cancelled attempt (.starting poll)

/-- The attempt runs, fails in a way that is retried, and nothing of the token is seen. -/
def Retried (attempt : Nat) : Prop :=
  ¬execution.SeenBeforeStart attempt ∧ ¬execution.cancelled attempt .failed ∧
    ∃ message, execution.workStatus attempt = .failed message ∧
      (policy.retryDecision attempt message).retryable ∧
      sleepRetryBackoffCancellable (fun poll => execution.cancelled attempt (.backoff poll)) 0
        (policy.retryDecision attempt message).nextDelayMs

/-- Where the token is seen before the start of an attempt that is reached, the journal as it
stands lists nothing of the job: the first attempt leaves the journal it found, and a later one
the journal with a failure, which is listed while the job has attempts left. -/
def Spared (journal : List JournalEntry) : Prop :=
  ∀ attempt, 1 ≤ attempt → attempt ≤ policy.attempts →
    (∀ earlier, 1 ≤ earlier → earlier < attempt → execution.Retried policy earlier) →
    execution.SeenBeforeStart attempt →
    if attempt = 1 then ¬Listed policy journal execution.jobId
    else policy.attempts ≤ attemptsOf journal execution.jobId

def Final (status : TaskStatus) : Prop :=
  status = .cancelled ∨ status = .completed ∨ ∃ message, status = .failed message

/-- A run that ends cancelled, completed or failed has left nothing to recover. -/
def LeavesNothing (journal : List JournalEntry) : Prop :=
  Final (execution.executeRetriableTask policy journal).1 →
    ¬Listed policy (execution.executeRetriableTask policy journal).2 execution.jobId

section Steps

variable {execution policy} {journal : List JournalEntry} {attempt : Nat} {status : TaskStatus}

theorem lt_of_retryable {message : String}
    (retryable : (policy.retryDecision attempt message).retryable) :
    attempt < policy.attempts := by
  simp only [RetryPolicy.retryDecision, Bool.and_eq_true, decide_eq_true_eq] at retryable
  exact retryable.2

theorem nextDelay_pos {message : String}
    (retryable : (policy.retryDecision attempt message).retryable) :
    0 < (policy.retryDecision attempt message).nextDelayMs := by
  have delay : (policy.retryDecision attempt message).nextDelayMs =
      retryBackoffMs (FailureClass.classify message) attempt := if_pos retryable
  simp only [RetryPolicy.retryDecision, Bool.and_eq_true] at retryable
  rw [delay]
  cases kind : FailureClass.classify message with
  | transient => simp [retryBackoffMs]
  | offlineVolume => simp [retryBackoffMs]
  | permission => simp [kind, FailureClass.retryable] at retryable
  | missingFile => simp [kind, FailureClass.retryable] at retryable
  | corruptFile => simp [kind, FailureClass.retryable] at retryable
  | permanent => simp [kind, FailureClass.retryable] at retryable

theorem checkCancelled_bind {α : Type} (seen : Bool) (next : Unit → Except GfmError α) :
    (checkCancelled seen >>= next) = if seen then .error .cancelled else next () := by
  cases seen <;> rfl

theorem jobId_entry : (execution.entry attempt status).jobId = execution.jobId := rfl

theorem attempts_lt : policy.attempts < 2 ^ 64 := by
  have bound := policy.maxAttempts.isLt
  unfold RetryPolicy.attempts
  omega

theorem attempt_entry (small : attempt < 2 ^ 64) :
    ((execution.entry attempt status).attempt : Nat) = attempt := by
  simp only [entry, Fin.ofNat]
  exact Nat.mod_eq_of_lt small

theorem append_ok (succeed : execution.AppendsSucceed) (place : Append) :
    execution.append journal attempt place status =
      .ok (journal ++ [execution.entry attempt status]) := by
  simp only [append, appendChecked, succeed attempt place]
  rfl

theorem cancelAttempt_ok (succeed : execution.AppendsSucceed) :
    execution.cancelAttempt journal attempt =
      (.cancelled, journal ++ [execution.entry attempt .cancelled]) := by
  simp only [cancelAttempt, append_ok succeed]

theorem append_started_seen (succeed : execution.AppendsSucceed)
    (seen : ∃ poll < 4, execution.cancelled attempt (.starting poll)) :
    appendChecked execution.path (fun poll => execution.cancelled attempt (.starting poll))
        (execution.fault attempt .started) journal (execution.entry attempt .started) =
      .error .cancelled := by
  rcases seen with ⟨poll, small, seen⟩
  have which : poll = 0 ∨ poll = 1 ∨ poll = 2 ∨ poll = 3 := by omega
  simp only [appendChecked, succeed attempt .started, perform, checkCancelled_bind]
  rcases which with rfl | rfl | rfl | rfl
  · exact if_pos seen
  · simp [seen, bind, Except.bind]
  · simp [seen, bind, Except.bind]
  · simp [seen, bind, Except.bind]

theorem append_started_unseen (succeed : execution.AppendsSucceed)
    (unseen : ¬∃ poll < 4, execution.cancelled attempt (.starting poll)) :
    appendChecked execution.path (fun poll => execution.cancelled attempt (.starting poll))
        (execution.fault attempt .started) journal (execution.entry attempt .started) =
      .ok (journal ++ [execution.entry attempt .started]) := by
  have clear : ∀ poll < 4, execution.cancelled attempt (.starting poll) = false := by
    intro poll small
    simpa using fun seen => unseen ⟨poll, small, seen⟩
  simp only [appendChecked, succeed attempt .started, perform, checkCancelled,
    clear 0 (by omega), clear 1 (by omega), clear 2 (by omega), clear 3 (by omega)]
  rfl

theorem attemptsFrom_seen {left : Nat} {final : TaskStatus} (succeed : execution.AppendsSucceed)
    (seen : execution.SeenBeforeStart attempt) :
    execution.attemptsFrom policy attempt final journal (left + 1) = (.cancelled, journal) := by
  unfold attemptsFrom
  split
  case isTrue _ => rfl
  case isFalse unseen =>
    have starting : ∃ poll < 4, execution.cancelled attempt (.starting poll) := by
      rcases seen with head | starting
      · exact absurd head unseen
      · exact starting
    simp only [append_started_seen succeed starting]

/-- An attempt that is started either ends the run, with the journal that says so, or is
retried. -/
theorem attemptsFrom_started (policy : RetryPolicy) (journal : List JournalEntry)
    (final : TaskStatus) (left : Nat) (succeed : execution.AppendsSucceed)
    (unseen : ¬execution.SeenBeforeStart attempt) :
    (∃ before status, execution.attemptsFrom policy attempt final journal (left + 1) =
        (status, before ++ [execution.entry attempt status]) ∧
      (status = .completed ∨ status = .cancelled ∨ ∃ message, status = .failed message ∧
        before = journal ++ [execution.entry attempt .started] ∧
        ¬(policy.retryDecision attempt message).retryable) ∧
      ¬execution.Retried policy attempt) ∨
    (execution.Retried policy attempt ∧
      ∃ message, (policy.retryDecision attempt message).retryable ∧
        execution.attemptsFrom policy attempt final journal (left + 1) =
          execution.attemptsFrom policy (attempt + 1) (.failed message)
            (journal ++ [execution.entry attempt .started] ++
              [execution.entry attempt (.failed message)]) left) := by
  have head : execution.cancelled attempt .head = false := by
    simpa using fun seen => unseen (.inl seen)
  have starting : ¬∃ poll < 4, execution.cancelled attempt (.starting poll) :=
    fun seen => unseen (.inr seen)
  rw [attemptsFrom]
  simp only [head, Bool.false_eq_true, if_false, append_started_unseen succeed starting,
    append_ok succeed, cancelAttempt_ok succeed]
  cases ended : execution.workStatus attempt with
  | started =>
      exfalso
      unfold workStatus at ended
      split at ended <;> simp at ended
  | completed =>
      exact .inl ⟨_, .completed, rfl, .inl rfl, fun ⟨_, _, message, failed, _⟩ => by
        simp [ended] at failed⟩
  | cancelled =>
      exact .inl ⟨_, .cancelled, rfl, .inr (.inl rfl), fun ⟨_, _, message, failed, _⟩ => by
        simp [ended] at failed⟩
  | failed message =>
      dsimp only
      split
      case isTrue seen =>
        exact .inl ⟨_, .cancelled, rfl, .inr (.inl rfl), fun ⟨_, clear, _⟩ => clear seen⟩
      case isFalse clear =>
        split
        case isTrue final =>
          refine .inl ⟨_, .failed message, rfl, .inr (.inr ⟨message, rfl, rfl, final⟩), ?_⟩
          rintro ⟨_, _, other, failed, retryable, _⟩
          rw [ended, TaskStatus.failed.injEq] at failed
          exact final (failed ▸ retryable)
        case isFalse retried =>
          have retryable : (policy.retryDecision attempt message).retryable := by
            simpa using retried
          split
          case isTrue interrupted =>
            refine .inl ⟨_, .cancelled, rfl, .inr (.inl rfl), ?_⟩
            rintro ⟨_, _, other, failed, _, slept⟩
            rw [ended, TaskStatus.failed.injEq] at failed
            exact interrupted.2.2 (failed ▸ slept)
          case isFalse uninterrupted =>
            refine .inr ⟨⟨unseen, clear, message, ended, retryable, ?_⟩, message, retryable, rfl⟩
            by_contra interrupted
            exact uninterrupted ⟨nextDelay_pos retryable, lt_of_retryable retryable, interrupted⟩

/-- The two entries of an attempt leave the attempts of the job known as they were, for a policy
that allows more. -/
theorem attempts_le_attemptsOf_append {first second : TaskStatus}
    (more : attempt < policy.attempts) :
    policy.attempts ≤ attemptsOf (journal ++ [execution.entry attempt first] ++
        [execution.entry attempt second]) execution.jobId ↔
      policy.attempts ≤ attemptsOf journal execution.jobId := by
  have small : attempt < 2 ^ 64 := more.trans attempts_lt
  rw [attemptsOf_append jobId_entry, attemptsOf_append jobId_entry, attempt_entry small,
    attempt_entry small]
  omega

theorem not_listed_retried {message : String}
    (retryable : (policy.retryDecision attempt message).retryable) :
    ¬Listed policy (journal ++ [execution.entry attempt .started] ++
        [execution.entry attempt (.failed message)]) execution.jobId ↔
      policy.attempts ≤ attemptsOf journal execution.jobId := by
  have more := lt_of_retryable retryable
  have small : attempt < 2 ^ 64 := more.trans attempts_lt
  simp only [RetryPolicy.retryDecision, Bool.and_eq_true] at retryable
  rw [listed_append_failed jobId_entry rfl, attemptsOf_append jobId_entry, attempt_entry small,
    attempt_entry small]
  simp only [retryable.1, true_and]
  omega

theorem not_listed_final {message : String} (small : attempt < 2 ^ 64)
    (final : ¬(policy.retryDecision attempt message).retryable) :
    ¬Listed policy (journal ++ [execution.entry attempt (.failed message)]) execution.jobId := by
  rw [listed_append_failed jobId_entry rfl, attempt_entry small]
  rintro ⟨retryable, more⟩
  apply final
  simp only [RetryPolicy.retryDecision, retryable, Bool.true_and, decide_eq_true_eq]
  omega

/-- What has to hold of the attempts from `attempt` on. -/
def SparedFrom (execution : Execution) (policy : RetryPolicy) (attempt : Nat)
    (journal : List JournalEntry) : Prop :=
  ∀ later, attempt ≤ later → later ≤ policy.attempts →
    (∀ earlier, attempt ≤ earlier → earlier < later → execution.Retried policy earlier) →
    execution.SeenBeforeStart later →
    if later = attempt then ¬Listed policy journal execution.jobId
    else policy.attempts ≤ attemptsOf journal execution.jobId

theorem sparedFrom_seen (seen : execution.SeenBeforeStart attempt)
    (allowed : attempt ≤ policy.attempts) :
    SparedFrom execution policy attempt journal ↔ ¬Listed policy journal execution.jobId := by
  constructor
  · intro spared
    have here := spared attempt (Nat.le_refl attempt) allowed (by intro _ _ _; omega) seen
    simpa using here
  · intro unlisted later reached _ retried _
    split
    case isTrue _ => exact unlisted
    case isFalse differs =>
      exact absurd seen (retried attempt (Nat.le_refl attempt) (by omega)).1

theorem sparedFrom_ended (unseen : ¬execution.SeenBeforeStart attempt)
    (ended : ¬execution.Retried policy attempt) :
    SparedFrom execution policy attempt journal := by
  intro later reached _ retried seen
  split
  case isTrue same => exact absurd (same ▸ seen) unseen
  case isFalse differs =>
    exact absurd (retried attempt (Nat.le_refl attempt) (by omega)) ended

theorem sparedFrom_retried {message : String} (retried : execution.Retried policy attempt)
    (retryable : (policy.retryDecision attempt message).retryable) :
    SparedFrom execution policy attempt journal ↔
      SparedFrom execution policy (attempt + 1) (journal ++ [execution.entry attempt .started] ++
        [execution.entry attempt (.failed message)]) := by
  have more := lt_of_retryable retryable
  constructor
  · intro spared later reached allowed others seen
    have here := spared later (by omega) allowed (by
      intro earlier from_ before
      rcases Nat.eq_or_lt_of_le from_ with same | after
      · exact same ▸ retried
      · exact others earlier after before) seen
    rw [if_neg (by omega)] at here
    rw [not_listed_retried retryable, attempts_le_attemptsOf_append more, ite_self]
    exact here
  · intro spared later reached allowed others seen
    split
    case isTrue same => exact absurd (same ▸ seen) retried.1
    case isFalse differs =>
      have here := spared later (by omega) allowed (by
        intro earlier from_ before
        exact others earlier (by omega) before) seen
      rw [not_listed_retried retryable, attempts_le_attemptsOf_append more, ite_self] at here
      exact here

/-- One attempt, given what the attempts after it leave. -/
theorem attemptsFrom_step (succeed : execution.AppendsSucceed) {left : Nat} {final : TaskStatus}
    (allowed : attempt ≤ policy.attempts)
    (next : ∀ final journal, attempt < policy.attempts →
      Final (execution.attemptsFrom policy (attempt + 1) final journal left).1 ∧
      (¬Listed policy (execution.attemptsFrom policy (attempt + 1) final journal left).2
        execution.jobId ↔ SparedFrom execution policy (attempt + 1) journal)) :
    Final (execution.attemptsFrom policy attempt final journal (left + 1)).1 ∧
    (¬Listed policy (execution.attemptsFrom policy attempt final journal (left + 1)).2
        execution.jobId ↔ SparedFrom execution policy attempt journal) := by
  have small : attempt < 2 ^ 64 := allowed.trans_lt attempts_lt
  by_cases seen : execution.SeenBeforeStart attempt
  · rw [attemptsFrom_seen succeed seen, sparedFrom_seen seen allowed]
    exact ⟨.inl rfl, Iff.rfl⟩
  · rcases attemptsFrom_started policy journal final left succeed seen with
      ⟨before, status, result, exit, ended⟩ | ⟨retried, message, retryable, result⟩
    · rw [result]
      have spared : SparedFrom execution policy attempt journal := sparedFrom_ended seen ended
      rcases exit with rfl | rfl | ⟨message, rfl, _, last⟩
      · exact ⟨.inr (.inl rfl), iff_of_true (not_listed_append jobId_entry (.inl rfl)) spared⟩
      · exact ⟨.inl rfl, iff_of_true (not_listed_append jobId_entry (.inr rfl)) spared⟩
      · exact ⟨.inr (.inr ⟨message, rfl⟩), iff_of_true (not_listed_final small last) spared⟩
    · rw [result, sparedFrom_retried retried retryable]
      exact next _ _ (lt_of_retryable retryable)

/-- The attempts from `attempt` on leave nothing exactly when each of them spares the journal. -/
theorem attemptsFrom_spared (succeed : execution.AppendsSucceed) {left : Nat}
    (final : TaskStatus) (total : attempt + left = policy.attempts) :
    Final (execution.attemptsFrom policy attempt final journal (left + 1)).1 ∧
    (¬Listed policy (execution.attemptsFrom policy attempt final journal (left + 1)).2
        execution.jobId ↔ SparedFrom execution policy attempt journal) := by
  induction left generalizing attempt final journal with
  | zero =>
      apply attemptsFrom_step succeed (by omega)
      intro _ _ more
      omega
  | succ left ih =>
      apply attemptsFrom_step succeed (by omega)
      intro _ _ _
      exact ih _ (by omega)

end Steps

/-- A retriable task leaves nothing to recover exactly when the cancellation that is seen before
the start of an attempt finds a journal that lists nothing of the job. -/
theorem leavesNothing_iff (succeed : execution.AppendsSucceed) (journal : List JournalEntry) :
    execution.LeavesNothing policy journal ↔ execution.Spared policy journal := by
  have positive : 1 ≤ policy.attempts := Nat.le_max_right _ _
  have total : 1 + (policy.attempts - 1) = policy.attempts := Nat.add_sub_of_le positive
  have run : Final (execution.attemptsFrom policy 1 (.failed "task did not run") journal _).1 ∧
      (¬Listed policy _ execution.jobId ↔ SparedFrom execution policy 1 journal) :=
    attemptsFrom_spared succeed (.failed "task did not run") total
  rw [Nat.sub_add_cancel positive] at run
  constructor
  · intro leaves
    exact run.2.mp (leaves run.1)
  · intro spared _
    exact run.2.mpr spared

end Execution

section Cancelled

/-- A task whose work always times out; its token flips after the back-off of the first
attempt. -/
def timingOut (cancelledFrom : Nat) : Execution where
  id := 7
  label := []
  path := ["journal"]
  cancelled := fun attempt _ => decide (cancelledFrom ≤ attempt)
  fault := fun _ _ _ => none
  work := fun _ => .error (.format "timed out")

theorem sleep_uncancelled (poll remaining : Nat) :
    sleepRetryBackoffCancellable (fun _ => false) poll remaining = true := by
  fun_induction sleepRetryBackoffCancellable with
  | case1 => rfl
  | case2 _ _ _ seen => exact absurd seen Bool.false_ne_true
  | case3 _ _ _ _ ih => exact ih

theorem timingOut_unseen {cancelledFrom attempt : Nat} (early : attempt < cancelledFrom) :
    ¬(timingOut cancelledFrom).SeenBeforeStart attempt := by
  rintro (seen | ⟨_, _, seen⟩)
  · simp [timingOut] at seen
    omega
  · simp [timingOut] at seen
    omega

/-- A run whose token flips after its last attempt leaves nothing. -/
theorem leavesNothing_timingOut : (timingOut 3).LeavesNothing ⟨2⟩ [] := by
  refine ((timingOut 3).leavesNothing_iff ⟨2⟩ (fun _ _ _ => rfl) []).mpr ?_
  intro attempt _ allowed _ seen
  exact absurd seen (timingOut_unseen (Nat.lt_succ_of_le allowed))

/-- The token flips after the back-off: the task is cancelled, and recovery lists it for its
failure. -/
theorem cancelled_listed : ∃ execution : Execution, ∃ policy : RetryPolicy,
    execution.AppendsSucceed ∧
      (∀ attempt poll, execution.cancelled attempt poll = decide (2 ≤ attempt)) ∧
      (execution.executeRetriableTask policy []).1 = .cancelled ∧
      Listed policy (execution.executeRetriableTask policy []).2 execution.jobId := by
  have retryable : ((⟨2⟩ : RetryPolicy).retryDecision 1 "timed out").retryable := by
    decide +kernel
  have unseen : ¬(timingOut 2).SeenBeforeStart 1 := timingOut_unseen (by omega)
  have retried : (timingOut 2).Retried ⟨2⟩ 1 :=
    ⟨unseen, Bool.false_ne_true, "timed out", rfl, retryable, sleep_uncancelled _ _⟩
  have succeed : (timingOut 2).AppendsSucceed := fun _ _ _ => rfl
  refine ⟨timingOut 2, ⟨2⟩, succeed, fun _ _ => rfl, ?_⟩
  rcases Execution.attemptsFrom_started ⟨2⟩ [] (.failed "task did not run") 1 succeed unseen with
    ⟨_, _, _, _, ended⟩ | ⟨_, message, decided, result⟩
  · exact absurd retried ended
  · have seen : (timingOut 2).SeenBeforeStart 2 := .inl rfl
    rw [Execution.attemptsFrom_seen succeed seen] at result
    have run : (timingOut 2).executeRetriableTask ⟨2⟩ [] = _ := result
    rw [run]
    refine ⟨rfl, ?_⟩
    by_contra unlisted
    exact absurd ((Execution.not_listed_retried decided).mp unlisted) (by decide)

end Cancelled

end Gfm.Jobs

import Gfm.Jobs.Scheduler

/-!
# Fair drains

A fair drain runs in two parts. Until it commits it only looks: it pops a copy
of the heap, sorts the jobs and plans them, and the control is the only thing
that can stop it. The commit empties the queue and pushes the blocked jobs
back, consulting the control before each of them. An interruption in the first
part leaves the scheduler alone; an interruption in the second one loses every
blocked job that has not been pushed back yet.
-/

namespace Gfm.Jobs

open Interruptible List

section Stage

variable {control : Control GfmError} {σ : Type}

/-- The staging of an uninterrupted drain. -/
def stageLoop (completed : Finset JobId) : List Job → StagedReadyDrain → StagedReadyDrain
  | [], staged => staged
  | job :: jobs, staged =>
      if job.id ∈ completed then stageLoop completed jobs staged
      else if job.id ∈ staged.cancelled then
        stageLoop completed jobs
          { staged with
            cancelled := staged.cancelled.erase job.id,
            cancelledJobs := staged.cancelledJobs ++ [job] }
      else stageLoop completed jobs { staged with ready := staged.ready ++ [job] }

def stageLoopChecks (completed : Finset JobId) : List Job → Finset JobId → Nat
  | [], _ => 0
  | job :: jobs, cancelled =>
      if job.id ∈ completed then 1 + stageLoopChecks completed jobs cancelled
      else if job.id ∈ cancelled then
        1 + stageLoopChecks completed jobs (cancelled.erase job.id)
      else 2 + stageLoopChecks completed jobs cancelled

theorem stageLoopChecked_steady (completed : Finset JobId) (jobs : List Job)
    (staged : StagedReadyDrain) :
    Steady control (stageLoopChecked (σ := σ) control completed jobs staged)
      (stageLoopChecks completed jobs staged.cancelled) (stageLoop completed jobs staged) := by
  induction jobs generalizing staged with
  | nil => exact Steady.pure staged
  | cons job jobs ih =>
      unfold stageLoopChecked stageLoopChecks stageLoop
      by_cases done : job.id ∈ completed
      · simp only [done, if_true]
        exact Steady.check_bind (ih staged)
      · by_cases dropped : job.id ∈ staged.cancelled
        · simp only [done, dropped, if_true, if_false]
          exact Steady.check_bind (ih _)
        · simp only [done, dropped, if_false]
          refine Steady.congr (Steady.check_bind (Steady.check_bind (ih _))) ?_ rfl
          simp only
          omega

def stageReadyDrain (scheduler : Scheduler) : StagedReadyDrain :=
  stageLoop scheduler.completed (popOrder scheduler.queue) ⟨[], scheduler.cancelled, []⟩

def stageChecks (scheduler : Scheduler) : Nat :=
  stageLoopChecks scheduler.completed (popOrder scheduler.queue) scheduler.cancelled + 2

theorem stageReadyDrainChecked_steady (scheduler : Scheduler) :
    Steady control (stageReadyDrainChecked (σ := σ) control scheduler) (stageChecks scheduler)
      (stageReadyDrain scheduler) := by
  unfold stageReadyDrainChecked
  refine Steady.congr (Steady.check_bind ((stageLoopChecked_steady _ _ _).bind
    (Steady.check_bind (Steady.pure _)))) ?_ rfl
  simp only [stageChecks]
  omega

end Stage

section Commit

variable (control : Control GfmError) (policy : JobFairnessPolicy) (completed : List JobId)

/-- The number of checks that a fair drain makes before it empties the queue. -/
def commitChecks (scheduler : Scheduler) : Nat :=
  stageChecks scheduler + 1 +
    (drainPlanner scheduler policy completed).planChecks (stageReadyDrain scheduler).ready + 1

def drainPlan (scheduler : Scheduler) : JobFairnessPlan :=
  (drainPlanner scheduler policy completed).plan (stageReadyDrain scheduler).ready

/-- The jobs that a fair drain pushes back, in the order in which it does. -/
def requeued (scheduler : Scheduler) : List Job :=
  (stageReadyDrain scheduler).ready.filter
    (·.id ∈ ((drainPlan policy completed scheduler).blocked.map BlockedJob.id).toFinset)

/-- The scheduler after the commit, before anything is pushed back. -/
def committed (scheduler : Scheduler) : Scheduler :=
  { scheduler with
    queue := [],
    cancelled := (stageReadyDrain scheduler).cancelled,
    completed := scheduler.completed.filter (· ∉ (stageReadyDrain scheduler).cancelled),
    failed := scheduler.failed.filter (· ∉ (stageReadyDrain scheduler).cancelled) }

def World.commit (world : World) : World :=
  { world.cancelJobs (stageReadyDrain world.scheduler).cancelledJobs with
    scheduler := committed world.scheduler }

def World.enqueue (world : World) (jobs : List Job) : World :=
  { world with scheduler := { world.scheduler with queue := world.scheduler.queue ++ jobs } }

variable {control}

theorem requeueChecked_eq (jobs : List Job) (start : Clocked World) :
    requeueChecked control jobs start =
      match firstInterrupt control start.checks jobs.length with
      | none => .ok ⟨⟩ ⟨start.state.enqueue jobs, start.checks + jobs.length⟩
      | some (index, error) =>
          .error error ⟨start.state.enqueue (jobs.take index), start.checks + index + 1⟩ := by
  induction jobs generalizing start with
  | nil => simp [requeueChecked, firstInterrupt, World.enqueue, pure, EStateM.pure]
  | cons job jobs ih =>
      simp only [requeueChecked, bind, EStateM.bind, check, length_cons, firstInterrupt]
      cases control start.checks with
      | some error => simp [World.enqueue, Clocked.advance]
      | none =>
          simp only [modifyScheduler, ih, Clocked.checks_advance]
          cases firstInterrupt control (start.checks + 1) jobs.length with
          | none =>
              simp only [Option.map_none, World.enqueue, Clocked.advance, append_assoc,
                singleton_append, EStateM.Result.ok.injEq, Clocked.mk.injEq, true_and]
              omega
          | some found =>
              simp only [Option.map_some, World.enqueue, Clocked.advance, append_assoc,
                singleton_append, take_succ_cons, EStateM.Result.error.injEq,
                Clocked.mk.injEq, true_and]
              omega

/-- What a fair drain does, by the place of the first check that fails. -/
theorem drainFairReadyChecked_eq (start : Clocked World) :
    drainFairReadyChecked control policy completed start =
      match firstInterrupt control start.checks
        (commitChecks policy completed start.state.scheduler) with
      | some (index, error) => .error error (start.advance (index + 1))
      | none =>
          match requeueChecked control (requeued policy completed start.state.scheduler)
            ⟨start.state.commit,
              start.checks + commitChecks policy completed start.state.scheduler⟩ with
          | .error error finish => .error error finish
          | .ok _ finish =>
              .ok (drainPlan policy completed start.state.scheduler)
                { finish with state := { finish.state with
                  scheduler := finish.state.scheduler.pruneCompletedLedger } } := by
  have look : Steady control
      (do
        let staged ← stageReadyDrainChecked (σ := World) control start.state.scheduler
        check control
        let plan ← (drainPlanner start.state.scheduler policy completed).planChecked control
          staged.ready
        check control
        pure (staged, plan))
      (commitChecks policy completed start.state.scheduler)
      (stageReadyDrain start.state.scheduler,
        drainPlan policy completed start.state.scheduler) := by
    refine Steady.congr ((stageReadyDrainChecked_steady _).bind (Steady.check_bind
      ((JobFairnessPlanner.planChecked_steady _ _).bind
        (Steady.check_bind (Steady.pure _))))) ?_ rfl
    simp only [commitChecks]
    omega
  have split : drainFairReadyChecked control policy completed start =
      ((do
        let staged ← stageReadyDrainChecked (σ := World) control start.state.scheduler
        check control
        let plan ← (drainPlanner start.state.scheduler policy completed).planChecked control
          staged.ready
        check control
        pure (staged, plan)) >>= fun (staged, plan) => do
          cancelTokens staged.cancelledJobs
          modifyScheduler fun scheduler =>
            { scheduler with
              queue := [],
              cancelled := staged.cancelled,
              completed := scheduler.completed.filter (· ∉ staged.cancelled),
              failed := scheduler.failed.filter (· ∉ staged.cancelled) }
          requeueChecked control
            (staged.ready.filter (·.id ∈ (plan.blocked.map BlockedJob.id).toFinset))
          modifyScheduler Scheduler.pruneCompletedLedger
          pure plan) start := by
    simp only [bind_assoc, pure_bind]
    rfl
  rw [split, look.bind_apply]
  cases firstInterrupt control start.checks
      (commitChecks policy completed start.state.scheduler) with
  | some found => rfl
  | none =>
      simp only [bind, EStateM.bind, cancelTokens, modifyScheduler, pure, EStateM.pure,
        requeueChecked_eq, requeued, Clocked.checks_advance]
      generalize firstInterrupt control _ _ = stop
      rcases stop with _ | ⟨index, error⟩ <;> rfl

end Commit

section Atomicity

variable {control : Control GfmError} {policy : JobFairnessPolicy} {completed : List JobId}

theorem stageLoop_ready (ledger : Finset JobId) (jobs : List Job) (staged : StagedReadyDrain) :
    ∃ live, live.Sublist jobs ∧ (stageLoop ledger jobs staged).ready = staged.ready ++ live := by
  induction jobs generalizing staged with
  | nil => exact ⟨[], List.Sublist.slnil, (append_nil _).symm⟩
  | cons job jobs ih =>
      unfold stageLoop
      split
      · obtain ⟨live, sublist, same⟩ := ih staged
        exact ⟨live, sublist.cons job, same⟩
      · split
        · obtain ⟨live, sublist, same⟩ := ih { staged with
            cancelled := staged.cancelled.erase job.id,
            cancelledJobs := staged.cancelledJobs ++ [job] }
          exact ⟨live, sublist.cons job, same⟩
        · obtain ⟨live, sublist, same⟩ := ih { staged with ready := staged.ready ++ [job] }
          refine ⟨job :: live, sublist.cons_cons job, ?_⟩
          rw [same, append_assoc, singleton_append]

theorem stageReadyDrain_ready_sublist (scheduler : Scheduler) :
    (stageReadyDrain scheduler).ready.Sublist (popOrder scheduler.queue) := by
  obtain ⟨live, sublist, same⟩ := stageLoop_ready scheduler.completed
    (popOrder scheduler.queue) ⟨[], scheduler.cancelled, []⟩
  rw [stageReadyDrain, same]
  exact sublist

theorem requeued_length_le (policy : JobFairnessPolicy) (completed : List JobId)
    (scheduler : Scheduler) :
    (requeued policy completed scheduler).length ≤ scheduler.queue.length := by
  calc (requeued policy completed scheduler).length
      ≤ (stageReadyDrain scheduler).ready.length := length_filter_le _ _
    _ ≤ (popOrder scheduler.queue).length := (stageReadyDrain_ready_sublist scheduler).length_le
    _ = scheduler.queue.length := (popOrder_perm scheduler.queue).length_eq

/-- The queue, as a heap of jobs, and every ledger are as they were. -/
structure Scheduler.Kept (before after : Scheduler) : Prop where
  queue : after.queue.Perm before.queue
  cancelled : after.cancelled = before.cancelled
  completed : after.completed = before.completed
  completedOrder : after.completedOrder = before.completedOrder
  failed : after.failed = before.failed
  failedOrder : after.failedOrder = before.failedOrder

theorem Scheduler.Kept.refl (scheduler : Scheduler) : scheduler.Kept scheduler :=
  ⟨List.Perm.refl _, rfl, rfl, rfl, rfl, rfl⟩

def DrainAtomicOnError (control : Control GfmError) (policy : JobFairnessPolicy)
    (completed : List JobId) (start : Clocked World) : Prop :=
  ∀ error finish, drainFairReadyChecked control policy completed start = .error error finish →
    start.state.scheduler.Kept finish.state.scheduler

/--
The first check that fails is one of those made while the blocked jobs are
being pushed back into the queue.
-/
def InterruptedWhileRequeuing (control : Control GfmError) (policy : JobFairnessPolicy)
    (completed : List JobId) (start : Clocked World) : Prop :=
  ∃ index error,
    firstInterrupt control start.checks
        (commitChecks policy completed start.state.scheduler +
          (requeued policy completed start.state.scheduler).length) = some (index, error) ∧
      commitChecks policy completed start.state.scheduler ≤ index

theorem interruptedWhileRequeuing_iff {start : Clocked World} :
    InterruptedWhileRequeuing control policy completed start ↔
      firstInterrupt control start.checks
          (commitChecks policy completed start.state.scheduler) = none ∧
        ∃ index error, firstInterrupt control
          (start.checks + commitChecks policy completed start.state.scheduler)
          (requeued policy completed start.state.scheduler).length = some (index, error) := by
  simp only [InterruptedWhileRequeuing, firstInterrupt_add]
  cases staging : firstInterrupt control start.checks
      (commitChecks policy completed start.state.scheduler) with
  | some found =>
      obtain ⟨index, error⟩ := found
      have early := firstInterrupt_lt staging
      simp only [Option.some.injEq, Prod.mk.injEq, reduceCtorEq, false_and, iff_false]
      rintro ⟨later, stopped, ⟨rfl, rfl⟩, late⟩
      omega
  | none =>
      simp only [Option.map_eq_some_iff, Prod.mk.injEq, Prod.exists, true_and]
      constructor
      · rintro ⟨index, error, ⟨later, stopped, found, rfl, rfl⟩, -⟩
        exact ⟨later, stopped, found⟩
      · rintro ⟨later, stopped, found⟩
        exact ⟨_, stopped, ⟨later, stopped, found, rfl, rfl⟩, Nat.le_add_right _ _⟩

/--
A fair drain that fails leaves the scheduler as it was, unless it is stopped
while it pushes the blocked jobs back: then it has lost some of them.
-/
theorem drainFairReady_atomic_iff (control : Control GfmError) (policy : JobFairnessPolicy)
    (completed : List JobId) (start : Clocked World) :
    DrainAtomicOnError control policy completed start ↔
      ¬InterruptedWhileRequeuing control policy completed start := by
  rw [interruptedWhileRequeuing_iff]
  simp only [DrainAtomicOnError, drainFairReadyChecked_eq, requeueChecked_eq]
  cases staging : firstInterrupt control start.checks
      (commitChecks policy completed start.state.scheduler) with
  | some found =>
      simp only [reduceCtorEq, false_and, not_false_eq_true, iff_true]
      rintro error finish ⟨⟩
      exact Scheduler.Kept.refl _
  | none =>
      cases pushing : firstInterrupt control
          (start.checks + commitChecks policy completed start.state.scheduler)
          (requeued policy completed start.state.scheduler).length with
      | none => simp
      | some found =>
          obtain ⟨index, error⟩ := found
          simp only [Option.some.injEq, Prod.mk.injEq, true_and, not_exists, not_and]
          constructor
          · intro atomic
            -- only the jobs before the failing check are back in the queue
            have lost := (atomic error _ rfl).queue.length_eq
            have early := firstInterrupt_lt pushing
            have few := requeued_length_le policy completed start.state.scheduler
            simp only [World.enqueue, World.commit, committed, nil_append,
              length_take] at lost
            omega
          · intro absent
            exact absurd rfl (absent index error rfl)

/-- A fresh scheduler with one job, whose dependency is not completed. -/
def blockedOnly : World :=
  (World.new.scheduleWithOptions .normal .background none "thumbnails" none [⟨99⟩]).2

def cancelAt (index : Nat) : Control GfmError := fun check =>
  if check = index then some .cancelled else none

theorem drainFairReady_loses_blocked :
    ¬DrainAtomicOnError (cancelAt 21) JobFairnessPolicy.new [] ⟨blockedOnly, 0⟩ := by
  intro atomic
  have kept := atomic .cancelled _ rfl
  exact absurd kept.queue.length_eq (by decide)

end Atomicity

end Gfm.Jobs

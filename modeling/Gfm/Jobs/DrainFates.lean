import Gfm.Jobs.Drain

/-!
# What becomes of the queued jobs

When the queued ids are distinct, the staging of a drain is a partition: a job
whose id is completed is dropped, one whose id is cancelled has its token
cancelled and uses up the cancellation, and the others are planned. The plan
splits these into the ready jobs, which are returned, and the blocked ones,
which go back into the queue. A fair drain that returns gives every queued job
exactly one of these four fates.
-/

namespace Gfm.Jobs

open Interruptible JobFairnessPlanner List

section Partition

def QueueDistinct (scheduler : Scheduler) : Prop := (scheduler.queue.map Job.id).Nodup

def Live (scheduler : Scheduler) (job : Job) : Prop :=
  job.id ∉ scheduler.completed ∧ job.id ∉ scheduler.cancelled

instance (scheduler : Scheduler) : DecidablePred (Live scheduler) :=
  fun job => inferInstanceAs (Decidable (job.id ∉ scheduler.completed ∧ _))

def Dropped (scheduler : Scheduler) (job : Job) : Prop :=
  job.id ∉ scheduler.completed ∧ job.id ∈ scheduler.cancelled

instance (scheduler : Scheduler) : DecidablePred (Dropped scheduler) :=
  fun job => inferInstanceAs (Decidable (job.id ∉ scheduler.completed ∧ _))

/--
The staging of distinct jobs, given a current cancelled set that agrees with
`cancelled` on all of them.
-/
theorem stageLoop_of_nodup {ledger cancelled : Finset JobId} {jobs : List Job}
    (distinct : (jobs.map Job.id).Nodup) (staged : StagedReadyDrain)
    (agrees : ∀ job ∈ jobs, job.id ∈ staged.cancelled ↔ job.id ∈ cancelled) :
    stageLoop ledger jobs staged =
      { ready := staged.ready ++
          jobs.filter fun job => job.id ∉ ledger ∧ job.id ∉ cancelled,
        cancelled := staged.cancelled.filter fun id =>
          ∀ job ∈ jobs, job.id ∉ ledger → job.id ≠ id,
        cancelledJobs := staged.cancelledJobs ++
          jobs.filter fun job => job.id ∉ ledger ∧ job.id ∈ cancelled } := by
  induction jobs generalizing staged with
  | nil => simp [stageLoop]
  | cons job jobs ih =>
      rcases nodup_cons.mp distinct with ⟨fresh, distinct⟩
      have others : ∀ other ∈ jobs, other.id ≠ job.id := by
        intro other otherMem same
        exact fresh (same ▸ mem_map_of_mem otherMem)
      have here := agrees job mem_cons_self
      have later : ∀ other ∈ jobs, other.id ∈ staged.cancelled ↔ other.id ∈ cancelled :=
        fun other otherMem => agrees other (mem_cons_of_mem _ otherMem)
      unfold stageLoop
      by_cases done : job.id ∈ ledger
      · rw [if_pos done, ih distinct staged later]
        simp [done]
      · rw [if_neg done]
        by_cases cancelledHere : job.id ∈ cancelled
        · rw [if_pos (here.mpr cancelledHere), ih distinct]
          · simp only [done, cancelledHere, filter_cons, not_true_eq_false,
              not_false_eq_true, and_false, and_true, decide_false, decide_true,
              Bool.false_eq_true, if_true, if_false, append_assoc, singleton_append,
              StagedReadyDrain.mk.injEq, true_and]
            ext id
            simp only [Finset.mem_filter, Finset.mem_erase, forall_mem_cons,
              done, not_false_eq_true, true_imp_iff]
            tauto
          · intro other otherMem
            rw [← later other otherMem, Finset.mem_erase]
            exact and_iff_right (others other otherMem)
        · rw [if_neg (fun mem => cancelledHere (here.mp mem)), ih distinct]
          · simp only [done, cancelledHere, filter_cons, not_false_eq_true, and_false,
              and_true, decide_false, decide_true, Bool.false_eq_true, if_true, if_false,
              append_assoc, singleton_append, StagedReadyDrain.mk.injEq, true_and]
            ext id
            simp only [Finset.mem_filter, forall_mem_cons, done, not_false_eq_true,
              true_imp_iff]
            refine and_congr_right fun mem => (and_iff_right ?_).symm
            rintro rfl
            exact cancelledHere (here.mp mem)
          · exact later

variable {scheduler : Scheduler}

theorem QueueDistinct.popOrder_nodup (distinct : QueueDistinct scheduler) :
    ((popOrder scheduler.queue).map Job.id).Nodup :=
  ((popOrder_perm scheduler.queue).map Job.id).nodup_iff.mpr distinct

theorem QueueDistinct.stage (distinct : QueueDistinct scheduler) :
    stageReadyDrain scheduler =
      { ready := (popOrder scheduler.queue).filter fun job => Live scheduler job,
        cancelled := scheduler.cancelled.filter fun id =>
          ∀ job ∈ popOrder scheduler.queue, job.id ∉ scheduler.completed → job.id ≠ id,
        cancelledJobs :=
          (popOrder scheduler.queue).filter fun job => Dropped scheduler job } := by
  rw [stageReadyDrain, stageLoop_of_nodup distinct.popOrder_nodup _ fun job _ => Iff.rfl]
  rfl

end Partition

section Fates

variable {control : Control GfmError} {policy : JobFairnessPolicy} {completed : List JobId}
  {scheduler : Scheduler}

theorem drainFairReadyChecked_ok {start finish : Clocked World} {plan : JobFairnessPlan}
    (run : drainFairReadyChecked control policy completed start = .ok plan finish) :
    plan = drainPlan policy completed start.state.scheduler ∧
      finish.state = { start.state.commit.enqueue
          (requeued policy completed start.state.scheduler) with
        scheduler := (start.state.commit.enqueue
          (requeued policy completed start.state.scheduler)).scheduler.pruneCompletedLedger } := by
  rw [drainFairReadyChecked_eq] at run
  cases staging : firstInterrupt control start.checks
      (commitChecks policy completed start.state.scheduler) with
  | some found => simp [staging] at run
  | none =>
      simp only [staging, requeueChecked_eq] at run
      cases pushing : firstInterrupt control
          (start.checks + commitChecks policy completed start.state.scheduler)
          (requeued policy completed start.state.scheduler).length with
      | some found => simp [pushing] at run
      | none =>
          simp only [pushing, EStateM.Result.ok.injEq] at run
          rcases run with ⟨rfl, rfl⟩
          exact ⟨rfl, rfl⟩

theorem drainPlanner_completed (policy : JobFairnessPolicy) (completed : List JobId)
    (scheduler : Scheduler) :
    (drainPlanner scheduler policy completed).completed =
      scheduler.completed ∪ completed.toFinset := by
  simp [drainPlanner, withFailed, withCompleted,
    JobFairnessPlanner.new]

/-- A job whose dependencies are all completed, in the ledger or by the drain's argument. -/
def Satisfied (scheduler : Scheduler) (completed : List JobId) (job : Job) : Prop :=
  ∀ dependency ∈ job.dependencies, dependency ∈ scheduler.completed ∪ completed.toFinset

instance : DecidablePred (Satisfied scheduler completed) :=
  fun job => inferInstanceAs (Decidable (∀ dependency ∈ job.dependencies, _))

theorem drainPlanner_satisfied {job : Job} :
    dependenciesSatisfied job (drainPlanner scheduler policy completed).completed = true ↔
      Satisfied scheduler completed job := by
  rw [dependenciesSatisfied_iff, drainPlanner_completed]
  rfl

theorem QueueDistinct.mem_ready (distinct : QueueDistinct scheduler) {job : Job} :
    job ∈ (drainPlan policy completed scheduler).ready ↔
      job ∈ scheduler.queue ∧ Live scheduler job ∧ Satisfied scheduler completed job := by
  rw [drainPlan, (ready_plan_perm _ _).mem_iff, mem_filter,
    drainPlanner_satisfied, distinct.stage, mem_filter, mem_popOrder, decide_eq_true_eq,
    and_assoc]

theorem QueueDistinct.requeued_eq (distinct : QueueDistinct scheduler) :
    requeued policy completed scheduler =
      (popOrder scheduler.queue).filter fun job =>
        Live scheduler job ∧ ¬Satisfied scheduler completed job := by
  have blockedIds : ∀ job ∈ (stageReadyDrain scheduler).ready,
      job.id ∈ ((drainPlan policy completed scheduler).blocked.map BlockedJob.id).toFinset ↔
        ¬Satisfied scheduler completed job := by
    intro job jobMem
    simp only [drainPlan, JobFairnessPlanner.plan, map_map, mem_toFinset,
      mem_map, Function.comp_apply, blockedJob,
      blockedJobs, mem_filter, decide_eq_true_eq,
      drainPlanner_satisfied]
    constructor
    · rintro ⟨other, ⟨otherMem, blocked⟩, sameId⟩
      have same : other = job := inj_on_of_nodup_map
        (distinct.popOrder_nodup.sublist ((stageReadyDrain_ready_sublist scheduler).map Job.id))
        otherMem jobMem sameId
      exact same ▸ blocked
    · intro blocked
      exact ⟨job, ⟨jobMem, blocked⟩, rfl⟩
  calc requeued policy completed scheduler
      = (stageReadyDrain scheduler).ready.filter fun job =>
          ¬Satisfied scheduler completed job := by
        apply filter_congr
        intro job jobMem
        exact decide_eq_decide.mpr (blockedIds job jobMem)
    _ = (popOrder scheduler.queue).filter fun job =>
          Live scheduler job ∧ ¬Satisfied scheduler completed job := by
        rw [distinct.stage, filter_filter]
        apply filter_congr
        intro job _
        simp only [decide_not, Bool.decide_and]
        exact Bool.and_comm _ _

theorem QueueDistinct.ready_append_blocked_perm (distinct : QueueDistinct scheduler) :
    ((drainPlan policy completed scheduler).ready ++
      (popOrder scheduler.queue).filter fun job =>
        Live scheduler job ∧ ¬Satisfied scheduler completed job).Perm
      ((popOrder scheduler.queue).filter fun job => Live scheduler job) := by
  have ready : (drainPlan policy completed scheduler).ready.Perm
      (((popOrder scheduler.queue).filter fun job => Live scheduler job).filter fun job =>
        Satisfied scheduler completed job) := by
    refine (ready_plan_perm _ _).trans (List.Perm.of_eq ?_)
    rw [distinct.stage]
    apply filter_congr
    intro job _
    rw [Bool.eq_iff_iff, drainPlanner_satisfied, decide_eq_true_iff]
  have blocked : (popOrder scheduler.queue).filter (fun job =>
      Live scheduler job ∧ ¬Satisfied scheduler completed job) =
        ((popOrder scheduler.queue).filter fun job => Live scheduler job).filter fun job =>
          !decide (Satisfied scheduler completed job) := by
    rw [filter_filter]
    apply filter_congr
    intro job _
    simp only [decide_not, Bool.decide_and]
    exact Bool.and_comm _ _
  rw [blocked]
  exact (ready.append_right _).trans (filter_append_perm _ _)

/-- What a fair drain can do with a queued job. -/
inductive Fate where
  | returned
  | blocked
  | cancelled
  | dropped

def Fate.Holds (before after : World) (completed : List JobId) (plan : JobFairnessPlan)
    (job : Job) : Fate → Prop
  | .returned => job ∈ plan.ready
  | .blocked => job ∈ after.scheduler.queue ∧ ¬Satisfied before.scheduler completed job
  | .cancelled =>
      job.id ∈ before.scheduler.cancelled ∧ job.id ∉ after.scheduler.cancelled ∧
        job.cancel ∈ after.cancelledTokens
  | .dropped => job.id ∈ before.scheduler.completed

structure DrainConserves (before after : World) (completed : List JobId)
    (plan : JobFairnessPlan) : Prop where
  fate : ∀ job ∈ before.scheduler.queue,
    ∃! fate : Fate, fate.Holds before after completed plan job
  source : ∀ job ∈ plan.ready ++ after.scheduler.queue, job ∈ before.scheduler.queue
  distinct : ((plan.ready ++ after.scheduler.queue).map Job.id).Nodup
  satisfied : ∀ job ∈ plan.ready, Satisfied before.scheduler completed job
  ordered : ∀ jobClass, (plan.ready.filter (·.jobClass = jobClass)).Pairwise Job.Precedes

/-- A fair drain that returns gives every queued job exactly one fate. -/
theorem drainFairReady_conserves {start finish : Clocked World} {plan : JobFairnessPlan}
    (distinct : QueueDistinct start.state.scheduler)
    (run : drainFairReadyChecked control policy completed start = .ok plan finish) :
    DrainConserves start.state finish.state completed plan := by
  rcases drainFairReadyChecked_ok run with ⟨rfl, after⟩
  have ready : ∀ job, job ∈ (drainPlan policy completed start.state.scheduler).ready ↔ _ :=
    fun job => distinct.mem_ready
  have queue : ∀ job, job ∈ finish.state.scheduler.queue ↔
      job ∈ start.state.scheduler.queue ∧ Live start.state.scheduler job ∧
        ¬Satisfied start.state.scheduler completed job := by
    intro job
    rw [after]
    simp [World.enqueue, World.commit, committed, Scheduler.pruneCompletedLedger,
      distinct.requeued_eq]
  have cancelled : ∀ id, id ∈ finish.state.scheduler.cancelled ↔
      id ∈ start.state.scheduler.cancelled ∧ ∀ job ∈ start.state.scheduler.queue,
        job.id ∉ start.state.scheduler.completed → job.id ≠ id := by
    intro id
    rw [after]
    simp [World.enqueue, World.commit, committed, Scheduler.pruneCompletedLedger, distinct.stage]
  have tokens : ∀ job ∈ start.state.scheduler.queue, Dropped start.state.scheduler job →
      job.cancel ∈ finish.state.cancelledTokens := by
    intro job jobMem dropped
    rw [after]
    simp only [World.enqueue, World.commit, World.cancelJobs, distinct.stage, Finset.mem_union,
      mem_toFinset, mem_map, mem_filter, mem_popOrder, decide_eq_true_eq]
    exact Or.inr ⟨job, ⟨jobMem, dropped⟩, rfl⟩
  have sources : ∀ job ∈ (drainPlan policy completed start.state.scheduler).ready ++
      finish.state.scheduler.queue, job ∈ start.state.scheduler.queue := by
    intro job jobMem
    rcases mem_append.mp jobMem with returned | blocked
    · exact ((ready job).mp returned).1
    · exact ((queue job).mp blocked).1
  have split : ((drainPlan policy completed start.state.scheduler).ready ++
      finish.state.scheduler.queue).Perm
        ((popOrder start.state.scheduler.queue).filter fun job =>
          Live start.state.scheduler job) := by
    have pushed : finish.state.scheduler.queue = requeued policy completed
        start.state.scheduler := by
      rw [after]
      simp [World.enqueue, World.commit, committed, Scheduler.pruneCompletedLedger]
    rw [pushed, distinct.requeued_eq]
    exact distinct.ready_append_blocked_perm
  refine ⟨?_, sources, ?_, ?_, ?_⟩
  · intro job jobMem
    by_cases done : job.id ∈ start.state.scheduler.completed
    · refine ⟨.dropped, done, ?_⟩
      intro other holds
      cases other with
      | returned => exact absurd done ((ready job).mp holds).2.1.1
      | blocked => exact absurd done ((queue job).mp holds.1).2.1.1
      | cancelled =>
          -- the cancellation of a completed id is not used up
          refine absurd ((cancelled job.id).mpr ⟨holds.1, ?_⟩) holds.2.1
          intro queued _ pending same
          exact pending (same ▸ done)
      | dropped => rfl
    · by_cases dropped : job.id ∈ start.state.scheduler.cancelled
      · refine ⟨.cancelled, ⟨dropped, ?_, tokens job jobMem ⟨done, dropped⟩⟩, ?_⟩
        · intro kept
          exact ((cancelled job.id).mp kept).2 job jobMem done rfl
        · intro other holds
          cases other with
          | returned => exact absurd dropped ((ready job).mp holds).2.1.2
          | blocked => exact absurd dropped ((queue job).mp holds.1).2.1.2
          | cancelled => rfl
          | dropped => exact absurd holds done
      · by_cases satisfied : Satisfied start.state.scheduler completed job
        · refine ⟨.returned, (ready job).mpr ⟨jobMem, ⟨done, dropped⟩, satisfied⟩, ?_⟩
          intro other holds
          cases other with
          | returned => rfl
          | blocked => exact absurd satisfied holds.2
          | cancelled => exact absurd holds.1 dropped
          | dropped => exact absurd holds done
        · refine ⟨.blocked, ⟨(queue job).mpr ⟨jobMem, ⟨done, dropped⟩, satisfied⟩, satisfied⟩, ?_⟩
          intro other holds
          cases other with
          | returned => exact absurd ((ready job).mp holds).2.2 satisfied
          | blocked => rfl
          | cancelled => exact absurd holds.1 dropped
          | dropped => exact absurd holds done
  · exact (split.map Job.id).nodup_iff.mpr
      (distinct.popOrder_nodup.sublist (filter_sublist.map Job.id))
  · intro job returned
    exact ((ready job).mp returned).2.2
  · intro jobClass
    rw [drainPlan, filter_ready_plan]
    exact (popOrder_pairwise _).sublist
      (filter_sublist.trans (stageReadyDrain_ready_sublist _))

/-- Four background jobs, one for each fate: the first depends on the fourth. -/
def fourFates : World :=
  let schedule := fun (world : World) (label : String) (dependencies : List JobId) =>
    (world.scheduleWithOptions .normal .background none label none dependencies).2
  let queued := schedule (schedule (schedule (schedule World.new "blocked" [⟨4⟩])
    "dropped" []) "cancelled" []) "returned" []
  { queued with scheduler := queued.scheduler.insertCompleted ⟨2⟩ }.cancel ⟨3⟩

theorem drainFairReady_conserves_fourFates :
    ∃ plan finish,
      drainFairReadyChecked (fun _ => none) JobFairnessPolicy.new [] ⟨fourFates, 0⟩ =
          .ok plan finish ∧
        DrainConserves fourFates finish.state [] plan := by
  have distinct : QueueDistinct fourFates.scheduler := by
    unfold QueueDistinct
    decide
  have run : ∃ plan finish,
      drainFairReadyChecked (fun _ => none) JobFairnessPolicy.new [] ⟨fourFates, 0⟩ =
        .ok plan finish := ⟨_, _, rfl⟩
  rcases run with ⟨plan, finish, run⟩
  exact ⟨plan, finish, run, drainFairReady_conserves distinct run⟩

end Fates

end Gfm.Jobs

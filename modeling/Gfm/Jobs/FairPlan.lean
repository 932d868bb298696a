import Gfm.Jobs.Fair

/-!
# What the fair planner returns

The planner is steady: the control is the only thing that can stop it. Its
value is written here without the control, and the number of its checks with
it. The ready list of a plan restricted to one class is the queue of that
class in its own order, so planning neither loses, repeats nor reorders the
jobs of a class.
-/

namespace Gfm.Jobs

open Interruptible List

namespace JobFairnessPlanner

variable (planner : JobFairnessPlanner) {control : Control GfmError} {σ : Type}

def readyQueues (jobs : List Job) : ClassQueues := fun jobClass =>
  jobs.filter fun job => dependenciesSatisfied job planner.completed ∧ job.jobClass = jobClass

def blockedJobs (jobs : List Job) : List Job :=
  jobs.filter fun job => ¬dependenciesSatisfied job planner.completed

theorem splitChecked_steady (jobs : List Job) (queues : ClassQueues) (blocked : List Job) :
    Steady control (planner.splitChecked (σ := σ) control jobs queues blocked)
      (2 * jobs.length)
      (fun jobClass => queues jobClass ++ planner.readyQueues jobs jobClass,
        blocked ++ planner.blockedJobs jobs) := by
  induction jobs generalizing queues blocked with
  | nil => simpa [splitChecked, readyQueues, blockedJobs] using Steady.pure (queues, blocked)
  | cons job jobs ih =>
      unfold splitChecked
      by_cases satisfied : dependenciesSatisfied job planner.completed = true
      · rw [if_pos satisfied]
        refine (Steady.check_bind (Steady.check_bind (ih _ _))).congr ?_ ?_
        · simp only [length_cons]
          omega
        · simp only [Prod.mk.injEq]
          constructor
          · funext jobClass
            by_cases same : job.jobClass = jobClass
            · subst same
              simp [readyQueues, satisfied]
            · simp [readyQueues, same, Function.update_of_ne (Ne.symm same)]
          · simp [blockedJobs, satisfied]
      · rw [if_neg satisfied]
        refine (Steady.check_bind (Steady.check_bind (ih _ _))).congr ?_ ?_
        · simp only [length_cons]
          omega
        · simp [readyQueues, blockedJobs, satisfied]

theorem admitQuotaChecked_steady (quota : Nat) (queue : List Job) :
    Steady control (admitQuotaChecked (σ := σ) control quota queue)
      (min quota (queue.length + 1)) (queue.take quota, queue.drop quota) := by
  induction quota generalizing queue with
  | zero => simpa [admitQuotaChecked] using Steady.pure ([], queue)
  | succ quota ih =>
      unfold admitQuotaChecked
      cases queue with
      | nil => exact Steady.congr (Steady.check_bind (Steady.pure ([], []))) (by simp) (by simp)
      | cons job rest =>
          refine Steady.congr (Steady.check_bind
            ((ih rest).map fun later => (job :: later.1, later.2))) ?_ ?_
          · simp only [length_cons]
            omega
          · simp

def roundTaken (classes : List JobClass) (queues : ClassQueues) : List Job :=
  classes.flatMap fun jobClass => (queues jobClass).take (planner.policy.quota jobClass)

def roundLeft (classes : List JobClass) (queues : ClassQueues) : ClassQueues := fun jobClass =>
  if jobClass ∈ classes then (queues jobClass).drop (planner.policy.quota jobClass)
  else queues jobClass

def roundChecks (classes : List JobClass) (queues : ClassQueues) : Nat :=
  (classes.map fun jobClass =>
    1 + min (planner.policy.quota jobClass) ((queues jobClass).length + 1)).sum

theorem admitRoundChecked_steady {classes : List JobClass} (distinct : classes.Nodup)
    (queues : ClassQueues) :
    Steady control (planner.admitRoundChecked (σ := σ) control classes queues)
      (planner.roundChecks classes queues)
      (planner.roundTaken classes queues, planner.roundLeft classes queues) := by
  induction classes generalizing queues with
  | nil =>
      unfold admitRoundChecked
      refine Steady.congr (Steady.pure ([], queues)) ?_ ?_
      · simp [roundChecks]
      · simp only [roundTaken, flatMap_nil, Prod.mk.injEq, true_and]
        funext jobClass
        simp [roundLeft]
  | cons jobClass classes ih =>
      obtain ⟨fresh, distinct⟩ := nodup_cons.mp distinct
      unfold admitRoundChecked
      have later := ih distinct
        (Function.update queues jobClass
          ((queues jobClass).drop (planner.policy.quota jobClass)))
      refine Steady.congr (Steady.check_bind ((admitQuotaChecked_steady _ _).bind
        (later.map fun rest =>
          ((queues jobClass).take (planner.policy.quota jobClass) ++ rest.1, rest.2)))) ?_ ?_
      · have others : ∀ other ∈ classes, Function.update queues jobClass
            ((queues jobClass).drop (planner.policy.quota jobClass)) other = queues other := by
          intro other otherMem
          apply Function.update_of_ne
          rintro rfl
          exact fresh otherMem
        have same : planner.roundChecks classes (Function.update queues jobClass
            ((queues jobClass).drop (planner.policy.quota jobClass))) =
              planner.roundChecks classes queues := by
          unfold roundChecks
          congr 1
          apply map_congr_left
          intro other otherMem
          rw [others other otherMem]
        rw [same]
        simp only [roundChecks, map_cons, sum_cons]
        omega
      · simp only [Prod.mk.injEq]
        constructor
        · simp only [roundTaken, flatMap_cons, append_cancel_left_eq]
          unfold List.flatMap
          congr 1
          apply map_congr_left
          intro other otherMem
          rw [Function.update_of_ne]
          rintro rfl
          exact fresh otherMem
        · funext other
          by_cases same : other = jobClass
          · subst same
            simp [roundLeft, fresh]
          · simp [roundLeft, same]

theorem jobClassOrder_nodup : jobClassOrder.Nodup := by decide

/-- The jobs that at most `fuel` rounds of admissions take. -/
def roundsTaken : Nat → ClassQueues → List Job
  | 0, _ => []
  | fuel + 1, queues =>
      if (planner.roundTaken jobClassOrder queues).isEmpty then []
      else planner.roundTaken jobClassOrder queues ++
        roundsTaken fuel (planner.roundLeft jobClassOrder queues)

def roundsChecks : Nat → ClassQueues → Nat
  | 0, _ => 0
  | fuel + 1, queues =>
      1 + planner.roundChecks jobClassOrder queues +
        if (planner.roundTaken jobClassOrder queues).isEmpty then 0
        else roundsChecks fuel (planner.roundLeft jobClassOrder queues)

theorem admitRoundsChecked_steady (fuel : Nat) (queues : ClassQueues) :
    Steady control (planner.admitRoundsChecked (σ := σ) control fuel queues)
      (planner.roundsChecks fuel queues) (planner.roundsTaken fuel queues) := by
  induction fuel generalizing queues with
  | zero => exact Steady.pure []
  | succ fuel ih =>
      unfold admitRoundsChecked
      have round : Steady control (planner.admitRoundChecked (σ := σ) control jobClassOrder queues)
          _ _ := planner.admitRoundChecked_steady jobClassOrder_nodup queues
      have rest : Steady control
          (if (planner.roundTaken jobClassOrder queues).isEmpty then pure []
            else do
              let later ← planner.admitRoundsChecked (σ := σ) control fuel
                (planner.roundLeft jobClassOrder queues)
              pure (planner.roundTaken jobClassOrder queues ++ later))
          (if (planner.roundTaken jobClassOrder queues).isEmpty then 0
            else planner.roundsChecks fuel (planner.roundLeft jobClassOrder queues))
          (planner.roundsTaken (fuel + 1) queues) := by
        by_cases finished : (planner.roundTaken jobClassOrder queues).isEmpty = true
        · simp only [roundsTaken, finished, if_true]
          exact Steady.pure []
        · simp only [roundsTaken, finished]
          exact (ih _).map fun later => planner.roundTaken jobClassOrder queues ++ later
      refine Steady.congr (Steady.check_bind (round.bind rest)) ?_ rfl
      simp only [roundsChecks]
      omega

theorem reportBlockedChecked_steady (jobs : List Job) :
    Steady control (planner.reportBlockedChecked (σ := σ) control jobs) (2 * jobs.length)
      (jobs.map planner.blockedJob) := by
  induction jobs with
  | nil => exact Steady.pure []
  | cons job jobs ih =>
      unfold reportBlockedChecked
      refine Steady.congr (Steady.check_bind (Steady.check_bind
        (ih.map fun later => planner.blockedJob job :: later))) ?_ rfl
      simp only [length_cons]
      omega

/-- The plan that an uninterrupted planner makes. -/
def plan (jobs : List Job) : JobFairnessPlan where
  ready := planner.roundsTaken (waiting (planner.readyQueues jobs) + 1) (planner.readyQueues jobs)
  blocked := (planner.blockedJobs jobs).map planner.blockedJob

def planChecks (jobs : List Job) : Nat :=
  2 * jobs.length +
    planner.roundsChecks (waiting (planner.readyQueues jobs) + 1) (planner.readyQueues jobs) +
    2 * (planner.blockedJobs jobs).length

theorem planChecked_steady (jobs : List Job) :
    Steady control (planner.planChecked (σ := σ) control jobs) (planner.planChecks jobs)
      (planner.plan jobs) := by
  unfold planChecked
  have split : Steady control (planner.splitChecked (σ := σ) control jobs (fun _ => []) [])
      (2 * jobs.length) (planner.readyQueues jobs, planner.blockedJobs jobs) :=
    planner.splitChecked_steady jobs (fun _ => []) []
  refine Steady.congr (split.bind ((planner.admitRoundsChecked_steady _ _).bind
    ((planner.reportBlockedChecked_steady _).map fun blocked =>
      JobFairnessPlan.mk (planner.plan jobs).ready blocked))) ?_ ?_
  · simp only [planChecks]
    omega
  · rfl

section Ready

/-- Every job waits in the queue of its own class. -/
def Classified (queues : ClassQueues) : Prop :=
  ∀ jobClass, ∀ job ∈ queues jobClass, job.jobClass = jobClass

theorem readyQueues_classified (jobs : List Job) : Classified (planner.readyQueues jobs) := by
  intro jobClass job jobMem
  simp only [readyQueues, mem_filter, decide_eq_true_eq] at jobMem
  exact jobMem.2.2

variable {planner}

theorem roundLeft_order (queues : ClassQueues) (jobClass : JobClass) :
    planner.roundLeft jobClassOrder queues jobClass =
      (queues jobClass).drop (planner.policy.quota jobClass) := by
  simp [roundLeft, mem_jobClassOrder]

theorem Classified.roundLeft {queues : ClassQueues} (classified : Classified queues) :
    Classified (planner.roundLeft jobClassOrder queues) := by
  intro jobClass job jobMem
  rw [roundLeft_order] at jobMem
  exact classified jobClass job (mem_of_mem_drop jobMem)

/-- One class's share of a round is the front of its queue. -/
theorem Classified.filter_roundTaken {queues : ClassQueues} (classified : Classified queues)
    (jobClass : JobClass) :
    (planner.roundTaken jobClassOrder queues).filter (·.jobClass = jobClass) =
      (queues jobClass).take (planner.policy.quota jobClass) := by
  have own : ∀ other, ((queues other).take (planner.policy.quota other)).filter
      (·.jobClass = jobClass) =
        if other = jobClass then (queues other).take (planner.policy.quota other) else [] := by
    intro other
    split
    · rename_i same
      subst same
      apply filter_eq_self.mpr
      intro job jobMem
      simpa using classified other job (mem_of_mem_take jobMem)
    · rename_i different
      apply filter_eq_nil_iff.mpr
      intro job jobMem
      simpa [classified other job (mem_of_mem_take jobMem)] using different
  simp only [roundTaken, jobClassOrder, flatMap_cons, flatMap_nil,
    filter_append, filter_nil, own]
  cases jobClass <;> simp

theorem roundTaken_eq_nil {queues : ClassQueues}
    (finished : (planner.roundTaken jobClassOrder queues).isEmpty = true) (jobClass : JobClass) :
    queues jobClass = [] := by
  rw [List.isEmpty_iff, roundTaken, flatMap_eq_nil_iff] at finished
  have noneTaken := finished jobClass (mem_jobClassOrder jobClass)
  have positive := planner.policy.quota_pos jobClass
  rcases take_eq_nil_iff.mp noneTaken with zero | empty
  · omega
  · exact empty

theorem waiting_roundLeft_lt {queues : ClassQueues}
    (progress : ¬(planner.roundTaken jobClassOrder queues).isEmpty = true) :
    waiting (planner.roundLeft jobClassOrder queues) < waiting queues := by
  have taken : ∃ jobClass, (queues jobClass).length ≠ 0 := by
    by_contra allEmpty
    push Not at allEmpty
    apply progress
    simp [roundTaken, fun jobClass => eq_nil_of_length_eq_zero (allEmpty jobClass)]
  obtain ⟨busy, nonempty⟩ := taken
  have left : ∀ jobClass, (planner.roundLeft jobClassOrder queues jobClass).length ≤
      (queues jobClass).length := by
    intro jobClass
    simp [roundLeft_order]
  have fewer : (planner.roundLeft jobClassOrder queues busy).length < (queues busy).length := by
    have positive := planner.policy.quota_pos busy
    simp only [roundLeft_order, length_drop]
    omega
  apply sum_lt_sum
  · intro jobClass _
    exact left jobClass
  · exact ⟨busy, mem_jobClassOrder busy, fewer⟩

theorem Classified.filter_roundsTaken {queues : ClassQueues} (classified : Classified queues)
    {fuel : Nat} (enough : waiting queues < fuel) (jobClass : JobClass) :
    (planner.roundsTaken fuel queues).filter (·.jobClass = jobClass) = queues jobClass := by
  induction fuel generalizing queues with
  | zero => omega
  | succ fuel ih =>
      unfold roundsTaken
      split
      · rename_i finished
        simp [roundTaken_eq_nil finished jobClass]
      · rename_i progress
        have fewer := waiting_roundLeft_lt progress
        rw [filter_append, classified.filter_roundTaken,
          ih classified.roundLeft (by omega), roundLeft_order, take_append_drop]

end Ready

/-- Within a class, a plan hands out the ready jobs in the order in which they were given. -/
theorem filter_ready_plan (jobs : List Job) (jobClass : JobClass) :
    (planner.plan jobs).ready.filter (·.jobClass = jobClass) =
      jobs.filter fun job =>
        dependenciesSatisfied job planner.completed ∧ job.jobClass = jobClass :=
  (planner.readyQueues_classified jobs).filter_roundsTaken (Nat.lt_succ_self _) jobClass

/-- A plan neither loses nor repeats a ready job. -/
theorem ready_plan_perm (jobs : List Job) :
    (planner.plan jobs).ready.Perm
      (jobs.filter fun job => dependenciesSatisfied job planner.completed) := by
  rw [perm_iff_count]
  intro job
  have own : ∀ jobs : List Job,
      (jobs.filter (·.jobClass = job.jobClass)).count job = jobs.count job := by
    intro jobs
    exact count_filter (by simp)
  calc (planner.plan jobs).ready.count job
      = ((planner.plan jobs).ready.filter (·.jobClass = job.jobClass)).count job := (own _).symm
    _ = ((jobs.filter fun job => dependenciesSatisfied job planner.completed).filter
          (·.jobClass = job.jobClass)).count job := by
        rw [filter_ready_plan, filter_filter]
        congr 1
        apply filter_congr
        intro other _
        simp [and_comm]
    _ = (jobs.filter fun job => dependenciesSatisfied job planner.completed).count job := own _

end JobFairnessPlanner

end Gfm.Jobs

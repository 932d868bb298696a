import Gfm.Jobs.FairPlan
import Gfm.Lib.Commits
import Gfm.Lib.Spacing

/-!
# How long a class waits

A plan takes from every class in every round, up to its quota, so between two groups of jobs of a
class come at most a round's worth of the other classes.
-/

namespace Gfm.Jobs

open Interruptible List Spacing

/-- What a round may take from the classes. -/
def JobFairnessPolicy.allowance (policy : JobFairnessPolicy) (classes : List JobClass) : Nat :=
  (classes.map policy.quota).sum

/-- What a round may take from the other classes. -/
def JobFairnessPolicy.others (policy : JobFairnessPolicy) (jobClass : JobClass) : Nat :=
  policy.allowance (jobClassOrder.filter (· ≠ jobClass))

namespace JobFairnessPlanner

variable {planner : JobFairnessPlanner} {queues : ClassQueues} {jobClass : JobClass}

/-- The jobs of a class are the marked ones. -/
def ofClass (jobClass : JobClass) (job : Job) : Bool := job.jobClass = jobClass

theorem length_roundTaken_le (planner : JobFairnessPlanner) (classes : List JobClass)
    (queues : ClassQueues) :
    (planner.roundTaken classes queues).length ≤ planner.policy.allowance classes := by
  induction classes with
  | nil => exact le_refl _
  | cons other classes ih =>
      rw [JobFairnessPolicy.allowance, map_cons, sum_cons]
      rw [roundTaken, flatMap_cons, length_append, length_take]
      exact Nat.add_le_add (min_le_left _ _) ih

theorem Classified.unmarked (classified : Classified queues) {classes : List JobClass}
    (absent : jobClass ∉ classes) :
    ∀ job ∈ planner.roundTaken classes queues, ofClass jobClass job = false := by
  intro job member
  rcases mem_flatMap.mp member with ⟨other, listed, taken⟩
  have own := classified other job (mem_of_mem_take taken)
  rw [ofClass, own, decide_eq_false_iff_not]
  rintro rfl
  exact absent listed

theorem Classified.marked (classified : Classified queues) (count : Nat) :
    ∀ job ∈ (queues jobClass).take count, ofClass jobClass job = true :=
  fun job member => decide_eq_true (classified jobClass job (mem_of_mem_take member))

/-- A round around one class. -/
theorem round_split (policy : JobFairnessPolicy) (jobClass : JobClass) :
    ∃ before after, jobClassOrder = before ++ jobClass :: after ∧ jobClass ∉ before ∧
      jobClass ∉ after ∧ policy.allowance before + policy.allowance after =
        policy.others jobClass := by
  rcases append_of_mem (mem_jobClassOrder jobClass) with ⟨before, after, split⟩
  have nodup := jobClassOrder_nodup
  rw [split, nodup_middle, nodup_cons, mem_append, not_or] at nodup
  refine ⟨before, after, split, nodup.1.1, nodup.1.2, ?_⟩
  have kept : ∀ classes : List JobClass, jobClass ∉ classes →
      classes.filter (· ≠ jobClass) = classes := by
    intro classes absent
    refine filter_eq_self.mpr fun other member => decide_eq_true ?_
    rintro rfl
    exact absent member
  rw [JobFairnessPolicy.others, split, filter_append, filter_cons_of_neg (by simp),
    kept before nodup.1.1, kept after nodup.1.2]
  simp [JobFairnessPolicy.allowance]

theorem Classified.mem_of_roundsTaken (classified : Classified queues) {fuel : Nat} {job : Job}
    (member : job ∈ planner.roundsTaken fuel queues) : job ∈ queues job.jobClass := by
  induction fuel generalizing queues with
  | zero => cases member
  | succ fuel ih =>
      rw [roundsTaken] at member
      split at member
      · cases member
      · rcases mem_append.mp member with now | later
        · rcases mem_flatMap.mp now with ⟨other, -, taken⟩
          have present := mem_of_mem_take taken
          rwa [classified other job present]
        · have left := ih classified.roundLeft later
          rw [roundLeft_order] at left
          exact mem_of_mem_drop left

/-- However long a class waited since its group of the last round, no longer than the classes after
it took there. -/
theorem Classified.spaced_roundsTaken (classified : Classified queues)
    {before after : List JobClass}
    (order : jobClassOrder = before ++ jobClass :: after) (absentBefore : jobClass ∉ before)
    (absentAfter : jobClass ∉ after) (fuel : Nat) {waited : Nat}
    (recent : waited ≤ planner.policy.allowance after) :
    Spaced (ofClass jobClass)
      (planner.policy.allowance before + planner.policy.allowance after) waited
      (planner.roundsTaken fuel queues) := by
  induction fuel generalizing queues waited with
  | zero => trivial
  | succ fuel ih =>
      by_cases empty : queues jobClass = []
      · refine spaced_of_unmarked fun job member => decide_eq_false ?_
        rintro rfl
        have present := classified.mem_of_roundsTaken member
        rw [empty] at present
        cases present
      have round : planner.roundTaken jobClassOrder queues =
          planner.roundTaken before queues ++
            ((queues jobClass).take (planner.policy.quota jobClass) ++
              planner.roundTaken after queues) := by
        rw [roundTaken, order, flatMap_append, flatMap_cons]
        rfl
      have nonempty : (queues jobClass).take (planner.policy.quota jobClass) ≠ [] := by
        have positive := planner.policy.quota_pos jobClass
        simp [empty, positive.ne']
      have front := planner.length_roundTaken_le before queues
      have back := planner.length_roundTaken_le after queues
      rw [roundsTaken]
      split
      · trivial
      · rw [round, append_assoc, append_assoc,
          spaced_append_unmarked (classified.unmarked absentBefore),
          spaced_append_marked nonempty (classified.marked _),
          spaced_append_unmarked (classified.unmarked absentAfter), Nat.zero_add]
        exact ⟨by omega, ih classified.roundLeft back⟩

variable (planner)

/-- A stretch of other classes that a job of the class still follows. -/
theorem length_stretch_le (jobs : List Job) (jobClass : JobClass) {before stretch after : List Job}
    (planned : (planner.plan jobs).ready = before ++ stretch ++ after)
    (foreign : ∀ job ∈ stretch, job.jobClass ≠ jobClass)
    (unplanned : ∃ job ∈ after, job.jobClass = jobClass) :
    stretch.length ≤ planner.policy.others jobClass := by
  rcases round_split planner.policy jobClass with ⟨front, back, order, absentFront, absentBack, sum⟩
  have spaced : Spaced (ofClass jobClass) (planner.policy.others jobClass) 0
      (planner.plan jobs).ready := by
    rw [← sum]
    exact (planner.readyQueues_classified jobs).spaced_roundsTaken order absentFront absentBack _
      (Nat.zero_le _)
  rw [planned] at spaced
  refine spaced.length_le (fun job member => decide_eq_false (foreign job member)) ?_
  rcases unplanned with ⟨job, member, own⟩
  exact ⟨job, member, decide_eq_true own⟩

end JobFairnessPlanner

/-- What a plan owes the jobs: all ready ones, each once, those of a class in their order, and no
class waiting for more than a round of the others. -/
structure Fair (planner : JobFairnessPlanner) (jobs ready : List Job) : Prop where
  perm : ready.Perm (jobs.filter fun job => dependenciesSatisfied job planner.completed)
  order : ∀ jobClass, ready.filter (·.jobClass = jobClass) =
    (jobs.filter fun job => dependenciesSatisfied job planner.completed).filter
      (·.jobClass = jobClass)
  gaps : ∀ jobClass before stretch after, ready = before ++ stretch ++ after →
    (∀ job ∈ stretch, job.jobClass ≠ jobClass) → (∃ job ∈ after, job.jobClass = jobClass) →
      stretch.length ≤ planner.policy.others jobClass

/-- The planner plans fairly, whatever its policy and the jobs. -/
theorem planChecked_fair (planner : JobFairnessPlanner) (jobs : List Job)
    (start : Clocked Unit) :
    ∃ plan finish, planner.planChecked granted jobs start = .ok plan finish ∧
      Fair planner jobs plan.ready := by
  refine ⟨planner.plan jobs, _, granted_run (planner.planChecked_steady jobs) start, ?_, ?_, ?_⟩
  · exact planner.ready_plan_perm jobs
  · intro jobClass
    rw [planner.filter_ready_plan, filter_filter]
    exact filter_congr fun job _ => by simp [and_comm]
  · intro jobClass before stretch after planned foreign unplanned
    exact planner.length_stretch_le jobs jobClass planned foreign unplanned

end Gfm.Jobs

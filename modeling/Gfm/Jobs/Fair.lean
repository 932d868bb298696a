import Gfm.Jobs.Basic

/-!
# The fair planner

Ready jobs wait in one queue per class. A round of admissions takes from every
class, in the fixed class order, at most the quota of that class; rounds repeat
until one admits nothing. Jobs with an unmet dependency are reported as blocked.
-/

namespace Gfm.Jobs

open Interruptible

universe u

/-- How many jobs of a class may be admitted in one round. -/
structure JobFairnessPolicy where
  quotas : JobClass → Option Nat

namespace JobFairnessPolicy

def new : JobFairnessPolicy where
  quotas
    | .foreground => some 3
    | .visible => some 3
    | .background => some 1
    | .maintenance => some 1
    | .repair => some 1

/-- A quota of zero is taken for one. -/
def withQuota (policy : JobFairnessPolicy) (jobClass : JobClass) (quota : Nat) :
    JobFairnessPolicy :=
  { policy with quotas := Function.update policy.quotas jobClass (some (max quota 1)) }

/-- A class without a quota may admit one job. -/
def quota (policy : JobFairnessPolicy) (jobClass : JobClass) : Nat :=
  max ((policy.quotas jobClass).getD 1) 1

theorem quota_pos (policy : JobFairnessPolicy) (jobClass : JobClass) :
    0 < policy.quota jobClass := by
  simp [quota]

end JobFairnessPolicy

/-- The order in which a round visits the classes. -/
def jobClassOrder : List JobClass :=
  [.foreground, .visible, .background, .maintenance, .repair]

theorem mem_jobClassOrder (jobClass : JobClass) : jobClass ∈ jobClassOrder := by
  cases jobClass <;> simp [jobClassOrder]

/-- One round, with every class repeated as often as it may admit. -/
def JobFairnessPolicy.admissionOrder (policy : JobFairnessPolicy) : List JobClass :=
  jobClassOrder.flatMap fun jobClass => List.replicate (policy.quota jobClass) jobClass

theorem JobFairnessPolicy.mem_admissionOrder (policy : JobFairnessPolicy)
    (jobClass : JobClass) : jobClass ∈ policy.admissionOrder := by
  simp only [admissionOrder, List.mem_flatMap, List.mem_replicate]
  exact ⟨jobClass, mem_jobClassOrder jobClass, (policy.quota_pos jobClass).ne', rfl⟩

/-- A job that waits for others, with those that are missing and those that failed. -/
structure BlockedJob where
  id : JobId
  label : String
  jobClass : JobClass
  missingDependencies : List JobId
  failedDependencies : List JobId
  deriving DecidableEq, Repr

structure JobFairnessPlan where
  ready : List Job
  blocked : List BlockedJob
  deriving DecidableEq, Repr

/-- What is known to have completed and to have failed before the plan. -/
structure JobFairnessPlanner where
  policy : JobFairnessPolicy
  completed : Finset JobId
  failed : Finset JobId

/-- Every dependency is among the completed jobs. -/
def dependenciesSatisfied (job : Job) (satisfied : Finset JobId) : Bool :=
  job.dependencies.all fun dependency => decide (dependency ∈ satisfied)

theorem dependenciesSatisfied_iff {job : Job} {satisfied : Finset JobId} :
    dependenciesSatisfied job satisfied = true ↔
      ∀ dependency ∈ job.dependencies, dependency ∈ satisfied := by
  simp [dependenciesSatisfied]

/-- The ready jobs of each class, in the order they came in. -/
abbrev ClassQueues := JobClass → List Job

namespace JobFairnessPlanner

variable (planner : JobFairnessPlanner) (control : Control GfmError) {σ : Type}

def new (policy : JobFairnessPolicy) : JobFairnessPlanner := ⟨policy, ∅, ∅⟩

def withCompleted (completed : Finset JobId) : JobFairnessPlanner :=
  { planner with completed := planner.completed ∪ completed }

def withFailed (failed : Finset JobId) : JobFairnessPlanner :=
  { planner with failed := planner.failed ∪ failed }

/-- Sort jobs into the queues and the blocked ones; each is checked for twice. -/
def splitChecked : List Job → ClassQueues → List Job →
    Checked GfmError σ (ClassQueues × List Job)
  | [], queues, blocked => pure (queues, blocked)
  | job :: jobs, queues, blocked => do
      check control
      if dependenciesSatisfied job planner.completed then
        check control
        splitChecked jobs
          (Function.update queues job.jobClass (queues job.jobClass ++ [job])) blocked
      else
        check control
        splitChecked jobs queues (blocked ++ [job])

/-- Take up to `quota` jobs from the front of one class queue: what was taken, what is left. -/
def admitQuotaChecked : Nat → List Job → Checked GfmError σ (List Job × List Job)
  | 0, queue => pure ([], queue)
  | quota + 1, queue => do
      check control
      match queue with
      | [] => pure ([], [])
      | job :: rest => do
          let (taken, left) ← admitQuotaChecked quota rest
          pure (job :: taken, left)

/-- Visit every class once and take up to its quota from the front of its queue. -/
def admitRoundChecked : List JobClass → ClassQueues →
    Checked GfmError σ (List Job × ClassQueues)
  | [], queues => pure ([], queues)
  | jobClass :: classes, queues => do
      check control
      let (taken, left) ←
        admitQuotaChecked control (planner.policy.quota jobClass) (queues jobClass)
      let (later, queues) ← admitRoundChecked classes (Function.update queues jobClass left)
      pure (taken ++ later, queues)

/-- Rounds of admissions until one makes no progress; the fuel bounds the number of rounds. -/
def admitRoundsChecked : Nat → ClassQueues → Checked GfmError σ (List Job)
  | 0, _ => pure []
  | fuel + 1, queues => do
      check control
      let (taken, queues) ← admitRoundChecked planner control jobClassOrder queues
      if taken.isEmpty then
        pure []
      else do
        let later ← admitRoundsChecked fuel queues
        pure (taken ++ later)

/-- A dependency that has failed counts as failed, not as missing. -/
def blockedJob (job : Job) : BlockedJob where
  id := job.id
  label := job.label
  jobClass := job.jobClass
  missingDependencies := job.dependencies.filter fun dependency =>
    dependency ∉ planner.completed ∧ dependency ∉ planner.failed
  failedDependencies := job.dependencies.filter fun dependency =>
    dependency ∉ planner.completed ∧ dependency ∈ planner.failed

def reportBlockedChecked : List Job → Checked GfmError σ (List BlockedJob)
  | [] => pure []
  | job :: jobs => do
      check control
      check control
      let later ← reportBlockedChecked jobs
      pure (planner.blockedJob job :: later)

/-- The number of jobs in all queues, which bounds the number of rounds. -/
def waiting (queues : ClassQueues) : Nat :=
  (jobClassOrder.map fun jobClass => (queues jobClass).length).sum

/-- The jobs that can run, in the order of their rounds, and the report on the others. -/
def planChecked (jobs : List Job) : Checked GfmError σ JobFairnessPlan := do
  let (queues, blocked) ← splitChecked planner control jobs (fun _ => []) []
  let ready ← admitRoundsChecked planner control (waiting queues + 1) queues
  let blocked ← reportBlockedChecked planner control blocked
  pure { ready, blocked }

end JobFairnessPlanner

end Gfm.Jobs

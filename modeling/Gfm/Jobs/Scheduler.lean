import Gfm.Jobs.FairPlan

/-!
# The scheduler

The scheduler holds the queued jobs and three ledgers of job ids: cancelled,
completed and failed, the last two with the order in which their ids arrived.
Its operations are programs over the scheduler and the cancellation tokens of
the jobs; those that take a control callback consult it where the source does.
-/

namespace Gfm.Jobs

open Interruptible

structure Scheduler where
  next : Nat
  queue : List Job
  cancelled : Finset JobId
  completed : Finset JobId
  completedOrder : List JobId
  failed : Finset JobId
  failedOrder : List JobId
  deriving DecidableEq

/-- The scheduler with the tokens of its jobs: how many were made, which are cancelled. -/
structure World where
  scheduler : Scheduler
  tokens : Nat
  cancelledTokens : Finset Cancellation
  deriving DecidableEq

inductive TaskStatus where
  | started
  | completed
  | cancelled
  | failed (message : String)
  deriving DecidableEq, Repr

structure TaskOutcome where
  id : JobId
  label : String
  status : TaskStatus
  deriving DecidableEq, Repr

structure WorkerReport where
  outcomes : List TaskOutcome

structure SchedulerReportIngestion where
  completed : List JobId
  cancelled : List JobId
  failed : List JobId

structure CancelledJob where
  id : JobId
  label : String
  jobClass : JobClass
  priority : Priority
  payloadKind : Option JobPayloadKind

structure VolumeCancellationReport where
  volume : VolumeId
  jobClass : Option JobClass
  payloadKinds : List JobPayloadKind
  cancelled : List CancelledJob

structure StagedReadyDrain where
  ready : List Job
  cancelled : Finset JobId
  cancelledJobs : List Job
  deriving DecidableEq

def completedDependencyRetention : Nat := 4096

/-- Evict the oldest ids of an over-long ledger, passing over those that are referenced. -/
def pruneLoop (referenced : Finset JobId) (completed : Finset JobId) :
    List JobId → Nat → Finset JobId × List JobId
  | [], _ => (completed, [])
  | id :: rest, rotated =>
      if completedDependencyRetention < (id :: rest).length ∧
          rotated < (id :: rest).length then
        if id ∈ referenced then pruneLoop referenced completed (rest ++ [id]) (rotated + 1)
        else pruneLoop referenced (completed.erase id) rest 0
      else (completed, id :: rest)
termination_by order rotated => (order.length, order.length - rotated)
decreasing_by
  · have same : (rest ++ [id]).length = (id :: rest).length := by simp
    rw [same]
    apply Prod.Lex.right
    omega
  · apply Prod.Lex.left
    simp

def pruneCompletedLedgerParts (queue : List Job) (completed : Finset JobId)
    (completedOrder : List JobId) : Finset JobId × List JobId :=
  pruneLoop (queue.flatMap Job.dependencies).toFinset completed
    (completedOrder.filter (· ∈ completed)) 0

namespace Scheduler

def new : Scheduler := ⟨0, [], ∅, ∅, [], ∅, []⟩

def newStartingAfter (id : JobId) : Scheduler := { new with next := id.value }

def pruneCompletedLedger (scheduler : Scheduler) : Scheduler :=
  let completed := pruneCompletedLedgerParts scheduler.queue scheduler.completed
    scheduler.completedOrder
  let failed := pruneCompletedLedgerParts scheduler.queue scheduler.failed scheduler.failedOrder
  { scheduler with
    completed := completed.1, completedOrder := completed.2,
    failed := failed.1, failedOrder := failed.2 }

def insertCompleted (scheduler : Scheduler) (id : JobId) : Scheduler :=
  if id ∈ scheduler.completed then scheduler
  else { scheduler with
    completed := insert id scheduler.completed,
    completedOrder := scheduler.completedOrder ++ [id] }

def insertFailed (scheduler : Scheduler) (id : JobId) : Scheduler :=
  if id ∈ scheduler.failed then scheduler
  else { scheduler with
    failed := insert id scheduler.failed,
    failedOrder := scheduler.failedOrder ++ [id] }

def removeCompleted (scheduler : Scheduler) (id : JobId) : Scheduler :=
  { scheduler with
    completed := scheduler.completed.erase id,
    completedOrder := scheduler.completedOrder.filter (· ≠ id) }

def removeFailed (scheduler : Scheduler) (id : JobId) : Scheduler :=
  { scheduler with
    failed := scheduler.failed.erase id,
    failedOrder := scheduler.failedOrder.filter (· ≠ id) }

/-- What one outcome of a worker report does to the ledgers. -/
def applyOutcome (scheduler : Scheduler) (outcome : TaskOutcome) : Scheduler :=
  match outcome.status with
  | .started => scheduler
  | .completed =>
      ({ scheduler with cancelled := scheduler.cancelled.erase outcome.id }.removeFailed
        outcome.id).insertCompleted outcome.id
  | .cancelled =>
      let cleared := (scheduler.removeCompleted outcome.id).removeFailed outcome.id
      { cleared with cancelled := insert outcome.id cleared.cancelled }
  | .failed _ =>
      ({ scheduler with cancelled := scheduler.cancelled.erase outcome.id }.removeCompleted
        outcome.id).insertFailed outcome.id

end Scheduler

namespace World

def new : World := ⟨Scheduler.new, 0, ∅⟩

def newStartingAfter (id : JobId) : World := ⟨Scheduler.newStartingAfter id, 0, ∅⟩

def scheduleWithOptions (world : World) (priority : Priority) (jobClass : JobClass)
    (payloadKind : Option JobPayloadKind) (label : String) (volume : Option VolumeId)
    (dependencies : List JobId) : Job × World :=
  let id : JobId := ⟨world.scheduler.next + 1⟩
  let job : Job :=
    { id, priority, jobClass, payloadKind, label, volume, dependencies, cancel := ⟨world.tokens⟩ }
  (job,
    { world with
      scheduler := { world.scheduler with
        next := id.value, queue := world.scheduler.queue ++ [job] },
      tokens := world.tokens + 1 })

def cancel (world : World) (id : JobId) : World :=
  { world with scheduler := { world.scheduler with
    cancelled := insert id world.scheduler.cancelled } }

def cancelJobs (world : World) (jobs : List Job) : World :=
  { world with cancelledTokens := world.cancelledTokens ∪ (jobs.map Job.cancel).toFinset }

end World

section Checked

variable (control : Control GfmError) {σ : Type}

def scheduler : Checked GfmError World Scheduler := fun clocked =>
  .ok clocked.state.scheduler clocked

def modifyScheduler (change : Scheduler → Scheduler) : Checked GfmError World PUnit :=
  fun clocked =>
    .ok ⟨⟩ { clocked with state := { clocked.state with
      scheduler := change clocked.state.scheduler } }

def cancelTokens (jobs : List Job) : Checked GfmError World PUnit := fun clocked =>
  .ok ⟨⟩ { clocked with state := clocked.state.cancelJobs jobs }

def markCompletedChecked (id : JobId) : Checked GfmError World PUnit := do
  check control
  let before ← scheduler
  modifyScheduler fun scheduler =>
    { scheduler with cancelled := scheduler.cancelled.erase id }.insertCompleted id
  try check control
  catch error =>
    -- only what this call inserted or removed is undone
    if id ∉ before.completed then modifyScheduler (·.removeCompleted id)
    if id ∈ before.cancelled then
      modifyScheduler fun scheduler =>
        { scheduler with cancelled := insert id scheduler.cancelled }
    throw error
  modifyScheduler Scheduler.pruneCompletedLedger

def applyOutcomesChecked : List TaskOutcome → Finset JobId → Scheduler →
    Checked GfmError σ Scheduler
  | [], _, staged => pure staged
  | outcome :: outcomes, seen, staged => do
      check control
      if outcome.status = .started then
        applyOutcomesChecked outcomes seen staged
      else if outcome.id ∈ seen then
        throw (.format ("duplicate worker outcome for job " ++ toString outcome.id.value))
      else
        check control
        applyOutcomesChecked outcomes (insert outcome.id seen) (staged.applyOutcome outcome)

def reportedIds (report : WorkerReport) (selected : TaskStatus → Bool) : List JobId :=
  ((report.outcomes.filter fun outcome => selected outcome.status).map TaskOutcome.id).insertionSort
    fun left right => left.value ≤ right.value

def applyWorkerReportChecked (report : WorkerReport) :
    Checked GfmError World SchedulerReportIngestion := do
  check control
  let staged ← applyOutcomesChecked control report.outcomes ∅ (← scheduler)
  check control
  modifyScheduler fun scheduler =>
    { staged.pruneCompletedLedger with next := scheduler.next, queue := scheduler.queue }
  pure {
    completed := reportedIds report (· = .completed)
    cancelled := reportedIds report (· = .cancelled)
    failed := reportedIds report fun status => match status with
      | .failed _ => true
      | _ => false }

/-- Two checks for every queued job. -/
def checkEach : List Job → Checked GfmError σ PUnit
  | [] => pure ⟨⟩
  | _ :: jobs => do
      check control
      check control
      checkEach jobs

def bindVolumeChecked (id : JobId) (volume : VolumeId) : Checked GfmError World (Option Job) := do
  check control
  let queue := (← scheduler).queue
  checkEach control queue
  check control
  let bind := fun job : Job => if job.id = id then { job with volume := some volume } else job
  modifyScheduler fun scheduler => { scheduler with queue := queue.map bind }
  pure ((queue.map bind).reverse.find? (·.id = id))

def cancelledByVolume (volume : VolumeId) (jobClass : Option JobClass)
    (payloadKinds : Option (List JobPayloadKind)) (job : Job) : Bool :=
  job.volume = some volume ∧ jobClass.all (· = job.jobClass) ∧
    payloadKinds.all fun kinds => job.payloadKind.any fun kind => decide (kind ∈ kinds)

def cancelVolumeJobsChecked (volume : VolumeId) (jobClass : Option JobClass)
    (payloadKinds : Option (List JobPayloadKind)) :
    Checked GfmError World VolumeCancellationReport := do
  check control
  let queue := (← scheduler).queue
  checkEach control queue
  check control
  let selected := queue.filter (cancelledByVolume volume jobClass payloadKinds)
  modifyScheduler fun scheduler =>
    { scheduler with
      cancelled := scheduler.cancelled \ (selected.map Job.id).toFinset,
      queue := queue.filter fun job => ¬cancelledByVolume volume jobClass payloadKinds job }
  cancelTokens selected
  pure {
    volume, jobClass
    payloadKinds := payloadKinds.getD []
    cancelled := (selected.map fun job =>
      CancelledJob.mk job.id job.label job.jobClass job.priority job.payloadKind).insertionSort
        fun left right => left.id.value ≤ right.id.value }

/-- Pop until a job is not in the cancelled ledger; the tokens of the others are cancelled. -/
def popLoop : List Job → World → Option Job × World
  | [], world => (none, { world with scheduler := { world.scheduler with queue := [] } })
  | job :: rest, world =>
      if job.id ∈ world.scheduler.cancelled then
        popLoop rest
          ({ world with scheduler := { world.scheduler with
            cancelled := world.scheduler.cancelled.erase job.id } }.cancelJobs [job])
      else (some job, { world with scheduler := { world.scheduler with queue := rest } })

def popNext (world : World) : Option Job × World := popLoop (popOrder world.scheduler.queue) world

def stageLoopChecked (completed : Finset JobId) : List Job → StagedReadyDrain →
    Checked GfmError σ StagedReadyDrain
  | [], staged => pure staged
  | job :: jobs, staged => do
      check control
      if job.id ∈ completed then
        stageLoopChecked completed jobs staged
      else if job.id ∈ staged.cancelled then
        stageLoopChecked completed jobs
          { staged with
            cancelled := staged.cancelled.erase job.id,
            cancelledJobs := staged.cancelledJobs ++ [job] }
      else do
        check control
        stageLoopChecked completed jobs { staged with ready := staged.ready ++ [job] }

def stageReadyDrainChecked (scheduler : Scheduler) : Checked GfmError σ StagedReadyDrain := do
  check control
  let staged ← stageLoopChecked control scheduler.completed (popOrder scheduler.queue)
    ⟨[], scheduler.cancelled, []⟩
  check control
  pure staged

def drainReadyChecked : Checked GfmError World (List Job) := do
  let staged ← stageReadyDrainChecked control (← scheduler)
  check control
  cancelTokens staged.cancelledJobs
  modifyScheduler fun scheduler => { scheduler with queue := [], cancelled := staged.cancelled }
  pure staged.ready

/-- Push the blocked jobs back, one check before each. -/
def requeueChecked : List Job → Checked GfmError World PUnit
  | [] => pure ⟨⟩
  | job :: jobs => do
      check control
      modifyScheduler fun scheduler => { scheduler with queue := scheduler.queue ++ [job] }
      requeueChecked jobs

def drainPlanner (scheduler : Scheduler) (policy : JobFairnessPolicy)
    (completed : List JobId) : JobFairnessPlanner :=
  ((JobFairnessPlanner.new policy).withCompleted
    (scheduler.completed ∪ completed.toFinset)).withFailed scheduler.failed

def drainFairReadyChecked (policy : JobFairnessPolicy) (completed : List JobId) :
    Checked GfmError World JobFairnessPlan := do
  let before ← scheduler
  let staged ← stageReadyDrainChecked control before
  check control
  let plan ← (drainPlanner before policy completed).planChecked control staged.ready
  let blockedIds := (plan.blocked.map BlockedJob.id).toFinset
  check control
  cancelTokens staged.cancelledJobs
  -- from here on the queue is empty until the blocked jobs are pushed back
  modifyScheduler fun scheduler =>
    { scheduler with
      queue := [],
      cancelled := staged.cancelled,
      completed := scheduler.completed.filter (· ∉ staged.cancelled),
      failed := scheduler.failed.filter (· ∉ staged.cancelled) }
  requeueChecked control (staged.ready.filter (·.id ∈ blockedIds))
  modifyScheduler Scheduler.pruneCompletedLedger
  pure plan

end Checked

end Gfm.Jobs

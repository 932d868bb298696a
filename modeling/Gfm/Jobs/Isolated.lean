import Gfm.Jobs.Scheduler

/-!
# The isolated task queue

Worker threads share one queue of tasks. Under its lock, `next` hands out a
task whose dependencies are completed and whose volume has room, or fails one
that can no longer run, or tells the worker to stop or to wait; `release`
takes a lease back and wakes the waiting workers. The queues of plain and of
retriable tasks differ in the work that their tasks carry only.

The system is the queue with the workers of a pool and the list of outcomes
that they report. Every event is one critical section of one worker.
-/

namespace Gfm.Jobs

/-- How many tasks of a volume may run at a time; the constructors keep limits positive. -/
structure VolumeConcurrencyPolicy where
  defaultLimit : Nat
  overrides : VolumeId → Option Nat
  defaultLimit_pos : 0 < defaultLimit
  overrides_pos : ∀ volume limit, overrides volume = some limit → 0 < limit

namespace VolumeConcurrencyPolicy

def new (defaultLimit : Nat) : VolumeConcurrencyPolicy where
  defaultLimit := max defaultLimit 1
  overrides := fun _ => none
  defaultLimit_pos := by omega
  overrides_pos := by simp

def withVolumeLimit (policy : VolumeConcurrencyPolicy) (volume : VolumeId) (limit : Nat) :
    VolumeConcurrencyPolicy :=
  { policy with
    overrides := Function.update policy.overrides volume (some (max limit 1))
    overrides_pos := by
      intro other found overridden
      by_cases same : other = volume
      · subst same
        simp only [Function.update_self, Option.some.injEq] at overridden
        omega
      · rw [Function.update_of_ne same] at overridden
        exact policy.overrides_pos other found overridden }

def limitFor (policy : VolumeConcurrencyPolicy) (volume : VolumeId) : Nat :=
  (policy.overrides volume).getD policy.defaultLimit

theorem limitFor_pos (policy : VolumeConcurrencyPolicy) (volume : VolumeId) :
    0 < policy.limitFor volume := by
  unfold limitFor
  cases overridden : policy.overrides volume with
  | none => exact policy.defaultLimit_pos
  | some limit => exact policy.overrides_pos volume limit overridden

end VolumeConcurrencyPolicy

/-- A job together with its work. -/
structure TaskOf (Work : Type) where
  job : Job
  work : Work

structure IsolatedState (Work : Type) where
  pending : List (TaskOf Work)
  activeByVolume : VolumeId → Option Nat
  active : Finset JobId
  completed : Finset JobId
  failed : Finset JobId
  nextAdmissionClass : Nat

/-- The work of a plain task, taken by the worker that runs it. -/
abbrev Task (Work : Type) := TaskOf (Option Work)

abbrev RetriableTask (Work : Type) := TaskOf Work

structure TaskLease (Work : Type) where
  task : TaskOf Work
  volume : Option VolumeId

/-- What one look at the queue tells a worker. -/
inductive NextResult (Work : Type) where
  | run (lease : TaskLease Work)
  | blocked (outcome : TaskOutcome)
  | drained
  | wait

def formatDependencyIds (ids : List JobId) : String :=
  if ids.isEmpty then "-" else ",".intercalate (ids.map fun id => toString id.value)

/-- The dependencies that are not completed: the missing ones and the failed ones. -/
def dependencyBlockDetail (job : Job) (completed failed : Finset JobId) :
    List JobId × List JobId :=
  let unmet := job.dependencies.filter (· ∉ completed)
  let sort := List.insertionSort fun left right : JobId => left.value ≤ right.value
  (sort (unmet.filter (· ∉ failed)), sort (unmet.filter (· ∈ failed)))

namespace IsolatedState

variable {Work : Type}

def new (tasks : List (TaskOf Work)) : IsolatedState Work where
  pending := tasks
  activeByVolume := fun _ => none
  active := ∅
  completed := ∅
  failed := ∅
  nextAdmissionClass := 0

variable (state : IsolatedState Work)

def dependenciesCompleted (job : Job) : Bool :=
  job.dependencies.all fun dependency => decide (dependency ∈ state.completed)

def admissibleVolume (job : Job) (policy : VolumeConcurrencyPolicy) : Option (Option VolumeId) :=
  match job.volume with
  | some volume =>
      if (state.activeByVolume volume).getD 0 < policy.limitFor volume then some (some volume)
      else none
  | none => some none

/-- The first pending task of a class that may run now: its index and its volume. -/
def admissibleInClass (policy : VolumeConcurrencyPolicy) (jobClass : JobClass) :
    Option (Nat × Option VolumeId) :=
  state.pending.zipIdx.findSome? fun (task, index) =>
    if task.job.jobClass ≠ jobClass ∨ ¬state.dependenciesCompleted task.job then none
    else (state.admissibleVolume task.job policy).map fun volume => (index, volume)

/-- The admitted task and the class to begin with the next time. -/
def nextAdmissible (admissionOrder : List JobClass) (policy : VolumeConcurrencyPolicy) :
    Option ((Nat × Option VolumeId) × Nat) :=
  (List.range admissionOrder.length).findSome? fun offset =>
    let cursor := (state.nextAdmissionClass + offset) % admissionOrder.length
    (admissionOrder[cursor]?).bind fun jobClass =>
      (state.admissibleInClass policy jobClass).map fun admission =>
        (admission, (cursor + 1) % admissionOrder.length)

/-- A pending task that waits for a failed or unknown job. -/
def hopeless (task : TaskOf Work) : Bool :=
  task.job.dependencies.any fun dependency =>
    decide (dependency ∈ state.failed ∨
      ¬((∃ other ∈ state.pending, other.job.id = dependency) ∨ dependency ∈ state.active ∨
        dependency ∈ state.completed ∨ dependency ∈ state.failed))

/-- Where the next task to be failed stands: when nothing is active, an unmet dependency is
enough. -/
def blockedIndex : Option Nat :=
  match state.pending.findIdx? state.hopeless with
  | some index => some index
  | none =>
      if state.active = ∅ then
        state.pending.findIdx? fun task => !state.dependenciesCompleted task.job
      else none

def removeDependencyBlocked : Option (TaskOutcome × IsolatedState Work) := do
  let index ← state.blockedIndex
  let task ← state.pending[index]?
  let failed := insert task.job.id state.failed
  let (missing, failedIds) := dependencyBlockDetail task.job state.completed failed
  some
    ({ id := task.job.id
       label := task.job.label
       status := .failed ("job dependencies were not satisfied missing=" ++
         formatDependencyIds missing ++ " failed=" ++ formatDependencyIds failedIds) },
      { state with pending := state.pending.eraseIdx index, failed })

/-- Hand out the task that was admitted. -/
def lease (index : Nat) (volume : Option VolumeId) (cursor : Nat) (task : TaskOf Work) :
    IsolatedState Work :=
  { state with
    pending := state.pending.eraseIdx index
    active := insert task.job.id state.active
    activeByVolume := match volume with
      | some volume => Function.update state.activeByVolume volume
          (some ((state.activeByVolume volume).getD 0 + 1))
      | none => state.activeByVolume
    nextAdmissionClass := cursor }

/-- One pass of the loop of `next`, under the lock. -/
def next (admissionOrder : List JobClass) (policy : VolumeConcurrencyPolicy) :
    NextResult Work × IsolatedState Work :=
  match state.nextAdmissible admissionOrder policy with
  | some ((index, volume), cursor) =>
      match state.pending[index]? with
      | some task => (.run ⟨task, volume⟩, state.lease index volume cursor task)
      | none => (.wait, state) -- an admitted index is in range
  | none =>
      match state.removeDependencyBlocked with
      | some (outcome, state) => (.blocked outcome, state)
      | none => if state.pending.isEmpty then (.drained, state) else (.wait, state)

def recordStatus (id : JobId) : TaskStatus → IsolatedState Work
  | .completed =>
      { state with failed := state.failed.erase id, completed := insert id state.completed }
  | .started => state
  | .cancelled | .failed _ =>
      { state with completed := state.completed.erase id, failed := insert id state.failed }

/-- Take one lease off the count of a volume; a volume without a count is a panic. -/
def releaseVolume : Option VolumeId → Option (IsolatedState Work)
  | none => some state
  | some volume =>
      match state.activeByVolume volume with
      | none => none
      | some 0 => none
      | some (count + 1) => some { state with
          activeByVolume := Function.update state.activeByVolume volume
            (if count = 0 then none else some count) }

/-- Give a lease back with the status of its task; `none` is a panic of the source. -/
def release (job : Job) (volume : Option VolumeId) (status : TaskStatus) :
    Option (IsolatedState Work) :=
  ({ state with active := state.active.erase job.id }.recordStatus job.id status).releaseVolume
    volume

end IsolatedState

/-- What a worker thread is doing. -/
inductive Worker (Work : Type) where
  | ready
  | parked
  | running (lease : TaskLease Work)
  | reporting (outcome : TaskOutcome)
  | stopped

namespace Worker

variable {Work : Type}

def lease? : Worker Work → Option (TaskLease Work)
  | .running lease => some lease
  | _ => none

def outcome? : Worker Work → Option TaskOutcome
  | .reporting outcome => some outcome
  | _ => none

/-- `notify_all`, for one worker. -/
def notified : Worker Work → Worker Work
  | .parked => .ready
  | worker => worker

end Worker

structure IsolatedSystem (Work : Type) where
  queue : IsolatedState Work
  workers : List (Worker Work)
  outcomes : List TaskOutcome

/-- One critical section of the worker at an index, or a spurious wake-up of it. -/
inductive WorkerEvent where
  | next (worker : Nat)
  | finish (worker : Nat) (status : TaskStatus)
  | report (worker : Nat)
  | wake (worker : Nat)

structure WorkerPool where
  threads : Nat
  threads_pos : 0 < threads

def WorkerPool.new (threads : Nat) : WorkerPool := ⟨max threads 1, by omega⟩

namespace IsolatedSystem

variable {Work : Type}

def start (tasks : List (TaskOf Work)) (workers : Nat) : IsolatedSystem Work where
  queue := IsolatedState.new tasks
  workers := List.replicate workers .ready
  outcomes := []

/-- The system that a pool starts for a list of tasks. -/
def runIsolatedFair (pool : WorkerPool) (tasks : List (TaskOf Work)) : IsolatedSystem Work :=
  start tasks (min pool.threads tasks.length)

variable (policy : VolumeConcurrencyPolicy) (fairness : JobFairnessPolicy)

/-- Where `next` leaves the worker. -/
def afterNext : NextResult Work → Worker Work
  | .run lease => .running lease
  | .blocked outcome => .reporting outcome
  | .drained => .stopped
  | .wait => .parked

def step (system : IsolatedSystem Work) : WorkerEvent → Option (IsolatedSystem Work)
  | .next index =>
      match system.workers[index]? with
      | some .ready =>
          let (result, queue) := system.queue.next fairness.admissionOrder policy
          some { system with queue, workers := system.workers.set index (afterNext result) }
      | _ => none
  | .finish index status =>
      match system.workers[index]? with
      | some (.running lease) => do
          let queue ← system.queue.release lease.task.job lease.volume status
          let outcome : TaskOutcome := ⟨lease.task.job.id, lease.task.job.label, status⟩
          some { system with
            queue, workers := (system.workers.map Worker.notified).set index (.reporting outcome) }
      | _ => none
  | .report index =>
      match system.workers[index]? with
      | some (.reporting outcome) =>
          some { system with
            workers := system.workers.set index .ready, outcomes := system.outcomes ++ [outcome] }
      | _ => none
  | .wake index =>
      match system.workers[index]? with
      | some .parked => some { system with workers := system.workers.set index .ready }
      | _ => none

def run (system : IsolatedSystem Work) : List WorkerEvent → Option (IsolatedSystem Work)
  | [] => some system
  | event :: events => (system.step policy fairness event).bind fun system => run system events

end IsolatedSystem

end Gfm.Jobs

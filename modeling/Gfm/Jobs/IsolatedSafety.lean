import Gfm.Jobs.IsolatedNext

/-!
# The invariant of the isolated task queue

The invariant accounts for every task: it is pending, leased to one worker, or
reported once. The ledgers and counters of the queue agree with what the
workers hold: completed ids were reported as completed, active ids belong to
leases, and the count of a volume is the number of its leases. A worker is
parked only while somebody holds a lease, so that a release will wake it.
-/

namespace Gfm.Jobs

open IsolatedState List

variable {Work : Type}

/-- What a report says of a task. -/
def TaskOf.entry (task : TaskOf Work) : JobId × String := (task.job.id, task.job.label)

def TaskOutcome.entry (outcome : TaskOutcome) : JobId × String := (outcome.id, outcome.label)

def leasesOf (workers : List (Worker Work)) : List (TaskLease Work) :=
  workers.filterMap Worker.lease?

def outcomesOf (workers : List (Worker Work)) : List TaskOutcome :=
  workers.filterMap Worker.outcome?

section Workers

variable (others : List (Worker Work))

@[simp]
theorem leasesOf_ready : leasesOf (.ready :: others) = leasesOf others := rfl

@[simp]
theorem leasesOf_parked : leasesOf (.parked :: others) = leasesOf others := rfl

@[simp]
theorem leasesOf_stopped : leasesOf (.stopped :: others) = leasesOf others := rfl

@[simp]
theorem leasesOf_running (lease : TaskLease Work) :
    leasesOf (.running lease :: others) = lease :: leasesOf others := rfl

@[simp]
theorem leasesOf_reporting (outcome : TaskOutcome) :
    leasesOf (.reporting outcome :: others) = leasesOf others := rfl

@[simp]
theorem outcomesOf_ready : outcomesOf (.ready :: others) = outcomesOf others := rfl

@[simp]
theorem outcomesOf_parked : outcomesOf (.parked :: others) = outcomesOf others := rfl

@[simp]
theorem outcomesOf_stopped : outcomesOf (.stopped :: others) = outcomesOf others := rfl

@[simp]
theorem outcomesOf_running (lease : TaskLease Work) :
    outcomesOf (.running lease :: others) = outcomesOf others := rfl

@[simp]
theorem outcomesOf_reporting (outcome : TaskOutcome) :
    outcomesOf (.reporting outcome :: others) = outcome :: outcomesOf others := rfl

@[simp]
theorem lease?_notified (worker : Worker Work) : worker.notified.lease? = worker.lease? := by
  cases worker <;> rfl

@[simp]
theorem outcome?_notified (worker : Worker Work) :
    worker.notified.outcome? = worker.outcome? := by
  cases worker <;> rfl

@[simp]
theorem leasesOf_notified : leasesOf (others.map Worker.notified) = leasesOf others := by
  simp [leasesOf, filterMap_map]

@[simp]
theorem outcomesOf_notified : outcomesOf (others.map Worker.notified) = outcomesOf others := by
  simp [outcomesOf, filterMap_map]

theorem parked_notMem_notified : Worker.parked ∉ others.map Worker.notified := by
  intro member
  rcases mem_map.mp member with ⟨worker, -, same⟩
  cases worker <;> simp [Worker.notified] at same

theorem stopped_mem_notified :
    Worker.stopped ∈ others.map Worker.notified ↔ Worker.stopped ∈ others := by
  constructor
  · intro member
    rcases mem_map.mp member with ⟨worker, workerMem, same⟩
    cases worker <;> simp [Worker.notified] at same
    exact workerMem
  · intro member
    exact mem_map.mpr ⟨.stopped, member, rfl⟩

/-- The worker at an index may be taken for the first one. -/
theorem exists_head {workers : List (Worker Work)} {index : Nat} {worker : Worker Work}
    (placed : workers[index]? = some worker) :
    ∃ others, workers.Perm (worker :: others) ∧
      ∀ next, (workers.set index next).Perm (next :: others) := by
  rcases List.getElem?_eq_some_iff.mp placed with ⟨inRange, rfl⟩
  refine ⟨workers.eraseIdx index, (getElem_cons_eraseIdx_perm inRange).symm, ?_⟩
  intro next
  have inSet : index < (workers.set index next).length := by simpa using inRange
  have moved := (getElem_cons_eraseIdx_perm inSet).symm
  simpa [eraseIdx_set_eq] using moved

end Workers

/-- How many of the leases are for a volume. -/
def activeOn (leases : List (TaskLease Work)) (volume : VolumeId) : Nat :=
  leases.countP fun lease => lease.task.job.volume = some volume

theorem activeOn_cons (lease : TaskLease Work) (leases : List (TaskLease Work))
    (volume : VolumeId) :
    activeOn (lease :: leases) volume =
      activeOn leases volume + if lease.task.job.volume = some volume then 1 else 0 := by
  simp [activeOn, countP_cons]

/-- The entry of a counter map that keeps no zero. -/
def volumeEntry (count : Nat) : Option Nat := if count = 0 then none else some count

@[simp]
theorem volumeEntry_zero : volumeEntry 0 = none := rfl

@[simp]
theorem volumeEntry_succ (count : Nat) : volumeEntry (count + 1) = some (count + 1) := rfl

@[simp]
theorem volumeEntry_getD (count : Nat) : (volumeEntry count).getD 0 = count := by
  cases count <;> rfl

structure IsolatedInvariant (policy : VolumeConcurrencyPolicy) (tasks : List (TaskOf Work))
    (queue : IsolatedState Work) (workers : List (Worker Work)) (outcomes : List TaskOutcome) :
    Prop where
  staffed : workers ≠ []
  conserved : ((queue.pending ++ (leasesOf workers).map TaskLease.task).map TaskOf.entry ++
    (outcomesOf workers ++ outcomes).map TaskOutcome.entry).Perm (tasks.map TaskOf.entry)
  completed : ∀ id ∈ queue.completed,
    ∃ outcome ∈ outcomesOf workers ++ outcomes, outcome.id = id ∧ outcome.status = .completed
  dependencies : ∀ lease ∈ leasesOf workers, ∀ dependency ∈ lease.task.job.dependencies,
    ∃ outcome ∈ outcomesOf workers ++ outcomes,
      outcome.id = dependency ∧ outcome.status = .completed
  active : ∀ id ∈ queue.active, ∃ lease ∈ leasesOf workers, lease.task.job.id = id
  located : ∀ lease ∈ leasesOf workers, lease.volume = lease.task.job.volume
  counted : ∀ volume,
    queue.activeByVolume volume = volumeEntry (activeOn (leasesOf workers) volume)
  bounded : ∀ volume, activeOn (leasesOf workers) volume ≤ policy.limitFor volume
  parked : Worker.parked ∈ workers → leasesOf workers ≠ []
  stopped : Worker.stopped ∈ workers → queue.pending = []

namespace IsolatedInvariant

variable {policy : VolumeConcurrencyPolicy} {fairness : JobFairnessPolicy}
  {tasks : List (TaskOf Work)} {queue : IsolatedState Work} {outcomes : List TaskOutcome}
  {workers others : List (Worker Work)}

/-- The invariant does not tell the workers apart. -/
theorem of_perm {reordered : List (Worker Work)} (same : workers.Perm reordered)
    (invariant : IsolatedInvariant policy tasks queue workers outcomes) :
    IsolatedInvariant policy tasks queue reordered outcomes := by
  have leases : (leasesOf workers).Perm (leasesOf reordered) := same.filterMap _
  have reports : (outcomesOf workers ++ outcomes).Perm (outcomesOf reordered ++ outcomes) :=
    (same.filterMap _).append_right _
  have sameCount : ∀ volume, activeOn (leasesOf reordered) volume =
      activeOn (leasesOf workers) volume := fun volume => (leases.countP_eq _).symm
  constructor
  · intro empty
    subst empty
    exact invariant.staffed (perm_nil.mp same)
  · exact ((((leases.map _).append_left _).map _).append (reports.map _)).symm.trans
      invariant.conserved
  · intro id idMem
    rcases invariant.completed id idMem with ⟨outcome, outcomeMem, found⟩
    exact ⟨outcome, reports.mem_iff.mp outcomeMem, found⟩
  · intro lease leaseMem dependency dependencyMem
    rcases invariant.dependencies lease (leases.mem_iff.mpr leaseMem) dependency dependencyMem with
      ⟨outcome, outcomeMem, found⟩
    exact ⟨outcome, reports.mem_iff.mp outcomeMem, found⟩
  · intro id idMem
    rcases invariant.active id idMem with ⟨lease, leaseMem, found⟩
    exact ⟨lease, leases.mem_iff.mp leaseMem, found⟩
  · intro lease leaseMem
    exact invariant.located lease (leases.mem_iff.mpr leaseMem)
  · intro volume
    rw [sameCount]
    exact invariant.counted volume
  · intro volume
    rw [sameCount]
    exact invariant.bounded volume
  · intro waiting empty
    exact invariant.parked (same.mem_iff.mpr waiting) (perm_nil.mp (empty ▸ leases))
  · intro member
    exact invariant.stopped (same.mem_iff.mpr member)

/-- A worker that changes neither the queue nor what it holds keeps the invariant. -/
theorem replace {worker next : Worker Work}
    (invariant : IsolatedInvariant policy tasks queue (worker :: others) outcomes)
    (sameLease : next.lease? = worker.lease?) (sameOutcome : next.outcome? = worker.outcome?)
    (mayPark : next = .parked → leasesOf others ≠ [])
    (mayStop : next = .stopped → queue.pending = []) :
    IsolatedInvariant policy tasks queue (next :: others) outcomes := by
  have leases : leasesOf (next :: others) = leasesOf (worker :: others) := by
    simp only [leasesOf, filterMap_cons, sameLease]
  have reports : outcomesOf (next :: others) = outcomesOf (worker :: others) := by
    simp only [outcomesOf, filterMap_cons, sameOutcome]
  have more : leasesOf others ≠ [] → leasesOf (next :: others) ≠ [] := by
    intro nonempty
    cases next <;> simp [nonempty]
  refine ⟨by simp, ?_, ?_, ?_, ?_, ?_, ?_, ?_, ?_, ?_⟩
  · rw [leases, reports]
    exact invariant.conserved
  · rw [reports]
    exact invariant.completed
  · rw [leases, reports]
    exact invariant.dependencies
  · rw [leases]
    exact invariant.active
  · rw [leases]
    exact invariant.located
  · rw [leases]
    exact invariant.counted
  · rw [leases]
    exact invariant.bounded
  · intro member
    rcases mem_cons.mp member with same | member
    · exact more (mayPark same.symm)
    · rw [leases]
      exact invariant.parked (mem_cons_of_mem _ member)
  · intro member
    rcases mem_cons.mp member with same | member
    · exact mayStop same.symm
    · exact invariant.stopped (mem_cons_of_mem _ member)

theorem pending_perm {index : Nat} {task : TaskOf Work}
    (placed : queue.pending[index]? = some task) :
    queue.pending.Perm (task :: queue.pending.eraseIdx index) := by
  rcases List.getElem?_eq_some_iff.mp placed with ⟨inRange, rfl⟩
  exact (getElem_cons_eraseIdx_perm inRange).symm

theorem run {index cursor : Nat} {task : TaskOf Work} {volume : Option VolumeId}
    (placed : queue.pending[index]? = some task)
    (satisfied : queue.dependenciesCompleted task.job = true)
    (room : queue.admissibleVolume task.job policy = some volume)
    (invariant : IsolatedInvariant policy tasks queue (.ready :: others) outcomes) :
    IsolatedInvariant policy tasks (queue.lease index volume cursor task)
      (.running ⟨task, volume⟩ :: others) outcomes := by
  rcases admissibleVolume_some room with ⟨rfl, below⟩
  have counted := invariant.counted
  have bounded := invariant.bounded
  simp only [leasesOf_ready] at counted bounded
  refine ⟨by simp, ?_, ?_, ?_, ?_, ?_, ?_, ?_, ?_, ?_⟩
  · refine List.Perm.trans ?_ invariant.conserved
    simp only [lease, leasesOf_running, leasesOf_ready, outcomesOf_running, outcomesOf_ready]
    apply List.Perm.append_right
    apply List.Perm.map
    exact perm_middle.trans ((pending_perm placed).symm.append_right _)
  · exact invariant.completed
  · intro lease leaseMem
    rcases mem_cons.mp leaseMem with rfl | leaseMem
    · intro dependency dependencyMem
      exact invariant.completed dependency (dependenciesCompleted_iff.mp satisfied _ dependencyMem)
    · exact invariant.dependencies lease leaseMem
  · intro id idMem
    rcases Finset.mem_insert.mp idMem with rfl | idMem
    · exact ⟨⟨task, task.job.volume⟩, mem_cons_self, rfl⟩
    · rcases invariant.active id idMem with ⟨lease, leaseMem, found⟩
      exact ⟨lease, mem_cons_of_mem _ leaseMem, found⟩
  · intro lease leaseMem
    rcases mem_cons.mp leaseMem with rfl | leaseMem
    · rfl
    · exact invariant.located lease leaseMem
  · intro used
    rw [leasesOf_running, activeOn_cons]
    cases located : task.job.volume with
    | none => simpa [lease, located] using counted used
    | some own =>
        by_cases same : own = used
        · subst same
          simp [lease, counted own]
        · simpa [lease, located, same, Function.update_of_ne (Ne.symm same)] using counted used
  · intro used
    rw [leasesOf_running, activeOn_cons]
    by_cases own : task.job.volume = some used
    · have room := below used own
      rw [counted used, volumeEntry_getD] at room
      simpa [own] using room
    · simpa [own] using bounded used
  · intro _
    simp
  · intro member
    rcases mem_cons.mp member with impossible | member
    · exact absurd impossible (by simp)
    · have empty := invariant.stopped (mem_cons_of_mem _ member)
      simp [lease, empty]

theorem blocked {index : Nat} {task : TaskOf Work} {message : String}
    (placed : queue.pending[index]? = some task)
    (invariant : IsolatedInvariant policy tasks queue (.ready :: others) outcomes) :
    IsolatedInvariant policy tasks
      { queue with
        pending := queue.pending.eraseIdx index, failed := insert task.job.id queue.failed }
      (.reporting ⟨task.job.id, task.job.label, .failed message⟩ :: others) outcomes := by
  have later : ∀ outcome ∈ outcomesOf others ++ outcomes,
      outcome ∈ outcomesOf (.reporting ⟨task.job.id, task.job.label, .failed message⟩ :: others) ++
        outcomes := fun outcome member => mem_cons_of_mem _ member
  refine ⟨by simp, ?_, ?_, ?_, invariant.active, invariant.located, invariant.counted,
    invariant.bounded, ?_, ?_⟩
  · refine List.Perm.trans ?_ invariant.conserved
    simp only [leasesOf_reporting, leasesOf_ready, outcomesOf_reporting, outcomesOf_ready,
      cons_append, map_cons]
    refine perm_middle.trans ?_
    rw [← cons_append]
    apply List.Perm.append_right
    exact ((pending_perm placed).symm.append_right _).map TaskOf.entry
  · intro id idMem
    rcases invariant.completed id idMem with ⟨outcome, outcomeMem, found⟩
    exact ⟨outcome, later outcome outcomeMem, found⟩
  · intro lease leaseMem dependency dependencyMem
    rcases invariant.dependencies lease leaseMem dependency dependencyMem with
      ⟨outcome, outcomeMem, found⟩
    exact ⟨outcome, later outcome outcomeMem, found⟩
  · intro member
    rcases mem_cons.mp member with impossible | member
    · exact absurd impossible (by simp)
    · exact invariant.parked (mem_cons_of_mem _ member)
  · intro member
    rcases mem_cons.mp member with impossible | member
    · exact absurd impossible (by simp)
    · have empty := invariant.stopped (mem_cons_of_mem _ member)
      simp [empty]

theorem finish {lease : TaskLease Work} {status : TaskStatus} {after : IsolatedState Work}
    (released : queue.release lease.task.job lease.volume status = some after)
    (invariant : IsolatedInvariant policy tasks queue (.running lease :: others) outcomes) :
    IsolatedInvariant policy tasks after
      (.reporting ⟨lease.task.job.id, lease.task.job.label, status⟩ ::
        others.map Worker.notified) outcomes := by
  rcases release_some released with ⟨samePending, sameActive, sameCompleted, sameCounts⟩
  have located := invariant.located lease mem_cons_self
  have later : ∀ outcome ∈ outcomesOf others ++ outcomes,
      outcome ∈ ⟨lease.task.job.id, lease.task.job.label, status⟩ :: outcomesOf others ++
        outcomes := fun outcome member => mem_cons_of_mem _ member
  have bounded := invariant.bounded
  have counted := invariant.counted
  simp only [leasesOf_running, activeOn_cons] at bounded counted
  refine ⟨by simp, ?_, ?_, ?_, ?_, ?_, ?_, ?_, ?_, ?_⟩
  · refine List.Perm.trans ?_ invariant.conserved
    simp only [samePending, leasesOf_reporting, leasesOf_notified, leasesOf_running,
      outcomesOf_reporting, outcomesOf_notified, outcomesOf_running, cons_append,
      map_cons, map_append, append_assoc]
    apply List.Perm.append_left
    exact perm_middle
  · intro id idMem
    rw [sameCompleted] at idMem
    simp only [outcomesOf_reporting, outcomesOf_notified]
    rcases mem_completed_recordStatus idMem with before | ⟨rfl, rfl⟩
    · rcases invariant.completed id before with ⟨outcome, outcomeMem, found⟩
      exact ⟨outcome, later outcome outcomeMem, found⟩
    · exact ⟨_, mem_cons_self, rfl, rfl⟩
  · intro other otherMem dependency dependencyMem
    simp only [leasesOf_reporting, leasesOf_notified] at otherMem
    simp only [outcomesOf_reporting, outcomesOf_notified]
    rcases invariant.dependencies other (mem_cons_of_mem _ otherMem) dependency
      dependencyMem with ⟨outcome, outcomeMem, found⟩
    exact ⟨outcome, later outcome outcomeMem, found⟩
  · intro id idMem
    rw [sameActive] at idMem
    simp only [leasesOf_reporting, leasesOf_notified]
    rcases Finset.mem_erase.mp idMem with ⟨different, before⟩
    rcases invariant.active id before with ⟨other, otherMem, found⟩
    rcases mem_cons.mp otherMem with rfl | otherMem
    · exact absurd found.symm different
    · exact ⟨other, otherMem, found⟩
  · intro other otherMem
    simp only [leasesOf_reporting, leasesOf_notified] at otherMem
    exact invariant.located other (mem_cons_of_mem _ otherMem)
  · intro used
    simp only [leasesOf_reporting, leasesOf_notified]
    rw [sameCounts used, counted used, located]
    by_cases own : lease.task.job.volume = some used
    · simp only [own, if_true, volumeEntry_succ, Option.bind_some, Nat.add_sub_cancel]
      rfl
    · simp [own]
  · intro used
    simp only [leasesOf_reporting, leasesOf_notified]
    exact (Nat.le_add_right _ _).trans (bounded used)
  · intro member
    rcases mem_cons.mp member with impossible | member
    · exact absurd impossible (by simp)
    · exact absurd member (parked_notMem_notified others)
  · intro member
    rcases mem_cons.mp member with impossible | member
    · exact absurd impossible (by simp)
    · rw [samePending]
      exact invariant.stopped
        (mem_cons_of_mem _ ((stopped_mem_notified others).mp member))

theorem report {outcome : TaskOutcome}
    (invariant : IsolatedInvariant policy tasks queue (.reporting outcome :: others) outcomes) :
    IsolatedInvariant policy tasks queue (.ready :: others) (outcomes ++ [outcome]) := by
  have reports : (outcomesOf (.reporting outcome :: others) ++ outcomes).Perm
      (outcomesOf (.ready :: others) ++ (outcomes ++ [outcome])) := by
    rw [outcomesOf_reporting, outcomesOf_ready, ← append_assoc]
    exact (perm_append_singleton _ _).symm
  refine ⟨by simp, ?_, ?_, ?_, invariant.active, invariant.located, invariant.counted,
    invariant.bounded, ?_, ?_⟩
  · exact ((reports.map TaskOutcome.entry).symm.append_left _).trans invariant.conserved
  · intro id idMem
    rcases invariant.completed id idMem with ⟨found, foundMem, same⟩
    exact ⟨found, reports.mem_iff.mp foundMem, same⟩
  · intro lease leaseMem dependency dependencyMem
    rcases invariant.dependencies lease leaseMem dependency dependencyMem with
      ⟨found, foundMem, same⟩
    exact ⟨found, reports.mem_iff.mp foundMem, same⟩
  · intro member
    rcases mem_cons.mp member with impossible | member
    · exact absurd impossible (by simp)
    · exact invariant.parked (mem_cons_of_mem _ member)
  · intro member
    rcases mem_cons.mp member with impossible | member
    · exact absurd impossible (by simp)
    · exact invariant.stopped (mem_cons_of_mem _ member)

end IsolatedInvariant

end Gfm.Jobs

import Gfm.Jobs.IsolatedSafety

/-!
# Runs of the isolated task queue

Every event keeps the invariant, so it holds after every run of any number of
workers. Waiting and waking aside, every event uses up some of the work that
is left, and until all workers have stopped there is always such an event: no
worker is left to wait for nothing. When all have stopped, every task has been
reported exactly once.
-/

namespace Gfm.Jobs

open IsolatedState List

variable {Work : Type} {policy : VolumeConcurrencyPolicy} {fairness : JobFairnessPolicy}
  {tasks : List (TaskOf Work)}

namespace IsolatedSystem

def leases (system : IsolatedSystem Work) : List (TaskLease Work) := leasesOf system.workers

/-- The outcomes made so far, pushed to the shared list or about to be. -/
def reported (system : IsolatedSystem Work) : List TaskOutcome :=
  outcomesOf system.workers ++ system.outcomes

def Invariant (policy : VolumeConcurrencyPolicy) (tasks : List (TaskOf Work))
    (system : IsolatedSystem Work) : Prop :=
  IsolatedInvariant policy tasks system.queue system.workers system.outcomes

theorem invariant_start (policy : VolumeConcurrencyPolicy) (tasks : List (TaskOf Work))
    {workers : Nat} (staffed : 0 < workers) : (start tasks workers).Invariant policy tasks := by
  have noLease : leasesOf (List.replicate workers (.ready : Worker Work)) = [] := by
    simp [leasesOf, Worker.lease?]
  have noOutcome : outcomesOf (List.replicate workers (.ready : Worker Work)) = [] := by
    simp [outcomesOf, Worker.outcome?]
  refine ⟨?_, ?_, ?_, ?_, ?_, ?_, ?_, ?_, ?_, ?_⟩ <;>
    simp [start, IsolatedState.new, noLease, noOutcome, activeOn]
  omega

/-- What an event does, to a worker that may be taken for the first one. -/
theorem step_cases {system after : IsolatedSystem Work} {event : WorkerEvent}
    (taken : system.step policy fairness event = some after) :
    ∃ index worker others next rest, system.workers.Perm (worker :: others) ∧
      after.workers.Perm (next :: rest) ∧
      ((event = .next index ∧ worker = .ready ∧ rest = others ∧
          after.outcomes = system.outcomes ∧
          (afterNext (system.queue.next fairness.admissionOrder policy).1, after.queue) =
            (next, (system.queue.next fairness.admissionOrder policy).2)) ∨
        (∃ lease status, worker = .running lease ∧ rest = others.map Worker.notified ∧
          next = .reporting ⟨lease.task.job.id, lease.task.job.label, status⟩ ∧
          system.queue.release lease.task.job lease.volume status = some after.queue ∧
          after.outcomes = system.outcomes) ∨
        (∃ outcome, worker = .reporting outcome ∧ next = .ready ∧ rest = others ∧
          after.queue = system.queue ∧ after.outcomes = system.outcomes ++ [outcome]) ∨
        (event = .wake index ∧ worker = .parked ∧ next = .ready ∧ rest = others ∧
          after.queue = system.queue ∧ after.outcomes = system.outcomes)) := by
  cases event with
  | next index =>
      simp only [step] at taken
      split at taken
      · rename_i placed
        rcases exists_head placed with ⟨others, before, changed⟩
        cases taken
        exact ⟨index, _, others, _, others, before, changed _, Or.inl ⟨rfl, rfl, rfl, rfl, rfl⟩⟩
      · exact absurd taken (by simp)
  | finish index status =>
      simp only [step] at taken
      split at taken
      · rename_i lease placed
        rcases exists_head placed with ⟨others, before, -⟩
        have notified : (system.workers.map Worker.notified)[index]? = some (.running lease) := by
          simp [placed, Worker.notified]
        simp only [Option.bind_eq_bind, Option.bind_eq_some_iff, Option.some.injEq] at taken
        rcases taken with ⟨queue, released, rfl⟩
        rcases exists_head notified with ⟨rest, same, changed⟩
        have sameRest : rest.Perm (others.map Worker.notified) :=
          List.Perm.cons_inv (same.symm.trans (before.map Worker.notified))
        exact ⟨index, _, others, _, _, before, (changed _).trans (sameRest.cons _),
          Or.inr (Or.inl ⟨lease, status, rfl, rfl, rfl, released, rfl⟩)⟩
      · exact absurd taken (by simp)
  | report index =>
      simp only [step] at taken
      split at taken
      · rename_i outcome placed
        rcases exists_head placed with ⟨others, before, changed⟩
        cases taken
        exact ⟨index, _, others, _, others, before, changed _,
          Or.inr (Or.inr (Or.inl ⟨outcome, rfl, rfl, rfl, rfl, rfl⟩))⟩
      · exact absurd taken (by simp)
  | wake index =>
      simp only [step] at taken
      split at taken
      · rename_i placed
        rcases exists_head placed with ⟨others, before, changed⟩
        cases taken
        exact ⟨index, _, others, _, others, before, changed _,
          Or.inr (Or.inr (Or.inr ⟨rfl, rfl, rfl, rfl, rfl, rfl⟩))⟩
      · exact absurd taken (by simp)

/-- Without a lease, nobody has to wait. -/
theorem Invariant.next_ne_wait {system : IsolatedSystem Work}
    (invariant : system.Invariant policy tasks) (idle : system.leases = []) :
    (system.queue.next fairness.admissionOrder policy).1 ≠ .wait := by
  have noLease : leasesOf system.workers = [] := idle
  apply IsolatedState.next_ne_wait
  · apply Finset.eq_empty_of_forall_notMem
    intro id member
    rcases invariant.active id member with ⟨lease, leaseMem, -⟩
    simp [noLease] at leaseMem
  · intro volume
    rw [invariant.counted volume, noLease]
    rfl

theorem invariant_step {system after : IsolatedSystem Work} {event : WorkerEvent}
    (invariant : system.Invariant policy tasks)
    (taken : system.step policy fairness event = some after) : after.Invariant policy tasks := by
  rcases step_cases taken with ⟨index, worker, others, next, rest, before, changed, action⟩
  have head : IsolatedInvariant policy tasks system.queue (worker :: others) system.outcomes :=
    IsolatedInvariant.of_perm before invariant
  apply IsolatedInvariant.of_perm changed.symm
  rcases action with ⟨-, rfl, rfl, sameOutcomes, result⟩ |
    ⟨lease, status, rfl, rfl, rfl, released, sameOutcomes⟩ |
    ⟨outcome, rfl, rfl, rfl, sameQueue, moreOutcomes⟩ |
    ⟨-, rfl, rfl, rfl, sameQueue, sameOutcomes⟩
  · rw [sameOutcomes]
    rcases next_cases system.queue policy fairness.admissionOrder with
      ⟨index, task, volume, cursor, placed, satisfied, room, same⟩ |
        ⟨index, task, message, placed, same⟩ | ⟨empty, same⟩ | ⟨-, -, -, same⟩
    · simp only [same, afterNext, Prod.mk.injEq] at result
      rcases result with ⟨rfl, sameQueue⟩
      rw [sameQueue]
      exact head.run placed satisfied room
    · simp only [same, afterNext, Prod.mk.injEq] at result
      rcases result with ⟨rfl, sameQueue⟩
      rw [sameQueue]
      exact head.blocked placed
    · simp only [same, afterNext, Prod.mk.injEq] at result
      rcases result with ⟨rfl, sameQueue⟩
      rw [sameQueue]
      exact head.replace rfl rfl (by simp) fun _ => empty
    · have waits := same
      simp only [same, afterNext, Prod.mk.injEq] at result
      rcases result with ⟨rfl, sameQueue⟩
      rw [sameQueue]
      refine head.replace rfl rfl (fun _ idle => ?_) (by simp)
      have noLease : leasesOf system.workers = [] :=
        perm_nil.mp (idle ▸ before.filterMap Worker.lease?)
      exact invariant.next_ne_wait noLease (by rw [waits])
  · rw [sameOutcomes]
    exact head.finish released
  · rw [sameQueue, moreOutcomes]
    exact head.report
  · rw [sameQueue, sameOutcomes]
    exact head.replace rfl rfl (by simp) (by simp)

theorem invariant_run {system after : IsolatedSystem Work} {events : List WorkerEvent}
    (invariant : system.Invariant policy tasks)
    (taken : system.run policy fairness events = some after) : after.Invariant policy tasks := by
  induction events generalizing system with
  | nil =>
      cases taken
      exact invariant
  | cons event events ih =>
      simp only [run, Option.bind_eq_some_iff] at taken
      rcases taken with ⟨between, first, others⟩
      exact ih (invariant_step invariant first) others

section Progress

def unstopped : Worker Work → Bool
  | .stopped => false
  | _ => true

/-- The work that is left: it bounds the events other than waiting and waking. -/
def workLeft (queue : IsolatedState Work) (workers : List (Worker Work)) : Nat :=
  3 * queue.pending.length + 2 * (leasesOf workers).length + (outcomesOf workers).length +
    workers.countP unstopped

def work (system : IsolatedSystem Work) : Nat := workLeft system.queue system.workers

theorem workLeft_perm (queue : IsolatedState Work) {workers reordered : List (Worker Work)}
    (same : workers.Perm reordered) : workLeft queue workers = workLeft queue reordered := by
  have leases : (leasesOf workers).length = (leasesOf reordered).length :=
    (same.filterMap _).length_eq
  have reports : (outcomesOf workers).length = (outcomesOf reordered).length :=
    (same.filterMap _).length_eq
  rw [workLeft, workLeft, leases, reports, same.countP_eq]

theorem countP_unstopped_notified (workers : List (Worker Work)) :
    (workers.map Worker.notified).countP unstopped = workers.countP unstopped := by
  rw [countP_map]
  apply countP_congr
  intro worker _
  cases worker <;> rfl

theorem length_eraseIdx_of_getElem? {items : List (TaskOf Work)} {index : Nat}
    {task : TaskOf Work} (placed : items[index]? = some task) :
    (items.eraseIdx index).length + 1 = items.length := by
  rcases List.getElem?_eq_some_iff.mp placed with ⟨inRange, -⟩
  rw [length_eraseIdx_of_lt inRange]
  omega

/-- An event uses up some of the work that is left, or a worker waits or wakes. -/
theorem step_work {system after : IsolatedSystem Work} {event : WorkerEvent}
    (taken : system.step policy fairness event = some after) :
    after.work < system.work ∨
      (after.work = system.work ∧ ∃ index, event = .wake index ∨
        (event = .next index ∧
          (system.queue.next fairness.admissionOrder policy).1 = .wait)) := by
  rcases step_cases taken with ⟨index, worker, others, next, rest, before, changed, action⟩
  rw [work, work, workLeft_perm _ before, workLeft_perm _ changed]
  rcases action with ⟨called, rfl, rfl, -, result⟩ | ⟨lease, status, rfl, rfl, rfl, released, -⟩ |
    ⟨outcome, rfl, rfl, rfl, sameQueue, -⟩ | ⟨woken, rfl, rfl, rfl, sameQueue, -⟩
  · rcases next_cases system.queue policy fairness.admissionOrder with
      ⟨position, task, volume, cursor, placed, -, -, same⟩ |
        ⟨position, task, message, placed, same⟩ | ⟨-, same⟩ | ⟨-, -, -, same⟩
    · left
      simp only [same, afterNext, Prod.mk.injEq] at result
      rcases result with ⟨rfl, sameQueue⟩
      have fewer := length_eraseIdx_of_getElem? placed
      simp only [workLeft, sameQueue, lease, leasesOf_running, leasesOf_ready,
        outcomesOf_running, outcomesOf_ready, length_cons, countP_cons, unstopped]
      omega
    · left
      simp only [same, afterNext, Prod.mk.injEq] at result
      rcases result with ⟨rfl, sameQueue⟩
      have fewer := length_eraseIdx_of_getElem? placed
      simp only [workLeft, sameQueue, leasesOf_reporting, leasesOf_ready,
        outcomesOf_reporting, outcomesOf_ready, length_cons, countP_cons, unstopped]
      omega
    · left
      simp only [same, afterNext, Prod.mk.injEq] at result
      rcases result with ⟨rfl, sameQueue⟩
      simp [workLeft, sameQueue, countP_cons, unstopped]
    · right
      have waits := same
      simp only [same, afterNext, Prod.mk.injEq] at result
      rcases result with ⟨rfl, sameQueue⟩
      refine ⟨?_, index, Or.inr ⟨called, by rw [waits]⟩⟩
      simp [workLeft, sameQueue, countP_cons, unstopped]
  · left
    rcases release_some released with ⟨samePending, -⟩
    simp only [workLeft, samePending, leasesOf_reporting, leasesOf_notified, leasesOf_running,
      outcomesOf_reporting, outcomesOf_notified, outcomesOf_running, length_cons,
      countP_cons, countP_unstopped_notified, unstopped]
    omega
  · left
    simp only [workLeft, sameQueue, leasesOf_ready, leasesOf_reporting, outcomesOf_ready,
      outcomesOf_reporting, length_cons, countP_cons, unstopped]
    omega
  · right
    refine ⟨?_, index, Or.inl woken⟩
    simp [workLeft, sameQueue, countP_cons, unstopped]

/-- A lease can always be given back. -/
theorem Invariant.release_isSome {system : IsolatedSystem Work}
    (invariant : system.Invariant policy tasks) {lease : TaskLease Work}
    (member : lease ∈ system.leases) (status : TaskStatus) :
    (system.queue.release lease.task.job lease.volume status).isSome = true := by
  apply IsolatedState.release_isSome
  intro used located
  rw [invariant.located lease member] at located
  have positive : 0 < activeOn (leasesOf system.workers) used :=
    countP_pos_iff.mpr ⟨lease, member, by simpa using located⟩
  rcases Nat.exists_eq_succ_of_ne_zero positive.ne' with ⟨count, same⟩
  exact ⟨count, by rw [invariant.counted used, same]; rfl⟩

/-- Until all workers have stopped, some event uses up work. -/
theorem Invariant.exists_progress {system : IsolatedSystem Work}
    (invariant : system.Invariant policy tasks)
    (unfinished : ∃ worker ∈ system.workers, worker ≠ .stopped) :
    ∃ event after, system.step policy fairness event = some after ∧ after.work < system.work := by
  rcases unfinished with ⟨worker, workerMem, running⟩
  by_cases idle : system.leases = []
  · cases worker with
    | running lease =>
        have leased : lease ∈ system.leases :=
          mem_filterMap.mpr ⟨_, workerMem, rfl⟩
        simp [idle] at leased
    | parked => exact absurd idle (invariant.parked workerMem)
    | stopped => exact absurd rfl running
    | ready =>
        rcases getElem?_of_mem workerMem with ⟨index, placed⟩
        have taken : ∃ after, system.step policy fairness (.next index) = some after := by
          simp [step, placed]
        rcases taken with ⟨after, taken⟩
        refine ⟨_, after, taken, ?_⟩
        rcases step_work taken with less | ⟨-, other, woken | ⟨-, waits⟩⟩
        · exact less
        · exact absurd woken (by simp)
        · exact absurd waits (invariant.next_ne_wait idle)
    | reporting outcome =>
        rcases getElem?_of_mem workerMem with ⟨index, placed⟩
        have taken : ∃ after, system.step policy fairness (.report index) = some after := by
          simp [step, placed]
        rcases taken with ⟨after, taken⟩
        refine ⟨_, after, taken, ?_⟩
        rcases step_work taken with less | ⟨-, other, woken | ⟨called, -⟩⟩
        · exact less
        · exact absurd woken (by simp)
        · exact absurd called (by simp)
  · rcases exists_mem_of_ne_nil _ idle with ⟨lease, leased⟩
    rcases mem_filterMap.mp leased with ⟨holder, holderMem, holds⟩
    have held : holder = .running lease := by
      cases holder <;> simp_all [Worker.lease?]
    rcases getElem?_of_mem holderMem with ⟨index, placed⟩
    rcases Option.isSome_iff_exists.mp (invariant.release_isSome leased .completed) with
      ⟨queue, released⟩
    have taken : ∃ after, system.step policy fairness (.finish index .completed) = some after := by
      simp [step, placed, held, released]
    rcases taken with ⟨after, taken⟩
    refine ⟨_, after, taken, ?_⟩
    rcases step_work taken with less | ⟨-, other, woken | ⟨called, -⟩⟩
    · exact less
    · exact absurd woken (by simp)
    · exact absurd called (by simp)

end Progress

/-- What holds of the queue and its workers after every run. -/
structure Safe (policy : VolumeConcurrencyPolicy) (fairness : JobFairnessPolicy)
    (tasks : List (TaskOf Work)) (system : IsolatedSystem Work) : Prop where
  oneOutcome : ((system.queue.pending ++ system.leases.map TaskLease.task).map TaskOf.entry ++
    system.reported.map TaskOutcome.entry).Perm (tasks.map TaskOf.entry)
  allReported : (∀ worker ∈ system.workers, worker = .stopped) →
    (system.outcomes.map TaskOutcome.entry).Perm (tasks.map TaskOf.entry)
  dependenciesCompleted : ∀ lease ∈ system.leases, ∀ dependency ∈ lease.task.job.dependencies,
    ∃ outcome ∈ system.reported, outcome.id = dependency ∧ outcome.status = .completed
  withinLimit : ∀ volume, activeOn system.leases volume ≤ policy.limitFor volume
  counter : ∀ volume,
    system.queue.activeByVolume volume = volumeEntry (activeOn system.leases volume)
  noPanic : ∀ lease ∈ system.leases, ∀ status,
    (system.queue.release lease.task.job lease.volume status).isSome = true
  noDeadlock : system.leases = [] →
    ¬(system.reported.map TaskOutcome.entry).Perm (tasks.map TaskOf.entry) →
      (system.queue.next fairness.admissionOrder policy).1 ≠ .wait ∧
        ∃ worker ∈ system.workers, worker = .ready ∨ ∃ outcome, worker = .reporting outcome
  progress : (∃ worker ∈ system.workers, worker ≠ .stopped) →
    ∃ event after, system.step policy fairness event = some after ∧ after.work < system.work

theorem Invariant.safe {system : IsolatedSystem Work}
    (invariant : system.Invariant policy tasks) : system.Safe policy fairness tasks := by
  refine ⟨invariant.conserved, ?_, invariant.dependencies, invariant.bounded, invariant.counted,
    fun lease => invariant.release_isSome, ?_, invariant.exists_progress⟩
  · intro allStopped
    have noLease : leasesOf system.workers = [] := by
      apply filterMap_eq_nil_iff.mpr
      intro worker workerMem
      rw [allStopped worker workerMem]
      rfl
    have noReport : outcomesOf system.workers = [] := by
      apply filterMap_eq_nil_iff.mpr
      intro worker workerMem
      rw [allStopped worker workerMem]
      rfl
    rcases exists_mem_of_ne_nil _ invariant.staffed with ⟨worker, workerMem⟩
    have empty := invariant.stopped (allStopped worker workerMem ▸ workerMem)
    simpa [noLease, noReport, empty] using invariant.conserved
  · intro idle missing
    refine ⟨invariant.next_ne_wait idle, ?_⟩
    rcases exists_mem_of_ne_nil _ invariant.staffed with ⟨worker, workerMem⟩
    cases worker with
    | ready => exact ⟨_, workerMem, Or.inl rfl⟩
    | reporting outcome => exact ⟨_, workerMem, Or.inr ⟨outcome, rfl⟩⟩
    | parked => exact absurd idle (invariant.parked workerMem)
    | running lease =>
        have leased : lease ∈ system.leases := mem_filterMap.mpr ⟨_, workerMem, rfl⟩
        simp [idle] at leased
    | stopped =>
        have noLease : leasesOf system.workers = [] := idle
        have all := invariant.conserved
        rw [invariant.stopped workerMem, noLease] at all
        exact absurd (by simpa [reported] using all) missing

theorem Invariant.exists_stopped {system : IsolatedSystem Work}
    (invariant : system.Invariant policy tasks) :
    ∃ events final, system.run policy fairness events = some final ∧
      final.Invariant policy tasks ∧ ∀ worker ∈ final.workers, worker = .stopped := by
  induction left : system.work using Nat.strong_induction_on generalizing system with
  | _ work ih =>
      by_cases stopped : ∀ worker ∈ system.workers, worker = .stopped
      · exact ⟨[], system, rfl, invariant, stopped⟩
      · rcases invariant.exists_progress (by simpa using stopped) with ⟨event, after, taken, less⟩
        rcases ih _ (left ▸ less) (invariant_step invariant taken) rfl with
          ⟨events, final, others, ends⟩
        exact ⟨event :: events, final, by rw [run, taken]; exact others, ends⟩

/--
The task queue protocol, for every list of tasks, every number of workers and
every interleaving of their events.
-/
theorem isolatedTaskQueue_safe (policy : VolumeConcurrencyPolicy) (fairness : JobFairnessPolicy)
    (tasks : List (TaskOf Work)) {workers : Nat} (staffed : 0 < workers)
    {events : List WorkerEvent} {system : IsolatedSystem Work}
    (taken : (start tasks workers).run policy fairness events = some system) :
    system.Safe policy fairness tasks :=
  (invariant_run (invariant_start policy tasks staffed) taken).safe

/-- Two tasks of one volume, the second of which depends on the first. -/
def chained : List (RetriableTask Unit) :=
  let job := fun (id : Nat) (dependencies : List JobId) =>
    Job.mk ⟨id⟩ .normal .background none "index" (some ⟨1⟩) dependencies ⟨id⟩
  [⟨job 1 [], ()⟩, ⟨job 2 [⟨1⟩], ()⟩]

def chainedEvents : List WorkerEvent :=
  [.next 0, .next 1, .finish 0 .completed, .next 1, .report 0]

theorem isolatedTaskQueue_safe_chained :
    ∃ system,
      (start chained 2).run (VolumeConcurrencyPolicy.new 1) JobFairnessPolicy.new
          chainedEvents = some system ∧
        system.Safe (VolumeConcurrencyPolicy.new 1) JobFairnessPolicy.new chained := by
  have run : ∃ system, (start chained 2).run (VolumeConcurrencyPolicy.new 1)
      JobFairnessPolicy.new chainedEvents = some system := ⟨_, rfl⟩
  rcases run with ⟨system, taken⟩
  exact ⟨system, taken, isolatedTaskQueue_safe _ _ _ (by decide) taken⟩

/-- From wherever the workers of a pool have come, they can go on until all of them have stopped,
and every task has then one outcome. -/
theorem runIsolatedFair_finishes (policy : VolumeConcurrencyPolicy) (fairness : JobFairnessPolicy)
    (pool : WorkerPool) (tasks : List (TaskOf Work)) {events : List WorkerEvent}
    {system : IsolatedSystem Work}
    (taken : (runIsolatedFair pool tasks).run policy fairness events = some system) :
    ∃ more final, system.run policy fairness more = some final ∧
      (∀ worker ∈ final.workers, worker = .stopped) ∧
      (final.outcomes.map TaskOutcome.entry).Perm (tasks.map TaskOf.entry) := by
  cases tasks with
  | nil =>
      have idle : system = start [] 0 := by
        cases events with
        | nil => simpa [runIsolatedFair, run] using taken.symm
        | cons event events => cases event <;> simp [runIsolatedFair, run, step, start] at taken
      subst idle
      exact ⟨[], _, rfl, (fun _ member => nomatch member), .refl _⟩
  | cons task tasks =>
      have staffed := Nat.lt_min.mpr ⟨pool.threads_pos, tasks.length.succ_pos⟩
      rcases (invariant_run (invariant_start policy _ staffed) taken).exists_stopped with
        ⟨more, final, others, invariant, stopped⟩
      have safe : final.Safe policy fairness (task :: tasks) := invariant.safe
      exact ⟨more, final, others, stopped, safe.allReported stopped⟩

theorem runIsolatedFair_finishes_chained : ∃ more final,
    (runIsolatedFair (.new 2) chained).run (.new 1) .new more = some final ∧
      (∀ worker ∈ final.workers, worker = .stopped) ∧
      (final.outcomes.map TaskOutcome.entry).Perm (chained.map TaskOf.entry) :=
  runIsolatedFair_finishes _ _ _ _ (rfl : run _ _ _ [] = _)

end IsolatedSystem

end Gfm.Jobs

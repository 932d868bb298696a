import Gfm.Jobs.Isolated

/-!
# What `next` and `release` can do

`next` has four outcomes. It runs a pending task whose dependencies are
completed and whose volume has room, it fails a pending task, it reports that
nothing is pending, or it makes the worker wait. It waits only if no task may
run and, while nothing is active, only if every pending task has all its
dependencies completed: then a volume without room is all that stands in the
way, and a volume without room is in use.
-/

namespace Gfm.Jobs

open List

namespace IsolatedState

variable {Work : Type} {state : IsolatedState Work} {policy : VolumeConcurrencyPolicy}

theorem dependenciesCompleted_iff {job : Job} :
    state.dependenciesCompleted job = true ↔
      ∀ dependency ∈ job.dependencies, dependency ∈ state.completed := by
  simp [dependenciesCompleted]

theorem admissibleInClass_some {jobClass : JobClass} {index : Nat} {volume : Option VolumeId}
    (found : state.admissibleInClass policy jobClass = some (index, volume)) :
    ∃ task, state.pending[index]? = some task ∧
      state.dependenciesCompleted task.job = true ∧
      state.admissibleVolume task.job policy = some volume := by
  rcases exists_of_findSome?_eq_some found with ⟨⟨task, position⟩, member, admitted⟩
  have placed := mem_zipIdx_iff_getElem?.mp member
  simp only at placed admitted
  split at admitted
  · exact absurd admitted (by simp)
  · rename_i suitable
    simp only [Option.map_eq_some_iff, Prod.mk.injEq] at admitted
    rcases admitted with ⟨room, roomFor, rfl, rfl⟩
    push Not at suitable
    exact ⟨task, placed, suitable.2, roomFor⟩

theorem admissibleInClass_none {jobClass : JobClass}
    (absent : state.admissibleInClass policy jobClass = none) {task : TaskOf Work}
    (member : task ∈ state.pending) (ofClass : task.job.jobClass = jobClass)
    (completed : state.dependenciesCompleted task.job = true) :
    state.admissibleVolume task.job policy = none := by
  rcases getElem?_of_mem member with ⟨index, placed⟩
  have refused := findSome?_eq_none_iff.mp absent (task, index)
    (mem_zipIdx_iff_getElem?.mpr placed)
  simpa [ofClass, completed] using refused

theorem exists_offset {length : Nat} (start : Nat) {cursor : Nat} (inRange : cursor < length) :
    ∃ offset < length, (start + offset) % length = cursor := by
  have positive : 0 < length := by omega
  have reduced := Nat.mod_lt start positive
  refine ⟨(cursor + (length - start % length)) % length, Nat.mod_lt _ positive, ?_⟩
  calc (start + (cursor + (length - start % length)) % length) % length
      = (start % length + (cursor + (length - start % length))) % length := by
        rw [Nat.add_mod_mod, Nat.mod_add_mod]
    _ = (cursor + length) % length := by
        congr 1
        omega
    _ = cursor := by rw [Nat.add_mod_right, Nat.mod_eq_of_lt inRange]

theorem nextAdmissible_some {order : List JobClass} {index cursor : Nat}
    {volume : Option VolumeId}
    (found : state.nextAdmissible order policy = some ((index, volume), cursor)) :
    ∃ task, state.pending[index]? = some task ∧
      state.dependenciesCompleted task.job = true ∧
      state.admissibleVolume task.job policy = some volume := by
  rcases exists_of_findSome?_eq_some found with ⟨offset, -, admitted⟩
  simp only [Option.bind_eq_some_iff, Option.map_eq_some_iff, Prod.mk.injEq] at admitted
  rcases admitted with ⟨jobClass, -, admission, inClass, rfl, rfl⟩
  exact admissibleInClass_some inClass

theorem nextAdmissible_none {order : List JobClass}
    (absent : state.nextAdmissible order policy = none) {task : TaskOf Work}
    (member : task ∈ state.pending) (admitted : task.job.jobClass ∈ order)
    (completed : state.dependenciesCompleted task.job = true) :
    state.admissibleVolume task.job policy = none := by
  rcases getElem?_of_mem admitted with ⟨cursor, placed⟩
  rcases exists_offset state.nextAdmissionClass (List.getElem?_eq_some_iff.mp placed).1
    with ⟨offset, inRange, reached⟩
  have refused := findSome?_eq_none_iff.mp absent offset (mem_range.mpr inRange)
  simp only [reached, placed, Option.bind_some, Option.map_eq_none_iff] at refused
  exact admissibleInClass_none refused member rfl completed

/-- A task that `next` fails is a pending one. -/
theorem removeDependencyBlocked_some {outcome : TaskOutcome} {after : IsolatedState Work}
    (found : state.removeDependencyBlocked = some (outcome, after)) :
    ∃ index task message, state.pending[index]? = some task ∧
      outcome = ⟨task.job.id, task.job.label, .failed message⟩ ∧
      after = { state with
        pending := state.pending.eraseIdx index, failed := insert task.job.id state.failed } := by
  simp only [removeDependencyBlocked, Option.bind_eq_bind, Option.bind_eq_some_iff,
    Option.some.injEq, Prod.mk.injEq] at found
  rcases found with ⟨index, -, task, placed, rfl, rfl⟩
  exact ⟨index, task, _, placed, rfl, rfl⟩

theorem removeDependencyBlocked_none (idle : state.active = ∅)
    (absent : state.removeDependencyBlocked = none) {task : TaskOf Work}
    (member : task ∈ state.pending) : state.dependenciesCompleted task.job = true := by
  have noIndex : state.blockedIndex = none := by
    by_contra present
    rcases Option.ne_none_iff_exists'.mp present with ⟨index, blocked⟩
    have inRange : index < state.pending.length := by
      simp only [blockedIndex, idle, if_true] at blocked
      split at blocked
      · rename_i first
        cases blocked
        exact (findIdx?_eq_some_iff_getElem.mp first).1
      · exact (findIdx?_eq_some_iff_getElem.mp blocked).1
    simp [removeDependencyBlocked, blocked, getElem?_eq_getElem inRange] at absent
  simp only [blockedIndex, idle, if_true] at noIndex
  split at noIndex
  · exact absurd noIndex (by simp)
  · simpa using findIdx?_eq_none_iff.mp noIndex task member

theorem next_cases (state : IsolatedState Work) (policy : VolumeConcurrencyPolicy)
    (order : List JobClass) :
    (∃ index task volume cursor, state.pending[index]? = some task ∧
        state.dependenciesCompleted task.job = true ∧
        state.admissibleVolume task.job policy = some volume ∧
        state.next order policy = (.run ⟨task, volume⟩, state.lease index volume cursor task)) ∨
      (∃ index task message, state.pending[index]? = some task ∧
        state.next order policy =
          (.blocked ⟨task.job.id, task.job.label, .failed message⟩,
            { state with
              pending := state.pending.eraseIdx index,
              failed := insert task.job.id state.failed })) ∨
      (state.pending = [] ∧ state.next order policy = (.drained, state)) ∨
      (state.pending ≠ [] ∧ state.nextAdmissible order policy = none ∧
        state.removeDependencyBlocked = none ∧ state.next order policy = (.wait, state)) := by
  cases admitted : state.nextAdmissible order policy with
  | some found =>
      rcases found with ⟨⟨index, volume⟩, cursor⟩
      rcases nextAdmissible_some admitted with ⟨task, placed, completed, room⟩
      refine Or.inl ⟨index, task, volume, cursor, placed, completed, room, ?_⟩
      simp only [next, admitted, placed]
  | none =>
      right
      cases failing : state.removeDependencyBlocked with
      | some found =>
          rcases found with ⟨outcome, after⟩
          rcases removeDependencyBlocked_some failing with ⟨index, task, message, placed, rfl, rfl⟩
          refine Or.inl ⟨index, task, message, placed, ?_⟩
          simp only [next, admitted, failing]
      | none =>
          right
          by_cases empty : state.pending = []
          · refine Or.inl ⟨empty, ?_⟩
            simp [next, admitted, failing, empty]
          · refine Or.inr ⟨empty, rfl, rfl, ?_⟩
            simp [next, admitted, failing, empty]

theorem admissibleVolume_some {job : Job} {volume : Option VolumeId}
    (room : state.admissibleVolume job policy = some volume) :
    volume = job.volume ∧ ∀ used, job.volume = some used →
      (state.activeByVolume used).getD 0 < policy.limitFor used := by
  simp only [admissibleVolume] at room
  cases located : job.volume with
  | none =>
      simp only [located, Option.some.injEq] at room
      exact ⟨room.symm, by simp⟩
  | some used =>
      simp only [located] at room
      split at room
      · rename_i below
        simp only [Option.some.injEq] at room
        refine ⟨room.symm, ?_⟩
        rintro other ⟨⟩
        exact below
      · exact absurd room (by simp)

theorem admissibleVolume_none {job : Job} (full : state.admissibleVolume job policy = none) :
    ∃ volume, (state.activeByVolume volume).getD 0 ≠ 0 := by
  simp only [admissibleVolume] at full
  cases located : job.volume with
  | none => simp [located] at full
  | some volume =>
      simp only [located] at full
      split at full
      · exact absurd full (by simp)
      · rename_i noRoom
        have positive := policy.limitFor_pos volume
        exact ⟨volume, by omega⟩

/-- With nothing active and no volume in use, `next` does not make a worker wait. -/
theorem next_ne_wait {fairness : JobFairnessPolicy} (idle : state.active = ∅)
    (unused : ∀ volume, state.activeByVolume volume = none) :
    (state.next fairness.admissionOrder policy).1 ≠ .wait := by
  intro waits
  rcases next_cases state policy fairness.admissionOrder with
    ⟨_, _, _, _, -, -, -, same⟩ | ⟨_, _, _, -, same⟩ | ⟨-, same⟩ |
      ⟨nonempty, noneAdmitted, noneBlocked, -⟩
  · simp [same] at waits
  · simp [same] at waits
  · simp [same] at waits
  · rcases exists_mem_of_ne_nil _ nonempty with ⟨task, member⟩
    have full := nextAdmissible_none noneAdmitted member
      (fairness.mem_admissionOrder task.job.jobClass)
      (removeDependencyBlocked_none idle noneBlocked member)
    rcases admissibleVolume_none full with ⟨volume, used⟩
    simp [unused volume] at used

section Release

variable {job : Job} {volume : Option VolumeId} {status : TaskStatus}

@[simp]
theorem pending_recordStatus (id : JobId) :
    (state.recordStatus id status).pending = state.pending := by
  cases status <;> rfl

@[simp]
theorem active_recordStatus (id : JobId) :
    (state.recordStatus id status).active = state.active := by
  cases status <;> rfl

@[simp]
theorem activeByVolume_recordStatus (id : JobId) :
    (state.recordStatus id status).activeByVolume = state.activeByVolume := by
  cases status <;> rfl

theorem mem_completed_recordStatus {id other : JobId}
    (member : other ∈ (state.recordStatus id status).completed) :
    other ∈ state.completed ∨ (other = id ∧ status = .completed) := by
  cases status with
  | started => exact Or.inl member
  | completed =>
      rcases Finset.mem_insert.mp member with same | before
      · exact Or.inr ⟨same, rfl⟩
      · exact Or.inl before
  | cancelled => exact Or.inl (Finset.mem_of_mem_erase member)
  | failed message => exact Or.inl (Finset.mem_of_mem_erase member)

/-- What a release that does not panic does. -/
theorem release_some {after : IsolatedState Work}
    (released : state.release job volume status = some after) :
    after.pending = state.pending ∧ after.active = state.active.erase job.id ∧
      after.completed = (state.recordStatus job.id status).completed ∧
      ∀ used, after.activeByVolume used =
        if volume = some used then
          (state.activeByVolume used).bind fun count => if count - 1 = 0 then none else some
          (count - 1)
        else state.activeByVolume used := by
  have sameLedger : ∀ base : IsolatedState Work, base.completed = state.completed →
      (base.recordStatus job.id status).completed =
        (state.recordStatus job.id status).completed := by
    intro base same
    cases status <;> simp [recordStatus, same]
  cases volume with
  | none =>
      simp only [release, releaseVolume, Option.some.injEq] at released
      subst released
      refine ⟨by simp, by simp, sameLedger _ rfl, ?_⟩
      simp
  | some volume =>
      simp only [release, releaseVolume, activeByVolume_recordStatus] at released
      split at released
      · exact absurd released (by simp)
      · exact absurd released (by simp)
      · rename_i count counted
        simp only [Option.some.injEq] at released
        subst released
        refine ⟨by simp, by simp, sameLedger _ rfl, ?_⟩
        intro used
        by_cases same : volume = used
        · subst same
          simp [counted]
        · simp [same, Function.update_of_ne (Ne.symm same)]

theorem release_isSome
    (counted : ∀ used, volume = some used → ∃ count, state.activeByVolume used = some (count + 1)) :
    (state.release job volume status).isSome = true := by
  cases volume with
  | none => rfl
  | some volume =>
      rcases counted volume rfl with ⟨count, present⟩
      simp [release, releaseVolume, present]

end Release

end IsolatedState

end Gfm.Jobs

import Gfm.Lib.SparseIndex
import Gfm.Store.FileIds

/-!
# Reading lists of file ids

What is written for a list of ids, as differences or as runs, decodes to the list in order; the
pieces of a list make up the list.
-/

namespace Gfm.Store

open List Sorted SparseIndex Wire

variable (path : Path)

section Deltas

/-- An id whose numbers have 64 bits. -/
def Fits (id : FileId) : Prop := id.volume.value < 2 ^ 64 ∧ id.node < 2 ^ 64

instance : DecidablePred Fits := fun id =>
  inferInstanceAs (Decidable (id.volume.value < 2 ^ 64 ∧ id.node < 2 ^ 64))

theorem compare_fileId (left right : FileId) :
    compare left right = (compare left.volume.value right.volume.value).then
      (compare left.node right.node) := rfl

theorem isLE_iff {left right : FileId} :
    (compare left right).isLE ↔ left.volume.value < right.volume.value ∨
      (left.volume.value = right.volume.value ∧ left.node ≤ right.node) := by
  rw [compare_fileId, Ordering.isLE_then_iff_or, Nat.compare_eq_lt, Nat.compare_eq_eq,
    Nat.isLE_compare]

theorem eq_lt_iff {left right : FileId} :
    compare left right = .lt ↔ left.volume.value < right.volume.value ∨
      (left.volume.value = right.volume.value ∧ left.node < right.node) := by
  rw [compare_fileId, Ordering.then_eq_lt, Nat.compare_eq_lt, Nat.compare_eq_eq,
    Nat.compare_eq_lt]

theorem decodes_readNumber {value : Nat} (fits : value < 2 ^ 64) :
    Decodes (readNumber path) (writeVarint value) value := decodes_readVarint _ _ fits

theorem decodes_readBytes {bytes : Bytes} (short : bytes.length ≤ isizeMax) :
    Decodes (readBytes path bytes.length) bytes bytes := by
  rw [readBytes, if_neg (Nat.not_lt.mpr short)]
  exact decodes_readExact _ _

theorem decodes_lift {Value : Type} {result : Except Fault Value} {value : Value}
    (known : result = .ok value) : Decodes (liftM result : Reader Fault Value) [] value := by
  intro rest
  rw [known]
  rfl

theorem decodes_readIdAfter {volumeOverflow nodeOverflow : Fault} {previous id : FileId}
    (lower : (compare previous id).isLE) (fits : Fits id) :
    Decodes (readIdAfter path volumeOverflow nodeOverflow previous) (writeIdAfter previous id)
      id := by
  rcases previous with ⟨⟨previousVolume⟩, previousNode⟩
  rcases id with ⟨⟨volume⟩, node⟩
  simp only [isLE_iff] at lower
  simp only [Fits] at fits
  have volumeSum : checkedAdd volumeOverflow previousVolume (volume - previousVolume) =
      .ok volume := by
    have sum : previousVolume + (volume - previousVolume) = volume := by omega
    rw [checkedAdd, sum, if_pos fits.1]
  refine (decodes_readNumber path (Nat.lt_of_le_of_lt (Nat.sub_le _ _) fits.1)).bind ?_
  refine (decodes_lift volumeSum).before ?_
  by_cases same : volume = previousVolume
  · have nodeSum : checkedAdd nodeOverflow previousNode (node - previousNode) = .ok node := by
      have sum : previousNode + (node - previousNode) = node := by omega
      rw [checkedAdd, sum, if_pos fits.2]
    simp only [same, if_true]
    refine (decodes_readNumber path (Nat.lt_of_le_of_lt (Nat.sub_le _ _) fits.2)).andThen ?_
    exact (decodes_lift nodeSum).andThen (Decodes.pure _)
  · have other : ¬(⟨volume⟩ : VolumeId) = ⟨previousVolume⟩ := fun equal =>
      same (congrArg VolumeId.value equal)
    simp only [same, other, if_false]
    exact (decodes_readNumber path fits.2).andThen (Decodes.pure _)

section Chains

variable {volumeOverflow nodeOverflow : Fault}

/-- An id can follow the one before it. -/
def IdFollows (previous id : FileId) : Prop := (compare previous id).isLE ∧ Fits id

theorem linked_ids {ids : List FileId} {state : FileId} (ascending : Ascending id ids)
    (fits : ∀ id ∈ ids, Fits id) (lower : ∀ id ∈ ids, (compare state id).isLE) :
    Linked IdFollows id state ids := by
  induction ids generalizing state with
  | nil => exact trivial
  | cons first ids ih =>
      have later := pairwise_cons.mp ascending
      exact ⟨⟨lower first mem_cons_self, fits first mem_cons_self⟩,
        ih later.2 (fun id listed => fits id (mem_cons_of_mem first listed)) later.1⟩

theorem firstId_isLE (id : FileId) : (compare firstId id).isLE := by
  rw [isLE_iff]
  change 0 < id.volume.value ∨ (0 = id.volume.value ∧ 0 ≤ id.node)
  omega

theorem decodes_readIds {ids : List FileId} (ascending : Ascending id ids)
    (fits : ∀ id ∈ ids, Fits id) :
    Decodes (readChain (readIdAfter path volumeOverflow nodeOverflow) id ids.length firstId)
      (writeIdsFrom firstId ids) ids := by
  have linked := linked_ids ascending fits fun id _ => firstId_isLE id
  have each : ∀ state item, IdFollows state item →
      Decodes (readIdAfter path volumeOverflow nodeOverflow state) (writeIdAfter state item)
        (id item) := fun _ _ follows => decodes_readIdAfter path follows.1 follows.2
  have read := decodes_readChain each (fun _ => rfl) linked
  rwa [map_id] at read

theorem decodes_readFileIds {ids : List FileId} (fits : ∀ id ∈ ids, Fits id)
    (short : ids.length < 2 ^ 64) :
    Decodes (readFileIds path) (writeFileIds ids) (sortByKey id ids) := by
  have perm := sortByKey_perm id ids
  have length := perm.length_eq
  rw [writeFileIds]
  refine (decodes_readNumber path (by rw [length]; exact short)).bind ?_
  exact decodes_readIds path (ascending_sortByKey id ids)
    fun id listed => fits id (perm.mem_iff.mp listed)

end Chains

section Runs

/-- The ids of a run that is open, and the ids after it, are the ids of the runs. -/
theorem flatMap_idRunsFrom {ids : List FileId} {run : IdRun} (started : 0 < run.entries)
    (strict : Strict id (run.last :: ids)) (fits : ∀ id ∈ run.last :: ids, Fits id) :
    (idRunsFrom run run.last ids).flatMap IdRun.ids = run.ids ++ ids := by
  induction ids generalizing run with
  | nil => rw [idRunsFrom, flatMap_singleton, append_nil]
  | cons next ids ih =>
      have above := (pairwise_cons.mp strict).1 next mem_cons_self
      have later := (pairwise_cons.mp strict).2
      have fitsLater : ∀ id ∈ next :: ids, Fits id := fun id listed =>
        fits id (mem_cons_of_mem _ listed)
      have fitsNext := fitsLater next mem_cons_self
      rw [id, id, eq_lt_iff] at above
      rw [idRunsFrom]
      split
      case isTrue adjacent =>
        -- below the largest node the run goes on with the next one
        have node : next.node = run.last.node + 1 := by
          have bound := fitsNext.2
          have same := congrArg VolumeId.value adjacent.1
          omega
        have longer : IdRun.last { run with entries := run.entries + 1 } = next := by
          rcases next with ⟨volume, node'⟩
          simp only [IdRun.last] at node adjacent ⊢
          rw [adjacent.1, node]
          congr 1
          omega
        have runIds : IdRun.ids { run with entries := run.entries + 1 } = run.ids ++ [next] := by
          have final : (⟨run.start.volume, run.start.node + run.entries⟩ : FileId) = next := by
            rw [← longer]
            rfl
          simp only [IdRun.ids, range_succ, map_append, map_singleton, final]
        have rest := @ih { run with entries := run.entries + 1 } (Nat.succ_pos _)
          (by rw [longer]; exact later) (by rw [longer]; exact fitsLater)
        rw [longer] at rest
        rw [rest, runIds, append_assoc, singleton_append]
      case isFalse =>
        have rest : (idRunsFrom ⟨next, 1⟩ next ids).flatMap IdRun.ids =
            IdRun.ids ⟨next, 1⟩ ++ ids := @ih ⟨next, 1⟩ Nat.one_pos later fitsLater
        have single : IdRun.ids ⟨next, 1⟩ = [next] := rfl
        rw [flatMap_cons, rest, single, singleton_append]

/-- A run can follow the last id of the run before it. -/
def RunFollows (previous : FileId) (run : IdRun) : Prop :=
  IdFollows previous run.start ∧ 0 < run.entries ∧ run.start.node + run.entries ≤ 2 ^ 64

theorem linked_idRunsFrom {ids : List FileId} {run : IdRun} {previous : FileId}
    (follows : RunFollows previous run) (strict : Strict id (run.last :: ids))
    (fits : ∀ id ∈ run.last :: ids, Fits id) :
    Linked RunFollows IdRun.last previous (idRunsFrom run run.last ids) := by
  induction ids generalizing run previous with
  | nil => exact ⟨follows, trivial⟩
  | cons next ids ih =>
      have above := (pairwise_cons.mp strict).1 next mem_cons_self
      have later := (pairwise_cons.mp strict).2
      have fitsLater : ∀ id ∈ next :: ids, Fits id := fun id listed =>
        fits id (mem_cons_of_mem _ listed)
      have fitsNext := fitsLater next mem_cons_self
      rw [idRunsFrom]
      split
      case isTrue adjacent =>
        rw [id, id, eq_lt_iff] at above
        have node : next.node = run.last.node + 1 := by
          have bound := fitsNext.2
          have same := congrArg VolumeId.value adjacent.1
          omega
        have started := follows.2.1
        have lastNode : run.last.node = run.start.node + (run.entries - 1) := rfl
        have longer : IdRun.last { run with entries := run.entries + 1 } = next := by
          rcases next with ⟨volume, node'⟩
          simp only [IdRun.last] at node adjacent ⊢
          rw [adjacent.1, node]
          congr 1
          omega
        have extended : RunFollows previous { run with entries := run.entries + 1 } := by
          refine ⟨follows.1, Nat.succ_pos _, ?_⟩
          have bound := fitsNext.2
          change run.start.node + (run.entries + 1) ≤ 2 ^ 64
          omega
        have rest := @ih { run with entries := run.entries + 1 } previous extended
          (by rw [longer]; exact later) (by rw [longer]; exact fitsLater)
        rwa [longer] at rest
      case isFalse =>
        have lower : (compare run.last next).isLE := by
          rw [id, id] at above
          rw [above]
          rfl
        have single : RunFollows run.last ⟨next, 1⟩ := ⟨⟨lower, fitsNext⟩, Nat.one_pos, fitsNext.2⟩
        exact ⟨follows, @ih ⟨next, 1⟩ run.last single later fitsLater⟩

theorem decodes_readRuns {room : Nat} {runs : List IdRun} {previous : FileId}
    {ids : List FileId} (linked : Linked RunFollows IdRun.last previous runs)
    (enough : ids.length + (runs.flatMap IdRun.ids).length ≤ room) (small : room < 2 ^ 64) :
    Decodes (readRuns path room runs.length previous ids)
      (writeChain (fun previous run => writeIdAfter previous run.start ++ writeVarint run.entries)
        IdRun.last previous runs) (ids ++ runs.flatMap IdRun.ids) := by
  induction runs generalizing previous ids with
  | nil =>
      rw [flatMap_nil, append_nil]
      exact Decodes.pure ids
  | cons run runs ih =>
      rcases linked with ⟨⟨follows, started, bound⟩, rest⟩
      have count : run.ids.length = run.entries := by
        rw [IdRun.ids, length_map, length_range]
      rw [flatMap_cons, length_append, count] at enough
      have some : ¬run.entries = 0 := by omega
      have room' : ¬room < ids.length + min run.entries (2 ^ 64 - run.start.node) := by omega
      have inside : ¬2 ^ 64 < run.start.node + run.entries := by omega
      have next := @ih run.last (ids ++ run.ids) rest (by
        rw [length_append, count]
        omega)
      rw [flatMap_cons, ← append_assoc]
      change Decodes _ (writeIdAfter previous run.start ++ writeVarint run.entries ++ _) _
      rw [append_assoc]
      refine (decodes_readIdAfter path follows.1 follows.2).bind ?_
      refine (decodes_readNumber path (by omega)).bind ?_
      simp only [some, if_false, room', inside]
      exact next

theorem le_vecRoom (size doublings capacity : Nat) :
    capacity ≤ vecRoom size doublings capacity := by
  induction doublings generalizing capacity with
  | zero => exact Nat.le_refl capacity
  | succ doublings ih =>
      simp only [vecRoom]
      split
      case isTrue => exact Nat.le_trans (by omega) (ih (max 4 (2 * capacity)))
      case isFalse => exact Nat.le_refl capacity

theorem vecRoom_le (size doublings capacity : Nat) (positive : 0 < size) :
    vecRoom size doublings capacity ≤ max capacity isizeMax := by
  induction doublings generalizing capacity with
  | zero => exact Nat.le_max_left _ _
  | succ doublings ih =>
      simp only [vecRoom]
      split
      case isTrue fits =>
        have grown := Nat.le_mul_of_pos_right (max 4 (2 * capacity)) positive
        have room := ih (max 4 (2 * capacity))
        omega
      case isFalse => exact Nat.le_max_left _ _

theorem flatMap_idRuns {ids : List FileId} (strict : Strict id ids) (fits : ∀ id ∈ ids, Fits id) :
    (idRuns ids).flatMap IdRun.ids = ids := by
  cases ids with
  | nil => rfl
  | cons first ids => exact @flatMap_idRunsFrom ids ⟨first, 1⟩ Nat.one_pos strict fits

theorem linked_idRuns {ids : List FileId} (strict : Strict id ids) (fits : ∀ id ∈ ids, Fits id) :
    Linked RunFollows IdRun.last firstId (idRuns ids) := by
  cases ids with
  | nil => exact trivial
  | cons first ids =>
      have fitsFirst := fits first mem_cons_self
      exact @linked_idRunsFrom ids ⟨first, 1⟩ firstId
        ⟨⟨firstId_isLE first, fitsFirst⟩, Nat.one_pos, fitsFirst.2⟩ strict fits

theorem length_idRuns_le {ids : List FileId} (strict : Strict id ids)
    (fits : ∀ id ∈ ids, Fits id) : (idRuns ids).length ≤ ids.length := by
  have total := congrArg List.length (flatMap_idRuns strict fits)
  have linked := linked_idRuns strict fits
  rw [← total]
  clear total
  generalize idRuns ids = runs at linked ⊢
  generalize firstId = state at linked
  induction runs generalizing state with
  | nil => exact Nat.le_refl 0
  | cons run runs ih =>
      have rest := ih run.last linked.2
      have started := linked.1.2.1
      rw [flatMap_cons, length_append, length_cons, IdRun.ids, length_map,
        length_range]
      omega

theorem decodes_readRunFileIds {ids : List FileId} (strict : Strict id ids)
    (fits : ∀ id ∈ ids, Fits id) (short : ids.length ≤ 1000000) :
    Decodes (readRunFileIds path ids.length) (writeRunFileIds ids) ids := by
  have whole := flatMap_idRuns strict fits
  have count := length_idRuns_le strict fits
  have room := le_vecRoom fileIdSize 64 (min ids.length 1000000)
  have small := vecRoom_le fileIdSize 64 (min ids.length 1000000) (by decide)
  have bound : isizeMax < 2 ^ 64 := by decide
  refine (decodes_readNumber path (by omega)).bind ?_
  have read := @decodes_readRuns path (vecRoom fileIdSize 64 (min ids.length 1000000)) (idRuns ids)
    firstId [] (linked_idRuns strict fits) (by rw [whole, length_nil]; omega) (by omega)
  rw [whole, nil_append] at read
  refine read.andThen ?_
  simp only [ne_eq, not_true_eq_false, if_false]
  exact Decodes.pure ids

end Runs

end Deltas

section Blocks

theorem chunks_eq_pieces (size : Nat) (ids : List FileId) : chunks size ids = pieces size ids := by
  induction ids using chunks.induct size with
  | case1 ids empty =>
      rw [chunks, if_pos empty, pieces, if_pos (empty.imp_left length_eq_zero_iff.mpr)]
  | case2 ids more ih =>
      rw [chunks, if_neg more, ih]
      conv_rhs =>
        rw [pieces, if_neg fun empty => more (empty.imp_left length_eq_zero_iff.mp)]

theorem flatten_chunks {size : Nat} (positive : 0 < size) (ids : List FileId) :
    (chunks size ids).flatten = ids := by
  rw [chunks_eq_pieces, flatten_pieces positive]

end Blocks

end Gfm.Store

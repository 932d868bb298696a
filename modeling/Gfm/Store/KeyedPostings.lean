import Gfm.Lib.Postings
import Gfm.Store.KeyedRoundTrip

/-!
# Postings gathered from records

A record is listed under each of its keys. What is gathered has one posting for each key, with the
ids in order, each once; it can be written wherever the ids can.
-/

namespace Gfm.Store

open Postings Sorted SortedWalk Std

variable {Key : Type} [Ord Key] [TransOrd Key] [LawfulEqOrd Key]

/-- The postings of a map, in the order of their keys. -/
def postingsOfMap (map : PostingMap Key FileId) : List (KeyedPosting Key) :=
  map.toList.map fun (key, ids) => ⟨key, ids.toList⟩

/-- Every key of the map lists an id. -/
def Filled (map : PostingMap Key FileId) : Prop :=
  ∀ (key : Key) (ids : ExtTreeSet FileId), map[key]? = some ids → ∃ id, id ∈ ids

variable {map : PostingMap Key FileId} {key : Key}

omit [LawfulEqOrd Key] in
theorem filled_empty : Filled (∅ : PostingMap Key FileId) := by
  intro key ids found
  simp at found

theorem Filled.add {id : FileId} (filled : Filled map) : Filled (add map key id) := by
  intro other ids found
  by_cases same : other = key
  · have listed : Postings.Lists (Postings.add map key id) other id :=
      lists_add.mpr (Or.inl ⟨same, rfl⟩)
    rcases listed with ⟨set, known, member⟩
    cases Option.some.inj (found.symm.trans known)
    exact ⟨id, member⟩
  · rw [Postings.add, ExtTreeMap.getElem?_alter, if_neg] at found
    · exact filled other ids found
    · exact fun equal => same (Std.compare_eq_iff_eq.mp equal).symm

theorem Filled.addEach {id : FileId} (filled : Filled map) (keys : List Key) :
    Filled (addEach map keys id) := by
  induction keys generalizing map with
  | nil => exact filled
  | cons key keys ih => exact ih filled.add

section Gathered

variable {Item : Type} {keys : Item → List Key} {idOf : Item → FileId} {items : List Item}

theorem lists_foldl_addEach {id : FileId} :
    Postings.Lists (items.foldl (fun map item => addEach map (keys item) (idOf item)) map) key id ↔
      (∃ item ∈ items, key ∈ keys item ∧ idOf item = id) ∨ Postings.Lists map key id := by
  induction items generalizing map with
  | nil => simp
  | cons first items ih =>
      rw [List.foldl_cons, ih, lists_addEach, List.exists_mem_cons_iff, eq_comm (a := id),
        ← or_assoc, or_comm (a := ∃ item ∈ items, key ∈ keys item ∧ idOf item = id)]

theorem Filled.foldl_addEach (filled : Filled map) (items : List Item) :
    Filled (items.foldl (fun map item => Postings.addEach map (keys item) (idOf item)) map) := by
  induction items generalizing map with
  | nil => exact filled
  | cons item items ih => exact ih (filled.addEach (keys item))

end Gathered

theorem mem_postingsOfMap {posting : KeyedPosting Key} : posting ∈ postingsOfMap map ↔
    ∃ ids, map[posting.key]? = some ids ∧ posting.ids = ids.toList := by
  rw [postingsOfMap, List.mem_map]
  constructor
  · rintro ⟨⟨key, ids⟩, listed, rfl⟩
    exact ⟨ids, ExtTreeMap.mem_toList_iff_getElem?_eq_some.mp listed, rfl⟩
  · rintro ⟨ids, found, same⟩
    refine ⟨(posting.key, ids), ExtTreeMap.mem_toList_iff_getElem?_eq_some.mpr found, ?_⟩
    simp only [← same]

omit [LawfulEqOrd Key] in
theorem strict_postingsOfMap : Strict KeyedPosting.key (postingsOfMap map) :=
  List.pairwise_map.mpr ExtTreeMap.ordered_keys_toList

theorem nodup_toList (ids : ExtTreeSet FileId) : ids.toList.Nodup :=
  Strict.nodup (ExtTreeSet.ordered_toList (t := ids))

theorem ids_ne_nil_of_filled (filled : Filled map) :
    ∀ posting ∈ postingsOfMap map, posting.ids ≠ [] := by
  intro posting listed
  rcases mem_postingsOfMap.mp listed with ⟨ids, found, same⟩
  rcases filled _ _ found with ⟨id, member⟩
  rw [same]
  exact List.ne_nil_of_mem (ExtTreeSet.mem_toList.mpr member)

/-- What is written of a map is found again: the ids that it lists, in order. -/
theorem storedIds_postingsOfMap [DecidableEq Key] {ids : List FileId}
    (listed : ∀ id, id ∈ ids ↔ Postings.Lists map key id) :
    storedIds (postingsOfMap map) key = sortDedup ids := by
  rw [storedIds]
  cases found : itemOf KeyedPosting.key (postingsOfMap map) key with
  | none =>
      have nothing : ids = [] := by
        refine List.eq_nil_iff_forall_not_mem.mpr fun id member => ?_
        rcases (listed id).mp member with ⟨set, known, -⟩
        have posted : ⟨key, set.toList⟩ ∈ postingsOfMap map :=
          mem_postingsOfMap.mpr ⟨set, known, rfl⟩
        exact itemOf_eq_none.mp found _ posted rfl
      rw [nothing]
      rfl
  | some posting =>
      rcases (itemOf_eq_some strict_postingsOfMap).mp found with ⟨present, rfl⟩
      rcases mem_postingsOfMap.mp present with ⟨set, known, same⟩
      refine sortDedup_congr fun id => ?_
      rw [same, ExtTreeSet.mem_toList, listed]
      constructor
      · exact fun member => ⟨set, known, member⟩
      · rintro ⟨other, knownOther, member⟩
        cases Option.some.inj (known.symm.trans knownOther)
        exact member

/-- A map that lists no ids but those of a list that a program can hold can be written. -/
theorem keyedFits_postingsOfMap {format : KeyedFormat Key} (all : List FileId)
    (within : ∀ key id, Postings.Lists map key id → id ∈ all) (fits : ∀ id ∈ all, Fits id)
    (short : all.length < 2 ^ 64) (written : (format.write (postingsOfMap map)).length ≤ isizeMax) :
    KeyedFits format (postingsOfMap map) where
  distinct := by
    have strict : Strict id ((postingsOfMap map).map KeyedPosting.key) :=
      List.pairwise_map.mpr strict_postingsOfMap
    exact strict.nodup
  ids := by
    intro posting listed id member
    rcases mem_postingsOfMap.mp listed with ⟨set, known, same⟩
    rw [same, ExtTreeSet.mem_toList] at member
    exact fits id (within posting.key id ⟨set, known, member⟩)
  short := by
    intro posting listed
    rcases mem_postingsOfMap.mp listed with ⟨set, known, same⟩
    have inside : posting.ids ⊆ all := by
      intro id member
      rw [same, ExtTreeSet.mem_toList] at member
      exact within posting.key id ⟨set, known, member⟩
    have distinct : posting.ids.Nodup := by
      rw [same]
      exact nodup_toList set
    exact Nat.lt_of_le_of_lt (distinct.subperm inside).length_le short
  written := written

end Gfm.Store

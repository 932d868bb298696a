import Mathlib

/-!
# Posting maps

A posting map lists ids under keys. Its operations keep no empty entry for a
key that has lost its last id; what they do is said once, in terms of which id
is listed under which key.
-/

namespace Postings

open Std

universe u v

variable {Key : Type u} [Ord Key] [TransOrd Key] [LawfulEqOrd Key]
  {Id : Type v} [Ord Id] [TransOrd Id] [LawfulEqOrd Id]

/-- The ids listed under each key. -/
abbrev PostingMap (Key : Type u) [Ord Key] (Id : Type v) [Ord Id] :=
  ExtTreeMap Key (ExtTreeSet Id)

/-- List an id under a key, which gets an entry if it has none. -/
def add (postings : PostingMap Key Id) (key : Key) (id : Id) : PostingMap Key Id :=
  postings.alter key fun ids => some ((ids.getD ∅).insert id)

def addEach (postings : PostingMap Key Id) (keys : List Key) (id : Id) : PostingMap Key Id :=
  keys.foldl (fun postings key => add postings key id) postings

/-- List several ids under one key, which gets an entry even for none. -/
def extend (postings : PostingMap Key Id) (key : Key) (ids : List Id) : PostingMap Key Id :=
  postings.alter key fun known => some (ids.foldl (fun set id => set.insert id) (known.getD ∅))

/-- Take an id from under a key; a key that loses its last id loses its entry. -/
def remove (postings : PostingMap Key Id) (key : Key) (id : Id) : PostingMap Key Id :=
  postings.alter key fun
    | none => none
    | some ids => if (ids.erase id).isEmpty then none else some (ids.erase id)

def removeEach (postings : PostingMap Key Id) (keys : List Key) (id : Id) : PostingMap Key Id :=
  keys.foldl (fun postings key => remove postings key id) postings

/-- The id is listed under the key. -/
def Lists (postings : PostingMap Key Id) (key : Key) (id : Id) : Prop :=
  ∃ ids, postings[key]? = some ids ∧ id ∈ ids

variable {postings : PostingMap Key Id} {key other : Key} {id listed : Id}

omit [LawfulEqOrd Key] [LawfulEqOrd Id] in
@[simp]
theorem not_lists_empty : ¬Lists (∅ : PostingMap Key Id) key id := by
  rintro ⟨ids, found, -⟩
  simp at found

omit [LawfulEqOrd Key] [LawfulEqOrd Id] in
theorem mem_getD_iff_lists : id ∈ (postings[key]?).getD ∅ ↔ Lists postings key id := by
  rw [Lists]
  cases postings[key]? with
  | none => simp
  | some ids => simp

/-- An addition lists its id under its key and changes nothing else. -/
theorem lists_add :
    Lists (add postings other listed) key id ↔
      (key = other ∧ id = listed) ∨ Lists postings key id := by
  simp only [Lists, add, ExtTreeMap.getElem?_alter, Std.compare_eq_iff_eq]
  by_cases same : other = key
  · subst same
    simp only [if_true, Option.some.injEq, exists_eq_left', ExtTreeSet.mem_insert,
      Std.compare_eq_iff_eq, true_and, eq_comm (a := id)]
    cases postings[other]? with
    | none => simp
    | some ids => simp
  · simp [same, Ne.symm same]

theorem lists_addEach {keys : List Key} :
    Lists (addEach postings keys listed) key id ↔
      (key ∈ keys ∧ id = listed) ∨ Lists postings key id := by
  induction keys generalizing postings with
  | nil => simp [addEach]
  | cons first keys ih =>
      have step : Lists (addEach (add postings first listed) keys listed) key id ↔ _ := ih
      simp only [addEach, List.foldl_cons] at step ⊢
      rw [step, lists_add, List.mem_cons]
      tauto

theorem mem_foldl_insert {ids : List Id} {set : ExtTreeSet Id} :
    id ∈ ids.foldl (fun set id => set.insert id) set ↔ id ∈ ids ∨ id ∈ set := by
  induction ids generalizing set with
  | nil => simp
  | cons first ids ih =>
      rw [List.foldl_cons, ih, ExtTreeSet.mem_insert, List.mem_cons, Std.compare_eq_iff_eq]
      tauto

theorem lists_extend {ids : List Id} :
    Lists (extend postings other ids) key id ↔
      (key = other ∧ id ∈ ids) ∨ Lists postings key id := by
  simp only [Lists, extend, ExtTreeMap.getElem?_alter, Std.compare_eq_iff_eq]
  by_cases same : other = key
  · subst same
    cases postings[other]? with
    | none => simp [mem_foldl_insert]
    | some known => simp [mem_foldl_insert]
  · simp [same, Ne.symm same]

/-- A removal takes its id from under its key and changes nothing else. -/
theorem lists_remove :
    Lists (remove postings other listed) key id ↔
      Lists postings key id ∧ ¬(key = other ∧ id = listed) := by
  simp only [Lists, remove, ExtTreeMap.getElem?_alter, Std.compare_eq_iff_eq]
  by_cases same : other = key
  · subst same
    simp only [true_and]
    cases postings[other]? with
    | none => simp
    | some ids =>
        have erased : id ∈ ids.erase listed ↔ id ∈ ids ∧ ¬id = listed := by
          rw [ExtTreeSet.mem_erase, ne_eq, Std.compare_eq_iff_eq, and_comm,
            eq_comm (a := id)]
        simp only [Option.some.injEq, exists_eq_left']
        rw [← erased]
        by_cases empty : (ids.erase listed).isEmpty = true
        · have none : id ∉ ids.erase listed := by
            rw [ExtTreeSet.isEmpty_iff.mp empty]
            exact ExtTreeSet.not_mem_empty
          simp [empty, none]
        · simp [empty]
  · simp [same, Ne.symm same]

omit [LawfulEqOrd Id] in
theorem lists_erase :
    Lists (ExtTreeMap.erase postings other) key id ↔ Lists postings key id ∧ key ≠ other := by
  simp only [Lists, ExtTreeMap.getElem?_erase, Std.compare_eq_iff_eq]
  by_cases same : other = key
  · simp [same]
  · simp [same, Ne.symm same]

theorem lists_removeEach {keys : List Key} :
    Lists (removeEach postings keys listed) key id ↔
      Lists postings key id ∧ ¬(key ∈ keys ∧ id = listed) := by
  induction keys generalizing postings with
  | nil => simp [removeEach]
  | cons first keys ih =>
      have step : Lists (removeEach (remove postings first listed) keys listed) key id ↔ _ := ih
      simp only [removeEach, List.foldl_cons] at step ⊢
      rw [step, lists_remove, List.mem_cons]
      tauto

end Postings

import Gfm.Lib.Sorted

/-!
# Binary searches

A binary search finds a key in a sorted slice exactly if it is there. Where the slice has the key
several times, any of the places may be found: what is to hold of a search has to hold of all of
them.
-/

namespace SliceSearch

open Sorted

universe u

variable {Key : Type u} [Ord Key]

/-- A binary search; what it does on keys out of order is left open. -/
structure Search (Key : Type u) [Ord Key] where
  index : List Key → Key → Option Nat
  found : ∀ {keys target place}, index keys target = some place → keys[place]? = some target
  missed : ∀ {keys target}, Ascending id keys → index keys target = none → target ∉ keys

namespace Search

/-- The search that finds the first place. -/
def leftmost [Std.TransOrd Key] [Std.LawfulEqOrd Key] : Search Key where
  index keys target := binarySearchByKey keys target id
  found {keys target place} known := by
    simp only [binarySearchByKey] at known
    split at known
    case h_1 => cases known
    case h_2 item present =>
      split at known
      case isFalse => cases known
      case isTrue same =>
        cases known
        rw [present, ← Std.compare_eq_iff_eq.mp same]
        rfl
  missed {keys target} ascending none := by
    rcases binarySearchByKey_spec ascending target with ⟨place, item, known, -, -⟩ | ⟨-, differs⟩
    · rw [none] at known
      cases known
    · exact fun listed => differs target listed Std.compare_self

/-- On ascending keys a search finds exactly what is there. -/
theorem isSome_index_iff (search : Search Key) {keys : List Key} {target : Key}
    (ascending : Ascending id keys) : (search.index keys target).isSome ↔ target ∈ keys := by
  cases known : search.index keys target with
  | none => simpa using search.missed ascending known
  | some place => simpa using List.mem_of_getElem? (search.found known)

variable [DecidableEq Key]

/-- A search that finds a place of a key in a slice, whatever else it finds. -/
def preferring (search : Search Key) (keys : List Key) (target : Key) (place : Nat)
    (known : keys[place]? = some target) : Search Key where
  index others other :=
    if others = keys ∧ other = target then some place else search.index others other
  found {others other place'} same := by
    split at same
    case isTrue own =>
      rw [own.1, own.2, ← Option.some_inj.mp same, known]
    case isFalse => exact search.found same
  missed {others other} ascending none := by
    split at none
    case isTrue => cases none
    case isFalse => exact search.missed ascending none

theorem index_preferring (search : Search Key) {keys : List Key} {target : Key} {place : Nat}
    (known : keys[place]? = some target) :
    (search.preferring keys target place known).index keys target = some place :=
  if_pos ⟨rfl, rfl⟩

end Search

section Halving

/-- The window of a search is halved: the half that starts with a key up to the target stays. -/
def halve (keys : List Key) (target : Key) (base size : Nat) : Nat :=
  if size ≤ 1 then base
  else
    let mid := base + size / 2
    if keys[mid]?.any fun key => (compare key target).isGT then
      halve keys target base (size - size / 2)
    else halve keys target mid (size - size / 2)
termination_by size

variable [Std.TransOrd Key] [Std.LawfulEqOrd Key] {keys : List Key} {target : Key}

/-- A window with the target in it keeps one. -/
theorem getElem?_halve (ascending : Ascending id keys) {base size place : Nat}
    (within : base + size ≤ keys.length) (least : base ≤ place) (inside : place < base + size)
    (there : keys[place]? = some target) : keys[halve keys target base size]? = some target := by
  have ordered {early late : Nat} {left right : Key} (before : early ≤ late)
      (first : keys[early]? = some left) (second : keys[late]? = some right) :
      (compare left right).isLE := by
    rcases Nat.lt_or_eq_of_le before with before | rfl
    · rcases List.getElem?_eq_some_iff.mp first with ⟨_, rfl⟩
      rcases List.getElem?_eq_some_iff.mp second with ⟨_, rfl⟩
      exact List.pairwise_iff_getElem.mp ascending early late _ _ before
    · rw [Option.some_inj.mp (first.symm.trans second), Std.compare_self]
      rfl
  induction size using Nat.strong_induction_on generalizing base place with
  | _ size ih =>
    rw [halve]
    split
    case isTrue single =>
      have same : base = place := by omega
      rw [same, there]
    case isFalse large =>
      have bound : base + size / 2 < keys.length := by omega
      have middle := List.getElem?_eq_getElem bound
      simp only [middle, Option.any_some]
      split
      case isTrue greater =>
        -- From the middle on every key is greater than the target.
        refine ih _ (by omega) (by omega) least ?_ there
        by_contra beyond
        have upTo := ordered (by omega) middle there
        cases order : compare keys[base + size / 2] target <;> simp_all
      case isFalse upTo =>
        by_cases early : place < base + size / 2
        · have least := ordered early.le there middle
          have same : keys[base + size / 2] = target := by
            refine Std.LawfulEqOrd.eq_of_compare ?_
            rw [Std.OrientedOrd.eq_swap] at upTo
            cases order : compare target keys[base + size / 2] <;> simp_all
          exact ih _ (by omega) (by omega) le_rfl (by omega) (same ▸ middle)
        · exact ih _ (by omega) (by omega) (by omega) (by omega) there

/-- The binary search of the standard library. -/
def Search.halving : Search Key where
  index keys target :=
    (keys[halve keys target 0 keys.length]?).bind fun key =>
      if compare key target = .eq then some (halve keys target 0 keys.length) else none
  found {keys target place} known := by
    rcases Option.bind_eq_some_iff.mp known with ⟨key, there, kept⟩
    split at kept
    case isTrue same =>
      cases kept
      rw [there, Std.compare_eq_iff_eq.mp same]
    case isFalse => cases kept
  missed {keys target} ascending none listed := by
    rcases List.mem_iff_getElem?.mp listed with ⟨place, there⟩
    have bound := (List.getElem?_eq_some_iff.mp there).1
    have kept := getElem?_halve ascending (Nat.zero_add _).le (Nat.zero_le place)
      (by rwa [Nat.zero_add]) there
    rw [kept, Option.bind_some, if_pos Std.compare_self] at none
    cases none

end Halving

end SliceSearch

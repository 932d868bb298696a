import Mathlib

/-!
# Edit scripts and deletions

A script turns one list into another by keeping, replacing, deleting and inserting elements; its
cost counts all but the kept ones. Two lists that are a cheap script apart have a common sublist
that either reaches by few deletions, which is what an index by deletions rests on.
-/

namespace Deletions

universe u

variable {α : Type u}

inductive Script : Nat → List α → List α → Prop
  | nil : Script 0 [] []
  | keep {cost : Nat} {left right : List α} (shared : α) :
      Script cost left right → Script cost (shared :: left) (shared :: right)
  | substitute {cost : Nat} {left right : List α} (old new : α) :
      Script cost left right → Script (cost + 1) (old :: left) (new :: right)
  | delete {cost : Nat} {left right : List α} (old : α) :
      Script cost left right → Script (cost + 1) (old :: left) right
  | insert {cost : Nat} {left right : List α} (new : α) :
      Script cost left right → Script (cost + 1) left (new :: right)

/-- At most `distance` edits apart. -/
def Within (distance : Nat) (left right : List α) : Prop :=
  ∃ cost ≤ distance, Script cost left right

/-- What at most `count` deletions leave of a list. -/
def Remains (count : Nat) (kept whole : List α) : Prop :=
  kept.Sublist whole ∧ whole.length ≤ kept.length + count

theorem Script.common {cost : Nat} {left right : List α} (script : Script cost left right) :
    ∃ kept, Remains cost kept left ∧ Remains cost kept right := by
  induction script with
  | nil => exact ⟨[], ⟨List.Sublist.refl _, Nat.zero_le _⟩, ⟨List.Sublist.refl _, Nat.zero_le _⟩⟩
  | keep shared _ ih =>
      rcases ih with ⟨kept, ⟨inLeft, fewLeft⟩, ⟨inRight, fewRight⟩⟩
      refine ⟨shared :: kept, ⟨inLeft.cons_cons shared, ?_⟩, ⟨inRight.cons_cons shared, ?_⟩⟩
      · simp only [List.length_cons]
        omega
      · simp only [List.length_cons]
        omega
  | substitute old new _ ih =>
      rcases ih with ⟨kept, ⟨inLeft, fewLeft⟩, ⟨inRight, fewRight⟩⟩
      refine ⟨kept, ⟨inLeft.cons old, ?_⟩, ⟨inRight.cons new, ?_⟩⟩
      · simp only [List.length_cons]
        omega
      · simp only [List.length_cons]
        omega
  | delete old _ ih =>
      rcases ih with ⟨kept, ⟨inLeft, fewLeft⟩, ⟨inRight, fewRight⟩⟩
      refine ⟨kept, ⟨inLeft.cons old, ?_⟩, ⟨inRight, by omega⟩⟩
      simp only [List.length_cons]
      omega
  | insert new _ ih =>
      rcases ih with ⟨kept, ⟨inLeft, fewLeft⟩, ⟨inRight, fewRight⟩⟩
      refine ⟨kept, ⟨inLeft, by omega⟩, ⟨inRight.cons new, ?_⟩⟩
      simp only [List.length_cons]
      omega

theorem Remains.mono {count more : Nat} {kept whole : List α} (le : count ≤ more)
    (remains : Remains count kept whole) : Remains more kept whole :=
  ⟨remains.1, remains.2.trans (by omega)⟩

theorem Within.common {distance : Nat} {left right : List α} (within : Within distance left right) :
    ∃ kept, Remains distance kept left ∧ Remains distance kept right := by
  rcases within with ⟨cost, le, script⟩
  rcases script.common with ⟨kept, inLeft, inRight⟩
  exact ⟨kept, inLeft.mono le, inRight.mono le⟩

/-- A proper sublist is one of the list with an element less. -/
theorem exists_sublist_eraseIdx {kept whole : List α} (sub : kept.Sublist whole)
    (shorter : kept.length < whole.length) :
    ∃ index < whole.length, kept.Sublist (whole.eraseIdx index) := by
  induction sub with
  | slnil => simp at shorter
  | cons head tail _ =>
      exact ⟨0, by simp, tail⟩
  | cons_cons head _ ih =>
      rcases ih (by simpa using shorter) with ⟨index, small, rest⟩
      exact ⟨index + 1, by simpa using small, rest.cons_cons head⟩

end Deletions

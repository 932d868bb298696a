import Gfm.Lib.Deletions

/-!
# The edit distance

The edit distance of two lists is the cost of the cheapest script that turns the one into the
other. It is defined by recursion on the first elements; since a script may be read backwards, the
same equation holds for the last elements, which is what a table over the prefixes of both lists is
filled by.
-/

namespace Deletions

universe u

variable {α : Type u}

namespace Script

theorem append {cost other : Nat} {left right left' right' : List α}
    (script : Script cost left right) (later : Script other left' right') :
    Script (cost + other) (left ++ left') (right ++ right') := by
  induction script with
  | nil => simpa using later
  | keep shared _ ih => exact ih.keep shared
  | @substitute cost left right old new _ ih =>
      rw [Nat.add_right_comm]
      exact ih.substitute old new
  | @delete cost left right old _ ih =>
      rw [Nat.add_right_comm]
      exact ih.delete old
  | @insert cost left right new _ ih =>
      rw [Nat.add_right_comm]
      exact ih.insert new

theorem reverse {cost : Nat} {left right : List α} (script : Script cost left right) :
    Script cost left.reverse right.reverse := by
  induction script with
  | nil => exact .nil
  | keep shared _ ih => simpa using ih.append (Script.nil.keep shared)
  | substitute old new _ ih => simpa using ih.append (Script.nil.substitute old new)
  | delete old _ ih => simpa using ih.append (Script.nil.delete old)
  | insert new _ ih => simpa using ih.append (Script.nil.insert new)

theorem deleteAll (left : List α) : Script left.length left [] := by
  induction left with
  | nil => exact .nil
  | cons old left ih => exact ih.delete old

theorem insertAll (right : List α) : Script right.length [] right := by
  induction right with
  | nil => exact .nil
  | cons new right ih => exact ih.insert new

theorem refl (left : List α) : Script 0 left left := by
  induction left with
  | nil => exact .nil
  | cons shared left ih => exact ih.keep shared

theorem eq_of_cost_zero {cost : Nat} {left right : List α} (script : Script cost left right)
    (free : cost = 0) : left = right := by
  induction script with
  | nil => rfl
  | keep shared _ ih => rw [ih free]
  | substitute old new _ _ => cases free
  | delete old _ _ => cases free
  | insert new _ _ => cases free

/-- What a script does with the first part of a list. -/
theorem split {cost : Nat} {first second right : List α}
    (script : Script cost (first ++ second) right) :
    ∃ front back cheap rest, right = front ++ back ∧ cost = cheap + rest ∧
      Script cheap first front ∧ Script rest second back := by
  generalize whole : first ++ second = left at script
  induction script generalizing first with
  | nil =>
      rcases List.append_eq_nil_iff.mp whole with ⟨rfl, rfl⟩
      exact ⟨[], [], 0, 0, rfl, rfl, .nil, .nil⟩
  | @keep cost left right shared script ih =>
      rcases List.append_eq_cons_iff.mp whole with ⟨rfl, rfl⟩ | ⟨first, rfl, rfl⟩
      · exact ⟨[], shared :: right, 0, cost, rfl, by simp, .nil, script.keep shared⟩
      · rcases ih rfl with ⟨front, back, cheap, rest, rfl, rfl, start, finish⟩
        exact ⟨shared :: front, back, cheap, rest, rfl, rfl, start.keep shared, finish⟩
  | @substitute cost left right old new script ih =>
      rcases List.append_eq_cons_iff.mp whole with ⟨rfl, rfl⟩ | ⟨first, rfl, rfl⟩
      · exact ⟨[], new :: right, 0, cost + 1, rfl, by simp, .nil, script.substitute old new⟩
      · rcases ih rfl with ⟨front, back, cheap, rest, rfl, rfl, start, finish⟩
        exact ⟨new :: front, back, cheap + 1, rest, rfl, by omega, start.substitute old new, finish⟩
  | @delete cost left right old script ih =>
      rcases List.append_eq_cons_iff.mp whole with ⟨rfl, rfl⟩ | ⟨first, rfl, rfl⟩
      · exact ⟨[], right, 0, cost + 1, rfl, by simp, .nil, script.delete old⟩
      · rcases ih rfl with ⟨front, back, cheap, rest, rfl, rfl, start, finish⟩
        exact ⟨front, back, cheap + 1, rest, rfl, by omega, start.delete old, finish⟩
  | @insert cost left right new script ih =>
      rcases ih whole with ⟨front, back, cheap, rest, rfl, rfl, start, finish⟩
      exact ⟨new :: front, back, cheap + 1, rest, rfl, by omega, start.insert new, finish⟩

end Script

section Distance

variable [DecidableEq α]

/-- The Levenshtein distance. -/
def distance : List α → List α → Nat
  | [], right => right.length
  | old :: left, [] => (old :: left).length
  | old :: left, new :: right =>
      min (min (distance left (new :: right) + 1) (distance (old :: left) right + 1))
        (distance left right + if old = new then 0 else 1)

@[simp]
theorem distance_nil_left (right : List α) : distance [] right = right.length := by
  rw [distance]

@[simp]
theorem distance_nil_right (left : List α) : distance left [] = left.length := by
  cases left <;> simp [distance]

theorem script_distance (left right : List α) : Script (distance left right) left right := by
  fun_induction distance left right with
  | case1 right => exact .insertAll right
  | case2 old left => exact .deleteAll (old :: left)
  | case3 old left new right deleted inserted kept =>
      rcases min_choice (min (distance left (new :: right) + 1) (distance (old :: left) right + 1))
        (distance left right + if old = new then 0 else 1) with same | same
      · rw [same]
        rcases min_choice (distance left (new :: right) + 1) (distance (old :: left) right + 1)
          with fewer | fewer
        · rw [fewer]
          exact deleted.delete old
        · rw [fewer]
          exact inserted.insert new
      · rw [same]
        split
        case isTrue equal =>
          subst equal
          exact kept.keep old
        case isFalse => exact kept.substitute old new

theorem distance_le {cost : Nat} {left right : List α} (script : Script cost left right) :
    distance left right ≤ cost := by
  induction script with
  | nil => simp
  | @keep cost left right shared _ ih =>
      rw [distance]
      simp only [if_true]
      omega
  | @substitute cost left right old new _ ih =>
      rw [distance]
      split <;> omega
  | @delete cost left right old _ ih =>
      cases right with
      | nil => simpa using ih
      | cons new right =>
          rw [distance]
          omega
  | @insert cost left right new _ ih =>
      cases left with
      | nil => simpa using ih
      | cons old left =>
          rw [distance]
          omega

theorem distance_reverse (left right : List α) :
    distance left.reverse right.reverse = distance left right := by
  apply Nat.le_antisymm
  · exact distance_le (script_distance left right).reverse
  · have back := (script_distance left.reverse right.reverse).reverse
    rw [List.reverse_reverse, List.reverse_reverse] at back
    exact distance_le back

theorem distance_eq_zero_iff {left right : List α} : distance left right = 0 ↔ left = right := by
  constructor
  · exact fun free => (script_distance left right).eq_of_cost_zero free
  · rintro rfl
    exact Nat.le_zero.mp (distance_le (.refl left))

/-- The equation of the distance, at the ends of the lists. -/
theorem distance_concat (left right : List α) (old new : α) :
    distance (left ++ [old]) (right ++ [new]) =
      min (min (distance left (right ++ [new]) + 1) (distance (left ++ [old]) right + 1))
        (distance left right + if old = new then 0 else 1) := by
  have front := distance_reverse (left ++ [old]) (right ++ [new])
  have deleted := distance_reverse left (right ++ [new])
  have inserted := distance_reverse (left ++ [old]) right
  simp only [List.reverse_append, List.reverse_singleton, List.singleton_append] at *
  rw [← front, distance, distance_reverse left right, deleted, inserted]

/-- A first part is as near to a first part of the other list as the lists are to each other. -/
theorem exists_prefix_distance_le {first left : List α} (begins : first <+: left)
    (right : List α) : ∃ front, front <+: right ∧ distance first front ≤ distance left right := by
  rcases begins with ⟨second, rfl⟩
  rcases (script_distance (first ++ second) right).split with
    ⟨front, back, cheap, rest, split, cost, start, finish⟩
  refine ⟨front, ⟨back, split.symm⟩, ?_⟩
  have near := distance_le start
  omega

end Distance

end Deletions

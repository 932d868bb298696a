import Mathlib

/-!
# Spacing

How long a list makes the marked items wait: a list is spaced when no marked item comes after more
than a given number of unmarked ones. The number of unmarked items that went before is carried
along, so that a list is spaced part by part.
-/

namespace Spacing

universe u

variable {Item : Type u} (marked : Item → Bool) (limit : Nat)

/-- Spaced, after so many unmarked items. -/
def Spaced : Nat → List Item → Prop
  | _, [] => True
  | waited, item :: items =>
      if marked item then waited ≤ limit ∧ Spaced 0 items else Spaced (waited + 1) items

variable {marked limit} {waited : Nat} {items gap after : List Item}

theorem spaced_append_unmarked (unmarked : ∀ item ∈ items, marked item = false) :
    Spaced marked limit waited (items ++ after) ↔
      Spaced marked limit (waited + items.length) after := by
  induction items generalizing waited with
  | nil => simp
  | cons item items ih =>
      rw [List.forall_mem_cons] at unmarked
      rw [List.cons_append, Spaced, unmarked.1, if_neg (by simp), ih unmarked.2, List.length_cons,
        Nat.add_assoc, Nat.add_comm 1]

theorem spaced_of_unmarked (unmarked : ∀ item ∈ items, marked item = false) :
    Spaced marked limit waited items := by
  rw [← List.append_nil items, spaced_append_unmarked unmarked]
  trivial

theorem spaced_append_marked (nonempty : items ≠ []) (all : ∀ item ∈ items, marked item = true) :
    Spaced marked limit waited (items ++ after) ↔
      waited ≤ limit ∧ Spaced marked limit 0 after := by
  induction items generalizing waited with
  | nil => exact absurd rfl nonempty
  | cons item items ih =>
      rw [List.forall_mem_cons] at all
      rw [List.cons_append, Spaced, if_pos all.1]
      cases items with
      | nil => rfl
      | cons next items => rw [ih (List.cons_ne_nil _ _) all.2, and_iff_right (Nat.zero_le limit)]

/-- What follows a part of a spaced list is spaced after some wait. -/
theorem Spaced.suffix (before : List Item) (spaced : Spaced marked limit waited (before ++ after)) :
    ∃ later, Spaced marked limit later after := by
  induction before generalizing waited with
  | nil => exact ⟨waited, spaced⟩
  | cons item before ih =>
      rw [List.cons_append, Spaced] at spaced
      split at spaced
      · exact ih spaced.2
      · exact ih spaced

theorem Spaced.le_of_marked (spaced : Spaced marked limit waited items)
    (present : ∃ item ∈ items, marked item = true) : waited ≤ limit := by
  induction items generalizing waited with
  | nil =>
      rcases present with ⟨item, member, -⟩
      cases member
  | cons item items ih =>
      rw [Spaced] at spaced
      split at spaced
      · exact spaced.1
      next unmarked =>
        rcases present with ⟨other, member, isMarked⟩
        rcases List.mem_cons.mp member with rfl | member
        · exact absurd isMarked unmarked
        · have later := ih spaced ⟨other, member, isMarked⟩
          omega

/-- A stretch of unmarked items that a marked one still follows is no longer than the limit. -/
theorem Spaced.length_le {before : List Item}
    (spaced : Spaced marked limit waited (before ++ gap ++ after))
    (unmarked : ∀ item ∈ gap, marked item = false) (present : ∃ item ∈ after, marked item = true) :
    gap.length ≤ limit := by
  rw [List.append_assoc] at spaced
  rcases spaced.suffix before with ⟨later, rest⟩
  rw [spaced_append_unmarked unmarked] at rest
  have bounded := rest.le_of_marked present
  omega

end Spacing

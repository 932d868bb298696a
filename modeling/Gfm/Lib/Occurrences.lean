import Mathlib

/-!
# Occurrences

The places at which a word stands in a text, and patterns of several words that stand in it
without a gap. To look for a pattern it is enough to go through the places of any one of its
words.
-/

namespace Occurrences

universe u

variable {Word : Type u} [DecidableEq Word]

/-- The places of a word in a text, in order. -/
def places (word : Word) (text : List Word) : List Nat :=
  (text.zipIdx.filter fun entry => entry.1 = word).map Prod.snd

variable {word : Word} {text pattern : List Word} {place anchor : Nat}

@[simp]
theorem mem_places : place ∈ places word text ↔ text[place]? = some word := by
  simp [places, List.mem_zipIdx_iff_getElem?]

theorem places_lt (member : place ∈ places word text) : place < text.length :=
  (List.getElem?_eq_some_iff.mp (mem_places.mp member)).1

theorem places_eq_nil : places word text = [] ↔ word ∉ text := by
  rw [List.eq_nil_iff_forall_not_mem, List.mem_iff_getElem?]
  simp

/-- The places ascend. -/
theorem places_pairwise : (places word text).Pairwise (· < ·) := by
  have ascending : (text.zipIdx.map Prod.snd).Pairwise (· < ·) := by
    rw [List.zipIdx_map_snd]
    exact List.pairwise_lt_range'
  exact ascending.sublist (List.filter_sublist.map Prod.snd)

omit [DecidableEq Word] in
/-- A pattern stands in a text if its words follow each other from some start on. -/
theorem infix_iff_start (nonempty : pattern ≠ []) :
    pattern <:+: text ↔ ∃ start, ∀ (offset : Nat) (word : Word), pattern[offset]? = some word →
      text[start + offset]? = some word := by
  rw [List.infix_iff_getElem?]
  constructor
  · rintro ⟨start, -, follow⟩
    refine ⟨start, fun offset word there => ?_⟩
    rcases List.getElem?_eq_some_iff.mp there with ⟨bound, rfl⟩
    rw [Nat.add_comm]
    exact follow offset bound
  · rintro ⟨start, follow⟩
    refine ⟨start, ?_, fun offset bound => ?_⟩
    · have bound : pattern.length - 1 < pattern.length :=
        Nat.sub_one_lt (List.length_pos_iff.mpr nonempty).ne'
      have last := follow (pattern.length - 1) _ (List.getElem?_eq_getElem bound)
      have inside := (List.getElem?_eq_some_iff.mp last).1
      omega
    · rw [Nat.add_comm]
      exact follow offset _ (List.getElem?_eq_getElem bound)

/-- Every occurrence of a pattern is found from a place of any one of its words. -/
theorem infix_iff_anchored (there : pattern[anchor]? = some word) :
    pattern <:+: text ↔ ∃ place ∈ places word text, anchor ≤ place ∧
      ∀ (offset : Nat) (other : Word), pattern[offset]? = some other →
        text[place - anchor + offset]? = some other := by
  have nonempty : pattern ≠ [] := by
    rintro rfl
    simp at there
  rw [infix_iff_start nonempty]
  constructor
  · rintro ⟨start, follow⟩
    refine ⟨start + anchor, mem_places.mpr (follow anchor word there), Nat.le_add_left _ _, ?_⟩
    rw [Nat.add_sub_cancel]
    exact follow
  · rintro ⟨place, -, -, follow⟩
    exact ⟨place - anchor, follow⟩

end Occurrences

import Mathlib

/-!
# Items that cover others

Items are taken one after the other. One that is covered by a kept one is dropped, and a kept item
that the next one covers is dropped for it. What is kept covers everything, and no kept item covers
another.
-/

namespace Covering

open List

universe u

variable {Item : Type u} (covers : Item → Item → Prop) [DecidableRel covers]

def keep (kept : List Item) (item : Item) : List Item :=
  if kept.any fun existing => covers existing item then kept
  else kept.filter (fun existing => ¬covers item existing) ++ [item]

def coalesce (items : List Item) : List Item := items.foldl (keep covers) []

variable {covers} {items kept : List Item} {item : Item}

theorem coalesce_append (items : List Item) (item : Item) :
    coalesce covers (items ++ [item]) = keep covers (coalesce covers items) item := by
  rw [coalesce, foldl_append]
  rfl

theorem any_covers_iff :
    (kept.any fun existing => covers existing item) = true ↔
      ∃ existing ∈ kept, covers existing item := by
  simp only [any_eq_true, decide_eq_true_eq]

theorem mem_keep {other : Item} (member : other ∈ keep covers kept item) :
    other ∈ kept ∨ other = item ∧ ¬∃ existing ∈ kept, covers existing item := by
  rw [keep] at member
  split at member
  · exact .inl member
  · rename_i uncovered
    rcases mem_append.mp member with old | new
    · exact .inl (mem_filter.mp old).1
    · exact .inr ⟨mem_singleton.mp new, mt any_covers_iff.mpr uncovered⟩

/-- No item covers another one. -/
def Apart (covers : Item → Item → Prop) (kept : List Item) : Prop :=
  kept.Pairwise fun first second => ¬covers first second ∧ ¬covers second first

theorem Apart.keep (apart : Apart covers kept) (item : Item) :
    Apart covers (keep covers kept item) := by
  rw [Covering.keep]
  split
  · exact apart
  · rename_i uncovered
    refine pairwise_append.mpr ⟨apart.filter _, pairwise_singleton .., ?_⟩
    intro existing member last listed
    rw [mem_singleton.mp listed]
    rcases mem_filter.mp member with ⟨member, spared⟩
    refine ⟨fun covered => uncovered (any_covers_iff.mpr ⟨existing, member, covered⟩), ?_⟩
    exact of_decide_eq_true spared

theorem apart_coalesce (items : List Item) : Apart covers (coalesce covers items) := by
  induction items using List.reverseRecOn with
  | nil => exact List.Pairwise.nil
  | append_singleton items item apart =>
      rw [coalesce_append]
      exact apart.keep item

omit [DecidableRel covers] in
theorem Apart.eq_of_covers (apart : Apart covers kept) {first second : Item} (left : first ∈ kept)
    (right : second ∈ kept) (covered : covers first second) : first = second := by
  by_contra different
  have : Std.Symm fun first second => ¬covers first second ∧ ¬covers second first :=
    ⟨fun _ _ neither => neither.symm⟩
  exact (apart.forall left right different).1 covered

section Preorder

variable (refl : ∀ item, covers item item)
  (trans : ∀ first second third, covers first second → covers second third → covers first third)

include refl trans

theorem exists_covers (items : List Item) :
    ∀ item ∈ items, ∃ existing ∈ coalesce covers items, covers existing item := by
  induction items using List.reverseRecOn with
  | nil => exact fun _ member => nomatch member
  | append_singleton items last ih =>
      have keeps : ∀ existing ∈ coalesce covers items,
          ∃ kept ∈ keep covers (coalesce covers items) last, covers kept existing := by
        intro existing member
        rw [keep]
        split
        · exact ⟨existing, member, refl existing⟩
        · by_cases dropped : covers last existing
          · exact ⟨last, mem_append_right _ (mem_singleton_self _), dropped⟩
          · have spared : existing ∈ (coalesce covers items).filter fun existing =>
                ¬covers last existing := mem_filter.mpr ⟨member, decide_eq_true dropped⟩
            exact ⟨existing, mem_append_left _ spared, refl existing⟩
      intro item member
      rw [coalesce_append]
      rcases mem_append.mp member with member | listed
      · rcases ih item member with ⟨existing, held, covered⟩
        rcases keeps existing held with ⟨kept, held, again⟩
        exact ⟨kept, held, trans _ _ _ again covered⟩
      · rw [mem_singleton.mp listed]
        rw [keep]
        split
        · rename_i covered
          exact any_covers_iff.mp covered
        · exact ⟨last, mem_append_right _ (mem_singleton_self _), refl last⟩

/-- A kept item is one of the items, and no item before it covers it. -/
theorem first_of_mem_coalesce (items : List Item) : ∀ item ∈ coalesce covers items,
    ∃ before after, items = before ++ item :: after ∧ ∀ other ∈ before, ¬covers other item := by
  induction items using List.reverseRecOn with
  | nil => exact fun _ member => nomatch member
  | append_singleton items last ih =>
      intro item member
      rw [coalesce_append] at member
      rcases mem_keep member with old | ⟨rfl, uncovered⟩
      · rcases ih item old with ⟨before, after, rfl, first⟩
        exact ⟨before, after ++ [last], append_assoc .., first⟩
      · refine ⟨items, [], rfl, fun other member covered => uncovered ?_⟩
        rcases exists_covers refl trans items other member with ⟨existing, held, again⟩
        exact ⟨existing, held, trans _ _ _ again covered⟩

end Preorder

end Covering

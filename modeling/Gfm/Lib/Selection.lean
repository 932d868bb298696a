import Gfm.Lib.Sorted

/-!
# Keeping the first items

The first items of a sequence that arrives one by one, in the order of their keys. What is kept
may be cut back to the wanted number at any time; the first items of the whole sequence are never
lost by it.
-/

namespace Selection

open List Sorted

universe u v

variable {Item : Type u} {Key : Type v} [Ord Key] {key : Item → Key} {limit : Nat}
  {seen kept : List Item}

/-- Of what was seen, at least the first items are kept. -/
structure Keeps (key : Item → Key) (limit : Nat) (seen kept : List Item) : Prop where
  distinctSeen : (seen.map key).Nodup
  distinct : (kept.map key).Nodup
  inside : ∀ item ∈ kept, item ∈ seen
  first : ∀ item ∈ (sortByKey key seen).take limit, item ∈ kept

theorem mem_sortByKey {items : List Item} {item : Item} :
    item ∈ sortByKey key items ↔ item ∈ items :=
  (sortByKey_perm key items).mem_iff

namespace Keeps

theorem nil : Keeps key limit [] [] :=
  ⟨nodup_nil, nodup_nil, fun _ listed => listed, fun _ early =>
    mem_sortByKey.mp (mem_of_mem_take early)⟩

variable [Std.TransOrd Key] [Std.LawfulEqOrd Key]

/-- What is kept begins like what was seen. -/
theorem take_sortByKey (keeps : Keeps key limit seen kept) :
    (sortByKey key kept).take limit = (sortByKey key seen).take limit := by
  refine (strict_sortByKey keeps.distinct).take_eq (strict_sortByKey keeps.distinctSeen) ?_ ?_
  · intro item listed
    exact mem_sortByKey.mpr (keeps.inside item (mem_sortByKey.mp listed))
  · intro item early
    exact mem_sortByKey.mpr (keeps.first item early)

theorem push (keeps : Keeps key limit seen kept) {item : Item}
    (new : ((seen ++ [item]).map key).Nodup) :
    Keeps key limit (seen ++ [item]) (kept ++ [item]) := by
  have apart : key item ∉ seen.map key := by
    rw [map_append, map_singleton] at new
    exact fun listed => (nodup_append.mp new).2.2 _ listed _ (mem_singleton_self _) rfl
  refine ⟨new, ?_, fun other listed => ?_, fun other early => ?_⟩
  · rw [map_append, map_singleton]
    refine keeps.distinct.append (nodup_singleton _) ?_
    refine disjoint_singleton.mpr fun listed => apart ?_
    rcases mem_map.mp listed with ⟨other, member, same⟩
    exact mem_map.mpr ⟨other, keeps.inside other member, same⟩
  · rcases mem_append.mp listed with member | last
    · exact mem_append_left _ (keeps.inside other member)
    · exact mem_append_right _ last
  · rcases mem_append.mp (mem_sortByKey.mp (mem_of_mem_take early)) with member | last
    · -- An item that comes late among the earlier ones comes late among all.
      refine mem_append_left _ (keeps.first other ?_)
      have listed := take_append_drop limit (sortByKey key seen) ▸ mem_sortByKey.mpr member
      refine (mem_append.mp listed).resolve_right fun late => ?_
      refine (strict_sortByKey keeps.distinctSeen).not_mem_take (strict_sortByKey new) ?_ other late
        early
      exact fun next known => mem_sortByKey.mpr (mem_append_left _ (mem_sortByKey.mp known))
    · exact mem_append_right _ last

/-- Cutting back to the first items keeps them. -/
theorem trim (keeps : Keeps key limit seen kept) :
    Keeps key limit seen ((sortByKey key kept).take limit) := by
  refine ⟨keeps.distinctSeen, ?_, fun item early => ?_, fun item early => ?_⟩
  · refine List.Nodup.sublist ((take_sublist limit (sortByKey key kept)).map key) ?_
    exact ((sortByKey_perm key kept).map key).nodup_iff.mpr keeps.distinct
  · exact keeps.inside item (mem_sortByKey.mp (mem_of_mem_take early))
  · rw [keeps.take_sortByKey]
    exact early

end Keeps

/-- The order in which distinct items arrive does not matter. -/
theorem sortByKey_eq_of_perm [Std.TransOrd Key] [Std.LawfulEqOrd Key] {items others : List Item}
    (distinct : (items.map key).Nodup) (perm : items.Perm others) :
    sortByKey key items = sortByKey key others :=
  (strict_sortByKey distinct).eq_of_perm
    (strict_sortByKey ((perm.map key).nodup_iff.mp distinct))
    (((sortByKey_perm key items).trans perm).trans (sortByKey_perm key others).symm)

end Selection

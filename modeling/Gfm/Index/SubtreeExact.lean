import Gfm.Index.RenameExact
import Gfm.Search.SubtreeRemoval

/-!
# Removing exactly a subtree

A path is at a root or below it when its components begin with those of the root. The index
compares texts instead: the root, or the root with a separator. A text that passes is at the root
or below it; below a root that ends in a separator, such as the root of the file system, none
passes. A record that shares its path with another is not reached either.
-/

namespace Gfm.Index

open Postings Search SearchIndex

/-- At the root or below it, component by component. -/
def AtOrBelow (root path : Text) : Prop := pathComponents root <+: pathComponents path

section Paths

variable {root path : Text}

theorem atOrBelow_of_below (below : Below root path) : AtOrBelow root path := by
  rcases below_iff.mp below with rfl | ⟨rest, rfl⟩
  · exact List.prefix_refl _
  · by_cases named : root = []
    · subst named
      exact List.nil_prefix
    · rcases pathComponents_cons named with ⟨first, -, goesOn⟩
      rw [AtOrBelow, goesOn rest]
      exact List.prefix_append _ _

end Paths

section Exactness

variable {unicode : Unicode} {index : SearchIndex} {root : Text}

/-- The removal takes out the records at the root and below it, each once, and leaves the others
and all that is listed of them. -/
structure SubtreeRemovedExactly (unicode : Unicode) (index : SearchIndex) (root : Text) :
    Prop where
  gone : ∀ (id : FileId) (record : FileRecord), index.records[id]? = some record →
    AtOrBelow root record.path → (index.removeSubtree unicode root).2.records[id]? = none
  kept : ∀ (id : FileId) (record : FileRecord), index.records[id]? = some record →
    ¬AtOrBelow root record.path →
      SearchIndex.Untouched index (index.removeSubtree unicode root).2 id
  removed : ∀ record : FileRecord, record ∈ (index.removeSubtree unicode root).1 ↔
    index.records[record.id]? = some record ∧ AtOrBelow root record.path
  once : ((index.removeSubtree unicode root).1.map FileRecord.id).Nodup

/-- Every record at the root or below it has its path in the path map, where it is the text of the
root or goes on after it with a separator. -/
def SubtreeReached (index : SearchIndex) (root : Text) : Prop :=
  ∀ (id : FileId) (record : FileRecord), index.records[id]? = some record →
    AtOrBelow root record.path → index.paths[record.path]? = some id ∧ Below root record.path

theorem removeSubtree_eq (unicode : Unicode) (index : SearchIndex) (root : Text) :
    index.removeSubtree unicode root = index.removeEachId unicode (index.subtreeIds root) := rfl

theorem subtreeRemovedExactly_iff_reached (well : index.WellIndexed) (named : index.PathsNamed) :
    SubtreeRemovedExactly unicode index root ↔ SubtreeReached index root := by
  have withdrawn := removeEachId_withdrawn unicode well (index.subtreeIds root)
  constructor
  · intro exactly id record live within
    have gone := exactly.gone id record live within
    rw [removeSubtree_eq, withdrawn.records] at gone
    by_cases member : id ∈ index.subtreeIds root
    · exact (named.mem_subtreeIds live).mp member
    · rw [if_neg member, live] at gone
      cases gone
  · intro reached
    have member_iff (id : FileId) (record : FileRecord)
        (live : index.records[id]? = some record) :
        id ∈ index.subtreeIds root ↔ AtOrBelow root record.path := by
      rw [named.mem_subtreeIds live]
      exact ⟨fun both => atOrBelow_of_below both.2, reached id record live⟩
    refine ⟨?_, ?_, ?_, ?_⟩
    · intro id record live within
      rw [removeSubtree_eq, withdrawn.records, if_pos ((member_iff id record live).mpr within)]
    · intro id record live outside
      exact removeEachId_untouched unicode well (named.entered_subtreeIds root)
        fun member => outside ((member_iff id record live).mp member)
    · intro record
      rw [removeSubtree_eq,
        mem_removeEachId unicode well (named.nodup_subtreeIds root)]
      constructor
      · rintro ⟨id, member, live⟩
        have own := well.recordId live
        subst own
        exact ⟨live, (member_iff _ record live).mp member⟩
      · rintro ⟨live, within⟩
        exact ⟨record.id, (member_iff _ record live).mpr within, live⟩
    · exact nodup_removeEachId unicode well (named.nodup_subtreeIds root)

/-- In every index that operations have made, the removal is exact exactly where it reaches every
record at the root or below it. -/
theorem subtreeRemovedExactly_iff (unicode : Unicode) (operations : List IndexOp) (root : Text) :
    SubtreeRemovedExactly unicode (SearchIndex.new.run unicode operations) root ↔
      SubtreeReached (SearchIndex.new.run unicode operations) root :=
  subtreeRemovedExactly_iff_reached (wellIndexed_run unicode operations)
    (pathsNamed_run unicode operations)

/-- The root of the file system is not above `/a` for the index. -/
theorem removeSubtree_root_inexact :
    ¬SubtreeRemovedExactly Unicode.ascii
      (SearchIndex.new.run Unicode.ascii [.insert (plainRecord 1)]) ['/'] := by
  intro exactly
  have gone := exactly.gone ⟨⟨1⟩, 1⟩ (plainRecord 1) (by decide +kernel)
    (by unfold AtOrBelow; decide +kernel)
  revert gone
  decide +kernel

end Exactness

end Gfm.Index

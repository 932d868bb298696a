import Gfm.Index.EventAtomicity

/-!
# The records of a live index

Whatever the live index went through, also events that failed or were cancelled halfway, no two of
its records have one id or one path, and it finds each of them by either.
-/

namespace Gfm.Index

open Search Search.ShardedSearchIndex

variable {index : ShardedSearchIndex}

/-- One record at each id and each path, in the shard of its volume. -/
structure RecordsKeyed (index : ShardedSearchIndex) : Prop where
  ids : (index.records.map FileRecord.id).Nodup
  paths : (index.records.map FileRecord.path).Nodup
  placed : ∀ record, record ∈ index.records ↔ ∃ shard : SearchIndex,
    index.shards[record.id.volume]? = some shard ∧ shard.records[record.id]? = some record
  filled : ∀ (volume : VolumeId) (shard : SearchIndex), index.shards[volume]? = some shard →
    shard.records ≠ ∅

theorem recordsKeyed_of_coherent (coherent : index.Coherent) : RecordsKeyed index := by
  have distinct := nodup_records coherent
  refine ⟨distinct, ?_, fun record => ?_, ?_⟩
  · rw [List.Nodup, List.pairwise_map] at distinct ⊢
    refine distinct.imp_of_mem fun leftMem rightMem differs same => differs ?_
    rw [coherent.eq_of_path leftMem rightMem same]
  · rw [coherent.mem_records]
    constructor
    · exact fun live => ⟨_, getElem?_of_records live, live⟩
    · rintro ⟨shard, found, live⟩
      rw [shardAt_of_getElem? found]
      exact live
  · intro volume shard found empty
    have full := coherent.full volume shard found
    simp [empty] at full

theorem recordsKeyed_liveIndex (unicode : Unicode) (changes : List Change) :
    RecordsKeyed (liveIndex unicode changes) :=
  recordsKeyed_of_coherent (coherent_liveIndex unicode changes)

/-- The lookup of a path finds the record that has it, on whatever volume that is. -/
theorem getPath_liveIndex (unicode : Unicode) (changes : List Change) (path : Text)
    (record : FileRecord) :
    (liveIndex unicode changes).getPath path = some record ↔
      record ∈ (liveIndex unicode changes).records ∧ record.path = path := by
  have coherent := coherent_liveIndex unicode changes
  generalize liveIndex unicode changes = index at coherent
  have placed := (recordsKeyed_of_coherent coherent).placed
  have answers : ∀ answer, index.getPath path = some answer →
      answer ∈ index.records ∧ answer.path = path := by
    intro answer looked
    rcases List.exists_of_findSome?_eq_some looked with ⟨⟨volume, shard⟩, listed, looked⟩
    have found := Std.ExtTreeMap.mem_toList_iff_getElem?_eq_some.mp listed
    rcases Option.bind_eq_some_iff.mp looked with ⟨id, known, live⟩
    rcases (coherent.inverse volume shard found path id).mp known with ⟨other, otherLive, here⟩
    cases live.symm.trans otherLive
    refine ⟨(placed _).mpr ⟨shard, ?_⟩, here⟩
    have sameId := (coherent.steady volume shard found).well.recordId live
    rw [sameId, coherent.own volume shard found id answer live]
    exact ⟨found, live⟩
  refine ⟨answers record, ?_⟩
  rintro ⟨member, here⟩
  rcases (placed _).mp member with ⟨shard, found, live⟩
  cases looked : index.getPath path with
  | none =>
      have missed := List.findSome?_eq_none_iff.mp looked _
        (Std.ExtTreeMap.mem_toList_iff_getElem?_eq_some.mpr found)
      have known := (coherent.inverse _ shard found path record.id).mpr ⟨record, live, here⟩
      simp [known, live] at missed
  | some other =>
      rcases answers other looked with ⟨otherMem, otherHere⟩
      rw [coherent.eq_of_path member otherMem (here.trans otherHere.symm)]

end Gfm.Index

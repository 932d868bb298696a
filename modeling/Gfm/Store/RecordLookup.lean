import Gfm.Store.RecordReading

/-!
# Lookups in the mapped archive

Every lookup of an archive that holds a list of records with distinct ids is a filter of that
list.
-/

namespace Gfm.Store

open List Sorted Wire

namespace MmapRecordArchive.Holds

variable {unicode : Unicode} {utf8 : Utf8Report} {archive : MmapRecordArchive}
  {held : List FileRecord}

/-- Parsing the records of some indices. -/
theorem mapM_record (archive : MmapRecordArchive) {pairs : List (FileRecord × Nat)}
    (each : ∀ pair ∈ pairs, archive.record unicode utf8 pair.2 = .ok pair.1) :
    (pairs.map Prod.snd).mapM (archive.record unicode utf8) = .ok (pairs.map Prod.fst) := by
  induction pairs with
  | nil => rfl
  | cons pair pairs ih =>
      rw [map_cons, mapM_cons, each pair mem_cons_self,
        ih fun other listed => each other (mem_cons_of_mem pair listed)]
      rfl

theorem record_of_mem_zipIdx (holds : archive.Holds unicode utf8 held)
    {pair : FileRecord × Nat} (listed : pair ∈ held.zipIdx) :
    archive.record unicode utf8 pair.2 = .ok pair.1 :=
  holds.record pair.2 pair.1 (mem_zipIdx_iff_getElem?.mp listed)

theorem allRecords_eq (holds : archive.Holds unicode utf8 held) :
    archive.allRecords unicode utf8 = .ok held := by
  have parsed := mapM_record archive fun _ => holds.record_of_mem_zipIdx
  rw [zipIdx_map_snd, zipIdx_map_fst, ← range_eq_range'] at parsed
  rw [allRecords, holds.len, parsed]

/-- An entry of the directory leads to the record with its id. -/
theorem entry_spec (holds : archive.Holds unicode utf8 held) {entry : RecordDirectoryEntry}
    (listed : entry ∈ archive.directory) :
    ∃ record, held[entry.index]? = some record ∧ record.id = entry.id ∧
      archive.record unicode utf8 entry.index = .ok record := by
  rcases mem_map.mp (holds.directory.mem_iff.mp listed) with ⟨⟨record, index⟩, member, rfl⟩
  have place := mem_zipIdx_iff_getElem?.mp member
  exact ⟨record, place, rfl, holds.record index record place⟩

theorem exists_entry (holds : archive.Holds unicode utf8 held) {record : FileRecord}
    (listed : record ∈ held) : ∃ entry ∈ archive.directory, entry.id = record.id := by
  rcases mem_iff_getElem?.mp listed with ⟨index, place⟩
  refine ⟨⟨record.id, index⟩, holds.directory.mem_iff.mpr ?_, rfl⟩
  exact mem_map.mpr ⟨(record, index), mem_zipIdx_iff_getElem?.mpr place, rfl⟩

theorem filter_id_eq_singleton (distinct : (held.map FileRecord.id).Nodup) {record : FileRecord}
    (listed : record ∈ held) : held.filter (fun other => other.id = record.id) = [record] := by
  induction held with
  | nil => cases listed
  | cons first held ih =>
      rw [map_cons, nodup_cons] at distinct
      rcases mem_cons.mp listed with rfl | later
      · rw [filter_cons_of_pos (by simp), filter_eq_nil_iff.mpr]
        intro other member same
        rw [decide_eq_true_eq] at same
        exact distinct.1 (same ▸ mem_map_of_mem member)
      · have other : ¬first.id = record.id := fun same =>
          distinct.1 (same ▸ mem_map_of_mem later)
        rw [filter_cons_of_neg (by simpa using other), ih distinct.2 later]

/-- The records with an id, when the directory has an entry for it and when it has none. -/
theorem withId_of_entry (holds : archive.Holds unicode utf8 held)
    (distinct : (held.map FileRecord.id).Nodup) {entry : RecordDirectoryEntry}
    (listed : entry ∈ archive.directory) :
    ∃ record, archive.record unicode utf8 entry.index = .ok record ∧
      held.filter (fun other => other.id = entry.id) = [record] := by
  rcases holds.entry_spec listed with ⟨record, place, same, parsed⟩
  refine ⟨record, parsed, ?_⟩
  rw [← same]
  exact filter_id_eq_singleton distinct (mem_of_getElem? place)

theorem withId_of_no_entry (holds : archive.Holds unicode utf8 held) {id : FileId64}
    (none : ∀ entry ∈ archive.directory, entry.id ≠ id) :
    held.filter (fun other => other.id = id) = [] := by
  refine filter_eq_nil_iff.mpr fun record listed same => ?_
  rw [decide_eq_true_eq] at same
  rcases holds.exists_entry listed with ⟨entry, member, equal⟩
  exact none entry member (equal.trans same)

theorem key_eq_iff {entry : RecordDirectoryEntry} {id : FileId64} :
    compare entry.key id.val = .eq ↔ entry.id = id := by
  rw [Std.compare_eq_iff_eq]
  exact Subtype.val_inj

theorem find_eq (holds : archive.Holds unicode utf8 held)
    (distinct : (held.map FileRecord.id).Nodup) (id : FileId64) :
    archive.find unicode utf8 id = .ok (held.find? fun record => record.id = id) := by
  rw [← head?_filter]
  rcases binarySearchByKey_spec holds.strict.ascending id.val with
    ⟨index, entry, searched, place, same⟩ | ⟨searched, none⟩
  · have found := key_eq_iff.mp same
    rcases holds.withId_of_entry distinct (mem_of_getElem? place) with
      ⟨record, parsed, alone⟩
    rw [found] at alone
    simp only [find, searched, Option.bind_some, place, parsed, alone]
    rfl
  · have absent : ∀ entry ∈ archive.directory, entry.id ≠ id := fun entry listed same =>
      none entry listed (key_eq_iff.mpr same)
    simp only [find, searched, Option.bind_none, holds.withId_of_no_entry absent]
    rfl

section Volume

theorem volume_value_inj {left right : VolumeId} : left.value = right.value ↔ left = right := by
  rcases left with ⟨left⟩
  rcases right with ⟨right⟩
  exact (VolumeId.mk.injEq left right).symm.to_iff

theorem volumeOf_le_of_lt {left right : RecordDirectoryEntry}
    (lower : compare left.key right.key = .lt) : volumeOf left ≤ volumeOf right := by
  have parts : (compare (volumeOf left) (volumeOf right)).then
      (compare left.key.node right.key.node) = .lt := lower
  apply Nat.compare_ne_gt.mp
  intro greater
  rw [greater] at parts
  cases parts

theorem volume_ascending (holds : archive.Holds unicode utf8 held) :
    archive.directory.Pairwise fun left right => volumeOf left ≤ volumeOf right :=
  holds.strict.imp volumeOf_le_of_lt

theorem containsVolume_eq (holds : archive.Holds unicode utf8 held) (volume : VolumeId) :
    archive.containsVolume volume = held.any fun record => record.id.val.volume = volume := by
  have ascending : Ascending volumeOf archive.directory :=
    holds.volume_ascending.imp fun lower => Nat.isLE_compare.mpr lower
  rw [containsVolume, Bool.eq_iff_iff, any_eq_true]
  rcases binarySearchByKey_spec ascending volume.value with
    ⟨index, entry, searched, place, same⟩ | ⟨searched, none⟩
  · rw [searched]
    refine ⟨fun _ => ?_, fun _ => rfl⟩
    rcases holds.entry_spec (mem_of_getElem? place) with ⟨record, member, equal, -⟩
    refine ⟨record, mem_of_getElem? member, decide_eq_true ?_⟩
    rw [equal]
    exact volume_value_inj.mp (Nat.compare_eq_eq.mp same)
  · rw [searched]
    refine ⟨nofun, ?_⟩
    rintro ⟨record, listed, same⟩
    rcases holds.exists_entry listed with ⟨entry, member, equal⟩
    refine absurd (Nat.compare_eq_eq.mpr ?_) (none entry member)
    rw [volumeOf, equal]
    exact volume_value_inj.mpr (of_decide_eq_true same)

theorem volume_slice (holds : archive.Holds unicode utf8 held) (volume : VolumeId) :
    (archive.directory.take (partitionPoint (fun entry => volumeOf entry ≤ volume.value)
      archive.directory)).drop (partitionPoint (fun entry => volumeOf entry < volume.value)
        archive.directory) =
      archive.directory.filter fun entry => volumeOf entry = volume.value := by
  rw [slice_partitionPoint]
  · refine filter_congr fun entry _ => ?_
    rw [Bool.eq_iff_iff]
    simp only [Bool.and_eq_true, decide_eq_true_eq, Bool.not_eq_true', decide_eq_false_iff_not]
    omega
  · refine holds.volume_ascending.imp fun {left right} lower below => ?_
    rw [decide_eq_true_eq] at below ⊢
    omega
  · refine holds.volume_ascending.imp fun {left right} lower below => ?_
    rw [decide_eq_true_eq] at below ⊢
    omega
  · intro entry _ below
    rw [decide_eq_true_eq] at below ⊢
    omega

/-- The entries of a volume in the order of the archive. -/
theorem sorted_volume (holds : archive.Holds unicode utf8 held) (volume : VolumeId) :
    sortByKey RecordDirectoryEntry.index
        (archive.directory.filter fun entry => volumeOf entry = volume.value) =
      (held.zipIdx.filter fun pair => pair.1.id.val.volume.value = volume.value).map
        fun pair => ⟨pair.1.id, pair.2⟩ := by
  apply sortByKey_eq_of_strict
  · refine (holds.directory.filter _).trans ?_
    rw [filter_map]
    exact List.Perm.refl _
  · refine pairwise_map.mpr (List.Pairwise.filter _ ?_)
    have order : (held.zipIdx.map Prod.snd).Pairwise (· < ·) := by
      rw [zipIdx_map_snd]
      exact pairwise_lt_range'
    exact (pairwise_map.mp order).imp fun lower => Nat.compare_eq_lt.mpr lower

theorem recordsForVolume_eq (holds : archive.Holds unicode utf8 held) (volume : VolumeId) :
    archive.recordsForVolume unicode utf8 volume =
      .ok (held.filter fun record => record.id.val.volume = volume) := by
  have whole : archive.recordsForVolume unicode utf8 volume =
      (sortByKey RecordDirectoryEntry.index
        (archive.directory.filter fun entry => volumeOf entry = volume.value)).mapM
          fun entry => archive.record unicode utf8 entry.index := by
    rw [← holds.volume_slice volume]
    simp only [recordsForVolume]
    split
    case isTrue same =>
      rw [same, drop_eq_nil_of_le (length_take_le _ _), sortByKey, insertionSort_nil]
      rfl
    case isFalse => rfl
  have parsed := @mapM_record unicode utf8 archive
    (held.zipIdx.filter fun pair => pair.1.id.val.volume.value = volume.value)
    fun pair listed => holds.record_of_mem_zipIdx (mem_filter.mp listed).1
  have kept : (held.zipIdx.filter fun pair => pair.1.id.val.volume.value = volume.value).map
      Prod.fst = held.filter fun record => record.id.val.volume = volume := by
    have moved := @filter_map _ _ Prod.fst
      (fun record : FileRecord => decide (record.id.val.volume = volume)) held.zipIdx
    rw [zipIdx_map_fst] at moved
    rw [moved]
    refine congrArg (List.map Prod.fst) (filter_congr fun pair _ => ?_)
    exact decide_eq_decide.mpr volume_value_inj
  rw [whole, holds.sorted_volume volume, mapM_map, ← kept, ← parsed, mapM_map]
  rfl

end Volume

section SortedIds

theorem all_ne_eq (held : List FileRecord) (id : FileId64) :
    (held.all fun record => record.id ≠ id) =
      (held.filter fun record => record.id = id).isEmpty := by
  rw [Bool.eq_iff_iff, all_eq_true, List.isEmpty_iff, filter_eq_nil_iff]
  simp only [decide_eq_true_eq, ne_eq]

/-- The walk from a directory index that has passed only smaller ids. -/
theorem sortedIdsFrom_eq (holds : archive.Holds unicode utf8 held)
    (distinct : (held.map FileRecord.id).Nodup) (ids : List FileId64) :
    ∀ (previous : Option FileId64) (index : Nat) (batch : MmapRecordBatch),
      (∀ known, previous = some known → ∀ id ∈ ids, (compare known.val id.val).isLE) →
      (∀ entry ∈ archive.directory.take index,
        ∃ known, previous = some known ∧ (compare entry.key known.val).isLT) →
      ids.Pairwise (fun left right => (compare left.val right.val).isLE) →
      archive.sortedIdsFrom unicode utf8 previous index batch ids =
        .ok ⟨batch.records ++ (ids.filter (previous ≠ some ·)).eraseDups.flatMap
            fun id => held.filter fun record => record.id = id,
          batch.missing + (ids.filter (previous ≠ some ·)).eraseDups.countP
            fun id => held.all fun record => record.id ≠ id⟩ := by
  induction ids with
  | nil =>
      intro previous index batch _ _ _
      simp [sortedIdsFrom]
  | cons id ids ih =>
      intro previous index batch above passed ordered
      rw [pairwise_cons] at ordered
      have inOrder : ¬(previous.any fun known => (compare id.val known.val).isLT) = true := by
        intro smaller
        cases known : previous with
        | none =>
            rw [known] at smaller
            cases smaller
        | some before =>
            have higher := above before known id mem_cons_self
            rw [known, Option.any_some, Ordering.isLT_iff_eq_lt] at smaller
            rw [Std.OrientedOrd.eq_swap, smaller] at higher
            cases higher
      rw [sortedIdsFrom, if_neg inOrder]
      by_cases repeated : previous = some id
      · rw [if_pos repeated, filter_cons_of_neg (by simp [repeated])]
        exact ih previous index batch
          (fun known same other listed => above known same other (mem_cons_of_mem id listed))
          passed ordered.2
      have others : ((id :: ids).filter (previous ≠ some ·)).eraseDups =
          id :: (ids.filter (some id ≠ some ·)).eraseDups :=
        filter_previous Subtype.val_injective repeated
          (fun known same => above known same id mem_cons_self) ordered.1
      rw [if_neg repeated, others]
      have passedId : ∀ entry ∈ archive.directory.take index, (compare entry.key id.val).isLT := by
        intro entry listed
        rcases passed entry listed with ⟨known, same, lower⟩
        have upper := above known same id mem_cons_self
        rw [Ordering.isLT_iff_eq_lt] at lower ⊢
        exact Std.TransCmp.lt_of_lt_of_isLE lower upper
      rcases partitionPoint_drop holds.strict.ascending passedId with ⟨place, passedNext⟩
      have rest := fun batch => ih (some id) (archive.skipSmaller id index) batch
        (fun known same other listed => Option.some.inj same ▸ ordered.1 other listed)
        (fun entry listed => ⟨id, rfl, passedNext entry listed⟩) ordered.2
      have absent (none : ∀ entry ∈ archive.directory, compare entry.key id.val ≠ .eq) :
          held.filter (fun record => record.id = id) = [] :=
        holds.withId_of_no_entry fun entry listed same =>
          none entry listed (key_eq_iff.mpr same)
      simp only [skipSmaller] at rest ⊢
      simp only [place, flatMap_cons, countP_cons, all_ne_eq]
      simp only [all_ne_eq] at rest
      cases later : archive.directory.filter
          fun entry => !(compare entry.key id.val).isLT with
      | nil =>
          simp only [head?_nil, rest, absent (ne_of_filter_eq_nil later)]
          simp [Nat.add_assoc, Nat.add_comm]
      | cons entry others =>
          simp only [head?_cons]
          by_cases found : entry.id = id
          · have listed : entry ∈ archive.directory :=
              mem_of_mem_filter (later ▸ mem_cons_self)
            rcases holds.withId_of_entry distinct listed with ⟨record, parsed, alone⟩
            rw [found] at alone
            simp only [if_pos found, parsed, alone, bind, Except.bind, rest]
            simp
          · have missing := absent (ne_of_filter_eq_cons holds.strict.ascending later
              fun same => found (key_eq_iff.mp same))
            simp only [if_neg found, missing, rest]
            simp [Nat.add_assoc, Nat.add_comm]

/-- The lookup of sorted ids: each distinct id gives its record, or is missing. -/
theorem recordsForSortedIds_eq (holds : archive.Holds unicode utf8 held)
    (distinct : (held.map FileRecord.id).Nodup) {ids : List FileId64}
    (ordered : ids.Pairwise fun left right => (compare left.val right.val).isLE) :
    archive.recordsForSortedIds unicode utf8 ids =
      .ok ⟨ids.eraseDups.flatMap fun id => held.filter fun record => record.id = id,
        ids.eraseDups.countP fun id => held.all fun record => record.id ≠ id⟩ := by
  have walked := holds.sortedIdsFrom_eq distinct ids none 0 ⟨[], 0⟩ (by simp) (by simp) ordered
  have all : ids.filter (none ≠ some ·) = ids := filter_eq_self.mpr (by simp)
  rw [all, nil_append, Nat.zero_add] at walked
  exact walked

end SortedIds

end MmapRecordArchive.Holds

/-- A written archive reads back as the records in their stored form, and every lookup of the
mapped archive is a filter of what the sequential reader gives. -/
theorem writeRecords_roundTrip (unicode : Unicode) (utf8 : Utf8Report) (path : Path)
    (records : List FileRecord) (distinct : (records.map FileRecord.id).Nodup) :
    readRecords unicode utf8 path (writeRecords records) =
        .ok (records.map (FileRecord.stored unicode)) ∧
      ∃ archive, MmapRecordArchive.openArchive utf8 path (writeRecords records) = .ok archive ∧
        ∃ held, readRecords unicode utf8 path (writeRecords records) = .ok held ∧
          archive.allRecords unicode utf8 = .ok held ∧
          (∀ id, archive.find unicode utf8 id = .ok (held.find? fun record => record.id = id)) ∧
          (∀ ids : List FileId64,
            ids.Pairwise (fun left right => (compare left.val right.val).isLE) →
              archive.recordsForSortedIds unicode utf8 ids =
                .ok ⟨ids.eraseDups.flatMap fun id => held.filter fun record => record.id = id,
                  ids.eraseDups.countP fun id => held.all fun record => record.id ≠ id⟩) ∧
          (∀ volume, archive.recordsForVolume unicode utf8 volume =
            .ok (held.filter fun record => record.id.val.volume = volume)) ∧
          (∀ volume, archive.containsVolume volume =
            held.any fun record => record.id.val.volume = volume) := by
  have read := readRecords_written unicode utf8 path records
  rcases openArchive_written unicode utf8 path records distinct with ⟨archive, opened, holds⟩
  have distinctHeld : ((records.map (FileRecord.stored unicode)).map FileRecord.id).Nodup := by
    rw [map_map]
    exact distinct
  exact ⟨read, archive, opened, _, read, holds.allRecords_eq, holds.find_eq distinctHeld,
    fun _ ordered => holds.recordsForSortedIds_eq distinctHeld ordered,
    holds.recordsForVolume_eq, holds.containsVolume_eq⟩

/-- A record whose tags, comment and path hold every character that the format uses. -/
def awkwardRecord : FileRecord where
  id := fileId 7 1
  parent := some (fileId 8 3)
  path := "/a\tb/c\n,d".toList
  name := []
  kind := .file
  len := 5
  mode := 420
  owner := 501
  group := 20
  xattrsDigest := 0
  created := some ⟨-1, by decide⟩
  modified := some ⟨2 ^ 64, by decide⟩
  changed := none
  hidden := true
  tags := [" ".toList, "red,\\".toList, "blue".toList, "red,\\".toList]
  finderComment := some []

theorem writeRecords_roundTrip_awkward :
    readRecords Unicode.ascii ⟨fun _ => "", fun _ => ""⟩ [] (writeRecords [awkwardRecord]) =
      .ok [{ awkwardRecord with
        parent := some (fileId 7 3)
        name := "c\n,d".toList
        created := none
        modified := some ⟨2 ^ 64 - 1, by decide⟩
        tags := ["blue".toList, "red,\\".toList]
        finderComment := none }] := by
  refine (writeRecords_roundTrip Unicode.ascii ⟨fun _ => "", fun _ => ""⟩ [] [awkwardRecord]
    (by decide)).1.trans (congrArg Except.ok ?_)
  decide +kernel

end Gfm.Store

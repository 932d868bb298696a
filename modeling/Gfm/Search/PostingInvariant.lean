import Gfm.Search.Steps

/-!
# The posting invariant

The index is sound when every listed id is the id of a live record and the path
map is the inverse of the records. An insert at the path of another record and
the withdrawal of a record that is listed under more than its columns imply are
the two ways to lose this; every other step keeps it.
-/

namespace Gfm.Search

open Postings Std

namespace SearchIndex

/-- The path map has the path of every live record, with its id, and nothing else. -/
def PathsInverse (index : SearchIndex) : Prop :=
  ∀ (path : Text) (id : FileId), index.paths[path]? = some id ↔
    ∃ record : FileRecord, index.records[id]? = some record ∧ record.path = path

/-- A path of the map is that of the live record with its id. -/
def PathsNamed (index : SearchIndex) : Prop :=
  ∀ (path : Text) (id : FileId), index.paths[path]? = some id →
    ∃ record : FileRecord, index.records[id]? = some record ∧ record.path = path

structure Sound (index : SearchIndex) : Prop where
  live : ∀ {column : Column} {key : Text} {id : FileId},
    Lists (index.listing column) key id → id ∈ index.records
  liveKind : ∀ {kind : FileKind} {id : FileId}, Lists index.kind kind id → id ∈ index.records
  liveContent : ∀ {term : Text} {id : FileId},
    ContentLists index.contentTerms term id → id ∈ index.records
  inverse : index.PathsInverse

/-- No record other than the one with this id has the path of the record. -/
def PathFree (index : SearchIndex) (record : FileRecord) : Prop :=
  ∀ (id : FileId) (other : FileRecord), index.records[id]? = some other →
    other.path = record.path → id = record.id

/-- The id is listed under nothing but what its stored columns imply. -/
def Covered (index : SearchIndex) (id : FileId) : Prop :=
  ∀ column key, Lists (index.listing column) key id → index.Implies column key id

/-- What a step asks of the index before it. -/
def Meets (index : SearchIndex) : IndexOp → Prop
  | .insert record | .insertWithColumns record _ | .insertWithColumnsDeferredFuzzy record _
  | .insertWithColumnsDeferredSidecars record _ => index.PathFree record
  | .remove id => index.Covered id
  | .removePath path => ∀ id, index.paths[path]? = some id → index.Covered id
  | .removeSubtree root => ∀ id ∈ index.subtreeIds root, index.Covered id
  | _ => True

variable {unicode : Unicode} {index after : SearchIndex} {id : FileId} {ids : List FileId}

theorem mem_records_iff : id ∈ index.records ↔ ∃ record, index.records[id]? = some record := by
  rw [ExtTreeMap.mem_iff_isSome_getElem?, Option.isSome_iff_exists]

theorem PathsInverse.named (inverse : index.PathsInverse) : index.PathsNamed :=
  fun path id => (inverse path id).mp

theorem replaceOld_paths (unicode : Unicode) :
    (index.replaceOld unicode id).paths =
      match index.records[id]? with
      | none => index.paths
      | some old => index.paths.erase old.path := by
  rw [replaceOld]
  cases index.records[id]? with
  | none => rfl
  | some old => simp only [removeTerms_frame.2.2]

theorem PathsInverse.replaceOld_paths (unicode : Unicode) (inverse : index.PathsInverse)
    (path : Text) (other : FileId) :
    (index.replaceOld unicode id).paths[path]? = some other ↔
      index.paths[path]? = some other ∧ other ≠ id := by
  rw [SearchIndex.replaceOld_paths]
  cases found : index.records[id]? with
  | none =>
      refine (and_iff_left_of_imp ?_).symm
      rintro mapped rfl
      rcases (inverse path other).mp mapped with ⟨record, live, -⟩
      rw [found] at live
      cases live
  | some old =>
      simp only [ExtTreeMap.getElem?_erase, Std.compare_eq_iff_eq]
      by_cases same : old.path = path
      · have mapped := (inverse path id).mpr ⟨old, found, same⟩
        simp only [same, if_true, reduceCtorEq, mapped, Option.some.injEq, false_iff, not_and]
        exact fun sameId differs => differs sameId.symm
      · simp only [same, if_false]
        refine (and_iff_left_of_imp ?_).symm
        rintro mapped rfl
        rcases (inverse path other).mp mapped with ⟨record, live, samePath⟩
        rw [found, Option.some.injEq] at live
        exact same (live ▸ samePath)

theorem Withdrawn.inverse (withdrawn : Withdrawn index ids after) (inverse : index.PathsInverse)
    (paths : ∀ (path : Text) (other : FileId), after.paths[path]? = some other ↔
      index.paths[path]? = some other ∧ other ∉ ids) : after.PathsInverse := by
  intro path other
  rw [paths, inverse, withdrawn.records]
  by_cases member : other ∈ ids <;> simp [member]

theorem PathsInverse.remove (unicode : Unicode) (well : index.WellIndexed)
    (inverse : index.PathsInverse) (id : FileId) :
    (index.remove unicode id).2.PathsInverse := by
  refine (remove_withdrawn unicode well id).inverse inverse fun path other => ?_
  rcases remove_eq unicode index id with ⟨pinned, same⟩
  rw [same, List.mem_singleton]
  exact inverse.replaceOld_paths unicode path other

theorem PathsInverse.removeEachId (unicode : Unicode) (well : index.WellIndexed)
    (inverse : index.PathsInverse) (ids : List FileId) :
    (index.removeEachId unicode ids).2.PathsInverse := by
  induction ids generalizing index with
  | nil => exact inverse
  | cons id ids ih =>
      exact ih ((remove_withdrawn unicode well id).wellIndexed well)
        (PathsInverse.remove unicode well inverse id)

theorem PathsInverse.removePath (unicode : Unicode) (well : index.WellIndexed)
    (inverse : index.PathsInverse) (path : Text) :
    (index.removePath unicode path).2.PathsInverse := by
  have withdrawn := removePath_withdrawn unicode well path
  rw [SearchIndex.removePath] at withdrawn ⊢
  cases mapped : index.paths[path]? with
  | none => exact inverse
  | some id =>
      rw [mapped] at withdrawn
      refine withdrawn.inverse inverse fun other otherId => ?_
      rcases (inverse path id).mp mapped with ⟨record, live, samePath⟩
      rcases remove_eq unicode { index with paths := index.paths.erase path } id with
        ⟨pinned, same⟩
      rw [same]
      simp only [SearchIndex.replaceOld_paths, live, samePath, Option.toList_some,
        List.mem_singleton, ExtTreeMap.getElem?_erase, Std.compare_eq_iff_eq]
      by_cases samePaths : path = other
      · subst samePaths
        simp [mapped, eq_comm]
      · simp only [samePaths, if_false]
        refine (and_iff_left_of_imp ?_).symm
        rintro otherMapped rfl
        rcases (inverse other otherId).mp otherMapped with ⟨_, otherLive, otherPath⟩
        rw [live, Option.some.injEq] at otherLive
        exact samePaths (samePath ▸ otherLive ▸ otherPath)

/-- Withdrawing records is sound exactly when they are listed under their columns only. -/
theorem Withdrawn.sound_iff (withdrawn : Withdrawn index ids after) (well : index.WellIndexed)
    (sound : index.Sound) (inverse : after.PathsInverse) :
    after.Sound ↔ ∀ id ∈ ids, index.Covered id := by
  constructor
  · intro soundAfter id member column key lists
    by_contra notImplied
    have live := soundAfter.live (withdrawn.listing.mpr ⟨lists, fun both => notImplied both.2⟩)
    rw [mem_records_iff, withdrawn.records, if_pos member] at live
    rcases live with ⟨record, found⟩
    cases found
  · intro covered
    have wellAfter := withdrawn.wellIndexed well
    refine ⟨?_, ?_, wellAfter.contentLive, inverse⟩
    · intro column key id lists
      rw [withdrawn.listing] at lists
      rcases lists with ⟨before, kept⟩
      have notMember : id ∉ ids := fun member => kept ⟨member, covered id member column key before⟩
      have live := sound.live before
      rw [mem_records_iff] at live ⊢
      rwa [withdrawn.records, if_neg notMember]
    · intro kind id lists
      rcases wellAfter.kinds.mp lists with ⟨record, found, -⟩
      exact mem_records_iff.mpr ⟨record, found⟩

variable {record : FileRecord} {entry : RecordColumns} {built : Column → Bool}

theorem Listed.mem_records (isListed : Listed index record entry built after) :
    id ∈ after.records ↔ id = record.id ∨ id ∈ index.records := by
  rw [mem_records_iff, mem_records_iff, isListed.records]
  by_cases same : id = record.id <;> simp [same]

/-- Listing a record is sound as far as its path is. -/
theorem Listed.sound_iff (isListed : Listed index record entry built after)
    (sound : index.Sound) : after.Sound ↔ after.PathsInverse := by
  refine ⟨Sound.inverse, fun inverse => ⟨?_, ?_, ?_, inverse⟩⟩
  · intro column key id lists
    rw [isListed.listing] at lists
    rw [isListed.mem_records]
    exact lists.imp (fun new => new.2.2) fun old => sound.live old.1
  · intro kind id lists
    rw [isListed.kinds] at lists
    rw [isListed.mem_records]
    exact lists.imp And.right fun old => sound.liveKind old.1
  · intro term id lists
    rw [isListed.content] at lists
    exact isListed.mem_records.mpr (Or.inr (sound.liveContent lists.1))

/-- An insert keeps the path map the inverse exactly when no other record has the path. -/
theorem Listed.inverse_iff (unicode : Unicode) (isListed : Listed index record entry built after)
    (inverse : index.PathsInverse)
    (paths : after.paths =
      (index.replaceOld unicode record.id).paths.insert record.path record.id) :
    after.PathsInverse ↔ index.PathFree record := by
  have mapped (path : Text) (other : FileId) : after.paths[path]? = some other ↔
      (path = record.path ∧ other = record.id) ∨
        (path ≠ record.path ∧ index.paths[path]? = some other ∧ other ≠ record.id) := by
    simp only [paths, ExtTreeMap.getElem?_insert, Std.compare_eq_iff_eq]
    by_cases same : record.path = path
    · simp [same, eq_comm]
    · simp only [same, if_false, inverse.replaceOld_paths, Ne.symm same, false_and, ne_eq,
        not_false_eq_true, true_and, false_or]
  constructor
  · intro inverseAfter id other live samePath
    by_contra differs
    have liveAfter : after.records[id]? = some other := by
      rw [isListed.records, if_neg differs, live]
    rcases (mapped _ _).mp ((inverseAfter record.path id).mpr ⟨other, liveAfter, samePath⟩) with
      ⟨-, sameId⟩ | ⟨otherPath, -⟩
    · exact differs sameId
    · exact otherPath rfl
  · intro free path other
    rw [mapped, inverse, isListed.records]
    by_cases same : other = record.id
    · simp [same, eq_comm]
    · simp only [same, and_false, false_or, ne_eq, not_false_eq_true, and_true, if_false]
      refine and_iff_right_of_imp ?_
      rintro ⟨old, live, rfl⟩ samePath
      exact same (free other old live samePath)

theorem ContentChanged.sound (changed : ContentChanged index after) (well : index.WellIndexed)
    (sound : index.Sound) : after.Sound := by
  have wellAfter := changed.wellIndexed well
  refine ⟨?_, ?_, wellAfter.contentLive, ?_⟩
  · intro column key id lists
    rw [changed.listing] at lists
    exact changed.records ▸ sound.live lists
  · intro kind id lists
    rw [changed.kinds] at lists
    exact changed.records ▸ sound.liveKind lists
  · intro path id
    rw [changed.paths, changed.records]
    exact sound.inverse path id

theorem Imported.sound (isImported : Imported index after) (sound : index.Sound) :
    after.Sound := by
  refine ⟨?_, ?_, ?_, ?_⟩
  · intro column key id lists
    rw [isImported.records]
    exact (isImported.live lists).elim sound.live fun live => live
  · intro kind id lists
    rw [isImported.kinds] at lists
    exact isImported.records ▸ sound.liveKind lists
  · intro term id lists
    rw [isImported.content] at lists
    exact isImported.records ▸ sound.liveContent lists
  · intro path id
    rw [isImported.paths, isImported.records]
    exact sound.inverse path id

theorem insert_sound_iff (well : index.WellIndexed) (sound : index.Sound) (record : FileRecord) :
    (index.insert unicode record).Sound ↔ index.PathFree record := by
  have isListed := insert_listed unicode well record
  rw [isListed.sound_iff sound]
  exact isListed.inverse_iff unicode sound.inverse (insert_paths unicode index record)

theorem insertWithColumnsInner_sound_iff (well : index.WellIndexed) (sound : index.Sound)
    (record : FileRecord) (columns : SearchRecordColumns)
    (buildPrefixes buildSubstrings buildFuzzy buildMetadata : Bool) :
    (index.insertWithColumnsInner unicode record columns buildPrefixes buildSubstrings buildFuzzy
      buildMetadata).2.Sound ↔ index.PathFree record := by
  rcases insertWithColumnsInner_listed unicode well record columns buildPrefixes buildSubstrings
    buildFuzzy buildMetadata with ⟨entry, built, -, -, isListed⟩
  rw [isListed.sound_iff sound]
  exact isListed.inverse_iff unicode sound.inverse
    (insertWithColumnsInner_paths unicode index record columns _ _ _ _)

theorem applyRecordColumns_sound (unicode : Unicode) (well : index.WellIndexed)
    (sound : index.Sound) (columns : SearchRecordColumns) :
    (index.applyRecordColumns unicode columns).2.Sound := by
  cases found : index.records[columns.id]? with
  | none =>
      simp only [applyRecordColumns, found]
      exact sound
  | some record =>
      have sameId : record.id = columns.id := well.recordId found
      rw [← sameId] at found
      simp only [applyRecordColumns, ← sameId, found]
      refine ((well.listed_anew unicode found).sound_iff sound).mpr fun path id => ?_
      rcases addTerms_frame unicode record (RecordColumns.fromSearchColumns unicode columns) true
        true true true (index.removeTerms unicode record) with ⟨sameRecords, -, samePaths, -⟩
      simp only [addTerms, sameRecords, samePaths, removeTerms_frame.1, removeTerms_frame.2.2]
      exact sound.inverse path id

theorem Sound.bookkeeping (sound : index.Sound) (pinned : ExtTreeSet FileId) :
    ({ index with pinned } : SearchIndex).Sound :=
  ⟨fun lists => sound.live (listing_bookkeeping _ _ _ _ ▸ lists), sound.liveKind,
    sound.liveContent, sound.inverse⟩

theorem step_sound_iff (unicode : Unicode) (well : index.WellIndexed) (sound : index.Sound)
    (operation : IndexOp) : (index.step unicode operation).Sound ↔ index.Meets operation := by
  cases operation with
  | insert record => exact insert_sound_iff well sound record
  | insertWithColumns record columns =>
      exact insertWithColumnsInner_sound_iff well sound record columns _ _ _ _
  | insertWithColumnsDeferredFuzzy record columns =>
      exact insertWithColumnsInner_sound_iff well sound record columns _ _ _ _
  | insertWithColumnsDeferredSidecars record columns =>
      exact insertWithColumnsInner_sound_iff well sound record columns _ _ _ _
  | importPrefixPostings postings =>
      exact iff_true_intro ((imported_importPrefixPostings postings).sound sound)
  | importSubstringPostings postings =>
      exact iff_true_intro ((imported_importSubstringPostings postings).sound sound)
  | importFuzzyPostings postings =>
      exact iff_true_intro ((imported_importFuzzyPostings postings).sound sound)
  | importMetadataPostings postings =>
      exact iff_true_intro ((imported_importMetadataPostings postings).sound sound)
  | importContentPostings postings =>
      exact iff_true_intro ((contentChanged_importContentPostings postings).sound well sound)
  | applyRecordColumns columns =>
      exact iff_true_intro (applyRecordColumns_sound unicode well sound columns)
  | insertContent id text =>
      exact iff_true_intro ((contentChanged_insertContent text).sound well sound)
  | insertContentTerms id terms =>
      exact iff_true_intro ((contentChanged_insertContentTerms terms).sound well sound)
  | removeContent id =>
      exact iff_true_intro ((contentChanged_removeContent index id).sound well sound)
  | remove id =>
      rw [step, (remove_withdrawn unicode well id).sound_iff well sound
        (PathsInverse.remove unicode well sound.inverse id)]
      exact List.forall_mem_singleton
  | removePath path =>
      rw [step, (removePath_withdrawn unicode well path).sound_iff well sound
        (PathsInverse.removePath unicode well sound.inverse path)]
      simp [Meets]
  | removeSubtree root =>
      exact (removeEachId_withdrawn unicode well _).sound_iff well sound
        (PathsInverse.removeEachId unicode well sound.inverse _)
  | pin id =>
      refine iff_true_intro ?_
      simp only [step, pin]
      split
      · exact sound.bookkeeping _
      · exact sound
  | unpin id => exact iff_true_intro (sound.bookkeeping _)

theorem sound_new : new.Sound := by
  refine ⟨?_, fun lists => absurd lists not_lists_empty, wellIndexed_new.contentLive, ?_⟩
  · intro column key id lists
    cases column <;> exact absurd lists not_lists_empty
  · intro path id
    simp [new]

/-- Every state of a run is sound exactly when every step meets its condition. -/
theorem run_sound_iff (unicode : Unicode) (operations : List IndexOp) :
    (∀ done rest, operations = done ++ rest → (new.run unicode done).Sound) ↔
      ∀ done operation rest, operations = done ++ operation :: rest →
        (new.run unicode done).Meets operation := by
  have runStep (done : List IndexOp) (operation : IndexOp) :
      new.run unicode (done ++ [operation]) = (new.run unicode done).step unicode operation := by
    simp [run]
  constructor
  · intro sound done operation rest split
    have after := sound (done ++ [operation]) rest (by simp [split])
    rw [runStep] at after
    exact (step_sound_iff unicode (wellIndexed_run unicode done)
      (sound done (operation :: rest) split) operation).mp after
  · intro meets done
    induction done using List.reverseRecOn with
    | nil => exact fun _ _ => sound_new
    | append_singleton done operation ih =>
        intro rest split
        have before := ih (operation :: rest) (by simp [split])
        rw [runStep]
        exact (step_sound_iff unicode (wellIndexed_run unicode done) before operation).mpr
          (meets done operation rest (by simp [split]))

/-- A file `/a`, as the scanner reports it. -/
def plainRecord (node : Nat) : FileRecord where
  id := ⟨⟨1⟩, node⟩
  path := "/a".toList
  name := "a".toList
  kind := .file
  len := 0
  created := none
  modified := none
  changed := none
  tags := []
  finderComment := none

/-- The path passes to the second record; the imported prefix outlives the record it lists. -/
theorem run_unsound :
    ¬(new.run Unicode.ascii [.insert (plainRecord 1), .insert (plainRecord 2)]).Sound ∧
      ¬(new.run Unicode.ascii [.insert (plainRecord 1),
        .importPrefixPostings [⟨"b".toList, [⟨⟨1⟩, 1⟩]⟩], .remove ⟨⟨1⟩, 1⟩]).Sound := by
  constructor
  · intro sound
    have mapped := (sound.inverse "/a".toList ⟨⟨1⟩, 1⟩).mpr
      ⟨plainRecord 1, by decide +kernel, by decide +kernel⟩
    have other : (new.run Unicode.ascii [.insert (plainRecord 1),
        .insert (plainRecord 2)]).paths["/a".toList]? = some ⟨⟨1⟩, 2⟩ := by
      decide +kernel
    rw [mapped] at other
    cases other
  · intro sound
    have live := @Sound.live _ sound .namePrefixes "b".toList ⟨⟨1⟩, 1⟩
      ⟨ExtTreeSet.empty.insert ⟨⟨1⟩, 1⟩, by decide +kernel, by decide +kernel⟩
    revert live
    decide +kernel

end SearchIndex

end Gfm.Search

import Gfm.Search.Entries

/-!
# Removing a subtree

The index removes the records that its path map has at a root or below it. Whatever operations it
went through, a path of the map is that of the live record with its id, so no other record is
touched: it keeps its columns, its listings, its content and its own path.
-/

namespace Gfm.Search

open Postings Std

namespace SearchIndex

variable {unicode : Unicode} {index middle after : SearchIndex} {id other : FileId}
  {ids : List FileId}

/-- The record with the id, if any, has its path in the map. -/
def Entered (index : SearchIndex) (id : FileId) : Prop :=
  ∀ record : FileRecord, index.records[id]? = some record → index.paths[record.path]? = some id

section Named

theorem PathsNamed.replaceOld (named : index.PathsNamed) {path : Text}
    (mapped : (index.replaceOld unicode id).paths[path]? = some other) :
    index.paths[path]? = some other ∧ other ≠ id := by
  rw [SearchIndex.replaceOld_paths] at mapped
  cases found : index.records[id]? with
  | none =>
      simp only [found] at mapped
      refine ⟨mapped, ?_⟩
      rintro rfl
      rcases named path other mapped with ⟨record, live, -⟩
      rw [found] at live
      cases live
  | some old =>
      simp only [found, ExtTreeMap.getElem?_erase, Std.compare_eq_iff_eq] at mapped
      split at mapped
      case isTrue => cases mapped
      case isFalse apart =>
        refine ⟨mapped, ?_⟩
        rintro rfl
        rcases named path other mapped with ⟨record, live, samePath⟩
        rw [found, Option.some.injEq] at live
        exact apart (live ▸ samePath)

theorem PathsNamed.withdrawn (named : index.PathsNamed) (withdrawn : Withdrawn index ids after)
    (paths : ∀ (path : Text) (other : FileId), after.paths[path]? = some other →
      index.paths[path]? = some other ∧ other ∉ ids) : after.PathsNamed := by
  intro path other mapped
  rcases paths path other mapped with ⟨before, apart⟩
  rcases named path other before with ⟨record, live, samePath⟩
  exact ⟨record, by rw [withdrawn.records, if_neg apart, live], samePath⟩

theorem PathsNamed.remove (well : index.WellIndexed) (named : index.PathsNamed) (id : FileId) :
    (index.remove unicode id).2.PathsNamed := by
  refine named.withdrawn (remove_withdrawn unicode well id) fun path other mapped => ?_
  rcases remove_eq unicode index id with ⟨pinned, same⟩
  rw [same] at mapped
  rw [List.mem_singleton]
  exact named.replaceOld mapped

theorem PathsNamed.removeEachId (well : index.WellIndexed) (named : index.PathsNamed)
    (ids : List FileId) : (index.removeEachId unicode ids).2.PathsNamed := by
  induction ids generalizing index with
  | nil => exact named
  | cons id ids ih =>
      exact ih ((remove_withdrawn unicode well id).wellIndexed well) (named.remove well id)

theorem PathsNamed.setPaths (named : index.PathsNamed) (path : Text) :
    ({ index with paths := index.paths.erase path } : SearchIndex).PathsNamed := by
  intro other id mapped
  simp only [ExtTreeMap.getElem?_erase] at mapped
  split at mapped
  case isTrue => cases mapped
  case isFalse => exact named other id mapped

theorem PathsNamed.removePath (well : index.WellIndexed) (named : index.PathsNamed)
    (path : Text) : (index.removePath unicode path).2.PathsNamed := by
  rw [SearchIndex.removePath]
  cases index.paths[path]? with
  | none => exact named
  | some id => exact (named.setPaths path).remove (well.setPaths _) id

variable {record : FileRecord} {entry : RecordColumns} {built : Column → Bool}

theorem PathsNamed.listed (named : index.PathsNamed)
    (isListed : Listed index record entry built after)
    (paths : after.paths =
      (index.replaceOld unicode record.id).paths.insert record.path record.id) :
    after.PathsNamed := by
  intro path other mapped
  simp only [paths, ExtTreeMap.getElem?_insert, Std.compare_eq_iff_eq] at mapped
  rw [isListed.records]
  split at mapped
  case isTrue samePath =>
    rw [Option.some.injEq] at mapped
    exact ⟨record, if_pos mapped.symm, samePath⟩
  case isFalse =>
    rcases named.replaceOld mapped with ⟨before, apart⟩
    rw [if_neg apart]
    exact named path other before

theorem PathsNamed.congr (named : index.PathsNamed) (records : after.records = index.records)
    (paths : after.paths = index.paths) : after.PathsNamed := by
  intro path id mapped
  rw [records]
  rw [paths] at mapped
  exact named path id mapped

theorem PathsNamed.applyRecordColumns (named : index.PathsNamed) (columns : SearchRecordColumns) :
    (index.applyRecordColumns unicode columns).2.PathsNamed := by
  rw [SearchIndex.applyRecordColumns]
  cases index.records[columns.id]? with
  | none => exact named
  | some record =>
      rcases addTerms_frame unicode record (RecordColumns.fromSearchColumns unicode columns) true
        true true true (index.removeTerms unicode record) with ⟨sameRecords, -, samePaths, -⟩
      exact named.congr (sameRecords.trans removeTerms_frame.1)
        (samePaths.trans removeTerms_frame.2.2)

theorem PathsNamed.step (well : index.WellIndexed) (named : index.PathsNamed)
    (operation : IndexOp) : (index.step unicode operation).PathsNamed := by
  have inserted (record : FileRecord) (columns : SearchRecordColumns)
      (buildPrefixes buildSubstrings buildFuzzy buildMetadata : Bool) :
      (index.insertWithColumnsInner unicode record columns buildPrefixes buildSubstrings
        buildFuzzy buildMetadata).2.PathsNamed := by
    rcases insertWithColumnsInner_listed unicode well record columns buildPrefixes buildSubstrings
      buildFuzzy buildMetadata with ⟨entry, built, -, -, isListed⟩
    exact named.listed isListed (insertWithColumnsInner_paths unicode index record columns _ _ _ _)
  have changed {after : SearchIndex} (content : ContentChanged index after) : after.PathsNamed :=
    named.congr content.records content.paths
  have imports {after : SearchIndex} (isImported : Imported index after) : after.PathsNamed :=
    named.congr isImported.records isImported.paths
  cases operation with
  | insert record =>
      exact named.listed (insert_listed unicode well record) (insert_paths unicode index record)
  | insertWithColumns record columns => exact inserted record columns _ _ _ _
  | insertWithColumnsDeferredFuzzy record columns => exact inserted record columns _ _ _ _
  | insertWithColumnsDeferredSidecars record columns => exact inserted record columns _ _ _ _
  | importPrefixPostings postings => exact imports (imported_importPrefixPostings postings)
  | importSubstringPostings postings => exact imports (imported_importSubstringPostings postings)
  | importFuzzyPostings postings => exact imports (imported_importFuzzyPostings postings)
  | importMetadataPostings postings => exact imports (imported_importMetadataPostings postings)
  | importContentPostings postings => exact changed (contentChanged_importContentPostings postings)
  | applyRecordColumns columns => exact named.applyRecordColumns columns
  | insertContent id text => exact changed (contentChanged_insertContent text)
  | insertContentTerms id terms => exact changed (contentChanged_insertContentTerms terms)
  | removeContent id => exact changed (contentChanged_removeContent index id)
  | remove id => exact named.remove well id
  | removePath path => exact named.removePath well path
  | removeSubtree root => exact named.removeEachId well _
  | pin id =>
      rw [SearchIndex.step, pin]
      split
      · exact named
      · exact named
  | unpin id => exact named

theorem pathsNamed_run (unicode : Unicode) (operations : List IndexOp) :
    (new.run unicode operations).PathsNamed := by
  suffices all : ∀ index : SearchIndex, index.WellIndexed → index.PathsNamed →
      (index.run unicode operations).PathsNamed from
    all new wellIndexed_new fun path id mapped => by simp [new] at mapped
  induction operations with
  | nil => exact fun _ _ named => named
  | cons operation operations ih =>
      exact fun _ well named => ih _ (well.step unicode operation) (named.step well operation)

end Named

section Untouched

/-- What the index has of a record, and of the words of its name, is as it was. -/
structure Untouched (index after : SearchIndex) (id : FileId) : Prop where
  record : after.records[id]? = index.records[id]?
  columns : after.columns[id]? = index.columns[id]?
  listing : ∀ column key, Lists (after.listing column) key id ↔ Lists (index.listing column) key id
  kinds : ∀ kind, Lists after.kind kind id ↔ Lists index.kind kind id
  positions : ∀ term,
    positionsIn after.contentTerms term id = positionsIn index.contentTerms term id
  noted : ∀ term,
    Lists after.contentRecordTerms id term ↔ Lists index.contentRecordTerms id term
  fuzzy : ∀ columns, index.columns[id]? = some columns → ∀ token ∈ columns.nameTokens, ∀ key,
    Lists after.fuzzyTerms key token ↔ Lists index.fuzzyTerms key token
  paths : ∀ path : Text, after.paths[path]? = some id ↔ index.paths[path]? = some id
  pinned : id ∈ after.pinned ↔ id ∈ index.pinned

theorem Untouched.refl : Untouched index index id :=
  ⟨rfl, rfl, fun _ _ => Iff.rfl, fun _ => Iff.rfl, fun _ => rfl, fun _ => Iff.rfl,
    fun _ _ _ _ _ => Iff.rfl, fun _ => Iff.rfl, Iff.rfl⟩

theorem Untouched.trans (first : Untouched index middle id) (second : Untouched middle after id) :
    Untouched index after id where
  record := second.record.trans first.record
  columns := second.columns.trans first.columns
  listing column key := (second.listing column key).trans (first.listing column key)
  kinds kind := (second.kinds kind).trans (first.kinds kind)
  positions term := (second.positions term).trans (first.positions term)
  noted term := (second.noted term).trans (first.noted term)
  fuzzy columns stored token member key :=
    (second.fuzzy columns (first.columns.trans stored) token member key).trans
      (first.fuzzy columns stored token member key)
  paths path := (second.paths path).trans (first.paths path)
  pinned := second.pinned.trans first.pinned

theorem pinned_removeTerms (unicode : Unicode) (index : SearchIndex) (record : FileRecord) :
    (index.removeTerms unicode record).pinned = index.pinned := by
  rcases removeTerms_eq unicode record index with ⟨fuzzyTerms, same⟩
  rw [same]
  dsimp only
  rw [removeContent]
  cases index.contentRecordTerms[record.id]? <;> rfl

/-- The name words of a record that stays keep their fuzzy keys. -/
theorem fuzzy_replaceOld (well : index.WellIndexed) (apart : other ≠ id) {columns : RecordColumns}
    (stored : index.columns[other]? = some columns) {token : Text}
    (member : token ∈ columns.nameTokens) (key : Text) :
    Lists (index.replaceOld unicode id).fuzzyTerms key token ↔
      Lists index.fuzzyTerms key token := by
  have withdrawn : Withdrawn index [id] (index.replaceOld unicode id) :=
    replaceOld_withdrawn unicode well
  rcases replaceOld_names unicode well id with ⟨tokens, -, -, fuzzy⟩
  rw [fuzzy]
  refine and_iff_left fun lost => lost.2.1 ?_
  have implies : (index.replaceOld unicode id).Implies .nameTerms token other :=
    withdrawn.implies.mpr ⟨by simpa using apart, columns, stored, member⟩
  have lists : Lists (index.replaceOld unicode id).nameTerms token other :=
    (@WellIndexed.own _ (withdrawn.wellIndexed well) .nameTerms token other rfl).mpr implies
  rcases lists with ⟨ids, found, -⟩
  rw [ExtTreeMap.contains_eq_isSome_getElem?, found]
  rfl

/-- Taking a record out that has its path in the map leaves the others. -/
theorem remove_untouched (unicode : Unicode) (well : index.WellIndexed) (entered : index.Entered id)
    (apart : other ≠ id) : Untouched index (index.remove unicode id).2 other := by
  have withdrawn := remove_withdrawn unicode well id
  have notMember : other ∉ [id] := by simpa using apart
  rcases remove_eq unicode index id with ⟨pinned, same⟩
  refine ⟨?_, ?_, ?_, ?_, ?_, ?_, ?_, ?_, ?_⟩
  · rw [withdrawn.records, if_neg notMember]
  · rw [withdrawn.columns, if_neg notMember]
  · intro column key
    rw [withdrawn.listing]
    exact and_iff_left fun both => notMember both.1
  · intro kind
    rw [withdrawn.kinds]
    exact and_iff_left notMember
  · intro term
    rw [same]
    exact positionsIn_replaceOld unicode well apart term
  · intro term
    rw [withdrawn.contentNotes]
    exact and_iff_left notMember
  · intro columns stored token member key
    rw [same]
    exact fuzzy_replaceOld well apart stored member key
  · intro path
    rw [same]
    simp only [SearchIndex.replaceOld_paths]
    cases found : index.records[id]? with
    | none => rfl
    | some old =>
        simp only [ExtTreeMap.getElem?_erase, Std.compare_eq_iff_eq]
        split
        case isTrue samePath =>
          have own := entered old found
          rw [samePath] at own
          simp [own, Ne.symm apart]
        case isFalse => rfl
  · rw [remove]
    cases index.records[id]? with
    | none => rfl
    | some old =>
        simp only [ExtTreeSet.mem_erase, pinned_removeTerms]
        exact and_iff_right (by simpa using Ne.symm apart)

theorem removeEachId_untouched (unicode : Unicode) (well : index.WellIndexed)
    (entered : ∀ id ∈ ids, index.Entered id) (apart : other ∉ ids) :
    Untouched index (index.removeEachId unicode ids).2 other := by
  induction ids generalizing index with
  | nil => exact Untouched.refl
  | cons id ids ih =>
      rw [List.mem_cons, not_or] at apart
      have withdrawn := remove_withdrawn unicode well id
      have own := entered id List.mem_cons_self
      refine (remove_untouched unicode well own apart.1).trans
        (ih (withdrawn.wellIndexed well) (fun later member record live => ?_) apart.2)
      by_cases same : later = id
      · rw [withdrawn.records, if_pos (by simp [same])] at live
        cases live
      · have kept := remove_untouched unicode well own same
        rw [kept.record] at live
        exact (kept.paths record.path).mpr
          (entered later (List.mem_cons_of_mem id member) record live)

end Untouched

section Subtree

variable {root path : Text} {record : FileRecord}

theorem mem_subtreeIds_iff : id ∈ index.subtreeIds root ↔
    ∃ path : Text, index.paths[path]? = some id ∧ (path = root ∨ root ++ ['/'] <+: path) := by
  simp [subtreeIds, ExtTreeMap.mem_toList_iff_getElem?_eq_some, and_comm]

/-- The ids that are taken out have live records with their paths in the map. -/
theorem PathsNamed.mem_subtreeIds (named : index.PathsNamed)
    (live : index.records[id]? = some record) :
    id ∈ index.subtreeIds root ↔
      index.paths[record.path]? = some id ∧
        (record.path = root ∨ root ++ ['/'] <+: record.path) := by
  rw [mem_subtreeIds_iff]
  constructor
  · rintro ⟨path, mapped, below⟩
    rcases named path id mapped with ⟨own, found, samePath⟩
    rw [live, Option.some.injEq] at found
    subst found samePath
    exact ⟨mapped, below⟩
  · rintro ⟨mapped, below⟩
    exact ⟨record.path, mapped, below⟩

theorem PathsNamed.entered_subtreeIds (named : index.PathsNamed) (root : Text) :
    ∀ id ∈ index.subtreeIds root, index.Entered id := by
  intro id member record live
  exact ((named.mem_subtreeIds live).mp member).1

end Subtree

end SearchIndex

end Gfm.Search

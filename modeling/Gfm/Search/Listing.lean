import Gfm.Search.Index

/-!
# What the index lists

The posting maps that are keyed by texts are one family, indexed by the column
that gives the keys. For the operations that the index is built from (listing
the terms of a record, taking them off, listing content) this module says
which id they list under which key.
-/

namespace Gfm.Search

open Postings Std

inductive Column where
  | nameExact
  | namePrefixes
  | nameSubstrings
  | nameTerms
  | pathTerms
  | extension
  | tags
  | metadataTerms
  deriving DecidableEq

namespace Column

/-- The keys under which a record with these columns is listed. -/
def keys (columns : RecordColumns) : Column → List Text
  | .nameExact => [columns.name]
  | .namePrefixes => columns.nameTokens.flatMap tokenPrefixes
  | .nameSubstrings => substringGrams columns.name
  | .nameTerms => columns.nameTokens
  | .pathTerms => columns.pathTokens
  | .extension => columns.extension.toList
  | .tags => columns.tags
  | .metadataTerms => columns.metadataTokens

/-- The columns whose postings can be deferred at an insert and imported later. -/
def sidecar : Column → Bool
  | .namePrefixes | .nameSubstrings | .tags | .metadataTerms => true
  | .nameExact | .nameTerms | .pathTerms | .extension => false

/-- Whether an insert with these flags lists the column. -/
def built (buildPrefixes buildSubstrings buildMetadata : Bool) : Column → Bool
  | .namePrefixes => buildPrefixes
  | .nameSubstrings => buildSubstrings
  | .tags | .metadataTerms => buildMetadata
  | .nameExact | .nameTerms | .pathTerms | .extension => true

end Column

theorem Column.built_of_not_sidecar {column : Column}
    {buildPrefixes buildSubstrings buildMetadata : Bool} (own : column.sidecar = false) :
    column.built buildPrefixes buildSubstrings buildMetadata = true := by
  cases column <;> first | rfl | cases own

@[simp]
theorem Column.built_all {column : Column} : column.built true true true = true := by
  cases column <;> rfl

namespace SearchIndex

def listing (index : SearchIndex) : Column → PostingMap Text FileId
  | .nameExact => index.nameExact
  | .namePrefixes => index.namePrefixes
  | .nameSubstrings => index.nameSubstrings
  | .nameTerms => index.nameTerms
  | .pathTerms => index.pathTerms
  | .extension => index.extension
  | .tags => index.tags
  | .metadataTerms => index.metadataTerms

def ContentLists (contentTerms : ContentTerms) (term : Text) (id : FileId) : Prop :=
  ∃ ids, contentTerms[term]? = some ids ∧ id ∈ ids

variable {unicode : Unicode} {index : SearchIndex} {column : Column} {key : Text}
  {id listed : FileId}

/-- What the index keeps beside the posting maps does not matter to the lists. -/
@[simp]
theorem listing_bookkeeping (records : ExtTreeMap FileId FileRecord)
    (columns : ExtTreeMap FileId RecordColumns) (paths : ExtTreeMap Text FileId)
    (pinned : ExtTreeSet FileId) :
    ({ index with records, columns, paths, pinned } : SearchIndex).listing column =
      index.listing column := by
  cases column <;> rfl

section AddTerms

theorem foldl_addNameToken (buildPrefixes buildFuzzy : Bool) (tokens : List Text)
    (index : SearchIndex) :
    ∃ fuzzyTerms,
      tokens.foldl (addNameToken unicode buildPrefixes buildFuzzy listed) index =
        { index with
          nameTerms := addEach index.nameTerms tokens listed
          namePrefixes :=
            if buildPrefixes then addEach index.namePrefixes (tokens.flatMap tokenPrefixes) listed
            else index.namePrefixes
          fuzzyTerms } := by
  induction tokens generalizing index with
  | nil => exact ⟨index.fuzzyTerms, by simp [addEach]⟩
  | cons token tokens ih =>
      rcases ih (addNameToken unicode buildPrefixes buildFuzzy listed index token) with
        ⟨fuzzyTerms, same⟩
      refine ⟨fuzzyTerms, ?_⟩
      rw [List.foldl_cons, same]
      cases buildPrefixes <;> simp [addNameToken, addEach]

variable (unicode) (record : FileRecord) (columns : RecordColumns)
  (buildPrefixes buildSubstrings buildFuzzy buildMetadata : Bool)

/-- Listing the terms of a record, up to the fuzzy terms. -/
theorem addTerms_eq (index : SearchIndex) :
    ∃ fuzzyTerms,
      index.addTermsWithSidecarPolicy unicode record columns buildPrefixes buildSubstrings
          buildFuzzy buildMetadata =
        { index with
          nameExact := add index.nameExact columns.name record.id
          nameTerms := addEach index.nameTerms columns.nameTokens record.id
          namePrefixes :=
            if buildPrefixes then
              addEach index.namePrefixes (columns.nameTokens.flatMap tokenPrefixes) record.id
            else index.namePrefixes
          fuzzyTerms
          nameSubstrings :=
            if buildSubstrings then
              addEach index.nameSubstrings (substringGrams columns.name) record.id
            else index.nameSubstrings
          pathTerms := addEach index.pathTerms columns.pathTokens record.id
          extension := addEach index.extension columns.extension.toList record.id
          kind := add index.kind record.kind record.id
          tags := if buildMetadata then addEach index.tags columns.tags record.id else index.tags
          metadataTerms :=
            if buildMetadata then addEach index.metadataTerms columns.metadataTokens record.id
            else index.metadataTerms } := by
  rcases foldl_addNameToken buildPrefixes buildFuzzy columns.nameTokens
    { index with nameExact := add index.nameExact columns.name record.id } with ⟨fuzzyTerms, same⟩
  refine ⟨fuzzyTerms, ?_⟩
  rw [addTermsWithSidecarPolicy, same]

/-- Listing the terms of a record touches nothing but posting maps. -/
theorem addTerms_frame (index : SearchIndex) :
    let after := index.addTermsWithSidecarPolicy unicode record columns buildPrefixes
      buildSubstrings buildFuzzy buildMetadata
    after.records = index.records ∧ after.columns = index.columns ∧ after.paths = index.paths ∧
      after.contentTerms = index.contentTerms ∧
      after.contentRecordTerms = index.contentRecordTerms := by
  rcases addTerms_eq unicode record columns buildPrefixes buildSubstrings buildFuzzy
    buildMetadata index with ⟨fuzzyTerms, same⟩
  simp only [same, and_self]

variable {unicode record columns buildPrefixes buildSubstrings buildFuzzy buildMetadata}

theorem lists_addTerms :
    Lists ((index.addTermsWithSidecarPolicy unicode record columns buildPrefixes buildSubstrings
        buildFuzzy buildMetadata).listing column) key id ↔
      (column.built buildPrefixes buildSubstrings buildMetadata = true ∧
        key ∈ column.keys columns ∧ id = record.id) ∨ Lists (index.listing column) key id := by
  rcases addTerms_eq unicode record columns buildPrefixes buildSubstrings buildFuzzy
    buildMetadata index with ⟨fuzzyTerms, same⟩
  rw [same]
  cases column with
  | nameExact => simp [listing, Column.built, Column.keys, lists_add]
  | namePrefixes =>
      cases buildPrefixes <;> simp [listing, Column.built, Column.keys, lists_addEach]
  | nameSubstrings =>
      cases buildSubstrings <;> simp [listing, Column.built, Column.keys, lists_addEach]
  | nameTerms => simp [listing, Column.built, Column.keys, lists_addEach]
  | pathTerms => simp [listing, Column.built, Column.keys, lists_addEach]
  | extension => simp [listing, Column.built, Column.keys, lists_addEach]
  | tags => cases buildMetadata <;> simp [listing, Column.built, Column.keys, lists_addEach]
  | metadataTerms =>
      cases buildMetadata <;> simp [listing, Column.built, Column.keys, lists_addEach]

theorem lists_kind_addTerms {kind : FileKind} :
    Lists (index.addTermsWithSidecarPolicy unicode record columns buildPrefixes buildSubstrings
        buildFuzzy buildMetadata).kind kind id ↔
      (kind = record.kind ∧ id = record.id) ∨ Lists index.kind kind id := by
  rcases addTerms_eq unicode record columns buildPrefixes buildSubstrings buildFuzzy
    buildMetadata index with ⟨fuzzyTerms, same⟩
  rw [same, lists_add]

end AddTerms

section RemoveTerms

theorem foldl_removeNameToken (tokens : List Text) (index : SearchIndex) :
    ∃ fuzzyTerms,
      tokens.foldl (removeNameToken unicode listed) index =
        { index with
          nameTerms := removeEach index.nameTerms tokens listed
          namePrefixes := removeEach index.namePrefixes (tokens.flatMap tokenPrefixes) listed
          fuzzyTerms } := by
  induction tokens generalizing index with
  | nil => exact ⟨index.fuzzyTerms, by simp [removeEach]⟩
  | cons token tokens ih =>
      rcases ih (removeNameToken unicode listed index token) with ⟨fuzzyTerms, same⟩
      refine ⟨fuzzyTerms, ?_⟩
      rw [List.foldl_cons, same]
      simp [removeNameToken, removeEach]

variable (unicode) (record : FileRecord)

/-- Taking the terms of a record off the lists, up to the fuzzy terms. -/
theorem removeTerms_eq (index : SearchIndex) :
    ∃ fuzzyTerms,
      index.removeTerms unicode record =
        let columns := index.columnsOf unicode record
        { index.removeContent record.id with
          nameExact := Postings.remove index.nameExact columns.name record.id
          nameTerms := removeEach index.nameTerms columns.nameTokens record.id
          namePrefixes :=
            removeEach index.namePrefixes (columns.nameTokens.flatMap tokenPrefixes) record.id
          fuzzyTerms
          nameSubstrings := removeEach index.nameSubstrings (substringGrams columns.name) record.id
          pathTerms := removeEach index.pathTerms columns.pathTokens record.id
          extension := removeEach index.extension columns.extension.toList record.id
          kind := Postings.remove index.kind record.kind record.id
          tags := removeEach index.tags columns.tags record.id
          metadataTerms := removeEach index.metadataTerms columns.metadataTokens record.id } := by
  rcases foldl_removeNameToken (index.columnsOf unicode record).nameTokens
    { index with
      nameExact := Postings.remove index.nameExact (index.columnsOf unicode record).name record.id
      nameSubstrings := removeEach index.nameSubstrings
        (substringGrams (index.columnsOf unicode record).name) record.id } with ⟨fuzzyTerms, same⟩
  refine ⟨fuzzyTerms, ?_⟩
  rw [removeTerms, same]
  simp only [removeContent]
  cases index.contentRecordTerms[record.id]? <;> rfl

/-- Taking content off the index touches the two content maps only. -/
theorem removeContent_frame (index : SearchIndex) (id : FileId) :
    (index.removeContent id).records = index.records ∧
      (index.removeContent id).columns = index.columns ∧
      (index.removeContent id).paths = index.paths ∧
      (index.removeContent id).kind = index.kind ∧
      (index.removeContent id).listing = index.listing := by
  rw [removeContent]
  cases index.contentRecordTerms[id]? with
  | none => exact ⟨rfl, rfl, rfl, rfl, rfl⟩
  | some terms => exact ⟨rfl, rfl, rfl, rfl, rfl⟩

variable {unicode record}

/-- Taking the terms of a record off the lists leaves the records and the paths. -/
theorem removeTerms_frame :
    (index.removeTerms unicode record).records = index.records ∧
      (index.removeTerms unicode record).columns = index.columns ∧
      (index.removeTerms unicode record).paths = index.paths := by
  rcases removeTerms_eq unicode record index with ⟨fuzzyTerms, same⟩
  rcases removeContent_frame index record.id with ⟨sameRecords, sameColumns, samePaths, -, -⟩
  rw [same]
  exact ⟨sameRecords, sameColumns, samePaths⟩

theorem content_removeTerms :
    (index.removeTerms unicode record).contentTerms =
        (index.removeContent record.id).contentTerms ∧
      (index.removeTerms unicode record).contentRecordTerms =
        (index.removeContent record.id).contentRecordTerms := by
  rcases removeTerms_eq unicode record index with ⟨fuzzyTerms, same⟩
  rw [same]
  exact ⟨rfl, rfl⟩

theorem lists_removeTerms :
    Lists ((index.removeTerms unicode record).listing column) key id ↔
      Lists (index.listing column) key id ∧
        ¬(key ∈ column.keys (index.columnsOf unicode record) ∧ id = record.id) := by
  rcases removeTerms_eq unicode record index with ⟨fuzzyTerms, same⟩
  rw [same]
  cases column <;> simp [listing, Column.keys, lists_remove, lists_removeEach]

theorem lists_kind_removeTerms {kind : FileKind} :
    Lists (index.removeTerms unicode record).kind kind id ↔
      Lists index.kind kind id ∧ ¬(kind = record.kind ∧ id = record.id) := by
  rcases removeTerms_eq unicode record index with ⟨fuzzyTerms, same⟩
  rw [same, lists_remove]

end RemoveTerms

section Content

/-- Every content listing is noted under its record. -/
def ContentNoted (index : SearchIndex) : Prop :=
  ∀ term id, ContentLists index.contentTerms term id → Lists index.contentRecordTerms id term

theorem contentLists_removeContentTerm {contentTerms : ContentTerms} {term other : Text} :
    ContentLists (removeContentTerm contentTerms other listed) term id ↔
      ContentLists contentTerms term id ∧ ¬(term = other ∧ id = listed) := by
  simp only [ContentLists, removeContentTerm, ExtTreeMap.getElem?_alter,
    Std.compare_eq_iff_eq]
  by_cases same : other = term
  · subst same
    cases found : contentTerms[other]? with
    | none => simp
    | some ids =>
        have erased : id ∈ ids.erase listed ↔ id ∈ ids ∧ ¬id = listed := by
          rw [ExtTreeMap.mem_erase, ne_eq, Std.compare_eq_iff_eq, and_comm, eq_comm (a := id)]
        by_cases empty : (ids.erase listed).isEmpty = true
        · have none : id ∉ ids.erase listed := by
            rw [ExtTreeMap.isEmpty_iff.mp empty]
            exact ExtTreeMap.not_mem_empty
          rw [erased] at none
          simpa [empty] using none
        · simp [empty, ← erased]
  · simp [same, Ne.symm same]

theorem contentLists_foldl_removeContentTerm {terms : List Text} {contentTerms : ContentTerms}
    {term : Text} :
    ContentLists (terms.foldl (fun contentTerms term =>
        removeContentTerm contentTerms term listed) contentTerms) term id ↔
      ContentLists contentTerms term id ∧ ¬(term ∈ terms ∧ id = listed) := by
  induction terms generalizing contentTerms with
  | nil => simp
  | cons first terms ih =>
      rw [List.foldl_cons, ih, contentLists_removeContentTerm, List.mem_cons]
      tauto

theorem contentLists_removeContent {term : Text} (noted : index.ContentNoted) :
    ContentLists (index.removeContent listed).contentTerms term id ↔
      ContentLists index.contentTerms term id ∧ id ≠ listed := by
  rw [removeContent]
  cases found : index.contentRecordTerms[listed]? with
  | none =>
      simp only [ContentLists, ExtTreeMap.getElem?_filter, ExtTreeMap.getElem?_map]
      cases index.contentTerms[term]? with
      | none => simp
      | some ids =>
          have erased : id ∈ ids.erase listed ↔ id ∈ ids ∧ id ≠ listed := by
            rw [ExtTreeMap.mem_erase, ne_eq, Std.compare_eq_iff_eq, and_comm, eq_comm, ne_eq]
          simp only [Option.map_some, Option.some.injEq, exists_eq_left', ← erased]
          generalize ids.erase listed = rest
          by_cases empty : rest = ∅
          · simp [empty]
          · simp [empty]
  | some terms =>
      rw [contentLists_foldl_removeContentTerm, ExtTreeSet.mem_toList]
      refine and_congr_right fun before => not_congr ⟨And.right, fun same => ⟨?_, same⟩⟩
      rcases noted term id before with ⟨noteds, notedFound, member⟩
      rw [same, found, Option.some.injEq] at notedFound
      exact notedFound ▸ member

theorem lists_contentRecordTerms_removeContent {term : Text} :
    Lists (index.removeContent listed).contentRecordTerms id term ↔
      Lists index.contentRecordTerms id term ∧ id ≠ listed := by
  rw [removeContent]
  cases found : index.contentRecordTerms[listed]? with
  | none =>
      refine ⟨fun before => ⟨before, ?_⟩, And.left⟩
      rintro rfl
      rcases before with ⟨terms, present, -⟩
      rw [found] at present
      cases present
  | some terms =>
      exact lists_erase

theorem ContentNoted.removeContent (noted : index.ContentNoted) :
    (index.removeContent listed).ContentNoted := by
  intro term id lists
  rw [contentLists_removeContent noted] at lists
  exact lists_contentRecordTerms_removeContent.mpr ⟨noted term id lists.1, lists.2⟩

variable {change : Option (List Nat) → List Nat}

theorem contentLists_listContent {term other : Text} :
    ContentLists (index.listContent listed other change).contentTerms term id ↔
      (term = other ∧ id = listed) ∨ ContentLists index.contentTerms term id := by
  simp only [ContentLists, listContent, ExtTreeMap.getElem?_alter, Std.compare_eq_iff_eq]
  by_cases same : other = term
  · subst same
    simp only [if_true, Option.some.injEq, exists_eq_left', ExtTreeMap.mem_alter,
      Std.compare_eq_iff_eq, true_and, eq_comm (a := id)]
    cases index.contentTerms[other]? with
    | none => by_cases isListed : listed = id <;> simp [isListed]
    | some ids => by_cases isListed : listed = id <;> simp [isListed]
  · simp [same, Ne.symm same]

theorem ContentNoted.listContent {other : Text} (noted : index.ContentNoted) :
    (index.listContent listed other change).ContentNoted := by
  intro term id lists
  rw [contentLists_listContent] at lists
  rw [SearchIndex.listContent, lists_add]
  exact lists.imp And.symm (noted term id)

end Content

end SearchIndex

end Gfm.Search

import Gfm.Search.Listing

/-!
# What holds of every index

Whatever operations an index has gone through, its records and columns are in
step, the postings that an insert always lists are exactly those of the stored
columns, and every content listing is noted under a live record. The postings
that can be deferred and imported are not covered here.
-/

namespace Gfm.Search

open List Postings Std

namespace SearchIndex

/-- The stored columns of a record give this key. -/
def Implies (index : SearchIndex) (column : Column) (key : Text) (id : FileId) : Prop :=
  ∃ columns, index.columns[id]? = some columns ∧ key ∈ column.keys columns

structure WellIndexed (index : SearchIndex) : Prop where
  recordId : ∀ {id : FileId} {record : FileRecord}, index.records[id]? = some record →
    record.id = id
  stored : ∀ {id : FileId}, index.columns[id]?.isSome = index.records[id]?.isSome
  own : ∀ {column : Column} {key : Text} {id : FileId}, column.sidecar = false →
    (Lists (index.listing column) key id ↔ index.Implies column key id)
  kinds : ∀ {kind : FileKind} {id : FileId},
    Lists index.kind kind id ↔ ∃ record, index.records[id]? = some record ∧ record.kind = kind
  noted : index.ContentNoted
  notedLive : ∀ {term : Text} {id : FileId}, Lists index.contentRecordTerms id term →
    id ∈ index.records

/-- The records of `ids` are out, and their columns, with every listing that these imply. -/
structure Withdrawn (index : SearchIndex) (ids : List FileId) (after : SearchIndex) : Prop where
  records : ∀ {id : FileId}, after.records[id]? = if id ∈ ids then none else index.records[id]?
  columns : ∀ {id : FileId}, after.columns[id]? = if id ∈ ids then none else index.columns[id]?
  listing : ∀ {column : Column} {key : Text} {id : FileId}, Lists (after.listing column) key id ↔
    Lists (index.listing column) key id ∧ ¬(id ∈ ids ∧ index.Implies column key id)
  kinds : ∀ {kind : FileKind} {id : FileId},
    Lists after.kind kind id ↔ Lists index.kind kind id ∧ id ∉ ids
  content : ∀ {term : Text} {id : FileId}, ContentLists after.contentTerms term id ↔
    ContentLists index.contentTerms term id ∧ id ∉ ids
  contentNotes : ∀ {term : Text} {id : FileId}, Lists after.contentRecordTerms id term ↔
    Lists index.contentRecordTerms id term ∧ id ∉ ids

variable {unicode : Unicode} {index middle after : SearchIndex} {column : Column} {key : Text}
  {id : FileId} {ids others : List FileId}

theorem Withdrawn.nil : Withdrawn index [] index := by
  constructor <;> simp

theorem Withdrawn.implies (withdrawn : Withdrawn index ids after) :
    after.Implies column key id ↔ id ∉ ids ∧ index.Implies column key id := by
  simp only [Implies, withdrawn.columns]
  by_cases member : id ∈ ids <;> simp [member]

theorem Withdrawn.trans (first : Withdrawn index ids middle)
    (second : Withdrawn middle others after) : Withdrawn index (ids ++ others) after := by
  constructor
  · intro id
    rw [second.records, first.records]
    by_cases inFirst : id ∈ ids <;> by_cases inSecond : id ∈ others <;> simp [inFirst, inSecond]
  · intro id
    rw [second.columns, first.columns]
    by_cases inFirst : id ∈ ids <;> by_cases inSecond : id ∈ others <;> simp [inFirst, inSecond]
  · intro column key id
    rw [second.listing, first.listing, first.implies, mem_append]
    tauto
  · intro kind id
    rw [second.kinds, first.kinds, mem_append]
    tauto
  · intro term id
    rw [second.content, first.content, mem_append]
    tauto
  · intro term id
    rw [second.contentNotes, first.contentNotes, mem_append]
    tauto

theorem Withdrawn.wellIndexed (withdrawn : Withdrawn index ids after) (well : index.WellIndexed) :
    after.WellIndexed := by
  constructor
  · intro id record found
    rw [withdrawn.records] at found
    split at found
    · cases found
    · exact well.recordId found
  · intro id
    rw [withdrawn.records, withdrawn.columns]
    split
    · rfl
    · exact well.stored
  · intro column key id own
    rw [withdrawn.listing, withdrawn.implies, well.own own]
    tauto
  · intro kind id
    rw [withdrawn.kinds, withdrawn.records, well.kinds]
    by_cases member : id ∈ ids <;> simp [member]
  · intro term id lists
    rw [withdrawn.content] at lists
    exact withdrawn.contentNotes.mpr ⟨well.noted term id lists.1, lists.2⟩
  · intro term id lists
    rw [withdrawn.contentNotes] at lists
    have live := well.notedLive lists.1
    rw [ExtTreeMap.mem_iff_isSome_getElem?] at live ⊢
    rw [withdrawn.records, if_neg lists.2]
    exact live

theorem WellIndexed.columnsOf (unicode : Unicode) (well : index.WellIndexed) {record : FileRecord}
    (found : index.records[id]? = some record) :
    ∃ columns, index.columns[id]? = some columns ∧ index.columnsOf unicode record = columns := by
  have stored : index.columns[id]?.isSome = true := by rw [well.stored, found]; rfl
  rcases Option.isSome_iff_exists.mp stored with ⟨columns, present⟩
  refine ⟨columns, present, ?_⟩
  rw [SearchIndex.columnsOf, well.recordId found, present]
  rfl

theorem WellIndexed.not_implies (well : index.WellIndexed) (dead : index.records[id]? = none) :
    ¬index.Implies column key id := by
  rintro ⟨columns, present, -⟩
  have stored : index.columns[id]?.isSome = index.records[id]?.isSome := well.stored
  rw [present, dead] at stored
  cases stored

theorem WellIndexed.contentLive (well : index.WellIndexed) {term : Text}
    (lists : ContentLists index.contentTerms term id) : id ∈ index.records :=
  well.notedLive (well.noted term id lists)

/-- Withdrawing a record that the index does not have changes nothing. -/
theorem WellIndexed.withdrawn_self (well : index.WellIndexed) (dead : index.records[id]? = none) :
    Withdrawn index [id] index := by
  have noColumns : index.columns[id]? = none := by
    rw [← Option.not_isSome_iff_eq_none, well.stored, dead]
    simp
  have notLive : id ∉ index.records := by
    rw [ExtTreeMap.mem_iff_isSome_getElem?, dead]
    simp
  constructor
  · intro other
    by_cases same : other = id
    · simp [same, dead]
    · simp [same]
  · intro other
    by_cases same : other = id
    · simp [same, noColumns]
    · simp [same]
  · intro column key other
    refine (and_iff_left ?_).symm
    rintro ⟨same, implies⟩
    rw [mem_singleton.mp same] at implies
    exact well.not_implies dead implies
  · intro kind other
    refine (and_iff_left_of_imp fun lists same => ?_).symm
    rcases well.kinds.mp lists with ⟨record, found, -⟩
    rw [mem_singleton.mp same, dead] at found
    cases found
  · intro term other
    refine (and_iff_left_of_imp fun lists same => ?_).symm
    exact notLive (mem_singleton.mp same ▸ well.contentLive lists)
  · intro term other
    refine (and_iff_left_of_imp fun lists same => ?_).symm
    exact notLive (mem_singleton.mp same ▸ well.notedLive lists)

theorem replaceOld_withdrawn (unicode : Unicode) (well : index.WellIndexed) :
    Withdrawn index [id] (index.replaceOld unicode id) := by
  rw [replaceOld]
  cases found : index.records[id]? with
  | none => exact well.withdrawn_self found
  | some old =>
      rcases well.columnsOf unicode found with ⟨columns, present, same⟩
      have sameId : old.id = id := well.recordId found
      have sameColumnsOf :
          ({ index with records := index.records.erase id } : SearchIndex).columnsOf unicode old =
            columns := same
      have noted : ({ index with records := index.records.erase id } : SearchIndex).ContentNoted :=
        well.noted
      constructor
      · intro other
        simp only [removeTerms_frame.1, ExtTreeMap.getElem?_erase, Std.compare_eq_iff_eq,
          mem_singleton, eq_comm (a := id)]
      · intro other
        simp only [removeTerms_frame.2.1, ExtTreeMap.getElem?_erase, Std.compare_eq_iff_eq,
          mem_singleton, eq_comm (a := id)]
      · intro column key other
        rw [listing_bookkeeping, lists_removeTerms, listing_bookkeeping, sameColumnsOf, sameId,
          mem_singleton, and_comm (a := other = id)]
        refine and_congr_right fun _ => not_congr (and_congr_left ?_)
        rintro rfl
        simp [Implies, present]
      · intro kind other
        rw [lists_kind_removeTerms, sameId, mem_singleton]
        refine and_congr_right fun lists => not_congr ⟨And.right, fun sameOther => ⟨?_, sameOther⟩⟩
        rcases well.kinds.mp lists with ⟨record, recordFound, rfl⟩
        rw [sameOther, found, Option.some.injEq] at recordFound
        rw [recordFound]
      · intro term other
        rw [content_removeTerms.1, contentLists_removeContent noted, sameId, mem_singleton]
      · intro term other
        rw [content_removeTerms.2, lists_contentRecordTerms_removeContent, sameId,
          mem_singleton]

/-- The record is in, with these columns, and listed under what they imply and `built` allows. -/
structure Listed (index : SearchIndex) (record : FileRecord) (entry : RecordColumns)
    (built : Column → Bool) (after : SearchIndex) : Prop where
  records : ∀ {id : FileId},
    after.records[id]? = if id = record.id then some record else index.records[id]?
  columns : ∀ {id : FileId},
    after.columns[id]? = if id = record.id then some entry else index.columns[id]?
  listing : ∀ {column : Column} {key : Text} {id : FileId}, Lists (after.listing column) key id ↔
    (built column = true ∧ key ∈ column.keys entry ∧ id = record.id) ∨
      (Lists (index.listing column) key id ∧ ¬(id = record.id ∧ index.Implies column key id))
  kinds : ∀ {kind : FileKind} {id : FileId}, Lists after.kind kind id ↔
    (kind = record.kind ∧ id = record.id) ∨ (Lists index.kind kind id ∧ id ≠ record.id)
  content : ∀ {term : Text} {id : FileId}, ContentLists after.contentTerms term id ↔
    ContentLists index.contentTerms term id ∧ id ≠ record.id
  contentNotes : ∀ {term : Text} {id : FileId}, Lists after.contentRecordTerms id term ↔
    Lists index.contentRecordTerms id term ∧ id ≠ record.id

variable {record : FileRecord} {entry : RecordColumns} {built : Column → Bool}

theorem Listed.implies (isListed : Listed index record entry built after) :
    after.Implies column key id ↔
      (key ∈ column.keys entry ∧ id = record.id) ∨
        (index.Implies column key id ∧ id ≠ record.id) := by
  simp only [Implies, isListed.columns]
  by_cases same : id = record.id <;> simp [same]

theorem Listed.wellIndexed (isListed : Listed index record entry built after)
    (whole : ∀ column : Column, column.sidecar = false → built column = true)
    (well : index.WellIndexed) : after.WellIndexed := by
  constructor
  · intro id other found
    rw [isListed.records] at found
    split at found
    case isTrue same => rw [← Option.some.inj found, same]
    case isFalse => exact well.recordId found
  · intro id
    rw [isListed.records, isListed.columns]
    split
    · rfl
    · exact well.stored
  · intro column key id own
    rw [isListed.listing, isListed.implies, well.own own, whole column own]
    tauto
  · intro kind id
    rw [isListed.kinds, isListed.records, well.kinds]
    by_cases same : id = record.id <;> simp [same, eq_comm]
  · intro term id lists
    rw [isListed.content] at lists
    exact isListed.contentNotes.mpr ⟨well.noted term id lists.1, lists.2⟩
  · intro term id lists
    rw [isListed.contentNotes] at lists
    have live := well.notedLive lists.1
    rw [ExtTreeMap.mem_iff_isSome_getElem?] at live ⊢
    rw [isListed.records, if_neg lists.2]
    exact live

/-- Listing a record anew, after its old entries are withdrawn. -/
theorem Withdrawn.listed (withdrawn : Withdrawn index [record.id] middle)
    (buildPrefixes buildSubstrings buildFuzzy buildMetadata : Bool) :
    Listed index record entry (Column.built buildPrefixes buildSubstrings buildMetadata)
      ((middle.addTermsWithSidecarPolicy unicode record entry buildPrefixes buildSubstrings
        buildFuzzy buildMetadata).register record entry) := by
  rcases addTerms_frame unicode record entry buildPrefixes buildSubstrings buildFuzzy buildMetadata
    middle with ⟨sameRecords, sameColumns, -, sameTerms, sameNotes⟩
  constructor
  · intro id
    simp only [register, sameRecords, ExtTreeMap.getElem?_insert, Std.compare_eq_iff_eq,
      withdrawn.records, mem_singleton, eq_comm (a := record.id)]
    split
    · rfl
    · rfl
  · intro id
    simp only [register, sameColumns, ExtTreeMap.getElem?_insert, Std.compare_eq_iff_eq,
      withdrawn.columns, mem_singleton, eq_comm (a := record.id)]
    split
    · rfl
    · rfl
  · intro column key id
    rw [register, listing_bookkeeping, lists_addTerms, withdrawn.listing, mem_singleton]
  · intro kind id
    rw [register, lists_kind_addTerms, withdrawn.kinds, mem_singleton]
  · intro term id
    simp only [register, sameTerms, withdrawn.content, mem_singleton, ne_eq]
  · intro term id
    simp only [register, sameNotes, withdrawn.contentNotes, mem_singleton, ne_eq]

/-- Other columns for a record that the index has. -/
theorem WellIndexed.listed_anew (unicode : Unicode) (well : index.WellIndexed)
    (found : index.records[record.id]? = some record) :
    let listed := (index.removeTerms unicode record).addTerms unicode record entry
    Listed index record entry (fun _ => true)
      { listed with columns := listed.columns.insert record.id entry } := by
  rcases well.columnsOf unicode found with ⟨stored, present, sameColumns⟩
  rcases addTerms_frame unicode record entry true true true true
    (index.removeTerms unicode record) with ⟨sameRecords, sameStored, -, sameTerms, sameNotes⟩
  constructor
  · intro id
    simp only [addTerms, sameRecords, removeTerms_frame.1]
    split
    case isTrue same => rw [same, found]
    case isFalse => rfl
  · intro id
    simp only [addTerms, sameStored, removeTerms_frame.2.1, ExtTreeMap.getElem?_insert,
      Std.compare_eq_iff_eq, eq_comm (a := record.id)]
  · intro column key id
    rw [listing_bookkeeping, addTerms, lists_addTerms, lists_removeTerms, sameColumns,
      Column.built_all, and_comm (a := key ∈ column.keys stored)]
    refine or_congr_right (and_congr_right fun _ => not_congr (and_congr_right ?_))
    rintro rfl
    simp [Implies, present]
  · intro kind id
    simp only [addTerms, lists_kind_addTerms, lists_kind_removeTerms]
    refine or_congr_right (and_congr_right fun lists => not_congr ⟨And.right, fun same => ?_⟩)
    rcases well.kinds.mp lists with ⟨other, otherFound, rfl⟩
    rw [same, found, Option.some.injEq] at otherFound
    exact ⟨by rw [otherFound], same⟩
  · intro term id
    simp only [addTerms, sameTerms, content_removeTerms.1, contentLists_removeContent well.noted]
  · intro term id
    simp only [addTerms, sameNotes, content_removeTerms.2, lists_contentRecordTerms_removeContent]

/-- Only content of live records has been listed or taken off. -/
structure ContentChanged (index after : SearchIndex) : Prop where
  records : after.records = index.records
  columns : after.columns = index.columns
  paths : after.paths = index.paths
  listing : ∀ column, after.listing column = index.listing column
  kinds : after.kind = index.kind
  noted : index.ContentNoted → after.ContentNoted
  notedLive : ∀ {term : Text} {id : FileId}, Lists after.contentRecordTerms id term →
    Lists index.contentRecordTerms id term ∨ id ∈ index.records

theorem ContentChanged.refl : ContentChanged index index :=
  ⟨rfl, rfl, rfl, fun _ => rfl, rfl, fun noted => noted, Or.inl⟩

theorem ContentChanged.trans (first : ContentChanged index middle)
    (second : ContentChanged middle after) : ContentChanged index after where
  records := second.records.trans first.records
  columns := second.columns.trans first.columns
  paths := second.paths.trans first.paths
  listing := fun column => (second.listing column).trans (first.listing column)
  kinds := second.kinds.trans first.kinds
  noted := fun noted => second.noted (first.noted noted)
  notedLive := fun lists =>
    (second.notedLive lists).elim first.notedLive fun live => Or.inr (first.records ▸ live)

theorem ContentChanged.foldl {Item : Type} {change : SearchIndex → Item → SearchIndex}
    (each : ∀ index item, ContentChanged index (change index item)) (items : List Item)
    (index : SearchIndex) : ContentChanged index (items.foldl change index) := by
  induction items generalizing index with
  | nil => exact ContentChanged.refl
  | cons item items ih => exact (each index item).trans (ih (change index item))

theorem ContentChanged.wellIndexed (changed : ContentChanged index after)
    (well : index.WellIndexed) : after.WellIndexed := by
  have sameImplies {column : Column} {key : Text} {id : FileId} :
      after.Implies column key id ↔ index.Implies column key id := by
    simp only [Implies, changed.columns]
  constructor
  · intro id record
    rw [changed.records]
    exact well.recordId
  · intro id
    rw [changed.records, changed.columns]
    exact well.stored
  · intro column key id own
    rw [changed.listing, sameImplies]
    exact well.own own
  · intro kind id
    rw [changed.kinds, changed.records]
    exact well.kinds
  · exact changed.noted well.noted
  · intro term id lists
    rw [changed.records]
    exact (changed.notedLive lists).elim well.notedLive fun live => live

theorem contentChanged_removeContent (index : SearchIndex) (id : FileId) :
    ContentChanged index (index.removeContent id) := by
  rcases removeContent_frame index id with
    ⟨sameRecords, sameColumns, samePaths, sameKind, sameListing⟩
  refine ⟨sameRecords, sameColumns, samePaths, fun column => congrFun sameListing column,
    sameKind, ContentNoted.removeContent, fun lists => ?_⟩
  exact Or.inl (lists_contentRecordTerms_removeContent.mp lists).1

theorem contentChanged_listContent {change : Option (List Nat) → List Nat} {term : Text}
    (live : id ∈ index.records) : ContentChanged index (index.listContent id term change) := by
  refine ⟨rfl, rfl, rfl, fun column => ?_, rfl, ContentNoted.listContent, fun lists => ?_⟩
  · cases column <;> rfl
  · rw [listContent, lists_add] at lists
    rcases lists with ⟨rfl, -⟩ | before
    · exact Or.inr live
    · exact Or.inl before

end SearchIndex

end Gfm.Search

import Gfm.Lib.Shelves
import Gfm.Search.Fuzzy
import Gfm.Search.PostingInvariant

/-!
# The entries of a shard

What a shard has of a record, as one entry: the record with its columns, the keys under which it
is listed, and its content. A listing that the stored columns do not imply is stale, and the fuzzy
terms are shared by the records that have the token. Seen like this, taking a record out and
inserting one are the operations of a shelf.
-/

namespace Gfm.Search

open List Postings SearchIndex Shelves Std

structure Entry where
  record : FileRecord
  columns : RecordColumns
  listed : Column × Text → Prop
  positions : Text → Option (List Nat)
  noted : Text → Prop

/-- What an insert has of the record. -/
def Entry.fresh (unicode : Unicode) (record : FileRecord) : Entry where
  record
  columns := RecordColumns.fromRecord unicode record
  listed key := key.2 ∈ key.1.keys (RecordColumns.fromRecord unicode record)
  positions _ := none
  noted _ := False

abbrev ShardShelf := Shelf FileId Entry (Column × Text) (Text × Text)

/-- The entries of the records of a volume; the marks are the fuzzy terms with their keys. -/
def catalogue (unicode : Unicode) (volume : VolumeId) :
    Catalogue FileId Entry (Column × Text) (Text × Text) FileRecord Text where
  id := FileRecord.id
  fresh := Entry.fresh unicode
  path entry := entry.record.path
  keys entry key := key.2 ∈ key.1.keys entry.columns
  marks entry mark := mark.2 ∈ entry.columns.nameTokens ∧ isFuzzyTerm unicode mark.2 = true ∧
    mark.1 ∈ deletionKeys unicode mark.2 2
  owns record := record.id.volume = volume

@[simp]
theorem catalogue_id {unicode : Unicode} {volume : VolumeId} {record : FileRecord} :
    (catalogue unicode volume).id record = record.id := rfl

@[simp]
theorem catalogue_fresh {unicode : Unicode} {volume : VolumeId} {record : FileRecord} :
    (catalogue unicode volume).fresh record = Entry.fresh unicode record := rfl

def positionsIn (contentTerms : ContentTerms) (term : Text) (id : FileId) : Option (List Nat) :=
  (contentTerms[term]?).bind fun ids => ids[id]?

namespace SearchIndex

def entry (index : SearchIndex) (id : FileId) : Option Entry :=
  (index.records[id]?).bind fun record => (index.columns[id]?).map fun columns =>
    { record
      columns
      listed := fun key => Lists (index.listing key.1) key.2 id ∧ key.2 ∈ key.1.keys columns
      positions := fun term => positionsIn index.contentTerms term id
      noted := fun term => Lists index.contentRecordTerms id term }

def shelf (index : SearchIndex) : ShardShelf where
  entry := index.entry
  stale key id := Lists (index.listing key.1) key.2 id ∧ ¬index.Implies key.1 key.2 id
  words mark := Lists index.fuzzyTerms mark.1 mark.2

end SearchIndex

section Filled

variable {postings : PostingMap Text FileId} {key other : Text} {id listed : FileId}

/-- Every key has an id. -/
def NamesFilled (postings : PostingMap Text FileId) : Prop :=
  ∀ key, postings.contains key = true → ∃ id, Lists postings key id

theorem NamesFilled.contains_iff (filled : NamesFilled postings) :
    postings.contains key = true ↔ ∃ id, Lists postings key id := by
  refine ⟨filled key, ?_⟩
  rintro ⟨id, ids, found, -⟩
  rw [ExtTreeMap.contains_eq_isSome_getElem?, found]
  rfl

theorem NamesFilled.add (filled : NamesFilled postings) :
    NamesFilled (add postings other listed) := by
  intro key contains
  rcases contains_add.mp contains with rfl | old
  · exact ⟨listed, lists_add.mpr (Or.inl ⟨rfl, rfl⟩)⟩
  · rcases filled key old with ⟨id, lists⟩
    exact ⟨id, lists_add.mpr (Or.inr lists)⟩

theorem NamesFilled.addEach (filled : NamesFilled postings) (keys : List Text) :
    NamesFilled (addEach postings keys listed) := by
  induction keys generalizing postings with
  | nil => exact filled
  | cons key keys ih => exact ih filled.add

theorem NamesFilled.remove (filled : NamesFilled postings) :
    NamesFilled (remove postings other listed) := by
  intro key contains
  have before := filled key (contains_of_remove contains)
  by_cases same : other = key
  · subst same
    simp only [Postings.remove, ExtTreeMap.contains_eq_isSome_getElem?,
      ExtTreeMap.getElem?_alter, Std.compare_self, if_true] at contains
    rcases before with ⟨id, ids, found, -⟩
    rw [found] at contains
    dsimp only at contains
    split at contains
    · cases contains
    case isFalse occupied =>
      have someLeft : ∃ left, left ∈ ids.erase listed := by
        by_contra none
        refine occupied (ExtTreeSet.isEmpty_iff.mpr ?_)
        exact ExtTreeSet.eq_empty_iff_forall_not_mem.mpr (not_exists.mp none)
      rcases someLeft with ⟨left, member⟩
      rw [ExtTreeSet.mem_erase] at member
      refine ⟨left, lists_remove.mpr ⟨⟨ids, found, member.2⟩, ?_⟩⟩
      rintro ⟨-, rfl⟩
      exact member.1 Std.compare_self
  · rcases before with ⟨id, lists⟩
    exact ⟨id, lists_remove.mpr ⟨lists, fun both => same both.1.symm⟩⟩

theorem NamesFilled.removeEach (filled : NamesFilled postings) (keys : List Text) :
    NamesFilled (removeEach postings keys listed) := by
  induction keys generalizing postings with
  | nil => exact filled
  | cons key keys ih => exact ih filled.remove

theorem contains_of_removeEach {keys : List Text}
    (contains : (removeEach postings keys listed).contains key = true) :
    postings.contains key = true := by
  induction keys generalizing postings with
  | nil => exact contains
  | cons first keys ih => exact contains_of_remove (ih contains)

theorem contains_removeEach_of_not_mem {keys : List Text} (apart : key ∉ keys) :
    (removeEach postings keys listed).contains key = postings.contains key := by
  induction keys generalizing postings with
  | nil => rfl
  | cons first keys ih =>
      rw [mem_cons, not_or] at apart
      have later := @ih (Postings.remove postings first listed) apart.2
      refine Eq.trans later ?_
      simp only [Postings.remove, ExtTreeMap.contains_eq_isSome_getElem?,
        ExtTreeMap.getElem?_alter, Std.compare_eq_iff_eq, Ne.symm apart.1, if_false]

end Filled

section Positions

variable {index : SearchIndex} {contentTerms : ContentTerms} {term other : Text}
  {id listed : FileId}

theorem getElem?_erase_iff (ids : ExtTreeMap FileId (List Nat)) (listed id : FileId)
    (positions : List Nat) :
    (ids.erase listed)[id]? = some positions ↔ ids[id]? = some positions ∧ id ≠ listed := by
  rw [ExtTreeMap.getElem?_erase]
  by_cases same : listed = id
  · subst same
    simp
  · have different : ¬compare listed id = .eq := by simpa using same
    rw [if_neg different]
    exact (and_iff_left (Ne.symm same)).symm

theorem contentLists_iff_positionsIn :
    ContentLists contentTerms term id ↔ (positionsIn contentTerms term id).isSome := by
  rw [ContentLists, positionsIn]
  cases contentTerms[term]? with
  | none => simp
  | some ids => simp

theorem positionsIn_removeContentTerm {positions : List Nat} :
    positionsIn (removeContentTerm contentTerms other listed) term id = some positions ↔
      positionsIn contentTerms term id = some positions ∧ ¬(term = other ∧ id = listed) := by
  simp only [positionsIn, removeContentTerm, ExtTreeMap.getElem?_alter,
    Std.compare_eq_iff_eq]
  by_cases same : other = term
  · subst same
    cases contentTerms[other]? with
    | none => simp
    | some ids =>
        have erased := getElem?_erase_iff ids listed id positions
        by_cases empty : (ids.erase listed).isEmpty = true
        · rw [ExtTreeMap.isEmpty_iff.mp empty, ExtTreeMap.getElem?_empty] at erased
          simpa [empty] using erased
        · simpa [empty] using erased
  · simp [same, Ne.symm same]

theorem positionsIn_foldl_removeContentTerm {positions : List Nat} (terms : List Text)
    (contentTerms : ContentTerms) :
    positionsIn (terms.foldl (fun contentTerms term =>
        removeContentTerm contentTerms term listed) contentTerms) term id =
          some positions ↔
      positionsIn contentTerms term id = some positions ∧ ¬(term ∈ terms ∧ id = listed) := by
  induction terms generalizing contentTerms with
  | nil => simp
  | cons first terms ih =>
      rw [foldl_cons, ih, positionsIn_removeContentTerm, mem_cons]
      grind

theorem positionsIn_removeContent {positions : List Nat} (noted : index.ContentNoted) :
    positionsIn (index.removeContent listed).contentTerms term id = some positions ↔
      positionsIn index.contentTerms term id = some positions ∧ id ≠ listed := by
  rw [SearchIndex.removeContent]
  cases found : index.contentRecordTerms[listed]? with
  | none =>
      simp only [positionsIn, ExtTreeMap.getElem?_filter', ExtTreeMap.getElem?_map]
      cases index.contentTerms[term]? with
      | none => simp
      | some ids =>
          have erased := getElem?_erase_iff ids listed id positions
          simp only [Option.map_some, Option.filter_some, Option.bind_some]
          by_cases empty : (ids.erase listed).isEmpty = true
          · rw [ExtTreeMap.isEmpty_iff.mp empty, ExtTreeMap.getElem?_empty] at erased
            rw [empty]
            exact erased
          · rw [Bool.eq_false_iff.mpr empty]
            exact erased
  | some terms =>
      rw [positionsIn_foldl_removeContentTerm, ExtTreeSet.mem_toList]
      refine and_congr_right fun before => not_congr ⟨And.right, fun same => ⟨?_, same⟩⟩
      have lists : ContentLists index.contentTerms term id := by
        rw [contentLists_iff_positionsIn, before]
        rfl
      rcases noted term id lists with ⟨noteds, notedFound, member⟩
      rw [same, found, Option.some.injEq] at notedFound
      exact notedFound ▸ member

end Positions

section FuzzyTerms

variable {unicode : Unicode} {index : SearchIndex} {id : FileId} {key token other : Text}

/-- The key is one under which a fuzzy term is kept. -/
def FuzzyKey (unicode : Unicode) (key token : Text) : Prop :=
  isFuzzyTerm unicode token = true ∧ key ∈ deletionKeys unicode token 2

theorem lists_addFuzzyTerm {fuzzyTerms : PostingMap Text Text} :
    Lists (addFuzzyTerm unicode fuzzyTerms other) key token ↔
      Lists fuzzyTerms key token ∨ (token = other ∧ FuzzyKey unicode key token) := by
  rw [addFuzzyTerm, FuzzyKey]
  split
  case isTrue fuzzy =>
    rw [lists_addEach]
    by_cases same : token = other
    · subst same
      simp only [fuzzy]
      grind
    · simp [same]
  case isFalse fuzzy =>
    refine (or_iff_left ?_).symm
    rintro ⟨rfl, isFuzzy, -⟩
    exact fuzzy isFuzzy

theorem lists_removeFuzzyTerm {fuzzyTerms : PostingMap Text Text} :
    Lists (removeFuzzyTerm unicode fuzzyTerms other) key token ↔
      Lists fuzzyTerms key token ∧ ¬(token = other ∧ FuzzyKey unicode key token) := by
  rw [removeFuzzyTerm, FuzzyKey]
  split
  case isTrue fuzzy =>
    rw [lists_removeEach]
    by_cases same : token = other
    · subst same
      simp only [fuzzy]
      grind
    · simp [same]
  case isFalse fuzzy =>
    refine (and_iff_left ?_).symm
    rintro ⟨rfl, isFuzzy, -⟩
    exact fuzzy isFuzzy

/-- A token that is new to the index brings its fuzzy keys. -/
theorem fuzzy_foldl_addNameToken (buildPrefixes : Bool) (tokens : List Text)
    (index : SearchIndex) :
    Lists (tokens.foldl (SearchIndex.addNameToken unicode buildPrefixes true id) index).fuzzyTerms
        key token ↔
      Lists index.fuzzyTerms key token ∨
        (token ∈ tokens ∧ ¬index.nameTerms.contains token = true ∧ FuzzyKey unicode key token) := by
  induction tokens generalizing index with
  | nil => simp
  | cons first tokens ih =>
      rw [foldl_cons, ih]
      simp only [SearchIndex.addNameToken, contains_add, true_and, mem_cons]
      by_cases known : index.nameTerms.contains first = true
      · rw [if_neg (not_not.mpr known)]
        by_cases same : token = first
        · subst same
          simp [known]
        · simp [same]
      · rw [if_pos known, lists_addFuzzyTerm]
        by_cases same : token = first
        · subst same
          simp [known]
        · simp [same]

/-- A token that the index loses takes its fuzzy keys along. -/
theorem fuzzy_foldl_removeNameToken (tokens : List Text) (index : SearchIndex) :
    Lists (tokens.foldl (SearchIndex.removeNameToken unicode id) index).fuzzyTerms key token ↔
      Lists index.fuzzyTerms key token ∧
        ¬(token ∈ tokens ∧ ¬(removeEach index.nameTerms tokens id).contains token = true ∧
          FuzzyKey unicode key token) := by
  induction tokens generalizing index with
  | nil => simp
  | cons first tokens ih =>
      rw [foldl_cons, ih]
      have step : removeEach index.nameTerms (first :: tokens) id =
          removeEach (remove index.nameTerms first id) tokens id := rfl
      simp only [SearchIndex.removeNameToken, step, mem_cons]
      have shrinks := @contains_of_removeEach (remove index.nameTerms first id) token id tokens
      have stays :=
        @contains_removeEach_of_not_mem (remove index.nameTerms first id) token id tokens
      by_cases known : (remove index.nameTerms first id).contains first = true
      · rw [if_pos known]
        by_cases same : token = first
        · subst same
          rw [known] at stays
          grind
        · simp [same]
      · rw [if_neg known, lists_removeFuzzyTerm]
        by_cases same : token = first
        · subst same
          grind
        · simp [same]

end FuzzyTerms

namespace SearchIndex

variable {unicode : Unicode} {index middle : SearchIndex} {volume : VolumeId} {id : FileId}

/-- What holds of a shard at any time. -/
structure Steady (index : SearchIndex) : Prop where
  well : index.WellIndexed
  names : NamesFilled index.nameTerms

theorem entry_congr {after : SearchIndex} (record : after.records[id]? = index.records[id]?)
    (columns : after.columns[id]? = index.columns[id]?)
    (listed : ∀ column key,
      Lists (after.listing column) key id ↔ Lists (index.listing column) key id)
    (positions : ∀ term,
      positionsIn after.contentTerms term id = positionsIn index.contentTerms term id)
    (noted : ∀ term, Lists after.contentRecordTerms id term ↔
      Lists index.contentRecordTerms id term) :
    after.entry id = index.entry id := by
  simp only [entry, record, columns, listed, positions, noted]

theorem entry_isSome (well : index.WellIndexed) (id : FileId) :
    (index.entry id).isSome = index.records[id]?.isSome := by
  have stored : index.columns[id]?.isSome = index.records[id]?.isSome := well.stored
  rw [entry]
  cases found : index.records[id]? with
  | none => rfl
  | some record =>
      rw [found] at stored
      rcases Option.isSome_iff_exists.mp stored with ⟨columns, present⟩
      rw [present]
      rfl

theorem entry_some_iff {found : Entry} : index.entry id = some found ↔
    index.records[id]? = some found.record ∧ index.columns[id]? = some found.columns ∧
      (∀ column key, found.listed (column, key) ↔
        Lists (index.listing column) key id ∧ key ∈ column.keys found.columns) ∧
      (∀ term, found.positions term = positionsIn index.contentTerms term id) ∧
      ∀ term, found.noted term ↔ Lists index.contentRecordTerms id term := by
  rcases found with ⟨record, columns, listed, positions, noted⟩
  simp only [entry, Option.bind_eq_some_iff, Option.map_eq_some_iff, Entry.mk.injEq]
  constructor
  · rintro ⟨_, live, _, stored, rfl, rfl, rfl, rfl, rfl⟩
    exact ⟨live, stored, fun _ _ => Iff.rfl, fun _ => rfl, fun _ => Iff.rfl⟩
  · rintro ⟨live, stored, sameListed, samePositions, sameNoted⟩
    refine ⟨record, live, columns, stored, rfl, rfl, ?_, ?_, ?_⟩
    · exact funext fun key => propext (sameListed key.1 key.2).symm
    · exact funext fun term => (samePositions term).symm
    · exact funext fun term => propext (sameNoted term).symm

theorem marked_shelf (steady : index.Steady) {key token : Text} :
    index.shelf.Marked (catalogue unicode volume) (key, token) ↔
      index.nameTerms.contains token = true ∧ FuzzyKey unicode key token := by
  rw [steady.names.contains_iff]
  have own (id : FileId) : Lists index.nameTerms token id ↔ index.Implies .nameTerms token id :=
    @WellIndexed.own _ steady.well .nameTerms token id rfl
  constructor
  · rintro ⟨id, found, live, member, fuzzy⟩
    have stored := (entry_some_iff.mp live).2.1
    exact ⟨⟨id, (own id).mpr ⟨found.columns, stored, member⟩⟩, fuzzy⟩
  · rintro ⟨⟨id, lists⟩, fuzzy⟩
    rcases (own id).mp lists with ⟨columns, stored, member⟩
    have isSome : (index.entry id).isSome = true := by
      rw [entry_isSome steady.well id, ← steady.well.stored, stored]
      rfl
    rcases Option.isSome_iff_exists.mp isSome with ⟨found, live⟩
    have sameColumns := (entry_some_iff.mp live).2.1
    rw [stored, Option.some.injEq] at sameColumns
    exact ⟨id, found, live, sameColumns ▸ member, fuzzy⟩

theorem removeTerms_names (record : FileRecord) : (index.removeTerms unicode record).nameTerms =
    removeEach index.nameTerms (index.columnsOf unicode record).nameTokens record.id := by
  rcases removeTerms_eq unicode record index with ⟨fuzzyTerms, same⟩
  rw [same]

theorem fuzzy_removeTerms {record : FileRecord} {key token : Text} :
    Lists (index.removeTerms unicode record).fuzzyTerms key token ↔
      Lists index.fuzzyTerms key token ∧
        ¬(token ∈ (index.columnsOf unicode record).nameTokens ∧
          ¬(index.removeTerms unicode record).nameTerms.contains token = true ∧
          FuzzyKey unicode key token) := by
  have content : ∀ (index : SearchIndex) (id : FileId),
      (index.removeContent id).fuzzyTerms = index.fuzzyTerms := by
    intro index id
    rw [SearchIndex.removeContent]
    cases index.contentRecordTerms[id]? <;> rfl
  rw [removeTerms_names, SearchIndex.removeTerms, content]
  exact fuzzy_foldl_removeNameToken _ _

theorem replaceOld_names (unicode : Unicode) (well : index.WellIndexed) (id : FileId) :
    ∃ tokens, (index.replaceOld unicode id).nameTerms = removeEach index.nameTerms tokens id ∧
      (∀ token ∈ tokens, Lists index.nameTerms token id) ∧
      ∀ key token, Lists (index.replaceOld unicode id).fuzzyTerms key token ↔
        Lists index.fuzzyTerms key token ∧ ¬(token ∈ tokens ∧
          ¬(index.replaceOld unicode id).nameTerms.contains token = true ∧
          FuzzyKey unicode key token) := by
  rw [replaceOld]
  cases found : index.records[id]? with
  | none => exact ⟨[], rfl, by simp, by simp⟩
  | some old =>
      rcases well.columnsOf unicode found with ⟨columns, present, same⟩
      have sameId : old.id = id := well.recordId found
      have sameColumns :
          ({ index with records := index.records.erase id } : SearchIndex).columnsOf unicode old =
            columns := same
      refine ⟨columns.nameTokens, ?_, ?_, ?_⟩
      · dsimp only
        rw [removeTerms_names, sameColumns, sameId]
      · intro token member
        exact (@WellIndexed.own _ well .nameTerms token id rfl).mpr ⟨columns, present, member⟩
      · intro key token
        dsimp only
        rw [fuzzy_removeTerms, sameColumns]

theorem Steady.replaceOld (unicode : Unicode) (steady : index.Steady) (id : FileId) :
    (index.replaceOld unicode id).Steady := by
  have withdrawn : Withdrawn index [id] (index.replaceOld unicode id) :=
    replaceOld_withdrawn unicode steady.well
  rcases replaceOld_names unicode steady.well id with ⟨tokens, names, -, -⟩
  exact ⟨withdrawn.wellIndexed steady.well, names ▸ steady.names.removeEach tokens⟩

theorem positionsIn_replaceOld (unicode : Unicode) (well : index.WellIndexed) {other : FileId}
    (differs : other ≠ id) (term : Text) :
    positionsIn (index.replaceOld unicode id).contentTerms term other =
      positionsIn index.contentTerms term other := by
  rw [replaceOld]
  cases found : index.records[id]? with
  | none => rfl
  | some old =>
      have sameId : old.id = id := well.recordId found
      refine Option.ext fun positions => ?_
      dsimp only
      rw [content_removeTerms.1, positionsIn_removeContent, sameId]
      · exact and_iff_left differs
      · exact well.noted

theorem entry_replaceOld (unicode : Unicode) (well : index.WellIndexed) {other : FileId}
    {found : Entry} : (index.replaceOld unicode id).entry other = some found ↔
      index.entry other = some found ∧ other ≠ id := by
  have withdrawn : Withdrawn index [id] (index.replaceOld unicode id) :=
    replaceOld_withdrawn unicode well
  by_cases same : other = id
  · subst same
    have dead : (index.replaceOld unicode other).records[other]? = none := by
      rw [withdrawn.records, if_pos (mem_singleton_self other)]
    simp [entry, dead]
  · have apart : other ∉ [id] := fun member => same (mem_singleton.mp member)
    have unchanged : (index.replaceOld unicode id).entry other = index.entry other := by
      apply entry_congr
      · rw [withdrawn.records, if_neg apart]
      · rw [withdrawn.columns, if_neg apart]
      · intro column key
        rw [withdrawn.listing]
        exact and_iff_left fun both => apart both.1
      · exact positionsIn_replaceOld unicode well same
      · intro term
        rw [withdrawn.contentNotes]
        exact and_iff_left apart
    rw [unchanged]
    exact (and_iff_left same).symm

/-- Taking out what has the id, as an operation of the shelf. -/
theorem shelf_replaceOld (unicode : Unicode) (steady : index.Steady) (volume : VolumeId)
    (id : FileId) :
    (index.replaceOld unicode id).shelf =
      index.shelf.remove (catalogue unicode volume) fun other _ => other = id := by
  have withdrawn : Withdrawn index [id] (index.replaceOld unicode id) :=
    replaceOld_withdrawn unicode steady.well
  have entries : ∀ other, (index.replaceOld unicode id).shelf.entry other =
      (index.shelf.remove (catalogue unicode volume) fun other _ => other = id).entry other := by
    intro other
    refine Option.ext fun found => ?_
    rw [remove_entry]
    exact entry_replaceOld unicode steady.well
  apply Shelf.ext entries
  · rintro ⟨column, key⟩ other
    change Lists _ _ _ ∧ ¬_ ↔ Lists _ _ _ ∧ ¬_
    rw [withdrawn.listing, withdrawn.implies]
    grind
  · rintro ⟨key, token⟩
    have marked : (index.shelf.remove (catalogue unicode volume) fun other _ => other = id).Marked
          (catalogue unicode volume) (key, token) ↔
        (index.replaceOld unicode id).shelf.Marked (catalogue unicode volume) (key, token) := by
      simp only [Shelf.Marked, entries]
    rw [remove_words, marked, marked_shelf steady, marked_shelf (steady.replaceOld unicode id)]
    rcases replaceOld_names unicode steady.well id with ⟨tokens, names, own, fuzzy⟩
    have stays := @contains_removeEach_of_not_mem index.nameTerms token id tokens
    have known : token ∈ tokens → index.nameTerms.contains token = true := fun member =>
      steady.names.contains_iff.mpr ⟨id, own token member⟩
    change Lists (index.replaceOld unicode id).fuzzyTerms key token ↔
      Lists index.fuzzyTerms key token ∧ _
    rw [fuzzy, names]
    by_cases member : token ∈ tokens
    · have contained := known member
      grind
    · have same := stays member
      rw [same]
      grind

/-- Listing a record that the shard does not have. -/
theorem entry_register (steady : index.Steady) (record : FileRecord)
    (fresh : index.entry record.id = none) {other : FileId} :
    ((index.addTerms unicode record (RecordColumns.fromRecord unicode record)).register record
        (RecordColumns.fromRecord unicode record)).entry other =
      if other = record.id then some (Entry.fresh unicode record) else index.entry other := by
  rcases addTerms_frame unicode record (RecordColumns.fromRecord unicode record) true true true
    true index with ⟨sameRecords, sameColumns, -, sameTerms, sameNotes⟩
  have dead : index.records[record.id]? = none := by
    have noEntry := entry_isSome steady.well record.id
    rw [fresh] at noEntry
    exact Option.not_isSome_iff_eq_none.mp (by simp [← noEntry])
  have notLive : record.id ∉ index.records := by
    rw [ExtTreeMap.mem_iff_isSome_getElem?, dead]
    simp
  split
  case isTrue same =>
    subst same
    refine entry_some_iff.mpr ⟨?_, ?_, ?_, ?_, ?_⟩
    · exact ExtTreeMap.getElem?_insert_self
    · exact ExtTreeMap.getElem?_insert_self
    · intro column key
      rw [register, listing_bookkeeping, addTerms, lists_addTerms, Column.built_all]
      simp only [Entry.fresh]
      grind
    · intro term
      simp only [Entry.fresh, register, addTerms, sameTerms]
      refine (Option.not_isSome_iff_eq_none.mp ?_).symm
      rw [← contentLists_iff_positionsIn]
      exact fun lists => notLive (steady.well.contentLive lists)
    · intro term
      simp only [Entry.fresh, register, addTerms, sameNotes, false_iff]
      exact fun lists => notLive (steady.well.notedLive lists)
  case isFalse differs =>
    have apart : ¬compare record.id other = .eq := by simpa using Ne.symm differs
    apply entry_congr
    · simp only [register, addTerms, sameRecords, ExtTreeMap.getElem?_insert, apart, if_false]
    · simp only [register, addTerms, sameColumns, ExtTreeMap.getElem?_insert, apart, if_false]
    · intro column key
      rw [register, listing_bookkeeping, addTerms, lists_addTerms]
      exact or_iff_right fun new => differs new.2.2
    · intro term
      simp only [register, addTerms, sameTerms]
    · intro term
      simp only [register, addTerms, sameNotes]

theorem addTerms_names (record : FileRecord) (columns : RecordColumns) :
    (index.addTerms unicode record columns).nameTerms =
      addEach index.nameTerms columns.nameTokens record.id := by
  rcases addTerms_eq unicode record columns true true true true index with ⟨fuzzyTerms, same⟩
  rw [addTerms, same]

theorem Steady.insert (unicode : Unicode) (steady : index.Steady) (record : FileRecord) :
    (index.insert unicode record).Steady := by
  have isListed := insert_listed unicode steady.well record
  refine ⟨isListed.wellIndexed (fun _ => Column.built_of_not_sidecar) steady.well, ?_⟩
  have names : (index.insert unicode record).nameTerms =
      ((index.replaceOld unicode record.id).addTerms unicode record
        (RecordColumns.fromRecord unicode record)).nameTerms := rfl
  rw [names, addTerms_names]
  exact (steady.replaceOld unicode record.id).names.addEach _

/-- Inserting a record, as an operation of the shelf. -/
theorem shelf_insert (unicode : Unicode) (steady : index.Steady) (volume : VolumeId)
    (record : FileRecord) :
    (index.insert unicode record).shelf =
      index.shelf.put (catalogue unicode volume) record := by
  have cleared := steady.replaceOld unicode record.id
  have freed := shelf_replaceOld unicode steady volume record.id
  have fresh : (index.replaceOld unicode record.id).entry record.id = none := by
    refine Option.eq_none_iff_forall_ne_some.mpr fun found live => ?_
    exact ((entry_replaceOld unicode steady.well).mp live).2 rfl
  have inserted : index.insert unicode record =
      ((index.replaceOld unicode record.id).addTerms unicode record
        (RecordColumns.fromRecord unicode record)).register record
        (RecordColumns.fromRecord unicode record) := rfl
  apply Shelf.ext
  · intro other
    rw [inserted]
    refine Option.ext fun found => ?_
    change ((_ : SearchIndex).entry other = some found) ↔ _
    rw [entry_register cleared record fresh, put_entry, catalogue_id, catalogue_fresh]
    by_cases same : other = record.id
    · rw [if_pos same]
      simp [same, eq_comm]
    · rw [if_neg same, entry_replaceOld unicode steady.well]
      simp [same, shelf]
  · rintro ⟨column, key⟩ other
    have isListed := insert_listed unicode steady.well record
    change Lists _ _ _ ∧ ¬_ ↔ (Lists _ _ _ ∧ ¬_) ∧ ¬(other = record.id ∧ key ∈ column.keys _)
    rw [isListed.listing, isListed.implies]
    simp only [Column.built_all, Entry.fresh, catalogue]
    by_cases same : other = record.id
    · simp only [same, true_and, and_true, ne_eq, not_true_eq_false, and_false, or_false]
      grind
    · simp [same]
  · rintro ⟨key, token⟩
    have words : (index.shelf.put (catalogue unicode volume) record).words (key, token) ↔
        (index.shelf.remove (catalogue unicode volume) fun other _ => other = record.id).words
            (key, token) ∨
          ((catalogue unicode volume).marks (Entry.fresh unicode record) (key, token) ∧
            ¬(index.shelf.remove (catalogue unicode volume) fun other _ =>
              other = record.id).Marked (catalogue unicode volume) (key, token)) := Iff.rfl
    rw [words, ← freed, marked_shelf cleared]
    change Lists (index.insert unicode record).fuzzyTerms key token ↔
      Lists (index.replaceOld unicode record.id).fuzzyTerms key token ∨ _
    have added : Lists (index.insert unicode record).fuzzyTerms key token ↔
        Lists (index.replaceOld unicode record.id).fuzzyTerms key token ∨
          (token ∈ (RecordColumns.fromRecord unicode record).nameTokens ∧
            ¬(index.replaceOld unicode record.id).nameTerms.contains token = true ∧
            FuzzyKey unicode key token) :=
      fuzzy_foldl_addNameToken true _ _
    rw [added]
    simp only [catalogue, Entry.fresh, FuzzyKey]
    grind

theorem shelf_bookkeeping (index : SearchIndex) (paths : ExtTreeMap Text FileId)
    (pinned : ExtTreeSet FileId) :
    ({ index with paths, pinned } : SearchIndex).shelf = index.shelf := by
  apply Shelf.ext
  · intro id
    change ({ index with paths, pinned } : SearchIndex).entry id = index.entry id
    apply entry_congr
    · rfl
    · rfl
    · intro column key
      rw [listing_bookkeeping]
    · exact fun _ => rfl
    · exact fun _ => Iff.rfl
  · intro key id
    change Lists _ _ _ ∧ ¬_ ↔ Lists _ _ _ ∧ ¬_
    rw [listing_bookkeeping]
    rfl
  · exact fun _ => Iff.rfl

theorem Steady.setPaths (steady : index.Steady) (paths : ExtTreeMap Text FileId) :
    ({ index with paths } : SearchIndex).Steady :=
  ⟨steady.well.setPaths paths, steady.names⟩

theorem Steady.remove (unicode : Unicode) (steady : index.Steady) (id : FileId) :
    (index.remove unicode id).2.Steady := by
  refine ⟨(remove_withdrawn unicode steady.well id).wellIndexed steady.well, ?_⟩
  rcases remove_eq unicode index id with ⟨pinned, same⟩
  rw [same]
  exact (steady.replaceOld unicode id).names

theorem shelf_remove (unicode : Unicode) (steady : index.Steady) (volume : VolumeId)
    (id : FileId) : (index.remove unicode id).2.shelf =
      index.shelf.remove (catalogue unicode volume) fun other _ => other ∈ [id] := by
  rcases remove_eq unicode index id with ⟨pinned, same⟩
  have replaced := shelf_replaceOld unicode steady volume id
  have kept := shelf_bookkeeping (index.replaceOld unicode id)
    (index.replaceOld unicode id).paths pinned
  rw [same]
  simp only [mem_singleton]
  exact kept.trans replaced

theorem shelf_removeEachId (unicode : Unicode) (steady : index.Steady) (volume : VolumeId)
    (ids : List FileId) : (index.removeEachId unicode ids).2.shelf =
      index.shelf.remove (catalogue unicode volume) fun other _ => other ∈ ids := by
  induction ids generalizing index with
  | nil =>
      refine (remove_nothing ?_).symm
      simp
  | cons id ids ih =>
      have step := ih (steady.remove unicode id)
      rw [shelf_remove unicode steady volume, remove_remove] at step
      exact step

theorem Steady.removeEachId (unicode : Unicode) (steady : index.Steady) (ids : List FileId) :
    (index.removeEachId unicode ids).2.Steady := by
  induction ids generalizing index with
  | nil => exact steady
  | cons id ids ih => exact ih (steady.remove unicode id)

theorem remove_fst (unicode : Unicode) (id : FileId) :
    (index.remove unicode id).1 = index.records[id]? := by
  rw [remove]
  cases index.records[id]? <;> rfl

theorem mem_removeEachId (unicode : Unicode) (well : index.WellIndexed) {ids : List FileId}
    (distinct : ids.Nodup) {record : FileRecord} :
    record ∈ (index.removeEachId unicode ids).1 ↔
      ∃ id ∈ ids, index.records[id]? = some record := by
  induction ids generalizing index with
  | nil => simp [removeEachId]
  | cons id ids ih =>
      rw [nodup_cons] at distinct
      have withdrawn := remove_withdrawn unicode well id
      have first : (index.remove unicode id).1 = index.records[id]? := remove_fst unicode id
      rw [removeEachId]
      dsimp only
      rw [mem_append, ih (withdrawn.wellIndexed well) distinct.2, first]
      simp only [withdrawn.records, Option.mem_toList, mem_cons, exists_eq_or_imp]
      refine or_congr Iff.rfl (exists_congr fun other => and_congr_right fun member => ?_)
      rw [if_neg]
      intro same
      rcases mem_singleton.mp (mem_cons.mpr same) with rfl
      exact distinct.1 member

theorem nodup_removeEachId (unicode : Unicode) (well : index.WellIndexed) {ids : List FileId}
    (distinct : ids.Nodup) :
    ((index.removeEachId unicode ids).1.map FileRecord.id).Nodup := by
  induction ids generalizing index with
  | nil => exact nodup_nil
  | cons id ids ih =>
      rw [nodup_cons] at distinct
      have withdrawn := remove_withdrawn unicode well id
      have first : (index.remove unicode id).1 = index.records[id]? := remove_fst unicode id
      rw [removeEachId]
      dsimp only
      rw [first, map_append, nodup_append]
      refine ⟨?_, ih (withdrawn.wellIndexed well) distinct.2, ?_⟩
      · cases index.records[id]? <;> simp
      · intro left leftMem right rightMem same
        rcases mem_map.mp leftMem with ⟨record, recordMem, rfl⟩
        rcases mem_map.mp rightMem with ⟨other, otherMem, rfl⟩
        rw [mem_removeEachId unicode (withdrawn.wellIndexed well) distinct.2] at otherMem
        rcases otherMem with ⟨otherId, member, live⟩
        have own : record.id = id := well.recordId (Option.mem_toList.mp recordMem)
        have otherOwn : other.id = otherId := (withdrawn.wellIndexed well).recordId live
        rw [own, otherOwn] at same
        exact distinct.1 (same ▸ member)

theorem PathsNamed.nodup_subtreeIds (named : index.PathsNamed) (root : Text) :
    (index.subtreeIds root).Nodup := by
  rw [subtreeIds, List.Nodup, pairwise_map]
  refine (ExtTreeMap.distinct_keys_toList.filter _).imp_of_mem ?_
  rintro ⟨path, id⟩ ⟨otherPath, other⟩ member otherMem apart same
  have mapped := ExtTreeMap.mem_toList_iff_getElem?_eq_some.mp (mem_filter.mp member).1
  have otherMapped :=
    ExtTreeMap.mem_toList_iff_getElem?_eq_some.mp (mem_filter.mp otherMem).1
  rcases named path id mapped with ⟨record, live, rfl⟩
  rcases named otherPath other otherMapped with ⟨otherRecord, otherLive, rfl⟩
  have sameId : id = other := same
  rw [← sameId, live, Option.some.injEq] at otherLive
  exact apart (by rw [otherLive]; exact Std.compare_self)

end SearchIndex

end Gfm.Search

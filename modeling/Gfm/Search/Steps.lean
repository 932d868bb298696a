import Gfm.Search.WellIndexed

/-!
# Steps of the index

Every operation does one of four things: it lists a record anew, withdraws some
records, changes the content of live records, or imports postings of live
records. Whatever the operations and their order, the index stays well indexed.
-/

namespace Gfm.Search

open Postings

namespace SearchIndex

variable {unicode : Unicode} {index middle after : SearchIndex} {column : Column} {key : Text}
  {id : FileId} {record : FileRecord}

/-- Only listings of live records have been added, in the columns that can be imported. -/
structure Imported (index after : SearchIndex) : Prop where
  records : after.records = index.records
  columns : after.columns = index.columns
  paths : after.paths = index.paths
  own : ∀ column : Column, column.sidecar = false → after.listing column = index.listing column
  live : ∀ {column : Column} {key : Text} {id : FileId}, Lists (after.listing column) key id →
    Lists (index.listing column) key id ∨ id ∈ index.records
  kinds : after.kind = index.kind
  content : after.contentTerms = index.contentTerms
  contentNotes : after.contentRecordTerms = index.contentRecordTerms

theorem Imported.refl : Imported index index :=
  ⟨rfl, rfl, rfl, fun _ _ => rfl, Or.inl, rfl, rfl, rfl⟩

theorem Imported.trans (first : Imported index middle) (second : Imported middle after) :
    Imported index after where
  records := second.records.trans first.records
  columns := second.columns.trans first.columns
  paths := second.paths.trans first.paths
  own := fun column own => (second.own column own).trans (first.own column own)
  live := fun lists =>
    (second.live lists).elim first.live fun live => Or.inr (first.records ▸ live)
  kinds := second.kinds.trans first.kinds
  content := second.content.trans first.content
  contentNotes := second.contentNotes.trans first.contentNotes

theorem Imported.foldl {Item : Type} {change : SearchIndex → Item → SearchIndex}
    (each : ∀ index item, Imported index (change index item)) (items : List Item)
    (index : SearchIndex) : Imported index (items.foldl change index) := by
  induction items generalizing index with
  | nil => exact Imported.refl
  | cons item items ih => exact (each index item).trans (ih (change index item))

theorem Imported.wellIndexed (isImported : Imported index after) (well : index.WellIndexed) :
    after.WellIndexed := by
  constructor
  · intro id record
    rw [isImported.records]
    exact well.recordId
  · intro id
    rw [isImported.records, isImported.columns]
    exact well.stored
  · intro column key id own
    rw [isImported.own column own, Implies, isImported.columns]
    exact well.own own
  · intro kind id
    rw [isImported.kinds, isImported.records]
    exact well.kinds
  · intro term id
    rw [isImported.content, isImported.contentNotes]
    exact well.noted term id
  · intro term id
    rw [isImported.contentNotes, isImported.records]
    exact well.notedLive

theorem mem_liveIds {ids : List FileId} :
    id ∈ index.liveIds ids ↔ id ∈ ids ∧ id ∈ index.records := by
  simp [liveIds]

section Imports

theorem imported_importPrefixPostings (postings : List SearchPrefixPosting) :
    Imported index (index.importPrefixPostings unicode postings) := by
  refine Imported.foldl (fun index posting => ?_) postings index
  dsimp only
  split
  · refine ⟨rfl, rfl, rfl, fun column own => ?_, @fun column key id lists => ?_, rfl, rfl, rfl⟩
    · cases column <;> first | rfl | cases own
    · cases column with
      | namePrefixes =>
          rw [listing, lists_extend, mem_liveIds] at lists
          exact lists.elim (fun added => Or.inr added.2.2) Or.inl
      | _ => exact Or.inl lists
  · exact Imported.refl

theorem imported_importSubstringPostings (postings : List SearchSubstringPosting) :
    Imported index (index.importSubstringPostings unicode postings) := by
  refine Imported.foldl (fun index posting => ?_) postings index
  dsimp only
  split
  · refine ⟨rfl, rfl, rfl, fun column own => ?_, @fun column key id lists => ?_, rfl, rfl, rfl⟩
    · cases column <;> first | rfl | cases own
    · cases column with
      | nameSubstrings =>
          rw [listing, lists_extend, mem_liveIds] at lists
          exact lists.elim (fun added => Or.inr added.2.2) Or.inl
      | _ => exact Or.inl lists
  · exact Imported.refl

theorem imported_importFuzzyPostings (postings : List SearchFuzzyPosting) :
    Imported index (index.importFuzzyPostings unicode postings) := by
  refine Imported.foldl (fun index posting => ?_) postings index
  dsimp only
  split
  · refine ⟨rfl, rfl, rfl, fun column _ => ?_, @fun column key id lists => ?_, rfl, rfl, rfl⟩
    · cases column <;> rfl
    · cases column <;> exact Or.inl lists
  · exact Imported.refl

theorem imported_importMetadataPostings (postings : List SearchMetadataPosting) :
    Imported index (index.importMetadataPostings unicode postings) := by
  refine Imported.foldl (fun index posting => ?_) postings index
  dsimp only
  split
  · cases posting.field with
    | tag =>
        refine ⟨rfl, rfl, rfl, fun column own => ?_, @fun column key id lists => ?_, rfl, rfl, rfl⟩
        · cases column <;> first | rfl | cases own
        · cases column with
          | tags =>
              rw [listing, lists_extend, mem_liveIds] at lists
              exact lists.elim (fun added => Or.inr added.2.2) Or.inl
          | _ => exact Or.inl lists
    | comment =>
        refine ⟨rfl, rfl, rfl, fun column own => ?_, @fun column key id lists => ?_, rfl, rfl, rfl⟩
        · cases column <;> first | rfl | cases own
        · cases column with
          | metadataTerms =>
              rw [listing, lists_extend, mem_liveIds] at lists
              exact lists.elim (fun added => Or.inr added.2.2) Or.inl
          | _ => exact Or.inl lists
  · exact Imported.refl

end Imports

section Content

theorem contentChanged_listLive (index : SearchIndex) (id : FileId) (term : Text)
    (change : Option (List Nat) → List Nat) :
    ContentChanged index
      (if index.records.contains id then index.listContent id term change else index) := by
  split
  case isTrue live => exact contentChanged_listContent (by simpa using live)
  case isFalse => exact ContentChanged.refl

/-- Changing the content of one live record over and over. -/
theorem ContentChanged.foldl_live (id : FileId) {Item : Type}
    {change : SearchIndex → Item → SearchIndex}
    (each : ∀ index item, id ∈ index.records → ContentChanged index (change index item))
    (items : List Item) (live : id ∈ index.records) :
    ContentChanged index (items.foldl change index) := by
  induction items generalizing index with
  | nil => exact ContentChanged.refl
  | cons item items ih =>
      have first := each index item live
      exact first.trans (ih (first.records ▸ live))

theorem contentChanged_insertContent (text : Text) :
    ContentChanged index (index.insertContent unicode id text) := by
  rw [insertContent]
  split
  case isTrue live =>
    have cleared := contentChanged_removeContent index id
    refine cleared.trans (ContentChanged.foldl_live id ?_ _ ?_)
    · exact fun index item live => contentChanged_listContent live
    · rw [cleared.records]
      simpa using live
  case isFalse => exact ContentChanged.refl

theorem contentChanged_insertContentTerms (terms : List Text) :
    ContentChanged index (index.insertContentTerms unicode id terms) := by
  rw [insertContentTerms]
  split
  case isTrue live =>
    refine ContentChanged.foldl_live id (fun index term live => ?_) terms (by simpa using live)
    dsimp only
    split
    · exact ContentChanged.refl
    · exact contentChanged_listContent live
  case isFalse => exact ContentChanged.refl

theorem contentChanged_importContentPostings (postings : List ContentPosting) :
    ContentChanged index (index.importContentPostings unicode postings) := by
  refine ContentChanged.foldl (fun index posting => ?_) postings index
  rw [importContentPosting]
  split
  · exact ContentChanged.refl
  · have ids := ContentChanged.foldl (fun index id => contentChanged_listLive index id
      (unicode.normalize posting.term) fun positions => positions.getD []) posting.ids index
    exact ids.trans (ContentChanged.foldl (fun index (positions : ContentPositions) =>
      contentChanged_listLive index positions.id _ _) posting.positions _)

end Content

section Withdrawals

theorem Withdrawn.bookkeeping {ids : List FileId} (withdrawn : Withdrawn index ids after)
    (paths : Std.ExtTreeMap Text FileId) (pinned : Std.ExtTreeSet FileId) :
    Withdrawn index ids { after with paths, pinned } := by
  refine ⟨withdrawn.records, withdrawn.columns, ?_, withdrawn.kinds, withdrawn.content,
    withdrawn.contentNotes⟩
  intro column key id
  rw [listing_bookkeeping]
  exact withdrawn.listing

/-- Taking a record out does to the lists and paths what replacing it does. -/
theorem remove_eq (unicode : Unicode) (index : SearchIndex) (id : FileId) :
    ∃ pinned, (index.remove unicode id).2 = { index.replaceOld unicode id with pinned } := by
  rw [remove, replaceOld]
  cases index.records[id]? with
  | none => exact ⟨index.pinned, rfl⟩
  | some record => exact ⟨_, rfl⟩

theorem remove_withdrawn (unicode : Unicode) (well : index.WellIndexed) (id : FileId) :
    Withdrawn index [id] (index.remove unicode id).2 := by
  rcases remove_eq unicode index id with ⟨pinned, same⟩
  rw [same]
  exact (replaceOld_withdrawn unicode well).bookkeeping _ pinned

theorem removeEachId_withdrawn (unicode : Unicode) (well : index.WellIndexed)
    (ids : List FileId) : Withdrawn index ids (index.removeEachId unicode ids).2 := by
  induction ids generalizing index with
  | nil => exact Withdrawn.nil
  | cons id ids ih =>
      have first := remove_withdrawn unicode well id
      exact first.trans (ih (first.wellIndexed well))

theorem WellIndexed.setPaths (well : index.WellIndexed) (paths : Std.ExtTreeMap Text FileId) :
    ({ index with paths } : SearchIndex).WellIndexed := by
  refine ⟨well.recordId, well.stored, ?_, well.kinds, well.noted, well.notedLive⟩
  intro column key id own
  rw [listing_bookkeeping]
  exact well.own own

theorem removePath_withdrawn (unicode : Unicode) (well : index.WellIndexed) (path : Text) :
    Withdrawn index index.paths[path]?.toList (index.removePath unicode path).2 := by
  rw [removePath]
  cases index.paths[path]? with
  | none => exact Withdrawn.nil
  | some id =>
      have step := remove_withdrawn unicode (well.setPaths (index.paths.erase path)) id
      refine ⟨step.records, step.columns, ?_, step.kinds, step.content, step.contentNotes⟩
      intro column key id
      have lists := @step.listing column key id
      rw [listing_bookkeeping] at lists
      exact lists

end Withdrawals

/-- The ids that `remove_subtree` takes out, in its order. -/
def subtreeIds (index : SearchIndex) (root : Text) : List FileId :=
  (index.paths.toList.filter fun (path, _) =>
    path = root ∨ (root ++ ['/']).isPrefixOf path = true).map Prod.snd

section Insertions

/-- The columns come from a record or from columns computed earlier. -/
def Derived (unicode : Unicode) (columns : RecordColumns) : Prop :=
  (∃ record, columns = RecordColumns.fromRecord unicode record) ∨
    ∃ given, columns = RecordColumns.fromSearchColumns unicode given

theorem register_paths (record : FileRecord) (entry : RecordColumns)
    (buildPrefixes buildSubstrings buildFuzzy buildMetadata : Bool) :
    ((index.addTermsWithSidecarPolicy unicode record entry buildPrefixes buildSubstrings buildFuzzy
        buildMetadata).register record entry).paths =
      index.paths.insert record.path record.id := by
  rw [register, (addTerms_frame unicode record entry _ _ _ _ index).2.2.1]

theorem insert_listed (unicode : Unicode) (well : index.WellIndexed) (record : FileRecord) :
    Listed index record (RecordColumns.fromRecord unicode record) (Column.built true true true)
      (index.insert unicode record) :=
  (replaceOld_withdrawn unicode well).listed true true true true

theorem insert_paths (unicode : Unicode) (index : SearchIndex) (record : FileRecord) :
    (index.insert unicode record).paths =
      (index.replaceOld unicode record.id).paths.insert record.path record.id :=
  register_paths record _ true true true true

theorem insertWithColumnsInner_listed (unicode : Unicode) (well : index.WellIndexed)
    (record : FileRecord) (columns : SearchRecordColumns)
    (buildPrefixes buildSubstrings buildFuzzy buildMetadata : Bool) :
    ∃ entry built, Derived unicode entry ∧
      (∀ column : Column, column.sidecar = false → built column = true) ∧
      Listed index record entry built (index.insertWithColumnsInner unicode record columns
        buildPrefixes buildSubstrings buildFuzzy buildMetadata).2 := by
  rw [insertWithColumnsInner]
  split
  · exact ⟨_, _, Or.inl ⟨record, rfl⟩, fun _ => Column.built_of_not_sidecar,
      insert_listed unicode well record⟩
  · exact ⟨_, _, Or.inr ⟨columns, rfl⟩, fun _ => Column.built_of_not_sidecar,
      (replaceOld_withdrawn unicode well).listed _ _ _ _⟩

theorem insertWithColumnsInner_paths (unicode : Unicode) (index : SearchIndex)
    (record : FileRecord) (columns : SearchRecordColumns)
    (buildPrefixes buildSubstrings buildFuzzy buildMetadata : Bool) :
    (index.insertWithColumnsInner unicode record columns buildPrefixes buildSubstrings buildFuzzy
        buildMetadata).2.paths =
      (index.replaceOld unicode record.id).paths.insert record.path record.id := by
  rw [insertWithColumnsInner]
  split
  · exact insert_paths unicode index record
  · exact register_paths record _ _ _ _ _

end Insertions

end SearchIndex

/-- The imports of postings that were built elsewhere; content comes in as text or postings. -/
def IndexOp.importsPostings : IndexOp → Bool
  | .importPrefixPostings _ | .importSubstringPostings _ | .importFuzzyPostings _
  | .importMetadataPostings _ => true
  | _ => false

namespace SearchIndex

variable {unicode : Unicode} {index : SearchIndex} {id : FileId}

/-- What a step does to the index. -/
theorem step_cases (unicode : Unicode) (well : index.WellIndexed) (operation : IndexOp) :
    (∃ record entry built, Derived unicode entry ∧
        (∀ column : Column, column.sidecar = false → built column = true) ∧
        Listed index record entry built (index.step unicode operation)) ∨
      (∃ ids, Withdrawn index ids (index.step unicode operation)) ∨
      ContentChanged index (index.step unicode operation) ∨
      (operation.importsPostings = true ∧ Imported index (index.step unicode operation)) := by
  cases operation with
  | insert record =>
      exact Or.inl ⟨_, _, _, Or.inl ⟨record, rfl⟩, fun _ => Column.built_of_not_sidecar,
        insert_listed unicode well record⟩
  | insertWithColumns record columns =>
      exact Or.inl ⟨_, insertWithColumnsInner_listed unicode well record columns _ _ _ _⟩
  | insertWithColumnsDeferredFuzzy record columns =>
      exact Or.inl ⟨_, insertWithColumnsInner_listed unicode well record columns _ _ _ _⟩
  | insertWithColumnsDeferredSidecars record columns =>
      exact Or.inl ⟨_, insertWithColumnsInner_listed unicode well record columns _ _ _ _⟩
  | importPrefixPostings postings =>
      exact Or.inr (Or.inr (Or.inr ⟨rfl, imported_importPrefixPostings postings⟩))
  | importSubstringPostings postings =>
      exact Or.inr (Or.inr (Or.inr ⟨rfl, imported_importSubstringPostings postings⟩))
  | importFuzzyPostings postings =>
      exact Or.inr (Or.inr (Or.inr ⟨rfl, imported_importFuzzyPostings postings⟩))
  | importMetadataPostings postings =>
      exact Or.inr (Or.inr (Or.inr ⟨rfl, imported_importMetadataPostings postings⟩))
  | importContentPostings postings =>
      exact Or.inr (Or.inr (Or.inl (contentChanged_importContentPostings postings)))
  | applyRecordColumns columns =>
      cases found : index.records[columns.id]? with
      | none =>
          refine Or.inr (Or.inr (Or.inl ?_))
          simp only [step, applyRecordColumns, found]
          exact ContentChanged.refl
      | some record =>
          have sameId := well.recordId found
          rw [← sameId] at found
          refine Or.inl ⟨record, RecordColumns.fromSearchColumns unicode columns, fun _ => true,
            Or.inr ⟨columns, rfl⟩, fun _ _ => rfl, ?_⟩
          simp only [step, applyRecordColumns, ← sameId, found]
          exact well.listed_anew unicode found
  | insertContent id text => exact Or.inr (Or.inr (Or.inl (contentChanged_insertContent text)))
  | insertContentTerms id terms =>
      exact Or.inr (Or.inr (Or.inl (contentChanged_insertContentTerms terms)))
  | removeContent id => exact Or.inr (Or.inr (Or.inl (contentChanged_removeContent index id)))
  | remove id => exact Or.inr (Or.inl ⟨_, remove_withdrawn unicode well id⟩)
  | removePath path => exact Or.inr (Or.inl ⟨_, removePath_withdrawn unicode well path⟩)
  | removeSubtree root =>
      exact Or.inr (Or.inl ⟨_, removeEachId_withdrawn unicode well (index.subtreeIds root)⟩)
  | pin id =>
      refine Or.inr (Or.inl ⟨[], ?_⟩)
      simp only [step, pin]
      split
      · exact Withdrawn.nil.bookkeeping _ _
      · exact Withdrawn.nil
  | unpin id => exact Or.inr (Or.inl ⟨[], Withdrawn.nil.bookkeeping _ _⟩)

theorem WellIndexed.step (unicode : Unicode) (well : index.WellIndexed) (operation : IndexOp) :
    (index.step unicode operation).WellIndexed := by
  rcases step_cases unicode well operation with
    ⟨record, entry, built, -, whole, isListed⟩ | ⟨ids, withdrawn⟩ | changed | ⟨-, isImported⟩
  · exact isListed.wellIndexed whole well
  · exact withdrawn.wellIndexed well
  · exact changed.wellIndexed well
  · exact isImported.wellIndexed well

/-- The stored columns are derived. -/
def ColumnsDerived (unicode : Unicode) (index : SearchIndex) : Prop :=
  ∀ (id : FileId) columns, index.columns[id]? = some columns → Derived unicode columns

theorem ColumnsDerived.step (well : index.WellIndexed) (derived : index.ColumnsDerived unicode)
    (operation : IndexOp) : (index.step unicode operation).ColumnsDerived unicode := by
  intro id columns stored
  rcases step_cases unicode well operation with
    ⟨record, entry, built, own, -, isListed⟩ | ⟨ids, withdrawn⟩ | changed | ⟨-, isImported⟩
  · rw [isListed.columns] at stored
    split at stored
    case isTrue => exact Option.some.inj stored ▸ own
    case isFalse => exact derived id columns stored
  · rw [withdrawn.columns] at stored
    split at stored
    case isTrue => cases stored
    case isFalse => exact derived id columns stored
  · rw [changed.columns] at stored
    exact derived id columns stored
  · rw [isImported.columns] at stored
    exact derived id columns stored

theorem wellIndexed_new : new.WellIndexed := by
  constructor
  · intro id record found
    simp [new] at found
  · simp [new]
  · intro column key id own
    have noneListed : ¬Lists (new.listing column) key id := by
      cases column <;> exact not_lists_empty
    refine iff_of_false noneListed ?_
    rintro ⟨columns, found, -⟩
    simp [new] at found
  · intro kind id
    simp [new]
  · rintro term id ⟨ids, found, -⟩
    simp [new] at found
  · intro term id lists
    exact absurd lists not_lists_empty

theorem wellIndexed_run (unicode : Unicode) (operations : List IndexOp) :
    (new.run unicode operations).WellIndexed := by
  suffices all : ∀ index : SearchIndex, index.WellIndexed →
      (index.run unicode operations).WellIndexed from all new wellIndexed_new
  induction operations with
  | nil => exact fun _ well => well
  | cons operation operations ih => exact fun _ well => ih _ (well.step unicode operation)

theorem columnsDerived_run (unicode : Unicode) (operations : List IndexOp) :
    (new.run unicode operations).ColumnsDerived unicode := by
  suffices all : ∀ index : SearchIndex, index.WellIndexed → index.ColumnsDerived unicode →
      (index.run unicode operations).ColumnsDerived unicode by
    refine all new wellIndexed_new fun id columns stored => ?_
    simp [new] at stored
  induction operations with
  | nil => exact fun _ _ derived => derived
  | cons operation operations ih =>
      exact fun _ well derived => ih _ (well.step unicode operation) (derived.step well operation)

end SearchIndex

end Gfm.Search

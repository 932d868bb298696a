import Gfm.Search.Query
import Gfm.Lib.Postings

/-!
# The search index

The index holds the records with their columns, the ids of the paths, and one
posting map for every kind of text that a query can look up. Inserting a record
lists it under the tokens of its columns; removing it takes it off the lists
under the tokens of the columns that are stored for it.
-/

namespace Gfm.Search

open Postings Std

/-- Where each term stands in the content of each record. -/
abbrev ContentTerms := ExtTreeMap Text (ExtTreeMap FileId (List Nat))

structure SearchFuzzyPosting where
  key : Text
  terms : List Text

structure SearchPrefixPosting where
  lead : Text
  ids : List FileId

structure SearchSubstringPosting where
  gram : Text
  ids : List FileId

inductive SearchMetadataField where
  | tag
  | comment
  deriving DecidableEq

structure SearchMetadataPosting where
  field : SearchMetadataField
  term : Text
  ids : List FileId

/-- The records, their columns, and the postings of what is searched for in them. -/
structure SearchIndex where
  records : ExtTreeMap FileId FileRecord
  columns : ExtTreeMap FileId RecordColumns
  paths : ExtTreeMap Text FileId
  nameExact : PostingMap Text FileId
  namePrefixes : PostingMap Text FileId
  nameSubstrings : PostingMap Text FileId
  nameTerms : PostingMap Text FileId
  pathTerms : PostingMap Text FileId
  metadataTerms : PostingMap Text FileId
  fuzzyTerms : PostingMap Text Text
  extension : PostingMap Text FileId
  tags : PostingMap Text FileId
  kind : PostingMap FileKind FileId
  contentTerms : ContentTerms
  contentRecordTerms : PostingMap FileId Text
  pinned : ExtTreeSet FileId

namespace SearchIndex

variable (unicode : Unicode)

def new : SearchIndex := ⟨∅, ∅, ∅, ∅, ∅, ∅, ∅, ∅, ∅, ∅, ∅, ∅, ∅, ∅, ∅, ∅⟩

variable (index : SearchIndex)

/-- A term is listed under what is left of it when up to two characters are deleted. -/
def addFuzzyTerm (fuzzyTerms : PostingMap Text Text) (term : Text) : PostingMap Text Text :=
  if isFuzzyTerm unicode term then addEach fuzzyTerms (deletionKeys unicode term 2) term
  else fuzzyTerms

def removeFuzzyTerm (fuzzyTerms : PostingMap Text Text) (term : Text) : PostingMap Text Text :=
  if isFuzzyTerm unicode term then removeEach fuzzyTerms (deletionKeys unicode term 2) term
  else fuzzyTerms

/-- A token that was listed before already has its fuzzy keys. -/
def addNameToken (buildPrefixes buildFuzzy : Bool) (id : FileId) (index : SearchIndex)
    (token : Text) : SearchIndex :=
  { index with
    nameTerms := add index.nameTerms token id
    namePrefixes :=
      if buildPrefixes then addEach index.namePrefixes (tokenPrefixes token) id
      else index.namePrefixes
    fuzzyTerms :=
      if buildFuzzy ∧ ¬index.nameTerms.contains token then
        addFuzzyTerm unicode index.fuzzyTerms token
      else index.fuzzyTerms }

/-- List a record under its columns; what a sidecar answers for is not built. -/
def addTermsWithSidecarPolicy (record : FileRecord) (columns : RecordColumns)
    (buildPrefixes buildSubstrings buildFuzzy buildMetadata : Bool) : SearchIndex :=
  let named := columns.nameTokens.foldl (addNameToken unicode buildPrefixes buildFuzzy record.id)
    { index with nameExact := add index.nameExact columns.name record.id }
  { named with
    nameSubstrings :=
      if buildSubstrings then addEach named.nameSubstrings (substringGrams columns.name) record.id
      else named.nameSubstrings
    pathTerms := addEach named.pathTerms columns.pathTokens record.id
    extension := addEach named.extension columns.extension.toList record.id
    kind := add named.kind record.kind record.id
    tags := if buildMetadata then addEach named.tags columns.tags record.id else named.tags
    metadataTerms :=
      if buildMetadata then addEach named.metadataTerms columns.metadataTokens record.id
      else named.metadataTerms }

def addTerms (record : FileRecord) (columns : RecordColumns) : SearchIndex :=
  index.addTermsWithSidecarPolicy unicode record columns true true true true

def removeContentTerm (contentTerms : ContentTerms) (term : Text) (id : FileId) :
    ContentTerms :=
  contentTerms.alter term fun
    | none => none
    | some positions =>
        if (positions.erase id).isEmpty then none else some (positions.erase id)

/-- Where the terms of a record are not known, every term is gone through. -/
def removeContent (id : FileId) : SearchIndex :=
  match index.contentRecordTerms[id]? with
  | none =>
      { index with
        contentTerms := (index.contentTerms.map (fun _ positions => positions.erase id)).filter
          (fun _ positions => !positions.isEmpty) }
  | some terms =>
      { index with
        contentRecordTerms := index.contentRecordTerms.erase id
        contentTerms := terms.toList.foldl (fun contentTerms term =>
          removeContentTerm contentTerms term id) index.contentTerms }

/-- The fuzzy keys of a token go with the last record that has it. -/
def removeNameToken (id : FileId) (index : SearchIndex) (token : Text) : SearchIndex :=
  let nameTerms := remove index.nameTerms token id
  { index with
    nameTerms
    namePrefixes := removeEach index.namePrefixes (tokenPrefixes token) id
    fuzzyTerms :=
      if nameTerms.contains token then index.fuzzyTerms
      else removeFuzzyTerm unicode index.fuzzyTerms token }

/-- The stored columns, or those of the record where none are stored. -/
def columnsOf (record : FileRecord) : RecordColumns :=
  (index.columns[record.id]?).getD (RecordColumns.fromRecord unicode record)

def removeTerms (record : FileRecord) : SearchIndex :=
  let columns := index.columnsOf unicode record
  let unnamed := columns.nameTokens.foldl (removeNameToken unicode record.id)
    { index with
      nameExact := remove index.nameExact columns.name record.id
      nameSubstrings := removeEach index.nameSubstrings (substringGrams columns.name) record.id }
  { unnamed with
    pathTerms := removeEach unnamed.pathTerms columns.pathTokens record.id
    extension := removeEach unnamed.extension columns.extension.toList record.id
    kind := remove unnamed.kind record.kind record.id
    tags := removeEach unnamed.tags columns.tags record.id
    metadataTerms := removeEach unnamed.metadataTerms columns.metadataTokens record.id
    }.removeContent record.id

/-- Take out the record that has the id of a new one, if any. -/
def replaceOld (id : FileId) : SearchIndex :=
  match index.records[id]? with
  | none => index
  | some old =>
      let cleared := { index with records := index.records.erase id }.removeTerms unicode old
      { cleared with
        columns := cleared.columns.erase id
        paths := cleared.paths.erase old.path }

/-- Register a record whose terms are listed. -/
def register (record : FileRecord) (columns : RecordColumns) : SearchIndex :=
  { index with
    paths := index.paths.insert record.path record.id
    columns := index.columns.insert record.id columns
    records := index.records.insert record.id record }

def insert (record : FileRecord) : SearchIndex :=
  let columns := RecordColumns.fromRecord unicode record
  ((index.replaceOld unicode record.id).addTerms unicode record columns).register record columns

/-- Columns of another record are not used. -/
def insertWithColumnsInner (record : FileRecord) (columns : SearchRecordColumns)
    (buildPrefixes buildSubstrings buildFuzzy buildMetadata : Bool) : Bool × SearchIndex :=
  if record.id ≠ columns.id then (false, index.insert unicode record)
  else
    let normalized := RecordColumns.fromSearchColumns unicode columns
    (true, ((index.replaceOld unicode record.id).addTermsWithSidecarPolicy unicode record
      normalized buildPrefixes buildSubstrings buildFuzzy buildMetadata).register record normalized)

def insertWithColumns (record : FileRecord) (columns : SearchRecordColumns) :
    Bool × SearchIndex :=
  index.insertWithColumnsInner unicode record columns true true true true

def insertWithColumnsDeferredFuzzy (record : FileRecord) (columns : SearchRecordColumns) :
    Bool × SearchIndex :=
  index.insertWithColumnsInner unicode record columns true true false true

def insertWithColumnsDeferredSidecars (record : FileRecord) (columns : SearchRecordColumns) :
    Bool × SearchIndex :=
  index.insertWithColumnsInner unicode record columns false false false false

/-- Postings from a file are imported for the records of the index only. -/
def liveIds (ids : List FileId) : List FileId := ids.filter fun id => index.records.contains id

def importPrefixPostings (postings : List SearchPrefixPosting) : SearchIndex :=
  postings.foldl (fun index posting =>
    let lead := unicode.normalize posting.lead
    if isPrefixTerm lead ∧ index.liveIds posting.ids ≠ [] then
      { index with namePrefixes := extend index.namePrefixes lead (index.liveIds posting.ids) }
    else index) index

def importSubstringPostings (postings : List SearchSubstringPosting) : SearchIndex :=
  postings.foldl (fun index posting =>
    let gram := unicode.normalize posting.gram
    if isSubstringGram gram ∧ index.liveIds posting.ids ≠ [] then
      { index with
        nameSubstrings := extend index.nameSubstrings gram (index.liveIds posting.ids) }
    else index) index

def importFuzzyPostings (postings : List SearchFuzzyPosting) : SearchIndex :=
  postings.foldl (fun index posting =>
    let key := unicode.normalize posting.key
    let terms := (posting.terms.map unicode.normalize).filter (isFuzzyTerm unicode)
    if key ≠ [] ∧ terms ≠ [] then
      { index with fuzzyTerms := extend index.fuzzyTerms key terms }
    else index) index

def importMetadataPostings (postings : List SearchMetadataPosting) : SearchIndex :=
  postings.foldl (fun index posting =>
    let term := unicode.normalize posting.term
    if term ≠ [] ∧ index.liveIds posting.ids ≠ [] then
      match posting.field with
      | .tag => { index with tags := extend index.tags term (index.liveIds posting.ids) }
      | .comment =>
          { index with
            metadataTerms := extend index.metadataTerms term (index.liveIds posting.ids) }
    else index) index

/-- List a record under other columns than before. -/
def applyRecordColumns (columns : SearchRecordColumns) : Bool × SearchIndex :=
  match index.records[columns.id]? with
  | none => (false, index)
  | some record =>
      let normalized := RecordColumns.fromSearchColumns unicode columns
      let listed := (index.removeTerms unicode record).addTerms unicode record normalized
      (true, { listed with columns := listed.columns.insert columns.id normalized })

/-- Take a record out; gives the record, if there was one. -/
def remove (id : FileId) : Option FileRecord × SearchIndex :=
  match index.records[id]? with
  | none => (none, index)
  | some record =>
      let cleared := { index with records := index.records.erase id }.removeTerms unicode record
      (some record,
        { cleared with
          columns := cleared.columns.erase id
          pinned := cleared.pinned.erase id
          paths := cleared.paths.erase record.path })

def removePath (path : Text) : Option FileRecord × SearchIndex :=
  match index.paths[path]? with
  | none => (none, index)
  | some id => { index with paths := index.paths.erase path }.remove unicode id

def removeEachId (index : SearchIndex) : List FileId → List FileRecord × SearchIndex
  | [] => ([], index)
  | id :: ids =>
      let (removed, index) := index.remove unicode id
      let (others, index) := removeEachId index ids
      (removed.toList ++ others, index)

/-- The records at the root and below it. -/
def removeSubtree (root : Text) : List FileRecord × SearchIndex :=
  index.removeEachId unicode ((index.paths.toList.filter fun (path, _) =>
    path = root ∨ (root ++ ['/']).isPrefixOf path = true).map Prod.snd)

/-- Only a record of the index can be pinned. -/
def pin (id : FileId) : SearchIndex :=
  if index.records.contains id then { index with pinned := index.pinned.insert id } else index

def unpin (id : FileId) : SearchIndex := { index with pinned := index.pinned.erase id }

/-- List an id under a content term; `change` says what happens to its positions. -/
def listContent (id : FileId) (term : Text) (change : Option (List Nat) → List Nat)
    (index : SearchIndex) : SearchIndex :=
  { index with
    contentRecordTerms := add index.contentRecordTerms id term
    contentTerms := index.contentTerms.alter term fun ids =>
      some ((ids.getD ∅).alter id fun positions => some (change positions)) }

/-- The positions are stored in 32 bits. -/
def insertContent (id : FileId) (text : Text) : SearchIndex :=
  if index.records.contains id then
    (unicode.tokenize (unicode.normalize text)).zipIdx.foldl
      (fun index (token, position) => index.listContent id token fun positions =>
        positions.getD [] ++ [position % 2 ^ 32])
      (index.removeContent id)
  else index

def insertContentTerms (id : FileId) (terms : List Text) : SearchIndex :=
  if index.records.contains id then
    terms.foldl (fun index term =>
      let term := unicode.normalize term
      if term = [] then index
      else index.listContent id term fun positions => positions.getD []) index
  else index

/-- Positions from a file replace the ones that are known. -/
def importContentPosting (index : SearchIndex) (posting : ContentPosting) : SearchIndex :=
  let term := unicode.normalize posting.term
  if term = [] then index
  else
    let listed := posting.ids.foldl (fun index id =>
      if index.records.contains id then
        index.listContent id term fun positions => positions.getD []
      else index) index
    posting.positions.foldl (fun index positions =>
      if index.records.contains positions.id then
        index.listContent positions.id term fun _ =>
          (ExtTreeSet.ofList positions.positions).toList
      else index) listed

def importContentPostings (postings : List ContentPosting) : SearchIndex :=
  postings.foldl (importContentPosting unicode) index

end SearchIndex

/-- The operations of the index, with what they are called with. -/
inductive IndexOp where
  | insert (record : FileRecord)
  | insertWithColumns (record : FileRecord) (columns : SearchRecordColumns)
  | insertWithColumnsDeferredFuzzy (record : FileRecord) (columns : SearchRecordColumns)
  | insertWithColumnsDeferredSidecars (record : FileRecord) (columns : SearchRecordColumns)
  | importPrefixPostings (postings : List SearchPrefixPosting)
  | importSubstringPostings (postings : List SearchSubstringPosting)
  | importFuzzyPostings (postings : List SearchFuzzyPosting)
  | importMetadataPostings (postings : List SearchMetadataPosting)
  | importContentPostings (postings : List ContentPosting)
  | applyRecordColumns (columns : SearchRecordColumns)
  | insertContent (id : FileId) (text : Text)
  | insertContentTerms (id : FileId) (terms : List Text)
  | removeContent (id : FileId)
  | remove (id : FileId)
  | removePath (path : Text)
  | removeSubtree (root : Text)
  | pin (id : FileId)
  | unpin (id : FileId)

namespace SearchIndex

variable (unicode : Unicode)

def step (index : SearchIndex) : IndexOp → SearchIndex
  | .insert record => index.insert unicode record
  | .insertWithColumns record columns => (index.insertWithColumns unicode record columns).2
  | .insertWithColumnsDeferredFuzzy record columns =>
      (index.insertWithColumnsDeferredFuzzy unicode record columns).2
  | .insertWithColumnsDeferredSidecars record columns =>
      (index.insertWithColumnsDeferredSidecars unicode record columns).2
  | .importPrefixPostings postings => index.importPrefixPostings unicode postings
  | .importSubstringPostings postings => index.importSubstringPostings unicode postings
  | .importFuzzyPostings postings => index.importFuzzyPostings unicode postings
  | .importMetadataPostings postings => index.importMetadataPostings unicode postings
  | .importContentPostings postings => index.importContentPostings unicode postings
  | .applyRecordColumns columns => (index.applyRecordColumns unicode columns).2
  | .insertContent id text => index.insertContent unicode id text
  | .insertContentTerms id terms => index.insertContentTerms unicode id terms
  | .removeContent id => index.removeContent id
  | .remove id => (index.remove unicode id).2
  | .removePath path => (index.removePath unicode path).2
  | .removeSubtree root => (index.removeSubtree unicode root).2
  | .pin id => index.pin id
  | .unpin id => index.unpin id

def run (index : SearchIndex) (operations : List IndexOp) : SearchIndex :=
  operations.foldl (step unicode) index

end SearchIndex

end Gfm.Search

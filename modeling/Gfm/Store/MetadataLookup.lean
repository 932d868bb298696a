import Gfm.Store.CompactedLookup
import Gfm.Store.MetadataArchive

/-!
# Looking up a written metadata archive

The archive opens, and a lookup gives the ids that are listed under the lower case of its
characters. The ids of a term are those that are listed under its lower case as a whole. So the
lookups are exact just where the two lower cases of every term list the same ids.
-/

namespace Gfm.Store

open IndexedArchive List MmapMetadataArchive Postings SliceSearch Sorted SortedWalk Wire

section Terms

variable (unicode : Unicode)

/-- The keys that a record is listed under, by its tags and its comments. -/
def metadataKeys (record : SecondaryMetadataRecord) : List MetadataKey :=
  ((record.tags.map unicode.lowercaseTerm).filter fun tag => !tag.isEmpty).map
      (fun tag => ⟨.tag, tag⟩) ++
    record.comments.flatMap fun comment =>
      (unicode.tokenize (unicode.lowercaseTerm comment)).map fun token => ⟨.comment, token⟩

/-- The tags and the comment of a record. -/
def FileRecord.metadata (record : FileRecord) : SecondaryMetadataRecord :=
  ⟨record.id, record.tags, record.finderComment.toList⟩

/-- Everything that lists ids: the records, and what is known besides. -/
def metadataSources (records : List FileRecord) (secondary : List SecondaryMetadataRecord) :
    List SecondaryMetadataRecord := records.map FileRecord.metadata ++ secondary

variable {unicode}

theorem indexSecondary_eq (postings : PostingMap MetadataKey FileId)
    (record : SecondaryMetadataRecord) : indexSecondary unicode postings record =
      addEach postings (metadataKeys unicode record) record.id.val := by
  have comments : ∀ (comments : List Text) (postings : PostingMap MetadataKey FileId),
      comments.foldl (fun postings comment =>
        indexComment unicode postings record.id.val comment) postings =
      addEach postings (comments.flatMap fun comment =>
        (unicode.tokenize (unicode.lowercaseTerm comment)).map fun token => ⟨.comment, token⟩)
        record.id.val := by
    intro comments
    induction comments with
    | nil => exact fun _ => rfl
    | cons comment comments ih =>
        intro postings
        rw [foldl_cons, ih, flatMap_cons, addEach, addEach, foldl_append]
        rfl
  rw [indexSecondary, comments, metadataKeys, addEach, addEach, foldl_append]
  rfl

theorem indexRecord_eq (postings : PostingMap MetadataKey FileId) (record : FileRecord) :
    indexRecord unicode postings record = indexSecondary unicode postings record.metadata := by
  rw [indexRecord, indexSecondary, FileRecord.metadata]
  cases record.finderComment <;> rfl

theorem metadataPostings_eq (records : List FileRecord)
    (secondary : List SecondaryMetadataRecord) :
    metadataPostingsFromRecordsAndSecondary unicode records secondary =
      postingsOfMap ((metadataSources records secondary).foldl
        (fun postings record => addEach postings (metadataKeys unicode record) record.id.val)
        ∅) := by
  have step : indexSecondary unicode = fun postings record =>
      addEach postings (metadataKeys unicode record) record.id.val :=
    funext fun postings => funext (indexSecondary_eq postings)
  have each : indexRecord unicode = fun postings record =>
      indexSecondary unicode postings record.metadata :=
    funext fun postings => funext (indexRecord_eq postings)
  rw [metadataPostingsFromRecordsAndSecondary, metadataSources, foldl_append, foldl_map,
    each, step]

end Terms

section Opening

variable (report : Bytes → String) (path : Path)

theorem decodes_readMetadataPostingHeader {key : MetadataKey}
    (short : (writeMetadataKey key).length ≤ isizeMax) :
    Decodes (readMetadataPostingHeader report path) (writeMetadataKey key) key := by
  have term : (LineLog.encodeText key.term).length ≤ isizeMax := by
    rw [writeMetadataKey, length_cons, writeTerm, length_append] at short
    omega
  have field : metadataFieldFromCode path (metadataFieldCode key.field) = .ok key.field := by
    cases key.field <;> rfl
  refine (decodes_readByte (ended path) (metadataFieldCode key.field)).bind ?_
  refine (decodes_lift field).before ?_
  refine (decodes_readNumber path (Nat.lt_of_le_of_lt term (by decide))).bind ?_
  refine (decodes_readBytes path term).andThen ?_
  rw [LineLog.decodeText_encodeText]
  exact Decodes.pure key

theorem lawful_metadataFormat : (metadataFormat report .v3).Lawful id where
  readKey path key short := decodes_readMetadataPostingHeader report path short
  readDirectoryEntry path entry short offset len := by
    have key : (writeMetadataKey entry.key).length ≤ isizeMax := by
      refine Nat.le_trans ?_ short
      exact (sublist_append_left _ _).length_le
    refine (decodes_readMetadataPostingHeader report path key).bind ?_
    refine (decodes_readNumber path offset).bind ?_
    exact (decodes_readNumber path len).andThen (Decodes.pure entry)
  readIds path _ writable := decodes_readBlockedFileIds path writable
  readIdsLimited path ids limit writable := by
    have read := readBlockedFileIdsLimitedReport_written path writable [] limit
    rw [append_nil] at read
    exact congrArg (Except.map BlockedFileIdsLimitedReport.ids) read

variable {postings : List MetadataPosting}

theorem writeMetadataPostings_eq :
    writeMetadataPostings postings = (metadataFormat report .v3).write postings :=
  KeyedFormat.write_congr _ _ rfl rfl rfl rfl rfl

theorem metadataIndexedLen_written :
    metadataIndexedLen path ((metadataFormat report .v3).write postings) =
      .ok ((metadataFormat report .v3).body postings).length := by
  have total : ((metadataFormat report .v3).write postings).length =
      ((metadataFormat report .v3).body postings).length + (4 + metadataChecksumFooter.length) :=
    (metadataFormat report .v3).length_write postings
  have start : ((metadataFormat report .v3).write postings).length -
      (4 + metadataChecksumFooter.length) =
        ((metadataFormat report .v3).body postings).length := Nat.sub_eq_of_eq_add total
  have magic : ((metadataFormat report .v3).write postings).drop
      (((metadataFormat report .v3).body postings).length + 4) = metadataChecksumFooter :=
    drop_footer_start _ _
  simp only [metadataIndexedLen, start, magic, if_true]
  rw [if_neg (by omega)]

theorem length_metadataMagic : metadataMagicV1.length = metadataMagicV3.length := by
  decide +kernel

theorem readMetadataDirectory_written (fits : KeyedFits (metadataFormat report .v3) postings) :
    readMetadataDirectory report path (writeMetadataPostings postings) =
      .ok ((metadataFormat report .v3).directory postings) := by
  have same : writeMetadataPostings postings = (metadataFormat report .v3).write postings :=
    writeMetadataPostings_eq report
  have footerLength : metadataFooterLen = 8 + metadataIndexFooter.length := by
    rw [metadataFooterLen]
  have ownFooter : (metadataFormat report .v3).indexFooter = metadataIndexFooter := rfl
  have ownMagic : (metadataFormat report .v3).magic = metadataMagicV3 := rfl
  have length := (metadataFormat report .v3).length_body postings
  rw [ownFooter, ← footerLength] at length
  have total := (metadataFormat report .v3).length_write postings
  have front := (metadataFormat report .v3).front_lt_footerStart postings
  have headed : metadataMagicV1.length ≤ ((metadataFormat report .v3).front postings).length := by
    rw [KeyedFormat.front, KeyedFormat.head, length_append, length_append, ownMagic,
      length_metadataMagic]
    omega
  have long : ¬((metadataFormat report .v3).write postings).length <
      metadataMagicV1.length + metadataFooterLen := by omega
  have footed : ¬((metadataFormat report .v3).body postings).length < metadataFooterLen := by omega
  have footer : ((metadataFormat report .v3).body postings).length - metadataFooterLen =
      (metadataFormat report .v3).footerStart postings := by omega
  have magic : ((metadataFormat report .v3).body postings).drop
      ((metadataFormat report .v3).footerStart postings + 8) = metadataIndexFooter :=
    (metadataFormat report .v3).magic_body postings
  simp only [readMetadataDirectory, same, if_neg long, metadataIndexedLen_written report path, bind,
    Except.bind, KeyedFormat.take_write, if_neg footed, footer, fits.offset_body, magic, ne_eq,
    not_true_eq_false, if_false, if_neg (Nat.not_le.mpr front), KeyedFormat.directory_body,
    fits.readDirectoryEntries_written path (lawful_metadataFormat report)]

/-- The archive as it opens. -/
def writtenMetadataArchive (postings : List MetadataPosting) : MmapMetadataArchive :=
  ⟨writtenArchive (metadataFormat report .v3) postings path, .v3⟩

theorem openMetadataArchive_written (fits : KeyedFits (metadataFormat report .v3) postings) :
    MmapMetadataArchive.openArchive report path (writeMetadataPostings postings) =
      .ok (writtenMetadataArchive report path postings) := by
  have headed : metadataMagicV3 <+: writeMetadataPostings postings := by
    simp only [writeMetadataPostings, KeyedFormat.write, KeyedFormat.body, archive,
      KeyedFormat.front, KeyedFormat.head, append_assoc]
    exact prefix_append _ _
  have long : ¬(writeMetadataPostings postings).length < metadataMagicV1.length := by
    rw [length_metadataMagic]
    exact Nat.not_lt.mpr headed.length_le
  have magic : (writeMetadataPostings postings).take metadataMagicV1.length = metadataMagicV3 := by
    rw [length_metadataMagic]
    exact (prefix_iff_eq_take.mp headed).symm
  have version : metadataVersion path metadataMagicV3 = .ok .v3 := if_pos rfl
  have checksum : verifyMetadataChecksum path (writeMetadataPostings postings) .v3 = .ok () := by
    have verified : verifyChecksumFooter path "metadata" metadataChecksumFooter
        (writeMetadataPostings postings) = .ok true :=
      verifyChecksumFooter_written metadataChecksumFooter _ path "metadata"
    have checked : MetadataStoreVersion.v3.hasChecksum = true := rfl
    rw [verifyMetadataChecksum, if_pos checked, verified]
  rw [writtenMetadataArchive, writtenArchive, ← writeMetadataPostings_eq]
  simp only [MmapMetadataArchive.openArchive, if_neg long, magic, version, bind, Except.bind,
    checksum, readMetadataDirectory_written report path fits]

end Opening

section Exact

variable (unicode : Unicode) (report : Bytes → String) (path : Path)
  (records : List FileRecord) (secondary : List SecondaryMetadataRecord)

/-- The ids of the records that have a term, in order, each once. -/
def idsNamed (key : MetadataKey) : List FileId :=
  sortDedup (((metadataSources records secondary).filter fun record =>
    key ∈ metadataKeys unicode record).map fun record => record.id.val)

/-- The ids of the records with a term that has the normal form of the text, the lower case of the
whole text, as the records' terms do. -/
def idsOfTerm (field : MetadataField) (term : Text) : List FileId :=
  idsNamed unicode records secondary ⟨field, unicode.lowercaseTerm term⟩

/-- The ids that a batch has for a key. -/
def idsIn (found : List MetadataPosting) (key : MetadataKey) : List FileId :=
  ((itemOf KeyedPosting.key found key).map KeyedPosting.ids).getD []

/-- What the lookups of terms are to give. -/
structure MetadataLookups (archive : MmapMetadataArchive) (search : Search MetadataKey)
    (field : MetadataField) : Prop where
  whole : ∀ term, archive.idsFor unicode report search field term =
    .ok (idsOfTerm unicode records secondary field term)
  limited : ∀ term, ∀ limit < 2 ^ 64, archive.idsForLimit unicode report search field term limit =
    .ok ((idsOfTerm unicode records secondary field term).take limit,
      0 < limit ∧ limit < (idsOfTerm unicode records secondary field term).length)
  sortedBatch : ∀ terms, Ascending id (terms.map unicode.normalize) → ∀ limit < 2 ^ 64,
    ∃ found, archive.postingsForSortedTermsLimit unicode report field terms limit = .ok found ∧
      ∀ term ∈ terms, idsIn (found.map LimitedKeyedPosting.posting)
        ⟨field, unicode.normalize term⟩ =
          (idsOfTerm unicode records secondary field term).take limit
  batch : ∀ terms, ∃ found, archive.postingsFor unicode report search field terms = .ok found ∧
    ∀ term ∈ terms, idsIn found ⟨field, unicode.normalize term⟩ =
      idsOfTerm unicode records secondary field term
  limitedBatch : ∀ terms, ∀ limit < 2 ^ 64,
    ∃ found, archive.postingsForLimit unicode report field terms limit = .ok found ∧
      ∀ term ∈ terms, idsIn found ⟨field, unicode.normalize term⟩ =
        (idsOfTerm unicode records secondary field term).take limit

/-- The archive of the records opens, and its lookups give the ids of the terms. -/
def MetadataSidecarExact : Prop :=
  ∃ archive, MmapMetadataArchive.openArchive report path (writeMetadataPostings
      (metadataPostingsFromRecordsAndSecondary unicode records secondary)) = .ok archive ∧
    ∀ search field, MetadataLookups unicode report records secondary archive search field

/-- Both lower cases of every text are terms of the same records. -/
def LowerCasesAgree : Prop :=
  ∀ field term, idsNamed unicode records secondary ⟨field, unicode.normalize term⟩ =
    idsNamed unicode records secondary ⟨field, unicode.lowercaseTerm term⟩

/-- Records that a program can hold, and an archive of them that it can hold too. -/
structure MetadataRecordsFit : Prop where
  count : records.length + secondary.length ≤ isizeMax
  written : (writeMetadataPostings
    (metadataPostingsFromRecordsAndSecondary unicode records secondary)).length ≤ isizeMax

variable {unicode records secondary}

theorem lists_metadata {key : MetadataKey} {id : FileId} :
    Postings.Lists ((metadataSources records secondary).foldl
        (fun postings record => addEach postings (metadataKeys unicode record) record.id.val) ∅)
      key id ↔ ∃ record ∈ metadataSources records secondary,
        key ∈ metadataKeys unicode record ∧ record.id.val = id := by
  have lists := @lists_foldl_addEach _ _ _ _ (∅ : PostingMap MetadataKey FileId) key _
    (metadataKeys unicode) (fun record => record.id.val) (metadataSources records secondary) id
  rw [lists, or_iff_left not_lists_empty]

theorem storedIds_metadata (key : MetadataKey) :
    storedIds (metadataPostingsFromRecordsAndSecondary unicode records secondary) key =
      idsNamed unicode records secondary key := by
  rw [metadataPostings_eq]
  refine storedIds_postingsOfMap fun id => ?_
  rw [lists_metadata]
  simp only [mem_map, mem_filter, decide_eq_true_eq, and_assoc]

/-- No record has an empty term. -/
theorem idsNamed_nil (field : MetadataField) :
    idsNamed unicode records secondary ⟨field, []⟩ = [] := by
  have never : ∀ record, (⟨field, []⟩ : MetadataKey) ∉ metadataKeys unicode record := by
    intro record listed
    simp [metadataKeys, Unicode.tokenize] at listed
  rw [idsNamed, filter_eq_nil_iff.mpr fun record _ => by simp [never record]]
  rfl

theorem MetadataRecordsFit.keyed (fit : MetadataRecordsFit unicode records secondary) :
    KeyedFits (metadataFormat report .v3)
      (metadataPostingsFromRecordsAndSecondary unicode records secondary) := by
  have bound : isizeMax < 2 ^ 64 := by decide
  have written := fit.written
  rw [writeMetadataPostings_eq report] at written
  rw [metadataPostings_eq] at written ⊢
  refine keyedFits_postingsOfMap
    ((metadataSources records secondary).map fun record => record.id.val) ?_ ?_ ?_ written
  · intro key id listed
    rcases lists_metadata.mp listed with ⟨record, present, -, same⟩
    exact mem_map.mpr ⟨record, present, same⟩
  · intro id listed
    rcases mem_map.mp listed with ⟨record, -, rfl⟩
    exact record.id.property
  · rw [length_map, metadataSources, length_append, length_map]
    exact Nat.lt_of_le_of_lt fit.count bound

theorem termKey_eq_some {field : MetadataField} {term : Text} {key : MetadataKey} :
    termKey unicode field term = some key ↔
      unicode.normalize term ≠ [] ∧ ⟨field, unicode.normalize term⟩ = key := by
  simp [termKey]

/-- What a batch has for a key, if it has the keys with these ids. -/
theorem idsIn_map (ids : MetadataKey → List FileId) (keys : List MetadataKey) (key : MetadataKey) :
    idsIn (keys.map fun key => ⟨key, ids key⟩) key = if key ∈ keys then ids key else [] := by
  induction keys with
  | nil => rfl
  | cons first keys ih =>
      rw [idsIn, itemOf] at ih ⊢
      by_cases same : first = key
      · simp [same]
      · rw [map_cons, find?_cons_of_neg (by simpa using same), ih]
        simp [Ne.symm same]

theorem ascending_termKeys {field : MetadataField} {terms : List Text}
    (ordered : Ascending id (terms.map unicode.normalize)) :
    Ascending id (terms.filterMap (termKey unicode field)) := by
  have keys : terms.filterMap (termKey unicode field) =
      ((terms.map unicode.normalize).filter fun term => term ≠ []).map fun term =>
        ⟨field, term⟩ := by
    rw [← filterMap_eq_map', filterMap_filter, filterMap_map]
    refine filterMap_congr fun term _ => ?_
    simp [termKey]
  rw [keys]
  refine pairwise_map.mpr ((ordered.sublist filter_sublist).imp ?_)
  intro left right lower
  have same : compare (⟨field, left⟩ : MetadataKey) ⟨field, right⟩ = compare left right := by
    change (compare field.rank field.rank).then (compare left right) = _
    rw [Std.compare_self]
    rfl
  exact same.symm ▸ lower

/-- What a batch of asked keys has for one of the terms. -/
theorem idsIn_keysAsked {field : MetadataField} {terms : List Text} {term : Text}
    (listed : term ∈ terms) (part : List FileId → List FileId) (nothing : part [] = []) :
    idsIn ((keysAsked (termKey unicode field)
      (idsNamed unicode records secondary) terms).map fun key =>
        ⟨key, part (idsNamed unicode records secondary key)⟩) ⟨field, unicode.normalize term⟩ =
      part (idsNamed unicode records secondary ⟨field, unicode.normalize term⟩) := by
  rw [idsIn_map]
  split
  case isTrue => rfl
  case isFalse absent =>
    have none : idsNamed unicode records secondary ⟨field, unicode.normalize term⟩ = [] := by
      by_contra some
      by_cases blank : unicode.normalize term = []
      · rw [blank, idsNamed_nil] at some
        exact some rfl
      · refine absent (mem_filter.mpr ⟨mem_sortDedup.mpr (mem_filterMap.mpr
          ⟨term, listed, termKey_eq_some.mpr ⟨blank, rfl⟩⟩), decide_eq_true some⟩)
    rw [none, nothing]

section Written

variable (fit : MetadataRecordsFit unicode records secondary) (search : Search MetadataKey)
  (field : MetadataField)
include fit

/-- A lookup gives what is listed under the lower case of the characters. -/
theorem idsFor_metadata (term : Text) :
    (writtenMetadataArchive report path
      (metadataPostingsFromRecordsAndSecondary unicode records secondary)).idsFor unicode report
        search field term = .ok (idsNamed unicode records secondary
          ⟨field, unicode.normalize term⟩) := by
  rw [MmapMetadataArchive.idsFor]
  cases asked : termKey unicode field term with
  | none =>
      have blank : unicode.normalize term = [] := by
        simpa [termKey] using asked
      rw [blank, idsNamed_nil]
      rfl
  | some key =>
      rw [(termKey_eq_some.mp asked).2, ← storedIds_metadata]
      exact (fit.keyed report).idsFor_written path search (lawful_metadataFormat report) rfl

variable (idempotent : ∀ text, unicode.normalize (unicode.normalize text) = unicode.normalize text)
include idempotent

theorem metadataAnswers : (metadataFormat report .v3).Answers
    (writtenArchive (metadataFormat report .v3)
      (metadataPostingsFromRecordsAndSecondary unicode records secondary) path) search
    (termKey unicode field)
    (fun key => termKey unicode field key.term)
    (idsNamed unicode records secondary) := by
  have filled : ∀ posting ∈ metadataPostingsFromRecordsAndSecondary unicode records secondary,
      posting.ids ≠ [] := by
    rw [metadataPostings_eq]
    exact ids_ne_nil_of_filled (filled_empty.foldl_addEach _)
  refine (fit.keyed report).answers path (lawful_metadataFormat report) filled ?_
    fun _ key _ => storedIds_metadata key
  intro term key asked
  rcases termKey_eq_some.mp asked with ⟨filled, rfl⟩
  exact ⟨rfl, termKey_eq_some.mpr ⟨by rwa [idempotent], by rw [idempotent]⟩⟩

theorem metadataLookups_of_agree (agree : LowerCasesAgree unicode records secondary) :
    MetadataLookups unicode report records secondary (writtenMetadataArchive report path
      (metadataPostingsFromRecordsAndSecondary unicode records secondary)) search field := by
  have answers := metadataAnswers report path fit search field idempotent
  have same : ∀ term, idsOfTerm unicode records secondary field term =
      idsNamed unicode records secondary ⟨field, unicode.normalize term⟩ :=
    fun term => (agree field term).symm
  constructor
  · intro term
    rw [same]
    exact idsFor_metadata report path fit search field term
  · intro term limit small
    rw [same]
    cases asked : termKey unicode field term with
    | none =>
        have blank : unicode.normalize term = [] := by
          simpa [termKey] using asked
        rw [blank, idsNamed_nil, MmapMetadataArchive.idsForLimit, asked, take_nil]
        simp [KeyedFormat.idsForLimit]
    | some key =>
        rw [(termKey_eq_some.mp asked).2]
        exact answers.limited term key asked limit small
  · intro terms ordered limit small
    refine ⟨_, answers.sortedBatch terms (ascending_termKeys ordered) limit small, ?_⟩
    intro term listed
    rw [same]
    split
    case isTrue zero =>
      rw [zero, take_zero]
      rfl
    case isFalse =>
      rw [map_map]
      exact idsIn_keysAsked listed (List.take limit) take_nil
  · intro terms
    refine ⟨_, answers.batch terms, ?_⟩
    intro term listed
    rw [same]
    exact idsIn_keysAsked listed id rfl
  · intro terms limit small
    refine ⟨_, answers.limitedBatch terms limit small, ?_⟩
    intro term listed
    rw [same]
    split
    case isTrue zero =>
      rw [zero, take_zero]
      rfl
    case isFalse => exact idsIn_keysAsked listed (List.take limit) take_nil

/-- The archive is exact where both lower cases of every text are terms of the same records. -/
theorem metadataSidecarExact_iff : MetadataSidecarExact unicode report path records secondary ↔
    LowerCasesAgree unicode records secondary := by
  have opened := openMetadataArchive_written report path (fit.keyed report)
  constructor
  · rintro ⟨archive, same, exact⟩ field term
    cases opened.symm.trans same
    have found := (exact .leftmost field).whole term
    rw [idsFor_metadata report path fit .leftmost field term, Except.ok.injEq] at found
    exact found
  · intro agree
    exact ⟨_, opened, fun search field =>
      metadataLookups_of_agree report path fit search field idempotent agree⟩

end Written

end Exact

section Examples

/-- A record with a tag and a comment. -/
def taggedRecord (tag : Text) : FileRecord where
  id := fileId 1 7
  parent := none
  path := "/a".toList
  name := "a".toList
  kind := .file
  len := 0
  mode := 420
  owner := 501
  group := 20
  xattrsDigest := 0
  created := none
  modified := none
  changed := none
  hidden := false
  tags := [tag]
  finderComment := some "To do".toList

theorem metadataSidecarExact_red :
    MetadataSidecarExact Unicode.ascii (fun _ => "") [] [taggedRecord " Red".toList] [] := by
  have lower : ∀ text, Unicode.ascii.normalize text = Unicode.ascii.lowercaseTerm text :=
    fun text => map_eq_flatMap.symm
  refine (metadataSidecarExact_iff (fun _ => "") [] ⟨by decide, by decide +kernel⟩
    (fun text => ?_)).mpr fun field term => by rw [lower]
  rw [lower, lower, Unicode.lowercaseTerm_idem]

/-- The record is not found by its own tag. -/
theorem finalSigmaTag_missed :
    ¬MetadataSidecarExact Unicode.sigma (fun _ => "") [] [taggedRecord "aΣ".toList] [] := by
  have fit : MetadataRecordsFit Unicode.sigma [taggedRecord "aΣ".toList] [] :=
    ⟨by decide, by decide +kernel⟩
  rintro ⟨archive, same, exact⟩
  cases (openMetadataArchive_written (fun _ => "") [] (fit.keyed fun _ => "")).symm.trans same
  have found := (exact .leftmost .tag).whole "aΣ".toList
  rw [idsFor_metadata (fun _ => "") [] fit .leftmost .tag "aΣ".toList, Except.ok.injEq] at found
  exact absurd found (by decide +kernel)

end Examples

end Gfm.Store

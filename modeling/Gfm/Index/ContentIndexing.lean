import Gfm.Search.Shards
import Gfm.Store.ContentQuery

/-!
# Content indexing

A full run extracts the text of every record and compacts the batches into one archive. An
incremental run compares two snapshots by the signatures of their records, extracts the records
that are new or changed, and compacts its segments onto the archive of the previous snapshot.
-/

namespace Gfm.Index

open List Search Sorted Std Store TombstoneLog

structure ContentRecordSignature where
  kind : FileKind
  len : Nat
  modifiedNs : Option Nat
  changedNs : Option Nat
  extractorVersion : Nat
  deriving DecidableEq

/-- The versions of the extractors that the previous run used. -/
abbrev ContentExtractorVersionState := ExtTreeMap FileId Nat

structure ContentIndexDelta where
  records : List FileRecord
  tombstones : List FileId
  unchanged : Nat

/-- The nanoseconds since the epoch, for a time that is not before it. -/
def systemTimeNs (value : Option Int) : Option Nat :=
  value.bind fun time => if 0 ≤ time then some time.toNat else none

/-- What the content crate knows about a path: the version of the extractor for it, and whether it
is that of an image of the screen. -/
structure PathKinds where
  extractorVersionForPath : Text → Nat
  pathIsScreenshotImage : Text → Bool

/-- What an extraction gives: the text of a document, a candidate for recognition, or neither. -/
inductive Extraction where
  | document (text : Text)
  | ocrCandidate
  | nothing
  deriving DecidableEq

section Delta

variable (paths : PathKinds)

def contentRecordSignature (record : FileRecord) : ContentRecordSignature where
  kind := record.kind
  len := record.len
  modifiedNs := systemTimeNs record.modified
  changedNs := systemTimeNs record.changed
  extractorVersion := paths.extractorVersionForPath record.path

def previousContentRecordSignature (versions : Option ContentExtractorVersionState)
    (record : FileRecord) : ContentRecordSignature :=
  match versions.bind fun state => state[record.id]? with
  | some version => { contentRecordSignature paths record with extractorVersion := version }
  | none => contentRecordSignature paths record

/-- The record with the id; of several the last. -/
def recordById (records : List FileRecord) (id : FileId) : Option FileRecord :=
  records.reverse.find? fun record => record.id = id

variable (current previous : List FileRecord) (versions : Option ContentExtractorVersionState)

def isUnchanged (record : FileRecord) : Bool :=
  match recordById previous record.id with
  | some previousRecord =>
      contentRecordSignature paths record =
        previousContentRecordSignature paths versions previousRecord
  | none => false

/-- The id of a changed record whose previous content is void. -/
def changedTombstone (record : FileRecord) : Option FileId :=
  match recordById previous record.id with
  | some previousRecord =>
      if isUnchanged paths previous versions record then none
      else if previousRecord.kind = .file then some record.id
      else none
  | none => none

def contentIndexDelta : ContentIndexDelta where
  records := current.filter fun record => !isUnchanged paths previous versions record
  tombstones := sortDedup
    (current.filterMap (changedTombstone paths previous versions) ++
      (previous.filter fun record =>
        record.kind = .file ∧ record.id ∉ current.map FileRecord.id).map FileRecord.id)
  unchanged := current.countP (isUnchanged paths previous versions)

end Delta

structure ContentIndexBatchReport where
  indexed : Nat
  skipped : Nat
  ocrCandidates : Nat

section Batches

variable (unicode : Unicode) (paths : PathKinds) (extract : FileRecord → Extraction)

def liveIndexFromRecords (records : List FileRecord) : ShardedSearchIndex :=
  records.foldl (ShardedSearchIndex.insert unicode) .new

def applyOcrCandidate (report : ContentIndexBatchReport) : ContentIndexBatchReport :=
  { report with skipped := report.skipped + 1, ocrCandidates := report.ocrCandidates + 1 }

def indexContentRecord (state : ContentIndexBatchReport × ShardedSearchIndex)
    (record : FileRecord) : ContentIndexBatchReport × ShardedSearchIndex :=
  let (report, index) := state
  if record.kind ≠ .file then ({ report with skipped := report.skipped + 1 }, index)
  else if paths.pathIsScreenshotImage record.path then (applyOcrCandidate report, index)
  else
    match extract record with
    | .ocrCandidate => (applyOcrCandidate report, index)
    | .document text =>
        ({ report with indexed := report.indexed + 1 }, index.insertContent unicode record.id text)
    | .nothing => ({ report with skipped := report.skipped + 1 }, index)

def indexContentBatch (index : ShardedSearchIndex) :
    ContentIndexBatchReport × ShardedSearchIndex :=
  index.records.foldl (indexContentRecord unicode paths extract) (⟨0, 0, 0⟩, index)

def batchPostings (records : List FileRecord) : List ContentPosting :=
  (indexContentBatch unicode paths extract (liveIndexFromRecords unicode records)).2.contentPostings

/-- Pieces of `size` items, the last one maybe shorter. -/
def chunksFrom {Item : Type} (size : Nat) (piece : List Item) : List Item → List (List Item)
  | [] => if piece.isEmpty then [] else [piece]
  | item :: items =>
      if size ≤ piece.length + 1 then (piece ++ [item]) :: chunksFrom size [] items
      else chunksFrom size (piece ++ [item]) items

def chunks {Item : Type} (size : Nat) (items : List Item) : List (List Item) :=
  chunksFrom size [] items

def runToSegments (batchSize : Nat) (records : List FileRecord) : List ContentSegment :=
  (chunks (max batchSize 1) records).map fun records =>
    ⟨[], batchPostings unicode paths extract records⟩

def runIncrementalToSegments (batchSize : Nat) (current previous : List FileRecord)
    (versions : Option ContentExtractorVersionState) : List ContentSegment :=
  let delta := contentIndexDelta paths current previous versions
  if delta.records = [] ∧ delta.tombstones ≠ [] then [⟨delta.tombstones, []⟩]
  else
    (chunks (max batchSize 1) delta.records).zipIdx.map fun (records, batchIndex) =>
      ⟨if batchIndex = 0 then delta.tombstones else [], batchPostings unicode paths extract records⟩

/-- Segments as files; their paths and lengths play no part in a compaction of them all. -/
def segmentFiles (segments : List ContentSegment) : List StoredSegment :=
  segments.map fun segment => ⟨[], 0, segment⟩

def runAndCompact (batchSize : Nat) (records : List FileRecord) : List ContentPosting :=
  compactContentSegments unicode
    (segmentFiles (runToSegments unicode paths extract batchSize records))

def runIncrementalAndCompact (batchSize : Nat) (current previous : List FileRecord)
    (versions : Option ContentExtractorVersionState) (base : List ContentPosting) :
    List ContentPosting :=
  compactContentPostingsWithSegments unicode base
    (segmentFiles
      (runIncrementalToSegments unicode paths extract batchSize current previous versions))

end Batches

section Chunks

variable {Item : Type} {size : Nat} {piece items : List Item}

theorem flatten_chunksFrom : (chunksFrom size piece items).flatten = piece ++ items := by
  induction items generalizing piece with
  | nil => cases piece <;> simp [chunksFrom]
  | cons item items ih =>
      rw [chunksFrom]
      split
      · simp [ih]
      · simp [ih]

theorem flatten_chunks : (chunks size items).flatten = items := flatten_chunksFrom

end Chunks

section Texts

variable {unicode : Unicode} {paths : PathKinds} {extract : FileRecord → Extraction}

/-- The text that a run lists for a record. -/
def textOf (paths : PathKinds) (extract : FileRecord → Extraction) (record : FileRecord) :
    Option Text :=
  if record.kind ≠ .file then none
  else if paths.pathIsScreenshotImage record.path then none
  else
    match extract record with
    | .document text => some text
    | _ => none

theorem kind_of_textOf {record : FileRecord} {text : Text}
    (found : textOf paths extract record = some text) : record.kind = .file := by
  by_contra other
  rw [textOf, if_pos other] at found
  cases found

theorem indexContentRecord_index (state : ContentIndexBatchReport × ShardedSearchIndex)
    (record : FileRecord) :
    (indexContentRecord unicode paths extract state record).2 =
      match textOf paths extract record with
      | some text => state.2.insertContent unicode record.id text
      | none => state.2 := by
  rcases state with ⟨report, index⟩
  unfold indexContentRecord textOf
  dsimp only
  by_cases other : record.kind ≠ .file
  · rw [if_pos other, if_pos other]
  · rw [if_neg other, if_neg other]
    by_cases image : paths.pathIsScreenshotImage record.path = true
    · rw [if_pos image, if_pos image]
    · rw [if_neg image, if_neg image]
      cases extract record <;> rfl

/-- The index in the course of a batch: the records that are done have their content. -/
structure Indexing (unicode : Unicode) (paths : PathKinds) (extract : FileRecord → Extraction)
    (all done : List FileRecord) (index : ShardedSearchIndex) : Prop where
  present : ∀ record ∈ all, ∃ shard : SearchIndex, index.shards[record.id.volume]? = some shard ∧
    record.id ∈ shard.records
  fresh : ∀ record ∈ all, (∀ other ∈ done, other.id ≠ record.id) →
    ∀ shard : SearchIndex, index.shards[record.id.volume]? = some shard →
      shard.contentRecordTerms[record.id]? = none
  finds : ∀ token id position, index.Finds token id position ↔
    ∃ record ∈ done, record.id = id ∧ ∃ text, textOf paths extract record = some text ∧
      TextFinds unicode text token position
  filled : ∀ (volume : VolumeId) (shard : SearchIndex), index.shards[volume]? = some shard →
    ContentFilled shard.contentTerms

variable {all done : List FileRecord} {index : ShardedSearchIndex}

theorem indexing_fromRecords {records : List FileRecord} (holds : index.HoldsRecords records) :
    Indexing unicode paths extract records [] index := by
  refine ⟨?_, ?_, ?_, ?_⟩
  · intro record member
    rcases holds.present record member with ⟨shard, found, known⟩
    exact ⟨shard, found, ExtTreeMap.mem_iff_isSome_getElem?.mpr (by simp [known])⟩
  · intro record member _ shard found
    rw [(holds.shards _ shard found).terms.2]
    exact ExtTreeMap.getElem?_empty
  · intro token id position
    refine iff_of_false ?_ (by simp)
    rintro ⟨volume, shard, found, ids, positions, known, -⟩
    rw [(holds.shards volume shard found).terms.1] at known
    simp at known
  · intro volume shard found token ids known
    rw [(holds.shards volume shard found).terms.1] at known
    simp at known

theorem Indexing.step (indexing : Indexing unicode paths extract all done index)
    {record : FileRecord} (member : record ∈ all) (new : ∀ other ∈ done, other.id ≠ record.id)
    (report : ContentIndexBatchReport) :
    Indexing unicode paths extract all (done ++ [record])
      (indexContentRecord unicode paths extract (report, index) record).2 := by
  rw [indexContentRecord_index]
  have added : ∀ token id position,
      (∃ other ∈ done ++ [record], other.id = id ∧ ∃ text,
        textOf paths extract other = some text ∧ TextFinds unicode text token position) ↔
      (∃ other ∈ done, other.id = id ∧ ∃ text,
        textOf paths extract other = some text ∧ TextFinds unicode text token position) ∨
      (id = record.id ∧ ∃ text, textOf paths extract record = some text ∧
        TextFinds unicode text token position) := by
    intro token id position
    simp only [mem_append, mem_singleton, or_and_right, exists_or, exists_eq_left,
      eq_comm (a := id)]
  cases textual : textOf paths extract record with
  | none =>
      refine ⟨indexing.present, ?_, ?_, indexing.filled⟩
      · intro other otherMem unseen
        exact indexing.fresh other otherMem fun earlier listed =>
          unseen earlier (mem_append_left _ listed)
      · intro token id position
        rw [added, indexing.finds, textual]
        simp
  | some text =>
      dsimp only
      rcases indexing.present record member with ⟨shard, found, live⟩
      have empty : ∀ token position, ¬index.Finds token record.id position := by
        intro token position finds
        rcases (indexing.finds token record.id position).mp finds with ⟨other, listed, same, -⟩
        exact new other listed same
      have fresh := indexing.fresh record member new shard found
      have after : ∀ (volume : VolumeId) (later : SearchIndex),
          (index.insertContent unicode record.id text).shards[volume]? = some later →
          (volume = record.id.volume ∧ later = shard.insertContent unicode record.id text) ∨
            (volume ≠ record.id.volume ∧ index.shards[volume]? = some later) := by
        intro volume later place
        rw [ShardedSearchIndex.insertContent, found] at place
        dsimp only at place
        rw [ExtTreeMap.getElem?_insert] at place
        split at place
        case isTrue same =>
          exact Or.inl ⟨(Std.compare_eq_iff_eq.mp same).symm, (Option.some.inj place).symm⟩
        case isFalse different =>
          refine Or.inr ⟨fun same => different ?_, place⟩
          rw [same, Std.compare_self]
      rcases @insertContent_frame unicode shard record.id text with ⟨sameRecords, sameTerms⟩
      refine ⟨?_, ?_, ?_, ?_⟩
      · intro other otherMem
        rcases indexing.present other otherMem with ⟨otherShard, otherFound, otherLive⟩
        rw [ShardedSearchIndex.insertContent, found]
        dsimp only
        rw [ExtTreeMap.getElem?_insert]
        by_cases same : record.id.volume = other.id.volume
        · rw [if_pos (Std.compare_eq_iff_eq.mpr same)]
          rw [← same, found, Option.some.injEq] at otherFound
          refine ⟨_, rfl, ?_⟩
          rw [sameRecords, otherFound]
          exact otherLive
        · rw [if_neg fun equal => same (Std.compare_eq_iff_eq.mp equal)]
          exact ⟨otherShard, otherFound, otherLive⟩
      · intro other otherMem unseen later place
        have apart : other.id ≠ record.id := fun same =>
          unseen record (by simp) same.symm
        have unseenBefore : ∀ earlier ∈ done, earlier.id ≠ other.id := fun earlier listed =>
          unseen earlier (mem_append_left _ listed)
        rcases after _ later place with ⟨same, rfl⟩ | ⟨-, place⟩
        · rw [sameTerms other.id apart]
          exact indexing.fresh other otherMem unseenBefore shard (same ▸ found)
        · exact indexing.fresh other otherMem unseenBefore later place
      · intro token id position
        rw [added, ShardedSearchIndex.finds_insertContent found live fresh empty, indexing.finds,
          textual]
        simp only [Option.some.injEq, exists_eq_left']
      · intro volume later place
        rcases after volume later place with ⟨-, rfl⟩ | ⟨-, place⟩
        · exact contentFilled_insertContent (indexing.filled _ shard found) fresh
        · exact indexing.filled volume later place

theorem Indexing.foldl {rest : List FileRecord}
    (indexing : Indexing unicode paths extract all done index)
    (within : ∀ record ∈ rest, record ∈ all)
    (apart : rest.Pairwise fun left right => left.id ≠ right.id)
    (new : ∀ record ∈ rest, ∀ other ∈ done, other.id ≠ record.id)
    (report : ContentIndexBatchReport) :
    Indexing unicode paths extract all (done ++ rest)
      (rest.foldl (indexContentRecord unicode paths extract) (report, index)).2 := by
  induction rest generalizing done index report with
  | nil => simpa using indexing
  | cons record rest ih =>
      rcases pairwise_cons.mp apart with ⟨first, apart⟩
      rw [append_cons, foldl_cons]
      refine ih (indexing.step (within record mem_cons_self) (new record mem_cons_self)
        report) (fun other later => within other (mem_cons_of_mem _ later)) apart ?_ _
      intro other later earlier before
      rcases mem_append.mp before with before | own
      · exact new other (mem_cons_of_mem _ later) earlier before
      · rw [mem_singleton.mp own]
        exact first other later

/-- The occurrences that a run has for a record. -/
def recordOccurrences (unicode : Unicode) (paths : PathKinds) (extract : FileRecord → Extraction)
    (record : FileRecord) : Set Occurrence :=
  {occurrence | record.id = occurrence.id ∧ occurrence.term ≠ [] ∧
    ∃ text token, textOf paths extract record = some text ∧
      unicode.lowercaseTerm token = occurrence.term ∧
      TextFinds unicode text token occurrence.position}

/-- The index at the end of a batch of records with ids and paths of their own. -/
theorem indexing_batch {records : List FileRecord} (ids : (records.map FileRecord.id).Nodup)
    (distinctPaths : (records.map FileRecord.path).Nodup) :
    ∃ done, (∀ record, record ∈ done ↔ record ∈ records) ∧
      Indexing unicode paths extract records done (indexContentBatch unicode paths extract
        (liveIndexFromRecords unicode records)).2 := by
  have holds : ShardedSearchIndex.HoldsRecords (liveIndexFromRecords unicode records) records :=
    ShardedSearchIndex.holdsRecords_new.foldl_insert ids distinctPaths
  have start : Indexing unicode paths extract records [] (liveIndexFromRecords unicode records) :=
    indexing_fromRecords holds
  have indexing := start.foldl (fun record member => holds.mem_records.mp member)
    holds.pairwise_records (by simp) ⟨0, 0, 0⟩
  exact ⟨_, fun record => holds.mem_records, indexing⟩

/-- A batch of records with ids and paths of their own posts what each of them has. -/
theorem posted_batchPostings {records : List FileRecord}
    (ids : (records.map FileRecord.id).Nodup) (distinctPaths : (records.map FileRecord.path).Nodup)
    {occurrence : Occurrence} :
    (∃ posting ∈ batchPostings unicode paths extract records, occurrence ∈ posted unicode posting) ↔
      ∃ record ∈ records, occurrence ∈ recordOccurrences unicode paths extract record := by
  rcases @indexing_batch unicode paths extract records ids distinctPaths with
    ⟨done, all, indexing⟩
  have finds := indexing.finds
  simp only [all] at finds
  simp only [batchPostings, posted, Set.mem_ofPred_eq, recordOccurrences]
  constructor
  · rintro ⟨posting, member, same, nonempty, posts⟩
    have found := ShardedSearchIndex.exists_contentPostings.mp ⟨posting, member, rfl, posts⟩
    rcases (finds _ _ _).mp found with ⟨record, listed, sameId, text, textual, has⟩
    exact ⟨record, listed, sameId, nonempty, text, posting.term, textual, same, has⟩
  · rintro ⟨record, listed, sameId, nonempty, text, token, textual, same, has⟩
    rcases ShardedSearchIndex.exists_contentPostings.mpr
      ((finds token _ _).mpr ⟨record, listed, sameId, text, textual, has⟩) with
        ⟨posting, member, rfl, posts⟩
    exact ⟨posting, member, same, nonempty, posts⟩

theorem ids_of_batchPostings {records : List FileRecord}
    (ids : (records.map FileRecord.id).Nodup) (distinctPaths : (records.map FileRecord.path).Nodup)
    {posting : ContentPosting} (member : posting ∈ batchPostings unicode paths extract records) :
    posting.ids ≠ [] := by
  rcases @indexing_batch unicode paths extract records ids distinctPaths with ⟨done, -, indexing⟩
  rw [batchPostings, ShardedSearchIndex.contentPostings, mem_flatMap] at member
  rcases member with ⟨⟨volume, shard⟩, listed, posts⟩
  exact ids_of_contentPostings
    (indexing.filled volume shard (ExtTreeMap.mem_toList_iff_getElem?_eq_some.mp listed)) posts

end Texts

section Runs

variable {unicode : Unicode} {paths : PathKinds} {extract : FileRecord → Extraction}
  {batchSize : Nat} {records : List FileRecord}

/-- Records with ids and paths of their own. -/
structure Distinct (records : List FileRecord) : Prop where
  ids : (records.map FileRecord.id).Nodup
  paths : (records.map FileRecord.path).Nodup

theorem Distinct.sublist (distinct : Distinct records) {some : List FileRecord}
    (sublist : some.Sublist records) : Distinct some :=
  ⟨(sublist.map _).nodup distinct.ids, (sublist.map _).nodup distinct.paths⟩

theorem Distinct.eq_of_id (distinct : Distinct records) {left right : FileRecord}
    (leftMem : left ∈ records) (rightMem : right ∈ records) (same : left.id = right.id) :
    left = right := inj_on_of_nodup_map distinct.ids leftMem rightMem same

/-- What a run has for some records. -/
def runOccurrences (unicode : Unicode) (paths : PathKinds) (extract : FileRecord → Extraction)
    (records : List FileRecord) : Set Occurrence :=
  {occurrence | ∃ record ∈ records, occurrence ∈ recordOccurrences unicode paths extract record}

/-- The pieces of a list of records post what the list has. -/
theorem posted_chunks (distinct : Distinct records) {size : Nat} {occurrence : Occurrence} :
    (∃ piece ∈ chunks size records, ∃ posting ∈ batchPostings unicode paths extract piece,
      occurrence ∈ posted unicode posting) ↔
      occurrence ∈ runOccurrences unicode paths extract records := by
  have pieces : ∀ piece ∈ chunks size records,
      ((∃ posting ∈ batchPostings unicode paths extract piece,
        occurrence ∈ posted unicode posting) ↔
          ∃ record ∈ piece, occurrence ∈ recordOccurrences unicode paths extract record) := by
    intro piece member
    have sublist := sublist_flatten_of_mem member
    rw [flatten_chunks] at sublist
    have own := distinct.sublist sublist
    exact posted_batchPostings own.ids own.paths
  have all : ∀ record, record ∈ records ↔ ∃ piece ∈ chunks size records, record ∈ piece := by
    intro record
    rw [← mem_flatten, flatten_chunks]
  simp only [runOccurrences, Set.mem_ofPred_eq, all]
  constructor
  · rintro ⟨piece, member, posts⟩
    rcases (pieces piece member).mp posts with ⟨record, listed, has⟩
    exact ⟨record, ⟨piece, member, listed⟩, has⟩
  · rintro ⟨record, ⟨piece, member, listed⟩, has⟩
    exact ⟨piece, member, (pieces piece member).mpr ⟨record, listed, has⟩⟩

/-- The segments of a run, as log entries. -/
def entriesOf (unicode : Unicode) (segments : List ContentSegment) :
    List (Entry FileId Occurrence) := segments.map (entryOf unicode)

theorem occurrences_segmentFiles (base : List ContentPosting) (segments : List ContentSegment) :
    occurrences (mergedTerms unicode base (segmentFiles segments)) =
      replay Occurrence.id (occurrences (contentTermsFromPostings unicode base))
        (entriesOf unicode segments) := by
  rw [occurrences_mergedTerms, segmentFiles, map_map]
  rfl

/-- A full run over a snapshot lists what its records have. -/
theorem occurrences_runToSegments (distinct : Distinct records) :
    occurrences (mergedTerms unicode []
        (segmentFiles (runToSegments unicode paths extract batchSize records))) =
      runOccurrences unicode paths extract records := by
  ext occurrence
  rw [occurrences_segmentFiles, contentTermsFromPostings, foldl_nil, occurrences_empty,
    mem_replay_of_clean]
  · rw [← @posted_chunks unicode paths extract records distinct (max batchSize 1)]
    simp [entriesOf, runToSegments, entryOf]
  · intro entry member
    simp only [entriesOf, runToSegments, map_map, mem_map] at member
    rcases member with ⟨piece, -, rfl⟩
    simp [entryOf]

/-- Every batch but the first comes without tombstones. -/
theorem map_zipIdx_later {tombstones : List FileId} (pieces : List (List FileRecord))
    (start : Nat) :
    ((pieces.zipIdx (start + 1)).map fun (records, batchIndex) =>
        (⟨if batchIndex = 0 then tombstones else [],
          batchPostings unicode paths extract records⟩ : ContentSegment)) =
      pieces.map fun records => ⟨[], batchPostings unicode paths extract records⟩ := by
  induction pieces generalizing start with
  | nil => rfl
  | cons piece pieces ih =>
      rw [zipIdx_cons, map_cons, ih (start + 1)]
      simp

/-- The segments of an incremental run void the tombstoned ids, then add what the records of the
delta have. -/
theorem mem_runIncremental {current previous : List FileRecord}
    {versions : Option ContentExtractorVersionState} (distinct : Distinct current)
    {base : List ContentPosting} {occurrence : Occurrence} :
    occurrence ∈ occurrences (mergedTerms unicode base (segmentFiles
        (runIncrementalToSegments unicode paths extract batchSize current previous versions))) ↔
      (occurrence ∈ occurrences (contentTermsFromPostings unicode base) ∧
        occurrence.id ∉ (contentIndexDelta paths current previous versions).tombstones) ∨
      occurrence ∈ runOccurrences unicode paths extract
        (contentIndexDelta paths current previous versions).records := by
  generalize shape : contentIndexDelta paths current previous versions = delta
  have own : Distinct delta.records := by
    rw [← shape]
    exact distinct.sublist filter_sublist
  rw [occurrences_segmentFiles, ← @posted_chunks unicode paths extract _ own (max batchSize 1),
    runIncrementalToSegments, shape]
  dsimp only
  split
  case isTrue onlyTombstones =>
    have nothing : chunks (max batchSize 1) delta.records = [] := by
      rw [onlyTombstones.1]
      rfl
    rw [nothing]
    simp [entriesOf, entryOf, replay, apply]
  case isFalse other =>
    cases pieces : chunks (max batchSize 1) delta.records with
    | nil =>
        have none : delta.records = [] := by
          rw [← @flatten_chunks _ (max batchSize 1) delta.records, pieces]
          rfl
        have noTombstones : delta.tombstones = [] := by
          by_contra some
          exact other ⟨none, some⟩
        rw [noTombstones]
        simp [entriesOf, replay]
    | cons first later =>
        have step : ∀ (view : Set Occurrence) entry log,
            replay Occurrence.id view (entry :: log) =
              replay Occurrence.id (apply Occurrence.id view entry) log := fun _ _ _ => rfl
        rw [zipIdx_cons, map_cons, Nat.zero_add, map_zipIdx_later, entriesOf,
          map_cons, step, map_map, mem_replay_of_clean]
        · simp only [apply, entryOf, Set.mem_union, Set.mem_ofPred_eq, if_true, mem_map,
            Function.comp_apply, mem_cons, exists_eq_or_imp, exists_exists_and_eq_and,
              or_assoc]
        · intro entry member
          rcases mem_map.mp member with ⟨piece, -, rfl⟩
          simp [entryOf]

end Runs

section Archives

variable {unicode : Unicode}

/-- Postings that list the same hits are read into the same occurrences. -/
theorem occurrences_storedPostings (postings : List ContentPosting) :
    occurrences (contentTermsFromPostings unicode (postings.map storedPosting)) =
      occurrences (contentTermsFromPostings unicode postings) := by
  rw [contentTermsFromPostings, contentTermsFromPostings, occurrences_foldl_mergeContentPosting,
    occurrences_foldl_mergeContentPosting]
  congr 1
  ext occurrence
  simp only [mem_map, exists_exists_and_eq_and, posted, Set.mem_ofPred_eq]
  have same : ∀ posting : ContentPosting,
      PostsId (storedPosting posting) occurrence.id occurrence.position ↔
        PostsId posting occurrence.id occurrence.position := fun _ => postsId_storedAs
  simp only [same]
  rfl

theorem canonical_replay {view : Set Occurrence} (canonical : Canonical unicode view)
    (segments : List StoredSegment) :
    Canonical unicode (replay Occurrence.id view
      (segments.map fun stored => entryOf unicode stored.segment)) := by
  intro occurrence member
  rcases mem_replay.mp member with ⟨old, -⟩ | live
  · exact canonical occurrence old
  · refine canonical_segments segments occurrence ?_
    rw [occurrences_segments, mem_replay_empty]
    exact live

theorem canonical_contentTermsFromPostings (postings : List ContentPosting) :
    Canonical unicode (occurrences (contentTermsFromPostings unicode postings)) := by
  intro occurrence member
  rw [contentTermsFromPostings, occurrences_foldl_mergeContentPosting, occurrences_empty,
    Set.empty_union] at member
  rcases member with ⟨posting, -, same, nonempty, -⟩
  refine ⟨?_, nonempty⟩
  rw [← same, Unicode.lowercaseTerm_idem]

/-- What is compacted is what the base and the segments give. -/
theorem occurrences_compacted_onto (base : List ContentPosting) (segments : List StoredSegment) :
    occurrences (contentTermsFromPostings unicode
        (compactContentPostingsWithSegments unicode base segments)) =
      occurrences (mergedTerms unicode base segments) := by
  refine occurrences_roundTrip ?_
  rw [occurrences_mergedTerms]
  exact canonical_replay (canonical_contentTermsFromPostings base) segments

theorem occurrences_runAndCompact {paths : PathKinds} {extract : FileRecord → Extraction}
    {batchSize : Nat} {records : List FileRecord} (distinct : Distinct records) :
    occurrences (contentTermsFromPostings unicode
        (runAndCompact unicode paths extract batchSize records)) =
      runOccurrences unicode paths extract records := by
  rw [runAndCompact, compactContentSegments, occurrences_compacted_onto,
    occurrences_runToSegments distinct]

/-- Every term lists an id. -/
def Filled (terms : Terms) : Prop :=
  ∀ (term : Text) (ids : IdPositions), terms[term]? = some ids → ids ≠ ∅

theorem Filled.mergeContentPosting {terms : Terms} (filled : Filled terms)
    {posting : ContentPosting} (some : posting.ids ≠ []) :
    Filled (mergeContentPosting unicode terms posting) := by
  intro term ids found
  rw [Store.mergeContentPosting] at found
  split at found
  · exact filled term ids found
  · rw [ExtTreeMap.getElem?_insert] at found
    split at found
    · rw [← Option.some.inj found]
      generalize (terms[unicode.lowercaseTerm posting.term]?).getD ∅ = old
      rcases exists_mem_of_ne_nil _ some with ⟨id, listed⟩
      intro empty
      have lists := (@lists_mergeIds old posting id none).mpr (Or.inr (Or.inl listed))
      rw [empty] at lists
      rcases lists with ⟨positions, absurd, -⟩
      simp at absurd
    · exact filled term ids found

theorem Filled.foldl_mergeContentPosting {postings : List ContentPosting}
    (some : ∀ posting ∈ postings, posting.ids ≠ []) {terms : Terms} (filled : Filled terms) :
    Filled (postings.foldl (Store.mergeContentPosting unicode) terms) := by
  induction postings generalizing terms with
  | nil => exact filled
  | cons posting postings ih =>
      exact ih (fun other member => some other (mem_cons_of_mem _ member))
        (filled.mergeContentPosting (some posting mem_cons_self))

theorem filled_removeTombstone (terms : Terms) (id : FileId) :
    Filled (removeTombstone terms id) := by
  intro term ids found
  rw [removeTombstone, ExtTreeMap.getElem?_filter', Option.filter_eq_some_iff] at found
  rintro rfl
  simp at found

theorem Filled.mergedTerms {base : List ContentPosting} {segments : List ContentSegment}
    (someBase : ∀ posting ∈ base, posting.ids ≠ [])
    (some : ∀ segment ∈ segments, ∀ posting ∈ segment.postings, posting.ids ≠ []) :
    Filled (mergedTerms unicode base (segmentFiles segments)) := by
  have start : Filled (contentTermsFromPostings unicode base) := by
    refine Filled.foldl_mergeContentPosting someBase ?_
    intro term ids found
    simp at found
  rw [Store.mergedTerms]
  generalize contentTermsFromPostings unicode base = terms at start
  induction segments generalizing terms with
  | nil => exact start
  | cons segment segments ih =>
      refine ih (fun other member => some other (mem_cons_of_mem _ member)) _ ?_
      refine Filled.foldl_mergeContentPosting (some segment mem_cons_self) ?_
      generalize segment.tombstones = dead
      induction dead generalizing terms with
      | nil => exact start
      | cons id dead ih => exact ih _ (filled_removeTombstone terms id)

theorem Filled.ids_ne_nil {terms : Terms} (filled : Filled terms) {posting : ContentPosting}
    (member : posting ∈ contentPostingsFromTerms terms) : posting.ids ≠ [] := by
  rcases mem_map.mp member with ⟨⟨term, ids⟩, listed, rfl⟩
  have nonempty := filled term ids (ExtTreeMap.mem_toList_iff_getElem?_eq_some.mp listed)
  intro none
  have keys : ids.keys = [] := none
  refine nonempty (ExtTreeMap.isEmpty_iff.mp ?_)
  rw [ExtTreeMap.isEmpty_eq_size_beq_zero, ← ExtTreeMap.length_keys, keys]
  rfl

/-- Terms that all list an id are told apart by lookups. -/
theorem eq_of_filled {left right : Terms} (leftFilled : Filled left) (rightFilled : Filled right)
    (same : occurrences left = occurrences right) : left = right := by
  have lookups := lookup_eq_iff.mpr same
  have apart : ∀ {some none : Terms}, Filled some →
      (∀ term id, Store.lookup some term id = Store.lookup none term id) → ∀ term : Text,
        none[term]? = Option.none → some[term]? = Option.none := by
    intro some none filled lookups term absent
    cases found : some[term]? with
    | none => rfl
    | some ids =>
        refine absurd ?_ (filled term ids found)
        apply ExtTreeMap.ext_getElem?
        intro id
        have here := lookups term id
        rw [Store.lookup, Store.lookup, found, absent] at here
        rw [ExtTreeMap.getElem?_empty]
        exact here
  apply ExtTreeMap.ext_getElem?
  intro term
  cases leftFound : left[term]? with
  | none => exact (apart rightFilled (fun term id => (lookups term id).symm) term leftFound).symm
  | some leftIds =>
      cases rightFound : right[term]? with
      | none =>
          rw [apart leftFilled lookups term rightFound] at leftFound
          cases leftFound
      | some rightIds =>
          congr 1
          apply ExtTreeMap.ext_getElem?
          intro id
          have here := lookups term id
          rw [Store.lookup, Store.lookup, leftFound, rightFound] at here
          exact here

end Archives

section Equality

variable {unicode : Unicode} {paths : PathKinds} {versions : Option ContentExtractorVersionState}
  {result : FileId → ContentRecordSignature → Extraction} {current previous : List FileRecord}

/-- An extractor that goes by the signature of a record. -/
def currentExtraction (paths : PathKinds) (result : FileId → ContentRecordSignature → Extraction)
    (record : FileRecord) : Extraction :=
  result record.id (contentRecordSignature paths record)

def previousExtraction (paths : PathKinds) (versions : Option ContentExtractorVersionState)
    (result : FileId → ContentRecordSignature → Extraction) (record : FileRecord) : Extraction :=
  result record.id (previousContentRecordSignature paths versions record)

/-- A record that counts as unchanged is an image of the screen in both snapshots, or in neither. -/
def SameImages (paths : PathKinds) (versions : Option ContentExtractorVersionState)
    (current previous : List FileRecord) : Prop :=
  ∀ record ∈ current, ∀ old ∈ previous, record.id = old.id →
    contentRecordSignature paths record = previousContentRecordSignature paths versions old →
      paths.pathIsScreenshotImage record.path = paths.pathIsScreenshotImage old.path

theorem recordById_of_some {records : List FileRecord} {id : FileId} {record : FileRecord}
    (found : recordById records id = some record) : record ∈ records ∧ record.id = id := by
  refine ⟨mem_reverse.mp (mem_of_find?_eq_some found), ?_⟩
  have same := find?_some found
  exact of_decide_eq_true same

theorem recordById_eq_some {records : List FileRecord} (distinct : Distinct records)
    {record : FileRecord} : recordById records record.id = some record ↔ record ∈ records := by
  constructor
  · intro found
    exact (recordById_of_some found).1
  · intro member
    cases found : recordById records record.id with
    | none =>
        have absent := find?_eq_none.mp found record (mem_reverse.mpr member)
        simp at absent
    | some other =>
        rcases recordById_of_some found with ⟨listed, same⟩
        rw [distinct.eq_of_id listed member same]

/-- The kind is part of a signature, and the previous one has that of the record. -/
theorem previousContentRecordSignature_kind (record : FileRecord) :
    (previousContentRecordSignature paths versions record).kind = record.kind := by
  unfold previousContentRecordSignature
  split <;> rfl

theorem textOf_unchanged (images : SameImages paths versions current previous)
    {record old : FileRecord} (member : record ∈ current) (oldMember : old ∈ previous)
    (same : record.id = old.id)
    (signature : contentRecordSignature paths record =
      previousContentRecordSignature paths versions old) :
    textOf paths (currentExtraction paths result) record =
      textOf paths (previousExtraction paths versions result) old := by
  have kind : record.kind = old.kind := by
    rw [← @previousContentRecordSignature_kind paths versions old, ← signature]
    rfl
  have image := images record member old oldMember same signature
  have extraction : currentExtraction paths result record =
      previousExtraction paths versions result old := by
    rw [currentExtraction, previousExtraction, same, signature]
  rw [textOf, textOf, kind, image, extraction]

theorem recordOccurrences_unchanged (images : SameImages paths versions current previous)
    {record old : FileRecord} (member : record ∈ current) (oldMember : old ∈ previous)
    (same : record.id = old.id)
    (signature : contentRecordSignature paths record =
      previousContentRecordSignature paths versions old) :
    recordOccurrences unicode paths (currentExtraction paths result) record =
      recordOccurrences unicode paths (previousExtraction paths versions result) old := by
  rw [recordOccurrences, recordOccurrences,
    textOf_unchanged images member oldMember same signature, same]

/-- A record is tombstoned when it is gone or changed, and was a file. -/
theorem mem_tombstones (distinct : Distinct current) (distinctPrevious : Distinct previous)
    {old : FileRecord} (oldMember : old ∈ previous) (file : old.kind = .file) :
    old.id ∈ (contentIndexDelta paths current previous versions).tombstones ↔
      ∀ record ∈ current, record.id = old.id →
        contentRecordSignature paths record ≠
          previousContentRecordSignature paths versions old := by
  simp only [contentIndexDelta, mem_sortDedup, mem_append, mem_filterMap, mem_map,
    mem_filter, decide_eq_true_eq]
  have found := (recordById_eq_some distinctPrevious).mpr oldMember
  constructor
  · rintro (⟨record, member, changed⟩ | ⟨gone, ⟨-, -, absent⟩, same⟩)
    · unfold changedTombstone at changed
      split at changed
      case h_1 previousRecord known =>
        split at changed
        · cases changed
        · split at changed
          · intro other otherMember same signature
            have own : record.id = old.id := Option.some.inj changed
            have sameRecord := distinct.eq_of_id otherMember member (same.trans own.symm)
            rename_i unequal _
            refine unequal ?_
            rw [isUnchanged, own, found, ← sameRecord]
            exact decide_eq_true signature
          · cases changed
      case h_2 => cases changed
    · intro record member sameId _
      exact absent ⟨record, member, sameId.trans same.symm⟩
  · intro changed
    by_cases listed : ∃ record ∈ current, record.id = old.id
    · rcases listed with ⟨record, member, same⟩
      refine Or.inl ⟨record, member, ?_⟩
      have unequal : isUnchanged paths previous versions record = false := by
        rw [isUnchanged, same, found]
        exact decide_eq_false (changed record member same)
      rw [changedTombstone, same, found]
      simp [unequal, file]
    · exact Or.inr ⟨old, ⟨oldMember, file, listed⟩, rfl⟩

/-- What stays of the previous snapshot and what the delta adds is what the current snapshot has. -/
theorem runOccurrences_current (distinct : Distinct current) (distinctPrevious : Distinct previous)
    (images : SameImages paths versions current previous) (occurrence : Occurrence) :
    (occurrence ∈ runOccurrences unicode paths (previousExtraction paths versions result) previous ∧
        occurrence.id ∉ (contentIndexDelta paths current previous versions).tombstones) ∨
      occurrence ∈ runOccurrences unicode paths (currentExtraction paths result)
        (contentIndexDelta paths current previous versions).records ↔
      occurrence ∈ runOccurrences unicode paths (currentExtraction paths result) current := by
  constructor
  · rintro (⟨⟨old, oldMember, has⟩, untouched⟩ | ⟨record, member, has⟩)
    · rcases has with ⟨sameId, nonempty, text, token, textual, rest⟩
      rw [← sameId, mem_tombstones distinct distinctPrevious oldMember (kind_of_textOf textual)]
        at untouched
      push Not at untouched
      rcases untouched with ⟨record, member, same, signature⟩
      refine ⟨record, member, ?_⟩
      rw [recordOccurrences_unchanged images member oldMember same signature]
      exact ⟨sameId, nonempty, text, token, textual, rest⟩
    · exact ⟨record, (mem_filter.mp member).1, has⟩
  · rintro ⟨record, member, has⟩
    cases unchanged : isUnchanged paths previous versions record with
    | false => exact Or.inr ⟨record, mem_filter.mpr ⟨member, by simp [unchanged]⟩, has⟩
    | true =>
        left
        unfold isUnchanged at unchanged
        split at unchanged
        case h_2 => cases unchanged
        case h_1 old known =>
          rcases recordById_of_some known with ⟨oldMember, same⟩
          have signature := of_decide_eq_true unchanged
          rw [recordOccurrences_unchanged images member oldMember same.symm signature] at has
          refine ⟨⟨old, oldMember, has⟩, ?_⟩
          rcases has with ⟨sameId, -, text, token, textual, -⟩
          rw [← sameId, mem_tombstones distinct distinctPrevious oldMember (kind_of_textOf textual)]
          intro changed
          exact changed record member same.symm signature

theorem ids_of_runToSegments {extract : FileRecord → Extraction} {batchSize : Nat}
    {records : List FileRecord} (distinct : Distinct records) :
    ∀ segment ∈ runToSegments unicode paths extract batchSize records,
      ∀ posting ∈ segment.postings, posting.ids ≠ [] := by
  intro segment member posting posts
  rcases mem_map.mp member with ⟨piece, listed, rfl⟩
  have sublist := sublist_flatten_of_mem listed
  rw [flatten_chunks] at sublist
  have own := distinct.sublist sublist
  exact ids_of_batchPostings own.ids own.paths posts

theorem ids_of_runIncrementalToSegments {extract : FileRecord → Extraction} {batchSize : Nat}
    (distinct : Distinct current) :
    ∀ segment ∈ runIncrementalToSegments unicode paths extract batchSize current previous versions,
      ∀ posting ∈ segment.postings, posting.ids ≠ [] := by
  intro segment member posting posts
  unfold runIncrementalToSegments at member
  dsimp only at member
  split at member
  · rw [mem_singleton.mp member] at posts
    cases posts
  · rcases mem_map.mp member with ⟨⟨piece, batchIndex⟩, place, rfl⟩
    have sublist := sublist_flatten_of_mem (fst_mem_of_mem_zipIdx place)
    rw [flatten_chunks] at sublist
    have own := distinct.sublist (sublist.trans filter_sublist)
    exact ids_of_batchPostings own.ids own.paths posts

/--
An incremental run over two snapshots, compacted onto the archive of the previous one, gives the
postings that a full run over the current one gives.
-/
theorem runIncrementalAndCompact_eq_full (unicode : Unicode) (paths : PathKinds)
    (versions : Option ContentExtractorVersionState)
    (result : FileId → ContentRecordSignature → Extraction)
    (batchSize previousBatchSize fullBatchSize : Nat) (distinct : Distinct current)
    (distinctPrevious : Distinct previous) (images : SameImages paths versions current previous) :
    runIncrementalAndCompact unicode paths (currentExtraction paths result) batchSize current
        previous versions
        ((runAndCompact unicode paths (previousExtraction paths versions result)
          previousBatchSize previous).map storedPosting) =
      runAndCompact unicode paths (currentExtraction paths result) fullBatchSize current := by
  have noBase : ∀ posting ∈ ([] : List ContentPosting), posting.ids ≠ [] := by simp
  have base : ∀ posting ∈ (runAndCompact unicode paths (previousExtraction paths versions result)
      previousBatchSize previous).map storedPosting, posting.ids ≠ [] := by
    intro posting member none
    rcases mem_map.mp member with ⟨written, listed, rfl⟩
    have filled := @Filled.mergedTerms unicode _ _ noBase (@ids_of_runToSegments unicode paths
      (previousExtraction paths versions result) previousBatchSize previous distinctPrevious)
    rcases exists_mem_of_ne_nil _ (filled.ids_ne_nil listed) with ⟨id, known⟩
    have stored : id ∈ (storedPosting written).ids := mem_sortDedup.mpr known
    rw [none] at stored
    cases stored
  have onto := @Filled.mergedTerms unicode _ _ base
    (@ids_of_runIncrementalToSegments unicode paths versions current previous
      (currentExtraction paths result) batchSize distinct)
  have afresh := @Filled.mergedTerms unicode _ _ noBase (@ids_of_runToSegments unicode paths
    (currentExtraction paths result) fullBatchSize current distinct)
  refine congrArg contentPostingsFromTerms (eq_of_filled onto afresh ?_)
  rw [occurrences_runToSegments distinct]
  ext occurrence
  rw [mem_runIncremental distinct, occurrences_storedPostings,
    occurrences_runAndCompact distinctPrevious]
  exact runOccurrences_current distinct distinctPrevious images occurrence

/-- How the content crate tells an image of the screen. -/
def screenshotPath (path : Text) : Bool :=
  ((pathExtension path).any fun extension => extension.map asciiLower ∈
    ["png".toList, "jpg".toList, "jpeg".toList, "heic".toList, "heif".toList, "tif".toList,
      "tiff".toList]) &&
  (pathFileName path).any fun name => "screenshot".toList <:+: name.map asciiLower ∨
    "screen shot".toList <:+: name.map asciiLower

/-- Formats that the content crate has no extractor for: text where a policy names them. -/
def plainPaths : PathKinds where
  extractorVersionForPath := fun _ => 1
  pathIsScreenshotImage := screenshotPath

def alphaAlways (_ : FileId) (_ : ContentRecordSignature) : Extraction :=
  .document "alpha".toList

def fileAt (node : Nat) (path : Text) (len : Nat) : FileRecord where
  id := ⟨⟨1⟩, node⟩
  path := path
  name := (pathFileName path).getD []
  kind := .file
  len := len
  created := none
  modified := none
  changed := none
  tags := []
  finderComment := none

/-- One file is new, one has changed, one is gone, and one is as it was. -/
theorem runIncrementalAndCompact_eq_full_changes :
    runIncrementalAndCompact Unicode.ascii plainPaths (currentExtraction plainPaths alphaAlways) 1
        [fileAt 1 "/a.raw".toList 1, fileAt 2 "/b.raw".toList 2, fileAt 4 "/d.raw".toList 1]
        [fileAt 1 "/a.raw".toList 1, fileAt 2 "/b.raw".toList 1, fileAt 3 "/c.raw".toList 1]
        none
        ((runAndCompact Unicode.ascii plainPaths (previousExtraction plainPaths none alphaAlways) 2
          [fileAt 1 "/a.raw".toList 1, fileAt 2 "/b.raw".toList 1, fileAt 3 "/c.raw".toList 1]).map
            storedPosting) =
      runAndCompact Unicode.ascii plainPaths (currentExtraction plainPaths alphaAlways) 3
        [fileAt 1 "/a.raw".toList 1, fileAt 2 "/b.raw".toList 2, fileAt 4 "/d.raw".toList 1] := by
  refine runIncrementalAndCompact_eq_full Unicode.ascii plainPaths none alphaAlways 1 2 3
    ⟨by decide, by decide⟩ ⟨by decide, by decide⟩ ?_
  unfold SameImages
  decide

/-- Two files at one path: the index of a batch keeps the second only. And a file that is renamed
to the name of an image keeps its text. -/
theorem runIncremental_differs :
    runIncrementalAndCompact Unicode.ascii plainPaths (currentExtraction plainPaths alphaAlways) 2
        [fileAt 1 "/a.raw".toList 1, fileAt 2 "/a.raw".toList 1] [fileAt 1 "/a.raw".toList 1] none
        ((runAndCompact Unicode.ascii plainPaths (previousExtraction plainPaths none alphaAlways) 2
          [fileAt 1 "/a.raw".toList 1]).map storedPosting) ≠
      runAndCompact Unicode.ascii plainPaths (currentExtraction plainPaths alphaAlways) 2
        [fileAt 1 "/a.raw".toList 1, fileAt 2 "/a.raw".toList 1] ∧
    runIncrementalAndCompact Unicode.ascii plainPaths (currentExtraction plainPaths alphaAlways) 2
        [fileAt 1 "/Screenshot.png".toList 1] [fileAt 1 "/a.raw".toList 1] none
        ((runAndCompact Unicode.ascii plainPaths (previousExtraction plainPaths none alphaAlways) 2
          [fileAt 1 "/a.raw".toList 1]).map storedPosting) ≠
      runAndCompact Unicode.ascii plainPaths (currentExtraction plainPaths alphaAlways) 2
        [fileAt 1 "/Screenshot.png".toList 1] := by
  constructor
  · decide +kernel
  · decide +kernel

end Equality

end Gfm.Index

import Gfm.Store.ContentRoundTrip
import Gfm.Store.ContentSegments

/-!
# Reading a written content segment

The ids that a segment buries come back in order, and so do the ids of a posting; what is listed
twice is read twice. Only where nothing is listed twice is this the form of the archive. A
segment cannot be mapped: its first bytes are those of no archive.
-/

namespace Gfm.Store

open Sorted Wire

section Fits

/-- A posting whose parts have the widths of the source; its ids are not measured in blocks. -/
structure SegmentPostingFits (posting : ContentPosting) : Prop where
  term : (LineLog.encodeText posting.term).length ≤ isizeMax
  ids : ∀ id ∈ posting.ids, Fits id
  short : posting.ids.length < 2 ^ 64
  entries : ∀ entry ∈ posting.positions, EntryFits entry
  positions : posting.positions.length * contentPositionsSize ≤ isizeMax

/-- A segment whose parts have the widths of the source. -/
structure SegmentWritable (segment : ContentSegment) : Prop where
  tombstones : ∀ id ∈ segment.tombstones, Fits id
  short : segment.tombstones.length < 2 ^ 64
  each : ∀ posting ∈ segment.postings, SegmentPostingFits posting
  count : segment.postings.length < 2 ^ 64

end Fits

section Stored

/-- A segment as it is read back. -/
def storedSegment (segment : ContentSegment) : ContentSegment where
  tombstones := sortByKey id segment.tombstones
  postings := segment.postings.map (storedAs .indexedPositions)

/-- A segment in the form of the archive: every id in order and once. -/
def normalSegment (segment : ContentSegment) : ContentSegment where
  tombstones := sortDedup segment.tombstones
  postings := segment.postings.map storedPosting

/-- Ids that are all different are only put in order. -/
theorem sortDedup_eq_iff {ids : List FileId} : sortDedup ids = sortByKey id ids ↔ ids.Nodup := by
  constructor
  · intro same
    have strict := strict_sortDedup ids
    rw [same] at strict
    exact (sortByKey_perm id ids).nodup_iff.mp strict.nodup
  · intro distinct
    have chain := ((sortByKey_perm id ids).nodup_iff.mpr distinct).isChain
    exact List.destutter_of_isChain _ _ chain

/-- No id is listed twice, neither of those buried nor of those of one posting. -/
def ListsOnce (segment : ContentSegment) : Prop :=
  segment.tombstones.Nodup ∧ ∀ posting ∈ segment.postings, posting.ids.Nodup

theorem storedSegment_eq_iff {segment : ContentSegment} :
    storedSegment segment = normalSegment segment ↔ ListsOnce segment := by
  have posting : ∀ posting : ContentPosting,
      storedAs .indexedPositions posting = storedPosting posting ↔ posting.ids.Nodup := by
    intro posting
    rw [← sortDedup_eq_iff]
    constructor
    · intro same
      exact (congrArg ContentPosting.ids same).symm
    · intro same
      rw [storedPosting, same]
      rfl
  rw [storedSegment, normalSegment, ContentSegment.mk.injEq, List.map_inj_left]
  refine and_congr ?_ (forall₂_congr fun item _ => posting item)
  rw [← sortDedup_eq_iff]
  exact eq_comm

end Stored

section RoundTrip

variable (path : Path) (report : Bytes → String) {segment : ContentSegment}

theorem writable_nil : Writable [] where
  fits := fun _ listed => absurd listed List.not_mem_nil
  short := by decide
  written := by
    have sorted : sortDedup ([] : List FileId) = [] := rfl
    have size : writeVarint 128 = [128, 1] := by
      rw [writeVarint, if_neg (by decide), writeVarint_of_lt (by decide)]
      rfl
    rw [writeBlockedFileIds, sorted, chunks, if_pos (Or.inl rfl)]
    simp [writeBlockHeader, blockPayload, blockedIdsV2Marker, blockedIdsV2Version,
      defaultIdBlockSize, size, writeVarint_of_lt, isizeMax]

theorem decodes_segmentPosting {posting : ContentPosting} (fits : SegmentPostingFits posting) :
    Decodes (readContentPosting path report .indexedPositions)
      (writeContentPosting posting .indexedPositions) (storedAs .indexedPositions posting) := by
  -- the position entries do not look at the ids
  have alone : PostingFits { posting with ids := [] } := by
    exact ⟨fits.term, writable_nil, fits.entries, fits.positions⟩
  have ids := decodes_readFileIds path fits.ids fits.short
  have positions := decodes_readContentPositions path alone
  rw [readContentPosting_eq]
  refine (decodes_readTerm path report "term" fits.term).bind ?_
  refine ids.bind ?_
  exact positions.andThen (Decodes.pure _)

theorem decodes_segmentPostings (fits : SegmentWritable segment) :
    Decodes (readPostings path report .indexedPositions)
      (writeVarint segment.postings.length ++
        segment.postings.flatMap fun posting => writeContentPosting posting .indexedPositions)
      (segment.postings.map (storedAs .indexedPositions)) := by
  refine (decodes_readNumber path fits.count).bind ?_
  exact decodes_readEach fun posting listed =>
    decodes_segmentPosting path report (fits.each posting listed)

theorem readContentSegment_written (fits : SegmentWritable segment) :
    readContentSegment path report (writeContentSegment segment) = .ok (storedSegment segment) := by
  have length : contentSegmentMagic.length = contentSegmentMagicV2.length := by decide +kernel
  have magic := decodes_readExact (ended path) contentSegmentMagicV2
    (writeFileIds segment.tombstones ++ (writeVarint segment.postings.length ++
      segment.postings.flatMap fun posting => writeContentPosting posting .indexedPositions))
  have version : segmentVersion path contentSegmentMagicV2 = .ok .indexedPositions := if_pos rfl
  have tombstones := decodes_readFileIds path fits.tombstones fits.short
    (writeVarint segment.postings.length ++
      segment.postings.flatMap fun posting => writeContentPosting posting .indexedPositions)
  have postings := decodes_segmentPostings path report fits []
  rw [List.append_nil] at postings
  simp only [readContentSegment, writeContentSegment, length, magic, version, tombstones, postings,
    bind, Except.bind]
  rfl

/-- No archive starts as a segment does. -/
theorem openArchive_segment (segment : ContentSegment) :
    MmapContentArchive.openArchive path report (writeContentSegment segment) =
      .error (unsupportedHeader path) := by
  have headed : contentSegmentMagicV2 <+: writeContentSegment segment := List.prefix_append _ _
  rw [MmapContentArchive.openArchive, mmapContentVersion_foreign _ headed (by decide)]
  rfl

/-- What is read of a written segment, when it is in the form of the archive, and that no mapped
archive takes it. -/
theorem contentSegment_roundTrip (fits : SegmentWritable segment) :
    readContentSegment path report (writeContentSegment segment) = .ok (storedSegment segment) ∧
      (storedSegment segment = normalSegment segment ↔ ListsOnce segment) ∧
      MmapContentArchive.openArchive path report (writeContentSegment segment) =
        .error (unsupportedHeader path) :=
  ⟨readContentSegment_written path report fits, storedSegment_eq_iff,
    openArchive_segment path report segment⟩

end RoundTrip

/-- A segment of two volumes, whose lists are in no order. -/
def unsortedSegment : ContentSegment where
  tombstones := [⟨⟨4⟩, 12⟩, ⟨⟨3⟩, 9⟩, ⟨⟨4⟩, 2⟩]
  postings :=
    [{ term := ['b'], ids := [⟨⟨4⟩, 15⟩, ⟨⟨3⟩, 7⟩], positions := [⟨⟨⟨3⟩, 7⟩, [2, 8]⟩] },
      { term := ['a'], ids := [⟨⟨4⟩, 15⟩], positions := [⟨⟨⟨4⟩, 15⟩, [8]⟩] }]

theorem contentSegment_roundTrip_unsorted :
    SegmentWritable unsortedSegment ∧
      readContentSegment [] (fun _ => "") (writeContentSegment unsortedSegment) =
        .ok (storedSegment unsortedSegment) := by
  have fits : SegmentWritable unsortedSegment := by
    refine ⟨by decide, by decide, ?_, by decide⟩
    simp only [unsortedSegment, List.forall_mem_cons]
    refine ⟨⟨by decide, by decide, by decide, ?_, by decide⟩,
      ⟨by decide, by decide, by decide, ?_, by decide⟩, nofun⟩
    · exact List.forall_mem_singleton.mpr ⟨by decide, by decide, by decide⟩
    · exact List.forall_mem_singleton.mpr ⟨by decide, by decide, by decide⟩
  exact ⟨fits, (contentSegment_roundTrip [] (fun _ => "") fits).1⟩

/-- An id that is buried twice is read twice. -/
theorem tombstone_twice : ¬∀ (path : Path) (report : Bytes → String) (segment : ContentSegment),
    SegmentWritable segment →
      readContentSegment path report (writeContentSegment segment) =
        .ok (normalSegment segment) := by
  intro all
  have fits : SegmentWritable ⟨[⟨⟨4⟩, 12⟩, ⟨⟨4⟩, 12⟩], []⟩ :=
    ⟨by decide, by decide, fun posting listed => absurd listed List.not_mem_nil, by decide⟩
  have read := readContentSegment_written [] (fun _ => "") fits
  rw [all [] (fun _ => "") _ fits] at read
  have twice := storedSegment_eq_iff.mp (Except.ok.inj read).symm
  exact absurd twice.1 (by decide)

end Gfm.Store

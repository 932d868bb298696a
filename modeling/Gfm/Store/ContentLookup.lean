import Gfm.Store.ContentRoundTrip

/-!
# Lookups in the mapped content archive

An archive that holds postings with distinct canonical terms answers for a term with the posting
of its canonical form, if that is not empty.
-/

namespace Gfm.Store

open List Sorted Wire

/-- The term under which the directory lists a posting. -/
def canonicalTerm (unicode : Unicode) (posting : ContentPosting) : Text :=
  unicode.normalize posting.term

/-- The posting that a term stands for; a term without a canonical form stands for none. -/
def postingOf (unicode : Unicode) (postings : List ContentPosting) (term : Text) :
    Option ContentPosting :=
  if unicode.normalize term = [] then none
  else postings.find? fun posting => canonicalTerm unicode posting = unicode.normalize term

theorem mem_of_postingOf {unicode : Unicode} {postings : List ContentPosting} {term : Text}
    {posting : ContentPosting} (found : postingOf unicode postings term = some posting) :
    posting ∈ postings := by
  rw [postingOf] at found
  split at found
  case isTrue => cases found
  case isFalse => exact mem_of_find?_eq_some found

namespace MmapContentArchive

/-- What a mapped archive that holds these postings has in it. -/
structure Holds (unicode : Unicode) (archive : MmapContentArchive)
    (postings : List ContentPosting) : Prop where
  fits : ∀ posting ∈ postings, PostingFits posting
  distinct : (postings.map (canonicalTerm unicode)).Nodup
  terms : archive.directory.map ContentDirectoryEntry.term =
    (sortByKey (canonicalTerm unicode) postings).map (canonicalTerm unicode)
  strict : Strict ContentDirectoryEntry.term archive.directory
  located : ∀ entry ∈ archive.directory, ∃ posting ∈ postings,
    entry.term = canonicalTerm unicode posting ∧
      archive.postingSlice entry = .ok (writeContentPosting posting archive.version)

section Opening

variable (unicode : Unicode) (path : Path) (report : Bytes → String)
  {postings : List ContentPosting}

theorem contentDirectory_terms (postings : List ContentPosting)
    (distinct : (postings.map (canonicalTerm unicode)).Nodup) :
    Strict ContentDirectoryEntry.term (contentDirectory unicode postings) ∧
      (contentDirectory unicode postings).map ContentDirectoryEntry.term =
        (sortByKey (canonicalTerm unicode) postings).map (canonicalTerm unicode) := by
  have terms := map_term_directoryFrom unicode (archiveHead postings).length postings
  have strict : Strict ContentDirectoryEntry.term (contentDirectory unicode postings) := by
    apply strict_sortByKey
    rw [terms]
    exact distinct
  have strictPostings : Strict (canonicalTerm unicode)
      (sortByKey (canonicalTerm unicode) postings) := strict_sortByKey distinct
  refine ⟨strict, ?_⟩
  have left : Strict id ((contentDirectory unicode postings).map ContentDirectoryEntry.term) :=
    pairwise_map.mpr strict
  have right : Strict id ((sortByKey (canonicalTerm unicode) postings).map
      (canonicalTerm unicode)) := pairwise_map.mpr strictPostings
  refine left.eq_of_perm right ?_
  refine ((sortByKey_perm _ _).map _).trans ?_
  rw [terms]
  exact ((sortByKey_perm _ _).map _).symm

theorem mmapContentVersion_written (postings : List ContentPosting) :
    mmapContentVersion path (writeContentPostings unicode postings) =
      .ok .indexedChecksummed := by
  refine if_pos ?_
  rw [writeContentPostings_eq, archivePostings, archiveHead]
  simp only [append_assoc]
  exact prefix_append _ _

theorem openArchive_written (fits : ArchiveFits unicode postings)
    (distinct : (postings.map (canonicalTerm unicode)).Nodup) :
    ∃ archive, openArchive path report (writeContentPostings unicode postings) = .ok archive ∧
      archive.version = .indexedChecksummed ∧ archive.Holds unicode postings := by
  have terms := contentDirectory_terms unicode postings distinct
  refine ⟨⟨path, writeContentPostings unicode postings, contentDirectory unicode postings,
    .indexedChecksummed⟩, ?_, rfl, fits.each, distinct, terms.2, terms.1, ?_⟩
  · have current : ¬ContentStoreVersion.indexedChecksummed = .legacy := by decide
    simp only [openArchive, mmapContentVersion_written, verifyContentChecksum_written,
      readContentDirectory_written unicode path report fits, if_neg current, bind, Except.bind]
  · intro entry listed
    have member := (sortByKey_perm ContentDirectoryEntry.term
      (directoryFrom unicode (archiveHead postings).length postings)).mem_iff.mp listed
    have listed := exists_locates unicode (archiveHead postings) (archiveTail unicode postings ++
      checksumFooter contentChecksumFooter (archiveBody unicode postings)) member
    have shape := writeContentPostings_eq unicode postings
    rw [archivePostings] at shape
    rw [← shape] at listed
    rcases listed with ⟨posting, known, term, before, after, whole, start, size⟩
    refine ⟨posting, known, term, ?_⟩
    have written := fits.written
    have bound : isizeMax < 2 ^ 64 := by decide
    rw [whole, length_append, length_append] at written
    have step : checkedAdd (contentFormatError path "posting range overflow") entry.offset
        entry.len = .ok (entry.offset + entry.len) := if_pos (by omega)
    have range := getRange_written (contentFormatError path "posting range out of bounds") before
      (postingBytes posting) after
    rw [start, size, ← whole] at range
    simp only [postingSlice, step, bind, Except.bind, range]
    rfl

end Opening

namespace Holds

variable {unicode : Unicode} {report : Bytes → String} {archive : MmapContentArchive}
  {postings : List ContentPosting}

/-- Postings with distinct canonical terms: one of them is the first with its term. -/
theorem find_canonical (holds : archive.Holds unicode postings) {posting : ContentPosting}
    (listed : posting ∈ postings) :
    postings.find? (fun other => canonicalTerm unicode other = canonicalTerm unicode posting) =
      some posting := by
  have distinct := holds.distinct
  clear holds
  induction postings with
  | nil => cases listed
  | cons first postings ih =>
      rw [map_cons, nodup_cons] at distinct
      rcases mem_cons.mp listed with rfl | later
      · exact find?_cons_of_pos (decide_eq_true rfl)
      · have other : ¬canonicalTerm unicode first = canonicalTerm unicode posting := fun same =>
          distinct.1 (same ▸ mem_map_of_mem later)
        rw [find?_cons_of_neg (by simpa using other)]
        exact ih later distinct.2

/-- Reading an entry of the directory with a reader of the bytes of a posting. -/
theorem postingAt_eq (holds : archive.Holds unicode postings) {entry : ContentDirectoryEntry}
    (listed : entry ∈ archive.directory) {read : Bytes → Except Fault LimitedContentPosting}
    {result : ContentPosting → LimitedContentPosting}
    (written : ∀ posting ∈ postings,
      read (writeContentPosting posting archive.version) = .ok (result posting))
    (sameTerm : ∀ posting, (result posting).posting.term = posting.term) :
    ∃ posting ∈ postings, entry.term = canonicalTerm unicode posting ∧
      archive.postingAt unicode read entry.term entry = .ok (result posting) := by
  rcases holds.located entry listed with ⟨posting, member, term, bytes⟩
  refine ⟨posting, member, term, ?_⟩
  have canonical : unicode.normalize (result posting).posting.term = entry.term := by
    rw [sameTerm, term]
    rfl
  simp only [postingAt, bytes, written posting member, bind, Except.bind, if_pos canonical]

theorem mem_terms (holds : archive.Holds unicode postings) {term : Text} :
    (∃ entry ∈ archive.directory, entry.term = term) ↔
      ∃ posting ∈ postings, canonicalTerm unicode posting = term := by
  rw [← mem_map, holds.terms, mem_map]
  simp only [(sortByKey_perm (canonicalTerm unicode) postings).mem_iff]

theorem find_none (holds : archive.Holds unicode postings) {term : Text}
    (none : ∀ entry ∈ archive.directory, compare entry.term term ≠ .eq) :
    postings.find? (fun posting => canonicalTerm unicode posting = term) = Option.none := by
  refine find?_eq_none.mpr fun posting listed same => ?_
  rcases holds.mem_terms.mpr ⟨posting, listed, of_decide_eq_true same⟩ with ⟨entry, member, equal⟩
  exact none entry member (Std.compare_eq_iff_eq.mpr equal)

theorem postingForTermLimit_eq (holds : archive.Holds unicode postings) (term : Text)
    (limit : Nat) :
    archive.postingForTermLimit unicode report term limit =
      .ok (match postingOf unicode postings term with
        | none => (none, false)
        | some posting =>
            (some (limited limit (storedAs archive.version posting)).posting,
              (limited limit (storedAs archive.version posting)).truncated)) := by
  by_cases empty : unicode.normalize term = []
  · simp only [postingForTermLimit, postingOf, if_pos empty]
  simp only [postingForTermLimit, postingOf, if_neg empty]
  rcases binarySearchByKey_spec holds.strict.ascending (unicode.normalize term) with
    ⟨index, entry, searched, place, same⟩ | ⟨searched, none⟩
  · have found : entry.term = unicode.normalize term := Std.compare_eq_iff_eq.mp same
    rcases holds.postingAt_eq (mem_of_getElem? place)
      (fun posting listed => readContentPostingLimited_written archive.path report
        archive.version (holds.fits posting listed) limit) (fun _ => rfl)
          with ⟨posting, member, known, read⟩
    have first := holds.find_canonical member
    rw [← known, found] at first
    rw [found] at read
    simp only [searched, Option.bind_some, place, read, first]
    rfl
  · simp only [searched, Option.bind_none, holds.find_none none]

theorem limited_usizeMax (version : ContentStoreVersion) {posting : ContentPosting}
    (fits : PostingFits posting) :
    (limited usizeMax (storedAs version posting)).posting = storedAs version posting := by
  have bound : isizeMax < usizeMax := by decide
  have room : (2 : Nat) ^ 64 = usizeMax + 1 := by decide
  have short := fits.ids.short
  have ids : (storedAs version posting).ids.length ≤ usizeMax := by
    have deduplicated := length_sortDedup_le posting.ids
    have sorted := (sortByKey_perm id posting.ids).length_eq
    simp only [storedAs]
    split <;> omega
  have positions : (storedAs version posting).positions.length ≤ usizeMax := by
    have entries := fits.positions
    have length := length_storedPositions posting.positions
    simp only [contentPositionsSize] at entries
    simp only [storedAs]
    split
    case isTrue => omega
    case isFalse => exact Nat.zero_le _
  simp only [limited, take_of_length_le ids, take_of_length_le positions]

/-- The lookup of a term gives the posting that the term stands for, in its stored form. -/
theorem postingForTerm_eq (holds : archive.Holds unicode postings) (term : Text) :
    archive.postingForTerm unicode report term =
      .ok ((postingOf unicode postings term).map (storedAs archive.version)) := by
  rw [postingForTerm, holds.postingForTermLimit_eq]
  cases found : postingOf unicode postings term with
  | none => rfl
  | some posting =>
      have listed := mem_of_postingOf found
      simp only [Except.map, Option.map_some, limited_usizeMax archive.version
        (holds.fits posting listed)]

/-- All postings, in the order of the directory. -/
theorem postings_eq (holds : archive.Holds unicode postings) :
    archive.postings report =
      .ok ((sortByKey (canonicalTerm unicode) postings).map (storedAs archive.version)) := by
  have sorted : ∀ posting ∈ sortByKey (canonicalTerm unicode) postings, posting ∈ postings :=
    fun posting listed => (sortByKey_perm _ _).mem_iff.mp listed
  have each : ∀ entry ∈ archive.directory, ∀ posting ∈ postings,
      entry.term = canonicalTerm unicode posting →
        ((archive.postingSlice entry).bind fun bytes =>
          ((readContentPosting archive.path report archive.version).run bytes).map Prod.fst) =
            .ok (storedAs archive.version posting) := by
    intro entry listed posting member same
    rcases holds.located entry listed with ⟨written, place, term, bytes⟩
    have equal : written = posting := by
      have first := holds.find_canonical place
      have second := holds.find_canonical member
      rw [← term, same] at first
      exact Option.some.inj (first.symm.trans second)
    have read := decodes_readContentPosting archive.path report archive.version
      (holds.fits posting member) []
    rw [append_nil] at read
    rw [bytes, equal]
    simp only [Except.bind, read]
    rfl
  have walk : ∀ (directory : List ContentDirectoryEntry) (others : List ContentPosting),
      directory.map ContentDirectoryEntry.term = others.map (canonicalTerm unicode) →
      (∀ entry ∈ directory, entry ∈ archive.directory) →
      (∀ posting ∈ others, posting ∈ postings) →
        directory.mapM (fun entry => (archive.postingSlice entry).bind fun bytes =>
          ((readContentPosting archive.path report archive.version).run bytes).map Prod.fst) =
            .ok (others.map (storedAs archive.version)) := by
    intro directory
    induction directory with
    | nil =>
        intro others same _ _
        rw [map_nil, eq_comm, map_eq_nil_iff] at same
        rw [same]
        rfl
    | cons entry directory ih =>
        intro others same inside written
        cases others with
        | nil => cases same
        | cons posting others =>
            rw [map_cons, map_cons, cons_eq_cons] at same
            have first := each entry (inside entry mem_cons_self) posting
              (written posting mem_cons_self) same.1
            have rest := ih others same.2
              (fun other listed => inside other (mem_cons_of_mem entry listed))
              fun other listed => written other (mem_cons_of_mem posting listed)
            rw [mapM_cons, first, rest]
            rfl
  exact walk archive.directory _ holds.terms (fun _ listed => listed) sorted

end Holds

end MmapContentArchive

section RoundTrip

/-- A written archive reads back as the postings in their stored form: in the order they were
written, in the order of their terms, or one by its term. -/
theorem writeContentPostings_roundTrip (unicode : Unicode) (path : Path)
    (report : Bytes → String) (postings : List ContentPosting)
    (fits : ArchiveFits unicode postings)
    (distinct : (postings.map (canonicalTerm unicode)).Nodup) :
    readContentPostings path report (writeContentPostings unicode postings) =
        .ok (postings.map storedPosting) ∧
      ∃ archive, MmapContentArchive.openArchive path report
          (writeContentPostings unicode postings) = .ok archive ∧
        archive.postings report =
          .ok ((sortByKey (canonicalTerm unicode) postings).map storedPosting) ∧
        ∀ term, archive.postingForTerm unicode report term =
          .ok ((postingOf unicode postings term).map storedPosting) := by
  rcases MmapContentArchive.openArchive_written unicode path report fits distinct with
    ⟨archive, opened, version, holds⟩
  have all := @holds.postings_eq _ report
  have each := @holds.postingForTerm_eq _ report
  rw [version] at all each
  exact ⟨readContentPostings_written unicode path report fits, archive, opened, all, each⟩

/-- Two postings that are not in the order of their terms. -/
def unsortedPostings : List ContentPosting :=
  [⟨"Beta".toList, [⟨⟨2⟩, 1⟩, ⟨⟨1⟩, 7⟩, ⟨⟨2⟩, 1⟩], [⟨⟨⟨1⟩, 7⟩, [4, 1, 4]⟩]⟩,
    ⟨"alpha".toList, [⟨⟨1⟩, 7⟩], []⟩]

def blankPostings : List ContentPosting := [⟨" ".toList, [⟨⟨1⟩, 7⟩], []⟩]

set_option maxRecDepth 4000 in
theorem fits_unsortedPostings : ArchiveFits Unicode.ascii unsortedPostings := by
  with_unfolding_all
    refine ⟨?_, by decide, by decide⟩
    simp only [unsortedPostings, forall_mem_cons]
    refine ⟨⟨by decide, ⟨by decide, by decide, by decide⟩, ?_, by decide⟩,
      ⟨by decide, ⟨by decide, by decide, by decide⟩, ?_, by decide⟩, nofun⟩
    · simp only [forall_mem_singleton]
      exact ⟨by decide, by decide, by decide⟩
    · exact nofun

theorem fits_blankPostings : ArchiveFits Unicode.ascii blankPostings := by
  with_unfolding_all
    refine ⟨?_, by decide, by decide⟩
    simp only [blankPostings, forall_mem_singleton]
    exact ⟨by decide, ⟨by decide, by decide, by decide⟩, nofun, by decide⟩

theorem writeContentPostings_roundTrip_unsorted :
    readContentPostings [] (fun _ => "") (writeContentPostings Unicode.ascii unsortedPostings) =
      .ok [⟨"Beta".toList, [⟨⟨1⟩, 7⟩, ⟨⟨2⟩, 1⟩], [⟨⟨⟨1⟩, 7⟩, [1, 4]⟩]⟩,
        ⟨"alpha".toList, [⟨⟨1⟩, 7⟩], []⟩] :=
  (writeContentPostings_roundTrip Unicode.ascii [] (fun _ => "") unsortedPostings
    fits_unsortedPostings (by decide +kernel)).1.trans (congrArg Except.ok (by decide +kernel))

/-- The sequential reader does not sort the terms, and a term without a canonical form is written
but never found. -/
theorem writeContentPostings_unsorted_blank :
    readContentPostings [] (fun _ => "") (writeContentPostings Unicode.ascii unsortedPostings) ≠
        .ok ((sortByKey (canonicalTerm Unicode.ascii) unsortedPostings).map storedPosting) ∧
      ∃ archive, MmapContentArchive.openArchive [] (fun _ => "")
          (writeContentPostings Unicode.ascii blankPostings) = .ok archive ∧
        archive.postingForTerm Unicode.ascii (fun _ => "") " ".toList = .ok none := by
  refine ⟨fun same => ?_, ?_⟩
  · rw [readContentPostings_written Unicode.ascii [] (fun _ => "") fits_unsortedPostings] at same
    have different : unsortedPostings.map storedPosting ≠
        (sortByKey (canonicalTerm Unicode.ascii) unsortedPostings).map storedPosting := by
      decide +kernel
    exact different (Except.ok.inj same)
  · rcases MmapContentArchive.openArchive_written Unicode.ascii [] (fun _ => "")
      fits_blankPostings (by decide +kernel) with ⟨archive, opened, version, holds⟩
    refine ⟨archive, opened, (holds.postingForTerm_eq _).trans (congrArg Except.ok ?_)⟩
    rw [version]
    decide +kernel

end RoundTrip

end Gfm.Store

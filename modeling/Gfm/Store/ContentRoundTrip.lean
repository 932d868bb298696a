import Gfm.Lib.IndexedArchive
import Gfm.Store.ContentReading

/-!
# Both readers over a written content archive

The sequential reader gives the postings in their stored form, in the order they were written.
The mapped archive opens; its directory leads from each canonical term to the bytes of the
posting that was written for it.
-/

namespace Gfm.Store

open IndexedArchive List Sorted Wire

/-- Postings that a program can hold and write: the numbers have the widths of the source, and
the vectors and the archive are objects. -/
structure ArchiveFits (unicode : Unicode) (postings : List ContentPosting) : Prop where
  each : ∀ posting ∈ postings, PostingFits posting
  count : postings.length ≤ isizeMax
  written : (writeContentPostings unicode postings).length ≤ isizeMax

section Sequential

variable (unicode : Unicode) (path : Path) (report : Bytes → String)
  {postings : List ContentPosting}

theorem contentVersion_magicV5 : contentVersion path contentMagicV5 = .ok .indexedChecksummed :=
  if_pos rfl

theorem verifyContentChecksum_written (postings : List ContentPosting) :
    verifyContentChecksum path (writeContentPostings unicode postings) .indexedChecksummed =
      .ok () := by
  have version : ContentStoreVersion.indexedChecksummed.hasChecksum = true := rfl
  rw [verifyContentChecksum, if_pos version, writeContentPostings, verifyChecksumFooter_written]

theorem decodes_readPostings (fits : ArchiveFits unicode postings) :
    Decodes (readPostings path report .indexedChecksummed)
      (writeVarint postings.length ++ postings.flatMap postingBytes)
      (postings.map storedPosting) := by
  have bound : isizeMax < 2 ^ 64 := by decide
  refine (decodes_readNumber path (Nat.lt_of_le_of_lt fits.count bound)).bind ?_
  exact decodes_readEach fun posting listed =>
    decodes_readContentPosting path report .indexedChecksummed (fits.each posting listed)

/-- The sequential reader on a written archive. -/
theorem readContentPostings_written (fits : ArchiveFits unicode postings) :
    readContentPostings path report (writeContentPostings unicode postings) =
      .ok (postings.map storedPosting) := by
  have magicLength : contentMagicV1.length = contentMagicV5.length := by decide +kernel
  generalize rest : directoryBytes (contentDirectory unicode postings) ++
    (leBytes 8 (archivePostings postings).length ++ contentIndexFooter) ++
      checksumFooter contentChecksumFooter (archiveBody unicode postings) = tail
  have shape : writeContentPostings unicode postings = contentMagicV5 ++
      (writeVarint postings.length ++ postings.flatMap postingBytes ++ tail) := by
    rw [← rest, writeContentPostings]
    simp only [archiveBody, archivePostings, archiveHead, append_assoc]
  have magic := decodes_readExact (ended path) contentMagicV5
    (writeVarint postings.length ++ postings.flatMap postingBytes ++ tail)
  rw [← shape, ← magicLength] at magic
  have read := decodes_readPostings unicode path report fits tail
  simp only [readContentPostings, magic, contentVersion_magicV5, verifyContentChecksum_written,
    bind, Except.bind, read]

end Sequential

section Directory

variable (unicode : Unicode) {postings : List ContentPosting}

def contentDirectoryEntry (posting : ContentPosting) (offset len : Nat) : ContentDirectoryEntry :=
  ⟨unicode.normalize posting.term, offset, len⟩

theorem directoryFrom_eq (offset : Nat) (postings : List ContentPosting) :
    directoryFrom unicode offset postings =
      entriesFrom postingBytes (contentDirectoryEntry unicode) offset postings := by
  induction postings generalizing offset with
  | nil => rfl
  | cons posting postings ih =>
      rw [directoryFrom, ih]
      rfl

/-- What a directory entry says of a posting in the bytes. -/
structure Locates (unicode : Unicode) (bytes : Bytes) (entry : ContentDirectoryEntry)
    (posting : ContentPosting) : Prop where
  term : entry.term = unicode.normalize posting.term
  place : ∃ before after, bytes = before ++ postingBytes posting ++ after ∧
    before.length = entry.offset ∧ (postingBytes posting).length = entry.len

/-- Every entry says where the bytes of a posting are. -/
theorem exists_locates (before after : Bytes) {entry : ContentDirectoryEntry}
    (listed : entry ∈ directoryFrom unicode before.length postings) :
    ∃ posting ∈ postings,
      Locates unicode (before ++ postings.flatMap postingBytes ++ after) entry posting := by
  rw [directoryFrom_eq] at listed
  rcases exists_item_of_mem_entriesFrom _ _ listed with ⟨index, posting, known, rfl⟩
  refine ⟨posting, mem_of_getElem? known, rfl,
    before ++ (postings.take index).flatMap postingBytes,
    (postings.drop (index + 1)).flatMap postingBytes ++ after, ?_, ?_, rfl⟩
  · rw [flatMap_eq_of_getElem? known]
    simp only [append_assoc]
  · rw [length_append]
    rfl

theorem map_term_directoryFrom (offset : Nat) (postings : List ContentPosting) :
    (directoryFrom unicode offset postings).map ContentDirectoryEntry.term =
      postings.map fun posting => unicode.normalize posting.term := by
  rw [directoryFrom_eq]
  exact map_entriesFrom postingBytes (contentDirectoryEntry unicode) ContentDirectoryEntry.term
    (fun posting => unicode.normalize posting.term) (fun _ _ _ => rfl) offset postings

theorem directoryFrom_within (offset : Nat) (postings : List ContentPosting) :
    ∀ entry ∈ directoryFrom unicode offset postings,
      entry.offset + entry.len ≤ offset + (postings.flatMap postingBytes).length := by
  intro entry listed
  rw [directoryFrom_eq] at listed
  rcases exists_item_of_mem_entriesFrom _ _ listed with ⟨index, posting, known, rfl⟩
  have within := @offset_add_length_le _ postingBytes _ _ _ known
  simp only [contentDirectoryEntry]
  omega

end Directory

section Mapped

variable (unicode : Unicode) (path : Path) (report : Bytes → String)
  {postings : List ContentPosting}

/-- The directory and the footers. -/
def archiveTail (unicode : Unicode) (postings : List ContentPosting) : Bytes :=
  directoryBytes (contentDirectory unicode postings) ++
    (leBytes 8 (archivePostings postings).length ++ contentIndexFooter)

theorem length_archiveBody (fits : ArchiveFits unicode postings) :
    (archivePostings postings).length +
      (directoryBytes (contentDirectory unicode postings)).length < isizeMax := by
  have written := fits.written
  simp only [writeContentPostings, archiveBody, length_append, length_leBytes] at written
  omega

theorem length_writeTerm_le {directory : List ContentDirectoryEntry}
    {entry : ContentDirectoryEntry} (listed : entry ∈ directory) :
    (LineLog.encodeText entry.term).length ≤ (directoryBytes directory).length := by
  have part : (writeDirectoryEntry entry).length ≤ (directory.flatMap writeDirectoryEntry).length :=
    (sublist_flatten_of_mem (mem_map_of_mem listed)).length_le
  simp only [writeDirectoryEntry, writeTerm, directoryBytes, length_append] at part ⊢
  omega

theorem decodes_readDirectoryEntry {entry : ContentDirectoryEntry}
    (term : (LineLog.encodeText entry.term).length ≤ isizeMax) (offset : entry.offset < 2 ^ 64)
    (len : entry.len < 2 ^ 64) :
    Decodes (readDirectoryEntry path report) (writeDirectoryEntry entry) entry := by
  refine (decodes_readTerm path report "directory term" term).bind ?_
  refine (decodes_readNumber path offset).bind ?_
  exact (decodes_readNumber path len).andThen (Decodes.pure entry)

theorem decodes_readDirectory (fits : ArchiveFits unicode postings) :
    Decodes (readDirectory path report) (directoryBytes (contentDirectory unicode postings))
      (contentDirectory unicode postings) := by
  have perm := sortByKey_perm ContentDirectoryEntry.term
    (directoryFrom unicode (archiveHead postings).length postings)
  have bound : isizeMax < 2 ^ 64 := by decide
  have size := length_archiveBody unicode fits
  have count : (contentDirectory unicode postings).length < 2 ^ 64 := by
    rw [contentDirectory, perm.length_eq, directoryFrom_eq, length_entriesFrom]
    exact Nat.lt_of_le_of_lt fits.count bound
  have each : ∀ entry ∈ contentDirectory unicode postings,
      Decodes (readDirectoryEntry path report) (writeDirectoryEntry entry) (id entry) := by
    intro entry listed
    have term := length_writeTerm_le listed
    have within := directoryFrom_within unicode (archiveHead postings).length postings entry
      (perm.mem_iff.mp listed)
    rw [archivePostings, length_append] at size
    exact decodes_readDirectoryEntry path report (by omega) (by omega) (by omega)
  have entries := decodes_readEach each
  rw [map_id] at entries
  exact (decodes_readNumber path count).bind entries

theorem writeContentPostings_eq (postings : List ContentPosting) :
    writeContentPostings unicode postings = archivePostings postings ++
      (archiveTail unicode postings ++
        checksumFooter contentChecksumFooter (archiveBody unicode postings)) := by
  rw [writeContentPostings, archiveTail, archiveBody]
  simp only [append_assoc]

/-- The directory is found through the footer. -/
theorem readContentDirectory_written (fits : ArchiveFits unicode postings) :
    readContentDirectory path report (writeContentPostings unicode postings) =
      .ok (contentDirectory unicode postings) := by
  have size := length_archiveBody unicode fits
  have bound : isizeMax < 256 ^ 8 := by decide
  have bodyLength : (archiveBody unicode postings).length = (archivePostings postings).length +
      (directoryBytes (contentDirectory unicode postings)).length + contentFooterLen := by
    simp only [archiveBody, length_append, length_leBytes, contentFooterLen]
    omega
  have total : (writeContentPostings unicode postings).length =
      (archiveBody unicode postings).length + (4 + contentChecksumFooter.length) := by
    rw [writeContentPostings, length_append, length_checksumFooter]
  have magic : contentMagicV2.length ≤ (archivePostings postings).length := by
    have same : contentMagicV2.length = contentMagicV5.length := by decide +kernel
    rw [same, archivePostings, archiveHead, length_append, length_append]
    omega
  have checked : hasChecksumFooter contentChecksumFooter (writeContentPostings unicode postings) =
      true := hasChecksumFooter_written _ _
  have indexed : contentIndexedLen path (writeContentPostings unicode postings) =
      .ok (archiveBody unicode postings).length := by
    rw [contentIndexedLen, if_pos checked, total, Nat.add_sub_cancel]
  have archive : (writeContentPostings unicode postings).take
      (archiveBody unicode postings).length = archiveBody unicode postings := by
    rw [writeContentPostings, take_left]
  have footerOffset : (archiveBody unicode postings).length - contentFooterLen =
      (archivePostings postings).length +
        (directoryBytes (contentDirectory unicode postings)).length := footer_archive _ _ _
  have offset : ofLeBytes (((archiveBody unicode postings).drop
      ((archivePostings postings).length +
        (directoryBytes (contentDirectory unicode postings)).length)).take 8) =
          (archivePostings postings).length := by
    have found := offset_archive (archivePostings postings)
      (directoryBytes (contentDirectory unicode postings)) contentIndexFooter (by omega) []
    rwa [append_nil] at found
  have footer : (archiveBody unicode postings).drop ((archivePostings postings).length +
      (directoryBytes (contentDirectory unicode postings)).length + 8) = contentIndexFooter :=
    magic_archive _ _ _
  have directory : ((archiveBody unicode postings).take ((archivePostings postings).length +
      (directoryBytes (contentDirectory unicode postings)).length)).drop
        (archivePostings postings).length = directoryBytes (contentDirectory unicode postings) :=
    directory_archive _ _ _
  have filled : (directoryBytes (contentDirectory unicode postings)).length ≠ 0 := by
    rw [directoryBytes, length_append]
    have some := length_pos_iff.mpr
      (writeVarint_ne_nil (contentDirectory unicode postings).length)
    omega
  have long : ¬(writeContentPostings unicode postings).length <
      contentMagicV2.length + contentFooterLen := by omega
  have longBody : ¬(archiveBody unicode postings).length < contentFooterLen := by omega
  have before : ¬(archivePostings postings).length +
      (directoryBytes (contentDirectory unicode postings)).length ≤
        (archivePostings postings).length := by omega
  have read := decodes_readDirectory unicode path report fits []
  rw [append_nil] at read
  simp only [readContentDirectory, if_neg long, indexed, archive, if_neg longBody, footerOffset,
    footer, offset, ne_eq, not_true_eq_false, if_false, if_neg before, directory, read, bind,
    Except.bind]
  rfl

end Mapped

end Gfm.Store

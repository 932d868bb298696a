import Gfm.Store.KeyedRoundTrip

/-!
# Archives of ids under texts

The prefix archive and the substring archive are written alike: a posting under the normal form of
its text, an entry of the directory under the text as it is, with eight bytes for its offset and
eight for its length. They differ in their magic bytes, in the texts that a lookup goes by and in
the words of their errors.
-/

namespace Gfm.Store

open IndexedArchive Sorted Wire

/-- `trim().to_ascii_lowercase()`. -/
def asciiNormal (unicode : Unicode) (text : Text) : Text := (unicode.trim text).map asciiLower

/-- What an archive under texts has of its own. -/
structure TextArchive where
  label : String
  magic : Bytes
  indexFooter : Bytes
  checksumFooter : Bytes
  invalidHeader : String
  invalidEntry : String
  unsorted : String

namespace TextArchive

variable (kind : TextArchive) (unicode : Unicode) (report : Bytes → String) (path : Path)

section Format

def formatError (reason : String) : Fault :=
  .error (.format ("invalid " ++ kind.label ++ " store " ++ path.display ++ ": " ++ reason))

def readText (invalid : String) : Reader Fault Text := do
  let length ← readNumber path
  let bytes ← readBytes path length
  match LineLog.decodeText bytes with
  | none => fail (kind.formatError path (invalid ++ ": " ++ report bytes))
  | some text => pure text

def writeDirectoryEntry (entry : KeyedDirectoryEntry Text) : Bytes :=
  writeTerm entry.key ++ (leBytes 8 entry.offset ++ leBytes 8 entry.len)

def readDirectoryEntry : Reader Fault (KeyedDirectoryEntry Text) := do
  let key ← kind.readText report path kind.invalidEntry
  let offset ← readExact (ended path) 8
  let len ← readExact (ended path) 8
  pure ⟨key, ofLeBytes offset, ofLeBytes len⟩

def format : KeyedFormat Text where
  magic := kind.magic
  indexFooter := kind.indexFooter
  checksumFooter := kind.checksumFooter
  writeKey text := writeTerm (asciiNormal unicode text)
  writeDirectoryEntry := writeDirectoryEntry
  readKey path := kind.readText report path kind.invalidHeader
  readDirectoryEntry := kind.readDirectoryEntry report
  readIds := readBlockedFileIds
  readIdsLimited path bytes limit :=
    (readBlockedFileIdsLimitedReport path bytes limit).map BlockedFileIdsLimitedReport.ids
  formatError := kind.formatError
  wrongPosting := kind.label ++ " directory points at the wrong posting"
  unsorted := kind.unsorted

def write (postings : List (KeyedPosting Text)) : Bytes :=
  (kind.format unicode fun _ => "").write postings

end Format

section Opening

def verifyChecksum (bytes : Bytes) : Except Fault Unit :=
  match verifyChecksumFooter path kind.label kind.checksumFooter bytes with
  | .error error => .error (.error error)
  | .ok true => .ok ()
  | .ok false => .error (kind.formatError path ("missing " ++ kind.label ++ " checksum footer"))

def indexedLen (bytes : Bytes) : Except Fault Nat :=
  if hasChecksumFooter kind.checksumFooter bytes then
    .ok (bytes.length - (4 + kind.checksumFooter.length))
  else .error (kind.formatError path ("missing " ++ kind.label ++ " checksum footer"))

/-- The magic bytes of the footer are passed over, not read. -/
def readDirectory (bytes : Bytes) : Except Fault (List (KeyedDirectoryEntry Text)) := do
  let indexedLen ← kind.indexedLen path bytes
  if indexedLen < kind.indexFooter.length + 8 then
    .error (kind.formatError path ("missing " ++ kind.label ++ " directory footer"))
  else
    let footerStart := indexedLen - kind.indexFooter.length - 8
    let directoryOffset := ofLeBytes ((bytes.drop footerStart).take 8)
    if footerStart ≤ directoryOffset then
      .error (kind.formatError path ("invalid " ++ kind.label ++ " directory offset"))
    else do
      let (directory, _) ← ((kind.format unicode report).readDirectoryEntries path).run
        ((bytes.take footerStart).drop directoryOffset)
      .ok (sortByKey KeyedDirectoryEntry.key directory)

def openArchive (mmap : Bytes) : Except Fault (MmapKeyedArchive Text) :=
  if ¬kind.magic <+: mmap then
    .error (kind.formatError path ("unsupported " ++ kind.label ++ " header"))
  else do
    kind.verifyChecksum path mmap
    let directory ← kind.readDirectory unicode report path mmap
    .ok { path, mmap, directory }

end Opening

section Written

variable {kind unicode}

theorem decodes_readText (invalid : String) {text : Text}
    (short : (writeTerm text).length ≤ isizeMax) :
    Decodes (kind.readText report path invalid) (writeTerm text) text := by
  have bytes : (LineLog.encodeText text).length ≤ isizeMax := by
    rw [writeTerm, List.length_append] at short
    omega
  refine (decodes_readNumber path (Nat.lt_of_le_of_lt bytes (by decide))).bind ?_
  refine (decodes_readBytes path bytes).andThen ?_
  rw [LineLog.decodeText_encodeText]
  exact Decodes.pure text

theorem decodes_leBytes {number : Nat} (fits : number < 2 ^ 64) :
    Decodes (readExact (ended path) 8) (leBytes 8 number) (leBytes 8 number) ∧
      ofLeBytes (leBytes 8 number) = number := by
  have read := decodes_readExact (ended path) (leBytes 8 number)
  rw [length_leBytes] at read
  exact ⟨read, ofLeBytes_leBytes fits⟩

theorem lawful_format : (kind.format unicode report).Lawful (asciiNormal unicode) where
  readKey path text short := decodes_readText report path _ short
  readDirectoryEntry path entry short offset len := by
    rcases decodes_leBytes path offset with ⟨offsetRead, offsetSame⟩
    rcases decodes_leBytes path len with ⟨lenRead, lenSame⟩
    have text : (writeTerm entry.key).length ≤ isizeMax :=
      Nat.le_trans (List.sublist_append_left _ _).length_le short
    refine (decodes_readText report path _ text).bind ?_
    refine offsetRead.bind ?_
    refine lenRead.andThen ?_
    rw [offsetSame, lenSame]
    exact Decodes.pure entry
  readIds path _ writable := decodes_readBlockedFileIds path writable
  readIdsLimited path ids limit writable := by
    have read := readBlockedFileIdsLimitedReport_written path writable [] limit
    rw [List.append_nil] at read
    exact congrArg (Except.map BlockedFileIdsLimitedReport.ids) read

variable {postings : List (KeyedPosting Text)}

theorem write_eq : kind.write unicode postings = (kind.format unicode report).write postings :=
  KeyedFormat.write_congr _ _ rfl rfl rfl rfl rfl

variable (fits : KeyedObject (kind.format unicode report) postings)
include fits

theorem keyedObject_report (other : Bytes → String) :
    KeyedObject (kind.format unicode other) postings where
  ids := fits.ids
  short := fits.short
  written := by
    rw [← write_eq, write_eq report]
    exact fits.written

/-- The directory is found through the footers. -/
theorem readDirectory_written :
    kind.readDirectory unicode report path ((kind.format unicode report).write postings) =
      .ok ((kind.format unicode report).directory postings) := by
  have footerLength : (kind.format unicode report).indexFooter.length =
    kind.indexFooter.length := rfl
  have length := (kind.format unicode report).length_body postings
  have front := (kind.format unicode report).front_lt_footerStart postings
  have checked : hasChecksumFooter kind.checksumFooter
      ((kind.format unicode report).write postings) = true :=
    (kind.format unicode report).hasChecksumFooter_write postings
  have indexed : kind.indexedLen path ((kind.format unicode report).write postings) =
      .ok ((kind.format unicode report).body postings).length := by
    rw [indexedLen, if_pos checked]
    exact congrArg Except.ok
      (Nat.sub_eq_of_eq_add ((kind.format unicode report).length_write postings))
  have long : ¬((kind.format unicode report).body postings).length <
      kind.indexFooter.length + 8 := by omega
  have footer : ((kind.format unicode report).body postings).length -
      kind.indexFooter.length - 8 = (kind.format unicode report).footerStart postings := by omega
  have ordered : sortByKey KeyedDirectoryEntry.key
      ((kind.format unicode report).directory postings) =
        (kind.format unicode report).directory postings :=
    (ascending_directory _ _).insertionSort_eq
  simp only [readDirectory, indexed, bind, Except.bind, if_neg long, footer, fits.offset_write,
    if_neg (Nat.not_le.mpr front), KeyedFormat.directory_write,
    fits.readDirectoryEntries_written path (lawful_format report), ordered]

theorem openArchive_written :
    kind.openArchive unicode report path (kind.write unicode postings) =
      .ok (writtenArchive (kind.format unicode report) postings path) := by
  rw [write_eq report]
  have headed : kind.magic <+: (kind.format unicode report).write postings := by
    simp only [KeyedFormat.write, KeyedFormat.body, archive, KeyedFormat.front, KeyedFormat.head,
      List.append_assoc]
    exact List.prefix_append _ _
  have checksum : kind.verifyChecksum path ((kind.format unicode report).write postings) =
      .ok () := by
    have verified : verifyChecksumFooter path kind.label kind.checksumFooter
        ((kind.format unicode report).write postings) = .ok true :=
      verifyChecksumFooter_written kind.checksumFooter _ path kind.label
    rw [verifyChecksum, verified]
  rw [openArchive, if_neg (not_not_intro headed), writtenArchive]
  simp only [checksum, readDirectory_written report path fits, bind, Except.bind]

end Written

section Normal

variable {unicode}
  (letters : ∀ char : Char, char.isAlpha → unicode.isWhitespace char = false)
include letters

theorem isWhitespace_asciiLower (char : Char) :
    unicode.isWhitespace (asciiLower char) = unicode.isWhitespace char := by
  refine asciiLower_cases (motive := fun char lower =>
    unicode.isWhitespace lower = unicode.isWhitespace char) ?_ (fun _ _ => rfl) char
  intro offset below
  have upper : ∀ offset < 26, (Char.ofNat (65 + offset)).isAlpha = true := by decide
  have lower : ∀ offset < 26, (Char.ofNat (97 + offset)).isAlpha = true := by decide
  rw [letters _ (upper offset below), letters _ (lower offset below)]

theorem asciiNormal_idem (text : Text) :
    asciiNormal unicode (asciiNormal unicode text) = asciiNormal unicode text := by
  have same : unicode.isWhitespace ∘ asciiLower = unicode.isWhitespace :=
    funext (isWhitespace_asciiLower letters)
  have trimmed : unicode.trim ((unicode.trim text).map asciiLower) =
      (unicode.trim (unicode.trim text)).map asciiLower := by
    simp only [Unicode.trim, trimWith, List.rdropWhile, List.dropWhile_map, same,
      ← List.map_reverse]
  rw [asciiNormal, asciiNormal, trimmed, Unicode.trim, Unicode.trim, trimWith_idem, List.map_map]
  exact List.map_congr_left fun char _ => asciiLower_idem char

end Normal

theorem letters_ascii (char : Char) (alpha : char.isAlpha) :
    Unicode.ascii.isWhitespace char = false := by
  have letter : 65 ≤ char.toNat ∧ char.toNat ≤ 90 ∨ 97 ≤ char.toNat ∧ char.toNat ≤ 122 := by
    simpa [Char.isAlpha, Char.isUpper, Char.isLower, UInt32.le_iff_toNat_le] using alpha
  change decide (char.toNat = 32 ∨ 9 ≤ char.toNat ∧ char.toNat ≤ 13) = false
  rw [decide_eq_false_iff_not]
  omega

end TextArchive

end Gfm.Store

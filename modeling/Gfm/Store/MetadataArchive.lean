import Gfm.Store.KeyedPostings
import Gfm.Store.Records

/-!
# The metadata archive

Records are listed under their tags and under the words of their comments, two kinds of terms in
one table. The terms are put in lower case as whole texts when they are written, and character by
character when they are looked up.
-/

namespace Gfm.Store

open Postings SliceSearch Sorted Std Wire

inductive MetadataField where
  | tag
  | comment
  deriving DecidableEq

structure MetadataKey where
  field : MetadataField
  term : Text
  deriving DecidableEq

/-- The place of a field in the order of the fields. -/
def MetadataField.rank : MetadataField → Nat
  | .tag => 0
  | .comment => 1

instance : Ord MetadataKey :=
  ⟨compareLex (compareOn fun key : MetadataKey => key.field.rank) (compareOn MetadataKey.term)⟩

instance : TransOrd MetadataKey :=
  inferInstanceAs (TransCmp
    (compareLex (compareOn fun key : MetadataKey => key.field.rank) (compareOn MetadataKey.term)))

instance : LawfulEqOrd MetadataKey where
  eq_of_compare {left right} same := by
    rcases left with ⟨leftField, leftTerm⟩
    rcases right with ⟨rightField, rightTerm⟩
    rcases Ordering.then_eq_eq.mp same with ⟨field, term⟩
    have ranks : leftField.rank = rightField.rank := LawfulEqOrd.eq_of_compare field
    have fields : leftField = rightField := by
      cases leftField <;> cases rightField <;> first | rfl | cases ranks
    have terms : leftTerm = rightTerm := LawfulEqOrd.eq_of_compare term
    rw [fields, terms]

def metadataMagicV1 : Bytes := LineLog.encodeText "gfm-metadata-v1\n".toList

def metadataMagicV2 : Bytes := LineLog.encodeText "gfm-metadata-v2\n".toList

def metadataMagicV3 : Bytes := LineLog.encodeText "gfm-metadata-v3\n".toList

def metadataIndexFooter : Bytes := LineLog.encodeText "gfm-metadata-index-v1\n".toList

def metadataChecksumFooter : Bytes := LineLog.encodeText "gfm-metadata-checksum-v1\n".toList

/-- The footer of the directory: its offset, then its magic. -/
def metadataFooterLen : Nat := 8 + metadataIndexFooter.length

inductive MetadataStoreVersion where
  | v1
  | v2
  | v3
  deriving DecidableEq

/-- Only the last version ends with a checksum. -/
def MetadataStoreVersion.hasChecksum : MetadataStoreVersion → Bool
  | .v3 => true
  | _ => false

abbrev MetadataPosting := KeyedPosting MetadataKey

abbrev LimitedMetadataPosting := LimitedKeyedPosting MetadataKey

abbrev MetadataDirectoryEntry := KeyedDirectoryEntry MetadataKey

structure MmapMetadataArchive extends MmapKeyedArchive MetadataKey where
  version : MetadataStoreVersion

/-- Tags and comments of a record that come from elsewhere than its own entry. -/
structure SecondaryMetadataRecord where
  id : FileId64
  tags : List Text
  comments : List Text

section Records

variable (unicode : Unicode) (postings : PostingMap MetadataKey FileId)

/-- A tag is listed whole, in lower case, unless it is blank. -/
def indexTags (id : FileId) (tags : List Text) : PostingMap MetadataKey FileId :=
  addEach postings (((tags.map unicode.lowercaseTerm).filter fun tag => !tag.isEmpty).map fun tag =>
    ⟨.tag, tag⟩) id

/-- A comment is listed under each of its tokens. -/
def indexComment (id : FileId) (comment : Text) : PostingMap MetadataKey FileId :=
  addEach postings ((unicode.tokenize (unicode.lowercaseTerm comment)).map fun token =>
    ⟨.comment, token⟩) id

def indexRecord (record : FileRecord) : PostingMap MetadataKey FileId :=
  let postings := indexTags unicode postings record.id.val record.tags
  match record.finderComment with
  | none => postings
  | some comment => indexComment unicode postings record.id.val comment

def indexSecondary (record : SecondaryMetadataRecord) : PostingMap MetadataKey FileId :=
  record.comments.foldl
    (fun postings comment => indexComment unicode postings record.id.val comment)
    (indexTags unicode postings record.id.val record.tags)

/-- The records are listed first, then what is known of them from elsewhere. -/
def metadataPostingsFromRecordsAndSecondary (records : List FileRecord)
    (secondary : List SecondaryMetadataRecord) : List MetadataPosting :=
  postingsOfMap (secondary.foldl (indexSecondary unicode)
    (records.foldl (indexRecord unicode) ∅))

end Records

section Format

variable (report : Bytes → String) (path : Path)

def metadataFormatError (reason : String) : Fault :=
  .error (.format ("invalid metadata store " ++ path.display ++ ": " ++ reason))

def metadataFieldCode : MetadataField → UInt8
  | .tag => 't'.toNat.toUInt8
  | .comment => 'c'.toNat.toUInt8

def metadataFieldFromCode (value : UInt8) : Except Fault MetadataField :=
  if value = 't'.toNat.toUInt8 then .ok .tag
  else if value = 'c'.toNat.toUInt8 then .ok .comment
  else .error (metadataFormatError path "invalid metadata field")

def writeMetadataKey (key : MetadataKey) : Bytes :=
  metadataFieldCode key.field :: writeTerm key.term

def readMetadataPostingHeader : Reader Fault MetadataKey := do
  let code ← readByte (ended path)
  let field ← liftM (metadataFieldFromCode path code)
  let termLen ← readNumber path
  let bytes ← readBytes path termLen
  match LineLog.decodeText bytes with
  | none =>
      fail (.error (.format
        ("invalid UTF-8 metadata term in " ++ path.display ++ ": " ++ report bytes)))
  | some term => pure ⟨field, term⟩

def writeMetadataDirectoryEntry (entry : MetadataDirectoryEntry) : Bytes :=
  writeMetadataKey entry.key ++ (writeVarint entry.offset ++ writeVarint entry.len)

def readMetadataDirectoryEntry : Reader Fault MetadataDirectoryEntry := do
  let key ← readMetadataPostingHeader report path
  let offset ← readNumber path
  let len ← readNumber path
  pure ⟨key, offset, len⟩

/-- The ids of the first version, each as the difference to the one before it. -/
def readMetadataFileIds (limit : Nat) : Reader Fault (List FileId) := do
  let idCount ← readNumber path
  readChain (readIdAfter path (metadataFormatError path "volume id overflow")
    (metadataFormatError path "file node id overflow")) id (min idCount limit) firstId

def readMetadataIds : MetadataStoreVersion → Path → Reader Fault (List FileId)
  | .v1, path => readMetadataFileIds path (2 ^ 64 - 1)
  | .v2, path | .v3, path => readBlockedFileIds path

/-- The first version stops behind the limit; the later ones go by their blocks. -/
def readMetadataIdsLimited : MetadataStoreVersion → Path → Bytes → Nat →
    Except Fault (List FileId)
  | .v1, path, bytes, limit => ((readMetadataFileIds path limit).run bytes).map Prod.fst
  | .v2, path, bytes, limit | .v3, path, bytes, limit =>
      (readBlockedFileIdsLimitedReport path bytes limit).map BlockedFileIdsLimitedReport.ids

end Format

/-- The format as the keyed archives take it; only the last version is written. -/
def metadataFormat (report : Bytes → String) (version : MetadataStoreVersion) :
    KeyedFormat MetadataKey where
  magic := metadataMagicV3
  indexFooter := metadataIndexFooter
  checksumFooter := metadataChecksumFooter
  writeKey := writeMetadataKey
  writeDirectoryEntry := writeMetadataDirectoryEntry
  readKey := readMetadataPostingHeader report
  readDirectoryEntry := readMetadataDirectoryEntry report
  readIds := readMetadataIds version
  readIdsLimited := readMetadataIdsLimited version
  formatError := metadataFormatError
  wrongPosting := "metadata directory points at the wrong posting"
  unsorted := "batch metadata lookup terms must be sorted"

def writeMetadataPostings (postings : List MetadataPosting) : Bytes :=
  (metadataFormat (fun _ => "") .v3).write postings

section Opening

variable (report : Bytes → String) (path : Path)

/-- The version that the first line names. -/
def metadataVersion (magic : Bytes) : Except Fault MetadataStoreVersion :=
  if magic = metadataMagicV3 then .ok .v3
  else if magic = metadataMagicV2 then .ok .v2
  else if magic = metadataMagicV1 then .ok .v1
  else .error (metadataFormatError path "unsupported metadata header")

/-- An archive of the last version without its checksum is not opened. -/
def verifyMetadataChecksum (bytes : Bytes) (version : MetadataStoreVersion) : Except Fault Unit :=
  if version.hasChecksum then
    match verifyChecksumFooter path "metadata" metadataChecksumFooter bytes with
    | .error error => .error (.error error)
    | .ok true => .ok ()
    | .ok false => .error (metadataFormatError path "missing metadata checksum footer")
  else .ok ()

/-- The length of an archive without its checksum, which an older one need not have. -/
def metadataIndexedLen (bytes : Bytes) : Except Fault Nat :=
  let footerLen := 4 + metadataChecksumFooter.length
  if bytes.length < footerLen then .ok bytes.length
  else if bytes.drop (bytes.length - footerLen + 4) = metadataChecksumFooter then
    .ok (bytes.length - footerLen)
  else if metadataMagicV3 <+: bytes then
    .error (metadataFormatError path "missing metadata checksum footer")
  else .ok bytes.length

/-- The directory stands between the offset in the footer and the footer. -/
def readMetadataDirectory (bytes : Bytes) : Except Fault (List MetadataDirectoryEntry) :=
  if bytes.length < metadataMagicV1.length + metadataFooterLen then
    .error (metadataFormatError path "missing metadata directory footer")
  else do
    let indexedLen ← metadataIndexedLen path bytes
    let archiveBytes := bytes.take indexedLen
    if archiveBytes.length < metadataFooterLen then
      .error (metadataFormatError path "missing metadata directory footer")
    else
      let footerOffset := archiveBytes.length - metadataFooterLen
      let directoryOffset := ofLeBytes ((archiveBytes.drop footerOffset).take 8)
      if archiveBytes.drop (footerOffset + 8) ≠ metadataIndexFooter then
        .error (metadataFormatError path "missing metadata directory footer")
      else if footerOffset ≤ directoryOffset then
        .error (metadataFormatError path "invalid metadata directory offset")
      else do
        let (directory, _) ← ((metadataFormat report .v3).readDirectoryEntries path).run
          ((archiveBytes.take footerOffset).drop directoryOffset)
        .ok directory

/-- An archive is opened by its version, its checksum and its directory, in this order. -/
def MmapMetadataArchive.openArchive (mmap : Bytes) : Except Fault MmapMetadataArchive :=
  if mmap.length < metadataMagicV1.length then
    .error (metadataFormatError path "unsupported metadata header")
  else do
    let version ← metadataVersion path (mmap.take metadataMagicV1.length)
    verifyMetadataChecksum path mmap version
    let directory ← readMetadataDirectory report path mmap
    .ok { path, mmap, directory, version }

end Opening

namespace MmapMetadataArchive

variable (unicode : Unicode) (report : Bytes → String) (search : Search MetadataKey)
  (archive : MmapMetadataArchive) (field : MetadataField)

/-- The key that a lookup of a term goes by: the lower case of its characters, unless blank. -/
def termKey (term : Text) : Option MetadataKey :=
  let term := unicode.normalize term
  if term = [] then none else some ⟨field, term⟩

def postingFor (term : Text) : Except Fault (Option MetadataPosting) :=
  (metadataFormat report archive.version).posting search archive.toMmapKeyedArchive
    (termKey unicode field term)

def idsFor (term : Text) : Except Fault (List FileId) :=
  (metadataFormat report archive.version).idsFor search archive.toMmapKeyedArchive
    (termKey unicode field term)

/-- The first ids of a term, and whether there are more. -/
def idsForLimit (term : Text) (limit : Nat) : Except Fault (List FileId × Bool) :=
  (metadataFormat report archive.version).idsForLimit search archive.toMmapKeyedArchive
    (termKey unicode field term) limit

/-- The terms are all of one field, so their order is the order of the keys. -/
def postingsForSortedTermsLimit (terms : List Text) (limitPerTerm : Nat) :
    Except Fault (List LimitedMetadataPosting) :=
  (metadataFormat report archive.version).postingsForSortedLimit archive.toMmapKeyedArchive
    (terms.filterMap (termKey unicode field)) limitPerTerm

def postingsFor (terms : List Text) : Except Fault (List MetadataPosting) :=
  (metadataFormat report archive.version).postingsFor search archive.toMmapKeyedArchive
    (fun key => termKey unicode field key.term) (terms.filterMap (termKey unicode field))

def postingsForLimit (terms : List Text) (limitPerTerm : Nat) :
    Except Fault (List MetadataPosting) :=
  (metadataFormat report archive.version).postingsForLimit archive.toMmapKeyedArchive
    (fun key => termKey unicode field key.term) (terms.filterMap (termKey unicode field))
    limitPerTerm

end MmapMetadataArchive

end Gfm.Store

import Gfm.Store.ContentCodec

/-!
# The content archive

The postings one after the other, then a directory of their canonical terms in order, a footer
that says where the directory starts, and the checksum. The sequential reader goes through the
postings; the mapped archive finds one by its term.
-/

namespace Gfm.Store

open Sorted Wire

def contentMagicV1 : Bytes := LineLog.encodeText "gfm-content-v1\n".toList

def contentMagicV2 : Bytes := LineLog.encodeText "gfm-content-v2\n".toList

def contentMagicV3 : Bytes := LineLog.encodeText "gfm-content-v3\n".toList

def contentMagicV4 : Bytes := LineLog.encodeText "gfm-content-v4\n".toList

def contentMagicV5 : Bytes := LineLog.encodeText "gfm-content-v5\n".toList

def contentIndexFooter : Bytes := LineLog.encodeText "gfm-content-index-v1\n".toList

def contentChecksumFooter : Bytes := LineLog.encodeText "gfm-content-checksum-v1\n".toList

def contentFooterLen : Nat := 8 + contentIndexFooter.length

structure ContentDirectoryEntry where
  term : Text
  offset : Nat
  len : Nat
  deriving DecidableEq

section Write

variable (unicode : Unicode)

/-- What is written for each posting. -/
def postingBytes (posting : ContentPosting) : Bytes :=
  writeContentPosting posting .indexedChecksummed

/-- The directory entries of the postings that start at an offset. -/
def directoryFrom (offset : Nat) : List ContentPosting → List ContentDirectoryEntry
  | [] => []
  | posting :: postings =>
      ⟨unicode.normalize posting.term, offset, (postingBytes posting).length⟩ ::
        directoryFrom (offset + (postingBytes posting).length) postings

def writeDirectoryEntry (entry : ContentDirectoryEntry) : Bytes :=
  writeTerm entry.term ++ (writeVarint entry.offset ++ writeVarint entry.len)

/-- The magic bytes and the number of postings. -/
def archiveHead (postings : List ContentPosting) : Bytes :=
  contentMagicV5 ++ writeVarint postings.length

def contentDirectory (postings : List ContentPosting) : List ContentDirectoryEntry :=
  sortByKey ContentDirectoryEntry.term (directoryFrom unicode
    (archiveHead postings).length postings)

def archivePostings (postings : List ContentPosting) : Bytes :=
  archiveHead postings ++ postings.flatMap postingBytes

def directoryBytes (directory : List ContentDirectoryEntry) : Bytes :=
  writeVarint directory.length ++ directory.flatMap writeDirectoryEntry

def archiveBody (postings : List ContentPosting) : Bytes :=
  archivePostings postings ++ (directoryBytes (contentDirectory unicode postings) ++
    (leBytes 8 (archivePostings postings).length ++ contentIndexFooter))

def writeContentPostings (postings : List ContentPosting) : Bytes :=
  archiveBody unicode postings ++
    checksumFooter contentChecksumFooter (archiveBody unicode postings)

end Write

section Read

variable (path : Path) (report : Bytes → String)

def unsupportedHeader : Fault :=
  .error (.format ("unsupported content store header in " ++ path.display))

def contentVersion (magic : Bytes) : Except Fault ContentStoreVersion :=
  if magic = contentMagicV5 then .ok .indexedChecksummed
  else if magic = contentMagicV4 then .ok .indexedBlockedPositions
  else if magic = contentMagicV3 then .ok .indexedPositions
  else if magic = contentMagicV2 then .ok .indexedIds
  else if magic = contentMagicV1 then .ok .legacy
  else .error (unsupportedHeader path)

def verifyContentChecksum (bytes : Bytes) (version : ContentStoreVersion) : Except Fault Unit :=
  if version.hasChecksum then
    match verifyChecksumFooter path "content" contentChecksumFooter bytes with
    | .error error => .error (.error error)
    | .ok true => .ok ()
    | .ok false => .error (contentFormatError path "missing content checksum footer")
  else .ok ()

def readPostings (version : ContentStoreVersion) : Reader Fault (List ContentPosting) := do
  let count ← readNumber path
  readChain (fun _ : Unit => readContentPosting path report version) (fun _ => ()) count ()

/-- All magic bytes are of one length. -/
def readContentPostings (bytes : Bytes) : Except Fault (List ContentPosting) := do
  let (magic, rest) ← (readExact (ended path) contentMagicV1.length).run bytes
  let version ← contentVersion path magic
  verifyContentChecksum path bytes version
  let (postings, _) ← (readPostings path report version).run rest
  .ok postings

def mmapContentVersion (bytes : Bytes) : Except Fault ContentStoreVersion :=
  if contentMagicV5 <+: bytes then .ok .indexedChecksummed
  else if contentMagicV4 <+: bytes then .ok .indexedBlockedPositions
  else if contentMagicV3 <+: bytes then .ok .indexedPositions
  else if contentMagicV2 <+: bytes then .ok .indexedIds
  else if contentMagicV1 <+: bytes then .ok .legacy
  else .error (unsupportedHeader path)

/-- Another format's header is no version of the archive. -/
theorem mmapContentVersion_foreign {header bytes : Bytes} (headed : header <+: bytes)
    (foreign : ∀ magic ∈ [contentMagicV5, contentMagicV4, contentMagicV3, contentMagicV2,
      contentMagicV1], magic.length ≤ header.length ∧ ¬magic <+: header) :
    mmapContentVersion path bytes = .error (unsupportedHeader path) := by
  have differs : ∀ magic ∈ [contentMagicV5, contentMagicV4, contentMagicV3, contentMagicV2,
      contentMagicV1], ¬magic <+: bytes := by
    intro magic member isPrefix
    obtain ⟨short, other⟩ := foreign magic member
    exact other (List.prefix_of_prefix_length_le isPrefix headed short)
  simp only [List.forall_mem_cons] at differs
  obtain ⟨five, four, three, two, one, -⟩ := differs
  rw [mmapContentVersion, if_neg five, if_neg four, if_neg three, if_neg two, if_neg one]

def contentIndexedLen (bytes : Bytes) : Except Fault Nat :=
  if hasChecksumFooter contentChecksumFooter bytes then
    .ok (bytes.length - (4 + contentChecksumFooter.length))
  else if 4 + contentChecksumFooter.length ≤ bytes.length ∧ contentMagicV5 <+: bytes then
    .error (contentFormatError path "missing content checksum footer")
  else .ok bytes.length

def readDirectoryEntry : Reader Fault ContentDirectoryEntry := do
  let term ← readTerm "directory term" path report
  let offset ← readNumber path
  let len ← readNumber path
  pure ⟨term, offset, len⟩

def readDirectory : Reader Fault (List ContentDirectoryEntry) := do
  let count ← readNumber path
  readChain (fun _ : Unit => readDirectoryEntry path report) (fun _ => ()) count ()

def readContentDirectory (bytes : Bytes) : Except Fault (List ContentDirectoryEntry) := do
  let missing := contentFormatError path "missing content directory footer"
  if bytes.length < contentMagicV2.length + contentFooterLen then .error missing
  else
    let indexedLen ← contentIndexedLen path bytes
    let archiveBytes := bytes.take indexedLen
    if archiveBytes.length < contentFooterLen then .error missing
    else
      let footerOffset := archiveBytes.length - contentFooterLen
      let directoryOffset := ofLeBytes ((archiveBytes.drop footerOffset).take 8)
      if archiveBytes.drop (footerOffset + 8) ≠ contentIndexFooter then .error missing
      else if footerOffset ≤ directoryOffset then
        .error (contentFormatError path "invalid content directory offset")
      else
        ((readDirectory path report).run
          ((archiveBytes.take footerOffset).drop directoryOffset)).map Prod.fst

end Read

structure MmapContentArchive where
  path : Path
  mmap : Bytes
  directory : List ContentDirectoryEntry
  version : ContentStoreVersion

namespace MmapContentArchive

def openArchive (path : Path) (report : Bytes → String) (mmap : Bytes) :
    Except Fault MmapContentArchive := do
  let version ← mmapContentVersion path mmap
  if version = .legacy then
    .error (contentFormatError path "legacy content archives are not mmap indexed")
  else
    verifyContentChecksum path mmap version
    let directory ← readContentDirectory path report mmap
    .ok { path, mmap, directory, version }

variable (unicode : Unicode) (report : Bytes → String) (archive : MmapContentArchive)

/-- The bytes of an entry's posting. -/
def postingSlice (entry : ContentDirectoryEntry) : Except Fault Bytes := do
  let stop ← checkedAdd (contentFormatError archive.path "posting range overflow") entry.offset
    entry.len
  getRange (contentFormatError archive.path "posting range out of bounds") archive.mmap
    entry.offset stop

/-- The posting of an entry by a reader, if it is of the term that the directory says. -/
def postingAt (read : Bytes → Except Fault LimitedContentPosting) (term : Text)
    (entry : ContentDirectoryEntry) : Except Fault LimitedContentPosting := do
  let bytes ← archive.postingSlice entry
  let posting ← read bytes
  if unicode.normalize posting.posting.term = term then .ok posting
  else .error (contentFormatError archive.path "content directory points at the wrong term")

def postingForTermLimit (term : Text) (limit : Nat) :
    Except Fault (Option ContentPosting × Bool) :=
  let term := unicode.normalize term
  if term = [] then .ok (none, false)
  else
    match (binarySearchByKey archive.directory term ContentDirectoryEntry.term).bind
        (archive.directory[·]?) with
    | none => .ok (none, false)
    | some entry => do
        let found ← archive.postingAt unicode
          (readContentPostingLimited archive.path report archive.version limit) term entry
        .ok (some found.posting, found.truncated)

def usizeMax : Nat := 2 ^ 64 - 1

def postingForTerm (term : Text) : Except Fault (Option ContentPosting) :=
  (archive.postingForTermLimit unicode report term usizeMax).map Prod.fst

section Batch

/-- The index after the entries with smaller terms. -/
def skipSmaller (term : Text) (directoryIndex : Nat) : Nat :=
  directoryIndex + partitionPoint (fun entry => (compare entry.term term).isLT)
    (archive.directory.drop directoryIndex)

/-- The walk over the terms and the directory side by side, with a reader for the postings; of the
postings that it reads it keeps some. -/
def sortedTermsFrom (read : Bytes → Except Fault LimitedContentPosting)
    (keep : LimitedContentPosting → Bool) (unsorted : String) (previous : Option Text)
    (directoryIndex : Nat) (found : List LimitedContentPosting) :
    List Text → Except Fault (List LimitedContentPosting)
  | [] => .ok found
  | term :: terms =>
      let term := unicode.normalize term
      if term = [] then sortedTermsFrom read keep unsorted previous directoryIndex found terms
      else if previous.any fun previous => (compare term previous).isLT then
        .error (contentFormatError archive.path unsorted)
      else if previous = some term then
        sortedTermsFrom read keep unsorted previous directoryIndex found terms
      else
        let directoryIndex := archive.skipSmaller term directoryIndex
        match archive.directory[directoryIndex]? with
        | none => sortedTermsFrom read keep unsorted (some term) directoryIndex found terms
        | some entry =>
            if entry.term = term then do
              let posting ← archive.postingAt unicode read term entry
              sortedTermsFrom read keep unsorted (some term) directoryIndex
                (if keep posting then found ++ [posting] else found) terms
            else sortedTermsFrom read keep unsorted (some term) directoryIndex found terms

def postingsForSortedTermsLimit (terms : List Text) (limitPerTerm : Nat) :
    Except Fault (List LimitedContentPosting) :=
  if limitPerTerm = 0 then .ok []
  else
    archive.sortedTermsFrom unicode
      (readContentPostingLimited archive.path report archive.version limitPerTerm) (fun _ => true)
      "batch content lookup terms must be sorted" none 0 [] terms

def postingsForSortedTermsVolumeLimit (terms : List Text) (volume : VolumeId)
    (limitPerTerm : Nat) : Except Fault (List LimitedContentPosting) :=
  if limitPerTerm = 0 then .ok []
  else
    archive.sortedTermsFrom unicode
      (readContentPostingForVolumeLimited archive.path report archive.version volume limitPerTerm)
      (fun found => !found.posting.ids.isEmpty || !found.posting.positions.isEmpty)
      "batch content volume lookup terms must be sorted" none 0 [] terms

end Batch

/-- The postings in the order of the directory. -/
def postings : Except Fault (List ContentPosting) :=
  archive.directory.mapM fun entry => do
    let bytes ← archive.postingSlice entry
    ((readContentPosting archive.path report archive.version).run bytes).map Prod.fst

end MmapContentArchive

end Gfm.Store

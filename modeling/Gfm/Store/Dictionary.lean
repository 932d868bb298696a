import Gfm.Lib.SparseIndex
import Gfm.Store.ContentCodec

/-!
# The dictionary

The normal forms of the terms in order, in blocks. A term is written as the number of bytes that
it has in common with the term before it in its block, and the other bytes. After the blocks come
a directory of their first terms, a footer that says where the directory starts, and the checksum.

The writer puts every character of a term in lower case, the lookup puts a term in lower case as
a whole. A `usize` has 64 bits, so that no number which is read is too large for one. That an
index overflows in an archive that nothing here has written is not modelled.
-/

namespace Gfm.Store

open SparseIndex Sorted Wire

def dictionaryMagicV1 : Bytes := LineLog.encodeText "gfm-dictionary-v1\n".toList

def dictionaryIndexFooter : Bytes := LineLog.encodeText "gfm-dictionary-index-v1\n".toList

def dictionaryChecksumFooter : Bytes := LineLog.encodeText "gfm-dictionary-checksum-v1\n".toList

def dictionaryFooterLen : Nat := 8 + dictionaryIndexFooter.length

def dictionaryChecksumFooterLen : Nat := 4 + dictionaryChecksumFooter.length

def defaultBlockSize : Nat := 16

structure DictionaryBlock where
  first : Text
  offset : Nat
  entries : Nat
  deriving DecidableEq

section FrontCoding

/-- How many bytes the characters take with which both texts begin. -/
def commonPrefixLen : Text → Text → Nat
  | left :: lefts, right :: rights =>
      if left = right then left.utf8Size + commonPrefixLen lefts rights else 0
  | _, _ => 0

def writeFrontCoded (previous value : Text) : Bytes :=
  let shared := commonPrefixLen previous value
  let suffix := (LineLog.encodeText value).drop shared
  writeVarint shared ++ (writeVarint suffix.length ++ suffix)

/-- The characters before a byte of a text, if one of them ends there. -/
def textBefore : Text → Nat → Option Text
  | _, 0 => some []
  | [], _ + 1 => none
  | char :: rest, bytes + 1 =>
      if bytes + 1 < char.utf8Size then none
      else (textBefore rest (bytes + 1 - char.utf8Size)).map (char :: ·)

variable (path : Path) (report : Bytes → String)

def dictionaryFormatError (reason : String) : Fault :=
  .error (.format ("invalid dictionary store " ++ path.display ++ ": " ++ reason))

def readFrontCoded (previous : Text) : Reader Fault Text := do
  let shared ← readNumber path
  match textBefore previous shared with
  | none => fail (dictionaryFormatError path "invalid dictionary prefix")
  | some start =>
      let suffixLen ← readNumber path
      let suffix ← readBytes path suffixLen
      match LineLog.decodeText suffix with
      | none => fail (utf8Error "dictionary suffix" path report suffix)
      | some suffix => pure (start ++ suffix)

end FrontCoding

section Write

variable (unicode : Unicode)

/-- The non-empty normal forms in order, each once. -/
def dictionaryTerms (terms : List Text) : List Text :=
  sortDedup ((terms.map unicode.normalize).filter (· ≠ []))

/-- What is written so far, the blocks and the term before. -/
structure DictionaryWriting where
  archive : Bytes
  blocks : List DictionaryBlock
  previous : Text

/-- One more entry in the last block. -/
def countEntry : List DictionaryBlock → List DictionaryBlock
  | [] => []
  | [block] => [{ block with entries := block.entries + 1 }]
  | block :: blocks => block :: countEntry blocks

/-- The next term; at a multiple of the block size it opens a block. -/
def DictionaryWriting.write (writing : DictionaryWriting) (blockSize index : Nat) (term : Text) :
    DictionaryWriting :=
  let writing :=
    if index % blockSize = 0 then
      { writing with
        blocks := writing.blocks ++ [⟨term, writing.archive.length, 0⟩]
        previous := [] }
    else writing
  { archive := writing.archive ++ writeFrontCoded writing.previous term
    blocks := countEntry writing.blocks
    previous := term }

/-- The terms from an index on. -/
def DictionaryWriting.writeFrom (blockSize : Nat) :
    Nat → DictionaryWriting → List Text → DictionaryWriting
  | _, writing, [] => writing
  | index, writing, term :: terms =>
      writeFrom blockSize (index + 1) (writing.write blockSize index term) terms

def writeDictionaryBlock (block : DictionaryBlock) : Bytes :=
  writeTerm block.first ++ (writeVarint block.offset ++ writeVarint block.entries)

def dictionaryDirectoryBytes (blocks : List DictionaryBlock) : Bytes :=
  writeVarint blocks.length ++ blocks.flatMap writeDictionaryBlock

def dictionaryHead (blockSize : Nat) (terms : List Text) : Bytes :=
  dictionaryMagicV1 ++ (writeVarint terms.length ++ writeVarint blockSize)

/-- Everything before the checksum. -/
def dictionaryBody (blockSize : Nat) (terms : List Text) : Bytes :=
  let writing := DictionaryWriting.writeFrom blockSize 0 ⟨dictionaryHead blockSize terms, [], []⟩
    terms
  writing.archive ++ (dictionaryDirectoryBytes writing.blocks ++
    (leBytes 8 writing.archive.length ++ dictionaryIndexFooter))

def writeDictionaryWithBlockSize (blockSize : Nat) (terms : List Text) : Bytes :=
  let body := dictionaryBody (max blockSize 1) (dictionaryTerms unicode terms)
  body ++ checksumFooter dictionaryChecksumFooter body

end Write

section Read

variable (path : Path) (report : Bytes → String)

/-- The checksum is looked at only where its footer is there. -/
def verifyDictionaryChecksum (bytes : Bytes) : Except Fault Unit :=
  if hasChecksumFooter dictionaryChecksumFooter bytes then
    match verifyChecksumFooter path "dictionary" dictionaryChecksumFooter bytes with
    | .error error => .error (.error error)
    | .ok true => .ok ()
    | .ok false => .error (dictionaryFormatError path "missing dictionary checksum footer")
  else .ok ()

def dictionaryIndexedLen (bytes : Bytes) : Except Fault Nat :=
  if bytes.length < dictionaryChecksumFooterLen then .ok bytes.length
  else if hasChecksumFooter dictionaryChecksumFooter bytes then
    .ok (bytes.length - dictionaryChecksumFooterLen)
  else if dictionaryMagicV1 <+: bytes ∧ dictionaryChecksumFooter <:+: bytes then
    .error (dictionaryFormatError path "invalid dictionary checksum footer")
  else .ok bytes.length

def dictionaryDirectoryOffset (bytes : Bytes) : Option Nat :=
  match dictionaryIndexedLen ["<dictionary>"] bytes with
  | .error _ => none
  | .ok indexedLen =>
      if indexedLen < dictionaryFooterLen then none
      else some (ofLeBytes ((bytes.drop (indexedLen - dictionaryFooterLen)).take 8))

def readDictionaryBlock : Reader Fault DictionaryBlock := do
  let first ← readTerm "dictionary block term" path report
  let offset ← readNumber path
  let entries ← readNumber path
  pure ⟨first, offset, entries⟩

def readDictionaryBlocks : Reader Fault (List DictionaryBlock) := do
  let count ← readNumber path
  readChain (fun _ : Unit => readDictionaryBlock path report) (fun _ => ()) count ()

def readDictionaryDirectory (bytes : Bytes) : Except Fault (List DictionaryBlock) := do
  let missing := dictionaryFormatError path "missing dictionary directory footer"
  match dictionaryDirectoryOffset bytes with
  | none => .error missing
  | some directoryOffset =>
      let indexedLen ← dictionaryIndexedLen path bytes
      let archiveBytes ← getRange
        (dictionaryFormatError path "dictionary indexed range out of bounds") bytes 0 indexedLen
      if archiveBytes.length < dictionaryFooterLen then .error missing
      else
        let footerOffset := archiveBytes.length - dictionaryFooterLen
        if footerOffset ≤ directoryOffset then
          .error (dictionaryFormatError path "invalid dictionary directory offset")
        else if archiveBytes.drop (footerOffset + 8) ≠ dictionaryIndexFooter then .error missing
        else
          ((readDictionaryBlocks path report).run
            ((archiveBytes.take footerOffset).drop directoryOffset)).map Prod.fst

end Read

structure MmapDictionary where
  path : Path
  mmap : Bytes
  blocks : List DictionaryBlock
  len : Nat
  blockSize : Nat

namespace MmapDictionary

def openDictionary (path : Path) (report : Bytes → String) (mmap : Bytes) :
    Except Fault MmapDictionary :=
  if ¬dictionaryMagicV1 <+: mmap then
    .error (dictionaryFormatError path "unsupported dictionary header")
  else do
    verifyDictionaryChecksum path mmap
    let (len, rest) ← (readNumber path).run (mmap.drop dictionaryMagicV1.length)
    let (blockSize, _) ← (readNumber path).run rest
    let blocks ← readDictionaryDirectory path report mmap
    .ok { path, mmap, blocks, len, blockSize }

variable (unicode : Unicode) (report : Bytes → String) (archive : MmapDictionary)

/-- The end of a block: the start of the next one, or of the directory. -/
def blockEnd (blockIndex : Nat) : Nat :=
  match archive.blocks[blockIndex + 1]? with
  | some next => next.offset
  | none =>
      (dictionaryDirectoryOffset archive.mmap).getD
        ((dictionaryIndexedLen archive.path archive.mmap).toOption.getD archive.mmap.length)

def decodeBlock (blockIndex : Nat) : Except Fault (List Text) :=
  match archive.blocks[blockIndex]? with
  | none => .error (dictionaryFormatError archive.path "dictionary block missing")
  | some block => do
      let bytes ← getRange (dictionaryFormatError archive.path "dictionary block out of bounds")
        archive.mmap block.offset (archive.blockEnd blockIndex)
      ((readChain (readFrontCoded archive.path report) id block.entries []).run bytes).map Prod.fst

def find (term : Text) : Except Fault (Option Nat) :=
  let term := unicode.lowercaseTerm term
  if term = [] ∨ archive.blocks = [] then .ok none
  else
    match pieceOf (archive.blocks.map DictionaryBlock.first) term with
    | none => .ok none
    | some blockIndex => do
        let entries ← archive.decodeBlock report blockIndex
        .ok (scan term (blockIndex * archive.blockSize) entries)

def contains (term : Text) : Except Fault Bool :=
  (archive.find unicode report term).map Option.isSome

def get (index : Nat) : Except Fault Text :=
  if archive.len ≤ index then
    .error (dictionaryFormatError archive.path "dictionary index out of bounds")
  else if archive.blockSize = 0 then .error .panic
  else do
    let entries ← archive.decodeBlock report (index / archive.blockSize)
    match entries[index % archive.blockSize]? with
    | none => .error (dictionaryFormatError archive.path "dictionary block truncated")
    | some term => .ok term

end MmapDictionary

def readDictionary (path : Path) (report : Bytes → String) (mmap : Bytes) :
    Except Fault (List Text) := do
  let archive ← MmapDictionary.openDictionary path report mmap
  (List.range archive.len).mapM (archive.get report)

end Gfm.Store

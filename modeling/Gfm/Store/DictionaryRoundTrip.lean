import Gfm.Lib.IndexedArchive
import Gfm.Store.ContentReading
import Gfm.Store.Dictionary

/-!
# Reading a written dictionary

The blocks that the writer opens are the pieces of the list of terms. Front coding loses nothing,
so that every block decodes to its piece, and the archive gives every term at its index and finds
a term exactly where the list has it.
-/

namespace Gfm.Store

open IndexedArchive List Sorted SparseIndex Wire
open LineLog hiding Bytes

section FrontCoding

/-- Both texts begin with what front coding leaves out of the second. -/
theorem exists_common (left right : Text) :
    ∃ common restLeft restRight, left = common ++ restLeft ∧ right = common ++ restRight ∧
      commonPrefixLen left right = (encodeText common).length := by
  induction left generalizing right with
  | nil => exact ⟨[], [], right, rfl, rfl, by cases right <;> rfl⟩
  | cons char left ih =>
      cases right with
      | nil => exact ⟨[], char :: left, [], rfl, rfl, rfl⟩
      | cons other right =>
          by_cases same : char = other
          · subst same
            rcases ih right with ⟨common, restLeft, restRight, rfl, rfl, length⟩
            refine ⟨char :: common, restLeft, restRight, rfl, rfl, ?_⟩
            rw [commonPrefixLen, if_pos rfl, length]
            simp [encodeText]
          · exact ⟨[], char :: left, other :: right, rfl, rfl, if_neg same⟩

theorem textBefore_encodeText (start rest : Text) :
    textBefore (start ++ rest) (encodeText start).length = some start := by
  induction start with
  | nil => cases rest <;> rfl
  | cons char start ih =>
      have size := Char.utf8Size_pos char
      have length : (encodeText (char :: start)).length =
          char.utf8Size + (encodeText start).length := by simp [encodeText]
      rcases Nat.exists_eq_succ_of_ne_zero
        (show (encodeText (char :: start)).length ≠ 0 by omega) with ⟨bytes, shape⟩
      rw [shape, Nat.succ_eq_add_one, cons_append, textBefore, if_neg (by omega),
        show bytes + 1 - char.utf8Size = (encodeText start).length by omega, ih]
      rfl

variable (path : Path) (report : Bytes → String)

theorem decodes_readFrontCoded (previous : Text) {value : Text}
    (short : (encodeText value).length ≤ isizeMax) :
    Decodes (readFrontCoded path report previous) (writeFrontCoded previous value) value := by
  have bound : isizeMax < 2 ^ 64 := by decide
  rcases exists_common previous value with ⟨common, left, right, rfl, rfl, length⟩
  rw [encodeText_append, length_append] at short
  have suffix : (encodeText (common ++ right)).drop (encodeText common).length =
      encodeText right := by rw [encodeText_append, drop_left]
  simp only [writeFrontCoded, length, suffix]
  refine (decodes_readNumber path (by omega)).bind ?_
  rw [textBefore_encodeText]
  refine (decodes_readNumber path (by omega)).bind ?_
  refine (decodes_readBytes path (by omega)).andThen ?_
  rw [decodeText_encodeText]
  exact Decodes.pure _

end FrontCoding

section Writing

/-- The bytes of a block. -/
def blockBytes (block : List Text) : Bytes := writeChain writeFrontCoded id [] block

def blockEntry (block : List Text) (offset _len : Nat) : DictionaryBlock :=
  ⟨block.headD [], offset, block.length⟩

/-- The blocks from an offset on. -/
def blocksFrom : Nat → List (List Text) → List DictionaryBlock :=
  entriesFrom blockBytes blockEntry

@[simp]
theorem blocksFrom_nil (offset : Nat) : blocksFrom offset [] = [] := rfl

@[simp]
theorem blocksFrom_cons (offset : Nat) (block : List Text) (blocks : List (List Text)) :
    blocksFrom offset (block :: blocks) = ⟨block.headD [], offset, block.length⟩ ::
      blocksFrom (offset + (blockBytes block).length) blocks := rfl

/-- A block decodes to its terms. -/
theorem decodes_readBlock (path : Path) (report : Bytes → String) {block : List Text}
    (short : ∀ term ∈ block, (encodeText term).length ≤ isizeMax) :
    Decodes (readChain (readFrontCoded path report) id block.length []) (blockBytes block)
      block := by
  have linked : ∀ (terms : List Text) (previous : Text),
      (∀ term ∈ terms, (encodeText term).length ≤ isizeMax) →
        Linked (fun _ term => (encodeText term).length ≤ isizeMax) id previous terms := by
    intro terms
    induction terms with
    | nil => exact fun _ _ => trivial
    | cons term terms ih =>
        intro previous short
        exact ⟨short term mem_cons_self,
          ih _ fun other later => short other (mem_cons_of_mem term later)⟩
  have each : ∀ (previous term : Text), (encodeText term).length ≤ isizeMax →
      Decodes (readFrontCoded path report previous) (writeFrontCoded previous term) (id term) :=
    fun previous term fits => decodes_readFrontCoded path report previous fits
  have read := decodes_readChain each (fun _ => rfl) (linked block [] short)
  rwa [map_id] at read

theorem countEntry_concat (blocks : List DictionaryBlock) (block : DictionaryBlock) :
    countEntry (blocks ++ [block]) = blocks ++ [{ block with entries := block.entries + 1 }] := by
  induction blocks with
  | nil => rfl
  | cons first blocks ih =>
      cases blocks with
      | nil => rfl
      | cons second blocks => exact congrArg (first :: ·) ih

namespace DictionaryWriting

theorem writeFrom_append (blockSize : Nat) (left right : List Text) (index : Nat)
    (writing : DictionaryWriting) :
    writeFrom blockSize index writing (left ++ right) =
      writeFrom blockSize (index + left.length) (writeFrom blockSize index writing left) right := by
  induction left generalizing index writing with
  | nil => rfl
  | cons term left ih =>
      rw [cons_append, writeFrom, ih, writeFrom, length_cons, Nat.add_right_comm,
        Nat.add_assoc]

/-- Terms within a block. -/
theorem writeFrom_within {blockSize : Nat} {terms : List Text} {index : Nat}
    (within : ∀ number < terms.length, (index + number) % blockSize ≠ 0) (archive : Bytes)
    (blocks : List DictionaryBlock) (block : DictionaryBlock) (previous : Text) :
    writeFrom blockSize index ⟨archive, blocks ++ [block], previous⟩ terms =
      ⟨archive ++ writeChain writeFrontCoded id previous terms,
        blocks ++ [{ block with entries := block.entries + terms.length }],
        terms.getLastD previous⟩ := by
  induction terms generalizing index archive block previous with
  | nil => simp [writeFrom, writeChain]
  | cons term terms ih =>
      have inside : ¬index % blockSize = 0 := within 0 (Nat.succ_pos _)
      have later : ∀ number < terms.length, (index + 1 + number) % blockSize ≠ 0 := by
        intro number small
        have next := within (number + 1) (Nat.succ_lt_succ small)
        rwa [Nat.add_right_comm, Nat.add_assoc]
      rw [writeFrom, write]
      simp only [if_neg inside, countEntry_concat]
      rw [ih later, writeChain, append_assoc, getLastD_cons, length_cons]
      simp only [id, Nat.add_assoc, Nat.add_comm 1]

/-- The terms of one block, from where it is opened. -/
theorem writeFrom_block {blockSize : Nat} {block : List Text} {index : Nat}
    (start : index % blockSize = 0) (filled : block ≠ []) (short : block.length ≤ blockSize)
    (archive : Bytes) (blocks : List DictionaryBlock) (previous : Text) :
    ∃ last, writeFrom blockSize index ⟨archive, blocks, previous⟩ block =
      ⟨archive ++ blockBytes block, blocks ++ [⟨block.headD [], archive.length, block.length⟩],
        last⟩ := by
  cases block with
  | nil => exact absurd rfl filled
  | cons term block =>
      have within : ∀ number < block.length, (index + 1 + number) % blockSize ≠ 0 := by
        intro number small
        rw [length_cons] at short
        rw [Nat.add_assoc, Nat.add_mod, start, Nat.zero_add, Nat.mod_mod,
          Nat.mod_eq_of_lt (by omega)]
        omega
      refine ⟨block.getLastD term, ?_⟩
      rw [writeFrom, write]
      simp only [if_pos start, countEntry_concat]
      rw [writeFrom_within within, blockBytes, writeChain, append_assoc, length_cons,
        Nat.zero_add, Nat.add_comm 1]
      rfl

/-- The loop writes the pieces of the list, each as a block. -/
theorem writeFrom_pieces {blockSize : Nat} (positive : 0 < blockSize) (terms : List Text)
    {index : Nat} (start : index % blockSize = 0) (archive : Bytes)
    (blocks : List DictionaryBlock) (previous : Text) :
    ∃ last, writeFrom blockSize index ⟨archive, blocks, previous⟩ terms =
      ⟨archive ++ (pieces blockSize terms).flatMap blockBytes,
        blocks ++ blocksFrom archive.length (pieces blockSize terms), last⟩ := by
  induction terms using pieces.induct blockSize generalizing index archive blocks previous with
  | case1 terms stop =>
      have empty : terms = [] := length_eq_zero_iff.mp (by omega)
      exact ⟨previous, by simp [empty, writeFrom]⟩
  | case2 terms more ih =>
      have filled : terms ≠ [] := fun empty => more (Or.inl (length_eq_zero_iff.mpr empty))
      have first : terms.take blockSize ≠ [] := by
        rw [ne_eq, take_eq_nil_iff]
        rintro (none | empty)
        · omega
        · exact filled empty
      rcases writeFrom_block start first (length_take_le _ _) archive blocks previous with
        ⟨last, written⟩
      conv => enter [1, last, 1]; rw [← take_append_drop blockSize terms]
      rw [pieces_of_ne_nil positive filled]
      simp only [writeFrom_append, written, flatMap_cons, blocksFrom_cons]
      by_cases short : terms.length ≤ blockSize
      · -- the block is the last one
        refine ⟨last, ?_⟩
        simp [drop_eq_nil_of_le short, writeFrom]
      · have next : (index + (terms.take blockSize).length) % blockSize = 0 := by
          rw [length_take, Nat.min_eq_left (by omega), Nat.add_mod_right, start]
        rcases ih next (archive ++ blockBytes (terms.take blockSize))
          (blocks ++ [⟨(terms.take blockSize).headD [], archive.length,
            (terms.take blockSize).length⟩]) last with ⟨final, rest⟩
        refine ⟨final, rest.trans ?_⟩
        simp only [append_assoc, length_append, singleton_append]

end DictionaryWriting

end Writing

section Layout

variable (blockSize : Nat) (terms : List Text)

/-- The head and the blocks. -/
def dictionaryFront : Bytes :=
  dictionaryHead blockSize terms ++ (pieces blockSize terms).flatMap blockBytes

def dictionaryBlocks : List DictionaryBlock :=
  blocksFrom (dictionaryHead blockSize terms).length (pieces blockSize terms)

def dictionaryBytes : Bytes :=
  dictionaryBody blockSize terms ++
    checksumFooter dictionaryChecksumFooter (dictionaryBody blockSize terms)

/-- Terms that a program can hold and write: the texts, the vector and the archive are objects. -/
structure DictionaryFits : Prop where
  positive : 0 < blockSize
  size : blockSize < 2 ^ 64
  each : ∀ term ∈ terms, (encodeText term).length ≤ isizeMax
  count : terms.length ≤ isizeMax
  written : (dictionaryBytes blockSize terms).length ≤ isizeMax

/-- The archive as it opens. -/
def writtenDictionary (path : Path) : MmapDictionary where
  path := path
  mmap := dictionaryBytes blockSize terms
  blocks := dictionaryBlocks blockSize terms
  len := terms.length
  blockSize := blockSize

variable {blockSize terms}

theorem dictionaryBody_eq (positive : 0 < blockSize) : dictionaryBody blockSize terms =
    IndexedArchive.archive (dictionaryFront blockSize terms)
      (dictionaryDirectoryBytes (dictionaryBlocks blockSize terms)) dictionaryIndexFooter := by
  rcases DictionaryWriting.writeFrom_pieces positive terms (Nat.zero_mod blockSize)
    (dictionaryHead blockSize terms) [] [] with ⟨last, written⟩
  simp only [dictionaryBody, written, nil_append]
  rfl

theorem map_first_dictionaryBlocks :
    (dictionaryBlocks blockSize terms).map DictionaryBlock.first = firsts blockSize terms := by
  have heads : ∀ (blocks : List (List Text)), (∀ block ∈ blocks, block ≠ []) →
      blocks.map (List.headD · []) = blocks.filterMap List.head? := by
    intro blocks
    induction blocks with
    | nil => exact fun _ => rfl
    | cons block blocks ih =>
        intro filled
        rcases exists_cons_of_ne_nil (filled block mem_cons_self) with ⟨term, rest, rfl⟩
        have others := ih fun other listed => filled other (mem_cons_of_mem _ listed)
        rw [map_cons, filterMap_cons, others]
        rfl
  refine (map_entriesFrom blockBytes blockEntry _ (List.headD · []) (fun _ _ _ => rfl) _ _).trans ?_
  exact heads _ fun block listed => ne_nil_of_mem_pieces listed

theorem dictionaryIndexedLen_written (path : Path) :
    dictionaryIndexedLen path (dictionaryBytes blockSize terms) =
      .ok (dictionaryBody blockSize terms).length := by
  have checked : hasChecksumFooter dictionaryChecksumFooter (dictionaryBytes blockSize terms) =
      true := hasChecksumFooter_written _ _
  have total : (dictionaryBytes blockSize terms).length =
      (dictionaryBody blockSize terms).length + dictionaryChecksumFooterLen := by
    rw [dictionaryBytes, length_append, length_checksumFooter, dictionaryChecksumFooterLen]
  rw [dictionaryIndexedLen, if_neg (by omega), if_pos checked, total, Nat.add_sub_cancel]

namespace DictionaryFits

variable (fits : DictionaryFits blockSize terms)
include fits

/-- The parts of the archive are no longer than it is. -/
theorem length_le : (dictionaryFront blockSize terms).length +
    (dictionaryDirectoryBytes (dictionaryBlocks blockSize terms)).length +
      (dictionaryFooterLen + dictionaryChecksumFooterLen) ≤ isizeMax := by
  have written := fits.written
  rw [dictionaryBytes, length_append, length_checksumFooter, dictionaryBody_eq fits.positive,
    length_archive] at written
  rw [dictionaryFooterLen, dictionaryChecksumFooterLen]
  omega

theorem directoryOffset_written : dictionaryDirectoryOffset (dictionaryBytes blockSize terms) =
    some (dictionaryFront blockSize terms).length := by
  have small := fits.length_le
  have bound : isizeMax < 256 ^ 8 := by decide
  have long : ¬(dictionaryBody blockSize terms).length < dictionaryFooterLen := by
    rw [dictionaryBody_eq fits.positive, length_archive, dictionaryFooterLen]
    omega
  have offset := offset_archive (dictionaryFront blockSize terms)
    (dictionaryDirectoryBytes (dictionaryBlocks blockSize terms)) dictionaryIndexFooter (by omega)
    (checksumFooter dictionaryChecksumFooter (dictionaryBody blockSize terms))
  rw [← footer_archive _ _ dictionaryIndexFooter,
    ← dictionaryBody_eq fits.positive] at offset
  rw [dictionaryDirectoryOffset, dictionaryIndexedLen_written]
  simp only [if_neg long]
  exact congrArg some offset

theorem decodes_readDictionaryBlock (path : Path) (report : Bytes → String)
    {block : DictionaryBlock} (listed : block ∈ dictionaryBlocks blockSize terms) :
    Decodes (readDictionaryBlock path report) (writeDictionaryBlock block) block := by
  have small := fits.length_le
  have bound : isizeMax < 2 ^ 64 := by decide
  rw [dictionaryBlocks, blocksFrom] at listed
  rcases exists_item_of_mem_entriesFrom _ _ listed with ⟨index, piece, cut, rfl⟩
  have among : ∀ term ∈ piece, term ∈ terms := by
    intro term inside
    rw [← flatten_pieces fits.positive terms]
    exact mem_flatten_of_mem (mem_of_getElem? cut) inside
  have first : piece.headD [] ∈ terms := by
    rcases exists_cons_of_ne_nil
      (ne_nil_of_mem_pieces (mem_of_getElem? cut)) with ⟨term, rest, rfl⟩
    exact among term mem_cons_self
  have offset : (dictionaryHead blockSize terms).length +
      (((pieces blockSize terms).take index).flatMap blockBytes).length < 2 ^ 64 := by
    have within := @offset_add_length_le _ blockBytes _ _ _ cut
    rw [dictionaryFront, length_append] at small
    omega
  have entries : piece.length < 2 ^ 64 := by
    have within := (sublist_flatten_of_mem (mem_of_getElem? cut)).length_le
    rw [flatten_pieces fits.positive] at within
    have count := fits.count
    omega
  refine (decodes_readTerm path report _ (fits.each _ first)).bind ?_
  refine (decodes_readNumber path offset).bind ?_
  exact (decodes_readNumber path entries).andThen (Decodes.pure _)

theorem decodes_readDictionaryBlocks (path : Path) (report : Bytes → String) :
    Decodes (readDictionaryBlocks path report)
      (dictionaryDirectoryBytes (dictionaryBlocks blockSize terms))
      (dictionaryBlocks blockSize terms) := by
  have bound : isizeMax < 2 ^ 64 := by decide
  have count : (dictionaryBlocks blockSize terms).length ≤ terms.length := by
    rw [dictionaryBlocks, blocksFrom, length_entriesFrom]
    exact length_pieces_le blockSize terms
  have each := decodes_readEach fun block listed =>
    fits.decodes_readDictionaryBlock path report listed
  rw [map_id'] at each
  have known := fits.count
  exact (decodes_readNumber path (by omega)).bind each

/-- The directory is found through the footer. -/
theorem readDictionaryDirectory_written (path : Path) (report : Bytes → String) :
    readDictionaryDirectory path report (dictionaryBytes blockSize terms) =
      .ok (dictionaryBlocks blockSize terms) := by
  have body := @dictionaryBody_eq _ terms fits.positive
  have whole : getRange (dictionaryFormatError path "dictionary indexed range out of bounds")
      (dictionaryBytes blockSize terms) 0 (dictionaryBody blockSize terms).length =
        .ok (dictionaryBody blockSize terms) := by
    have range := getRange_written
      (dictionaryFormatError path "dictionary indexed range out of bounds") []
      (dictionaryBody blockSize terms)
      (checksumFooter dictionaryChecksumFooter (dictionaryBody blockSize terms))
    rwa [nil_append, length_nil, Nat.zero_add] at range
  have long : ¬(dictionaryBody blockSize terms).length < dictionaryFooterLen := by
    rw [body, length_archive, dictionaryFooterLen]
    omega
  have footer : (dictionaryBody blockSize terms).length - dictionaryFooterLen =
      (dictionaryFront blockSize terms).length +
        (dictionaryDirectoryBytes (dictionaryBlocks blockSize terms)).length := by
    rw [body]
    exact footer_archive _ _ _
  have filled : 0 < (dictionaryDirectoryBytes (dictionaryBlocks blockSize terms)).length := by
    have some := length_pos_iff.mpr
      (writeVarint_ne_nil (dictionaryBlocks blockSize terms).length)
    rw [dictionaryDirectoryBytes, length_append]
    omega
  have magic := magic_archive (dictionaryFront blockSize terms)
    (dictionaryDirectoryBytes (dictionaryBlocks blockSize terms)) dictionaryIndexFooter
  have directory := directory_archive (dictionaryFront blockSize terms)
    (dictionaryDirectoryBytes (dictionaryBlocks blockSize terms)) dictionaryIndexFooter
  rw [← body] at magic directory
  have read := fits.decodes_readDictionaryBlocks path report []
  rw [append_nil] at read
  have before : ¬(dictionaryFront blockSize terms).length +
      (dictionaryDirectoryBytes (dictionaryBlocks blockSize terms)).length ≤
        (dictionaryFront blockSize terms).length := by omega
  simp only [readDictionaryDirectory, fits.directoryOffset_written, dictionaryIndexedLen_written,
    whole, bind, Except.bind, if_neg long, footer, if_neg before, magic, ne_eq, not_true_eq_false,
    if_false, directory, read]
  rfl

theorem openDictionary_written (path : Path) (report : Bytes → String) :
    MmapDictionary.openDictionary path report (dictionaryBytes blockSize terms) =
      .ok (writtenDictionary blockSize terms path) := by
  have bound : isizeMax < 2 ^ 64 := by decide
  have count := fits.count
  have shape : dictionaryBytes blockSize terms = dictionaryMagicV1 ++ (writeVarint terms.length ++
      (writeVarint blockSize ++ ((pieces blockSize terms).flatMap blockBytes ++
        ((dictionaryDirectoryBytes (dictionaryBlocks blockSize terms) ++
          (leBytes 8 (dictionaryFront blockSize terms).length ++ dictionaryIndexFooter)) ++
            checksumFooter dictionaryChecksumFooter (dictionaryBody blockSize terms))))) := by
    generalize footer : checksumFooter dictionaryChecksumFooter (dictionaryBody blockSize terms) =
      checksum
    rw [dictionaryBytes, footer, dictionaryBody_eq fits.positive, IndexedArchive.archive]
    simp only [dictionaryFront, dictionaryHead, append_assoc]
  have headed : dictionaryMagicV1 <+: dictionaryBytes blockSize terms := by
    rw [shape]
    exact prefix_append _ _
  have checksum : verifyDictionaryChecksum path (dictionaryBytes blockSize terms) = .ok () := by
    have checked : hasChecksumFooter dictionaryChecksumFooter (dictionaryBytes blockSize terms) =
        true := hasChecksumFooter_written _ _
    rw [verifyDictionaryChecksum, if_pos checked, dictionaryBytes, verifyChecksumFooter_written]
  have dropped := congrArg (List.drop dictionaryMagicV1.length) shape
  rw [drop_left] at dropped
  rw [MmapDictionary.openDictionary, if_neg (not_not_intro headed)]
  simp only [checksum, dropped, decodes_readNumber path (show terms.length < 2 ^ 64 by omega) _,
    decodes_readNumber path fits.size _, fits.readDictionaryDirectory_written path report, bind,
    Except.bind]
  rfl

end DictionaryFits

end Layout

end Gfm.Store

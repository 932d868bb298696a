import Gfm.Lib.Folds
import Gfm.Store.CompactedLookup
import Gfm.Store.DictionaryRoundTrip

/-!
# Looking up a written dictionary

A written dictionary gives its terms by their index and finds each of them. What it answers for a
term in another spelling depends on two normal forms: the writer puts a term in lower case
character by character, the lookup as a whole. A capital sigma at the end of a word becomes a plain
sigma in the one and a final sigma in the other.
-/

namespace Gfm.Store

open Folds IndexedArchive List MmapDictionary Sorted SparseIndex Wire

section Blocks

variable {blockSize : Nat} {terms : List Text} (path : Path) (report : Bytes → String)

/-- Cut into what comes before a block, the block and what comes after. -/
theorem dictionaryFront_eq {index : Nat} {piece : List Text}
    (cut : (pieces blockSize terms)[index]? = some piece) :
    dictionaryFront blockSize terms = dictionaryHead blockSize terms ++
      ((pieces blockSize terms).take index).flatMap blockBytes ++ blockBytes piece ++
        ((pieces blockSize terms).drop (index + 1)).flatMap blockBytes := by
  rw [dictionaryFront, flatMap_eq_of_getElem? cut]
  simp only [append_assoc]

namespace DictionaryFits

variable (fits : DictionaryFits blockSize terms)
include fits

/-- A block ends where the next one or the directory starts. -/
theorem blockEnd_written {index : Nat} {piece : List Text}
    (cut : (pieces blockSize terms)[index]? = some piece) :
    (writtenDictionary blockSize terms path).blockEnd index =
      (dictionaryHead blockSize terms).length +
        (((pieces blockSize terms).take index).flatMap blockBytes).length +
          (blockBytes piece).length := by
  have next := getElem?_entriesFrom blockBytes blockEntry (dictionaryHead blockSize terms).length
    (pieces blockSize terms) (index + 1)
  rw [blockEnd, writtenDictionary, dictionaryBlocks, blocksFrom, next]
  cases after : (pieces blockSize terms)[index + 1]? with
  | some other =>
      rw [Option.map_some, take_add_one, cut]
      simp only [blockEntry, Option.toList_some, flatMap_append, flatMap_singleton,
        length_append, Nat.add_assoc]
  | none =>
      have last : (pieces blockSize terms).drop (index + 1) = [] :=
        drop_eq_nil_of_le (List.getElem?_eq_none_iff.mp after)
      have front := congrArg List.length (dictionaryFront_eq cut)
      rw [last, flatMap_nil, append_nil, length_append, length_append] at front
      rw [Option.map_none]
      simp only [fits.directoryOffset_written, Option.getD_some]
      exact front

/-- The archive goes on after a block. -/
theorem exists_rest {index : Nat} {piece : List Text}
    (cut : (pieces blockSize terms)[index]? = some piece) :
    ∃ rest, dictionaryBytes blockSize terms = dictionaryHead blockSize terms ++
      ((pieces blockSize terms).take index).flatMap blockBytes ++ blockBytes piece ++ rest := by
  rw [dictionaryBytes, dictionaryBody_eq fits.positive, IndexedArchive.archive,
    dictionaryFront_eq cut]
  simp only [append_assoc, append_cancel_left_eq, exists_eq']

/-- Every block decodes to its piece of the terms. -/
theorem decodeBlock_written {index : Nat} {piece : List Text}
    (cut : (pieces blockSize terms)[index]? = some piece) :
    (writtenDictionary blockSize terms path).decodeBlock report index = .ok piece := by
  have block : (dictionaryBlocks blockSize terms)[index]? = some
      ⟨piece.headD [], (dictionaryHead blockSize terms).length +
        (((pieces blockSize terms).take index).flatMap blockBytes).length, piece.length⟩ := by
    rw [dictionaryBlocks, blocksFrom, getElem?_entriesFrom, cut, Option.map_some]
    rfl
  rcases fits.exists_rest cut with ⟨rest, bytes⟩
  have slice := getRange_written (dictionaryFormatError path "dictionary block out of bounds")
    (dictionaryHead blockSize terms ++
      ((pieces blockSize terms).take index).flatMap blockBytes) (blockBytes piece) rest
  rw [← bytes, length_append] at slice
  have short : ∀ value ∈ piece, (LineLog.encodeText value).length ≤ isizeMax := by
    intro value inside
    apply fits.each
    rw [← flatten_pieces fits.positive terms]
    exact mem_flatten_of_mem (mem_of_getElem? cut) inside
  have read := decodes_readBlock path report short []
  rw [append_nil] at read
  have stop := fits.blockEnd_written path cut
  rw [decodeBlock, stop]
  simp only [writtenDictionary, block, slice, bind, Except.bind, read]
  rfl

theorem get_written (index : Nat) :
    (writtenDictionary blockSize terms path).get report index =
      match terms[index]? with
      | some term => .ok term
      | none => .error (dictionaryFormatError path "dictionary index out of bounds") := by
  have size : ¬blockSize = 0 := Nat.pos_iff_ne_zero.mp fits.positive
  by_cases inside : index < terms.length
  · rcases getElem?_div_mod fits.positive inside with ⟨piece, cut, entry⟩
    have decoded := fits.decodeBlock_written path report cut
    refine (if_neg (Nat.not_le.mpr inside)).trans ((if_neg size).trans ?_)
    change (decodeBlock report _ (index / blockSize) >>= _) = _
    rw [getElem?_eq_getElem inside] at entry
    rw [decoded, getElem?_eq_getElem inside]
    simp only [writtenDictionary, bind, Except.bind, entry]
  · rw [getElem?_eq_none (Nat.not_lt.mp inside)]
    exact if_pos (Nat.not_lt.mp inside)

/-- The lookup finds the lower case of a text as a whole where the terms have it. -/
theorem find_written (unicode : Unicode) (strict : Strict id terms)
    (filled : ∀ term ∈ terms, term ≠ []) (text : Text) :
    ∃ found, (writtenDictionary blockSize terms path).find unicode report text = .ok found ∧
      ∀ index, found = some index ↔ terms[index]? = some (unicode.lowercaseTerm text) := by
  have place := @scan_pieceOf_iff _ _ _ _ terms blockSize fits.positive strict
    (unicode.lowercaseTerm text)
  have heads := @map_first_dictionaryBlocks blockSize terms
  have missing : (∀ index, terms[index]? ≠ some (unicode.lowercaseTerm text)) →
      ∀ index, (none : Option Nat) = some index ↔
        terms[index]? = some (unicode.lowercaseTerm text) :=
    fun nowhere index => ⟨(fun same => nomatch same), fun known => absurd known (nowhere index)⟩
  rw [MmapDictionary.find]
  by_cases nothing : unicode.lowercaseTerm text = [] ∨ dictionaryBlocks blockSize terms = []
  · refine ⟨none, if_pos nothing, missing ?_⟩
    intro index known
    rcases nothing with empty | noBlocks
    · exact filled _ (mem_of_getElem? known) empty
    · rcases place.mpr known with ⟨number, piece, -, cut, -⟩
      have none := congrArg List.length noBlocks
      rw [dictionaryBlocks, blocksFrom, length_entriesFrom] at none
      rw [eq_nil_of_length_eq_zero none] at cut
      cases cut
  · have search : pieceOf ((writtenDictionary blockSize terms path).blocks.map
        DictionaryBlock.first) (unicode.lowercaseTerm text) =
          pieceOf (firsts blockSize terms) (unicode.lowercaseTerm text) :=
      congrArg (pieceOf · _) heads
    simp only [search]
    cases found : pieceOf (firsts blockSize terms) (unicode.lowercaseTerm text) with
    | none =>
        refine ⟨none, if_neg nothing, missing ?_⟩
        intro index known
        rcases place.mpr known with ⟨number, piece, led, -, -⟩
        rw [found] at led
        cases led
    | some number =>
        rcases exists_piece_of_pieceOf fits.positive found with ⟨piece, cut⟩
        refine ⟨scan (unicode.lowercaseTerm text) (number * blockSize) piece, ?_, ?_⟩
        · refine (if_neg nothing).trans ?_
          change (decodeBlock report _ number >>= _) = _
          rw [fits.decodeBlock_written path report cut]
          rfl
        · intro index
          rw [← place]
          constructor
          · exact fun scanned => ⟨number, piece, found, cut, scanned⟩
          · rintro ⟨other, own, led, within, scanned⟩
            cases found.symm.trans led
            cases cut.symm.trans within
            exact scanned

end DictionaryFits

end Blocks

section Spellings

variable (unicode : Unicode) (path : Path) (report : Bytes → String) (terms : List Text)

/-- The text is a normal form that is written. -/
def IsWritten (text : Text) : Prop := text ≠ [] ∧ ∃ term ∈ terms, unicode.normalize term = text

/-- What an archive of the terms is to answer. -/
structure DictionaryAnswers (archive : MmapDictionary) : Prop where
  len : archive.len = (dictionaryTerms unicode terms).length
  get : ∀ index term, (dictionaryTerms unicode terms)[index]? = some term →
    archive.get report index = .ok term
  find : ∀ index term, (dictionaryTerms unicode terms)[index]? = some term →
    archive.find unicode report term = .ok (some index)
  written : ∀ term ∈ terms, unicode.normalize term ≠ [] →
    archive.contains unicode report term = .ok true
  foreign : ∀ text, ¬IsWritten unicode terms (unicode.normalize text) →
    archive.contains unicode report text = .ok false

def DictionaryRoundTrips (blockSize : Nat) : Prop :=
  ∃ archive, openDictionary path report
      (writeDictionaryWithBlockSize unicode blockSize terms) = .ok archive ∧
    DictionaryAnswers unicode report terms archive

/-- The two lower cases lead to normal forms that are both written: the one of a written term to
another, and the one of any text that leads to a written form. -/
structure SpellingsAgree : Prop where
  written : ∀ term ∈ terms, unicode.normalize term ≠ [] →
    IsWritten unicode terms (unicode.lowercaseTerm term)
  foreign : ∀ text, IsWritten unicode terms (unicode.lowercaseTerm text) →
    IsWritten unicode terms (unicode.normalize text)

variable {unicode path report terms} {blockSize : Nat}

theorem mem_dictionaryTerms {text : Text} :
    text ∈ dictionaryTerms unicode terms ↔ IsWritten unicode terms text := by
  rw [dictionaryTerms, mem_sortDedup, mem_filter, mem_map, decide_eq_true_eq, IsWritten,
    and_comm]

theorem DictionaryFits.contains_written
    (fits : DictionaryFits blockSize (dictionaryTerms unicode terms)) (text : Text) (held : Bool)
    (known : held = true ↔ IsWritten unicode terms (unicode.lowercaseTerm text)) :
    (writtenDictionary blockSize (dictionaryTerms unicode terms) path).contains unicode report
      text = .ok held := by
  rcases fits.find_written path report unicode (strict_sortDedup _)
    (fun term listed => (mem_dictionaryTerms.mp listed).1) text with ⟨found, answer, place⟩
  rw [MmapDictionary.contains, answer]
  refine congrArg Except.ok (Bool.eq_iff_iff.mpr ?_)
  rw [known, ← mem_dictionaryTerms, mem_iff_getElem?, Option.isSome_iff_exists]
  exact exists_congr place

/-- A written dictionary answers for every spelling exactly where the two lower cases agree. -/
theorem dictionaryRoundTrips_iff
    (settled : ∀ text, unicode.lowercaseTerm (unicode.normalize text) = unicode.normalize text)
    (fits : DictionaryFits (max blockSize 1) (dictionaryTerms unicode terms)) :
    DictionaryRoundTrips unicode path report terms blockSize ↔ SpellingsAgree unicode terms := by
  have opened := fits.openDictionary_written path report
  constructor
  · rintro ⟨archive, same, answers⟩
    cases opened.symm.trans same
    constructor
    · intro term listed filled
      by_contra other
      have missed := @DictionaryFits.contains_written unicode path report terms _ fits term false
        (by simp [other])
      cases missed.symm.trans (answers.written term listed filled)
    · intro text written
      by_contra other
      have held := @DictionaryFits.contains_written unicode path report terms _ fits text true
        (by simp [written])
      cases held.symm.trans (answers.foreign text other)
  · intro agree
    refine ⟨_, opened, rfl, ?_, ?_, ?_, ?_⟩
    · intro index term place
      rw [fits.get_written path report, place]
    · intro index term place
      rcases fits.find_written path report unicode (strict_sortDedup _)
        (fun term listed => (mem_dictionaryTerms.mp listed).1) term with ⟨found, answer, known⟩
      rcases (mem_dictionaryTerms.mp (mem_of_getElem? place)).2 with ⟨spelled, -, rfl⟩
      rw [answer, (known index).mpr (by rw [settled, place])]
    · intro term listed filled
      exact fits.contains_written term true (by simp [agree.written term listed filled])
    · intro text other
      exact fits.contains_written text false (by simpa using mt (agree.foreign text) other)

/-- A file that was written is read back as the normal forms in their order, each once. -/
theorem readDictionary_written
    (fits : DictionaryFits (max blockSize 1) (dictionaryTerms unicode terms)) :
    readDictionary path report (writeDictionaryWithBlockSize unicode blockSize terms) =
      .ok (dictionaryTerms unicode terms) := by
  have each : ∀ index ∈ List.range (dictionaryTerms unicode terms).length,
      (writtenDictionary (max blockSize 1) (dictionaryTerms unicode terms) path).get report
        index = .ok ((dictionaryTerms unicode terms).getD index []) := by
    intro index inside
    simp [fits.get_written, mem_range.mp inside]
  refine (congrArg (· >>= _) (fits.openDictionary_written path report)).trans ?_
  refine (mapM_ok each).trans (congrArg Except.ok (ext_getElem (by simp) ?_))
  simp +contextual

end Spellings

section Examples

/-- Two words, one of them not in its normal form. -/
def spelledWords : List Text := [" Alpha".toList, "beta".toList]

theorem fits_spelledWords :
    DictionaryFits (max 1 1) (dictionaryTerms Unicode.ascii spelledWords) := by
  have sorted : dictionaryTerms Unicode.ascii spelledWords = ["alpha".toList, "beta".toList] := by
    decide +kernel
  rw [sorted]
  exact ⟨by decide, by decide, by decide +kernel, by decide, by decide +kernel⟩

theorem readDictionary_spelledWords : readDictionary [] (fun _ => "")
    (writeDictionaryWithBlockSize Unicode.ascii 1 spelledWords) =
      .ok (dictionaryTerms Unicode.ascii spelledWords) :=
  readDictionary_written fits_spelledWords

theorem dictionaryRoundTrips_spelledWords :
    DictionaryRoundTrips Unicode.ascii [] (fun _ => "") spelledWords 1 := by
  have same : ∀ text, Unicode.ascii.normalize text = Unicode.ascii.lowercaseTerm text :=
    fun text => map_eq_flatMap.symm
  refine (dictionaryRoundTrips_iff (fun text => ?_) fits_spelledWords).mpr ⟨?_, ?_⟩
  · rw [same, Unicode.lowercaseTerm_idem]
  · intro term listed filled
    rw [← same]
    exact ⟨filled, term, listed, rfl⟩
  · intro text written
    rwa [same]

/-- A word that ends with a capital sigma. -/
def sigmaWords : List Text := ["aΣ".toList]

theorem fits_sigmaWords : DictionaryFits (max defaultBlockSize 1)
    (dictionaryTerms Unicode.sigma sigmaWords) := by
  have sorted : dictionaryTerms Unicode.sigma sigmaWords = ["aσ".toList] := by decide +kernel
  rw [sorted]
  exact ⟨by decide, by decide, by decide +kernel, by decide, by decide +kernel⟩

/-- The word is written and not found. -/
theorem sigmaWord_missed : ¬DictionaryRoundTrips Unicode.sigma [] (fun _ => "") sigmaWords
    defaultBlockSize := by
  rintro ⟨archive, same, answers⟩
  cases (fits_sigmaWords.openDictionary_written [] fun _ => "").symm.trans same
  have found := answers.written "aΣ".toList (mem_singleton.mpr rfl) (by decide +kernel)
  have other : ¬IsWritten Unicode.sigma sigmaWords (Unicode.sigma.lowercaseTerm "aΣ".toList) := by
    rw [← mem_dictionaryTerms]
    decide +kernel
  have missed := @DictionaryFits.contains_written _ [] (fun _ => "") _ _ fits_sigmaWords
    "aΣ".toList false ⟨(fun held => nomatch held), fun written => absurd written other⟩
  cases missed.symm.trans found

end Examples

end Gfm.Store

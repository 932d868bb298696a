import Gfm.Store.SubstringArchive

/-!
# Looking up a written substring archive

The archive that is written of a list of records opens, and every lookup of a gram with a normal
form of three characters gives the ids of the records whose normalised name contains this form: all
of them, the first ones, those of a volume, and those of each gram of a batch. A lookup with the
limit zero gives nothing and reports nothing cut.
-/

namespace Gfm.Store

open IndexedArchive Postings SliceSearch Sorted Wire

section Grams

variable {unicode : Unicode}

theorem mem_substringGrams {value gram : Text} :
    gram ∈ substringGrams value ↔ gram.length = substringGramChars ∧ gram <:+: value := by
  rw [substringGrams, mem_sortDedup, mem_charRuns]

theorem gramKey_eq_some {gram text : Text} : gramKey unicode gram = some text ↔
    text.length = substringGramChars ∧ normalizeSubstring unicode gram = text := by
  simp only [gramKey, isSubstringGram, decide_eq_true_eq, Option.ite_none_right_eq_some,
    Option.some.injEq]
  constructor
  · rintro ⟨three, rfl⟩
    exact ⟨three, rfl⟩
  · rintro ⟨three, rfl⟩
    exact ⟨three, rfl⟩

variable (letters : ∀ char : Char, char.isAlpha → unicode.isWhitespace char = false)
include letters

/-- A gram that a lookup goes by is in its normal form. -/
theorem settled_gramKey {gram text : Text} (asked : gramKey unicode gram = some text) :
    normalizeSubstring unicode text = text ∧ gramKey unicode text = some text := by
  rcases gramKey_eq_some.mp asked with ⟨three, rfl⟩
  have same : normalizeSubstring unicode (normalizeSubstring unicode gram) =
      normalizeSubstring unicode gram := TextArchive.asciiNormal_idem letters gram
  exact ⟨same, gramKey_eq_some.mpr ⟨three, same⟩⟩

end Grams

section Records

variable (unicode : Unicode) (report : Bytes → String) (path : Path) (records : List FileRecord)

/-- The ids of the records whose normalised name contains a text, in order, each once. -/
def idsContaining (text : Text) : List FileId :=
  sortDedup ((records.filter fun record =>
    text <:+: normalizeSubstring unicode record.name).map fun record => record.id.val)

/-- The normal forms of the grams of a batch that some record contains, in order, each once. -/
def gramsContained (grams : List Text) : List Text :=
  keysAsked (gramKey unicode) (idsContaining unicode records) grams

/-- What the lookups of an archive answer for a gram with a normal form of three characters. A
lookup with the limit zero gives nothing and reports nothing cut. -/
structure SubstringLookups (archive : MmapSubstringArchive) (search : Search Text) : Prop where
  whole : ∀ gram text, gramKey unicode gram = some text →
    archive.idsFor unicode report search gram = .ok (idsContaining unicode records text)
  limited : ∀ gram text, gramKey unicode gram = some text → ∀ limit < 2 ^ 64,
    archive.idsForLimit unicode report search gram limit =
      .ok ((idsContaining unicode records text).take limit,
        0 < limit ∧ limit < (idsContaining unicode records text).length)
  onVolume : ∀ gram text, gramKey unicode gram = some text → ∀ volume limit,
    archive.idsForVolumeLimit unicode report search gram volume limit =
      .ok ((Store.onVolume volume (idsContaining unicode records text)).take limit,
        0 < limit ∧ limit < (Store.onVolume volume (idsContaining unicode records text)).length)
  sortedBatch : ∀ grams, Ascending id (grams.filterMap (gramKey unicode)) → ∀ limit < 2 ^ 64,
    archive.postingsForSortedGramsLimit unicode report grams limit =
      .ok (if limit = 0 then [] else (gramsContained unicode records grams).map fun text =>
        ⟨⟨text, (idsContaining unicode records text).take limit⟩,
          limit < (idsContaining unicode records text).length⟩)
  batch : ∀ grams, archive.postingsFor unicode report search grams =
    .ok ((gramsContained unicode records grams).map fun text =>
      ⟨text, idsContaining unicode records text⟩)
  limitedBatch : ∀ grams, ∀ limit < 2 ^ 64,
    archive.postingsForLimit unicode report grams limit =
      .ok (if limit = 0 then [] else (gramsContained unicode records grams).map fun text =>
        ⟨text, (idsContaining unicode records text).take limit⟩)

/-- Records that a program can hold, and an archive of them that it can hold too. -/
structure SubstringRecordsFit : Prop where
  count : records.length ≤ isizeMax
  written : (writeSubstringPostings unicode
    (substringPostingsFromRecords unicode records)).length ≤ isizeMax

variable {unicode records}

theorem lists_substrings {gram : Text} {id : FileId} :
    Postings.Lists (records.foldl (fun postings record =>
        addEach postings (substringGrams (normalizeSubstring unicode record.name)) record.id.val) ∅)
      gram id ↔ ∃ record ∈ records,
        gram ∈ substringGrams (normalizeSubstring unicode record.name) ∧ record.id.val = id := by
  have lists := @lists_foldl_addEach _ _ _ _ (∅ : PostingMap Text FileId) gram _
    (fun record : FileRecord => substringGrams (normalizeSubstring unicode record.name))
    (fun record => record.id.val) records id
  rw [lists, or_iff_left not_lists_empty]

theorem storedIds_substrings {text : Text} (three : text.length = substringGramChars) :
    storedIds (substringPostingsFromRecords unicode records) text =
      idsContaining unicode records text := by
  refine storedIds_postingsOfMap fun id => ?_
  rw [lists_substrings]
  simp only [List.mem_map, List.mem_filter, decide_eq_true_eq, mem_substringGrams, three, true_and,
    and_assoc]

theorem SubstringRecordsFit.keyed (fit : SubstringRecordsFit unicode records) :
    KeyedFits (substringFormat unicode report) (substringPostingsFromRecords unicode records) := by
  have bound : isizeMax < 2 ^ 64 := by decide
  have written := fit.written
  rw [writeSubstringPostings, TextArchive.write_eq report] at written
  refine keyedFits_postingsOfMap (records.map fun record => record.id.val) ?_ ?_ ?_ written
  · intro gram id listed
    rcases lists_substrings.mp listed with ⟨record, present, -, same⟩
    exact List.mem_map.mpr ⟨record, present, same⟩
  · intro id listed
    rcases List.mem_map.mp listed with ⟨record, -, rfl⟩
    exact record.id.property
  · rw [List.length_map]
    exact Nat.lt_of_le_of_lt fit.count bound

variable (letters : ∀ char : Char, char.isAlpha → unicode.isWhitespace char = false)
include letters

theorem substringLookups_written (fit : SubstringRecordsFit unicode records)
    (search : Search Text) :
    SubstringLookups unicode report records (writtenArchive (substringFormat unicode report)
      (substringPostingsFromRecords unicode records) path) search := by
  have fits := fit.keyed report
  have lawful : (substringFormat unicode report).Lawful (normalizeSubstring unicode) :=
    TextArchive.lawful_format report
  have filled : ∀ posting ∈ substringPostingsFromRecords unicode records, posting.ids ≠ [] :=
    ids_ne_nil_of_filled (filled_empty.foldl_addEach records)
  have answers : (substringFormat unicode report).Answers
      (writtenArchive (substringFormat unicode report)
        (substringPostingsFromRecords unicode records) path) search (gramKey unicode)
      (gramKey unicode) (idsContaining unicode records) :=
    fits.answers path lawful filled (fun _ _ asked => settled_gramKey letters asked)
      fun _ _ asked => storedIds_substrings (gramKey_eq_some.mp asked).1
  exact ⟨answers.whole, answers.limited, answers.onVolume, answers.sortedBatch, answers.batch,
    answers.limitedBatch⟩

/-- The archive of a list of records opens, and its lookups are exact. -/
theorem substringSidecar_exact (fit : SubstringRecordsFit unicode records) :
    ∃ archive, MmapSubstringArchive.openArchive unicode report path (writeSubstringPostings unicode
        (substringPostingsFromRecords unicode records)) = .ok archive ∧
      ∀ search, SubstringLookups unicode report records archive search :=
  ⟨_, TextArchive.openArchive_written report path (fit.keyed report).toKeyedObject,
    substringLookups_written report path letters fit⟩

end Records

section Examples

def reportRecord : FileRecord where
  id := fileId 1 7
  parent := none
  path := "/Report".toList
  name := "Report".toList
  kind := .file
  len := 0
  mode := 420
  owner := 501
  group := 20
  xattrsDigest := 0
  created := none
  modified := none
  changed := none
  hidden := false
  tags := []
  finderComment := none

theorem fit_reportRecord : SubstringRecordsFit Unicode.ascii [reportRecord] :=
  ⟨by decide, by decide +kernel⟩

theorem substringSidecar_exact_report :
    ∃ archive, MmapSubstringArchive.openArchive Unicode.ascii (fun _ => "") []
        (writeSubstringPostings Unicode.ascii
          (substringPostingsFromRecords Unicode.ascii [reportRecord])) = .ok archive ∧
      ∀ search, SubstringLookups Unicode.ascii (fun _ => "") [reportRecord] archive search :=
  substringSidecar_exact (fun _ => "") [] TextArchive.letters_ascii fit_reportRecord

/-- A limit of zero cuts the one id off and does not say so. -/
theorem substringLimit_zero :
    ∃ archive, MmapSubstringArchive.openArchive Unicode.ascii (fun _ => "") []
        (writeSubstringPostings Unicode.ascii
          (substringPostingsFromRecords Unicode.ascii [reportRecord])) = .ok archive ∧
      ∀ search, archive.idsFor Unicode.ascii (fun _ => "") search "por".toList =
          .ok [⟨⟨1⟩, 7⟩] ∧
        archive.idsForLimit Unicode.ascii (fun _ => "") search "por".toList 0 =
          .ok ([], false) := by
  refine ⟨_, TextArchive.openArchive_written _ [] (fit_reportRecord.keyed _).toKeyedObject,
    fun search => ?_⟩
  have lookups := substringLookups_written (fun _ => "") [] TextArchive.letters_ascii
    fit_reportRecord search
  have asked : gramKey Unicode.ascii "por".toList = some "por".toList := by decide +kernel
  refine ⟨(lookups.whole _ _ asked).trans ?_, (lookups.limited _ _ asked 0 (by decide)).trans ?_⟩
  · decide +kernel
  · rfl

end Examples

end Gfm.Store

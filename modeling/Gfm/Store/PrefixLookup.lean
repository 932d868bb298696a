import Gfm.Store.PrefixArchive

/-!
# Looking up a written prefix archive

A lookup finds a posting only if its prefix was given in the normal form, and it finds one posting:
those that were given in other spellings are not found, and those under the same prefix are not put
together. The lookups are complete exactly if what is given in the normal form lists everything.
-/

namespace Gfm.Store

open IndexedArchive KeyedFormat List SliceSearch Sorted SortedWalk TextArchive Wire

section Lookups

variable {unicode : Unicode} {prefixText : Text}

theorem prefixKey_of_blank (blank : normalizePrefix unicode prefixText = []) :
    prefixKey unicode prefixText = none := if_pos blank

theorem prefixKey_of_filled (filled : normalizePrefix unicode prefixText ≠ []) :
    prefixKey unicode prefixText = some (normalizePrefix unicode prefixText) := if_neg filled

/-- Postings that a program can hold and write: the archive is an object. -/
abbrev PrefixFits (unicode : Unicode) (postings : List PrefixPosting) : Prop :=
  KeyedObject (prefixFormat unicode fun _ => "") postings

variable {postings : List PrefixPosting} (path : Path) (report : Bytes → String)
  (search : Search Text)

/-- The archive as it opens. -/
def writtenPrefixArchive (unicode : Unicode) (report : Bytes → String)
    (postings : List PrefixPosting) (path : Path) : MmapPrefixArchive :=
  writtenArchive (prefixFormat unicode report) postings path

/-- A lookup of a blank prefix, or of one that the directory does not have. -/
theorem idsFor_missed (missed : normalizePrefix unicode prefixText = [] ∨
    entryFor search (writtenPrefixArchive unicode report postings path)
      (normalizePrefix unicode prefixText) = none) :
    (writtenPrefixArchive unicode report postings path).idsFor unicode report search prefixText =
      .ok [] := by
  rw [MmapPrefixArchive.idsFor]
  by_cases blank : normalizePrefix unicode prefixText = []
  · rw [prefixKey_of_blank blank]
    rfl
  · rw [prefixKey_of_filled blank, KeyedFormat.idsFor, KeyedFormat.posting, KeyedFormat.postingFor,
      missed.resolve_left blank]
    rfl

namespace PrefixFits

variable (fits : PrefixFits unicode postings)
include fits

theorem openArchive_written :
    MmapPrefixArchive.openArchive unicode report path (writePrefixPostings unicode postings) =
      .ok (writtenPrefixArchive unicode report postings path) :=
  TextArchive.openArchive_written report path (keyedObject_report _ fits report)

/-- The ids of an entry that the search finds. -/
theorem idsFor_found {posting : PrefixPosting} {entry : PrefixDirectoryEntry}
    (listed : posting ∈ postings) (filled : normalizePrefix unicode prefixText ≠ [])
    (same : normalizePrefix unicode posting.key = normalizePrefix unicode prefixText)
    (found : entryFor search (writtenPrefixArchive unicode report postings path)
      (normalizePrefix unicode prefixText) = some entry)
    (leads : (prefixFormat unicode report).Leads
      (writtenPrefixArchive unicode report postings path) entry posting) :
    (writtenPrefixArchive unicode report postings path).idsFor unicode report search prefixText =
      .ok (sortDedup posting.ids) := by
  have posted := (keyedObject_report _ fits report).posting_found path search
    (lawful_format report) listed leads found same
  rw [MmapPrefixArchive.idsFor, prefixKey_of_filled filled, KeyedFormat.idsFor]
  exact congrArg (Except.map fun posting => (posting.map KeyedPosting.ids).getD []) posted

section Limited

variable (letters : ∀ char : Char, char.isAlpha → unicode.isWhitespace char = false)
  (prefixText)
include letters

/-- A limited lookup gives nothing, or the first ids of a posting that was given in the normal
form. -/
theorem idsForLimit_written {limit : Nat} (small : limit < 2 ^ 64) :
    ∃ found, (writtenPrefixArchive unicode report postings path).idsForLimit unicode report search
        prefixText limit = .ok found ∧
      (found.1 = [] ∨ ∃ other ∈ postings, other.key = normalizePrefix unicode prefixText ∧
        found.1 = (sortDedup other.ids).take limit) := by
  have object := keyedObject_report _ fits report
  rw [MmapPrefixArchive.idsForLimit]
  by_cases blank : normalizePrefix unicode prefixText = []
  · rw [prefixKey_of_blank blank]
    exact ⟨([], false), rfl, Or.inl rfl⟩
  · rw [prefixKey_of_filled blank]
    rcases object.entryFor_cases path search (normalizePrefix unicode prefixText) with
      ⟨missed, -⟩ | ⟨entry, -, other, given, found, own, leads⟩
    · exact ⟨_, idsForLimit_missed search missed limit, Or.inl rfl⟩
    · have same : other.key = normalizePrefix unicode prefixText := leads.key.symm.trans own
      have settled : asciiNormal unicode other.key = normalizePrefix unicode prefixText := by
        rw [same]
        exact asciiNormal_idem letters prefixText
      exact ⟨_, object.idsForLimit_found path search (lawful_format report) given leads found own
        settled small, Or.inr ⟨other, given, same, rfl⟩⟩

/-- The same for the ids of one volume. -/
theorem idsForVolumeLimit_written (volume : VolumeId) (limit : Nat) :
    ∃ found, (writtenPrefixArchive unicode report postings path).idsForVolumeLimit unicode report
        search prefixText volume limit = .ok found ∧
      (found.1 = [] ∨ ∃ other ∈ postings, other.key = normalizePrefix unicode prefixText ∧
        found.1 = (onVolume volume (sortDedup other.ids)).take limit) := by
  have object := keyedObject_report _ fits report
  rw [MmapPrefixArchive.idsForVolumeLimit]
  by_cases blank : normalizePrefix unicode prefixText = []
  · rw [prefixKey_of_blank blank]
    exact ⟨([], false), rfl, Or.inl rfl⟩
  · rw [prefixKey_of_filled blank]
    rcases object.entryFor_cases path search (normalizePrefix unicode prefixText) with
      ⟨missed, -⟩ | ⟨entry, -, other, given, found, own, leads⟩
    · exact ⟨_, idsForVolumeLimit_missed search missed volume limit, Or.inl rfl⟩
    · have same : other.key = normalizePrefix unicode prefixText := leads.key.symm.trans own
      have settled : asciiNormal unicode other.key = normalizePrefix unicode prefixText := by
        rw [same]
        exact asciiNormal_idem letters prefixText
      exact ⟨_, object.idsForVolumeLimit_found path search (lawful_format report) given leads found
        own settled volume limit, Or.inr ⟨other, given, same, rfl⟩⟩

end Limited

end PrefixFits

end Lookups

section Complete

variable (unicode : Unicode) (path : Path) (report : Bytes → String)
  (postings : List PrefixPosting)

/-- The ids that are written under a normal form, in order, each once. -/
def idsUnder (text : Text) : List FileId :=
  sortDedup ((postings.filter fun posting =>
    normalizePrefix unicode posting.key = text).flatMap KeyedPosting.ids)

/-- What the lookups of a written prefix are to answer. -/
structure PrefixLookups (archive : MmapPrefixArchive) (search : Search Text) : Prop where
  whole : ∀ posting ∈ postings,
    archive.idsFor unicode report search posting.key =
      .ok (idsUnder unicode postings (normalizePrefix unicode posting.key))
  limited : ∀ posting ∈ postings, ∀ limit < 2 ^ 64, ∃ found,
    archive.idsForLimit unicode report search posting.key limit = .ok found ∧
      found.1 <+: idsUnder unicode postings (normalizePrefix unicode posting.key)
  onVolume : ∀ posting ∈ postings, ∀ volume, ∀ limit < 2 ^ 64, ∃ found,
    archive.idsForVolumeLimit unicode report search posting.key volume limit = .ok found ∧
      found.1 <+: Store.onVolume volume
        (idsUnder unicode postings (normalizePrefix unicode posting.key))
  batch : ∀ prefixes, ∀ limit < 2 ^ 64, ∀ found,
    archive.postingsForSortedPrefixesLimit unicode report prefixes limit = .ok found →
      ∀ limited ∈ found,
        limited.posting.ids <+: idsUnder unicode postings limited.posting.key

/-- The archive opens, and whichever of equal entries a search finds, the lookups are complete. -/
def PrefixArchiveComplete : Prop :=
  ∃ archive, MmapPrefixArchive.openArchive unicode report path
      (writePrefixPostings unicode postings) = .ok archive ∧
    ∀ search, PrefixLookups unicode report postings archive search

/-- The ids of a posting are found: its prefix has a normal form, something is given in this form,
and everything that is lists the ids. -/
structure PostingFound (posting : PrefixPosting) : Prop where
  filled : normalizePrefix unicode posting.key ≠ []
  given : ∃ other ∈ postings, other.key = normalizePrefix unicode posting.key
  listed : ∀ other ∈ postings, other.key = normalizePrefix unicode posting.key →
    posting.ids ⊆ other.ids

variable {unicode path report postings}

theorem mem_idsUnder {text : Text} {id : FileId} : id ∈ idsUnder unicode postings text ↔
    ∃ posting ∈ postings, normalizePrefix unicode posting.key = text ∧
      id ∈ posting.ids := by
  simp [idsUnder, mem_sortDedup, and_assoc]

/-- What is given in the normal form lists all ids of that form. -/
theorem sortDedup_eq_idsUnder
    (each : ∀ posting ∈ postings, posting.ids ≠ [] → PostingFound unicode postings posting)
    {posting : PrefixPosting} (listed : posting ∈ postings)
    (normal : normalizePrefix unicode posting.key = posting.key) :
    sortDedup posting.ids = idsUnder unicode postings posting.key := by
  refine sortDedup_congr fun id => ?_
  simp only [mem_flatMap, mem_filter, decide_eq_true_eq]
  constructor
  · exact fun own => ⟨posting, ⟨listed, normal⟩, own⟩
  · rintro ⟨other, ⟨present, same⟩, own⟩
    have found := each other present fun none => by rw [none] at own; cases own
    exact found.listed posting listed same.symm own

/-- Nothing is written under a form that a lookup misses. -/
theorem idsUnder_of_missed
    (each : ∀ posting ∈ postings, posting.ids ≠ [] → PostingFound unicode postings posting)
    {text : Text} (missed : text = [] ∨ ∀ posting ∈ postings, posting.key ≠ text) :
    idsUnder unicode postings text = [] := by
  rw [eq_nil_iff_forall_not_mem]
  intro id listed
  rcases mem_idsUnder.mp listed with ⟨posting, present, rfl, own⟩
  have found := each posting present fun none => by rw [none] at own; cases own
  rcases missed with blank | nowhere
  · exact found.filled blank
  · rcases found.given with ⟨other, given, same⟩
    exact nowhere other given same

theorem prefixLookups_of_found
    (letters : ∀ char : Char, char.isAlpha → unicode.isWhitespace char = false)
    (fits : PrefixFits unicode postings)
    (each : ∀ posting ∈ postings, posting.ids ≠ [] → PostingFound unicode postings posting)
    (search : Search Text) :
    PrefixLookups unicode report postings (writtenPrefixArchive unicode report postings path)
      search := by
  have idem : ∀ text, normalizePrefix unicode (normalizePrefix unicode text) =
      normalizePrefix unicode text := asciiNormal_idem letters
  have object := keyedObject_report _ fits report
  constructor
  · intro posting listed
    by_cases blank : normalizePrefix unicode posting.key = []
    · rw [idsFor_missed path report search (Or.inl blank), idsUnder_of_missed each (Or.inl blank)]
    · rcases object.entryFor_cases path search (normalizePrefix unicode posting.key) with
        ⟨missed, nowhere⟩ | ⟨entry, -, other, given, found, own, leads⟩
      · rw [idsFor_missed path report search (Or.inr missed),
          idsUnder_of_missed each (Or.inr nowhere)]
      · have same : other.key = normalizePrefix unicode posting.key := leads.key.symm.trans own
        rw [fits.idsFor_found path report search given blank (by rw [same, idem]) found leads,
          sortDedup_eq_idsUnder each given (by rw [same, idem]), same]
  · intro posting listed limit small
    rcases fits.idsForLimit_written posting.key path report search letters small with
      ⟨found, answer, empty | ⟨other, given, same, first⟩⟩
    · exact ⟨found, answer, empty ▸ nil_prefix⟩
    · refine ⟨found, answer, ?_⟩
      rw [first, ← same, ← sortDedup_eq_idsUnder each given (by rw [same, idem])]
      exact take_prefix _ _
  · intro posting listed volume limit _
    rcases fits.idsForVolumeLimit_written posting.key path report search letters volume
      limit with ⟨found, answer, empty | ⟨other, given, same, first⟩⟩
    · exact ⟨found, answer, empty ▸ nil_prefix⟩
    · refine ⟨found, answer, ?_⟩
      rw [first, ← same, ← sortDedup_eq_idsUnder each given (by rw [same, idem])]
      exact take_prefix _ _
  · intro prefixes limit small found known limited present
    rw [MmapPrefixArchive.postingsForSortedPrefixesLimit, postingsForSortedLimit]
      at known
    split at known
    case isTrue =>
      cases known
      cases present
    case isFalse =>
      rcases mem_walkFrom _ known limited present with nothing | ⟨entry, inside, wanted, read⟩
      · cases nothing
      · rcases object.exists_posting path inside with ⟨other, given, leads⟩
        rcases mem_filterMap.mp wanted with ⟨text, -, asked⟩
        have same : normalizePrefix unicode text = entry.key := by
          rw [prefixKey, Option.ite_none_left_eq_some] at asked
          exact Option.some.inj asked.2
        have normal : normalizePrefix unicode other.key = other.key := by
          rw [← leads.key, ← same, idem]
        cases (object.limitedPostingForEntry_found path (lawful_format report) given leads
          (normal.trans leads.key.symm) small).symm.trans read
        change (sortDedup other.ids).take limit <+: idsUnder unicode postings entry.key
        rw [leads.key, ← sortDedup_eq_idsUnder each given normal]
        exact take_prefix _ _

/-- The lookups are complete exactly if the ids of every posting are found. -/
theorem prefixArchiveComplete_iff
    (letters : ∀ char : Char, char.isAlpha → unicode.isWhitespace char = false)
    (fits : PrefixFits unicode postings) :
    PrefixArchiveComplete unicode path report postings ↔
      ∀ posting ∈ postings, posting.ids ≠ [] → PostingFound unicode postings posting := by
  have opened := fits.openArchive_written path report
  constructor
  · rintro ⟨archive, same, complete⟩ posting listed filled
    cases opened.symm.trans same
    rcases exists_mem_of_ne_nil _ filled with ⟨id, own⟩
    have present : id ∈ idsUnder unicode postings (normalizePrefix unicode posting.key) :=
      mem_idsUnder.mpr ⟨posting, listed, rfl, own⟩
    have nonempty : ∀ search : Search Text,
        (writtenPrefixArchive unicode report postings path).idsFor unicode report search
          posting.key ≠ .ok [] := by
      intro search empty
      rw [(complete search).whole posting listed, Except.ok.injEq] at empty
      rw [empty] at present
      cases present
    have blank : normalizePrefix unicode posting.key ≠ [] := fun blank =>
      nonempty .leftmost (idsFor_missed path report .leftmost (Or.inl blank))
    have object : KeyedObject (prefixFormat unicode report) postings :=
      keyedObject_report _ fits report
    refine ⟨blank, ?_, ?_⟩
    · rcases object.entryFor_cases path .leftmost (normalizePrefix unicode posting.key) with
        ⟨missed, -⟩ | ⟨_, -, other, given, -, own, leads⟩
      · exact absurd (idsFor_missed path report .leftmost (Or.inr missed)) (nonempty .leftmost)
      · exact ⟨other, given, leads.key.symm.trans own⟩
    · -- a search may find any entry with the normal form
      intro other given same id own
      rcases object.exists_entry path given with ⟨entry, inside, leads⟩
      rcases getElem?_of_mem inside with ⟨place, known⟩
      have key : ((prefixFormat unicode report).directory postings |>.map
          KeyedDirectoryEntry.key)[place]? = some (normalizePrefix unicode posting.key) := by
        rw [getElem?_map, known, Option.map_some, leads.key, same]
      have found : entryFor (Search.preferring .leftmost _ _ place key)
          (writtenPrefixArchive unicode report postings path)
            (normalizePrefix unicode posting.key) = some entry := by
        rw [entryFor, writtenPrefixArchive, writtenArchive, Search.index_preferring]
        exact known
      have answer := fits.idsFor_found path report _ given blank
        (by rw [same]; exact asciiNormal_idem letters posting.key) found leads
      rw [(complete _).whole posting listed, Except.ok.injEq] at answer
      have among : id ∈ idsUnder unicode postings (normalizePrefix unicode posting.key) :=
        mem_idsUnder.mpr ⟨posting, listed, rfl, own⟩
      rw [answer] at among
      exact mem_sortDedup.mp among
  · exact fun each => ⟨_, opened, prefixLookups_of_found letters fits each⟩

end Complete

section Examples

/-- Ids under a prefix, and some of them under another spelling of it. -/
def spelledPostings : List PrefixPosting :=
  [⟨" Pro".toList, [⟨⟨1⟩, 7⟩]⟩, ⟨"pro".toList, [⟨⟨1⟩, 8⟩, ⟨⟨1⟩, 7⟩]⟩]

set_option maxRecDepth 4000 in
theorem fits_spelledPostings : PrefixFits Unicode.ascii spelledPostings := by
  with_unfolding_all exact ⟨by decide, by decide, by decide⟩

theorem prefixArchiveComplete_spelled :
    PrefixArchiveComplete Unicode.ascii [] (fun _ => "") spelledPostings := by
  refine (prefixArchiveComplete_iff letters_ascii fits_spelledPostings).mpr ?_
  intro posting listed _
  have exact : "pro".toList = normalizePrefix Unicode.ascii posting.key := by
    rcases mem_pair.mp listed with rfl | rfl <;> decide +kernel
  refine ⟨?_, ?_, ?_⟩
  · rw [← exact]
    decide
  · exact ⟨_, mem_pair.mpr (Or.inr rfl), exact⟩
  · intro other given same
    rw [← exact] at same
    rcases mem_pair.mp given with rfl | rfl
    · exact absurd same (by decide)
    · rcases mem_pair.mp listed with rfl | rfl <;> decide

/-- A prefix in capital letters. -/
def capitalPostings : List PrefixPosting := [⟨"Foo".toList, [⟨⟨1⟩, 7⟩]⟩]

theorem fits_capitalPostings : PrefixFits Unicode.ascii capitalPostings := by
  with_unfolding_all exact ⟨by decide, by decide, by decide⟩

/-- The posting is written and no lookup finds it. -/
theorem capitalPrefix_missed :
    ¬PrefixArchiveComplete Unicode.ascii [] (fun _ => "") capitalPostings := by
  rintro ⟨archive, same, complete⟩
  cases (fits_capitalPostings.openArchive_written [] fun _ => "").symm.trans same
  have whole := (complete .leftmost).whole _ (mem_singleton.mpr rfl)
  rcases fits_capitalPostings.entryFor_cases [] .leftmost
      (normalizePrefix Unicode.ascii "Foo".toList) with
    ⟨missed, -⟩ | ⟨_, -, other, given, -, own, leads⟩
  · rw [idsFor_missed [] _ .leftmost (Or.inr missed), Except.ok.injEq] at whole
    exact absurd whole (by decide +kernel)
  · cases mem_singleton.mp given
    exact absurd (leads.key.symm.trans own) (by decide +kernel)

end Examples

end Gfm.Store

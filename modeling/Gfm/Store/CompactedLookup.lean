import Gfm.Store.ContentCompaction
import Gfm.Store.ContentLookup

/-!
# Looking up a compacted archive

A merge gathers the postings by the lower case of the whole term, a lookup goes by the lower case
of its characters. The two differ where the case of a character depends on its neighbours: a
capital sigma at the end of a word becomes a final sigma in the merge, and a plain one in the
lookup.
-/

namespace Gfm.Store

open List Sorted Wire

section Lookup

variable (unicode : Unicode) (path : Path) (report : Bytes → String)

/-- After the compaction of the base postings every query finds the ids of the base postings with
its canonical form. -/
def CompactionKeepsLookups (base : List ContentPosting) : Prop :=
  ∃ archive, MmapContentArchive.openArchive path report (writeContentPostings unicode
      (compactContentPostingsWithSegments unicode base [])) = .ok archive ∧
    ∀ query, ∃ found, archive.postingForTerm unicode report query = .ok found ∧
      ∀ id, (∃ posting, found = some posting ∧ id ∈ posting.ids) ↔
        ∃ posting ∈ base, canonicalTerm unicode posting = unicode.normalize query ∧
          id ∈ posting.ids

/-- The two lower cases lead to the same ids: what a base posting lists is also listed under the
other form of its term. -/
structure FormsAgree (base : List ContentPosting) : Prop where
  found : ∀ posting ∈ base, ∀ id ∈ posting.ids, canonicalTerm unicode posting ≠ [] ∧
    ∃ other ∈ base, unicode.lowercaseTerm other.term = canonicalTerm unicode posting ∧
      PostsId other id none
  only : ∀ posting ∈ base, unicode.lowercaseTerm posting.term ≠ [] →
    ∀ id, PostsId posting id none →
      ∃ other ∈ base, canonicalTerm unicode other = unicode.lowercaseTerm posting.term ∧
        id ∈ other.ids

variable {unicode path report} {base : List ContentPosting}

theorem lowercase_of_compacted {posting : ContentPosting}
    (listed : posting ∈ compactContentPostingsWithSegments unicode base []) :
    ∃ other ∈ base, unicode.lowercaseTerm other.term = posting.term := by
  rcases mem_contentPostingsFromTerms.mp listed with ⟨term, ids, found, rfl⟩
  have member : term ∈ mergedTerms unicode base [] := by
    rw [Std.ExtTreeMap.mem_iff_isSome_getElem?, found]
    rfl
  rcases (known_mergedTerms base [] term).mp member with ⟨nonempty, occurs | recent⟩
  · rcases (occurs_mergedTerms nonempty).mp occurs with ⟨id, layer, kept, other, within, same, -⟩
    have own : layer = base := mem_singleton.mp kept
    rw [own] at within
    exact ⟨other, within, same⟩
  · rcases recent with ⟨layer, kept, other, within, same⟩
    have own : layer = base := mem_singleton.mp kept
    rw [own] at within
    exact ⟨other, within, same⟩

/-- A compacted posting lists every id that it has a position for. -/
theorem mem_ids_of_compacted {posting : ContentPosting} {id : FileId}
    (listed : posting ∈ compactContentPostingsWithSegments unicode base [])
    (posts : PostsId posting id none) : id ∈ posting.ids := by
  rcases mem_contentPostingsFromTerms.mp listed with ⟨term, ids, found, rfl⟩
  rcases postsId_contentPostingOf.mp posts with ⟨set, known, -⟩
  refine Std.ExtTreeMap.mem_keys.mpr ?_
  rw [Std.ExtTreeMap.mem_iff_isSome_getElem?, known]
  rfl

section Settled

variable (settled : ∀ text,
    unicode.normalize (unicode.lowercaseTerm text) = unicode.lowercaseTerm text)
include settled

theorem canonicalTerm_compacted {posting : ContentPosting}
    (listed : posting ∈ compactContentPostingsWithSegments unicode base []) :
    canonicalTerm unicode posting = posting.term := by
  rcases lowercase_of_compacted listed with ⟨other, -, same⟩
  rw [canonicalTerm, ← same, settled]

theorem nodup_canonicalTerm_compacted :
    ((compactContentPostingsWithSegments unicode base []).map (canonicalTerm unicode)).Nodup := by
  have same : (compactContentPostingsWithSegments unicode base []).map (canonicalTerm unicode) =
      (compactContentPostingsWithSegments unicode base []).map ContentPosting.term :=
    map_congr_left fun posting listed => canonicalTerm_compacted settled listed
  rw [same, nodup_iff_pairwise_ne, pairwise_map]
  have strict : Strict ContentPosting.term (compactContentPostingsWithSegments unicode base []) :=
    strict_contentPostingsFromTerms
  refine strict.imp ?_
  intro left right before equal
  rw [equal, Std.compare_self] at before
  cases before

/-- The lookup finds what the base postings list under its canonical form as a whole lower case. -/
theorem found_compacted (query : Text) (id : FileId) :
    (∃ posting, (postingOf unicode (compactContentPostingsWithSegments unicode base []) query).map
        storedPosting = some posting ∧ id ∈ posting.ids) ↔
      unicode.normalize query ≠ [] ∧ ∃ other ∈ base,
        unicode.lowercaseTerm other.term = unicode.normalize query ∧ PostsId other id none := by
  have occurs : ∀ nonempty : unicode.normalize query ≠ [],
      (∃ posting ∈ compactContentPostingsWithSegments unicode base [],
        posting.term = unicode.normalize query ∧ PostsId posting id none) ↔
      ∃ other ∈ base, unicode.lowercaseTerm other.term = unicode.normalize query ∧
        PostsId other id none := by
    intro nonempty
    rw [compactContentPostingsWithSegments, postsId_contentPostingsFromTerms,
      mem_occurrences_mergedTerms nonempty]
    simp [LayersPost, layersOf, LayerPosts]
  by_cases blank : unicode.normalize query = []
  · simp [postingOf, blank]
  rw [postingOf, if_neg blank, ← occurs blank]
  simp only [ne_eq, blank, not_false_eq_true, true_and, Option.map_eq_some_iff]
  constructor
  · rintro ⟨_, ⟨posting, first, rfl⟩, listed⟩
    have among := mem_of_find?_eq_some first
    have same : canonicalTerm unicode posting = unicode.normalize query :=
      of_decide_eq_true (find?_some (p := fun posting =>
        decide (canonicalTerm unicode posting = unicode.normalize query)) first)
    rw [canonicalTerm_compacted settled among] at same
    exact ⟨posting, among, same, Or.inl (mem_sortDedup.mp listed)⟩
  · rintro ⟨posting, among, same, posts⟩
    have canonical : canonicalTerm unicode posting = unicode.normalize query :=
      (canonicalTerm_compacted settled among).trans same
    have some : ((compactContentPostingsWithSegments unicode base []).find? fun posting =>
        canonicalTerm unicode posting = unicode.normalize query).isSome :=
      find?_isSome.mpr ⟨posting, among, decide_eq_true canonical⟩
    rcases Option.isSome_iff_exists.mp some with ⟨first, found⟩
    have other : canonicalTerm unicode first = unicode.normalize query :=
      of_decide_eq_true (find?_some (p := fun posting =>
        decide (canonicalTerm unicode posting = unicode.normalize query)) found)
    have equal : first = posting := inj_on_of_nodup_map
      (nodup_canonicalTerm_compacted settled) (mem_of_find?_eq_some found) among
      (other.trans canonical.symm)
    refine ⟨storedPosting posting, ⟨posting, ?_, rfl⟩, ?_⟩
    · rw [← equal]
      exact found
    · exact mem_sortDedup.mpr (mem_ids_of_compacted among posts)

/-- A compaction keeps the lookups exactly where the two lower cases lead to the same ids. -/
theorem compactionKeepsLookups_iff
    (fits : ArchiveFits unicode (compactContentPostingsWithSegments unicode base [])) :
    CompactionKeepsLookups unicode path report base ↔ FormsAgree unicode base := by
  rcases writeContentPostings_roundTrip unicode path report _ fits
    (nodup_canonicalTerm_compacted settled) with ⟨-, archive, opened, -, each⟩
  have answers : CompactionKeepsLookups unicode path report base ↔ ∀ query id,
      (unicode.normalize query ≠ [] ∧ ∃ other ∈ base,
        unicode.lowercaseTerm other.term = unicode.normalize query ∧ PostsId other id none) ↔
      ∃ posting ∈ base, canonicalTerm unicode posting = unicode.normalize query ∧
        id ∈ posting.ids := by
    constructor
    · rintro ⟨other, same, keeps⟩ query id
      cases opened.symm.trans same
      rcases keeps query with ⟨found, answer, exact⟩
      cases (each query).symm.trans answer
      rw [← found_compacted settled, exact id]
    · intro agree
      refine ⟨archive, opened, fun query => ⟨_, each query, fun id => ?_⟩⟩
      rw [found_compacted settled, agree query id]
  rw [answers]
  constructor
  · intro agree
    constructor
    · intro posting listed id among
      exact (agree posting.term id).mpr ⟨posting, listed, rfl, among⟩
    · intro posting listed nonempty id posts
      have lower := agree (unicode.lowercaseTerm posting.term) id
      rw [settled] at lower
      exact lower.mp ⟨nonempty, posting, listed, rfl, posts⟩
  · intro agree query id
    constructor
    · rintro ⟨nonempty, other, listed, same, posts⟩
      rw [← same] at nonempty ⊢
      exact agree.only other listed nonempty id posts
    · rintro ⟨posting, listed, same, among⟩
      have other := agree.found posting listed id among
      rw [same] at other
      exact other

end Settled

end Lookup

section Sigma

/-- A letter that has a case, among the ASCII letters and the sigmas. -/
def isCased (char : Char) : Bool := char.isAlpha || char = 'Σ' || char = 'σ' || char = 'ς'

def lowerChar (char : Char) : Char := if char = 'Σ' then 'σ' else asciiLower char

/-- The lower case of a text: a capital sigma after a cased letter and before none is final. -/
def lowerText : Bool → Text → Text
  | _, [] => []
  | afterCased, char :: rest =>
      (if char = 'Σ' ∧ afterCased ∧ ¬rest.head?.any isCased then 'ς' else lowerChar char) ::
        lowerText (isCased char) rest

/-- Capital letters and the capital sigma, and every character that stays. -/
theorem lowerChar_cases {motive : Char → Char → Prop} (sigma : motive 'Σ' 'σ')
    (upper : ∀ offset < 26, motive (Char.ofNat (65 + offset)) (Char.ofNat (97 + offset)))
    (other : ∀ char, char ≠ 'Σ' → ¬IsAsciiUpper char → motive char char) (char : Char) :
    motive char (lowerChar char) := by
  rw [lowerChar]
  split
  case isTrue same =>
    rw [same]
    exact sigma
  case isFalse different =>
    exact asciiLower_cases
      (motive := fun char lower => char ≠ 'Σ' → motive char lower)
      (fun offset below _ => upper offset below)
      (fun char notUpper different => other char different notUpper) char different

/-- A character that is in lower case and no capital sigma. -/
def IsLower (char : Char) : Prop := lowerChar char = char ∧ char ≠ 'Σ'

instance : DecidablePred IsLower := fun char =>
  inferInstanceAs (Decidable (lowerChar char = char ∧ char ≠ 'Σ'))

theorem isLower_lowerChar (char : Char) : IsLower (lowerChar char) := by
  refine lowerChar_cases (motive := fun _ lower => IsLower lower) (by decide) (by decide) ?_ char
  intro char different notUpper
  exact ⟨by rw [lowerChar, if_neg different, asciiLower_of_not_upper notUpper], different⟩

theorem asciiWhitespace_lowerChar (char : Char) :
    asciiWhitespace (lowerChar char) = asciiWhitespace char :=
  lowerChar_cases (motive := fun char lower => asciiWhitespace lower = asciiWhitespace char)
    (by decide) (by decide) (fun _ _ _ => rfl) char

theorem isLower_of_mem_lowerText {afterCased : Bool} {text : Text} {char : Char}
    (among : char ∈ lowerText afterCased text) : IsLower char := by
  induction text generalizing afterCased with
  | nil => cases among
  | cons first rest ih =>
      rcases mem_cons.mp among with rfl | later
      · split
        case isTrue => decide
        case isFalse => exact isLower_lowerChar first
      · exact ih later

theorem lowerText_of_isLower {afterCased : Bool} {text : Text}
    (lower : ∀ char ∈ text, IsLower char) : lowerText afterCased text = text := by
  induction text generalizing afterCased with
  | nil => rfl
  | cons char rest ih =>
      have first := lower char mem_cons_self
      rw [lowerText, if_neg (fun final => first.2 final.1), first.1,
        ih fun other later => lower other (mem_cons_of_mem char later)]

theorem map_asciiWhitespace_lowerText (afterCased : Bool) (text : Text) :
    (lowerText afterCased text).map asciiWhitespace = text.map asciiWhitespace := by
  induction text generalizing afterCased with
  | nil => rfl
  | cons char rest ih =>
      rw [lowerText, map_cons, map_cons, ih]
      congr 1
      split
      case isTrue final =>
        rw [final.1]
        decide
      case isFalse => exact asciiWhitespace_lowerChar char

theorem map_trimWith (isWhitespace : Char → Bool) (text : Text) :
    (trimWith isWhitespace text).map isWhitespace =
      ((text.map isWhitespace).dropWhile id).rdropWhile id := by
  simp only [trimWith, List.rdropWhile, dropWhile_map, ← map_reverse, Function.id_comp]

/-- A text with white space where a trimmed one has it is trimmed. -/
theorem trimWith_of_map {isWhitespace : Char → Bool} {text other : Text}
    (same : other.map isWhitespace = text.map isWhitespace)
    (trimmed : trimWith isWhitespace text = text) : trimWith isWhitespace other = other := by
  have whole : (trimWith isWhitespace other).map isWhitespace = other.map isWhitespace := by
    rw [map_trimWith, same, ← map_trimWith, trimmed]
  have within : (trimWith isWhitespace other).Sublist other :=
    (List.rdropWhile_prefix _ _).sublist.trans (dropWhile_sublist _)
  apply within.eq_of_length
  rw [← length_map isWhitespace, whole, length_map]

/-- The ASCII tables, with the sigmas. -/
def Unicode.sigma : Unicode where
  isWhitespace := asciiWhitespace
  isAlphabetic := isCased
  isAlphanumeric := fun char => isCased char || char.isDigit
  charToLowercase := fun char => [lowerChar char]
  toLowercase := lowerText false
  toLowercase_trim_idem := by
    intro text
    rw [trimWith_of_map (map_asciiWhitespace_lowerText false _) (trimWith_idem _ text),
      lowerText_of_isLower fun char among => isLower_of_mem_lowerText among]

end Sigma

section Examples

theorem settled_ascii (text : Text) : Unicode.ascii.normalize (Unicode.ascii.lowercaseTerm text) =
    Unicode.ascii.lowercaseTerm text := by
  have lower : ∀ other, Unicode.ascii.normalize other = Unicode.ascii.lowercaseTerm other := by
    intro other
    exact map_eq_flatMap.symm
  rw [lower, Unicode.lowercaseTerm_idem]

/-- Two spellings of a word. -/
def alphaBase : List ContentPosting :=
  [⟨"Alpha".toList, [⟨⟨1⟩, 7⟩], []⟩, ⟨" alpha".toList, [⟨⟨1⟩, 8⟩], []⟩]

theorem fits_alphaBase : ArchiveFits Unicode.ascii
    (compactContentPostingsWithSegments Unicode.ascii alphaBase []) := by
  have merged : compactContentPostingsWithSegments Unicode.ascii alphaBase [] =
      [⟨"alpha".toList, [⟨⟨1⟩, 7⟩, ⟨⟨1⟩, 8⟩], []⟩] := by decide +kernel
  rw [merged]
  refine ⟨?_, by decide, by decide +kernel⟩
  simp only [forall_mem_singleton]
  exact ⟨by decide +kernel, ⟨by decide, by decide, by decide +kernel⟩,
    fun entry among => absurd among not_mem_nil, by decide⟩

theorem compactionKeepsLookups_alpha :
    CompactionKeepsLookups Unicode.ascii [] (fun _ => "") alphaBase := by
  refine (compactionKeepsLookups_iff settled_ascii fits_alphaBase).mpr ⟨?_, ?_⟩
  · intro posting listed id among
    rcases mem_pair.mp listed with rfl | rfl
    · exact ⟨by decide, _, listed, by decide, Or.inl among⟩
    · exact ⟨by decide, _, listed, by decide, Or.inl among⟩
  · intro posting listed _ id posts
    rcases mem_pair.mp listed with rfl | rfl
    · exact ⟨_, listed, by decide, by simpa [PostsId] using posts⟩
    · exact ⟨_, listed, by decide, by simpa [PostsId] using posts⟩

/-- A word that ends with a capital sigma. -/
def sigmaPostings : List ContentPosting := [⟨"aΣ".toList, [⟨⟨1⟩, 7⟩], []⟩]

theorem fits_sigmaPostings : ArchiveFits Unicode.sigma
    (compactContentPostingsWithSegments Unicode.sigma sigmaPostings []) := by
  have merged : compactContentPostingsWithSegments Unicode.sigma sigmaPostings [] =
      [⟨"aς".toList, [⟨⟨1⟩, 7⟩], []⟩] := by decide +kernel
  rw [merged]
  refine ⟨?_, by decide, by decide +kernel⟩
  simp only [forall_mem_singleton]
  exact ⟨by decide +kernel, ⟨by decide, by decide, by decide +kernel⟩,
    fun entry among => absurd among not_mem_nil, by decide⟩

/-- After the compaction the word is not found. -/
theorem finalSigma_lost :
    ¬CompactionKeepsLookups Unicode.sigma [] (fun _ => "") sigmaPostings := by
  rintro ⟨archive, opened, keeps⟩
  rcases writeContentPostings_roundTrip Unicode.sigma [] (fun _ => "") _ fits_sigmaPostings
    (by decide +kernel) with ⟨-, other, same, -, each⟩
  cases opened.symm.trans same
  rcases keeps "aΣ".toList with ⟨found, answer, exact⟩
  cases (each _).symm.trans answer
  have nothing : postingOf Unicode.sigma
      (compactContentPostingsWithSegments Unicode.sigma sigmaPostings []) "aΣ".toList = none := by
    decide +kernel
  rcases (exact ⟨⟨1⟩, 7⟩).mpr ⟨_, mem_singleton.mpr rfl, rfl, mem_singleton.mpr rfl⟩ with
    ⟨posting, absurd, -⟩
  rw [nothing] at absurd
  cases absurd

end Examples

end Gfm.Store

import Gfm.Store.ContentLookup

/-!
# Lookups of sorted terms

The walk over sorted terms reads, for each distinct canonical term that the archive has, the
posting of the term, and keeps it unless the walk is for a volume that the posting is not on.
-/

namespace Gfm.Store

open List Sorted Wire

/-- The canonical forms of the terms of a batch; a term without one is passed over. -/
def canonicalTerms (unicode : Unicode) (terms : List Text) : List Text :=
  (terms.map unicode.normalize).filter (· ≠ [])

/-- The postings that the terms of a batch stand for, each once. -/
def postingsOf (unicode : Unicode) (postings : List ContentPosting) (terms : List Text) :
    List ContentPosting :=
  (canonicalTerms unicode terms).eraseDups.filterMap fun term =>
    postings.find? fun posting => canonicalTerm unicode posting = term

namespace MmapContentArchive.Holds

variable {unicode : Unicode} {archive : MmapContentArchive} {postings : List ContentPosting}
  {read : Bytes → Except Fault LimitedContentPosting}
  {result : ContentPosting → LimitedContentPosting} (keep : LimitedContentPosting → Bool)
  (unsorted : String)

/-- One term of the walk, by the posting of the term. -/
theorem sortedTermsFrom_step (holds : archive.Holds unicode postings)
    (written : ∀ posting ∈ postings,
      read (writeContentPosting posting archive.version) = .ok (result posting))
    (sameTerm : ∀ posting, (result posting).posting.term = posting.term)
    {previous : Option Text} {index : Nat} (found : List LimitedContentPosting) {term : Text}
    (terms : List Text) (canonical : unicode.normalize term ≠ [])
    (above : ∀ known, previous = some known → (compare known (unicode.normalize term)).isLE)
    (other : previous ≠ some (unicode.normalize term))
    (passed : ∀ entry ∈ archive.directory.take index,
      (compare entry.term (unicode.normalize term)).isLT) :
    archive.sortedTermsFrom unicode read keep unsorted previous index found (term :: terms) =
      archive.sortedTermsFrom unicode read keep unsorted (some (unicode.normalize term))
        (archive.skipSmaller (unicode.normalize term) index)
        (found ++ (((postings.find? fun posting =>
          canonicalTerm unicode posting = unicode.normalize term).toList.map result).filter keep))
        terms := by
  have inOrder : ¬(previous.any fun known =>
      (compare (unicode.normalize term) known).isLT) = true := by
    intro smaller
    cases shape : previous with
    | none =>
        rw [shape] at smaller
        cases smaller
    | some known =>
        have higher := above known shape
        rw [shape, Option.any_some, Ordering.isLT_iff_eq_lt] at smaller
        rw [Std.OrientedOrd.eq_swap, smaller] at higher
        cases higher
  rcases partitionPoint_drop holds.strict.ascending passed with ⟨place, _⟩
  simp only [sortedTermsFrom, if_neg canonical, if_neg inOrder, if_neg other, skipSmaller, place]
  cases later : archive.directory.filter
      fun entry => !(compare entry.term (unicode.normalize term)).isLT with
  | nil =>
      rw [holds.find_none (ne_of_filter_eq_nil later)]
      simp
  | cons entry others =>
      by_cases same : entry.term = unicode.normalize term
      · have listed : entry ∈ archive.directory :=
          mem_of_mem_filter (later ▸ mem_cons_self)
        rcases holds.postingAt_eq listed written sameTerm with ⟨posting, member, known, readIt⟩
        have first := holds.find_canonical member
        rw [← known, same] at first
        rw [same] at readIt
        simp only [head?_cons, if_pos same, readIt, first, bind, Except.bind,
          Option.toList_some, map_cons, map_nil, filter_cons, filter_nil]
        split <;> simp
      · have missing := holds.find_none (ne_of_filter_eq_cons holds.strict.ascending later
          fun equal => same (Std.compare_eq_iff_eq.mp equal))
        simp only [head?_cons, if_neg same, missing]
        simp

/-- The walk from a directory index that has passed only smaller terms. -/
theorem sortedTermsFrom_eq (holds : archive.Holds unicode postings)
    (written : ∀ posting ∈ postings,
      read (writeContentPosting posting archive.version) = .ok (result posting))
    (sameTerm : ∀ posting, (result posting).posting.term = posting.term) (terms : List Text) :
    ∀ (previous : Option Text) (index : Nat) (found : List LimitedContentPosting),
      (∀ known, previous = some known →
        ∀ term ∈ canonicalTerms unicode terms, (compare known term).isLE) →
      (∀ entry ∈ archive.directory.take index,
        ∃ known, previous = some known ∧ (compare entry.term known).isLT) →
      Ascending id (canonicalTerms unicode terms) →
      archive.sortedTermsFrom unicode read keep unsorted previous index found terms =
        .ok (found ++ ((((canonicalTerms unicode terms).filter
          (previous ≠ some ·)).eraseDups.filterMap
          fun term => postings.find? fun posting => canonicalTerm unicode posting = term).map
            result).filter keep) := by
  induction terms with
  | nil =>
      intro previous index found _ _ _
      simp [sortedTermsFrom, canonicalTerms]
  | cons term terms ih =>
      intro previous index found above passed ordered
      by_cases canonical : unicode.normalize term = []
      · have skipped : canonicalTerms unicode (term :: terms) = canonicalTerms unicode terms :=
          filter_cons_of_neg (by simp [canonical])
        rw [skipped] at above ordered ⊢
        simp only [sortedTermsFrom, if_pos canonical]
        exact ih previous index found above passed ordered
      have kept : canonicalTerms unicode (term :: terms) =
          unicode.normalize term :: canonicalTerms unicode terms :=
        filter_cons_of_pos (by simp [canonical])
      rw [kept] at above ordered ⊢
      have later := pairwise_cons.mp ordered
      by_cases repeated : previous = some (unicode.normalize term)
      · have inOrder : ¬(previous.any fun known =>
            (compare (unicode.normalize term) known).isLT) = true := by
          rw [repeated, Option.any_some, Std.ReflOrd.compare_self]
          exact Bool.false_ne_true
        rw [filter_cons_of_neg (by simp [repeated])]
        simp only [sortedTermsFrom, if_neg canonical, if_neg inOrder, if_pos repeated]
        exact ih previous index found
          (fun known same other listed => above known same other (mem_cons_of_mem _ listed))
          passed later.2
      have passedTerm : ∀ entry ∈ archive.directory.take index,
          (compare entry.term (unicode.normalize term)).isLT := by
        intro entry listed
        rcases passed entry listed with ⟨known, same, lower⟩
        have upper := above known same _ mem_cons_self
        rw [Ordering.isLT_iff_eq_lt] at lower ⊢
        exact Std.TransCmp.lt_of_lt_of_isLE lower upper
      have first : ∀ known, previous = some known →
          (compare known (unicode.normalize term)).isLE :=
        fun known same => above known same _ mem_cons_self
      rw [holds.sortedTermsFrom_step keep unsorted written sameTerm found terms canonical first
        repeated passedTerm,
        filter_previous Function.injective_id repeated first later.1]
      rw [ih (some (unicode.normalize term)) (archive.skipSmaller (unicode.normalize term) index) _
        (fun known same other listed => Option.some.inj same ▸ later.1 other listed)
        (fun entry listed => ⟨_, rfl,
          (partitionPoint_drop holds.strict.ascending passedTerm).2 entry listed⟩) later.2]
      simp only [filterMap_cons, append_assoc, ← filter_append, ← map_append]
      cases postings.find? fun posting => canonicalTerm unicode posting = unicode.normalize term <;>
        rfl

variable (report : Bytes → String)

/-- The lookup of sorted terms gives the limited postings that the terms stand for. -/
theorem postingsForSortedTermsLimit_eq (holds : archive.Holds unicode postings)
    {terms : List Text} (ordered : Ascending id (canonicalTerms unicode terms)) {limit : Nat}
    (positive : 0 < limit) :
    archive.postingsForSortedTermsLimit unicode report terms limit =
      .ok (((postingsOf unicode postings terms).map (storedAs archive.version)).map
        (limited limit)) := by
  have walked := holds.sortedTermsFrom_eq (fun _ => true)
    "batch content lookup terms must be sorted"
    (fun posting listed => readContentPostingLimited_written archive.path report archive.version
      (holds.fits posting listed) limit) (fun _ => rfl) terms none 0 []
    (by simp) (by simp) ordered
  have all : (canonicalTerms unicode terms).filter (none ≠ some ·) = canonicalTerms unicode terms :=
    filter_eq_self.mpr (by simp)
  rw [all, nil_append, filter_eq_self.mpr fun _ _ => rfl] at walked
  rw [postingsForSortedTermsLimit, if_neg (Nat.pos_iff_ne_zero.mp positive), walked, map_map]
  rfl

/-- The lookup for a volume gives the limited parts on the volume that are not empty. -/
theorem postingsForSortedTermsVolumeLimit_eq (holds : archive.Holds unicode postings)
    {terms : List Text} (ordered : Ascending id (canonicalTerms unicode terms))
    (volume : VolumeId) {limit : Nat} (positive : 0 < limit) :
    archive.postingsForSortedTermsVolumeLimit unicode report terms volume limit =
      .ok ((((postingsOf unicode postings terms).map (storedAs archive.version)).map
        fun posting => limited limit (ContentPosting.onVolume volume posting)).filter
          fun found => !found.posting.ids.isEmpty || !found.posting.positions.isEmpty) := by
  have walked := holds.sortedTermsFrom_eq
    (fun found => !found.posting.ids.isEmpty || !found.posting.positions.isEmpty)
    "batch content volume lookup terms must be sorted"
    (fun posting listed => readContentPostingForVolumeLimited_written archive.path report
      archive.version (holds.fits posting listed) volume positive) (fun _ => rfl) terms none 0 []
    (by simp) (by simp) ordered
  have all : (canonicalTerms unicode terms).filter (none ≠ some ·) = canonicalTerms unicode terms :=
    filter_eq_self.mpr (by simp)
  rw [all, nil_append] at walked
  rw [postingsForSortedTermsVolumeLimit, if_neg (Nat.pos_iff_ne_zero.mp positive), walked,
    map_map]
  rfl

end MmapContentArchive.Holds

end Gfm.Store

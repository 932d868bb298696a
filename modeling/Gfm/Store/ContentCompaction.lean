import Gfm.Lib.Sorted
import Gfm.Store.ContentView

/-!
# What a full compaction writes

The layers of a content index are the base postings and then the postings of each segment. The
tombstones of a segment void what the older layers say about their ids, so an id keeps its layers
from the last segment that buries it. Compaction writes one posting for every term, with what the
layers of each id say; but a posting without ids leaves an empty one, unless a later segment buries
an id, whichever it is.
-/

namespace Gfm.Store

open List Sorted Std

abbrev Layer := List ContentPosting

/-- The layers that an id keeps. -/
def layersOf (base : Layer) (segments : List StoredSegment) (id : FileId) : List Layer :=
  segments.foldl (fun layers stored =>
    if id ∈ stored.segment.tombstones then [stored.segment.postings]
    else layers ++ [stored.segment.postings]) [base]

/-- The layers from the last segment that buries anything. -/
def recentLayers (base : Layer) (segments : List StoredSegment) : List Layer :=
  segments.foldl (fun layers stored =>
    if stored.segment.tombstones = [] then layers ++ [stored.segment.postings]
    else [stored.segment.postings]) [base]

section Layers

variable (unicode : Unicode)

/-- A layer posts the id under the term, alone or with a position. -/
def LayerPosts (layer : Layer) (term : Text) (id : FileId) (position : Option Nat) : Prop :=
  ∃ posting ∈ layer, unicode.lowercaseTerm posting.term = term ∧ PostsId posting id position

/-- A layer has a posting of the term. -/
def LayerTerm (layer : Layer) (term : Text) : Prop :=
  ∃ posting ∈ layer, unicode.lowercaseTerm posting.term = term

/-- One of the layers that the id keeps posts it under the term. -/
def LayersPost (base : Layer) (segments : List StoredSegment) (term : Text) (id : FileId)
    (position : Option Nat) : Prop :=
  ∃ layer ∈ layersOf base segments id, LayerPosts unicode layer term id position

/-- What a compaction is to write for the layers; a blank term is no term. -/
structure FullyCompacted (base : Layer) (segments : List StoredSegment)
    (output : List ContentPosting) : Prop where
  exact : ∀ term id position, term ≠ [] →
    ((∃ posting ∈ output, posting.term = term ∧ PostsId posting id position) ↔
      LayersPost unicode base segments term id position)
  terms : Strict ContentPosting.term output
  ids : ∀ posting ∈ output, Strict (fun id : FileId => id) posting.ids
  entries : ∀ posting ∈ output, Strict ContentPositions.id posting.positions
  offsets : ∀ posting ∈ output, ∀ entry ∈ posting.positions,
    Strict (fun offset : Nat => offset) entry.positions
  filled : ∀ posting ∈ output, posting.ids ≠ []

/-- Every term that was posted since the last tombstone has an id that is still posted. -/
def RecentTermsLive (base : Layer) (segments : List StoredSegment) : Prop :=
  ∀ layer ∈ recentLayers base segments, ∀ term, term ≠ [] → LayerTerm unicode layer term →
    ∃ id, LayersPost unicode base segments term id none

variable {unicode}

theorem mem_occurrences_postings {terms : Terms} {postings : Layer} {term : Text} {id : FileId}
    {position : Option Nat} (nonempty : term ≠ []) :
    (⟨term, id, position⟩ : Occurrence) ∈
        occurrences (postings.foldl (mergeContentPosting unicode) terms) ↔
      (⟨term, id, position⟩ : Occurrence) ∈ occurrences terms ∨
        LayerPosts unicode postings term id position := by
  rw [occurrences_foldl_mergeContentPosting, Set.mem_union]
  apply or_congr_right
  constructor
  · rintro ⟨posting, listed, same, -, posts⟩
    exact ⟨posting, listed, same, posts⟩
  · rintro ⟨posting, listed, same, posts⟩
    exact ⟨posting, listed, same, nonempty, posts⟩

/-- The step of the law: a segment voids the ids it buries, then adds its own postings. -/
theorem mem_occurrences_segments {terms : Terms} {layers : List Layer}
    {segments : List StoredSegment} {term : Text} {id : FileId} {position : Option Nat}
    (nonempty : term ≠ [])
    (before : (⟨term, id, position⟩ : Occurrence) ∈ occurrences terms ↔
      ∃ layer ∈ layers, LayerPosts unicode layer term id position) :
    (⟨term, id, position⟩ : Occurrence) ∈ occurrences (segments.foldl
        (fun terms stored => applyContentSegment unicode terms stored.segment) terms) ↔
      ∃ layer ∈ segments.foldl (fun layers stored =>
          if id ∈ stored.segment.tombstones then [stored.segment.postings]
          else layers ++ [stored.segment.postings]) layers,
        LayerPosts unicode layer term id position := by
  induction segments generalizing terms layers with
  | nil => exact before
  | cons stored segments ih =>
      rw [foldl_cons, foldl_cons]
      apply ih
      rw [applyContentSegment, mem_occurrences_postings nonempty,
        occurrences_foldl_removeTombstone, Set.mem_ofPred_eq, before]
      by_cases buried : id ∈ stored.segment.tombstones
      · simp [buried]
      · simp [buried, or_and_right, exists_or]

theorem mem_occurrences_mergedTerms {base : Layer} {segments : List StoredSegment} {term : Text}
    {id : FileId} {position : Option Nat} (nonempty : term ≠ []) :
    (⟨term, id, position⟩ : Occurrence) ∈ occurrences (mergedTerms unicode base segments) ↔
      LayersPost unicode base segments term id position := by
  refine mem_occurrences_segments nonempty ?_
  rw [contentTermsFromPostings, mem_occurrences_postings nonempty, occurrences_empty]
  simp

end Layers

section Empties

variable {unicode : Unicode} {terms : Terms} {term : Text}

/-- The term has an id. -/
def Occurs (terms : Terms) (term : Text) : Prop :=
  ∃ id, (⟨term, id, none⟩ : Occurrence) ∈ occurrences terms

theorem occurs_iff : Occurs terms term ↔ ∃ ids, terms[term]? = some ids ∧ ids ≠ ∅ := by
  simp only [Occurs, mem_occurrences, Lists, reduceCtorEq, false_implies, implies_true, and_true]
  constructor
  · rintro ⟨id, ids, found, set, known⟩
    refine ⟨ids, found, ?_⟩
    rintro rfl
    simp at known
  · rintro ⟨ids, found, filled⟩
    by_contra none
    apply filled
    apply ExtTreeMap.ext_getElem?
    intro id
    cases listed : ids[id]? with
    | none => simp
    | some set => exact absurd ⟨id, ids, found, set, listed⟩ none

theorem Occurs.mem (occurs : Occurs terms term) : term ∈ terms := by
  rcases occurs_iff.mp occurs with ⟨ids, found, -⟩
  rw [ExtTreeMap.mem_iff_isSome_getElem?, found]
  rfl

theorem occurs_of_mem_removeTombstone {id : FileId} (known : term ∈ removeTombstone terms id) :
    Occurs (removeTombstone terms id) term := by
  rw [occurs_iff]
  rcases Option.isSome_iff_exists.mp (ExtTreeMap.mem_iff_isSome_getElem?.mp known) with
    ⟨ids, found⟩
  refine ⟨ids, found, ?_⟩
  rintro rfl
  rw [removeTombstone, ExtTreeMap.getElem?_filter] at found
  rcases Option.pfilter_eq_some_iff.mp found with ⟨_, filled⟩
  simp at filled

/-- After a tombstone no term is left without an id. -/
theorem occurs_of_mem_removeTombstones {ids : List FileId} (buries : ids ≠ [])
    (known : term ∈ ids.foldl removeTombstone terms) :
    Occurs (ids.foldl removeTombstone terms) term := by
  rcases eq_nil_or_concat ids with rfl | ⟨earlier, last, rfl⟩
  · exact absurd rfl buries
  · rw [concat_eq_append, foldl_append] at known ⊢
    exact occurs_of_mem_removeTombstone known

theorem mem_mergeContentPosting {posting : ContentPosting} :
    term ∈ mergeContentPosting unicode terms posting ↔
      term ∈ terms ∨ (term ≠ [] ∧ unicode.lowercaseTerm posting.term = term) := by
  simp only [mergeContentPosting]
  split
  case isTrue blank =>
    rw [blank]
    constructor
    · exact Or.inl
    · rintro (known | ⟨nonempty, same⟩)
      · exact known
      · exact absurd same.symm nonempty
  case isFalse nonempty =>
    rw [ExtTreeMap.mem_insert, Std.compare_eq_iff_eq]
    constructor
    · rintro (rfl | known)
      · exact Or.inr ⟨nonempty, rfl⟩
      · exact Or.inl known
    · rintro (known | ⟨-, same⟩)
      · exact Or.inr known
      · exact Or.inl same

theorem mem_mergeContentPostings {postings : Layer} :
    term ∈ postings.foldl (mergeContentPosting unicode) terms ↔
      term ∈ terms ∨ (term ≠ [] ∧ LayerTerm unicode postings term) := by
  induction postings generalizing terms with
  | nil => simp [LayerTerm]
  | cons posting postings ih =>
      rw [foldl_cons, ih, mem_mergeContentPosting, or_assoc, ← and_or_left]
      simp [LayerTerm]

/-- The terms of a map: those with an id, and those that these layers post. -/
def Known (unicode : Unicode) (terms : Terms) (layers : List Layer) : Prop :=
  ∀ term, term ∈ terms ↔
    term ≠ [] ∧ (Occurs terms term ∨ ∃ layer ∈ layers, LayerTerm unicode layer term)

theorem occurs_mergeContentPostings {postings : Layer} (occurs : Occurs terms term) :
    Occurs (postings.foldl (mergeContentPosting unicode) terms) term := by
  rcases occurs with ⟨id, occurs⟩
  refine ⟨id, ?_⟩
  rw [occurrences_foldl_mergeContentPosting]
  exact Or.inl occurs

theorem Known.merge {layers : List Layer} (known : Known unicode terms layers)
    (postings : Layer) :
    Known unicode (postings.foldl (mergeContentPosting unicode) terms) (layers ++ [postings]) := by
  intro term
  simp only [mem_append, mem_singleton, or_and_right, exists_or, exists_eq_left]
  constructor
  · intro member
    rcases mem_mergeContentPostings.mp member with member | ⟨nonempty, posted⟩
    · rcases (known term).mp member with ⟨nonempty, occurs | recent⟩
      · exact ⟨nonempty, Or.inl (occurs_mergeContentPostings occurs)⟩
      · exact ⟨nonempty, Or.inr (Or.inl recent)⟩
    · exact ⟨nonempty, Or.inr (Or.inr posted)⟩
  · rintro ⟨nonempty, occurs | recent | posted⟩
    · exact occurs.mem
    · exact mem_mergeContentPostings.mpr (Or.inl ((known term).mpr ⟨nonempty, Or.inr recent⟩))
    · exact mem_mergeContentPostings.mpr (Or.inr ⟨nonempty, posted⟩)

theorem mem_of_mem_removeTombstones {ids : List FileId}
    (known : term ∈ ids.foldl removeTombstone terms) : term ∈ terms := by
  induction ids generalizing terms with
  | nil => exact known
  | cons id ids ih =>
      rcases ExtTreeMap.mem_filter.mp (ih known) with ⟨member, -⟩
      exact ExtTreeMap.mem_map.mp member

/-- What a segment leaves: with tombstones, only its own postings can leave a term empty. -/
theorem Known.apply {layers : List Layer} (known : Known unicode terms layers)
    (segment : ContentSegment) :
    Known unicode (applyContentSegment unicode terms segment)
      (if segment.tombstones = [] then layers ++ [segment.postings] else [segment.postings]) := by
  rw [applyContentSegment]
  split
  case isTrue none =>
    rw [none]
    exact known.merge segment.postings
  case isFalse buries =>
    have cleaned : Known unicode (segment.tombstones.foldl removeTombstone terms) [] := by
      intro term
      simp only [not_mem_nil, false_and, exists_false, or_false]
      constructor
      · intro member
        exact ⟨((known term).mp (mem_of_mem_removeTombstones member)).1,
          occurs_of_mem_removeTombstones buries member⟩
      · exact fun occurs => occurs.2.mem
    exact cleaned.merge segment.postings

theorem known_mergedTerms (base : Layer) (segments : List StoredSegment) :
    Known unicode (mergedTerms unicode base segments) (recentLayers base segments) := by
  have empty : Known unicode (∅ : Terms) [] := by
    intro term
    simp [Occurs, occurrences_empty]
  have start : Known unicode (contentTermsFromPostings unicode base) [base] := empty.merge base
  rw [mergedTerms, recentLayers]
  generalize contentTermsFromPostings unicode base = terms at start
  generalize [base] = layers at start
  induction segments generalizing terms layers with
  | nil => exact start
  | cons stored segments ih =>
      rw [foldl_cons, foldl_cons]
      exact ih _ _ (start.apply stored.segment)

theorem occurs_mergedTerms {base : Layer} {segments : List StoredSegment}
    (nonempty : term ≠ []) :
    Occurs (mergedTerms unicode base segments) term ↔
      ∃ id, LayersPost unicode base segments term id none :=
  exists_congr fun _ => mem_occurrences_mergedTerms nonempty

end Empties

section Output

variable {unicode : Unicode} {terms : Terms}

theorem mem_contentPostingsFromTerms {posting : ContentPosting} :
    posting ∈ contentPostingsFromTerms terms ↔
      ∃ term ids, terms[term]? = some ids ∧ contentPostingOf term ids = posting := by
  simp only [contentPostingsFromTerms, mem_map, Prod.exists,
    ExtTreeMap.mem_toList_iff_getElem?_eq_some]

theorem postsId_contentPostingsFromTerms {term : Text} {id : FileId} {position : Option Nat} :
    (∃ posting ∈ contentPostingsFromTerms terms,
        posting.term = term ∧ PostsId posting id position) ↔
      (⟨term, id, position⟩ : Occurrence) ∈ occurrences terms := by
  rw [mem_occurrences]
  constructor
  · rintro ⟨posting, listed, same, posts⟩
    rcases mem_contentPostingsFromTerms.mp listed with ⟨own, ids, found, rfl⟩
    have equal : own = term := same
    rw [equal] at found
    exact ⟨ids, found, postsId_contentPostingOf.mp posts⟩
  · rintro ⟨ids, found, lists⟩
    exact ⟨_, mem_contentPostingsFromTerms.mpr ⟨term, ids, found, rfl⟩, rfl,
      postsId_contentPostingOf.mpr lists⟩

theorem strict_contentPostingsFromTerms :
    Strict ContentPosting.term (contentPostingsFromTerms terms) := by
  rw [Strict, contentPostingsFromTerms, pairwise_map]
  exact ExtTreeMap.ordered_keys_toList

theorem strict_ids (term : Text) (ids : IdPositions) :
    Strict (fun id : FileId => id) (contentPostingOf term ids).ids := by
  have ordered : ids.keys.Pairwise fun left right => compare left right = .lt :=
    ExtTreeMap.ordered_keys
  exact ordered

theorem strict_entries (term : Text) (ids : IdPositions) :
    Strict ContentPositions.id (contentPostingOf term ids).positions := by
  rw [Strict, contentPostingOf, pairwise_map]
  exact ExtTreeMap.ordered_keys_toList.filter _

theorem strict_offsets (term : Text) (ids : IdPositions) :
    ∀ entry ∈ (contentPostingOf term ids).positions,
      Strict (fun offset : Nat => offset) entry.positions := by
  intro entry listed
  rcases mem_map.mp listed with ⟨⟨id, positions⟩, -, rfl⟩
  have ordered : positions.toList.Pairwise fun left right => compare left right = .lt :=
    ExtTreeSet.ordered_toList
  exact ordered

/-- A posting is empty where its term has no id. -/
theorem filled_iff : (∀ posting ∈ contentPostingsFromTerms terms, posting.ids ≠ []) ↔
    ∀ term ∈ terms, Occurs terms term := by
  constructor
  · intro filled term member
    rcases Option.isSome_iff_exists.mp (ExtTreeMap.mem_iff_isSome_getElem?.mp member) with
      ⟨ids, found⟩
    refine occurs_iff.mpr ⟨ids, found, ?_⟩
    rintro rfl
    exact filled _ (mem_contentPostingsFromTerms.mpr ⟨term, ∅, found, rfl⟩)
      (by simp [contentPostingOf])
  · intro occurs posting listed
    rcases mem_contentPostingsFromTerms.mp listed with ⟨term, ids, found, rfl⟩
    have member : term ∈ terms := by
      rw [ExtTreeMap.mem_iff_isSome_getElem?, found]
      rfl
    rcases occurs_iff.mp (occurs term member) with ⟨others, same, filled⟩
    rw [found, Option.some_inj] at same
    rw [← same] at filled
    intro empty
    apply filled
    have none : ids.keys = [] := empty
    simpa using none

/-- The compaction writes what the layers say, sorted and without duplicates; it leaves no empty
posting exactly where every term posted since the last tombstone is still posted. -/
theorem fullyCompacted_iff (unicode : Unicode) (base : List ContentPosting)
    (segments : List StoredSegment) :
    FullyCompacted unicode base segments
        (compactContentPostingsWithSegments unicode base segments) ↔
      RecentTermsLive unicode base segments := by
  have known : Known unicode (mergedTerms unicode base segments) (recentLayers base segments) :=
    known_mergedTerms base segments
  have live : (∀ term ∈ mergedTerms unicode base segments,
      Occurs (mergedTerms unicode base segments) term) ↔
      RecentTermsLive unicode base segments := by
    constructor
    · intro occurs layer recent term nonempty posted
      exact (occurs_mergedTerms nonempty).mp
        (occurs term ((known term).mpr ⟨nonempty, Or.inr ⟨layer, recent, posted⟩⟩))
    · intro posted term member
      rcases (known term).mp member with ⟨nonempty, occurs | ⟨layer, recent, listed⟩⟩
      · exact occurs
      · exact (occurs_mergedTerms nonempty).mpr (posted layer recent term nonempty listed)
  rw [← live, ← filled_iff]
  constructor
  · exact FullyCompacted.filled
  · intro filled
    refine ⟨fun term id position nonempty => ?_, strict_contentPostingsFromTerms, ?_, ?_, ?_,
      filled⟩
    · rw [← mem_occurrences_mergedTerms nonempty]
      exact postsId_contentPostingsFromTerms
    · intro posting listed
      rcases mem_contentPostingsFromTerms.mp listed with ⟨term, ids, -, rfl⟩
      exact strict_ids term ids
    · intro posting listed
      rcases mem_contentPostingsFromTerms.mp listed with ⟨term, ids, -, rfl⟩
      exact strict_entries term ids
    · intro posting listed
      rcases mem_contentPostingsFromTerms.mp listed with ⟨term, ids, -, rfl⟩
      exact strict_offsets term ids

/-- A posting without ids is compacted to a posting without ids. -/
theorem compacted_empty : ¬FullyCompacted Unicode.ascii [⟨"a".toList, [], []⟩] []
    (compactContentPostingsWithSegments Unicode.ascii [⟨"a".toList, [], []⟩] []) := by
  intro compacted
  exact compacted.filled ⟨"a".toList, [], []⟩ (by decide +kernel) rfl

end Output

end Gfm.Store

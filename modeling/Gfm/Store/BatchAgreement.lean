import Gfm.Store.BatchLookups

/-!
# When a batch agrees with single lookups

A batch gives for every term what the single lookup of the term gives, exactly if the postings that
are stored under another spelling of a term add nothing to those that carry the term itself.
-/

namespace Gfm.Store

open List MmapContentSet Sorted Std Wire

section Contributions

variable {limit : Nat} {term : Text} {postings : List ContentPosting}

/-- The ids that the limited reads of the postings list, in order and each once. -/
def readIds (limit : Nat) (postings : List ContentPosting) : List FileId :=
  sortDedup (postings.flatMap fun posting =>
    (limited limit posting).posting.ids ++
      (limited limit posting).posting.positions.map ContentPositions.id)

/-- What is read under other spellings lists no id or position among the first ids that is not read
under the term itself. -/
def AddsNothing (limit : Nat) (term : Text) (postings : List ContentPosting) : Prop :=
  ∀ posting ∈ postings, posting.term ≠ term → ∀ id ∈ (readIds limit postings).take limit,
    ∀ position, PostsId (limited limit posting).posting id position →
      ∃ own ∈ ownPostings term postings, PostsId (limited limit own).posting id position

/-- Something is left out by the limit. -/
def LeavesOut (limit : Nat) (postings : List ContentPosting) : Prop :=
  (∃ posting ∈ postings, (limited limit posting).truncated = true) ∨
    limit < (readIds limit postings).length

/-- If something is left out, something is that is read under the term itself. -/
def AddsNoMore (limit : Nat) (term : Text) (postings : List ContentPosting) : Prop :=
  LeavesOut limit postings → LeavesOut limit (ownPostings term postings)

theorem mem_readIds {id : FileId} :
    id ∈ readIds limit postings ↔
      ∃ posting ∈ postings, PostsId (limited limit posting).posting id none := by
  simp only [readIds, mem_sortDedup, mem_flatMap, mem_append, mem_map, PostsId]

theorem readIds_eq : readIds limit postings = (limitedUnion limit postings).keys := by
  have strict : @Strict FileId FileId _ id (readIds limit postings) := strict_sortDedup _
  refine strict.eq_of_perm (strict_keys _) ?_
  refine (perm_ext_iff_of_nodup strict.nodup (strict_keys _).nodup).mpr fun id => ?_
  rw [mem_readIds, mem_keys_iff, lists_limitedUnion]

theorem mem_ownPostings {posting : ContentPosting} :
    posting ∈ ownPostings term postings ↔ posting ∈ postings ∧ posting.term = term := by
  rw [ownPostings, mem_filter, decide_eq_true_eq]

theorem lists_own {id : FileId} {position : Option Nat}
    (lists : Lists (limitedUnion limit (ownPostings term postings))[id]? position) :
    Lists (limitedUnion limit postings)[id]? position := by
  rw [lists_limitedUnion] at lists ⊢
  rcases lists with ⟨own, listed, posts⟩
  exact ⟨own, (mem_ownPostings.mp listed).1, posts⟩

theorem keys_own {id : FileId}
    (listed : id ∈ (limitedUnion limit (ownPostings term postings)).keys) :
    id ∈ (limitedUnion limit postings).keys :=
  mem_keys_iff.mpr (lists_own (mem_keys_iff.mp listed))

theorem getElem?_popDownTo (ids : IdPositions) {id : FileId} (first : id ∈ ids.keys.take limit) :
    (popDownTo limit ids)[id]? = ids[id]? := by
  rw [popDownTo_eq, ExtTreeMap.getElem?_filter']
  cases ids[id]? with
  | none => rfl
  | some positions => simp [Option.filter, first]

theorem lists_of_popDownTo {ids : IdPositions} {id : FileId} {position : Option Nat}
    (lists : Lists (popDownTo limit ids)[id]? position) : Lists ids[id]? position := by
  rw [popDownTo_eq, ExtTreeMap.getElem?_filter'] at lists
  rcases lists with ⟨set, found, known⟩
  exact ⟨set, (Option.filter_eq_some_iff.mp found).1, known⟩

/-- The first ids, with their positions, are those that are read under the term itself exactly if
the other spellings add nothing. -/
theorem popDownTo_own_iff :
    popDownTo limit (limitedUnion limit postings) =
        popDownTo limit (limitedUnion limit (ownPostings term postings)) ↔
      AddsNothing limit term postings := by
  constructor
  · intro same posting listed _ id first position posts
    rw [readIds_eq] at first
    have lists : Lists (limitedUnion limit postings)[id]? position :=
      lists_limitedUnion.mpr ⟨posting, listed, posts⟩
    rw [← getElem?_popDownTo _ first, same] at lists
    exact lists_limitedUnion.mp (lists_of_popDownTo lists)
  · intro nothing
    have value : ∀ id ∈ (limitedUnion limit postings).keys.take limit,
        (limitedUnion limit postings)[id]? =
          (limitedUnion limit (ownPostings term postings))[id]? := by
      intro id first
      refine eq_of_lists fun position => ⟨fun lists => ?_, lists_own⟩
      rcases lists_limitedUnion.mp lists with ⟨posting, listed, posts⟩
      by_cases own : posting.term = term
      · exact lists_limitedUnion.mpr ⟨posting, mem_ownPostings.mpr ⟨listed, own⟩, posts⟩
      · rw [← readIds_eq] at first
        exact lists_limitedUnion.mpr (nothing posting listed own id first position posts)
    have firstKeys : (limitedUnion limit (ownPostings term postings)).keys.take limit =
        (limitedUnion limit postings).keys.take limit := by
      refine (strict_keys _).take_eq (strict_keys _) (fun id => keys_own) fun id first => ?_
      have listed := mem_keys_iff.mp (mem_of_mem_take first)
      rw [value id first] at listed
      exact mem_keys_iff.mpr listed
    rw [popDownTo_eq, popDownTo_eq, firstKeys]
    apply ExtTreeMap.ext_getElem?
    intro id
    rw [ExtTreeMap.getElem?_filter', ExtTreeMap.getElem?_filter']
    by_cases first : id ∈ (limitedUnion limit postings).keys.take limit
    · rw [value id first]
    · simp only [first, decide_false]
      cases (limitedUnion limit postings)[id]? <;>
        cases (limitedUnion limit (ownPostings term postings))[id]? <;> rfl

end Contributions

section Lookups

variable {limit : Nat} {term : Text} {postings : List ContentPosting}

theorem contentPostingOf_injective {left right : IdPositions}
    (same : contentPostingOf term left = contentPostingOf term right) : left = right := by
  apply ExtTreeMap.ext_getElem?
  intro id
  refine eq_of_lists fun position => ?_
  rw [← @postsId_contentPostingOf term, ← @postsId_contentPostingOf term, same]

theorem popDownTo_of_le {ids : IdPositions} (fits : ids.size ≤ limit) :
    popDownTo limit ids = ids := by
  rw [popDownTo, Nat.sub_eq_zero_of_le fits, Function.iterate_zero, id_eq]

theorem isEmpty_popDownTo (positive : 0 < limit) (ids : IdPositions) :
    (popDownTo limit ids).isEmpty = ids.isEmpty := by
  have sizes : (popDownTo limit ids).size = min limit ids.size := by
    rw [← ExtTreeMap.length_keys, popDownTo_eq, keys_filter_take, length_take,
      ExtTreeMap.length_keys]
  rw [ExtTreeMap.isEmpty_eq_size_beq_zero, ExtTreeMap.isEmpty_eq_size_beq_zero, sizes,
    Bool.eq_iff_iff, beq_iff_eq, beq_iff_eq]
  omega

/-- A lookup in one form: nothing, or the first ids that are read and whether some are left out. -/
theorem foundOf_lookupOf (positive : 0 < limit) :
    foundOf (lookupOf term limit postings) =
      if (popDownTo limit (limitedUnion limit postings)).isEmpty then none
      else some ⟨contentPostingOf term (popDownTo limit (limitedUnion limit postings)),
        (postings.any fun posting => (limited limit posting).truncated) ||
          decide (limit < (limitedUnion limit postings).size)⟩ := by
  rw [isEmpty_popDownTo positive, lookupOf]
  split
  case isTrue => rfl
  case isFalse =>
    split
    case isTrue more =>
      rw [decide_eq_true more, Bool.or_true]
      rfl
    case isFalse fits =>
      rw [decide_eq_false fits, Bool.or_false, popDownTo_of_le (Nat.not_lt.mp fits)]
      rfl

theorem leavesOut_iff :
    ((postings.any fun posting => (limited limit posting).truncated) ||
      decide (limit < (limitedUnion limit postings).size)) = true ↔ LeavesOut limit postings := by
  rw [LeavesOut, readIds_eq, ExtTreeMap.length_keys, Bool.or_eq_true, any_eq_true,
    decide_eq_true_eq]

theorem LeavesOut.of_own (leaves : LeavesOut limit (ownPostings term postings)) :
    LeavesOut limit postings := by
  rcases leaves with ⟨own, listed, cut⟩ | more
  · exact Or.inl ⟨own, (mem_ownPostings.mp listed).1, cut⟩
  · refine Or.inr (Nat.lt_of_lt_of_le more ?_)
    rw [readIds_eq, readIds_eq]
    exact (subperm_of_subset ExtTreeMap.nodup_keys fun id => keys_own).length_le

/-- Where nothing is read, nothing is left out. -/
theorem not_leavesOut (positive : 0 < limit)
    (empty : (limitedUnion limit postings).isEmpty = true) : ¬LeavesOut limit postings := by
  have none : readIds limit postings = [] := by
    rw [readIds_eq]
    refine length_eq_zero_iff.mp ?_
    rw [ExtTreeMap.length_keys]
    rwa [ExtTreeMap.isEmpty_eq_size_beq_zero, beq_iff_eq] at empty
  rintro (⟨posting, listed, cut⟩ | more)
  · have unread : ∀ id, ¬PostsId (limited limit posting).posting id Option.none :=
      fun id posts => by
      have member := mem_readIds.mpr ⟨posting, listed, posts⟩
      rw [none] at member
      cases member
    simp only [limited, Bool.or_eq_true, decide_eq_true_eq] at cut
    rcases cut with longer | longer
    · have filled : (posting.ids.take limit) ≠ [] := by
        refine ne_nil_of_length_pos ?_
        rw [length_take]
        omega
      rcases exists_mem_of_ne_nil _ filled with ⟨id, first⟩
      exact unread id (Or.inl first)
    · have filled : (posting.positions.take limit) ≠ [] := by
        refine ne_nil_of_length_pos ?_
        rw [length_take]
        omega
      rcases exists_mem_of_ne_nil _ filled with ⟨entry, first⟩
      exact unread entry.id (Or.inr ⟨entry, first, rfl⟩)
  · rw [none] at more
    exact Nat.not_lt_zero _ more

theorem lookupOf_own_iff (positive : 0 < limit) :
    (lookupOf term limit (ownPostings term postings)).1 = (lookupOf term limit postings).1 ↔
      AddsNothing limit term postings := by
  have shape : ∀ postings : List ContentPosting, (lookupOf term limit postings).1 =
      if (popDownTo limit (limitedUnion limit postings)).isEmpty then none
      else some (contentPostingOf term (popDownTo limit (limitedUnion limit postings))) := by
    intro postings
    rw [isEmpty_popDownTo positive, lookupOf]
    split
    case isTrue => rfl
    case isFalse =>
      split
      case isTrue => rfl
      case isFalse fits =>
        rw [popDownTo_of_le (Nat.not_lt.mp fits)]
        rfl
  rw [← popDownTo_own_iff, shape, shape]
  constructor
  · intro same
    by_cases empty : (popDownTo limit (limitedUnion limit postings)).isEmpty = true
    · rw [if_pos empty] at same
      by_cases emptyOwn :
          (popDownTo limit (limitedUnion limit (ownPostings term postings))).isEmpty = true
      · rw [ExtTreeMap.isEmpty_iff] at empty emptyOwn
        rw [empty, emptyOwn]
      · rw [if_neg emptyOwn] at same
        cases same
    · rw [if_neg empty] at same
      by_cases emptyOwn :
          (popDownTo limit (limitedUnion limit (ownPostings term postings))).isEmpty = true
      · rw [if_pos emptyOwn] at same
        cases same
      · rw [if_neg emptyOwn] at same
        exact (contentPostingOf_injective (Option.some.inj same)).symm
  · intro same
    rw [same]

/-- With what is left out: the other spellings must not be the only ones that leave something
out. -/
theorem foundOf_own_iff (positive : 0 < limit) :
    foundOf (lookupOf term limit (ownPostings term postings)) =
        foundOf (lookupOf term limit postings) ↔
      AddsNothing limit term postings ∧ AddsNoMore limit term postings := by
  rw [← popDownTo_own_iff, foundOf_lookupOf positive, foundOf_lookupOf positive]
  have flags : (((ownPostings term postings).any fun posting =>
    (limited limit posting).truncated) ||
      decide (limit < (limitedUnion limit (ownPostings term postings)).size)) =
        ((postings.any fun posting => (limited limit posting).truncated) ||
          decide (limit < (limitedUnion limit postings).size)) ↔
            AddsNoMore limit term postings := by
    rw [Bool.eq_iff_iff, leavesOut_iff, leavesOut_iff]
    exact ⟨fun same => same.mpr, fun more => ⟨LeavesOut.of_own, more⟩⟩
  by_cases empty : (popDownTo limit (limitedUnion limit postings)).isEmpty = true
  · have unread := empty
    rw [isEmpty_popDownTo positive] at unread
    have noMore : AddsNoMore limit term postings := fun leaves =>
      absurd leaves (not_leavesOut positive unread)
    rw [if_pos empty, and_iff_left noMore]
    by_cases emptyOwn :
        (popDownTo limit (limitedUnion limit (ownPostings term postings))).isEmpty = true
    · rw [if_pos emptyOwn]
      rw [ExtTreeMap.isEmpty_iff] at empty emptyOwn
      rw [empty, emptyOwn]
      exact iff_of_true rfl rfl
    · rw [if_neg emptyOwn]
      refine iff_of_false (Option.some_ne_none _) fun same => emptyOwn ?_
      rwa [← same]
  · rw [if_neg empty]
    by_cases emptyOwn :
        (popDownTo limit (limitedUnion limit (ownPostings term postings))).isEmpty = true
    · rw [if_pos emptyOwn]
      refine iff_of_false (Option.some_ne_none _).symm fun both => empty ?_
      rw [both.1]
      exact emptyOwn
    · rw [if_neg emptyOwn, Option.some_inj, LimitedContentPosting.mk.injEq]
      refine and_congr ?_ flags
      exact ⟨fun same => (contentPostingOf_injective same).symm, fun same => by rw [same]⟩

end Lookups

section Batches

variable {unicode : Unicode} {report : Bytes → String} (held : List (HeldArchive unicode))

theorem normalize_posting (archive : HeldArchive unicode) {term : Text}
    {stored : ContentPosting} (found : archive.posting term = some stored) :
    unicode.normalize stored.term = unicode.normalize term := by
  rcases Option.map_eq_some_iff.mp found with ⟨posting, first, rfl⟩
  have kept : (storedAs archive.archive.version posting).term = posting.term := by
    cases archive.archive.version <;> rfl
  rw [kept]
  rw [postingOf] at first
  split at first
  case isTrue => cases first
  case isFalse =>
    have same : decide (canonicalTerm unicode posting = unicode.normalize term) = true :=
      find?_some (p := fun posting => decide (canonicalTerm unicode posting =
        unicode.normalize term)) first
    exact of_decide_eq_true same

/-- A batch gives what single lookups make of the postings that carry their terms. -/
theorem postingsForTermsLimit_eq
    (idempotent : ∀ text, unicode.normalize (unicode.normalize text) = unicode.normalize text)
    (terms : List Text) {limit : Nat} (positive : 0 < limit) :
    postingsForTermsLimit unicode report ⟨held.map HeldArchive.archive⟩ terms
        limit =
      .ok ((selectTerms unicode terms).filterMap fun term => (lookupOf term limit
        (ownPostings term (postingsFor held term))).1) := by
  have selects := Selected.of_terms idempotent terms
  have reads : ∀ archive ∈ held, ∃ found, archive.archive.postingsForSortedTermsLimit unicode
      report (selectTerms unicode terms) limit = .ok found ∧ ∀ entry : TermFound,
        found.foldl (fun entry read => mergeLimited read entry) entry =
          foundFrom limit entry ((selectTerms unicode terms).filterMap archive.posting) :=
    fun archive _ => Selected.reads archive selects positive
  have canonical : ∀ (archive : HeldArchive unicode) term stored,
      archive.posting term = some stored →
        unicode.normalize stored.term = unicode.normalize term :=
    fun archive term stored found => normalize_posting archive found
  have walked := @postingsFrom_eq unicode held
    (fun archive => archive.postingsForSortedTermsLimit unicode report
      (selectTerms unicode terms) limit) HeldArchive.posting _ limit reads canonical selects.nodup
    selects.fixed
  rw [postingsForTermsLimit, if_neg (Nat.pos_iff_ne_zero.mp positive)]
  refine (congrArg (Except.map (List.map LimitedContentPosting.posting)) walked).trans ?_
  refine congrArg Except.ok ?_
  rw [map_filterMap]
  refine filterMap_congr fun term _ => ?_
  rw [foundOf, Option.map_map]
  exact Option.map_id'

theorem postingsForTermsVolumeLimit_eq
    (idempotent : ∀ text, unicode.normalize (unicode.normalize text) = unicode.normalize text)
    (terms : List Text) (volume : VolumeId) {limit : Nat} (positive : 0 < limit) :
    postingsForTermsVolumeLimit unicode report ⟨held.map HeldArchive.archive⟩ terms
        volume limit =
      .ok ((selectTerms unicode terms).filterMap fun term => foundOf (lookupOf term limit
        (ownPostings term (partsFor held volume term)))) := by
  have selects := Selected.of_terms idempotent terms
  have canonical : ∀ (archive : HeldArchive unicode) term stored,
      archive.postingOn volume term = some stored →
        unicode.normalize stored.term = unicode.normalize term := by
    intro archive term stored found
    rcases Option.map_eq_some_iff.mp found with ⟨posting, first, rfl⟩
    have same := normalize_posting archive first
    exact same
  rw [postingsForTermsVolumeLimit, if_neg (Nat.pos_iff_ne_zero.mp positive)]
  exact postingsFrom_eq
    (fun archive _ => @Selected.readsOn unicode report archive _ selects volume limit positive)
    canonical selects.nodup selects.fixed

/-- Lists of what is found for terms are equal exactly if the same is found for each term. -/
theorem filterMap_eq_iff {Found : Type} (name : Found → Text) {selected : List Text}
    {left right : Text → Option Found}
    (named : ∀ term found, left term = some found ∨ right term = some found →
      name found = term) :
    selected.filterMap left = selected.filterMap right ↔
      ∀ term ∈ selected, left term = right term := by
  have within : ∀ {left right : Text → Option Found},
      (∀ term found, left term = some found ∨ right term = some found → name found = term) →
        selected.filterMap left = selected.filterMap right → ∀ term ∈ selected, ∀ found,
          left term = some found → right term = some found := by
    intro left right named same term listed found own
    have member := mem_filterMap.mpr ⟨term, listed, own⟩
    rw [same] at member
    rcases mem_filterMap.mp member with ⟨other, -, read⟩
    rwa [← named other found (Or.inr read), named term found (Or.inl own)] at read
  constructor
  · intro same term listed
    refine Option.ext fun found => ⟨within named same term listed found, ?_⟩
    exact within (fun term found known => named term found known.symm) same.symm term listed found
  · exact filterMap_congr

theorem term_lookupOf {limit : Nat} {term : Text} {postings : List ContentPosting}
    {found : ContentPosting} (first : (lookupOf term limit postings).1 = some found) :
    found.term = term := by
  rw [lookupOf] at first
  split at first
  case isTrue => cases first
  case isFalse =>
    split at first
    case isTrue =>
      rw [← Option.some.inj first]
      rfl
    case isFalse =>
      rw [← Option.some.inj first]
      rfl

theorem term_foundOf {limit : Nat} {term : Text} {postings : List ContentPosting}
    {found : LimitedContentPosting} (first : foundOf (lookupOf term limit postings) = some found) :
    found.posting.term = term := by
  rcases Option.map_eq_some_iff.mp first with ⟨posting, lookup, rfl⟩
  exact term_lookupOf lookup

end Batches

section Agreement

variable (unicode : Unicode) (report : Bytes → String)

/-- The batch gives, term by term, what the single lookup gives. -/
def BatchAgrees (set : MmapContentSet) (terms : List Text) (limit : Nat) : Prop :=
  ∃ single : Text → Option ContentPosting × Bool,
    (∀ term, set.postingForTermLimit unicode report term limit = .ok (single term)) ∧
    (∀ term ∈ terms, single term = single (unicode.normalize term)) ∧
    set.postingsForTermsLimit unicode report terms limit =
      .ok ((selectTerms unicode terms).filterMap fun term => (single term).1)

/-- The batch on a volume gives, term by term, what the single lookup gives there, and tells in
the same way what is cut off. -/
def VolumeBatchAgrees (set : MmapContentSet) (terms : List Text) (volume : VolumeId)
    (limit : Nat) : Prop :=
  ∃ single : Text → Option ContentPosting × Bool,
    (∀ term, set.postingForTermVolumeLimit unicode report term volume limit =
      .ok (single term)) ∧
    (∀ term ∈ terms, single term = single (unicode.normalize term)) ∧
    set.postingsForTermsVolumeLimit unicode report terms volume limit =
      .ok ((selectTerms unicode terms).filterMap fun term => foundOf (single term))

variable {unicode : Unicode} {report : Bytes → String} (held : List (HeldArchive unicode))

/-- What a single lookup makes of the postings that archives have for the canonical term. -/
def singleOf (unicode : Unicode) (limit : Nat) (postings : Text → List ContentPosting)
    (term : Text) : Option ContentPosting × Bool :=
  if unicode.normalize term = [] then (none, false)
  else lookupOf (unicode.normalize term) limit (postings (unicode.normalize term))

theorem singleOf_normalize
    (idempotent : ∀ text, unicode.normalize (unicode.normalize text) = unicode.normalize text)
    (limit : Nat) (postings : Text → List ContentPosting) (term : Text) :
    singleOf unicode limit postings term =
      singleOf unicode limit postings (unicode.normalize term) := by
  rw [singleOf, singleOf, idempotent]

theorem singleOf_selected {selected : List Text} (selects : Selected unicode selected)
    (limit : Nat) (postings : Text → List ContentPosting) {term : Text}
    (listed : term ∈ selected) :
    singleOf unicode limit postings term = lookupOf term limit (postings term) := by
  rw [singleOf, selects.fixed term listed, if_neg (selects.filled term listed)]

theorem batchAgrees_zero (set : MmapContentSet) (terms : List Text) :
    BatchAgrees unicode report set terms 0 := by
  refine ⟨fun _ => (none, false), fun term => rfl, fun term _ => rfl, ?_⟩
  exact congrArg Except.ok (filterMap_eq_nil_iff.mpr fun term _ => rfl).symm

theorem volumeBatchAgrees_zero (set : MmapContentSet) (terms : List Text) (volume : VolumeId) :
    VolumeBatchAgrees unicode report set terms volume 0 := by
  refine ⟨fun _ => (none, false), fun term => rfl, fun term _ => rfl, ?_⟩
  exact congrArg Except.ok (filterMap_eq_nil_iff.mpr fun term _ => rfl).symm

/-- Without a volume: the postings under other spellings must add nothing to any term. -/
theorem batchAgrees_iff_adds
    (idempotent : ∀ text, unicode.normalize (unicode.normalize text) = unicode.normalize text)
    (terms : List Text) {limit : Nat} (positive : 0 < limit) :
    BatchAgrees unicode report ⟨held.map HeldArchive.archive⟩ terms limit ↔
      ∀ term ∈ selectTerms unicode terms,
        AddsNothing limit term (postingsFor held term) := by
  have selects := Selected.of_terms idempotent terms
  have lookups : ∀ term, postingForTermLimit unicode report
      ⟨held.map HeldArchive.archive⟩ term limit =
        .ok (singleOf unicode limit (postingsFor held) term) :=
    fun term => postingForTermLimit_lookupOf held term positive
  have agree : (selectTerms unicode terms).filterMap (fun term => (lookupOf term limit
        (ownPostings term (postingsFor held term))).1) =
      (selectTerms unicode terms).filterMap (fun term =>
        (singleOf unicode limit (postingsFor held) term).1) ↔
      ∀ term ∈ selectTerms unicode terms,
        AddsNothing limit term (postingsFor held term) := by
    have same : (selectTerms unicode terms).filterMap (fun term =>
        (singleOf unicode limit (postingsFor held) term).1) =
      (selectTerms unicode terms).filterMap (fun term =>
        (lookupOf term limit (postingsFor held term)).1) := by
      refine filterMap_congr fun term listed => ?_
      rw [singleOf_selected selects limit _ listed]
    rw [same, filterMap_eq_iff ContentPosting.term fun term found first =>
      first.elim term_lookupOf term_lookupOf]
    exact forall₂_congr fun term _ => lookupOf_own_iff positive
  rw [← agree, BatchAgrees, postingsForTermsLimit_eq held idempotent terms positive]
  constructor
  · rintro ⟨single, found, -, batch⟩
    have known : single = singleOf unicode limit (postingsFor held) := by
      funext term
      have both := (found term).symm.trans (lookups term)
      exact Except.ok.inj both
    rw [← known]
    exact Except.ok.inj batch
  · intro batch
    exact ⟨_, lookups, fun term _ => singleOf_normalize idempotent limit _ term,
      congrArg Except.ok batch⟩

/-- On a volume: they must also not be the only ones that are cut off. -/
theorem volumeBatchAgrees_iff_adds
    (idempotent : ∀ text, unicode.normalize (unicode.normalize text) = unicode.normalize text)
    (terms : List Text) (volume : VolumeId) {limit : Nat} (positive : 0 < limit) :
    VolumeBatchAgrees unicode report ⟨held.map HeldArchive.archive⟩ terms volume limit ↔
      ∀ term ∈ selectTerms unicode terms,
        AddsNothing limit term (partsFor held volume term) ∧
          AddsNoMore limit term (partsFor held volume term) := by
  have selects := Selected.of_terms idempotent terms
  have lookups : ∀ term, postingForTermVolumeLimit unicode report
      ⟨held.map HeldArchive.archive⟩ term volume limit =
        .ok (singleOf unicode limit (partsFor held volume) term) :=
    fun term => postingForTermVolumeLimit_lookupOf held idempotent term volume
      positive
  have agree : (selectTerms unicode terms).filterMap (fun term => foundOf (lookupOf term limit
        (ownPostings term (partsFor held volume term)))) =
      (selectTerms unicode terms).filterMap (fun term =>
        foundOf (singleOf unicode limit (partsFor held volume) term)) ↔
      ∀ term ∈ selectTerms unicode terms,
        AddsNothing limit term (partsFor held volume term) ∧
          AddsNoMore limit term (partsFor held volume term) := by
    have same : (selectTerms unicode terms).filterMap (fun term =>
        foundOf (singleOf unicode limit (partsFor held volume) term)) =
      (selectTerms unicode terms).filterMap (fun term =>
        foundOf (lookupOf term limit (partsFor held volume term))) := by
      refine filterMap_congr fun term listed => ?_
      rw [singleOf_selected selects limit _ listed]
    rw [same, filterMap_eq_iff (fun found => found.posting.term) fun term found first =>
      first.elim term_foundOf term_foundOf]
    exact forall₂_congr fun term _ => foundOf_own_iff positive
  rw [← agree, VolumeBatchAgrees,
    postingsForTermsVolumeLimit_eq held idempotent terms volume positive]
  constructor
  · rintro ⟨single, found, -, batch⟩
    have known : single = singleOf unicode limit (partsFor held volume) := by
      funext term
      have both := (found term).symm.trans (lookups term)
      exact Except.ok.inj both
    rw [← known]
    exact Except.ok.inj batch
  · intro batch
    exact ⟨_, lookups, fun term _ => singleOf_normalize idempotent limit _ term,
      congrArg Except.ok batch⟩

/-- Where every posting is stored under its canonical term, no posting is under another
spelling. -/
theorem addsNothing_of_canonical {limit : Nat} {term : Text} {postings : List ContentPosting}
    (canonical : ∀ posting ∈ postings, posting.term = term) :
    AddsNothing limit term postings ∧ AddsNoMore limit term postings := by
  refine ⟨fun posting listed other => absurd (canonical posting listed) other, fun leaves => ?_⟩
  have all : ownPostings term postings = postings :=
    filter_eq_self.mpr fun posting listed => decide_eq_true (canonical posting listed)
  rwa [all]

/-- A batch agrees with single lookups exactly if, for every term, what the archives store under
another spelling of the term adds nothing among the first ids. -/
theorem batchesAgree_iff
    (idempotent : ∀ text, unicode.normalize (unicode.normalize text) = unicode.normalize text)
    (terms : List Text) (volume : VolumeId) (limit : Nat) :
    BatchAgrees unicode report ⟨held.map HeldArchive.archive⟩ terms limit ∧
        VolumeBatchAgrees unicode report ⟨held.map HeldArchive.archive⟩ terms volume limit ↔
      limit = 0 ∨ ∀ term ∈ selectTerms unicode terms,
        AddsNothing limit term (postingsFor held term) ∧
          AddsNothing limit term (partsFor held volume term) ∧
            AddsNoMore limit term (partsFor held volume term) := by
  rcases Nat.eq_zero_or_pos limit with rfl | positive
  · exact iff_of_true ⟨batchAgrees_zero _ _, volumeBatchAgrees_zero _ _ _⟩ (Or.inl rfl)
  · rw [batchAgrees_iff_adds held idempotent terms positive,
      volumeBatchAgrees_iff_adds held idempotent terms volume positive,
      or_iff_right (Nat.pos_iff_ne_zero.mp positive)]
    exact forall₂_and.symm

end Agreement

section Spelled

theorem normalize_idem_ascii (text : Text) :
    Unicode.ascii.normalize (Unicode.ascii.normalize text) = Unicode.ascii.normalize text := by
  have lower : ∀ other, Unicode.ascii.normalize other = Unicode.ascii.lowercaseTerm other :=
    fun other => flatMap_pure_eq_map _ _
  rw [lower, lower]
  exact Unicode.ascii.toLowercase_trim_idem text

/-- The term "alpha" is stored as it is requested: the batch finds it. -/
theorem batchesAgree_alpha :
    ∃ archive, ∃ holds : archive.Holds Unicode.ascii unsortedPostings,
      MmapContentArchive.openArchive [] (fun _ => "")
          (writeContentPostings Unicode.ascii unsortedPostings) = .ok archive ∧
        BatchAgrees Unicode.ascii (fun _ => "") ⟨[⟨archive, unsortedPostings, holds⟩].map
          HeldArchive.archive⟩ ["Alpha".toList] 1 ∧
        VolumeBatchAgrees Unicode.ascii (fun _ => "") ⟨[⟨archive, unsortedPostings, holds⟩].map
          HeldArchive.archive⟩ ["Alpha".toList] ⟨1⟩ 1 := by
  rcases MmapContentArchive.openArchive_written Unicode.ascii [] (fun _ => "")
    fits_unsortedPostings (by decide +kernel) with ⟨archive, opened, version, holds⟩
  refine ⟨archive, holds, opened, (batchesAgree_iff [⟨archive, unsortedPostings, holds⟩]
    normalize_idem_ascii ["Alpha".toList] ⟨1⟩ 1).mpr (Or.inr ?_)⟩
  have selected : selectTerms Unicode.ascii ["Alpha".toList] = ["alpha".toList] := by decide +kernel
  have stored : (postingOf Unicode.ascii unsortedPostings "alpha".toList).map
      (storedAs archive.version) = some ⟨"alpha".toList, [⟨⟨1⟩, 7⟩], []⟩ := by
    rw [version]
    decide +kernel
  rw [selected]
  simp only [forall_mem_singleton, postingsFor, partsFor,
    filterMap_cons_toList, filterMap_nil, append_nil, HeldArchive.postingOn,
    HeldArchive.posting, stored, Option.map_some, Option.toList_some]
  refine ⟨(addsNothing_of_canonical ?_).1, addsNothing_of_canonical ?_⟩
  · exact forall_mem_singleton.mpr rfl
  · exact forall_mem_singleton.mpr rfl

/-- The posting of "Beta" is found by a single lookup of "beta", and by no batch. -/
theorem batch_otherSpelling :
    ∃ archive, MmapContentArchive.openArchive [] (fun _ => "")
        (writeContentPostings Unicode.ascii unsortedPostings) = .ok archive ∧
      postingForTermLimit Unicode.ascii (fun _ => "") ⟨[archive]⟩ "beta".toList 9 =
        .ok (some ⟨"beta".toList, [⟨⟨1⟩, 7⟩, ⟨⟨2⟩, 1⟩], [⟨⟨⟨1⟩, 7⟩, [1, 4]⟩]⟩, false) ∧
      postingsForTermsLimit Unicode.ascii (fun _ => "") ⟨[archive]⟩
        ["beta".toList] 9 = .ok [] ∧
      ¬BatchAgrees Unicode.ascii (fun _ => "") ⟨[archive]⟩ ["beta".toList] 9 := by
  rcases MmapContentArchive.openArchive_written Unicode.ascii [] (fun _ => "")
    fits_unsortedPostings (by decide +kernel) with ⟨archive, opened, version, holds⟩
  have selected : selectTerms Unicode.ascii ["beta".toList] = ["beta".toList] := by decide +kernel
  have canonical : Unicode.ascii.normalize "beta".toList = "beta".toList := by decide +kernel
  have stored : (postingOf Unicode.ascii unsortedPostings "beta".toList).map
      (storedAs archive.version) =
        some ⟨"Beta".toList, [⟨⟨1⟩, 7⟩, ⟨⟨2⟩, 1⟩], [⟨⟨⟨1⟩, 7⟩, [1, 4]⟩]⟩ := by
    rw [version]
    decide +kernel
  have single := @postingForTermLimit_lookupOf Unicode.ascii (fun _ => "")
    [⟨archive, unsortedPostings, holds⟩] "beta".toList 9 (by decide)
  have batch := @postingsForTermsLimit_eq Unicode.ascii (fun _ => "")
    [⟨archive, unsortedPostings, holds⟩] normalize_idem_ascii ["beta".toList] 9 (by decide)
  rw [selected] at batch
  simp only [canonical, postingsFor, filterMap_cons_toList, filterMap_nil,
    append_nil, HeldArchive.posting, stored, Option.toList_some, map_cons,
    map_nil] at single batch
  have found : (if "beta".toList = [] then (none, false)
      else lookupOf "beta".toList 9
        [⟨"Beta".toList, [⟨⟨1⟩, 7⟩, ⟨⟨2⟩, 1⟩], [⟨⟨⟨1⟩, 7⟩, [1, 4]⟩]⟩]) =
      (some ⟨"beta".toList, [⟨⟨1⟩, 7⟩, ⟨⟨2⟩, 1⟩], [⟨⟨⟨1⟩, 7⟩, [1, 4]⟩]⟩, false) := by
    decide +kernel
  have lost : (lookupOf "beta".toList 9 (ownPostings "beta".toList
      [⟨"Beta".toList, [⟨⟨1⟩, 7⟩, ⟨⟨2⟩, 1⟩], [⟨⟨⟨1⟩, 7⟩, [1, 4]⟩]⟩])).1 = none := by
    decide +kernel
  rw [found] at single
  rw [lost, Option.toList_none] at batch
  refine ⟨archive, opened, single, batch, ?_⟩
  rintro ⟨each, alone, -, whole⟩
  rw [batch, selected] at whole
  have nothing := filterMap_eq_nil_iff.mp (Except.ok.inj whole).symm "beta".toList
    (mem_singleton_self _)
  rw [← Except.ok.inj (single.symm.trans (alone "beta".toList))] at nothing
  cases nothing

end Spelled

end Gfm.Store

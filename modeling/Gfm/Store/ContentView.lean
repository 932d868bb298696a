import Gfm.Store.ContentMerge
import Gfm.Lib.TombstoneLog

/-!
# What a content segment does to the live view

An occurrence is one fact that a lookup can return: an id is listed under a
term, or it is listed there with a position. A map of terms is determined, as
far as lookups can tell, by its occurrences, and applying a segment to the map
is applying a log entry to the occurrences: the tombstones void the occurrences
of their ids, then the postings add theirs.
-/

namespace Gfm.Store

open List Std TombstoneLog

structure Occurrence where
  term : Text
  id : FileId
  position : Option Nat

/-- An entry of the ids under a term lists a position; no position asks for the entry alone. -/
def Lists (positions : Option (ExtTreeSet Nat)) (position : Option Nat) : Prop :=
  ∃ set, positions = some set ∧ ∀ found, position = some found → found ∈ set

def occurrences (terms : Terms) : Set Occurrence :=
  {occurrence | Lists (lookup terms occurrence.term occurrence.id) occurrence.position}

theorem eq_of_lists {left right : Option (ExtTreeSet Nat)}
    (same : ∀ position, Lists left position ↔ Lists right position) : left = right := by
  cases left with
  | none =>
      cases right with
      | none => rfl
      | some set =>
          rcases (same none).mpr ⟨set, rfl, by simp⟩ with ⟨other, absurd, -⟩
          cases absurd
  | some set =>
      rcases (same none).mp ⟨set, rfl, by simp⟩ with ⟨other, rfl, -⟩
      congr 1
      apply ExtTreeSet.ext_mem
      intro position
      have here := same (some position)
      simpa [Lists] using here

/-- Lookups see the occurrences and nothing else. -/
theorem lookup_eq_iff {left right : Terms} :
    (∀ term id, lookup left term id = lookup right term id) ↔
      occurrences left = occurrences right := by
  constructor
  · intro same
    ext occurrence
    simp only [occurrences, Set.mem_ofPred_eq, same]
  · intro same term id
    apply eq_of_lists
    intro position
    exact Set.ext_iff.mp same ⟨term, id, position⟩

section Postings

variable {unicode : Unicode}

/-- A posting lists an id, or a position of it. -/
def PostsId (posting : ContentPosting) (id : FileId) : Option Nat → Prop
  | none => id ∈ posting.ids ∨ ∃ positions ∈ posting.positions, positions.id = id
  | some position => ∃ positions ∈ posting.positions,
      positions.id = id ∧ position ∈ positions.positions

def posted (unicode : Unicode) (posting : ContentPosting) : Set Occurrence :=
  {occurrence | unicode.lowercaseTerm posting.term = occurrence.term ∧ occurrence.term ≠ [] ∧
    PostsId posting occurrence.id occurrence.position}

theorem mem_foldl_insert {positions : List Nat} {set : ExtTreeSet Nat} {position : Nat} :
    position ∈ positions.foldl (fun set position => set.insert position) set ↔
      position ∈ set ∨ position ∈ positions := by
  induction positions generalizing set with
  | nil => simp
  | cons first positions ih =>
      rw [foldl_cons, ih, ExtTreeSet.mem_insert, mem_cons]
      simp only [Std.compare_eq_iff_eq]
      tauto

theorem lists_foldl_insertIfNew {newIds : List FileId} {ids : IdPositions} {id : FileId}
    {position : Option Nat} :
    Lists ((newIds.foldl (fun ids id => ids.insertIfNew id ∅) ids)[id]?) position ↔
      Lists ids[id]? position ∨ (position = none ∧ id ∈ newIds) := by
  induction newIds generalizing ids with
  | nil => simp
  | cons first newIds ih =>
      rw [foldl_cons, ih, ExtTreeMap.getElem?_insertIfNew]
      by_cases same : first = id
      · subst same
        by_cases known : first ∈ ids
        · have present : ∃ set, ids[first]? = some set :=
            ⟨ids[first], ExtTreeMap.getElem?_eq_some_getElem known⟩
          rcases present with ⟨set, present⟩
          simp only [known, not_true_eq_false, and_false, if_false, mem_cons, true_or]
          constructor
          · rintro (lists | ⟨none, -⟩)
            · exact Or.inl lists
            · exact Or.inr ⟨none, trivial⟩
          · rintro (lists | ⟨rfl, -⟩)
            · exact Or.inl lists
            · exact Or.inl ⟨set, present, by simp⟩
        · simp only [Std.compare_self, known, not_false_eq_true, and_self, if_true,
            mem_cons, true_or, and_true]
          have absent : ids[first]? = none := ExtTreeMap.getElem?_eq_none known
          cases position with
          | none => simp [Lists]
          | some position => simp [Lists, absent]
      · have different : ¬compare first id = .eq := by simpa using same
        simp only [different, false_and, if_false, mem_cons, Ne.symm same, false_or]

/-- What `extend` on the entry of an id does to its positions. -/
theorem lists_insert {ids : IdPositions} {entry : ContentPositions} {id : FileId}
    {position : Option Nat} :
    Lists ((ids.insert entry.id
        (entry.positions.foldl (fun set position => set.insert position)
          ((ids[entry.id]?).getD ∅)))[id]?) position ↔
      Lists ids[id]? position ∨
        (entry.id = id ∧ ∀ found, position = some found → found ∈ entry.positions) := by
  rw [ExtTreeMap.getElem?_insert]
  by_cases same : entry.id = id
  · subst same
    simp only [Std.compare_self, if_true, true_and]
    cases position with
    | none => simp [Lists]
    | some position =>
        simp only [Lists, Option.some.injEq, exists_eq_left', forall_eq', mem_foldl_insert]
        cases ids[entry.id]? with
        | none => simp
        | some set => simp
  · have different : ¬compare entry.id id = .eq := by simpa using same
    simp [different, same]

theorem lists_foldl_insert {entries : List ContentPositions} {ids : IdPositions} {id : FileId}
    {position : Option Nat} :
    Lists ((entries.foldl
        (fun ids positions => ids.insert positions.id
          (positions.positions.foldl (fun set position => set.insert position)
            ((ids[positions.id]?).getD ∅))) ids)[id]?) position ↔
      Lists ids[id]? position ∨ ∃ entry ∈ entries,
        entry.id = id ∧ ∀ found, position = some found → found ∈ entry.positions := by
  induction entries generalizing ids with
  | nil => simp
  | cons entry entries ih =>
      rw [foldl_cons, ih, lists_insert, or_assoc]
      simp only [mem_cons, exists_eq_or_imp]

theorem lists_mergeIds {ids : IdPositions} {posting : ContentPosting} {id : FileId}
    {position : Option Nat} :
    Lists ((mergeIds ids posting)[id]?) position ↔
      Lists ids[id]? position ∨ PostsId posting id position := by
  rw [mergeIds, lists_foldl_insert, lists_foldl_insertIfNew, or_assoc]
  cases position with
  | none => simp [PostsId]
  | some position => simp [PostsId]

theorem mem_occurrences {terms : Terms} {occurrence : Occurrence} :
    occurrence ∈ occurrences terms ↔
      ∃ ids, terms[occurrence.term]? = some ids ∧
        Lists ids[occurrence.id]? occurrence.position := by
  simp only [occurrences, Set.mem_ofPred_eq, lookup]
  cases terms[occurrence.term]? with
  | none => simp [Lists]
  | some ids => simp

theorem occurrences_mergeContentPosting (terms : Terms) (posting : ContentPosting) :
    occurrences (mergeContentPosting unicode terms posting) =
      occurrences terms ∪ posted unicode posting := by
  ext occurrence
  rw [Set.mem_union, posted, Set.mem_ofPred_eq, mem_occurrences, mem_occurrences]
  simp only [mergeContentPosting]
  by_cases empty : unicode.lowercaseTerm posting.term = []
  · rw [if_pos empty, empty]
    constructor
    · exact Or.inl
    · rintro (listed | ⟨same, nonempty, -⟩)
      · exact listed
      · exact absurd same.symm nonempty
  · rw [if_neg empty, ExtTreeMap.getElem?_insert]
    by_cases same : unicode.lowercaseTerm posting.term = occurrence.term
    · rw [← same]
      simp only [Std.compare_self, if_true, Option.some.injEq, exists_eq_left', lists_mergeIds,
        ne_eq, empty, not_false_eq_true, true_and]
      cases terms[unicode.lowercaseTerm posting.term]? with
      | none => simp [Lists]
      | some ids => simp
    · have different :
          ¬compare (unicode.lowercaseTerm posting.term) occurrence.term = .eq := by
        simpa using same
      simp [different, same]

theorem occurrences_foldl_mergeContentPosting (postings : List ContentPosting) (terms : Terms) :
    occurrences (postings.foldl (mergeContentPosting unicode) terms) =
      occurrences terms ∪ {occurrence | ∃ posting ∈ postings,
        occurrence ∈ posted unicode posting} := by
  induction postings generalizing terms with
  | nil =>
      ext occurrence
      simp
  | cons posting postings ih =>
      rw [foldl_cons, ih, occurrences_mergeContentPosting]
      ext occurrence
      simp [or_assoc]

theorem occurrences_removeTombstone (terms : Terms) (id : FileId) :
    occurrences (removeTombstone terms id) =
      {occurrence | occurrence ∈ occurrences terms ∧ occurrence.id ≠ id} := by
  ext occurrence
  rw [Set.mem_ofPred_eq, mem_occurrences, mem_occurrences, removeTombstone,
    ExtTreeMap.getElem?_filter, ExtTreeMap.getElem?_map]
  cases present : terms[occurrence.term]? with
  | none => simp
  | some ids =>
      have erased : Lists (ids.erase id)[occurrence.id]? occurrence.position ↔
          Lists ids[occurrence.id]? occurrence.position ∧ occurrence.id ≠ id := by
        rw [ExtTreeMap.getElem?_erase]
        by_cases same : id = occurrence.id
        · simp [same, Lists]
        · have different : ¬compare id occurrence.id = .eq := by simpa using same
          simp [different, Ne.symm same]
      have nonempty : Lists (ids.erase id)[occurrence.id]? occurrence.position →
          ids.erase id ≠ ∅ := by
        rintro ⟨set, found, -⟩ empty
        simp [empty] at found
      simp only [Option.map_some, Option.pfilter_some, Option.some.injEq, exists_eq_left']
      rw [← erased]
      by_cases empty : (ids.erase id).isEmpty = true
      · simp only [empty, Bool.not_true, Bool.false_eq_true, if_false, reduceCtorEq, false_and,
          exists_false, false_iff]
        intro listed
        exact nonempty listed (ExtTreeMap.isEmpty_iff.mp empty)
      · simp [empty]

theorem occurrences_foldl_removeTombstone (ids : List FileId) (terms : Terms) :
    occurrences (ids.foldl removeTombstone terms) =
      {occurrence | occurrence ∈ occurrences terms ∧ occurrence.id ∉ ids} := by
  induction ids generalizing terms with
  | nil =>
      ext occurrence
      simp
  | cons id ids ih =>
      rw [foldl_cons, ih, occurrences_removeTombstone]
      ext occurrence
      simp [and_assoc]

end Postings

section Segments

variable (unicode : Unicode)

/-- A segment as a log entry. -/
def entryOf (segment : ContentSegment) : Entry FileId Occurrence where
  dead := {id | id ∈ segment.tombstones}
  items := {occurrence | ∃ posting ∈ segment.postings, occurrence ∈ posted unicode posting}

variable {unicode}

theorem occurrences_applyContentSegment (terms : Terms) (segment : ContentSegment) :
    occurrences (applyContentSegment unicode terms segment) =
      apply Occurrence.id (occurrences terms) (entryOf unicode segment) := by
  rw [applyContentSegment, occurrences_foldl_mergeContentPosting,
    occurrences_foldl_removeTombstone]
  rfl

theorem occurrences_empty : occurrences (∅ : Terms) = ∅ := by
  ext occurrence
  simp [mem_occurrences]

theorem occurrences_mergedTerms (base : List ContentPosting) (segments : List StoredSegment) :
    occurrences (mergedTerms unicode base segments) =
      replay Occurrence.id (occurrences (contentTermsFromPostings unicode base))
        (segments.map fun stored => entryOf unicode stored.segment) := by
  rw [mergedTerms]
  generalize contentTermsFromPostings unicode base = terms
  induction segments generalizing terms with
  | nil => rfl
  | cons stored segments ih =>
      rw [foldl_cons, ih, occurrences_applyContentSegment]
      rfl

theorem occurrences_segments (segments : List StoredSegment) :
    occurrences (mergedTerms unicode [] segments) =
      replay Occurrence.id ∅ (segments.map fun stored => entryOf unicode stored.segment) := by
  rw [occurrences_mergedTerms, contentTermsFromPostings, foldl_nil, occurrences_empty]

/-- Every term of a live view is nonempty and in its canonical form. -/
def Canonical (unicode : Unicode) (view : Set Occurrence) : Prop :=
  ∀ occurrence ∈ view,
    unicode.lowercaseTerm occurrence.term = occurrence.term ∧ occurrence.term ≠ []

theorem canonical_segments (segments : List StoredSegment) :
    Canonical unicode (occurrences (mergedTerms unicode [] segments)) := by
  intro occurrence member
  rw [occurrences_segments, mem_replay_empty] at member
  rcases member.exists_entry with ⟨entry, entryMem, added⟩
  rcases mem_map.mp entryMem with ⟨stored, -, rfl⟩
  rcases added with ⟨posting, -, same, nonempty, -⟩
  refine ⟨?_, nonempty⟩
  rw [← same, Unicode.lowercaseTerm_idem]

theorem postsId_contentPostingOf {term : Text} {ids : IdPositions} {id : FileId}
    {position : Option Nat} :
    PostsId (contentPostingOf term ids) id position ↔ Lists ids[id]? position := by
  cases position with
  | none =>
      simp only [PostsId, contentPostingOf, ExtTreeMap.mem_keys, mem_map,
        mem_filter, Prod.exists, Lists]
      constructor
      · rintro (known | ⟨_, ⟨other, positions, ⟨member, -⟩, rfl⟩, rfl⟩)
        · exact ⟨ids[id], ExtTreeMap.getElem?_eq_some_getElem known, by simp⟩
        · exact ⟨positions, ExtTreeMap.mem_toList_iff_getElem?_eq_some.mp member, by simp⟩
      · rintro ⟨positions, found, -⟩
        exact Or.inl (ExtTreeMap.mem_iff_isSome_getElem?.mpr (by simp [found]))
  | some position =>
      simp only [PostsId, contentPostingOf, mem_map, mem_filter, Prod.exists, Lists,
        ExtTreeMap.mem_toList_iff_getElem?_eq_some, Option.some.injEq, forall_eq']
      constructor
      · rintro ⟨_, ⟨other, positions, ⟨found, -⟩, rfl⟩, rfl, member⟩
        exact ⟨positions, found, ExtTreeSet.mem_toList.mp member⟩
      · rintro ⟨positions, found, member⟩
        refine ⟨_, ⟨id, positions, ⟨found, ?_⟩, rfl⟩, rfl, ExtTreeSet.mem_toList.mpr member⟩
        simpa using ExtTreeSet.ne_empty_of_mem member

/-- Writing the live postings out and reading them back changes nothing. -/
theorem occurrences_roundTrip {terms : Terms} (canonical : Canonical unicode (occurrences terms)) :
    occurrences (contentTermsFromPostings unicode (contentPostingsFromTerms terms)) =
      occurrences terms := by
  rw [contentTermsFromPostings, occurrences_foldl_mergeContentPosting, occurrences_empty,
    Set.empty_union]
  ext occurrence
  simp only [contentPostingsFromTerms, mem_map, Prod.exists, Set.mem_ofPred_eq, posted,
    ExtTreeMap.mem_toList_iff_getElem?_eq_some]
  constructor
  · rintro ⟨_, ⟨term, ids, found, rfl⟩, same, nonempty, listed⟩
    have here : (⟨term, occurrence.id, occurrence.position⟩ : Occurrence) ∈ occurrences terms :=
      mem_occurrences.mpr ⟨ids, found, postsId_contentPostingOf.mp listed⟩
    have own : term = occurrence.term := by
      rw [← same]
      exact (canonical _ here).1.symm
    rw [own] at here
    exact here
  · intro member
    rcases mem_occurrences.mp member with ⟨ids, found, listed⟩
    exact ⟨_, ⟨occurrence.term, ids, found, rfl⟩, (canonical _ member).1, (canonical _ member).2,
      postsId_contentPostingOf.mpr listed⟩

end Segments

section Compaction

variable (unicode : Unicode) (policy : ContentMergePolicy)

/-- The segments as log entries, with those that the policy selects marked. -/
def marked (segments : List StoredSegment) : Marked FileId Occurrence :=
  segments.map fun stored =>
    (decide (stored.path ∈ (selectSegments policy segments).paths),
      entryOf unicode stored.segment)

/-- Looking a term up after the compaction gives what it gave before. -/
def CompactionPreservesView (segments : List StoredSegment) : Prop :=
  let outcome := compactContentSegmentsWithPolicy unicode policy segments
  ∀ term id, lookup (mergedTerms unicode outcome.postings outcome.retainedSegments) term id =
    lookup (mergedTerms unicode [] segments) term id

variable {unicode policy} {segments : List StoredSegment}

theorem selected_marked :
    selected (marked unicode policy segments) =
      (planContentSegmentMerge policy segments).mergeSegments.map
        fun stored => entryOf unicode stored.segment := by
  simp only [selected, marked, filter_map, map_map, planContentSegmentMerge]
  rfl

theorem retained_marked :
    retained (marked unicode policy segments) =
      (planContentSegmentMerge policy segments).retainedSegments.map
        fun stored => entryOf unicode stored.segment := by
  simp only [retained, marked, filter_map, map_map, planContentSegmentMerge,
    decide_not]
  rfl

theorem all_marked (unicode : Unicode) (policy : ContentMergePolicy)
    (segments : List StoredSegment) :
    (marked unicode policy segments).map Prod.snd =
      segments.map fun stored => entryOf unicode stored.segment := by
  simp [marked]

/-- The merged archive shows the live view of the selected segments alone. -/
theorem occurrences_archive :
    occurrences (contentTermsFromPostings unicode
        (compactContentSegmentsWithPolicy unicode policy segments).postings) =
      replay Occurrence.id ∅ (selected (marked unicode policy segments)) := by
  rw [selected_marked, ← occurrences_segments]
  simp only [compactContentSegmentsWithPolicy]
  split
  · rename_i nothing
    rw [List.isEmpty_iff.mp nothing]
    rfl
  · exact occurrences_roundTrip (canonical_segments _)

theorem occurrences_compacted :
    occurrences (mergedTerms unicode
        (compactContentSegmentsWithPolicy unicode policy segments).postings
        (compactContentSegmentsWithPolicy unicode policy segments).retainedSegments) =
      compacted Occurrence.id (marked unicode policy segments) := by
  rw [occurrences_mergedTerms, occurrences_archive, compacted, retained_marked]
  rfl

/--
Compaction keeps the live view exactly when every occurrence that a merged
tombstone no longer voids is live anyway, and every occurrence that a retained
tombstone now voids is also live among the retained segments.
-/
theorem compactionPreservesView_iff (unicode : Unicode) (policy : ContentMergePolicy)
    (segments : List StoredSegment) :
    CompactionPreservesView unicode policy segments ↔
      (∀ occurrence, Resurrected Occurrence.id occurrence (marked unicode policy segments) →
        Live Occurrence.id occurrence
          (segments.map fun stored => entryOf unicode stored.segment)) ∧
      ∀ occurrence, Lost Occurrence.id occurrence (marked unicode policy segments) →
        Live Occurrence.id occurrence
          ((planContentSegmentMerge policy segments).retainedSegments.map
            fun stored => entryOf unicode stored.segment) := by
  rw [CompactionPreservesView, lookup_eq_iff, occurrences_compacted, occurrences_segments,
    ← all_marked unicode policy segments, compacted_eq_replay_iff, retained_marked]

/-- A warm segment that posts an id, then a hot one that tombstones it. -/
def resurrectingSegments : List StoredSegment :=
  [{ path := ["first.gfmseg"], bytes := 2 ^ 21,
      segment := ⟨[], [⟨"alpha".toList, [⟨⟨1⟩, 7⟩], []⟩]⟩ },
    { path := ["second.gfmseg"], bytes := 64, segment := ⟨[⟨⟨1⟩, 7⟩], []⟩ }]

theorem compaction_resurrects :
    ¬CompactionPreservesView Unicode.ascii ContentMergePolicy.default resurrectingSegments := by
  intro preserves
  have same := preserves "alpha".toList ⟨⟨1⟩, 7⟩
  exact absurd same (by decide +kernel)

end Compaction

end Gfm.Store

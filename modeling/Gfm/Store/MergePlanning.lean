import Gfm.Lib.Sorted
import Gfm.Store.ContentMerge

/-!
# Planning a merge twice

A maintenance run plans a merge over all segments and hands the segments to merge to a compaction
that plans again, over these alone. The second plan merges all of them: it meets the same
candidates in the same order, with the same budget at each.
-/

namespace Gfm.Store

open List Sorted

instance : Std.TransCmp ContentSegmentSummary.cmp :=
  inferInstanceAs (Std.TransCmp
    (compareLex (compareOn fun summary : ContentSegmentSummary => summary.tombstones == 0)
      (compareLex (compareOn fun summary => summary.tier.rank)
        (compareLex (compareOn fun summary => summary.bytes)
          (compareOn fun summary => summary.path)))))

instance : IsTrans ContentSegmentSummary fun left right => left.cmp right ≠ .gt where
  trans first second third lower higher := by
    have isLE := @Std.TransCmp.isLE_trans _ ContentSegmentSummary.cmp _ _ _ _
      (Ordering.isLE_iff_ne_gt.mpr lower) (Ordering.isLE_iff_ne_gt.mpr higher)
    exact Ordering.isLE_iff_ne_gt.mp isLE

instance : Std.Total fun left right : ContentSegmentSummary => left.cmp right ≠ .gt where
  total first second := by
    have swapped : first.cmp second = (second.cmp first).swap := Std.OrientedCmp.eq_swap
    rw [swapped]
    cases second.cmp first <;> decide

section Loop

variable {policy : ContentMergePolicy} {summaries : List ContentSegmentSummary}
  {selection : MergeSelection}

theorem paths_subset_selectLoop :
    selection.paths ⊆ (selectLoop policy summaries selection).paths := by
  induction summaries generalizing selection with
  | nil => exact Finset.Subset.refl _
  | cons summary summaries ih =>
      unfold selectLoop
      split
      · exact Finset.Subset.refl _
      · split
        · exact ih
        · refine Finset.Subset.trans ?_ ih
          exact Finset.subset_insert _ _

/-- A run over the summaries whose paths a run has selected selects the same. -/
theorem selectLoop_filter :
    selectLoop policy
        (summaries.filter fun summary =>
          summary.path ∈ (selectLoop policy summaries selection).paths) selection =
      selectLoop policy summaries selection := by
  induction summaries generalizing selection with
  | nil => rfl
  | cons summary summaries ih =>
      by_cases full : policy.maxMergeSegments ≤ selection.count
      · have stops : ∀ others, selectLoop policy others selection = selection := by
          intro others
          cases others with
          | nil => rfl
          | cons other others => exact if_pos full
        rw [stops, stops]
      · by_cases skipped : 0 < selection.count ∧
            policy.maxMergeBytes < saturatingAdd selection.mergeBytes summary.bytes ∧
            summary.tombstones = 0
        · have passes : ∀ others, selectLoop policy (summary :: others) selection =
              selectLoop policy others selection := by
            intro others
            rw [selectLoop, if_neg full, if_pos skipped]
          rw [passes, filter_cons]
          split
          · rw [passes, ih]
          · exact ih
        · have selects : ∀ others, selectLoop policy (summary :: others) selection =
              selectLoop policy others {
                paths := insert summary.path selection.paths
                count := selection.count + 1
                mergeBytes := saturatingAdd selection.mergeBytes summary.bytes
                tombstoneSegments := selection.tombstoneSegments +
                  if 0 < summary.tombstones then 1 else 0 } := by
            intro others
            rw [selectLoop, if_neg full, if_neg skipped]
          rw [selects, filter_cons_of_pos, selects, ih]
          exact decide_eq_true (paths_subset_selectLoop (Finset.mem_insert_self _ _))

theorem mem_paths_selectLoop {path : Path}
    (member : path ∈ (selectLoop policy summaries selection).paths) :
    path ∈ selection.paths ∨ ∃ summary ∈ summaries, summary.path = path := by
  induction summaries generalizing selection with
  | nil => exact Or.inl member
  | cons summary summaries ih =>
      unfold selectLoop at member
      split at member
      · exact Or.inl member
      · split at member
        · rcases ih member with before | ⟨other, listed, same⟩
          · exact Or.inl before
          · exact Or.inr ⟨other, mem_cons_of_mem _ listed, same⟩
        · rcases ih member with before | ⟨other, listed, same⟩
          · rcases Finset.mem_insert.mp before with rfl | before
            · exact Or.inr ⟨summary, mem_cons_self, rfl⟩
            · exact Or.inl before
          · exact Or.inr ⟨other, mem_cons_of_mem _ listed, same⟩

theorem count_selectLoop_le :
    (selectLoop policy summaries selection).count ≤ selection.count + summaries.length := by
  induction summaries generalizing selection with
  | nil => exact Nat.le_refl _
  | cons summary summaries ih =>
      unfold selectLoop
      rw [length_cons]
      split
      · omega
      · split
        · exact ih.trans (by omega)
        · refine ih.trans ?_
          dsimp only
          omega

theorem tombstoneSegments_selectLoop (clean : ∀ summary ∈ summaries, summary.tombstones = 0) :
    (selectLoop policy summaries selection).tombstoneSegments = selection.tombstoneSegments := by
  induction summaries generalizing selection with
  | nil => rfl
  | cons summary summaries ih =>
      have cleanLater := fun other listed => clean other (mem_cons_of_mem summary listed)
      unfold selectLoop
      split
      · rfl
      · split
        · exact ih cleanLater
        · rw [ih cleanLater]
          simp [clean summary mem_cons_self]

theorem selectLoop_none (none : policy.maxMergeSegments = 0) :
    selectLoop policy summaries selection = selection := by
  cases summaries with
  | nil => rfl
  | cons summary summaries =>
      refine if_pos ?_
      omega

theorem first_mem_selectLoop {summary : ContentSegmentSummary}
    (some : 0 < policy.maxMergeSegments) :
    summary.path ∈ (selectLoop policy (summary :: summaries) ⟨∅, 0, 0, 0⟩).paths := by
  unfold selectLoop
  rw [if_neg (Nat.not_le.mpr some), if_neg (by simp)]
  exact paths_subset_selectLoop (Finset.mem_insert_self _ _)

end Loop

section Twice

variable {policy : ContentMergePolicy} {segments : List StoredSegment}

/-- Segments of one path are one segment. -/
def Consistent (segments : List StoredSegment) : Prop :=
  ∀ left ∈ segments, ∀ right ∈ segments, left.path = right.path → left = right

def mergeCandidates (policy : ContentMergePolicy) (segments : List StoredSegment) :
    List ContentSegmentSummary :=
  (sortedSummaries policy segments).filter fun summary =>
    0 < summary.tombstones ∨
      summary.tier = preferredTier policy (sortedSummaries policy segments)

theorem selectSegments_eq :
    selectSegments policy segments =
      let selection := selectLoop policy (mergeCandidates policy segments) ⟨∅, 0, 0, 0⟩
      if selection.tombstoneSegments = 0 ∧ selection.count < policy.minMergeSegments then
        { selection with paths := ∅, mergeBytes := 0 }
      else selection := rfl

theorem mem_sortedSummaries {summary : ContentSegmentSummary} :
    summary ∈ sortedSummaries policy segments ↔
      ∃ stored ∈ segments, summarizeContentSegment policy stored = summary := by
  rw [sortedSummaries, mem_insertionSort, mem_map]

theorem sortedSummaries_filter (keep : Path → Bool) :
    sortedSummaries policy (segments.filter fun stored => keep stored.path) =
      (sortedSummaries policy segments).filter fun summary => keep summary.path := by
  rw [sortedSummaries, sortedSummaries, filter_insertionSort, filter_map]
  rfl

theorem summaries_consistent (consistent : Consistent segments)
    {left right : ContentSegmentSummary} (leftMem : left ∈ sortedSummaries policy segments)
    (rightMem : right ∈ sortedSummaries policy segments) (same : left.path = right.path) :
    left = right := by
  rcases mem_sortedSummaries.mp leftMem with ⟨leftStored, leftListed, rfl⟩
  rcases mem_sortedSummaries.mp rightMem with ⟨rightStored, rightListed, rfl⟩
  rw [consistent leftStored leftListed rightStored rightListed same]

/-- A selection that is not dropped is what the loop selects. -/
theorem selectSegments_of_nonempty (nonempty : (selectSegments policy segments).paths.Nonempty) :
    selectSegments policy segments =
        selectLoop policy (mergeCandidates policy segments) ⟨∅, 0, 0, 0⟩ ∧
      ((selectSegments policy segments).tombstoneSegments = 0 →
        policy.minMergeSegments ≤ (selectSegments policy segments).count) ∧
      0 < policy.maxMergeSegments := by
  rw [selectSegments_eq] at nonempty ⊢
  dsimp only at nonempty ⊢
  split at nonempty
  case isTrue dropped => exact absurd nonempty Finset.not_nonempty_empty
  case isFalse kept =>
    rw [if_neg kept]
    refine ⟨rfl, ?_, ?_⟩
    · intro clean
      by_contra few
      exact kept ⟨clean, Nat.not_le.mp few⟩
    · refine Nat.pos_of_ne_zero fun none => ?_
      rw [selectLoop_none none] at nonempty
      exact Finset.not_nonempty_empty nonempty

/-- The first summary with tombstones is the first of all. -/
theorem find_tombstones {summary : ContentSegmentSummary}
    (found : (sortedSummaries policy segments).find? (fun summary => 0 < summary.tombstones) =
      some summary) :
    ∃ later, sortedSummaries policy segments = summary :: later := by
  rcases find?_eq_some_iff_append.mp found with ⟨tombstones, before, later, shape, clean⟩
  have sorted : (sortedSummaries policy segments).Pairwise fun left right => left.cmp right ≠ .gt :=
    pairwise_insertionSort _ _
  cases before with
  | nil => exact ⟨later, shape⟩
  | cons first before =>
      rw [shape, cons_append] at sorted
      have lower := (pairwise_cons.mp sorted).1 summary (by simp)
      have none := clean first mem_cons_self
      have some : 0 < summary.tombstones := by simpa using tombstones
      have zero : first.tombstones = 0 := by simpa using none
      have positive : (summary.tombstones == 0) = false := by
        rw [beq_eq_false_iff_ne]
        omega
      refine absurd ?_ lower
      rw [ContentSegmentSummary.cmp, zero, positive]
      rfl

theorem smallestMergeableTier_eq {summaries : List ContentSegmentSummary} {tier : ContentMergeTier}
    (positive : 0 < policy.minMergeSegments) (all : ∀ summary ∈ summaries, summary.tier = tier)
    (enough : policy.minMergeSegments ≤ summaries.length) :
    smallestMergeableTier policy summaries = some tier := by
  have own : summaries.countP (fun summary => summary.tier = tier) = summaries.length := by
    rw [countP_eq_length]
    intro summary listed
    exact decide_eq_true (all summary listed)
  have others : ∀ other, other ≠ tier →
      summaries.countP (fun summary => summary.tier = other) = 0 := by
    intro other different
    rw [countP_eq_zero]
    intro summary listed
    rw [all summary listed, decide_eq_true_eq]
    exact different.symm
  have small : ¬policy.minMergeSegments ≤ 0 := Nat.not_le.mpr positive
  cases tier with
  | hot => simp [smallestMergeableTier, own, enough]
  | warm => simp [smallestMergeableTier, own, enough, others .hot, small]
  | cold => simp [smallestMergeableTier, own, enough, others .hot, others .warm, small]

theorem smallestMergeableTier_zero (none : policy.minMergeSegments = 0)
    (summaries : List ContentSegmentSummary) :
    smallestMergeableTier policy summaries = some .hot := by
  simp [smallestMergeableTier, none]

/-- The tier that a plan prefers is the one that a plan over its segments prefers. -/
theorem preferredTier_merged (consistent : Consistent segments)
    (nonempty : (selectSegments policy segments).paths.Nonempty) :
    preferredTier policy ((sortedSummaries policy segments).filter
        fun summary => summary.path ∈ (selectSegments policy segments).paths) =
      preferredTier policy (sortedSummaries policy segments) := by
  rcases selectSegments_of_nonempty nonempty with ⟨loop, enough, room⟩
  cases found : (sortedSummaries policy segments).find? fun summary => 0 < summary.tombstones with
  | some summary =>
      rcases find_tombstones found with ⟨later, shape⟩
      have tombstones : 0 < summary.tombstones := by
        simpa using find?_some found
      have selected : summary.path ∈ (selectSegments policy segments).paths := by
        rw [loop, mergeCandidates, shape, filter_cons_of_pos (by simp [tombstones])]
        exact first_mem_selectLoop room
      rw [shape, filter_cons, if_pos (decide_eq_true selected)]
      simp [preferredTier, tombstones]
  | none =>
      have clean : ∀ summary ∈ sortedSummaries policy segments, summary.tombstones = 0 := by
        intro summary listed
        simpa using find?_eq_none.mp found summary listed
      have noTombstones : (selectSegments policy segments).tombstoneSegments = 0 := by
        rw [loop, tombstoneSegments_selectLoop]
        intro summary listed
        exact clean summary (mem_filter.mp listed).1
      have ownTier : ∀ summary ∈ (sortedSummaries policy segments).filter
          fun summary => summary.path ∈ (selectSegments policy segments).paths,
          summary.tier = preferredTier policy (sortedSummaries policy segments) := by
        intro summary member
        rcases mem_filter.mp member with ⟨listed, selected⟩
        rw [decide_eq_true_eq, loop] at selected
        rcases mem_paths_selectLoop selected with absurd | ⟨other, candidate, same⟩
        · cases absurd
        · rcases mem_filter.mp candidate with ⟨otherListed, wanted⟩
          rw [← summaries_consistent consistent otherListed listed same]
          simpa [clean other otherListed] using wanted
      have many : policy.minMergeSegments ≤ ((sortedSummaries policy segments).filter
          fun summary => summary.path ∈ (selectSegments policy segments).paths).length := by
        have counted := @count_selectLoop_le policy ((mergeCandidates policy segments).filter
          fun summary => summary.path ∈
            (selectLoop policy (mergeCandidates policy segments) ⟨∅, 0, 0, 0⟩).paths) ⟨∅, 0, 0, 0⟩
        rw [selectLoop_filter, ← loop, Nat.zero_add, mergeCandidates, filter_comm] at counted
        exact ((enough noTombstones).trans counted).trans (length_filter_le _ _)
      have stillClean : ((sortedSummaries policy segments).filter
          fun summary => summary.path ∈ (selectSegments policy segments).paths).find?
            (fun summary => 0 < summary.tombstones) = none := by
        rw [find?_eq_none]
        intro summary listed
        simp [clean summary (mem_filter.mp listed).1]
      rw [preferredTier, stillClean]
      rcases Nat.eq_zero_or_pos policy.minMergeSegments with zero | positive
      · rw [preferredTier, found, smallestMergeableTier_zero zero, smallestMergeableTier_zero zero]
      · rw [smallestMergeableTier_eq positive ownTier many]
        rfl

/-- A plan over the segments that a plan merges merges them all. -/
theorem planContentSegmentMerge_merged (consistent : Consistent segments) :
    let merged := (planContentSegmentMerge policy segments).mergeSegments
    (planContentSegmentMerge policy merged).mergeSegments = merged ∧
      (planContentSegmentMerge policy merged).retainedSegments = [] := by
  dsimp only
  have twice : ∀ stored ∈ (planContentSegmentMerge policy segments).mergeSegments,
      stored.path ∈ (selectSegments policy
        (planContentSegmentMerge policy segments).mergeSegments).paths := by
    intro stored merged
    have selected : stored.path ∈ (selectSegments policy segments).paths :=
      of_decide_eq_true (mem_filter.mp merged).2
    have nonempty : (selectSegments policy segments).paths.Nonempty := ⟨_, selected⟩
    rcases selectSegments_of_nonempty nonempty with ⟨loop, -⟩
    have again : mergeCandidates policy (planContentSegmentMerge policy segments).mergeSegments =
        (mergeCandidates policy segments).filter fun summary =>
          summary.path ∈ (selectLoop policy (mergeCandidates policy segments) ⟨∅, 0, 0,
            0⟩).paths := by
      have summaries := @sortedSummaries_filter policy segments
        fun path => path ∈ (selectSegments policy segments).paths
      rw [← loop, mergeCandidates, planContentSegmentMerge, summaries,
        preferredTier_merged consistent nonempty, mergeCandidates, filter_comm]
    have same : selectSegments policy (planContentSegmentMerge policy segments).mergeSegments =
        selectSegments policy segments := by
      rw [selectSegments_eq, again, selectLoop_filter, selectSegments_eq]
    rw [same]
    exact selected
  constructor
  · rw [planContentSegmentMerge, filter_eq_self]
    intro stored merged
    exact decide_eq_true (twice stored merged)
  · rw [planContentSegmentMerge, filter_eq_nil_iff]
    intro stored merged
    simpa using twice stored merged

end Twice

end Gfm.Store

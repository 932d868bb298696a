import Gfm.Text

/-!
# Merging content segments

A merge policy selects some of the content segments, oldest first, for
compaction into one archive; the others are retained. Compaction replays the
selected segments over an empty map of terms and writes the live postings out;
the archive keeps no tombstones.

A stored segment stands for the path of a segment file together with what is
in the file.
-/

namespace Gfm.Store

abbrev IdPositions := Std.ExtTreeMap FileId (Std.ExtTreeSet Nat)

/-- The live postings: for every term its ids, each with its positions. -/
abbrev Terms := Std.ExtTreeMap Text IdPositions

section Terms

variable (unicode : Unicode)

def removeTombstone (terms : Terms) (id : FileId) : Terms :=
  (terms.map fun _ ids => ids.erase id).filter fun _ ids => !ids.isEmpty

def mergeIds (ids : IdPositions) (posting : ContentPosting) : IdPositions :=
  posting.positions.foldl
    (fun ids positions => ids.insert positions.id
      (positions.positions.foldl (fun set position => set.insert position)
        ((ids[positions.id]?).getD ∅)))
    (posting.ids.foldl (fun ids id => ids.insertIfNew id ∅) ids)

def mergeContentPosting (terms : Terms) (posting : ContentPosting) : Terms :=
  let term := unicode.lowercaseTerm posting.term
  if term = [] then terms
  else terms.insert term (mergeIds ((terms[term]?).getD ∅) posting)

def applyContentSegment (terms : Terms) (segment : ContentSegment) : Terms :=
  segment.postings.foldl (mergeContentPosting unicode)
    (segment.tombstones.foldl removeTombstone terms)

def contentTermsFromPostings (postings : List ContentPosting) : Terms :=
  postings.foldl (mergeContentPosting unicode) ∅

def contentPostingOf (term : Text) (ids : IdPositions) : ContentPosting where
  term := term
  ids := ids.keys
  positions := (ids.toList.filter fun (_, positions) => !positions.isEmpty).map
    fun (id, positions) => ⟨id, positions.toList⟩

def contentPostingsFromTerms (terms : Terms) : List ContentPosting :=
  terms.toList.map fun (term, ids) => contentPostingOf term ids

/-- The ids and positions under a term: what a lookup of the term returns. -/
def lookup (terms : Terms) (term : Text) (id : FileId) : Option (Std.ExtTreeSet Nat) :=
  terms[term]?.bind fun ids => ids[id]?

end Terms

inductive ContentMergeTier where
  | hot
  | warm
  | cold
  deriving DecidableEq, Repr

def ContentMergeTier.rank : ContentMergeTier → Nat
  | .hot => 0
  | .warm => 1
  | .cold => 2

structure ContentMergePolicy where
  minMergeSegments : Nat
  maxMergeSegments : Nat
  maxMergeBytes : Nat
  hotSegmentBytes : Nat
  warmSegmentBytes : Nat

namespace ContentMergePolicy

def default : ContentMergePolicy where
  minMergeSegments := 4
  maxMergeSegments := 16
  maxMergeBytes := 64 * 2 ^ 20
  hotSegmentBytes := 2 ^ 20
  warmSegmentBytes := 16 * 2 ^ 20

def tierForBytes (policy : ContentMergePolicy) (bytes : Nat) : ContentMergeTier :=
  if bytes ≤ policy.hotSegmentBytes then .hot
  else if bytes ≤ policy.warmSegmentBytes then .warm
  else .cold

end ContentMergePolicy

structure StoredSegment where
  path : Path
  bytes : Nat
  segment : ContentSegment
  deriving DecidableEq

structure ContentSegmentSummary where
  path : Path
  bytes : Nat
  tombstones : Nat
  postings : Nat
  tier : ContentMergeTier

structure ContentMergePlan where
  mergeSegments : List StoredSegment
  retainedSegments : List StoredSegment
  mergeBytes : Nat
  tombstoneSegments : Nat
  tier : ContentMergeTier

structure ContentMergeOutcome where
  postings : List ContentPosting
  mergedSegments : List StoredSegment
  retainedSegments : List StoredSegment
  mergeBytes : Nat
  tombstoneSegments : Nat
  tier : ContentMergeTier

/-- Addition of 64-bit counters that stops at the greatest one. -/
def saturatingAdd (left right : Nat) : Nat := min (left + right) (2 ^ 64 - 1)

section Plan

variable (policy : ContentMergePolicy)

def summarizeContentSegment (stored : StoredSegment) : ContentSegmentSummary where
  path := stored.path
  bytes := stored.bytes
  tombstones := stored.segment.tombstones.length
  postings := stored.segment.postings.length
  tier := policy.tierForBytes stored.bytes

def smallestMergeableTier (summaries : List ContentSegmentSummary) : Option ContentMergeTier :=
  [ContentMergeTier.hot, .warm, .cold].find? fun tier =>
    policy.minMergeSegments ≤ summaries.countP fun summary => summary.tier = tier

/-- Segments with tombstones first, then by tier, size and path. -/
def ContentSegmentSummary.cmp (left right : ContentSegmentSummary) : Ordering :=
  (compare (left.tombstones == 0) (right.tombstones == 0)).then
    ((compare left.tier.rank right.tier.rank).then
      ((compare left.bytes right.bytes).then (compare left.path right.path)))

structure MergeSelection where
  paths : Finset Path
  count : Nat
  mergeBytes : Nat
  tombstoneSegments : Nat

def selectLoop : List ContentSegmentSummary → MergeSelection → MergeSelection
  | [], selection => selection
  | summary :: summaries, selection =>
      if policy.maxMergeSegments ≤ selection.count then selection
      else if 0 < selection.count ∧
          policy.maxMergeBytes < saturatingAdd selection.mergeBytes summary.bytes ∧
          summary.tombstones = 0 then
        selectLoop summaries selection
      else
        selectLoop summaries {
          paths := insert summary.path selection.paths
          count := selection.count + 1
          mergeBytes := saturatingAdd selection.mergeBytes summary.bytes
          tombstoneSegments := selection.tombstoneSegments +
            if 0 < summary.tombstones then 1 else 0 }

def sortedSummaries (segments : List StoredSegment) : List ContentSegmentSummary :=
  (segments.map (summarizeContentSegment policy)).insertionSort
    fun left right => left.cmp right ≠ .gt

def preferredTier (summaries : List ContentSegmentSummary) : ContentMergeTier :=
  match summaries.find? fun summary => 0 < summary.tombstones with
  | some summary => summary.tier
  | none => (smallestMergeableTier policy summaries).getD .hot

def selectSegments (segments : List StoredSegment) : MergeSelection :=
  let summaries := sortedSummaries policy segments
  let selection := selectLoop policy
    (summaries.filter fun summary =>
      0 < summary.tombstones ∨ summary.tier = preferredTier policy summaries)
    ⟨∅, 0, 0, 0⟩
  if selection.tombstoneSegments = 0 ∧ selection.count < policy.minMergeSegments then
    { selection with paths := ∅, mergeBytes := 0 }
  else selection

def planContentSegmentMerge (segments : List StoredSegment) : ContentMergePlan :=
  let selection := selectSegments policy segments
  { mergeSegments := segments.filter (·.path ∈ selection.paths)
    retainedSegments := segments.filter (·.path ∉ selection.paths)
    mergeBytes := selection.mergeBytes
    tombstoneSegments := selection.tombstoneSegments
    tier := preferredTier policy (sortedSummaries policy segments) }

end Plan

section Compact

variable (unicode : Unicode) (policy : ContentMergePolicy)

/-- The terms of an archive of base postings with segments applied on top, oldest first. -/
def mergedTerms (base : List ContentPosting) (segments : List StoredSegment) : Terms :=
  segments.foldl (fun terms stored => applyContentSegment unicode terms stored.segment)
    (contentTermsFromPostings unicode base)

def compactContentPostingsWithSegments (base : List ContentPosting)
    (segments : List StoredSegment) : List ContentPosting :=
  contentPostingsFromTerms (mergedTerms unicode base segments)

def compactContentSegments (segments : List StoredSegment) : List ContentPosting :=
  compactContentPostingsWithSegments unicode [] segments

def compactContentSegmentsWithPolicy (segments : List StoredSegment) : ContentMergeOutcome :=
  let plan := planContentSegmentMerge policy segments
  { postings :=
      if plan.mergeSegments.isEmpty then []
      else compactContentSegments unicode plan.mergeSegments
    mergedSegments := plan.mergeSegments
    retainedSegments := plan.retainedSegments
    mergeBytes := plan.mergeBytes
    tombstoneSegments := plan.tombstoneSegments
    tier := plan.tier }

end Compact

end Gfm.Store

import Gfm.Store.ArchiveCleanup
import Gfm.Store.ContentQuery
import Gfm.Store.MergePlanning
import Gfm.Store.Promotion

/-!
# Content maintenance

A maintenance run merges the segments that the policy selects into one archive and promotes it
into the content manifest, next to the archives that are there. A reader of the manifest takes
the union of the archives: a tombstone of a merged segment reaches the merged segments before it
and no archive.
-/

namespace Gfm.Store

open ArchiveCleanup ContentArchiveManifest Folds List Sorted Std TombstoneLog Wire

structure ContentMaintenanceOptions where
  mergePolicy : ContentMergePolicy
  cleanupPolicy : ContentArchiveCleanupPolicy
  cleanupRetiredArchives : Bool

structure ContentMaintenanceReport where
  scheduled : Bool
  terms : Nat
  mergedSegments : List Path
  retainedSegments : List Path
  publishedArchive : Option Path
  tier : ContentMergeTier
  mergeBytes : Nat
  tombstoneSegments : Nat
  manifestArchives : Nat
  removedArchives : List ArchivePath
  activeArchives : List ArchivePath
  missingArchives : List ArchivePath
  cleanupAction : ContentArchiveCleanupAction
  cleanupBytes : Nat
  deferredArchives : List ArchivePath
  deferredBytes : Nat

/-- What a run meets: what the reads of the segment files and of the manifest give, how the two
writes end, and what the cleanup finds. -/
structure MaintenanceSurroundings where
  segment : Path → Except GfmError (Nat × ContentSegment)
  manifest : Except GfmError ContentArchiveManifest
  archiveWrite : Except GfmError Unit
  manifestWrite : Except GfmError Unit
  cleanup : Surroundings

/-- The report of a run, the manifest when it ends, and the postings that it has written to the
output archive. -/
structure MaintenanceResult where
  report : ContentMaintenanceReport
  manifest : ContentArchiveManifest
  written : Option (List ContentPosting)

section Run

variable (unicode : Unicode) (surroundings : MaintenanceSurroundings)
  (manifestPath output : Path) (options : ContentMaintenanceOptions)

def readSegment (path : Path) : Except GfmError StoredSegment :=
  (surroundings.segment path).map fun read => ⟨path, read.1, read.2⟩

def readManifest : Except GfmError ContentArchiveManifest :=
  surroundings.manifest.bind fun manifest =>
    match firstRepeat (ContentArchiveManifest.resolved manifestPath) manifest.archives with
    | some repeated => .error (duplicateLine manifestPath repeated)
    | none => Manifest.new id ArchivePath.display manifest.archives

/-- The archives that the cleanup proper removes, finds active and misses. -/
def cleanupRetired (manifest : ContentArchiveManifest)
    (plan : ContentArchiveCleanupPlan) :
    Except GfmError (List ArchivePath × List ArchivePath × List ArchivePath) :=
  if options.cleanupRetiredArchives ∧ plan.action = .cleanup then
    let removal := cleanupInactiveArchives surroundings.cleanup manifest
      (.absolute manifestPath) plan.cleanupArchives
    removal.outcome.map fun () => (removal.removed, removal.active, removal.missing)
  else .ok ([], [], [])

def maintainSegments (segments : List Path) : Except GfmError MaintenanceResult := do
  let stored ← segments.mapM (readSegment surroundings)
  let plan := planContentSegmentMerge options.mergePolicy stored
  if plan.mergeSegments = [] then do
    let manifest ← readManifest surroundings manifestPath
    return {
      report := {
        scheduled := false
        terms := 0
        mergedSegments := []
        retainedSegments := plan.retainedSegments.map StoredSegment.path
        publishedArchive := none
        tier := plan.tier
        mergeBytes := plan.mergeBytes
        tombstoneSegments := plan.tombstoneSegments
        manifestArchives := manifest.archives.length
        removedArchives := []
        activeArchives := []
        missingArchives := []
        cleanupAction := .skip
        cleanupBytes := 0
        deferredArchives := []
        deferredBytes := 0 }
      manifest
      written := none }
  else do
    let outcome := compactContentSegmentsWithPolicy unicode options.mergePolicy plan.mergeSegments
    let written := if outcome.mergedSegments = [] then none else some outcome.postings
    (if outcome.mergedSegments = [] then .ok () else surroundings.archiveWrite)
    let manifest ← readManifest surroundings manifestPath
    let promotion ← manifest.promoted manifestPath ⟨outcome.tier, .absolute output⟩ []
    surroundings.manifestWrite
    let cleanupPlan ← planInactiveArchiveCleanup surroundings.cleanup
      promotion.manifest (.absolute manifestPath) promotion.retiredArchives
      options.cleanupPolicy
    let cleanup ← cleanupRetired surroundings manifestPath options promotion.manifest cleanupPlan
    return {
      report := {
        scheduled := true
        terms := outcome.postings.length
        mergedSegments := outcome.mergedSegments.map StoredSegment.path
        retainedSegments := outcome.retainedSegments.map StoredSegment.path
        publishedArchive := some output
        tier := outcome.tier
        mergeBytes := outcome.mergeBytes
        tombstoneSegments := outcome.tombstoneSegments
        manifestArchives := promotion.manifest.archives.length
        removedArchives := cleanup.1
        activeArchives := cleanup.2.1
        missingArchives := cleanup.2.2
        cleanupAction := cleanupPlan.action
        cleanupBytes := cleanupPlan.cleanupBytes
        deferredArchives := cleanupPlan.deferredArchives
        deferredBytes := cleanupPlan.deferredBytes }
      manifest := promotion.manifest
      written }

end Run

section Lookup

variable (unicode : Unicode)

/-- An archive would list the posting of a segment under the term. -/
def ListedUnder (term : Text) (posting : ContentPosting) : Prop :=
  term ≠ [] ∧ unicode.normalize (unicode.lowercaseTerm posting.term) = term

instance (term : Text) : DecidablePred (ListedUnder unicode term) := fun _ =>
  inferInstanceAs (Decidable (_ ∧ _))

/-- A segment on top of what is found under a term: the ids that it tombstones are removed, then
its own are added. -/
def applySegment (term : Text) (found : IdPositions) (segment : ContentSegment) : IdPositions :=
  (segment.postings.filter fun posting => ListedUnder unicode term posting).foldl mergeIds
    (segment.tombstones.foldl (fun ids id => ids.erase id) found)

/-- A lookup in a set of archives with segments on top, oldest first. -/
def lookupThrough (report : Bytes → String) (set : MmapContentSet) (segments : List ContentSegment)
    (term : Text) : Except Fault IdPositions :=
  (set.postingForTerm unicode report term).map fun found =>
    segments.foldl (applySegment unicode (unicode.normalize (unicode.normalize term)))
      (found.elim ∅ (mergeIds ∅))

/-- The archives that the manifest lists, where `archives` opens at each path. -/
def archivesOf (manifestPath : Path) (manifest : ContentArchiveManifest)
    (archives : ArchivePath → HeldArchive unicode) : List (HeldArchive unicode) :=
  manifest.archives.map fun entry => archives (ContentArchiveManifest.resolved manifestPath entry)

def openManifest (manifestPath : Path) (manifest : ContentArchiveManifest)
    (archives : ArchivePath → HeldArchive unicode) : MmapContentSet :=
  ⟨(archivesOf unicode manifestPath manifest archives).map HeldArchive.archive⟩

/-- What opens at each path after a run that has written the postings to the output. -/
structure Published (output : Path) (written : Option (List ContentPosting))
    (before after : ArchivePath → HeldArchive unicode) : Prop where
  others : ∀ path, path ≠ .absolute output → after path = before path
  unwritten : written = none → after (.absolute output) = before (.absolute output)
  version : ∀ postings, written = some postings →
    (after (.absolute output)).archive.version = .indexedChecksummed
  postings : ∀ postings, written = some postings →
    (after (.absolute output)).postings = postings

end Lookup

section Runs

variable {unicode : Unicode} {surroundings : MaintenanceSurroundings}
  {manifestPath output : Path} {options : ContentMaintenanceOptions} {segments : List Path}
  {stored : List StoredSegment} {manifest : ContentArchiveManifest} {result : MaintenanceResult}

theorem readSegment_eq_ok {path : Path} {segment : StoredSegment}
    (read : readSegment surroundings path = .ok segment) :
    segment.path = path ∧ surroundings.segment path = .ok (segment.bytes, segment.segment) := by
  unfold readSegment at read
  cases found : surroundings.segment path with
  | error error =>
      rw [found] at read
      cases read
  | ok file =>
      rw [found] at read
      rw [← Except.ok.inj read]
      exact ⟨rfl, rfl⟩

theorem readSegments_of_mem (read : segments.mapM (readSegment surroundings) = .ok stored)
    {segment : StoredSegment} (listed : segment ∈ stored) :
    ∃ path, readSegment surroundings path = .ok segment := by
  induction segments generalizing stored with
  | nil =>
      rw [← Except.ok.inj read] at listed
      cases listed
  | cons path segments ih =>
      rw [mapM_cons] at read
      rcases bind_eq_ok read with ⟨first, readFirst, rest⟩
      rcases bind_eq_ok rest with ⟨others, readOthers, whole⟩
      rw [← Except.ok.inj whole] at listed
      rcases mem_cons.mp listed with rfl | later
      · exact ⟨path, readFirst⟩
      · exact ih readOthers later

/-- What is read from one path is one segment. -/
theorem consistent_readSegments (read : segments.mapM (readSegment surroundings) = .ok stored) :
    Consistent stored := by
  intro left leftListed right rightListed same
  rcases readSegments_of_mem read leftListed with ⟨leftPath, readLeft⟩
  rcases readSegments_of_mem read rightListed with ⟨rightPath, readRight⟩
  have samePath : leftPath = rightPath := by
    rw [← (readSegment_eq_ok readLeft).1, ← (readSegment_eq_ok readRight).1]
    exact same
  rw [samePath, readRight] at readLeft
  exact (Except.ok.inj readLeft).symm

/-- The archives of a manifest that the output does not replace. -/
def keptEntries (manifestPath output : Path) (manifest : ContentArchiveManifest) :
    List ContentArchiveManifestEntry :=
  manifest.archives.filter fun entry =>
    ContentArchiveManifest.resolved manifestPath entry ≠ .absolute output

theorem promoted_eq_ok {tier : ContentMergeTier} {promotion : ContentManifestPromotion}
    (promoted : manifest.promoted manifestPath ⟨tier, .absolute output⟩ [] = .ok promotion) :
    promotion.manifest.archives =
        keptEntries manifestPath output manifest ++ [⟨tier, .absolute output⟩] ∧
      ∀ path ∈ promotion.retiredArchives, path = .absolute output := by
  have nothing : sortDedup (([] : List ArchivePath).map
      (resolveManifestPath (.absolute manifestPath))) = [] := rfl
  simp only [ContentArchiveManifest.promoted, nothing, not_mem_nil, decide_false,
    Bool.false_or, resolved_absolute] at promoted
  cases made : Manifest.new id ArchivePath.display _ with
  | error error =>
      rw [made] at promoted
      cases promoted
  | ok next =>
      rw [made] at promoted
      rw [← Except.ok.inj promoted, (Manifest.new_eq_ok.mp made).2.2]
      constructor
      · simp only [keptEntries, ne_eq, decide_not]
        rfl
      · intro path retired
        rcases mem_map.mp retired with ⟨entry, member, rfl⟩
        exact of_decide_eq_true (mem_filter.mp member).2

/-- What a run that ends well does: nothing where there is nothing to merge; else the output holds
the merged segments alone, and takes its place in the manifest. -/
theorem maintainSegments_cases
    (run : maintainSegments unicode surroundings manifestPath output options segments = .ok result)
    (read : segments.mapM (readSegment surroundings) = .ok stored)
    (readsManifest : readManifest surroundings manifestPath = .ok manifest) :
    let plan := planContentSegmentMerge options.mergePolicy stored
    (plan.mergeSegments = [] ∧ result.manifest = manifest ∧ result.written = none ∧
        result.report.retainedSegments = plan.retainedSegments.map StoredSegment.path) ∨
      (plan.mergeSegments ≠ [] ∧
        result.written = some (compactContentSegments unicode plan.mergeSegments) ∧
        (∃ tier, result.manifest.archives =
          keptEntries manifestPath output manifest ++ [⟨tier, .absolute output⟩]) ∧
        result.report.retainedSegments = []) := by
  dsimp only
  unfold maintainSegments at run
  rw [read] at run
  dsimp only [bind, Except.bind] at run
  split at run
  case isTrue nothing =>
    rw [readsManifest] at run
    rw [← Except.ok.inj run]
    exact Or.inl ⟨nothing, rfl, rfl, rfl⟩
  case isFalse some =>
    rcases @planContentSegmentMerge_merged options.mergePolicy stored
      (consistent_readSegments read) with ⟨merged, retained⟩
    have mergesAll : (compactContentSegmentsWithPolicy unicode options.mergePolicy
        (planContentSegmentMerge options.mergePolicy stored).mergeSegments).mergedSegments =
          (planContentSegmentMerge options.mergePolicy stored).mergeSegments := merged
    have retainsNone : (compactContentSegmentsWithPolicy unicode options.mergePolicy
        (planContentSegmentMerge options.mergePolicy stored).mergeSegments).retainedSegments = [] :=
      retained
    have postings : (compactContentSegmentsWithPolicy unicode options.mergePolicy
        (planContentSegmentMerge options.mergePolicy stored).mergeSegments).postings =
          compactContentSegments unicode
            (planContentSegmentMerge options.mergePolicy stored).mergeSegments := by
      rw [compactContentSegmentsWithPolicy, merged]
      exact if_neg (by simpa using some)
    rw [mergesAll, if_neg some, if_neg some, readsManifest] at run
    rcases bind_eq_ok run with ⟨_, _, run⟩
    rcases bind_eq_ok run with ⟨promotion, promoted, run⟩
    rcases bind_eq_ok run with ⟨_, _, run⟩
    rcases bind_eq_ok run with ⟨cleanupPlan, _, run⟩
    rcases bind_eq_ok run with ⟨cleanup, _, run⟩
    rw [← Except.ok.inj run]
    refine Or.inr ⟨some, ?_, ⟨_, (promoted_eq_ok promoted).1⟩, ?_⟩
    · rw [postings]
    · rw [retainsNone]
      rfl

end Runs

/-- An id that a lookup gives, or a position of it. -/
abbrev Hit := FileId × Option Nat

section Hits

variable {unicode : Unicode} {term : Text}

def hits (ids : IdPositions) : Set Hit := {hit | Lists ids[hit.1]? hit.2}

theorem hits_injective : Function.Injective hits := by
  intro left right same
  apply ExtTreeMap.ext_getElem?
  intro id
  apply eq_of_lists
  intro position
  exact Set.ext_iff.mp same (id, position)

theorem hits_empty : hits ∅ = ∅ := by
  ext hit
  simp [hits, Lists]

/-- What a segment does to the hits of a term, as a log entry. -/
def segmentEntry (unicode : Unicode) (term : Text) (segment : ContentSegment) :
    Entry FileId Hit where
  dead := {id | id ∈ segment.tombstones}
  items := {hit | ∃ posting ∈ segment.postings, ListedUnder unicode term posting ∧
    PostsId posting hit.1 hit.2}

theorem lists_foldl_erase {dead : List FileId} {ids : IdPositions} {id : FileId}
    {position : Option Nat} :
    Lists ((dead.foldl (fun ids id => ids.erase id) ids)[id]?) position ↔
      Lists ids[id]? position ∧ id ∉ dead := by
  induction dead generalizing ids with
  | nil => simp
  | cons first dead ih =>
      rw [foldl_cons, ih, ExtTreeMap.getElem?_erase]
      by_cases same : first = id
      · simp [same, Lists]
      · have different : ¬compare first id = .eq := by simpa using same
        simp [different, Ne.symm same]

theorem hits_applySegment (found : IdPositions) (segment : ContentSegment) :
    hits (applySegment unicode term found segment) =
      apply Prod.fst (hits found) (segmentEntry unicode term segment) := by
  ext hit
  rw [hits, Set.mem_ofPred_eq, applySegment, lists_foldl_mergeIds, lists_foldl_erase]
  simp only [apply, hits, segmentEntry, Set.mem_union, Set.mem_ofPred_eq, mem_filter,
    decide_eq_true_eq, and_assoc]

theorem hits_foldl_applySegment (segments : List ContentSegment) (found : IdPositions) :
    hits (segments.foldl (applySegment unicode term) found) =
      replay Prod.fst (hits found) (segments.map (segmentEntry unicode term)) := by
  induction segments generalizing found with
  | nil => rfl
  | cons segment segments ih =>
      rw [foldl_cons, ih, hits_applySegment]
      rfl

/-- What an archive has under a term. -/
def archiveHits (held : HeldArchive unicode) (term : Text) : Set Hit :=
  {hit | ∃ posting, held.posting term = some posting ∧ PostsId posting hit.1 hit.2}

theorem normalize_nil : unicode.normalize [] = [] := rfl

theorem archiveHits_blank (held : HeldArchive unicode) (blank : unicode.normalize term = []) :
    archiveHits held term = ∅ := by
  ext hit
  simp [archiveHits, HeldArchive.posting, postingOf, blank]

/-- What a set of archives has under a term. -/
def setHits (held : List (HeldArchive unicode)) (term : Text) : Set Hit :=
  {hit | ∃ archive ∈ held, hit ∈ archiveHits archive term}

theorem hits_unionOf (held : List (HeldArchive unicode)) :
    hits (unionOf (MmapContentSet.postingsFor held term)) = setHits held term := by
  ext hit
  rw [hits, Set.mem_ofPred_eq, lists_unionOf]
  simp only [MmapContentSet.postingsFor, mem_filterMap, setHits, archiveHits,
    Set.mem_ofPred_eq]
  constructor
  · rintro ⟨posting, ⟨archive, member, found⟩, posts⟩
    exact ⟨archive, member, posting, found, posts⟩
  · rintro ⟨archive, member, posting, found, posts⟩
    exact ⟨posting, ⟨archive, member, found⟩, posts⟩

/-- A lookup through segments replays them over what the archives have. -/
theorem lookupThrough_eq (report : Bytes → String) (held : List (HeldArchive unicode))
    (segments : List ContentSegment) (term : Text) :
    ∃ ids, lookupThrough unicode report ⟨held.map HeldArchive.archive⟩ segments term = .ok ids ∧
      hits ids = replay Prod.fst (setHits held (unicode.normalize term))
        (segments.map
          (segmentEntry unicode (unicode.normalize (unicode.normalize term)))) := by
  refine ⟨_, by rw [lookupThrough, MmapContentSet.postingForTerm_eq]; rfl, ?_⟩
  rw [hits_foldl_applySegment]
  congr 1
  rw [← hits_unionOf]
  split
  case isTrue nothing =>
    rcases nothing with blank | nothing
    · rw [hits_unionOf, Option.elim_none, hits_empty, blank]
      ext hit
      simp [setHits, archiveHits_blank _ (@normalize_nil unicode)]
    · rw [ExtTreeMap.isEmpty_iff.mp nothing, Option.elim_none]
  case isFalse _ =>
    ext hit
    rw [Option.elim_some, hits, Set.mem_ofPred_eq, lists_mergeIds, postsId_contentPostingOf]
    simp [Lists, hits]

end Hits

section Merged

variable {unicode : Unicode} {term : Text}

/-- A hit of a segment under a term is an occurrence under a term that the archive lists there. -/
theorem mem_segmentEntry {segment : ContentSegment} {hit : Hit} :
    hit ∈ (segmentEntry unicode term segment).items ↔
      term ≠ [] ∧ ∃ written, unicode.normalize written = term ∧
        (⟨written, hit.1, hit.2⟩ : Occurrence) ∈ (entryOf unicode segment).items := by
  simp only [segmentEntry, entryOf, Set.mem_ofPred_eq, posted, ListedUnder]
  constructor
  · rintro ⟨posting, listed, ⟨nonempty, same⟩, posts⟩
    refine ⟨nonempty, _, same, posting, listed, rfl, ?_, posts⟩
    intro blank
    rw [blank, normalize_nil] at same
    exact nonempty same.symm
  · rintro ⟨nonempty, written, same, posting, listed, rfl, -, posts⟩
    exact ⟨posting, listed, ⟨nonempty, same⟩, posts⟩

theorem untouched_segmentEntry {segments : List StoredSegment} {hit : Hit} {written : Text} :
    Untouched Prod.fst hit (segments.map fun stored => segmentEntry unicode term stored.segment) ↔
      Untouched Occurrence.id ⟨written, hit.1, hit.2⟩
        (segments.map fun stored => entryOf unicode stored.segment) := by
  simp [Untouched, segmentEntry, entryOf]

theorem live_segmentEntry {segments : List StoredSegment} {hit : Hit} :
    Live Prod.fst hit (segments.map fun stored => segmentEntry unicode term stored.segment) ↔
      term ≠ [] ∧ ∃ written, unicode.normalize written = term ∧
        Live Occurrence.id ⟨written, hit.1, hit.2⟩
          (segments.map fun stored => entryOf unicode stored.segment) := by
  induction segments with
  | nil => simp [Live]
  | cons stored segments ih =>
      simp only [map_cons, Live, ih, mem_segmentEntry]
      constructor
      · rintro (⟨⟨nonempty, written, same, added⟩, untouched⟩ | ⟨nonempty, written, same, live⟩)
        · exact ⟨nonempty, written, same, Or.inl ⟨added, untouched_segmentEntry.mp untouched⟩⟩
        · exact ⟨nonempty, written, same, Or.inr live⟩
      · rintro ⟨nonempty, written, same, ⟨added, untouched⟩ | live⟩
        · exact Or.inl ⟨⟨nonempty, written, same, added⟩, untouched_segmentEntry.mpr untouched⟩
        · exact Or.inr ⟨nonempty, written, same, live⟩

/-- An archive of merged segments has what the segments have live. -/
theorem archiveHits_merged {held : HeldArchive unicode} {segments : List StoredSegment}
    (version : held.archive.version = .indexedChecksummed)
    (postings : held.postings = compactContentSegments unicode segments) :
    archiveHits held term =
      replay Prod.fst ∅ (segments.map fun stored =>
        segmentEntry unicode (unicode.normalize term) stored.segment) := by
  have distinct := held.holds.distinct
  ext hit
  have occurrence : ∀ written, Live Occurrence.id ⟨written, hit.1, hit.2⟩
      (segments.map fun stored => entryOf unicode stored.segment) ↔
        ∃ ids, (mergedTerms unicode [] segments)[written]? = some ids ∧
          Lists ids[hit.1]? hit.2 := by
    intro written
    rw [← mem_replay_empty, ← occurrences_segments, mem_occurrences]
  rw [mem_replay_empty, live_segmentEntry]
  simp only [archiveHits, HeldArchive.posting, version, Set.mem_ofPred_eq,
    Option.map_eq_some_iff, exists_exists_and_eq_and, postsId_storedAs, occurrence]
  constructor
  · rintro ⟨posting, found, posts⟩
    have nonempty : unicode.normalize term ≠ [] := by
      intro blank
      rw [postingOf, if_pos blank] at found
      cases found
    rw [postingOf, if_neg nonempty] at found
    have member := mem_of_find?_eq_some found
    have same := find?_some found
    have canonical : unicode.normalize posting.term = unicode.normalize term :=
      of_decide_eq_true same
    rw [postings, compactContentSegments, compactContentPostingsWithSegments,
      contentPostingsFromTerms, mem_map] at member
    rcases member with ⟨⟨written, ids⟩, listed, rfl⟩
    exact ⟨nonempty, written, canonical, ids,
      ExtTreeMap.mem_toList_iff_getElem?_eq_some.mp listed, postsId_contentPostingOf.mp posts⟩
  · rintro ⟨nonempty, written, canonical, ids, listed, lists⟩
    have member : contentPostingOf written ids ∈ held.postings := by
      rw [postings]
      exact mem_map.mpr
        ⟨(written, ids), ExtTreeMap.mem_toList_iff_getElem?_eq_some.mpr listed, rfl⟩
    refine ⟨contentPostingOf written ids, ?_, postsId_contentPostingOf.mpr lists⟩
    rw [postingOf, if_neg nonempty, ← canonical]
    exact held.holds.find_canonical member

end Merged

section Maintenance

variable {unicode : Unicode} (policy : ContentMergePolicy) (manifestPath output : Path)
  (manifest : ContentArchiveManifest) (archives : ArchivePath → HeldArchive unicode)
  (stored : List StoredSegment) (term : Text)

/-- The segments as log entries at a term, with those that the policy selects marked. -/
def markedAt (unicode : Unicode) (term : Text) : Marked FileId Hit :=
  stored.map fun segment =>
    (decide (segment.path ∈ (selectSegments policy stored).paths),
      segmentEntry unicode term segment.segment)

/-- What the archives of the manifest have under a term. -/
def baseHits : Set Hit := setHits (archivesOf unicode manifestPath manifest archives) term

/-- What the archives have that a run does not replace. -/
def keptHits : Set Hit :=
  if (planContentSegmentMerge policy stored).mergeSegments = [] then
    baseHits manifestPath manifest archives term
  else setHits (archivesOf unicode manifestPath ⟨keptEntries manifestPath output manifest⟩ archives)
    term

/-- The tombstones that the merged archive leaves out void nothing that only they void. -/
def TombstonesDischarged : Prop :=
  ∀ term, Discharged Prod.fst
    (baseHits manifestPath manifest archives (unicode.normalize term))
    (keptHits policy manifestPath output manifest archives stored (unicode.normalize term))
    (markedAt policy stored unicode (unicode.normalize (unicode.normalize term)))

/-- Every lookup through the segments gives what it gave before the run. -/
def HonoursTombstones (unicode : Unicode) (report : Bytes → String)
    (before after : MmapContentSet) : Prop :=
  ∀ term, lookupThrough unicode report after
      ((planContentSegmentMerge policy stored).retainedSegments.map StoredSegment.segment) term =
    lookupThrough unicode report before (stored.map StoredSegment.segment) term

variable {policy manifestPath output manifest archives stored term}

theorem selected_markedAt :
    selected (markedAt policy stored unicode term) =
      (planContentSegmentMerge policy stored).mergeSegments.map
        fun segment => segmentEntry unicode term segment.segment := by
  simp only [selected, markedAt, filter_map, map_map, planContentSegmentMerge]
  rfl

theorem retained_markedAt :
    retained (markedAt policy stored unicode term) =
      (planContentSegmentMerge policy stored).retainedSegments.map
        fun segment => segmentEntry unicode term segment.segment := by
  simp only [retained, markedAt, filter_map, map_map, planContentSegmentMerge,
    decide_not]
  rfl

theorem all_markedAt :
    (markedAt policy stored unicode term).map Prod.snd =
      stored.map fun segment => segmentEntry unicode term segment.segment := by
  simp [markedAt]

theorem keptHits_subset :
    keptHits policy manifestPath output manifest archives stored term ⊆
      baseHits manifestPath manifest archives term := by
  unfold keptHits
  split
  · exact subset_rfl
  · rintro hit ⟨archive, member, among⟩
    rcases mem_map.mp member with ⟨entry, listed, rfl⟩
    exact ⟨_, mem_map_of_mem (mem_filter.mp listed).1, among⟩

variable {surroundings : MaintenanceSurroundings} {options : ContentMaintenanceOptions}
  {segments : List Path} {result : MaintenanceResult} {after : ArchivePath → HeldArchive unicode}

/-- After a run, the archives have what was kept, and what the merged segments have live. -/
theorem setHits_published
    (run : maintainSegments unicode surroundings manifestPath output options segments = .ok result)
    (read : segments.mapM (readSegment surroundings) = .ok stored)
    (readsManifest : readManifest surroundings manifestPath = .ok manifest)
    (published : Published unicode output result.written archives after) :
    setHits (archivesOf unicode manifestPath result.manifest after) term =
      keptHits options.mergePolicy manifestPath output manifest archives stored term ∪
        replay Prod.fst ∅
          (selected (markedAt options.mergePolicy stored unicode (unicode.normalize term))) := by
  rw [selected_markedAt]
  rcases maintainSegments_cases run read readsManifest with
    ⟨nothing, sameManifest, unwritten, -⟩ | ⟨some, written, ⟨tier, entries⟩, -⟩
  · have same : after = archives := by
      funext path
      by_cases isOutput : path = .absolute output
      · rw [isOutput, published.unwritten unwritten]
      · exact published.others path isOutput
    rw [keptHits, if_pos nothing, nothing, sameManifest, same]
    exact (Set.union_empty _).symm
  · rw [keptHits, if_neg some,
      ← archiveHits_merged (published.version _ written) (published.postings _ written)]
    have kept : archivesOf unicode manifestPath ⟨keptEntries manifestPath output manifest⟩ after =
        archivesOf unicode manifestPath ⟨keptEntries manifestPath output manifest⟩ archives := by
      refine map_congr_left fun entry listed => published.others _ ?_
      simpa using (mem_filter.mp listed).2
    rw [← kept, archivesOf, entries, map_append]
    ext hit
    simp only [setHits, archivesOf, mem_append, map_singleton, mem_singleton,
      Set.mem_ofPred_eq, Set.mem_union, resolved_absolute, or_and_right,
      exists_or,
      exists_eq_left]

theorem lookupThrough_eq_iff (report : Bytes → String)
    (run : maintainSegments unicode surroundings manifestPath output options segments = .ok result)
    (read : segments.mapM (readSegment surroundings) = .ok stored)
    (readsManifest : readManifest surroundings manifestPath = .ok manifest)
    (published : Published unicode output result.written archives after) :
    lookupThrough unicode report (openManifest unicode manifestPath result.manifest after)
        ((planContentSegmentMerge options.mergePolicy stored).retainedSegments.map
          StoredSegment.segment) term =
      lookupThrough unicode report (openManifest unicode manifestPath manifest archives)
        (stored.map StoredSegment.segment) term ↔
      Discharged Prod.fst
        (baseHits manifestPath manifest archives (unicode.normalize term))
        (keptHits options.mergePolicy manifestPath output manifest archives stored
          (unicode.normalize term))
        (markedAt options.mergePolicy stored unicode
          (unicode.normalize (unicode.normalize term))) := by
  rcases lookupThrough_eq report (archivesOf unicode manifestPath result.manifest after)
    ((planContentSegmentMerge options.mergePolicy stored).retainedSegments.map
      StoredSegment.segment) term with ⟨found, looked, hitsAfter⟩
  rcases lookupThrough_eq report (archivesOf unicode manifestPath manifest archives)
    (stored.map StoredSegment.segment) term with ⟨expected, lookedBefore, hitsBefore⟩
  rw [openManifest, openManifest, looked, lookedBefore, Except.ok.injEq,
    ← hits_injective.eq_iff, hitsAfter, hitsBefore,
    setHits_published run read readsManifest published, ← maintained_eq_replay_iff keptHits_subset,
    maintained, retained_markedAt, all_markedAt, map_map, map_map]
  rfl

end Maintenance

section Runs

variable {unicode : Unicode}

def alphaPostings : List ContentPosting := [⟨"alpha".toList, [⟨⟨1⟩, 7⟩], []⟩]

def betaPostings : List ContentPosting := [⟨"beta".toList, [⟨⟨2⟩, 9⟩], []⟩]

/-- A run over one segment file, where the manifest lists one archive. -/
def maintenanceOf (segment : ContentSegment) : MaintenanceSurroundings where
  segment := fun _ => .ok (64, segment)
  manifest := .ok ⟨[⟨.cold, .absolute ["base.gfmcontent"]⟩]⟩
  archiveWrite := .ok ()
  manifestWrite := .ok ()
  cleanup := ⟨fun _ => none, fun _ => .found 0, fun _ => .missing⟩

def defaultMaintenance : ContentMaintenanceOptions where
  mergePolicy := .default
  cleanupPolicy := ⟨1, 0, 64⟩
  cleanupRetiredArchives := true

theorem mergePolicy_defaultMaintenance : defaultMaintenance.mergePolicy = .default := rfl

theorem readSegments_maintenanceOf (segment : ContentSegment) :
    [["first.gfmseg"]].mapM (readSegment (maintenanceOf segment)) =
      .ok [⟨["first.gfmseg"], 64, segment⟩] := rfl

theorem readManifest_maintenanceOf (segment : ContentSegment) :
    readManifest (maintenanceOf segment) ["content.gfmmanifest"] =
      .ok ⟨[⟨.cold, .absolute ["base.gfmcontent"]⟩]⟩ := rfl

theorem fits_alphaPostings : ArchiveFits Unicode.ascii alphaPostings := by
  with_unfolding_all
    refine ⟨?_, by decide, by decide⟩
    simp only [alphaPostings, forall_mem_singleton]
    exact ⟨by decide, ⟨by decide, by decide, by decide⟩, by simp, by decide⟩

theorem fits_betaPostings : ArchiveFits Unicode.ascii betaPostings := by
  with_unfolding_all
    refine ⟨?_, by decide, by decide⟩
    simp only [betaPostings, forall_mem_singleton]
    exact ⟨by decide, ⟨by decide, by decide, by decide⟩, by simp, by decide⟩

theorem fits_noPostings : ArchiveFits Unicode.ascii [] :=
  ⟨by simp, by decide, by with_unfolding_all decide⟩

/-- What is written to a path opens there with the postings that were written. -/
theorem exists_held {postings : List ContentPosting} (fits : ArchiveFits Unicode.ascii postings)
    (distinct : (postings.map (canonicalTerm Unicode.ascii)).Nodup) :
    ∃ held : HeldArchive Unicode.ascii,
      held.archive.version = .indexedChecksummed ∧ held.postings = postings := by
  rcases MmapContentArchive.openArchive_written Unicode.ascii [] (fun _ => "") fits distinct with
    ⟨archive, -, version, holds⟩
  exact ⟨⟨archive, postings, holds⟩, version, rfl⟩

theorem id_of_archiveHits {held : HeldArchive Unicode.ascii}
    (version : held.archive.version = .indexedChecksummed)
    (postings : held.postings = alphaPostings)
    {term : Text} {hit : Hit} (among : hit ∈ archiveHits held term) : hit.1 = ⟨⟨1⟩, 7⟩ := by
  rcases among with ⟨posting, found, posts⟩
  rw [HeldArchive.posting, version, postings, Option.map_eq_some_iff] at found
  rcases found with ⟨original, found, rfl⟩
  have listed := mem_of_postingOf found
  rw [alphaPostings, mem_singleton] at listed
  rw [postsId_storedAs, listed] at posts
  rcases hit with ⟨id, position⟩
  cases position with
  | none => simpa [PostsId] using posts
  | some position => simp [PostsId] at posts

/-- What opens at each path before a run, and after it has written the postings. -/
def openedBefore (base : HeldArchive Unicode.ascii) :
    ArchivePath → HeldArchive Unicode.ascii := fun _ => base

def openedAfter (base merged : HeldArchive Unicode.ascii) :
    ArchivePath → HeldArchive Unicode.ascii :=
  fun path => if path = .absolute ["merged.gfmcontent"] then merged else base

theorem published_opened {base merged : HeldArchive Unicode.ascii} {postings : List ContentPosting}
    (version : merged.archive.version = .indexedChecksummed) (holds : merged.postings = postings) :
    Published Unicode.ascii ["merged.gfmcontent"] (some postings) (openedBefore base)
      (openedAfter base merged) where
  others := fun _ different => if_neg different
  unwritten := nofun
  version := fun _ _ => version
  postings := by
    intro written same
    rw [← Option.some.inj same]
    exact holds

theorem exists_run {segment : ContentSegment}
    (ok : (maintainSegments Unicode.ascii (maintenanceOf segment) ["content.gfmmanifest"]
      ["merged.gfmcontent"] defaultMaintenance [["first.gfmseg"]]).isOk = true)
    (merges : (planContentSegmentMerge .default [⟨["first.gfmseg"], 64, segment⟩]).mergeSegments =
      [⟨["first.gfmseg"], 64, segment⟩]) :
    ∃ result, maintainSegments Unicode.ascii (maintenanceOf segment) ["content.gfmmanifest"]
        ["merged.gfmcontent"] defaultMaintenance [["first.gfmseg"]] = .ok result ∧
      result.written = some (compactContentSegments Unicode.ascii
        [⟨["first.gfmseg"], 64, segment⟩]) := by
  cases run : maintainSegments Unicode.ascii (maintenanceOf segment) ["content.gfmmanifest"]
      ["merged.gfmcontent"] defaultMaintenance [["first.gfmseg"]] with
  | error error =>
      rw [run] at ok
      cases ok
  | ok result =>
      refine ⟨result, rfl, ?_⟩
      rcases maintainSegments_cases run (readSegments_maintenanceOf segment)
        (readManifest_maintenanceOf segment) with ⟨nothing, -⟩ | ⟨-, written, -⟩
      · rw [mergePolicy_defaultMaintenance, merges] at nothing
        cases nothing
      · rw [mergePolicy_defaultMaintenance, merges] at written
        exact written

end Runs

end Gfm.Store

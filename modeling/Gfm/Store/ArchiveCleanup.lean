import Gfm.Lib.Folds
import Gfm.Store.Manifest

/-!
# Cleanup of retired content archives

Candidates that the manifest does not list are planned for removal, or removed. Candidates and
archives are told apart by the components of their resolved paths, in which `..` is a component
like any other: an archive that a candidate reaches over `..` is not recognized.
-/

namespace Gfm.Store

open List Std

namespace ArchivePath

/-- The components that are left of `components` behind `kept` without `.` and `..`; the root is
its own parent. -/
def withoutDots (rooted : Bool) (kept : List Name) : List Name → List Name
  | [] => kept
  | name :: rest =>
      if name = "." then withoutDots rooted kept rest
      else if name = ".." then
        if kept.getLast?.any fun last => last ≠ ".." then withoutDots rooted kept.dropLast rest
        else if rooted then withoutDots rooted kept rest
        else withoutDots rooted (kept ++ [name]) rest
      else withoutDots rooted (kept ++ [name]) rest

/-- The path with `.` and `..` lexically removed. -/
def lexical : ArchivePath → ArchivePath
  | .absolute components => .absolute (withoutDots true [] components)
  | .relative components => .relative (withoutDots false [] components)

end ArchivePath

namespace ArchiveCleanup

structure ContentArchiveCleanupPolicy where
  minRetiredArchives : Nat
  minRetiredBytes : Nat
  maxCleanupArchives : Nat

inductive ContentArchiveCleanupAction where
  | skip
  | cleanup
  deriving DecidableEq, Repr

structure ContentArchiveCleanupPlan where
  action : ContentArchiveCleanupAction
  cleanupArchives : List ArchivePath
  deferredArchives : List ArchivePath
  activeArchives : List ArchivePath
  missingArchives : List ArchivePath
  activeBytes : Nat
  cleanupBytes : Nat
  deferredBytes : Nat

/-- What the file system says of a path: the length of a file, nothing there, or a fault. -/
inductive FileStatus where
  | found (length : Nat)
  | missing
  | fault (message : String)
  deriving DecidableEq, Repr

/-- The places where the cleanup polls its control. -/
inductive CleanupPoll where
  | start
  | listed
  | active (path : ArchivePath) (done : Bool)
  | candidate (index : Nat)
  | inspecting (index : Nat)
  | inspected (index : Nat)
  | selecting (index : Nat)
  deriving DecidableEq

/-- What a run meets: the outcome of every poll, what a look at a path finds, and what the removal
of the candidate at a place finds. -/
structure Surroundings where
  control : CleanupPoll → Option GfmError
  files : ArchivePath → FileStatus
  removals : Nat → FileStatus

variable (surroundings : Surroundings) (manifest : ContentArchiveManifest)
  (manifestPath : ArchivePath)

def resolvedArchivePaths : List ArchivePath :=
  manifest.archives.map fun entry => resolveManifestPath manifestPath entry.path

def checkControl (poll : CleanupPoll) : Except GfmError Unit :=
  match surroundings.control poll with
  | some error => .error error
  | none => .ok ()

def maxBytes : Nat := 2 ^ 64 - 1

def fileLen (path : ArchivePath) : Except GfmError Nat :=
  match surroundings.files path with
  | .found length => .ok length
  | .missing => .ok 0
  | .fault message => .error (.io path.components message)

def measureActive (bytes : Nat) (path : ArchivePath) : Except GfmError Nat := do
  checkControl surroundings (.active path false)
  let length ← fileLen surroundings path
  checkControl surroundings (.active path true)
  return min (bytes + length) maxBytes

structure Sorting where
  retired : ExtTreeMap ArchivePath Nat
  active : List ArchivePath
  missing : List ArchivePath

def sortCandidate (active : ExtTreeSet ArchivePath) (sorting : Sorting)
    (item : ArchivePath × Nat) : Except GfmError Sorting := do
  checkControl surroundings (.candidate item.2)
  let path := resolveManifestPath manifestPath item.1
  if path ∈ active then
    return { sorting with active := sorting.active ++ [path] }
  else
    checkControl surroundings (.inspecting item.2)
    match surroundings.files path with
    | .found length =>
        checkControl surroundings (.inspected item.2)
        return { sorting with retired := sorting.retired.insert path length }
    | .missing =>
        checkControl surroundings (.inspected item.2)
        return { sorting with missing := sorting.missing ++ [path] }
    | .fault message => .error (.io path.components message)

def selectedCount (policy : ContentArchiveCleanupPolicy) (count bytes : Nat) : Nat :=
  if max policy.minRetiredArchives 1 ≤ count ∨ policy.minRetiredBytes ≤ bytes then
    min count (max policy.maxCleanupArchives 1)
  else 0

def totalBytes (retired : List (ArchivePath × Nat)) : Nat :=
  retired.foldl (fun bytes file => min (bytes + file.2) maxBytes) 0

/-- The retired archives in the order of their paths, of which the policy selects the first. -/
def planOf (policy : ContentArchiveCleanupPolicy) (activeBytes : Nat) (sorting : Sorting) :
    ContentArchiveCleanupPlan :=
  let retired := sorting.retired.toList
  let count := selectedCount policy retired.length (totalBytes retired)
  { action := if (retired.take count).isEmpty then .skip else .cleanup
    cleanupArchives := (retired.take count).map Prod.fst
    deferredArchives := (retired.drop count).map Prod.fst
    activeArchives := sorting.active
    missingArchives := sorting.missing
    activeBytes
    cleanupBytes := totalBytes (retired.take count)
    deferredBytes := totalBytes (retired.drop count) }

def planInactiveArchiveCleanup (candidates : List ArchivePath)
    (policy : ContentArchiveCleanupPolicy) : Except GfmError ContentArchiveCleanupPlan := do
  checkControl surroundings .start
  let active := ExtTreeSet.ofList (resolvedArchivePaths manifest manifestPath)
  checkControl surroundings .listed
  let activeBytes ← active.toList.foldlM (measureActive surroundings) 0
  let sorting ← candidates.zipIdx.foldlM (sortCandidate surroundings manifestPath active)
    ⟨∅, [], []⟩
  (List.range sorting.retired.size).foldlM
    (fun _ index => checkControl surroundings (.selecting index)) ()
  return planOf policy activeBytes sorting

/-- The cleanup proper: what it has removed when it ends, and how it ends. -/
structure Removal where
  removed : List ArchivePath
  active : List ArchivePath
  missing : List ArchivePath
  outcome : Except GfmError Unit

def removeCandidates (active : ExtTreeSet ArchivePath) :
    List (ArchivePath × Nat) → Removal → Removal
  | [], removal => removal
  | item :: items, removal =>
      match checkControl surroundings (.candidate item.2) with
      | .error error => { removal with outcome := .error error }
      | .ok () =>
          let path := resolveManifestPath manifestPath item.1
          if path ∈ active then
            removeCandidates active items { removal with active := removal.active ++ [path] }
          else
            match checkControl surroundings (.inspecting item.2), surroundings.removals item.2 with
            | .error error, _ => { removal with outcome := .error error }
            | .ok (), .fault message =>
                { removal with outcome := .error (.io path.components message) }
            | .ok (), .found _ =>
                let removal := { removal with removed := removal.removed ++ [path] }
                match checkControl surroundings (.inspected item.2) with
                | .error error => { removal with outcome := .error error }
                | .ok () => removeCandidates active items removal
            | .ok (), .missing =>
                let removal := { removal with missing := removal.missing ++ [path] }
                match checkControl surroundings (.inspected item.2) with
                | .error error => { removal with outcome := .error error }
                | .ok () => removeCandidates active items removal

def cleanupInactiveArchives (candidates : List ArchivePath) : Removal :=
  let active := ExtTreeSet.ofList (resolvedArchivePaths manifest manifestPath)
  match checkControl surroundings .start, checkControl surroundings .listed with
  | .error error, _ => ⟨[], [], [], .error error⟩
  | .ok (), .error error => ⟨[], [], [], .error error⟩
  | .ok (), .ok () =>
      removeCandidates surroundings manifestPath active candidates.zipIdx ⟨[], [], [], .ok ()⟩

section Safety

open Folds

variable {surroundings : Surroundings} {manifest : ContentArchiveManifest}
  {manifestPath : ArchivePath} {candidates : List ArchivePath}
  {policy : ContentArchiveCleanupPolicy}

/-- The path is that of a candidate, and none of the active ones. -/
def Retires (manifestPath : ArchivePath) (active : ExtTreeSet ArchivePath)
    (candidates : List ArchivePath) (path : ArchivePath) : Prop :=
  path ∉ active ∧ ∃ candidate ∈ candidates, path = resolveManifestPath manifestPath candidate

theorem retires_of_mem_zipIdx {active : ExtTreeSet ArchivePath} {item : ArchivePath × Nat}
    (member : item ∈ candidates.zipIdx)
    (inactive : resolveManifestPath manifestPath item.1 ∉ active) :
    Retires manifestPath active candidates (resolveManifestPath manifestPath item.1) :=
  ⟨inactive, item.1, fst_mem_of_mem_zipIdx member, rfl⟩

theorem sortCandidate_retires {active : ExtTreeSet ArchivePath} {sorting next : Sorting}
    {item : ArchivePath × Nat} (member : item ∈ candidates.zipIdx)
    (run : sortCandidate surroundings manifestPath active sorting item = .ok next)
    (holds : ∀ path ∈ sorting.retired, Retires manifestPath active candidates path) :
    ∀ path ∈ next.retired, Retires manifestPath active candidates path := by
  unfold sortCandidate at run
  rcases bind_eq_ok run with ⟨_, _, sorted⟩
  dsimp only at sorted
  split at sorted
  case isTrue _ => exact (Except.ok.inj sorted) ▸ holds
  case isFalse inactive =>
    rcases bind_eq_ok sorted with ⟨_, _, inspected⟩
    split at inspected
    · rcases bind_eq_ok inspected with ⟨_, _, rest⟩
      rw [← Except.ok.inj rest]
      intro path among
      rcases ExtTreeMap.mem_insert.mp among with same | old
      · rw [← LawfulEqOrd.eq_of_compare same]
        exact retires_of_mem_zipIdx member inactive
      · exact holds path old
    · rcases bind_eq_ok inspected with ⟨_, _, rest⟩
      rw [← Except.ok.inj rest]
      exact holds
    · cases inspected

/-- Every path that a plan marks is that of a candidate that is not active. -/
theorem plan_retires {plan : ContentArchiveCleanupPlan}
    (run : planInactiveArchiveCleanup surroundings manifest manifestPath candidates policy =
      .ok plan) {path : ArchivePath} (marked : path ∈ plan.cleanupArchives) :
    Retires manifestPath (ExtTreeSet.ofList (resolvedArchivePaths manifest manifestPath))
      candidates path := by
  unfold planInactiveArchiveCleanup at run
  rcases bind_eq_ok run with ⟨_, _, started⟩
  rcases bind_eq_ok started with ⟨_, _, listed⟩
  rcases bind_eq_ok listed with ⟨_, _, measured⟩
  rcases bind_eq_ok measured with ⟨sorting, sorted, selecting⟩
  rcases bind_eq_ok selecting with ⟨_, _, rest⟩
  rw [← Except.ok.inj rest] at marked
  rcases mem_map.mp marked with ⟨file, among, rfl⟩
  have retired : file.1 ∈ sorting.retired := by
    rw [← ExtTreeMap.mem_keys, ← ExtTreeMap.map_fst_toList_eq_keys]
    exact mem_map_of_mem (mem_of_mem_take among)
  refine foldlM_keeps (fun sorting : Sorting => ∀ path ∈ sorting.retired,
    Retires manifestPath _ candidates path) ?_ sorted ?_ file.1 retired
  · intro state next item member stepped holds
    exact sortCandidate_retires member stepped holds
  · intro path among
    simp at among

theorem removeCandidates_retires {active : ExtTreeSet ArchivePath}
    (items : List (ArchivePath × Nat)) (among : ∀ item ∈ items, item ∈ candidates.zipIdx)
    (removal : Removal)
    (holds : ∀ path ∈ removal.removed, Retires manifestPath active candidates path) :
    ∀ path ∈ (removeCandidates surroundings manifestPath active items removal).removed,
      Retires manifestPath active candidates path := by
  induction items generalizing removal with
  | nil => exact holds
  | cons item items ih =>
      have later := ih fun other member => among other (mem_cons_of_mem _ member)
      unfold removeCandidates
      split
      · exact holds
      · dsimp only
        split
        case isTrue _ => exact later _ holds
        case isFalse inactive =>
          split
          · exact holds
          · exact holds
          · have removed : ∀ path ∈ removal.removed ++ [resolveManifestPath manifestPath item.1],
                Retires manifestPath active candidates path := by
              intro path member
              rcases mem_append.mp member with old | new
              · exact holds path old
              · rw [mem_singleton.mp new]
                exact retires_of_mem_zipIdx (among item mem_cons_self) inactive
            split
            · exact removed
            · exact later _ removed
          · split
            · exact holds
            · exact later _ holds

theorem cleanup_retires {path : ArchivePath} (removed : path ∈
      (cleanupInactiveArchives surroundings manifest manifestPath candidates).removed) :
    Retires manifestPath (ExtTreeSet.ofList (resolvedArchivePaths manifest manifestPath))
      candidates path := by
  unfold cleanupInactiveArchives at removed
  dsimp only at removed
  split at removed
  · cases removed
  · cases removed
  · exact removeCandidates_retires _ (fun _ member => member) _ (by simp) path removed

/-- Whatever a run meets and whatever the policy, what the plan marks and what the cleanup removes
is lexically no archive of the manifest. -/
def SparesActive (manifest : ContentArchiveManifest) (manifestPath : ArchivePath)
    (candidates : List ArchivePath) : Prop :=
  ∀ surroundings : Surroundings,
    (∀ policy plan,
      planInactiveArchiveCleanup surroundings manifest manifestPath candidates policy =
      .ok plan → ∀ path ∈ plan.cleanupArchives, ∀ entry ∈ manifest.archives,
        path.lexical ≠ (resolveManifestPath manifestPath entry.path).lexical) ∧
    ∀ path ∈ (cleanupInactiveArchives surroundings manifest manifestPath candidates).removed,
      ∀ entry ∈ manifest.archives,
        path.lexical ≠ (resolveManifestPath manifestPath entry.path).lexical

/-- A candidate that is lexically an archive of the manifest resolves to the components of one. -/
def Unaliased (manifest : ContentArchiveManifest) (manifestPath : ArchivePath)
    (candidates : List ArchivePath) : Prop :=
  ∀ candidate ∈ candidates, ∀ entry ∈ manifest.archives,
    (resolveManifestPath manifestPath candidate).lexical =
      (resolveManifestPath manifestPath entry.path).lexical →
    ∃ other ∈ manifest.archives, resolveManifestPath manifestPath candidate =
      resolveManifestPath manifestPath other.path

theorem Unaliased.differs (unaliased : Unaliased manifest manifestPath candidates)
    {path : ArchivePath} (retires : Retires manifestPath
      (ExtTreeSet.ofList (resolvedArchivePaths manifest manifestPath)) candidates path)
    {entry : ContentArchiveManifestEntry} (listed : entry ∈ manifest.archives) :
    path.lexical ≠ (resolveManifestPath manifestPath entry.path).lexical := by
  intro same
  rcases retires with ⟨inactive, candidate, among, rfl⟩
  rcases unaliased candidate among entry listed same with ⟨other, otherListed, resolved⟩
  apply inactive
  rw [ExtTreeSet.mem_ofList, contains_iff_mem, resolved]
  exact mem_map_of_mem otherListed

/-- Every poll passes and every path is an empty file. -/
def allFound : Surroundings := ⟨fun _ => none, fun _ => .found 0, fun _ => .found 0⟩

/-- A policy that marks every retired archive. -/
def markAll (count : Nat) : ContentArchiveCleanupPolicy := ⟨0, 0, count⟩

theorem selectedCount_markAll (count bytes : Nat) :
    selectedCount (markAll count) count bytes = count := by
  simp [selectedCount, markAll]

theorem sortCandidate_allFound {active : ExtTreeSet ArchivePath} (sorting : Sorting)
    (item : ArchivePath × Nat) :
    sortCandidate allFound manifestPath active sorting item =
      if resolveManifestPath manifestPath item.1 ∈ active then
        .ok { sorting with
          active := sorting.active ++ [resolveManifestPath manifestPath item.1] }
      else
        .ok { sorting with
          retired := sorting.retired.insert (resolveManifestPath manifestPath item.1) 0 } := by
  unfold sortCandidate
  split
  case isTrue active => simp [checkControl, allFound, bind, Except.bind, active, pure, Except.pure]
  case isFalse inactive =>
    simp [checkControl, allFound, bind, Except.bind, inactive, pure, Except.pure]

theorem mem_retired_allFound {active : ExtTreeSet ArchivePath} {candidate : ArchivePath}
    (among : candidate ∈ candidates)
    (inactive : resolveManifestPath manifestPath candidate ∉ active) {sorting : Sorting}
    (sorted : candidates.zipIdx.foldlM (sortCandidate allFound manifestPath active) ⟨∅, [], []⟩ =
      .ok sorting) :
    resolveManifestPath manifestPath candidate ∈ sorting.retired := by
  rcases mem_iff_getElem?.mp among with ⟨position, at_⟩
  have member : (candidate, position) ∈ candidates.zipIdx := mem_zipIdx_iff_getElem?.mpr at_
  refine foldlM_of_mem (fun sorting : Sorting =>
    resolveManifestPath manifestPath candidate ∈ sorting.retired) member ?_ ?_ sorted
  · intro state next other stepped retired
    rw [sortCandidate_allFound] at stepped
    split at stepped
    · exact (Except.ok.inj stepped) ▸ retired
    · rw [← Except.ok.inj stepped]
      exact ExtTreeMap.mem_insert.mpr (.inr retired)
  · intro state next stepped
    rw [sortCandidate_allFound, if_neg inactive] at stepped
    rw [← Except.ok.inj stepped]
    exact ExtTreeMap.mem_insert_self

/-- Where every path is found, some plan marks a candidate that is not active. -/
theorem exists_plan_marks {candidate : ArchivePath} (among : candidate ∈ candidates)
    (inactive : resolveManifestPath manifestPath candidate ∉
      ExtTreeSet.ofList (resolvedArchivePaths manifest manifestPath)) :
    ∃ policy plan, planInactiveArchiveCleanup allFound manifest manifestPath candidates policy =
      .ok plan ∧ resolveManifestPath manifestPath candidate ∈ plan.cleanupArchives := by
  have polls : ∀ poll, checkControl allFound poll = .ok () := fun _ => rfl
  have measures : ∀ bytes path, ∃ next, measureActive allFound bytes path = .ok next :=
    fun _ _ => ⟨_, rfl⟩
  have sorts : ∀ sorting item, ∃ next, sortCandidate allFound manifestPath
      (ExtTreeSet.ofList (resolvedArchivePaths manifest manifestPath)) sorting item =
        .ok next := by
    intro sorting item
    rw [sortCandidate_allFound]
    split
    · exact ⟨_, rfl⟩
    · exact ⟨_, rfl⟩
  rcases exists_foldlM_ok measures
    (ExtTreeSet.ofList (resolvedArchivePaths manifest manifestPath)).toList 0 with
    ⟨activeBytes, measured⟩
  rcases exists_foldlM_ok sorts candidates.zipIdx ⟨∅, [], []⟩ with ⟨sorting, sorted⟩
  have selects : ∀ (state : Unit) (index : Nat), ∃ next,
      (fun (_ : Unit) (_ : Nat) => (.ok () : Except GfmError Unit)) state index = .ok next :=
    fun _ _ => ⟨(), rfl⟩
  rcases exists_foldlM_ok selects (List.range sorting.retired.size) () with ⟨_, selected⟩
  have retired := mem_retired_allFound among inactive sorted
  have listed : resolveManifestPath manifestPath candidate ∈
      sorting.retired.toList.map Prod.fst := by
    rw [ExtTreeMap.map_fst_toList_eq_keys, ExtTreeMap.mem_keys]
    exact retired
  refine ⟨markAll sorting.retired.toList.length,
    planOf (markAll sorting.retired.toList.length) activeBytes sorting, ?run, ?marked⟩
  case run =>
    unfold planInactiveArchiveCleanup
    simp only [polls, measured, sorted, selected, bind, Except.bind]
    rfl
  case marked =>
    simp only [planOf, selectedCount_markAll, take_length]
    exact listed

/-- No active archive is marked or removed, whatever a run meets, exactly when no candidate reaches
one under another spelling. -/
theorem sparesActive_iff (manifest : ContentArchiveManifest) (manifestPath : ArchivePath)
    (candidates : List ArchivePath) :
    SparesActive manifest manifestPath candidates ↔
      Unaliased manifest manifestPath candidates := by
  constructor
  · intro spares candidate among entry listed same
    by_contra missed
    have inactive : resolveManifestPath manifestPath candidate ∉
        ExtTreeSet.ofList (resolvedArchivePaths manifest manifestPath) := by
      rw [ExtTreeSet.mem_ofList, contains_iff_mem]
      intro active
      rcases mem_map.mp active with ⟨other, otherListed, resolved⟩
      exact missed ⟨other, otherListed, resolved.symm⟩
    rcases exists_plan_marks among inactive with ⟨policy, plan, run, marked⟩
    exact (spares allFound).1 policy plan run _ marked entry listed same
  · intro unaliased surroundings
    constructor
    · intro policy plan run path marked entry listed
      exact unaliased.differs (plan_retires run marked) listed
    · intro path removed entry listed
      exact unaliased.differs (cleanup_retires removed) listed

/-- The active archive is reached through the directory itself. -/
def roundabout : ArchivePath := .relative ["..", "content", "base.bin"]

def baseManifest : ContentArchiveManifest := ⟨[⟨.hot, .relative ["base.bin"]⟩]⟩

theorem roundabout_removed :
    ¬∀ (manifest : ContentArchiveManifest) (manifestPath : ArchivePath)
      (candidates : List ArchivePath), SparesActive manifest manifestPath candidates := by
  intro spares
  have unaliased := (sparesActive_iff _ _ _).mp
    (spares baseManifest (.absolute ["content", "manifest.tsv"]) [roundabout])
  rcases unaliased roundabout (by decide) ⟨.hot, .relative ["base.bin"]⟩ (by decide)
    (by decide +kernel) with ⟨other, listed, same⟩
  rw [mem_singleton.mp listed] at same
  exact absurd same (by decide +kernel)

end Safety

end ArchiveCleanup

end Gfm.Store

import Gfm.Index.SubtreeExact
import Gfm.Index.VolumeState
import Gfm.Lib.Covering

/-!
# Scheduling repairs

A volume whose events cannot be resumed, a gap in the ids of the events and a dropped subtree each
ask for a repair. The repairs are sorted, the most urgent one of a path first, and a repair at or
below another one is left to that one, whatever the priorities of the two.
-/

namespace Gfm.Index

open Covering Interruptible List Search Sorted Std

section Schedule

inductive RepairPriority where
  | normal
  | high
  | critical
  deriving DecidableEq, Repr

def RepairPriority.rank : RepairPriority → Nat
  | .normal => 0
  | .high => 1
  | .critical => 2

inductive RepairReason where
  | resumeRequired (reason : Text)
  | eventIdGap (expected observed : Nat)
  | explicitDrop (reason : Text)
  deriving DecidableEq

def RepairReason.asStr : RepairReason → Text
  | .resumeRequired reason => "resume-required:".toList ++ reason
  | .eventIdGap expected observed =>
      "event-id-gap:".toList ++ Tsv.decimal expected ++ '-' :: Tsv.decimal observed
  | .explicitDrop reason => "explicit-drop:".toList ++ reason

def RepairReason.priority : RepairReason → RepairPriority
  | .resumeRequired _ => .critical
  | .eventIdGap _ _ => .high
  | .explicitDrop _ => .high

structure SubtreeRepairJob where
  path : Text
  reason : RepairReason
  priority : RepairPriority
  deriving DecidableEq

def SubtreeRepairJob.new (path : Text) (reason : RepairReason) : SubtreeRepairJob :=
  ⟨path, reason, reason.priority⟩

inductive FseventsResumeAction where
  | continue
  | rescan
  deriving DecidableEq, Repr

structure FseventsResumePlan where
  action : FseventsResumeAction
  fromEventId : Option Nat
  reason : Text
  deriving DecidableEq

structure RepairSchedule where
  resume : FseventsResumePlan
  jobs : List SubtreeRepairJob
  highestObservedEventId : Option Nat
  deriving DecidableEq

/-- The kinds of components in the order in which paths are compared. -/
def componentRank (component : Text) : Nat :=
  if component = ['/'] then 0
  else if component = ['.'] then 1
  else if component = ['.', '.'] then 2
  else 3

def compareComponent : Text → Text → Ordering :=
  compareLex (compareOn componentRank) compare

def comparePath (left right : Text) : Ordering :=
  List.compareLex compareComponent (pathComponents left) (pathComponents right)

/-- By the path, then the most urgent first, then by the text of the reason. -/
def compareJob : SubtreeRepairJob → SubtreeRepairJob → Ordering :=
  compareLex (fun left right => comparePath left.path right.path)
    (compareLex (fun left right => compare right.priority.rank left.priority.rank)
      (compareOn fun job => job.reason.asStr))

instance : Ord SubtreeRepairJob := ⟨compareJob⟩

instance (root path : Text) : Decidable (AtOrBelow root path) :=
  inferInstanceAs (Decidable (_ <+: _))

/-- An existing job whose path the path of the job starts with. -/
def Absorbs (existing job : SubtreeRepairJob) : Prop := AtOrBelow existing.path job.path

instance : DecidableRel Absorbs := fun _ _ => inferInstanceAs (Decidable (AtOrBelow _ _))

def normalizeRepairPath (root path : Text) : Text :=
  if path = [] ∨ pathComponents path = [['-']] then root
  else if path.head? = some '/' then path
  else joinPath root path

def gapJob (root : Text) : Option Nat → Nat → List SubtreeRepairJob
  | some expected, observed =>
      if expected < observed then [.new root (.eventIdGap expected observed)] else []
  | none, _ => []

variable (control : Control GfmError)

def coalesceLoop (coalesced : List SubtreeRepairJob) :
    List SubtreeRepairJob → Checked GfmError PUnit (List SubtreeRepairJob)
  | [] => pure coalesced
  | job :: jobs => do
      check control
      coalesceLoop (keep Absorbs coalesced job) jobs

def coalesceJobsChecked (jobs : List SubtreeRepairJob) :
    Checked GfmError PUnit (List SubtreeRepairJob) := do
  check control
  let coalesced ← coalesceLoop control [] (sortByKey id jobs)
  check control
  pure coalesced

def observeLoop (root : Text) (jobs : List SubtreeRepairJob) (expected : Option Nat) :
    List Nat → Checked GfmError PUnit (List SubtreeRepairJob)
  | [] => pure jobs
  | observed :: rest => do
      check control
      observeLoop root (jobs ++ gapJob root expected observed)
        (some (min (observed + 1) (2 ^ 64 - 1))) rest

def dropLoop (root reason : Text) (jobs : List SubtreeRepairJob) :
    List Text → Checked GfmError PUnit (List SubtreeRepairJob)
  | [] => pure jobs
  | dropped :: rest => do
      check control
      let job := SubtreeRepairJob.new (normalizeRepairPath root dropped) (.explicitDrop reason)
      dropLoop root reason (jobs ++ [job]) rest

def resumeJobs (root : Text) (resume : FseventsResumePlan) :
    Checked GfmError PUnit (List SubtreeRepairJob) := do
  if resume.action = .rescan then
    check control
    pure [.new root (.resumeRequired resume.reason)]
  else pure []

def RepairSchedule.evaluateChecked (volume : IndexVolumeState) (resume : FseventsResumePlan)
    (observedEventIds : List Nat) (droppedRoots : List Text) (explicitReason : Option Text) :
    Checked GfmError PUnit RepairSchedule := do
  check control
  let jobs ← resumeJobs control volume.root resume
  let jobs ← observeLoop control volume.root jobs resume.fromEventId observedEventIds
  let jobs ← dropLoop control volume.root (explicitReason.getD "stream-drop".toList) jobs
    droppedRoots
  check control
  let coalesced ← coalesceJobsChecked control jobs
  pure
    { resume
      jobs := coalesced
      highestObservedEventId := observedEventIds.max? }

/-- Without a control; an error would be a panic. -/
def RepairSchedule.evaluate (volume : IndexVolumeState) (resume : FseventsResumePlan)
    (observedEventIds : List Nat) (droppedRoots : List Text) (explicitReason : Option Text) :
    Option RepairSchedule :=
  match evaluateChecked (fun _ => none) volume resume observedEventIds droppedRoots explicitReason
    ⟨⟨⟩, 0⟩ with
  | .ok schedule _ => some schedule
  | .error _ _ => none

end Schedule

section Requests

variable {control : Control GfmError} {root : Text}

/-- The gaps between the ids of the events, from the expected one on. -/
def gapJobs (root : Text) (expected : Option Nat) : List Nat → List SubtreeRepairJob
  | [] => []
  | observed :: rest =>
      gapJob root expected observed ++ gapJobs root (some (min (observed + 1) (2 ^ 64 - 1))) rest

def dropJob (root reason dropped : Text) : SubtreeRepairJob :=
  .new (normalizeRepairPath root dropped) (.explicitDrop reason)

/-- What is asked for, before anything is coalesced. -/
def repairRequests (volume : IndexVolumeState) (resume : FseventsResumePlan)
    (observedEventIds : List Nat) (droppedRoots : List Text) (explicitReason : Option Text) :
    List SubtreeRepairJob :=
  (if resume.action = .rescan then [.new volume.root (.resumeRequired resume.reason)] else []) ++
    (gapJobs volume.root resume.fromEventId observedEventIds ++
      droppedRoots.map (dropJob volume.root (explicitReason.getD "stream-drop".toList)))

theorem steady_observeLoop (jobs : List SubtreeRepairJob) (expected : Option Nat)
    (observed : List Nat) :
    Steady control (observeLoop control root jobs expected observed) observed.length
      (jobs ++ gapJobs root expected observed) := by
  induction observed generalizing jobs expected with
  | nil => exact (Steady.pure jobs).congr rfl (append_nil _).symm
  | cons first rest ih =>
      refine (Steady.check_bind (ih _ _)).congr (Nat.add_comm ..) ?_
      rw [gapJobs, append_assoc]

theorem steady_dropLoop (reason : Text) (jobs : List SubtreeRepairJob) (dropped : List Text) :
    Steady control (dropLoop control root reason jobs dropped) dropped.length
      (jobs ++ dropped.map (dropJob root reason)) := by
  induction dropped generalizing jobs with
  | nil => exact (Steady.pure jobs).congr rfl (append_nil _).symm
  | cons first rest ih =>
      refine (Steady.check_bind (ih _)).congr (Nat.add_comm ..) ?_
      rw [append_assoc]
      rfl

theorem steady_coalesceLoop (coalesced jobs : List SubtreeRepairJob) :
    Steady control (coalesceLoop control coalesced jobs) jobs.length
      (jobs.foldl (keep Absorbs) coalesced) := by
  induction jobs generalizing coalesced with
  | nil => exact Steady.pure coalesced
  | cons job jobs ih => exact (Steady.check_bind (ih _)).congr (Nat.add_comm ..) rfl

theorem steady_coalesceJobsChecked (jobs : List SubtreeRepairJob) :
    ∃ count, Steady control (coalesceJobsChecked control jobs) count
      (coalesce Absorbs (sortByKey id jobs)) :=
  ⟨_, Steady.check_bind ((steady_coalesceLoop [] _).bind (Steady.check_bind (Steady.pure _)))⟩

theorem steady_resumeJobs (root : Text) (resume : FseventsResumePlan) :
    ∃ count, Steady control (resumeJobs control root resume) count
      (if resume.action = .rescan then [.new root (.resumeRequired resume.reason)] else []) := by
  rw [resumeJobs]
  split
  · exact ⟨_, Steady.check_bind (Steady.pure _)⟩
  · exact ⟨_, Steady.pure _⟩

/-- The control alone stops an evaluation. -/
theorem steady_evaluateChecked (volume : IndexVolumeState) (resume : FseventsResumePlan)
    (observedEventIds : List Nat) (droppedRoots : List Text) (explicitReason : Option Text) :
    ∃ count, Steady control (RepairSchedule.evaluateChecked control volume resume observedEventIds
      droppedRoots explicitReason) count
        { resume
          jobs := coalesce Absorbs (sortByKey id
            (repairRequests volume resume observedEventIds droppedRoots explicitReason))
          highestObservedEventId := observedEventIds.max? } := by
  rcases @steady_resumeJobs control volume.root resume with ⟨_, first⟩
  rcases @steady_coalesceJobsChecked control
    (repairRequests volume resume observedEventIds droppedRoots explicitReason) with ⟨_, last⟩
  rw [repairRequests, ← append_assoc] at last ⊢
  exact ⟨_, Steady.check_bind (first.bind ((steady_observeLoop _ _ _).bind
    ((steady_dropLoop _ _ _).bind (Steady.check_bind (last.bind (Steady.pure _))))))⟩

theorem evaluate_eq (volume : IndexVolumeState) (resume : FseventsResumePlan)
    (observedEventIds : List Nat) (droppedRoots : List Text) (explicitReason : Option Text) :
    RepairSchedule.evaluate volume resume observedEventIds droppedRoots explicitReason = some
      { resume
        jobs := coalesce Absorbs (sortByKey id
          (repairRequests volume resume observedEventIds droppedRoots explicitReason))
        highestObservedEventId := observedEventIds.max? } := by
  rcases @steady_evaluateChecked (fun _ => none) volume resume observedEventIds
    droppedRoots explicitReason with ⟨count, steady⟩
  rw [RepairSchedule.evaluate, steady, checksResult, firstInterrupt_never]

end Requests

section Order

instance : TransCmp compareComponent :=
  inferInstanceAs (TransCmp (compareLex (compareOn componentRank) compare))

instance : LawfulEqCmp compareComponent where
  eq_of_compare same := Std.compare_eq_iff_eq.mp (compareLex_eq_eq.mp same).2

theorem transCmp_on {α β : Type} (cmp : β → β → Ordering) [TransCmp cmp] (key : α → β) :
    TransCmp fun left right => cmp (key left) (key right) where
  eq_swap := OrientedCmp.eq_swap
  isLE_trans := TransCmp.isLE_trans

instance : TransCmp comparePath :=
  transCmp_on (List.compareLex compareComponent) pathComponents

instance : TransOrd SubtreeRepairJob := by
  have paths := transCmp_on comparePath SubtreeRepairJob.path
  have ranks : TransCmp fun left right : SubtreeRepairJob =>
      compare right.priority.rank left.priority.rank :=
    transCmp_on (fun left right : Nat => compare right left)
      fun job : SubtreeRepairJob => job.priority.rank
  exact inferInstanceAs (TransCmp (compareLex _ (compareLex _ (compareOn _))))

end Order

section Coverage

variable {jobs requests : List SubtreeRepairJob} {job request : SubtreeRepairJob} {root path : Text}

theorem absorbs_refl (job : SubtreeRepairJob) : Absorbs job job := prefix_refl _

theorem absorbs_trans (first second third : SubtreeRepairJob) (left : Absorbs first second)
    (right : Absorbs second third) : Absorbs first third := left.trans right

/-- No job is at or below another one, and every request is at or below a job that is at least as
urgent. -/
structure Covered (requests jobs : List SubtreeRepairJob) : Prop where
  apart : Apart Absorbs jobs
  covered : ∀ request ∈ requests, ∃ job ∈ jobs,
    AtOrBelow job.path request.path ∧ request.priority.rank ≤ job.priority.rank

/-- Of the jobs for one path the most urgent one is kept. -/
theorem rank_le_of_mem_coalesce (member : job ∈ coalesce Absorbs (sortByKey id jobs))
    (other : request ∈ jobs) (same : pathComponents request.path = pathComponents job.path) :
    request.priority.rank ≤ job.priority.rank := by
  rcases first_of_mem_coalesce absorbs_refl absorbs_trans _ job member with
    ⟨before, after, shape, first⟩
  have ascending := ascending_sortByKey id jobs
  have listed := (sortByKey_perm id jobs).mem_iff.mpr other
  rw [shape] at ascending listed
  rcases mem_append.mp listed with early | late
  · refine absurd ?_ (first request early)
    rw [Absorbs, AtOrBelow, same]
  · rcases mem_cons.mp late with rfl | later
    · exact le_rfl
    · have before := (pairwise_cons.mp (pairwise_append.mp ascending).2.1).1 _ later
      have paths : comparePath job.path request.path = .eq := by
        rw [comparePath, same]
        exact Std.ReflCmp.compare_self
      by_contra lower
      have ranks : compare request.priority.rank job.priority.rank = .gt :=
        Nat.compare_eq_gt.mpr (Nat.not_le.mp lower)
      change (compareJob job request).isLE = true at before
      rw [compareJob, compareLex, paths, Ordering.eq_then, compareLex, ranks, Ordering.gt_then]
        at before
      cases before

/-- What a request can be. -/
inductive Requested (volume : IndexVolumeState) (resume : FseventsResumePlan)
    (droppedRoots : List Text) (request : SubtreeRepairJob) : Prop
  | resumed (rescan : resume.action = .rescan) (path : request.path = volume.root)
      (urgent : request.priority = .critical)
  | gap (path : request.path = volume.root) (high : request.priority = .high)
  | drop (dropped : Text) (listed : dropped ∈ droppedRoots)
      (path : request.path = normalizeRepairPath volume.root dropped)
      (high : request.priority = .high)

theorem requested_gapJobs {expected : Option Nat} {observed : List Nat}
    (member : request ∈ gapJobs root expected observed) :
    request.path = root ∧ request.priority = .high := by
  induction observed generalizing expected with
  | nil => cases member
  | cons first rest ih =>
      rw [gapJobs] at member
      rcases mem_append.mp member with here | later
      · cases expected with
        | none => cases here
        | some expected =>
            rw [gapJob] at here
            split at here
            · rw [mem_singleton.mp here]
              exact ⟨rfl, rfl⟩
            · cases here
      · exact ih later

section Evaluated

variable {volume : IndexVolumeState} {resume : FseventsResumePlan} {observedEventIds : List Nat}
  {droppedRoots : List Text} {explicitReason : Option Text}

theorem requested (member : request ∈
      repairRequests volume resume observedEventIds droppedRoots explicitReason) :
    Requested volume resume droppedRoots request := by
  rw [repairRequests] at member
  rcases mem_append.mp member with first | later
  · split at first
    · rename_i rescan
      rw [mem_singleton.mp first]
      exact .resumed rescan rfl rfl
    · cases first
  · rcases mem_append.mp later with gap | drop
    · have shape := requested_gapJobs gap
      exact .gap shape.1 shape.2
    · rcases mem_map.mp drop with ⟨dropped, listed, rfl⟩
      exact .drop dropped listed rfl rfl

/-- A dropped subtree with the whole volume inside, and more. -/
def Swallows (volume : IndexVolumeState) (dropped : Text) : Prop :=
  AtOrBelow (normalizeRepairPath volume.root dropped) volume.root ∧
    pathComponents (normalizeRepairPath volume.root dropped) ≠ pathComponents volume.root

theorem Requested.high_le (requested : Requested volume resume droppedRoots request) :
    RepairPriority.high.rank ≤ request.priority.rank := by
  cases requested with
  | resumed _ _ urgent => rw [urgent]; decide
  | gap _ high => exact high ▸ le_rfl
  | drop _ _ _ high => exact high ▸ le_rfl

/-- What covers the repair of the whole volume is for its root, unless a dropped subtree swallows
the volume. -/
theorem Requested.path_eq (requested : Requested volume resume droppedRoots job)
    (safe : ∀ dropped ∈ droppedRoots, ¬Swallows volume dropped)
    (above : AtOrBelow job.path volume.root) :
    pathComponents volume.root = pathComponents job.path := by
  cases requested with
  | resumed _ path _ => rw [path]
  | gap path _ => rw [path]
  | drop dropped listed path _ =>
      rw [path] at above ⊢
      by_contra different
      exact safe dropped listed ⟨above, Ne.symm different⟩

theorem mem_of_mem_coalesce (member : job ∈ coalesce Absorbs (sortByKey id jobs)) : job ∈ jobs := by
  rcases first_of_mem_coalesce absorbs_refl absorbs_trans _ job member with ⟨_, _, shape, -⟩
  rw [← (sortByKey_perm id jobs).mem_iff, shape]
  exact mem_append_right _ (mem_cons_self ..)

theorem exists_absorbs (member : request ∈ jobs) :
    ∃ job ∈ coalesce Absorbs (sortByKey id jobs), Absorbs job request :=
  exists_covers absorbs_refl absorbs_trans _ request ((sortByKey_perm id jobs).mem_iff.mpr member)

theorem covered_of_safe
    (safe : resume.action = .rescan → ∀ dropped ∈ droppedRoots, ¬Swallows volume dropped) :
    Covered (repairRequests volume resume observedEventIds droppedRoots explicitReason)
      (coalesce Absorbs (sortByKey id
        (repairRequests volume resume observedEventIds droppedRoots explicitReason))) where
  apart := apart_coalesce _
  covered request member := by
    rcases exists_absorbs member with ⟨job, kept, absorbs⟩
    have own := mem_of_mem_coalesce kept
    refine ⟨job, kept, absorbs, ?_⟩
    cases requested member with
    | resumed rescan path _ =>
        rw [Absorbs, path] at absorbs
        have same := (requested own).path_eq (safe rescan) absorbs
        rw [← path] at same
        exact rank_le_of_mem_coalesce kept member same
    | gap _ high => exact high ▸ (requested own).high_le
    | drop _ _ _ high => exact high ▸ (requested own).high_le

theorem not_swallows_of_covered (rescan : resume.action = .rescan)
    (covered : Covered (repairRequests volume resume observedEventIds droppedRoots explicitReason)
      (coalesce Absorbs (sortByKey id
        (repairRequests volume resume observedEventIds droppedRoots explicitReason))))
    {dropped : Text} (listed : dropped ∈ droppedRoots) : ¬Swallows volume dropped := by
  rintro ⟨above, different⟩
  have resumed : SubtreeRepairJob.new volume.root (.resumeRequired resume.reason) ∈
      repairRequests volume resume observedEventIds droppedRoots explicitReason := by
    rw [repairRequests, if_pos rescan]
    exact mem_cons_self ..
  have drop : dropJob volume.root (explicitReason.getD "stream-drop".toList) dropped ∈
      repairRequests volume resume observedEventIds droppedRoots explicitReason :=
    mem_append_right _ (mem_append_right _ (mem_map_of_mem listed))
  rcases covered.covered _ resumed with ⟨job, kept, -, urgent⟩
  rcases covered.covered _ drop with ⟨existing, held, covers, -⟩
  have path : job.path = volume.root := by
    cases requested (mem_of_mem_coalesce kept) with
    | resumed _ path _ => exact path
    | gap path _ => exact path
    | drop _ _ _ high =>
        rw [high] at urgent
        exact absurd (show 2 ≤ 1 from urgent) (by decide)
  have again : Absorbs existing job := by
    rw [Absorbs, path]
    exact covers.trans above
  rw [covered.apart.eq_of_covers held kept again, path] at covers
  exact different (covers.eq_of_length_le above.length_le).symm

/-- The urgent repair of the volume is lost exactly if a dropped subtree swallows the volume. -/
theorem covered_coalesce_iff :
    Covered (repairRequests volume resume observedEventIds droppedRoots explicitReason)
        (coalesce Absorbs (sortByKey id
          (repairRequests volume resume observedEventIds droppedRoots explicitReason))) ↔
      (resume.action = .rescan → ∀ dropped ∈ droppedRoots, ¬Swallows volume dropped) :=
  ⟨fun covered rescan _ listed => not_swallows_of_covered rescan covered listed, covered_of_safe⟩

/-- The repairs of a schedule cover what is asked for unless the volume cannot be resumed and a
dropped subtree swallows it. -/
theorem evaluate_covered_iff (volume : IndexVolumeState) (resume : FseventsResumePlan)
    (observedEventIds : List Nat) (droppedRoots : List Text) (explicitReason : Option Text) :
    ∃ schedule,
      RepairSchedule.evaluate volume resume observedEventIds droppedRoots explicitReason =
          some schedule ∧
        (Covered (repairRequests volume resume observedEventIds droppedRoots explicitReason)
            schedule.jobs ↔
          (resume.action = .rescan → ∀ dropped ∈ droppedRoots, ¬Swallows volume dropped)) :=
  ⟨_, evaluate_eq .., covered_coalesce_iff⟩

/-- The resumed volume is left to a dropped root of the file system, which is less urgent. -/
theorem evaluate_not_covered :
    let volume : IndexVolumeState :=
      ⟨1, "/Volumes/Data".toList, "/tmp/data.gfmidx".toList, 1, "mount:1".toList, 1, 20, 0, none,
        none, none, none, none, none, none, none⟩
    let resume : FseventsResumePlan := ⟨.rescan, none, "repair-required".toList⟩
    ∃ schedule, RepairSchedule.evaluate volume resume [] ["/".toList] none = some schedule ∧
      ¬Covered (repairRequests volume resume [] ["/".toList] none) schedule.jobs := by
  refine ⟨_, evaluate_eq .., fun covered => ?_⟩
  refine not_swallows_of_covered rfl covered (mem_singleton_self _) ⟨?_, ?_⟩
  · decide +kernel
  · decide +kernel

end Evaluated

end Coverage

end Gfm.Index

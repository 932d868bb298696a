import Gfm.Jobs.Ledgers
import Gfm.Lib.Maintains

/-!
# Pruning the ledgers

The loop that prunes a ledger turns referenced ids to the back of the order and evicts the others
from its front. It has passed over so many ids since the last eviction, all referenced, and stops
when it has passed over all of them or the order is short enough. What it needs is that every id
of the ledger is in the order, which every operation keeps, interrupted or not.
-/

namespace Gfm.Jobs

open Interruptible List

section Loop

variable {referenced completed : Finset JobId} {order : List JobId}

/-- The ids of the order that nothing references, oldest first. -/
def unreferenced (referenced : Finset JobId) (order : List JobId) : List JobId :=
  order.filter (· ∉ referenced)

/-- How many ids the loop evicts: as many as are too many, if so many are not referenced. -/
def evictions (referenced : Finset JobId) (order : List JobId) : Nat :=
  min (unreferenced referenced order).length (order.length - completedDependencyRetention)

/-- The last ids of the order, those the loop has passed over, are referenced. -/
def Passed (referenced : Finset JobId) (order : List JobId) (rotated : Nat) : Prop :=
  ∃ front passed, order = front ++ passed ∧ passed.length = rotated ∧ ∀ id ∈ passed, id ∈ referenced

theorem passed_zero (referenced : Finset JobId) (order : List JobId) : Passed referenced order 0 :=
  ⟨order, [], by simp, rfl, by simp⟩

theorem Passed.rotate {id : JobId} {rest : List JobId} {rotated : Nat}
    (passed : Passed referenced (id :: rest) rotated) (pinned : id ∈ referenced)
    (short : rotated < (id :: rest).length) :
    Passed referenced (rest ++ [id]) (rotated + 1) := by
  rcases passed with ⟨front, behind, split, length, each⟩
  cases front with
  | nil =>
      rw [nil_append] at split
      rw [split, length] at short
      exact absurd short (lt_irrefl _)
  | cons first front =>
      rw [cons_append, List.cons.injEq] at split
      refine ⟨front, behind ++ [id], by rw [split.2, append_assoc], by simp [length], ?_⟩
      intro other member
      rcases mem_append.mp member with old | new
      · exact each other old
      · rw [mem_singleton.mp new]
        exact pinned

theorem unreferenced_rotate {id : JobId} {rest : List JobId} (pinned : id ∈ referenced) :
    unreferenced referenced (rest ++ [id]) = unreferenced referenced (id :: rest) := by
  simp [unreferenced, filter_append, pinned]

/-- What the loop does to the ledger and the order. -/
structure Evicts (referenced completed : Finset JobId) (order : List JobId)
    (pruned : Finset JobId × List JobId) : Prop where
  evicted : pruned.1 = completed \ ((unreferenced referenced order).take
    (evictions referenced order)).toFinset
  bounded : pruned.2.length ≤ completedDependencyRetention ∨ ∀ id ∈ pruned.2, id ∈ referenced
  listed : ∀ id ∈ pruned.1, id ∈ order → id ∈ pruned.2

theorem Passed.all {rotated : Nat} (passed : Passed referenced order rotated)
    (long : order.length ≤ rotated) : ∀ id ∈ order, id ∈ referenced := by
  rcases passed with ⟨front, behind, split, length, each⟩
  have lengths := congrArg List.length split
  rw [length_append] at lengths
  have none : front = [] := eq_nil_of_length_eq_zero (by omega)
  rw [split, none]
  exact each

theorem pruneLoop_evicts {rotated : Nat} (passed : Passed referenced order rotated) :
    Evicts referenced completed order (pruneLoop referenced completed order rotated) := by
  induction completed, order, rotated using Jobs.pruneLoop.induct referenced with
  | case1 completed rotated =>
      rw [pruneLoop]
      exact ⟨by simp [unreferenced], .inr (by simp), by simp⟩
  | case2 completed id rest rotated long pinned ih =>
      rw [pruneLoop, if_pos long, if_pos pinned]
      have later := ih (passed.rotate pinned long.2)
      have same : evictions referenced (rest ++ [id]) = evictions referenced (id :: rest) := by
        rw [evictions, evictions, unreferenced_rotate pinned]
        simp
      refine ⟨?_, later.bounded, fun other kept among => later.listed other kept ?_⟩
      · rw [later.evicted, same, unreferenced_rotate pinned]
      · simpa [or_comm] using among
  | case3 completed id rest rotated long free ih =>
      rw [pruneLoop, if_pos long, if_neg free]
      have later := ih (passed_zero referenced rest)
      have first : unreferenced referenced (id :: rest) = id :: unreferenced referenced rest := by
        simp [unreferenced, free]
      have count : evictions referenced (id :: rest) = evictions referenced rest + 1 := by
        have tooLong := long.1
        rw [evictions, evictions, first]
        simp only [length_cons] at tooLong ⊢
        omega
      refine ⟨?_, later.bounded, fun other kept among => later.listed other kept ?_⟩
      · rw [later.evicted, first, count, take_succ_cons, toFinset_cons]
        ext other
        simp only [Finset.mem_sdiff, Finset.mem_erase, Finset.mem_insert, not_or]
        tauto
      · rw [later.evicted, Finset.mem_sdiff, Finset.mem_erase] at kept
        exact (mem_cons.mp among).resolve_left kept.1.1
  | case4 completed id rest rotated short =>
      rw [pruneLoop, if_neg short]
      have stopped : (id :: rest).length ≤ completedDependencyRetention ∨
          ∀ other ∈ id :: rest, other ∈ referenced := by
        by_cases fits : (id :: rest).length ≤ completedDependencyRetention
        · exact .inl fits
        · exact .inr (passed.all (not_lt.mp fun few => short ⟨not_le.mp fits, few⟩))
      have none : evictions referenced (id :: rest) = 0 := by
        rcases stopped with fits | pinned
        · rw [evictions, Nat.sub_eq_zero_of_le fits, Nat.min_zero]
        · have empty : unreferenced referenced (id :: rest) = [] :=
            filter_eq_nil_iff.mpr fun other member => by simp [pinned other member]
          rw [evictions, empty, length_nil, Nat.zero_min]
      exact ⟨by simp [none], stopped, fun other _ among => among⟩

end Loop

section Safety

variable {queue : List Job} {completed : Finset JobId} {order : List JobId}

/-- Some queued job depends on the id. -/
def Referenced (queue : List Job) (id : JobId) : Prop := ∃ job ∈ queue, id ∈ job.dependencies

/-- The ids of the ledger that no queued job depends on, in the order of the list. -/
def evictable (queue : List Job) (completed : Finset JobId) (order : List JobId) : List JobId :=
  unreferenced (queue.flatMap Job.dependencies).toFinset (order.filter (· ∈ completed))

/-- What the pruning of a ledger keeps and evicts. -/
structure PrunedSafely (queue : List Job) (completed : Finset JobId) (order : List JobId)
    (pruned : Finset JobId) : Prop where
  spares : ∀ id ∈ completed, Referenced queue id → id ∈ pruned
  oldest : ∃ count, pruned = completed \ ((evictable queue completed order).take count).toFinset
  bounded : pruned.card ≤ completedDependencyRetention ∨ ∀ id ∈ pruned, Referenced queue id

theorem mem_dependencies {id : JobId} :
    id ∈ (queue.flatMap Job.dependencies).toFinset ↔ Referenced queue id := by
  simp [Referenced]

theorem pruneCompletedLedgerParts_evicts (queue : List Job) (completed : Finset JobId)
    (order : List JobId) :
    Evicts (queue.flatMap Job.dependencies).toFinset completed (order.filter (· ∈ completed))
      (pruneCompletedLedgerParts queue completed order) :=
  pruneLoop_evicts (passed_zero _ _)

theorem listed_parts (listed : ∀ id ∈ completed, id ∈ order) :
    ∀ id ∈ (pruneCompletedLedgerParts queue completed order).1,
      id ∈ (pruneCompletedLedgerParts queue completed order).2 := by
  intro id kept
  have evicts := pruneCompletedLedgerParts_evicts queue completed order
  have fewer := kept
  rw [evicts.evicted, Finset.mem_sdiff] at fewer
  exact evicts.listed id kept
    (mem_filter.mpr ⟨listed id fewer.1, decide_eq_true fewer.1⟩)

theorem prunedSafely (listed : ∀ id ∈ completed, id ∈ order) :
    PrunedSafely queue completed order (pruneCompletedLedgerParts queue completed order).1 := by
  have evicts := pruneCompletedLedgerParts_evicts queue completed order
  refine ⟨fun id done needed => ?_, ⟨_, evicts.evicted⟩, ?_⟩
  · rw [evicts.evicted, Finset.mem_sdiff]
    refine ⟨done, fun evicted => ?_⟩
    have free := (mem_filter.mp (mem_of_mem_take (mem_toFinset.mp evicted))).2
    exact of_decide_eq_true free (mem_dependencies.mpr needed)
  · rcases evicts.bounded with short | pinned
    · refine .inl (le_trans ?_ short)
      refine le_trans (Finset.card_le_card fun id kept => ?_) (toFinset_card_le _)
      exact mem_toFinset.mpr (listed_parts listed id kept)
    · exact .inr fun id kept => mem_dependencies.mp (pinned id (listed_parts listed id kept))

end Safety

/-- Every id of a ledger is in its order. -/
structure Scheduler.Listed (scheduler : Scheduler) : Prop where
  completed : ∀ id ∈ scheduler.completed, id ∈ scheduler.completedOrder
  failed : ∀ id ∈ scheduler.failed, id ∈ scheduler.failedOrder

namespace Scheduler.Listed

variable {scheduler : Scheduler} {id : JobId}

theorem newStartingAfter (id : JobId) : (Scheduler.newStartingAfter id).Listed := by
  constructor
  · simp [Scheduler.newStartingAfter, Scheduler.new]
  · simp [Scheduler.newStartingAfter, Scheduler.new]

theorem requeue (listed : scheduler.Listed) (next : Nat) (queue : List Job)
    (cancelled : Finset JobId) :
    ({ scheduler with next, queue, cancelled } : Scheduler).Listed :=
  ⟨listed.completed, listed.failed⟩

theorem insertCompleted (listed : scheduler.Listed) : (scheduler.insertCompleted id).Listed := by
  unfold Scheduler.insertCompleted
  split
  · exact listed
  · refine ⟨fun other member => ?_, listed.failed⟩
    rcases Finset.mem_insert.mp member with rfl | old
    · exact mem_append_right _ (mem_singleton_self _)
    · exact mem_append_left _ (listed.completed other old)

theorem insertFailed (listed : scheduler.Listed) : (scheduler.insertFailed id).Listed := by
  unfold Scheduler.insertFailed
  split
  · exact listed
  · refine ⟨listed.completed, fun other member => ?_⟩
    rcases Finset.mem_insert.mp member with rfl | old
    · exact mem_append_right _ (mem_singleton_self _)
    · exact mem_append_left _ (listed.failed other old)

theorem removeCompleted (listed : scheduler.Listed) : (scheduler.removeCompleted id).Listed := by
  refine ⟨fun other member => ?_, listed.failed⟩
  rcases Finset.mem_erase.mp member with ⟨different, old⟩
  exact mem_filter.mpr ⟨listed.completed other old, decide_eq_true different⟩

theorem removeFailed (listed : scheduler.Listed) : (scheduler.removeFailed id).Listed := by
  refine ⟨listed.completed, fun other member => ?_⟩
  rcases Finset.mem_erase.mp member with ⟨different, old⟩
  exact mem_filter.mpr ⟨listed.failed other old, decide_eq_true different⟩

theorem applyOutcome (listed : scheduler.Listed) (outcome : TaskOutcome) :
    (scheduler.applyOutcome outcome).Listed := by
  unfold Scheduler.applyOutcome
  split
  · exact listed
  · exact (listed.requeue _ _ _).removeFailed.insertCompleted
  · exact listed.removeCompleted.removeFailed.requeue _ _ _
  · exact (listed.requeue _ _ _).removeCompleted.insertFailed

theorem prune (listed : scheduler.Listed) : scheduler.pruneCompletedLedger.Listed :=
  ⟨listed_parts listed.completed, listed_parts listed.failed⟩

theorem shrink (listed : scheduler.Listed) {completed failed : Finset JobId}
    (fewer : completed ⊆ scheduler.completed) (fewerFailed : failed ⊆ scheduler.failed) :
    ({ scheduler with completed, failed } : Scheduler).Listed :=
  ⟨fun id member => listed.completed id (fewer member),
    fun id member => listed.failed id (fewerFailed member)⟩

end Scheduler.Listed

section Operations

variable {control : Control GfmError} {α : Type}

/-- The ledgers of the world's scheduler are listed. -/
def World.Listed (world : World) : Prop := world.scheduler.Listed

theorem after_listed {world : World} {program : Checked GfmError World α} {returns : α → Prop}
    (maintains : Maintains World.Listed program returns) (listed : world.Listed) :
    (world.after program).Listed := by
  have run := maintains ⟨world, 0⟩ listed
  unfold World.after
  split
  next value finish ended =>
    rw [ended] at run
    exact run.1
  next error finish ended =>
    rw [ended] at run
    exact run

theorem scheduler_maintains : Maintains World.Listed scheduler Scheduler.Listed :=
  fun _ listed => ⟨listed, listed⟩

theorem modifyScheduler_maintains {change : Scheduler → Scheduler}
    (keeps : ∀ scheduler : Scheduler, scheduler.Listed → (change scheduler).Listed) :
    Maintains World.Listed (modifyScheduler change) fun _ => True :=
  fun _ listed => ⟨keeps _ listed, trivial⟩

theorem cancelTokens_maintains (jobs : List Job) :
    Maintains World.Listed (cancelTokens jobs) fun _ => True :=
  fun _ listed => ⟨listed, trivial⟩

theorem markCompleted_maintains (id : JobId) :
    Maintains World.Listed (markCompletedChecked control id) fun _ => True := by
  refine .check_bind (.bind scheduler_maintains fun before _ => ?_)
  refine .bind (modifyScheduler_maintains fun scheduler listed =>
    (listed.requeue _ _ _).insertCompleted) fun _ _ => ?_
  refine .bind (.tryCatch .check fun error => ?_) fun _ _ =>
    modifyScheduler_maintains fun _ listed => listed.prune
  have restored : Maintains World.Listed
      (if id ∈ before.cancelled then
        modifyScheduler (fun scheduler =>
          { scheduler with cancelled := insert id scheduler.cancelled }) >>= fun _ => throw error
      else throw error : Checked GfmError World PUnit) fun _ => True := by
    split
    · exact .bind (modifyScheduler_maintains fun scheduler listed => listed.requeue _ _ _)
        fun _ _ => .throw _
    · exact .throw _
  dsimp only
  split
  · exact .bind (modifyScheduler_maintains fun _ listed => listed.removeCompleted)
      fun _ _ => restored
  · exact restored

theorem applyOutcomes_maintains (outcomes : List TaskOutcome) (seen : Finset JobId)
    {staged : Scheduler} (listed : staged.Listed) :
    Maintains World.Listed (applyOutcomesChecked control outcomes seen staged)
      Scheduler.Listed := by
  induction outcomes generalizing seen staged with
  | nil => exact .pure listed
  | cons outcome outcomes ih =>
      unfold applyOutcomesChecked
      refine .check_bind ?_
      split
      · exact ih seen listed
      · split
        · exact .throw _
        · exact .check_bind (ih _ (listed.applyOutcome outcome))

theorem applyWorkerReport_maintains (report : WorkerReport) :
    Maintains World.Listed (applyWorkerReportChecked control report) fun _ => True := by
  refine .check_bind (.bind scheduler_maintains fun before listed => ?_)
  refine .bind (applyOutcomes_maintains _ _ listed) fun staged listed => .check_bind ?_
  refine .bind (modifyScheduler_maintains fun scheduler _ => ?_) fun _ _ => .pure trivial
  exact listed.prune.requeue _ _ _

theorem bindVolume_maintains (id : JobId) (volume : VolumeId) :
    Maintains World.Listed (bindVolumeChecked control id volume) fun _ => True := by
  refine .check_bind (.bind scheduler_maintains fun before _ => ?_)
  refine .steady_bind (checkEach_steady _) (.check_bind ?_)
  exact .bind (modifyScheduler_maintains fun scheduler listed => listed.requeue _ _ _)
    fun _ _ => .pure trivial

theorem cancelVolumeJobs_maintains (volume : VolumeId) (jobClass : Option JobClass)
    (payloadKinds : Option (List JobPayloadKind)) :
    Maintains World.Listed (cancelVolumeJobsChecked control volume jobClass payloadKinds)
      fun _ => True := by
  refine .check_bind (.bind scheduler_maintains fun before _ => ?_)
  refine .steady_bind (checkEach_steady _) (.check_bind ?_)
  refine .bind (modifyScheduler_maintains fun scheduler listed => listed.requeue _ _ _)
    fun _ _ => ?_
  exact .bind (cancelTokens_maintains _) fun _ _ => .pure trivial

theorem drainReady_maintains :
    Maintains World.Listed (drainReadyChecked control) fun _ => True := by
  refine .bind scheduler_maintains fun before _ => ?_
  refine .steady_bind (stageReadyDrainChecked_steady before) (.check_bind ?_)
  refine .bind (cancelTokens_maintains _) fun _ _ => ?_
  exact .bind (modifyScheduler_maintains fun scheduler listed => listed.requeue _ _ _)
    fun _ _ => .pure trivial

theorem requeue_maintains (jobs : List Job) :
    Maintains World.Listed (requeueChecked control jobs) fun _ => True := by
  induction jobs with
  | nil => exact .pure trivial
  | cons job jobs ih =>
      have pushed : Maintains World.Listed (modifyScheduler fun scheduler =>
          { scheduler with queue := scheduler.queue ++ [job] }) fun _ => True :=
        modifyScheduler_maintains fun scheduler listed => listed.requeue _ _ _
      exact .check_bind (.bind pushed fun _ _ => ih)

theorem drainFairReady_maintains (policy : JobFairnessPolicy) (completed : List JobId) :
    Maintains World.Listed (drainFairReadyChecked control policy completed) fun _ => True := by
  refine .bind scheduler_maintains fun before _ => ?_
  refine .steady_bind (stageReadyDrainChecked_steady before) (.check_bind ?_)
  refine .steady_bind (JobFairnessPlanner.planChecked_steady _ _) (.check_bind ?_)
  refine .bind (cancelTokens_maintains _) fun _ _ => ?_
  refine .bind (modifyScheduler_maintains fun scheduler listed => ?_) fun _ _ => ?_
  · exact (listed.shrink (Finset.filter_subset _ _) (Finset.filter_subset _ _)).requeue _ _ _
  refine .bind (requeue_maintains _) fun _ _ => ?_
  exact .bind (modifyScheduler_maintains fun _ listed => listed.prune) fun _ _ => .pure trivial

theorem popLoop_listed (jobs : List Job) {world : World} (listed : world.Listed) :
    (popLoop jobs world).2.Listed := by
  induction jobs generalizing world with
  | nil => exact listed.requeue _ _ _
  | cons job jobs ih =>
      unfold popLoop
      split
      · exact ih (listed.requeue _ _ _)
      · exact listed.requeue _ _ _

theorem perform_listed {world : World} (listed : world.Listed) (operation : SchedulerOperation) :
    (world.perform operation).Listed := by
  cases operation with
  | schedule priority jobClass payloadKind label volume dependencies => exact listed.requeue _ _ _
  | cancel id => exact listed.requeue _ _ _
  | markCompleted control id => exact after_listed (markCompleted_maintains id) listed
  | applyWorkerReport control report =>
      exact after_listed (applyWorkerReport_maintains report) listed
  | bindVolume control id volume => exact after_listed (bindVolume_maintains id volume) listed
  | cancelVolumeJobs control volume jobClass payloadKinds =>
      exact after_listed (cancelVolumeJobs_maintains volume jobClass payloadKinds) listed
  | popNext => exact popLoop_listed _ listed
  | drainReady control => exact after_listed drainReady_maintains listed
  | drainFairReady control policy completed =>
      exact after_listed (drainFairReady_maintains policy completed) listed

theorem run_listed (first : JobId) (operations : List SchedulerOperation) :
    ((World.newStartingAfter first).run operations).Listed := by
  have general : ∀ world : World, world.Listed → (world.run operations).Listed := by
    induction operations with
    | nil => exact fun world listed => listed
    | cons operation operations ih =>
        exact fun world listed => ih _ (perform_listed listed operation)
  exact general _ (Scheduler.Listed.newStartingAfter first)

end Operations

/-- The loop ends for every queue, ledger and order, and prunes safely every ledger that its order
lists; both ledgers are so in every state that the scheduler reaches, whatever interrupts it. -/
theorem pruneCompletedLedger_safe :
    (∀ (queue : List Job) (completed : Finset JobId) (order : List JobId),
      (∀ id ∈ completed, id ∈ order) →
        PrunedSafely queue completed order (pruneCompletedLedgerParts queue completed order).1) ∧
    ∀ (first : JobId) (operations : List SchedulerOperation),
      ((World.newStartingAfter first).run operations).scheduler.Listed :=
  ⟨fun _ _ _ => prunedSafely, run_listed⟩

end Gfm.Jobs

import Gfm.Jobs.Drain

/-!
# The ledgers of the scheduler

The three ledgers are meant to be disjoint, and each order to list its ledger once. Every
operation keeps that, the interrupted ones included, but for two: a job that is marked
completed stays in the failed ledger, and a job that is cancelled stays in the ledger of the
completed or the failed ones. A worker report clears the other ledgers.
-/

namespace Gfm.Jobs

open Interruptible List

section Pruning

variable {referenced completed : Finset JobId} {order : List JobId}

/-- The order lists the ledger, each id once. -/
structure Enumerates (order : List JobId) (ledger : Finset JobId) : Prop where
  nodup : order.Nodup
  listed : ∀ id, id ∈ order ↔ id ∈ ledger

namespace Enumerates

theorem tail {id : JobId} {rest : List JobId} (enumerates : Enumerates (id :: rest) completed) :
    Enumerates rest (completed.erase id) := by
  have parts := nodup_cons.mp enumerates.nodup
  refine ⟨parts.2, fun other => ?_⟩
  rw [Finset.mem_erase, ← enumerates.listed other, mem_cons]
  constructor
  · intro among
    exact ⟨fun same => parts.1 (same ▸ among), .inr among⟩
  · rintro ⟨different, same | among⟩
    · exact absurd same different
    · exact among

theorem rotate {id : JobId} {rest : List JobId} (enumerates : Enumerates (id :: rest) completed) :
    Enumerates (rest ++ [id]) completed := by
  have rotated : (rest ++ [id]).Perm (id :: rest) := perm_append_singleton id rest
  exact ⟨rotated.nodup_iff.mpr enumerates.nodup, fun other =>
    rotated.mem_iff.trans (enumerates.listed other)⟩

theorem pruneLoop (enumerates : Enumerates order completed) (rotated : Nat) :
    Enumerates (Jobs.pruneLoop referenced completed order rotated).2
        (Jobs.pruneLoop referenced completed order rotated).1 ∧
      (Jobs.pruneLoop referenced completed order rotated).1 ⊆ completed := by
  induction completed, order, rotated using Jobs.pruneLoop.induct referenced with
  | case1 completed rotated =>
      rw [Jobs.pruneLoop]
      exact ⟨enumerates, Finset.Subset.refl completed⟩
  | case2 completed id rest rotated long pinned ih =>
      rw [Jobs.pruneLoop, if_pos long, if_pos pinned]
      exact ih enumerates.rotate
  | case3 completed id rest rotated long free ih =>
      rw [Jobs.pruneLoop, if_pos long, if_neg free]
      rcases ih enumerates.tail with ⟨kept, fewer⟩
      exact ⟨kept, fewer.trans (Finset.erase_subset id completed)⟩
  | case4 completed id rest rotated short =>
      rw [Jobs.pruneLoop, if_neg short]
      exact ⟨enumerates, Finset.Subset.refl completed⟩

theorem prune (enumerates : Enumerates order completed) (queue : List Job) :
    Enumerates (pruneCompletedLedgerParts queue completed order).2
        (pruneCompletedLedgerParts queue completed order).1 ∧
      (pruneCompletedLedgerParts queue completed order).1 ⊆ completed := by
  have whole : order.filter (· ∈ completed) = order := by
    apply filter_eq_self.mpr
    intro id among
    exact decide_eq_true ((enumerates.listed id).mp among)
  rw [pruneCompletedLedgerParts, whole]
  exact enumerates.pruneLoop 0

theorem insert {id : JobId} (enumerates : Enumerates order completed) (new : id ∉ completed) :
    Enumerates (order ++ [id]) (insert id completed) := by
  have absent : id ∉ order := fun among => new ((enumerates.listed id).mp among)
  refine ⟨nodup_append_comm.mp (nodup_cons.mpr ⟨absent, enumerates.nodup⟩),
    fun other => ?_⟩
  simp [enumerates.listed other, or_comm]

theorem erase {id : JobId} (enumerates : Enumerates order completed) :
    Enumerates (order.filter (· ≠ id)) (completed.erase id) := by
  refine ⟨enumerates.nodup.filter _, fun other => ?_⟩
  simp [enumerates.listed other, and_comm]

end Enumerates

end Pruning

structure Scheduler.LedgersSound (scheduler : Scheduler) : Prop where
  completedFailed : Disjoint scheduler.completed scheduler.failed
  completedCancelled : Disjoint scheduler.completed scheduler.cancelled
  failedCancelled : Disjoint scheduler.failed scheduler.cancelled
  completedOrder : Enumerates scheduler.completedOrder scheduler.completed
  failedOrder : Enumerates scheduler.failedOrder scheduler.failed

namespace Scheduler.LedgersSound

variable {scheduler : Scheduler} {id : JobId}

theorem newStartingAfter (id : JobId) : (Scheduler.newStartingAfter id).LedgersSound where
  completedFailed := Finset.disjoint_empty_left _
  completedCancelled := Finset.disjoint_empty_left _
  failedCancelled := Finset.disjoint_empty_left _
  completedOrder := ⟨nodup_nil, fun _ => by simp [Scheduler.newStartingAfter, Scheduler.new]⟩
  failedOrder := ⟨nodup_nil, fun _ => by simp [Scheduler.newStartingAfter, Scheduler.new]⟩

/-- The ledgers do not depend on the queue, nor does the law need every cancelled id. -/
theorem requeue (sound : scheduler.LedgersSound) (next : Nat) (queue : List Job)
    {cancelled : Finset JobId} (fewer : cancelled ⊆ scheduler.cancelled) :
    ({ scheduler with next, queue, cancelled } : Scheduler).LedgersSound where
  completedFailed := sound.completedFailed
  completedCancelled := sound.completedCancelled.mono_right fewer
  failedCancelled := sound.failedCancelled.mono_right fewer
  completedOrder := sound.completedOrder
  failedOrder := sound.failedOrder

theorem prune (sound : scheduler.LedgersSound) : scheduler.pruneCompletedLedger.LedgersSound := by
  have completed := sound.completedOrder.prune scheduler.queue
  have failed := sound.failedOrder.prune scheduler.queue
  exact {
    completedFailed := sound.completedFailed.mono completed.2 failed.2
    completedCancelled := sound.completedCancelled.mono_left completed.2
    failedCancelled := sound.failedCancelled.mono_left failed.2
    completedOrder := completed.1
    failedOrder := failed.1 }

theorem removeCompleted (sound : scheduler.LedgersSound) :
    (scheduler.removeCompleted id).LedgersSound where
  completedFailed := sound.completedFailed.mono_left (Finset.erase_subset _ _)
  completedCancelled := sound.completedCancelled.mono_left (Finset.erase_subset _ _)
  failedCancelled := sound.failedCancelled
  completedOrder := sound.completedOrder.erase
  failedOrder := sound.failedOrder

theorem removeFailed (sound : scheduler.LedgersSound) :
    (scheduler.removeFailed id).LedgersSound where
  completedFailed := sound.completedFailed.mono_right (Finset.erase_subset _ _)
  completedCancelled := sound.completedCancelled
  failedCancelled := sound.failedCancelled.mono_left (Finset.erase_subset _ _)
  completedOrder := sound.completedOrder
  failedOrder := sound.failedOrder.erase

theorem insertCompleted (sound : scheduler.LedgersSound) (notFailed : id ∉ scheduler.failed)
    (notCancelled : id ∉ scheduler.cancelled) : (scheduler.insertCompleted id).LedgersSound := by
  unfold Scheduler.insertCompleted
  split
  case isTrue old => exact sound
  case isFalse new =>
    exact {
      completedFailed := Finset.disjoint_insert_left.mpr ⟨notFailed, sound.completedFailed⟩
      completedCancelled := Finset.disjoint_insert_left.mpr ⟨notCancelled, sound.completedCancelled⟩
      failedCancelled := sound.failedCancelled
      completedOrder := sound.completedOrder.insert new
      failedOrder := sound.failedOrder }

theorem insertFailed (sound : scheduler.LedgersSound) (notCompleted : id ∉ scheduler.completed)
    (notCancelled : id ∉ scheduler.cancelled) : (scheduler.insertFailed id).LedgersSound := by
  unfold Scheduler.insertFailed
  split
  case isTrue old => exact sound
  case isFalse new =>
    exact {
      completedFailed := Finset.disjoint_insert_right.mpr ⟨notCompleted, sound.completedFailed⟩
      completedCancelled := sound.completedCancelled
      failedCancelled := Finset.disjoint_insert_left.mpr ⟨notCancelled, sound.failedCancelled⟩
      completedOrder := sound.completedOrder
      failedOrder := sound.failedOrder.insert new }

theorem insertCancelled (sound : scheduler.LedgersSound) (notCompleted : id ∉ scheduler.completed)
    (notFailed : id ∉ scheduler.failed) :
    ({ scheduler with cancelled := insert id scheduler.cancelled } : Scheduler).LedgersSound where
  completedFailed := sound.completedFailed
  completedCancelled := Finset.disjoint_insert_right.mpr ⟨notCompleted, sound.completedCancelled⟩
  failedCancelled := Finset.disjoint_insert_right.mpr ⟨notFailed, sound.failedCancelled⟩
  completedOrder := sound.completedOrder
  failedOrder := sound.failedOrder

theorem eraseCancelled (sound : scheduler.LedgersSound) :
    ({ scheduler with cancelled := scheduler.cancelled.erase id } : Scheduler).LedgersSound :=
  sound.requeue scheduler.next scheduler.queue (Finset.erase_subset _ _)

/-- An outcome of a worker report clears the other ledgers. -/
theorem applyOutcome (sound : scheduler.LedgersSound) (outcome : TaskOutcome) :
    (scheduler.applyOutcome outcome).LedgersSound := by
  unfold Scheduler.applyOutcome
  split
  · exact sound
  · apply sound.eraseCancelled.removeFailed.insertCompleted
    · simp [Scheduler.removeFailed]
    · simp [Scheduler.removeFailed]
  · apply sound.removeCompleted.removeFailed.insertCancelled
    · simp [Scheduler.removeFailed, Scheduler.removeCompleted]
    · simp [Scheduler.removeFailed, Scheduler.removeCompleted]
  · apply sound.eraseCancelled.removeCompleted.insertFailed
    · simp [Scheduler.removeCompleted]
    · simp [Scheduler.removeCompleted]

end Scheduler.LedgersSound

section Operations

variable {control : Control GfmError} {α : Type}

/-- The world that a program leaves, whether it returns or stops. -/
def World.after (world : World) (program : Checked GfmError World α) : World :=
  match program ⟨world, 0⟩ with
  | .ok _ finish => finish.state
  | .error _ finish => finish.state

inductive SchedulerOperation where
  | schedule (priority : Priority) (jobClass : JobClass) (payloadKind : Option JobPayloadKind)
      (label : String) (volume : Option VolumeId) (dependencies : List JobId)
  | cancel (id : JobId)
  | markCompleted (control : Control GfmError) (id : JobId)
  | applyWorkerReport (control : Control GfmError) (report : WorkerReport)
  | bindVolume (control : Control GfmError) (id : JobId) (volume : VolumeId)
  | cancelVolumeJobs (control : Control GfmError) (volume : VolumeId) (jobClass : Option JobClass)
      (payloadKinds : Option (List JobPayloadKind))
  | popNext
  | drainReady (control : Control GfmError)
  | drainFairReady (control : Control GfmError) (policy : JobFairnessPolicy)
      (completed : List JobId)

def World.perform (world : World) : SchedulerOperation → World
  | .schedule priority jobClass payloadKind label volume dependencies =>
      (world.scheduleWithOptions priority jobClass payloadKind label volume dependencies).2
  | .cancel id => world.cancel id
  | .markCompleted control id => world.after (markCompletedChecked control id)
  | .applyWorkerReport control report => world.after (applyWorkerReportChecked control report)
  | .bindVolume control id volume => world.after (bindVolumeChecked control id volume)
  | .cancelVolumeJobs control volume jobClass payloadKinds =>
      world.after (cancelVolumeJobsChecked control volume jobClass payloadKinds)
  | .popNext => (Jobs.popNext world).2
  | .drainReady control => world.after (drainReadyChecked control)
  | .drainFairReady control policy completed =>
      world.after (drainFairReadyChecked control policy completed)

def World.run (world : World) (operations : List SchedulerOperation) : World :=
  operations.foldl World.perform world

/-- The operation puts an id into one ledger and leaves it in another one. -/
def SchedulerOperation.Crosses (operation : SchedulerOperation) (world : World) : Prop :=
  match operation with
  | .cancel id => id ∈ world.scheduler.completed ∨ id ∈ world.scheduler.failed
  | .markCompleted control id => control 0 = none ∧ control 1 = none ∧ id ∈ world.scheduler.failed
  | _ => False

theorem removeCompleted_insertCompleted {scheduler : Scheduler} {id : JobId}
    (order : Enumerates scheduler.completedOrder scheduler.completed)
    (new : id ∉ scheduler.completed) :
    (scheduler.insertCompleted id).removeCompleted id = scheduler := by
  have absent : id ∉ scheduler.completedOrder := fun among => new ((order.listed id).mp among)
  have kept : scheduler.completedOrder.filter (fun other => ¬other = id) =
    scheduler.completedOrder := by
    apply filter_eq_self.mpr
    intro other among
    exact decide_eq_true fun same => absent (same ▸ among)
  simp only [Scheduler.insertCompleted, new, if_false, Scheduler.removeCompleted, ne_eq,
    Finset.erase_insert new, filter_append, kept]
  simp

theorem markCompleted_sound {world : World} {id : JobId} (sound : world.scheduler.LedgersSound)
    (apart : ¬(control 0 = none ∧ control 1 = none ∧ id ∈ world.scheduler.failed)) :
    (world.after (markCompletedChecked control id)).scheduler.LedgersSound := by
  rcases first : control 0 with _ | error
  · rcases second : control 1 with _ | error
    · have notFailed : id ∉ world.scheduler.failed := fun failed => apart ⟨first, second, failed⟩
      have run : (world.after (markCompletedChecked control id)).scheduler =
          (({ world.scheduler with cancelled := world.scheduler.cancelled.erase id } :
            Scheduler).insertCompleted id).pruneCompletedLedger := by
        simp [World.after, markCompletedChecked, bind, EStateM.bind, check, first, scheduler,
          modifyScheduler, tryCatchThe, MonadExceptOf.tryCatch, EStateM.tryCatch, second,
            Clocked.advance,
          tryCatch]
      rw [run]
      apply Scheduler.LedgersSound.prune
      apply sound.eraseCancelled.insertCompleted notFailed
      exact Finset.notMem_erase id _
    · by_cases done : id ∈ world.scheduler.completed
      · have run : (world.after (markCompletedChecked control id)).scheduler = world.scheduler := by
          have notCancelled := Finset.disjoint_left.mp sound.completedCancelled done
          simp [World.after, markCompletedChecked, bind, EStateM.bind, check, first, scheduler,
            modifyScheduler, EStateM.tryCatch, second, Clocked.advance, tryCatch, tryCatchThe,
            MonadExceptOf.tryCatch, done, notCancelled, Scheduler.insertCompleted]
          rfl
        rw [run]
        exact sound
      · let erased : Scheduler :=
          { world.scheduler with cancelled := world.scheduler.cancelled.erase id }
        have undone : (erased.insertCompleted id).removeCompleted id = erased :=
          removeCompleted_insertCompleted sound.completedOrder done
        by_cases dropped : id ∈ world.scheduler.cancelled
        · have run : (world.after (markCompletedChecked control id)).scheduler =
              { (erased.insertCompleted id).removeCompleted id with
                cancelled :=
                  insert id ((erased.insertCompleted id).removeCompleted id).cancelled } := by
            simp [World.after, markCompletedChecked, bind, EStateM.bind, check, first, scheduler,
              modifyScheduler, EStateM.tryCatch, second, Clocked.advance, tryCatch, tryCatchThe,
              MonadExceptOf.tryCatch, done, dropped]
            rfl
          rw [run, undone]
          simp only [erased, Finset.insert_erase dropped]
          exact sound
        · have run : (world.after (markCompletedChecked control id)).scheduler =
              (erased.insertCompleted id).removeCompleted id := by
            simp [World.after, markCompletedChecked, bind, EStateM.bind, check, first, scheduler,
              modifyScheduler, EStateM.tryCatch, second, Clocked.advance, tryCatch, tryCatchThe,
              MonadExceptOf.tryCatch, done, dropped, -Finset.erase_eq_of_notMem]
            rfl
          rw [run, undone]
          exact sound.eraseCancelled
  · have run : (world.after (markCompletedChecked control id)).scheduler = world.scheduler := by
      simp [World.after, markCompletedChecked, bind, EStateM.bind, check, first, Clocked.advance]
    rw [run]
    exact sound

theorem applyOutcomes_sound {σ : Type} {outcomes : List TaskOutcome} {seen : Finset JobId}
    {staged result : Scheduler} {start finish : Clocked σ} (sound : staged.LedgersSound)
    (run : applyOutcomesChecked control outcomes seen staged start = .ok result finish) :
    result.LedgersSound := by
  induction outcomes generalizing seen staged start with
  | nil =>
      cases run
      exact sound
  | cons outcome outcomes ih =>
      unfold applyOutcomesChecked at run
      simp only [bind, EStateM.bind, check] at run
      cases first : control start.checks with
      | some error => simp [first] at run
      | none =>
          simp only [first] at run
          split at run
          case isTrue started => exact ih sound run
          case isFalse _ =>
            split at run
            case isTrue repeated => cases run
            case isFalse _ =>
              simp only [EStateM.bind, check, Clocked.checks_advance] at run
              cases second : control (start.checks + 1) with
              | some error => simp [second] at run
              | none =>
                  simp only [second] at run
                  exact ih (sound.applyOutcome outcome) run

theorem applyOutcomes_state {σ : Type} (outcomes : List TaskOutcome) (seen : Finset JobId)
    (staged : Scheduler) (start : Clocked σ) :
    match applyOutcomesChecked control outcomes seen staged start with
    | .ok _ finish => finish.state = start.state
    | .error _ finish => finish.state = start.state := by
  induction outcomes generalizing seen staged start with
  | nil => rfl
  | cons outcome outcomes ih =>
      unfold applyOutcomesChecked
      simp only [bind, EStateM.bind, check]
      cases control start.checks with
      | some error => rfl
      | none =>
          by_cases started : outcome.status = .started
          · simp only [started, if_true]
            exact ih seen staged (start.advance 1)
          · by_cases repeated : outcome.id ∈ seen
            · simp only [started, repeated, if_true, if_false]
              rfl
            · simp only [started, repeated, if_false, EStateM.bind, check, Clocked.checks_advance]
              cases control (start.checks + 1) with
              | some error => rfl
              | none =>
                  exact ih (insert outcome.id seen) (staged.applyOutcome outcome)
                    ((start.advance 1).advance 1)

theorem applyWorkerReport_sound {world : World} (sound : world.scheduler.LedgersSound)
    (report : WorkerReport) :
    (world.after (applyWorkerReportChecked control report)).scheduler.LedgersSound := by
  simp only [World.after, applyWorkerReportChecked, bind, EStateM.bind, check, scheduler]
  cases control 0 with
  | some error => exact sound
  | none =>
      simp only [Clocked.state_advance]
      have same := @applyOutcomes_state control _ report.outcomes ∅ world.scheduler
        (Clocked.advance ⟨world, 0⟩ 1)
      cases run : applyOutcomesChecked control report.outcomes ∅ world.scheduler
          (Clocked.advance ⟨world, 0⟩ 1) with
      | error error finish =>
          simp only [run] at same
          simp only [same]
          exact sound
      | ok staged finish =>
          simp only [run] at same
          simp only
          cases control finish.checks with
          | some error =>
              simp only [Clocked.state_advance, same]
              exact sound
          | none =>
              simp only [modifyScheduler, pure, EStateM.pure, Clocked.state_advance, same]
              have pruned := (applyOutcomes_sound sound run).prune
              exact pruned.requeue world.scheduler.next world.scheduler.queue (Finset.Subset.refl _)

theorem checkEach_steady {σ : Type} (jobs : List Job) :
    Steady control (checkEach (σ := σ) control jobs) (2 * jobs.length) ⟨⟩ := by
  induction jobs with
  | nil => exact Steady.pure _
  | cons job jobs ih =>
      refine Steady.congr (Steady.check_bind (Steady.check_bind ih)) ?_ rfl
      simp only [length_cons]
      omega

theorem stageLoop_cancelled (ledger : Finset JobId) (jobs : List Job) (staged : StagedReadyDrain) :
    (stageLoop ledger jobs staged).cancelled ⊆ staged.cancelled := by
  induction jobs generalizing staged with
  | nil => exact Finset.Subset.refl _
  | cons job jobs ih =>
      unfold stageLoop
      split
      · exact ih staged
      · split
        · exact (ih _).trans (Finset.erase_subset job.id staged.cancelled)
        · exact ih { staged with ready := staged.ready ++ [job] }

theorem popLoop_sound (jobs : List Job) {world : World} (sound : world.scheduler.LedgersSound) :
    (popLoop jobs world).2.scheduler.LedgersSound := by
  induction jobs generalizing world with
  | nil => exact sound.requeue world.scheduler.next [] (Finset.Subset.refl _)
  | cons job jobs ih =>
      unfold popLoop
      split
      · exact ih sound.eraseCancelled
      · exact sound.requeue world.scheduler.next jobs (Finset.Subset.refl _)

/-- A change of the scheduler that waits for the checks of the whole queue. -/
theorem queueChecks_sound {world : World} {rest : Scheduler → Checked GfmError World α}
    (sound : world.scheduler.LedgersSound)
    (changed : ∀ checks, ∃ value after, rest world.scheduler ⟨world, checks⟩ =
      .ok value after ∧ after.state.scheduler.LedgersSound) :
    (world.after (do
      check control
      let before ← scheduler
      checkEach control before.queue
      check control
      rest before)).scheduler.LedgersSound := by
  simp only [World.after, bind, EStateM.bind, check, scheduler]
  cases control 0 with
  | some error => exact sound
  | none =>
      simp only [checkEach_steady world.scheduler.queue (Clocked.advance ⟨world, 0⟩ 1),
        checksResult, Clocked.state_advance]
      cases firstInterrupt control (Clocked.advance ⟨world, 0⟩ 1).checks _ with
      | some found => exact sound
      | none =>
          simp only
          cases control (((Clocked.advance ⟨world, 0⟩ 1).advance _).checks) with
          | some error => exact sound
          | none =>
              rcases changed (0 + 1 + 2 * world.scheduler.queue.length + 1) with
                ⟨value, after, run, kept⟩
              simp only [Clocked.advance, run]
              exact kept

theorem bindVolume_sound {world : World} (sound : world.scheduler.LedgersSound) (id : JobId)
    (volume : VolumeId) :
    (world.after (bindVolumeChecked control id volume)).scheduler.LedgersSound := by
  refine queueChecks_sound sound fun _ => ?_
  exact ⟨_, _, rfl, sound.requeue world.scheduler.next _ (Finset.Subset.refl _)⟩

theorem cancelVolumeJobs_sound {world : World} (sound : world.scheduler.LedgersSound)
    (volume : VolumeId) (jobClass : Option JobClass)
    (payloadKinds : Option (List JobPayloadKind)) :
    (world.after
      (cancelVolumeJobsChecked control volume jobClass payloadKinds)).scheduler.LedgersSound := by
  refine queueChecks_sound sound fun _ => ?_
  exact ⟨_, _, rfl, sound.requeue world.scheduler.next _ Finset.sdiff_subset⟩

theorem drainReady_sound {world : World} (sound : world.scheduler.LedgersSound) :
    (world.after (drainReadyChecked control)).scheduler.LedgersSound := by
  simp only [World.after, drainReadyChecked, bind, EStateM.bind, check, scheduler,
    stageReadyDrainChecked_steady world.scheduler ⟨world, 0⟩, checksResult]
  cases firstInterrupt control 0 _ with
  | some found => exact sound
  | none =>
      simp only
      cases control ((Clocked.advance ⟨world, 0⟩ _).checks) with
      | some error => exact sound
      | none =>
          apply sound.requeue world.scheduler.next []
          exact stageLoop_cancelled world.scheduler.completed _ _

/-- Where the ledgers are disjoint, the commit of a fair drain drops nothing from them. -/
theorem committed_sound {scheduler : Scheduler} (sound : scheduler.LedgersSound) :
    (committed scheduler).LedgersSound := by
  have fewer : (stageReadyDrain scheduler).cancelled ⊆ scheduler.cancelled :=
    stageLoop_cancelled scheduler.completed _ _
  have completed : scheduler.completed.filter (· ∉ (stageReadyDrain scheduler).cancelled) =
    scheduler.completed :=
    Finset.filter_true_of_mem fun id done dropped =>
      Finset.disjoint_left.mp sound.completedCancelled done (fewer dropped)
  have failed : scheduler.failed.filter (· ∉ (stageReadyDrain scheduler).cancelled) =
    scheduler.failed :=
    Finset.filter_true_of_mem fun id done dropped =>
      Finset.disjoint_left.mp sound.failedCancelled done (fewer dropped)
  simp only [committed, completed, failed]
  exact sound.requeue scheduler.next [] fewer

theorem drainFairReady_sound {world : World} (sound : world.scheduler.LedgersSound)
    (policy : JobFairnessPolicy) (completed : List JobId) :
    (world.after (drainFairReadyChecked control policy completed)).scheduler.LedgersSound := by
  have enqueued : ∀ jobs, (world.commit.enqueue jobs).scheduler.LedgersSound := fun jobs =>
    (committed_sound sound).requeue _ _ (Finset.Subset.refl _)
  simp only [World.after, drainFairReadyChecked_eq, requeueChecked_eq]
  cases firstInterrupt control 0 (commitChecks policy completed world.scheduler) with
  | some found => exact sound
  | none =>
      simp only
      cases firstInterrupt control _ (requeued policy completed world.scheduler).length with
      | some found => exact enqueued _
      | none => exact (enqueued _).prune

theorem perform_sound {world : World} (sound : world.scheduler.LedgersSound)
    {operation : SchedulerOperation} (apart : ¬operation.Crosses world) :
    (world.perform operation).scheduler.LedgersSound := by
  cases operation with
  | schedule priority jobClass payloadKind label volume dependencies =>
      exact sound.requeue _ _ (Finset.Subset.refl _)
  | cancel id =>
      have outside := not_or.mp apart
      exact sound.insertCancelled outside.1 outside.2
  | markCompleted control id => exact markCompleted_sound sound apart
  | applyWorkerReport control report => exact applyWorkerReport_sound sound report
  | bindVolume control id volume => exact bindVolume_sound sound id volume
  | cancelVolumeJobs control volume jobClass payloadKinds =>
      exact cancelVolumeJobs_sound sound volume jobClass payloadKinds
  | popNext => exact popLoop_sound _ sound
  | drainReady control => exact drainReady_sound sound
  | drainFairReady control policy completed => exact drainFairReady_sound sound policy completed

/-- No operation of the run puts an id into one ledger that it leaves in another one. -/
def World.RunsApart : World → List SchedulerOperation → Prop
  | _, [] => True
  | world, operation :: operations =>
      ¬operation.Crosses world ∧ (world.perform operation).RunsApart operations

/-- In a run whose operations cross no ledgers, the ledgers are sound in every state reached. -/
theorem ledgers_sound (first : JobId) (operations : List SchedulerOperation)
    (apart : (World.newStartingAfter first).RunsApart operations) :
    ∀ done, done <+: operations →
      ((World.newStartingAfter first).run done).scheduler.LedgersSound := by
  have general : ∀ world : World, world.scheduler.LedgersSound → world.RunsApart operations →
      ∀ done, done <+: operations → (world.run done).scheduler.LedgersSound := by
    clear apart
    induction operations with
    | nil =>
        intro world sound _ done reached
        rw [prefix_nil.mp reached]
        exact sound
    | cons operation operations ih =>
        rintro world sound ⟨apart, later⟩ done reached
        cases done with
        | nil => exact sound
        | cons head done =>
            rcases cons_prefix_cons.mp reached with ⟨rfl, shorter⟩
            exact ih (world.perform head) (perform_sound sound apart) later done shorter
  exact general _ (Scheduler.LedgersSound.newStartingAfter first) apart

/-- A job that a report lists as failed. -/
def failedReport : WorkerReport := ⟨[⟨⟨1⟩, "thumbnails", .failed "busy"⟩]⟩

def calm : Control GfmError := fun _ => none

theorem ledgers_sound_failed :
    ((World.newStartingAfter ⟨0⟩).run
      [.cancel ⟨1⟩, .applyWorkerReport calm failedReport]).scheduler.LedgersSound :=
  ledgers_sound ⟨0⟩ [.cancel ⟨1⟩, .applyWorkerReport calm failedReport]
    ⟨by simp [SchedulerOperation.Crosses, World.newStartingAfter, Scheduler.newStartingAfter,
      Scheduler.new], fun crosses => crosses, trivial⟩ _ (prefix_refl _)

theorem pruneLoop_short (referenced completed : Finset JobId) {order : List JobId} (rotated : Nat)
    (short : order.length < 4096) :
    pruneLoop referenced completed order rotated = (completed, order) := by
  cases order with
  | nil => rw [pruneLoop]
  | cons id rest =>
      rw [pruneLoop, if_neg]
      intro long
      have retained : completedDependencyRetention = 4096 := rfl
      omega

/-- A failed job that is then marked completed is in both ledgers. -/
theorem ledgers_crossed :
    ¬((World.newStartingAfter ⟨0⟩).run
      [.applyWorkerReport calm failedReport, .markCompleted calm ⟨1⟩]).scheduler.LedgersSound := by
  intro sound
  have apart := Finset.disjoint_left.mp sound.completedFailed
  simp [World.run, World.perform, World.after, applyWorkerReportChecked, applyOutcomesChecked,
    markCompletedChecked, bind, EStateM.bind, check, calm, scheduler, modifyScheduler, pure,
    EStateM.pure, failedReport, Scheduler.applyOutcome, Scheduler.removeCompleted,
    Scheduler.insertFailed, Scheduler.insertCompleted, Scheduler.pruneCompletedLedger,
    pruneCompletedLedgerParts, pruneLoop_short, World.newStartingAfter,
    Scheduler.newStartingAfter, Scheduler.new, tryCatch, tryCatchThe, MonadExceptOf.tryCatch,
    EStateM.tryCatch, Clocked.advance] at apart

end Operations

end Gfm.Jobs

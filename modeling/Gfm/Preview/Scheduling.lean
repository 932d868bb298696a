import Gfm.Preview.Reconciling

/-!
# Calls of the preview scheduler

What a whole call does to the tasks in flight and to the tokens, and what holds of the scheduler
after any calls: its tasks are within the limits of its policy, a call cancels the tokens of the
tasks that it removed and no others, and a call that fails leaves everything as it was.
-/

namespace Gfm.Preview

open List Programs

section Admission

variable {before world : Shared} {prior : List PreviewTaskDecision} {staged : Staged}
  {item : ScheduledTask}

/-- A copy that goes on from another: in its staging, under the same policies. -/
structure Going (before : Shared) (prior : List PreviewTaskDecision) (start : PreviewScheduler)
    (staged : Staged) (world : Shared) : Prop where
  staging : Staging before (prior ++ staged.decisions) staged.scheduler.inflight world
  policy : staged.scheduler.policy = start.policy
  basePolicy : staged.scheduler.basePolicy = start.basePolicy

variable {start : PreviewScheduler}

theorem Removing.going {done : List PreviewRequestKey}
    (removing : Removing before prior start done staged world) :
    Going before prior start staged world :=
  ⟨removing.staging, removing.policy, removing.basePolicy⟩

theorem achieves_makeToken {β : Type} {rest : Cancellation → Call β}
    {Finally : β → Shared → Prop}
    (next : Achieves before (rest world.tokens.length) Finally
      { world with tokens := world.tokens ++ [false] }) :
    Achieves before (makeToken >>= rest) Finally world := next

theorem not_removed_scheduled (item : ScheduledTask) (key : PreviewRequestKey) :
    ¬Removed key [.scheduled item.task.key item.priority] := by
  rintro ⟨reason, listed⟩
  cases mem_singleton.mp listed

theorem not_removed_coalesced (item : ScheduledTask) (key : PreviewRequestKey) :
    ¬Removed key [.coalesced item.task.key item.priority] := by
  rintro ⟨reason, listed⟩
  cases mem_singleton.mp listed

/-- A wanted task goes in flight, or the one in flight is kept or replaced. -/
theorem achieves_admit (own : OwnTokens before) (going : Going before prior start staged world)
    (item : ScheduledTask) :
    Achieves before (admitTaskChecked false staged item) (Going before prior start) world := by
  have staging := going.staging
  refine achieves_check staging.untouched ?_
  cases found : staged.scheduler.inflight.lookup item.task.key with
  | none =>
      have inserted : Staging before (prior ++ staged.decisions)
          (staged.scheduler.insertTask item world.tokens.length).inflight
          { world with tokens := world.tokens ++ [false] } := staging.insertNew own found rfl
      refine achieves_makeToken (achieves_check inserted.untouched (achieves_pure ?_))
      refine ⟨?_, going.policy, going.basePolicy⟩
      rw [← append_assoc]
      exact inserted.tell (not_removed_scheduled item)
  | some inflight =>
      by_cases superseded : inflight.generation ≠ item.task.generation
      · simp only [if_pos superseded, removeInflight_false]
        have removed := staging.remove item.task.key "superseded-generation"
        have inserted : Staging before
            (prior ++ staged.decisions ++ [.cancelled item.task.key "superseded-generation"])
            (PreviewScheduler.insertTask { staged.scheduler with
              inflight := staged.scheduler.inflight.erase item.task.key } item
                world.tokens.length).inflight
            { world with tokens := world.tokens ++ [false] } :=
          removed.insertNew own (AList.lookup_erase _ _) rfl
        refine achieves_makeToken (achieves_pure ?_)
        refine ⟨?_, going.policy, going.basePolicy⟩
        have told := inserted.tell (not_removed_scheduled item)
        rw [append_assoc, append_assoc] at told
        exact told
      · simp only [if_neg superseded]
        refine achieves_check staging.untouched (achieves_pure ?_)
        refine ⟨?_, going.policy, going.basePolicy⟩
        rw [← append_assoc]
        exact (staging.rank found item.priority).tell (not_removed_coalesced item)

theorem achieves_cancelOffscreen (desiredKeys : Finset PreviewRequestKey)
    (going : Going before prior start staged world) :
    Achieves before (cancelOffscreenChecked desiredKeys false staged) (Going before prior start)
      world := by
  rw [cancelOffscreenChecked]
  split
  case isFalse => exact achieves_pure going
  refine achieves_iterate fun ordered _ => ?_
  refine (Meets.foldlM (Removing before prior staged.scheduler) ?_
    (Removing.init going.staging)).mono (fun next after removing => ?_) fun _ _ refused => refused
  · intro done key rest staged later _ removing
    refine achieves_check removing.staging.untouched ?_
    rw [removeInflight_false]
    exact achieves_check removing.staging.untouched
      (achieves_pure (removing.next key "offscreen-or-superseded"))
  · exact ⟨removing.staging, removing.policy.trans going.policy,
      removing.basePolicy.trans going.basePolicy⟩

end Admission

section Desired

variable {before world : Shared}

/-- The ranking of the tasks that are wanted only asks the control. -/
theorem achieves_desiredTasks (untouched : Untouched before world)
    (policy : PreviewSchedulingPolicy) (viewport : Viewport) (tasks : List PreviewTask) :
    Achieves before (desiredTasks policy viewport tasks) (fun _ after => after = world) world := by
  have anything {Item State : Type} (items : List Item) (body : State → Item → Call State)
      (start : State)
      (round : ∀ state item, Achieves before (body state item) (fun _ after => after = world)
        world) :
      Achieves before (items.foldlM body start) (fun _ after => after = world) world := by
    refine (achieves_loop (fun _ _ => True) (fun _ item state _ => ?_) trivial).mono
      (fun _ _ done => done.1) fun _ _ refused => refused
    exact (round state item).mono (fun _ _ same => ⟨same, trivial⟩) fun _ _ refused => refused
  refine (anything _ _ _ fun desired task => ?_).bind ?_
  · exact achieves_check untouched (achieves_check untouched (achieves_pure rfl))
  rintro desired after rfl
  have coalesced : Achieves before (coalesceDesiredTasksChecked desired)
      (fun _ later => later = after) after := by
    refine (anything _ _ _ fun byKey task => ?_).bind ?_
    · exact achieves_check untouched (achieves_check untouched (achieves_pure rfl))
    rintro byKey later rfl
    refine achieves_iterate fun ordered _ => anything _ _ _ fun desired entry => ?_
    exact achieves_check untouched (achieves_pure rfl)
  refine coalesced.bind ?_
  rintro ranked later rfl
  refine achieves_check untouched (achieves_check untouched ?_)
  refine (anything _ _ _ fun state item => ?_).bind ?_
  · exact achieves_check untouched (achieves_check untouched (achieves_pure rfl))
  rintro result final rfl
  exact achieves_pure rfl

theorem achieves_desiredKeys (untouched : Untouched before world) (desired : List ScheduledTask) :
    Achieves before (desiredKeysChecked desired) (fun _ after => after = world) world := by
  refine (achieves_loop (fun _ _ => True) (fun _ item keys _ => ?_) trivial).mono
    (fun _ _ done => done.1) fun _ _ refused => refused
  exact achieves_check untouched (achieves_pure ⟨rfl, trivial⟩)

end Desired

section Mutating

variable {before world : Shared} {prior : List PreviewTaskDecision} {scheduler : PreviewScheduler}

/-- A copy at the end of a call: in its staging, and within its limits. -/
structure Finished (before : Shared) (prior : List PreviewTaskDecision) (staged : Staged)
    (world : Shared) : Prop where
  staging : Staging before (prior ++ staged.decisions) staged.scheduler.inflight world
  limits : WithinLimits staged.scheduler.policy staged.scheduler.inflight

theorem achieves_scheduleMutating (own : OwnTokens before) (viewport : Viewport)
    (tasks : List PreviewTask) (staging : Staging before prior scheduler.inflight world) :
    Achieves before (scheduleMutatingChecked viewport tasks false scheduler)
      (Finished before prior) world := by
  refine achieves_check staging.untouched ?_
  refine (achieves_prune "cancelled-token" staging).bind ?_
  rintro pruned after ⟨done, removing⟩
  have untouched := removing.staging.untouched
  refine achieves_check untouched ?_
  refine (achieves_desiredTasks untouched _ viewport tasks).bind ?_
  rintro desired later rfl
  refine (achieves_desiredKeys untouched desired).bind ?_
  rintro desiredKeys later rfl
  refine achieves_check untouched ?_
  refine (achieves_cancelOffscreen desiredKeys removing.going).bind fun staged after going => ?_
  have admitted : Achieves before (desired.foldlM (admitTaskChecked false) staged)
      (Going before prior scheduler) after := by
    refine Meets.foldlM (fun _ => Going before prior scheduler) ?_ going
    intro _ item _ staged later _ going
    exact achieves_admit own going item
  refine admitted.bind fun staged after going => ?_
  refine (achieves_reconcile staged.scheduler.policy "capacity-limit" desiredKeys
    going.staging).bind ?_
  rintro reconciled later ⟨⟨done, removing⟩, limits⟩
  refine achieves_check removing.staging.untouched (achieves_pure ⟨?_, ?_⟩)
  · rw [← append_assoc]
    exact removing.staging
  · rw [removing.policy]
    exact limits

theorem achieves_adaptMutating (pressure : SchedulingPressure)
    (staging : Staging before prior scheduler.inflight world) :
    Achieves before (adaptToPressureMutatingChecked pressure false scheduler)
      (Finished before prior) world := by
  refine achieves_check staging.untouched ?_
  refine (achieves_prune "cancelled-token" staging).bind ?_
  rintro pruned after ⟨done, removing⟩
  refine achieves_check removing.staging.untouched ?_
  refine (achieves_reconcile _ "pressure-admission" ∅ removing.staging).bind ?_
  rintro reconciled later ⟨⟨others, removing⟩, limits⟩
  refine achieves_check removing.staging.untouched (achieves_pure ⟨?_, limits⟩)
  rw [← append_assoc]
  exact removing.staging

end Mutating

section Commit

variable {before world : Shared} {Stopped : Option GfmError → Shared → Prop}

theorem isCancelled_set (tokens : List Bool) (scheduler : PreviewScheduler)
    (token other : Cancellation) (made : token < tokens.length) :
    Shared.isCancelled ⟨scheduler, tokens.set token true⟩ other = true ↔
      Shared.isCancelled ⟨scheduler, tokens⟩ other = true ∨ token = other := by
  simp only [Shared.isCancelled, getD_eq_getElem?_getD, getElem?_set]
  by_cases same : token = other
  · subst same
    simp [made]
  · simp [same]

/-- The tokens of the removed tasks of before are cancelled, and no others. -/
theorem meets_cancelRemoved (own : OwnTokens before) (decisions : List PreviewTaskDecision)
    (older : before.tokens.length ≤ world.tokens.length) :
    Meets (fun _ => True)
      (cancelRemovedOriginalTokens before.scheduler.inflight decisions)
      (fun _ after => after.scheduler = world.scheduler ∧
        after.tokens.length = world.tokens.length ∧
        ∀ token, after.isCancelled token = true ↔ world.isCancelled token = true ∨
          ∃ key old, Removed key decisions ∧ before.scheduler.inflight.lookup key = some old ∧
            old.cancellation = token) Stopped world := by
  refine Meets.foldlM (fun done _ (after : Shared) => after.scheduler = world.scheduler ∧
    after.tokens.length = world.tokens.length ∧
    ∀ token, after.isCancelled token = true ↔ world.isCancelled token = true ∨
      ∃ key old, Removed key done ∧ before.scheduler.inflight.lookup key = some old ∧
        old.cancellation = token) ?_ ⟨rfl, rfl, fun token => ?_⟩
  · rintro done decision rest - after - ⟨scheduler, length, cancelled⟩
    have silent (keeps : ∀ key old, Removed key [decision] →
        before.scheduler.inflight.lookup key ≠ some old) (token : Cancellation) :
        after.isCancelled token = true ↔ world.isCancelled token = true ∨
          ∃ key old, Removed key (done ++ [decision]) ∧
            before.scheduler.inflight.lookup key = some old ∧ old.cancellation = token := by
      rw [cancelled token]
      refine or_congr_right (exists_congr fun key => exists_congr fun old => ?_)
      rw [removed_append]
      constructor
      · exact fun found => ⟨Or.inl found.1, found.2⟩
      · exact fun found => ⟨found.1.resolve_right fun last => keeps key old last found.2.1, found.2⟩
    cases decision with
    | scheduled key priority =>
        refine ⟨scheduler, length, silent ?_⟩
        rintro other old ⟨reason, listed⟩
        cases mem_singleton.mp listed
    | coalesced key priority =>
        refine ⟨scheduler, length, silent ?_⟩
        rintro other old ⟨reason, listed⟩
        cases mem_singleton.mp listed
    | cancelled key reason =>
        have last : ∀ other, Removed other [.cancelled key reason] ↔ other = key := by
          intro other
          constructor
          · rintro ⟨told, listed⟩
            exact (PreviewTaskDecision.cancelled.inj (mem_singleton.mp listed)).1
          · rintro rfl
            exact ⟨reason, mem_singleton_self _⟩
        cases found : before.scheduler.inflight.lookup key with
        | none =>
            simp only [found]
            refine ⟨scheduler, length, silent fun other old told => ?_⟩
            rw [(last other).mp told, found]
            exact Option.some_ne_none old ∘ Eq.symm
        | some task =>
            simp only [found]
            have made := Nat.lt_of_lt_of_le (own.made key task found) older
            refine ⟨scheduler, ?_, fun token => ?_⟩
            · rw [length_set]
              exact length
            · refine (isCancelled_set after.tokens after.scheduler task.cancellation token
                (by rw [length]; exact made)).trans ?_
              rw [cancelled token, or_assoc]
              refine or_congr_right ?_
              constructor
              · rintro (⟨other, old, removed, place, same⟩ | same)
                · exact ⟨other, old, removed_append.mpr (Or.inl removed), place, same⟩
                · exact ⟨key, task, removed_append.mpr (Or.inr ((last key).mpr rfl)), found, same⟩
              · rintro ⟨other, old, removed, place, same⟩
                rcases removed_append.mp removed with earlier | told
                · exact Or.inl ⟨other, old, earlier, place, same⟩
                · rw [(last other).mp told, found] at place
                  cases place
                  exact Or.inr same
  · refine (or_iff_left ?_).symm
    rintro ⟨key, old, ⟨reason, listed⟩, -⟩
    exact not_mem_nil listed

/-- What a call that succeeds leaves: its tasks are within the limits, the token of each task that
it removed is cancelled, and the token of each task in flight is cancelled only if it was. -/
structure Scheduled (before : Shared) (decisions : List PreviewTaskDecision) (after : Shared) :
    Prop where
  limits : WithinLimits after.scheduler.policy after.scheduler.inflight
  removed : ∀ key task, before.scheduler.inflight.lookup key = some task →
    (∀ other, after.scheduler.inflight.lookup key = some other →
      other.cancellation ≠ task.cancellation) → after.isCancelled task.cancellation = true
  told : ∀ key task, before.scheduler.inflight.lookup key = some task → Removed key decisions →
    after.isCancelled task.cancellation = true
  kept : ∀ key task, after.scheduler.inflight.lookup key = some task →
    after.isCancelled task.cancellation = before.isCancelled task.cancellation

/-- What a call that fails leaves: everything that others can see is as it was. -/
structure Unchanged (before after : Shared) : Prop where
  scheduler : after.scheduler = before.scheduler
  tokens : ∀ token, after.isCancelled token = before.isCancelled token

theorem meets_commit (own : OwnTokens before) {mutate : PreviewScheduler → Call Staged}
    (achieves : Achieves before (mutate before.scheduler) (Finished before []) before) :
    Meets (fun _ => True) (commitStaged mutate)
      (fun decisions after => Scheduled before decisions after ∧ OwnTokens after) (Refused before)
      before := by
  refine achieves_observe ?_
  refine achieves.bind fun staged world finished => ?_
  have staging := finished.staging
  rw [nil_append] at staging
  refine achieves_check staging.untouched ?_
  refine Achieves.bind (meets_cancelRemoved own staged.decisions staging.untouched.length_le) ?_
  rintro - after ⟨-, length, cancelled⟩
  refine ⟨⟨finished.limits, fun key task found gone => ?_, fun key task found told => ?_,
    fun key task found => ?_⟩, ?_⟩
  · refine (cancelled task.cancellation).mpr (Or.inr ?_)
    rcases staging.fate key task found with removed | ⟨other, place, same⟩
    · exact ⟨key, task, removed, found, rfl⟩
    · exact absurd same (gone other place)
  · exact (cancelled task.cancellation).mpr (Or.inr ⟨key, task, told, found, rfl⟩)
  · rw [← staging.untouched.isCancelled, Bool.eq_iff_iff]
    refine (cancelled task.cancellation).trans (or_iff_left ?_)
    rintro ⟨other, old, removed, place, same⟩
    rcases staging.origin key task found with new | ⟨keeps, first, firstPlace, firstSame⟩
    · have made := own.made other old place
      rw [same] at made
      exact absurd made (Nat.not_lt.mpr new.1)
    · have equal := own.distinct key first other old firstPlace place (firstSame.trans same.symm)
      rw [equal] at keeps
      exact keeps removed
  · refine ⟨fun key task found => ?_, staging.distinct⟩
    have made := staging.made own found
    rwa [← length] at made

end Commit

section Runs

/-- The calls that can fail. -/
inductive SchedulerCall where
  | schedule (viewport : Viewport) (tasks : List PreviewTask)
  | adaptToPressure (pressure : SchedulingPressure)
  | scheduleWithPressure (pressure : SchedulingPressure) (viewport : Viewport)
      (tasks : List PreviewTask)

def SchedulerCall.perform : SchedulerCall → Call (List PreviewTaskDecision)
  | schedule viewport tasks => scheduleChecked viewport tasks
  | adaptToPressure pressure => adaptToPressureChecked pressure
  | scheduleWithPressure pressure viewport tasks =>
      scheduleWithPressureChecked pressure viewport tasks

/-- What calls on a new scheduler lead to, while tokens are made and cancelled by others. -/
inductive Reached (policy : PreviewSchedulingPolicy) : Shared → Prop where
  | new {scheduler : PreviewScheduler} (made : PreviewScheduler.new policy = .ok scheduler)
      (tokens : List Bool) : Reached policy ⟨scheduler, tokens⟩
  | call {world : Shared} (reached : Reached policy world) (call : SchedulerCall)
      (script : List Choice) : Reached policy (call.perform.run script world).2
  | finish {world : Shared} (reached : Reached policy world) (key : PreviewRequestKey) :
      Reached policy ((finish key).run [] world).2
  | cancel {world : Shared} (reached : Reached policy world) (token : Cancellation) :
      Reached policy ((cancel token).run [] world).2
  | makeToken {world : Shared} (reached : Reached policy world) :
      Reached policy (makeToken.run [] world).2

/-- What holds between any two calls. -/
structure Steady (world : Shared) : Prop where
  limits : WithinLimits world.scheduler.policy world.scheduler.inflight
  own : OwnTokens world

variable {policy : PreviewSchedulingPolicy} {world : Shared}

theorem meets_perform (steady : Steady world) (call : SchedulerCall) :
    Meets (fun _ => True) call.perform
      (fun decisions after => Scheduled world decisions after ∧ OwnTokens after) (Refused world)
      world := by
  have start : Staging world [] world.scheduler.inflight world := .start steady.own
  cases call with
  | schedule viewport tasks =>
      exact meets_commit steady.own (achieves_scheduleMutating steady.own viewport tasks start)
  | adaptToPressure pressure =>
      exact meets_commit steady.own (achieves_adaptMutating pressure start)
  | scheduleWithPressure pressure viewport tasks =>
      rw [SchedulerCall.perform, scheduleWithPressureChecked]
      refine meets_commit steady.own ?_
      refine (achieves_adaptMutating pressure start).bind fun adapted after finished => ?_
      refine achieves_check finished.staging.untouched ?_
      refine (achieves_scheduleMutating steady.own viewport tasks finished.staging).bind ?_
      intro staged later done
      refine achieves_pure ⟨?_, done.limits⟩
      have staging := done.staging
      rwa [append_assoc] at staging

/-- What the run of a call leaves, by how it ends. -/
theorem run_perform (steady : Steady world) (call : SchedulerCall) (script : List Choice) :
    match call.perform.run script world with
    | (.value decisions, after) => Scheduled world decisions after ∧ OwnTokens after
    | (.failed _, after) => Unchanged world after ∧ OwnTokens after
    | (.died, _) => False := by
  have ended := (meets_perform steady call).run trivial script fun _ _ => trivial
  revert ended
  rcases call.perform.run script world with ⟨decisions | error | -, after⟩
  · exact id
  · rintro ⟨-, untouched⟩
    refine ⟨⟨untouched.scheduler, untouched.isCancelled⟩, ?_, ?_⟩
    · intro key task found
      rw [untouched.scheduler] at found
      exact Nat.lt_of_lt_of_le (steady.own.made key task found) untouched.length_le
    · rw [untouched.scheduler]
      exact steady.own.distinct
  · exact fun absurd => Bool.false_ne_true absurd.1

theorem Steady.erase (steady : Steady world) (key : PreviewRequestKey) :
    Steady { world with scheduler := { world.scheduler with
      inflight := world.scheduler.inflight.erase key } } := by
  refine ⟨steady.limits.fewer entries_erase_sublist, fun other task found => ?_,
    fun first one second two firstFound secondFound => ?_⟩
  · exact steady.own.made other task (lookup_erase_eq_some.mp found).2
  · exact steady.own.distinct first one second two (lookup_erase_eq_some.mp firstFound).2
      (lookup_erase_eq_some.mp secondFound).2

theorem Steady.tokens (steady : Steady world) {tokens : List Bool}
    (more : world.tokens.length ≤ tokens.length) : Steady { world with tokens } :=
  ⟨steady.limits, fun key task found => Nat.lt_of_lt_of_le (steady.own.made key task found) more,
    steady.own.distinct⟩

theorem Reached.steady (reached : Reached policy world) : Steady world := by
  induction reached with
  | @new scheduler made tokens =>
      rw [PreviewScheduler.new] at made
      split at made
      case isTrue => cases made
      case isFalse =>
        cases made
        refine ⟨fun priority => Nat.zero_le _, fun key task found => ?_,
          fun key task _ _ found => ?_⟩ <;> cases found
  | @call world reached call script ih =>
      have ended := run_perform ih call script
      revert ended
      rcases call.perform.run script world with ⟨decisions | error | -, after⟩
      · exact fun ended => ⟨ended.1.limits, ended.2⟩
      · intro ended
        refine ⟨?_, ended.2⟩
        rw [ended.1.scheduler]
        exact ih.limits
      · exact fun absurd => absurd.elim
  | finish reached key ih => exact ih.erase key
  | cancel reached token ih => exact ih.tokens (Nat.le_of_eq length_set.symm)
  | makeToken reached ih =>
      refine ih.tokens ?_
      rw [length_append]
      exact Nat.le_add_right _ _

/-- After any calls the tasks in flight are within the limits of the policy. The next call cancels
the tokens of the tasks that it removes and of no task that it keeps, or it fails and leaves the
scheduler and all tokens as they were. -/
theorem previewScheduler_sound (reached : Reached policy world) (call : SchedulerCall)
    (script : List Choice) :
    WithinLimits world.scheduler.policy world.scheduler.inflight ∧
      match call.perform.run script world with
      | (.value decisions, after) => Scheduled world decisions after
      | (.failed _, after) => Unchanged world after
      | (.died, _) => False := by
  have steady := reached.steady
  refine ⟨steady.limits, ?_⟩
  have ended := run_perform steady call script
  revert ended
  rcases call.perform.run script world with ⟨decisions | error | -, after⟩
  · exact And.left
  · exact And.left
  · exact id

/-- The icon of a file, drawn in the first row. -/
def iconTask (node : Nat) (x : Int) : PreviewTask where
  key := ⟨⟨⟨1⟩, node⟩, ["photos"], .icon, 64, 1000, 0⟩
  rect := ⟨x, 0, 10, 10⟩
  generation := 1

/-- A scheduler with room for two visible previews, with two in flight. -/
def twoInflight : Shared :=
  ((SchedulerCall.schedule ⟨⟨0, 0, 100, 100⟩, 50⟩ [iconTask 1 0, iconTask 2 20]).perform.run []
    ⟨⟨⟨2, 0, true⟩, ⟨2, 0, true⟩, ∅, 0⟩, []⟩).2

def scrolled : SchedulerCall :=
  .schedule ⟨⟨0, 0, 100, 100⟩, 50⟩ [iconTask 2 20, iconTask 3 40]

/-- The next call removes the first task, keeps the second and adds a third. -/
theorem previewScheduler_sound_scrolled :
    (twoInflight.scheduler.inflight.keys.map fun key => key.fileId.node) = [2, 1] ∧
      ((scrolled.perform.run [] twoInflight).2.scheduler.inflight.keys.map
        fun key => key.fileId.node) = [3, 2] ∧
      (scrolled.perform.run [] twoInflight).2.tokens = [true, false, false] ∧
      WithinLimits twoInflight.scheduler.policy twoInflight.scheduler.inflight ∧
        match scrolled.perform.run [] twoInflight with
        | (.value decisions, after) => Scheduled twoInflight decisions after
        | (.failed _, after) => Unchanged twoInflight after
        | (.died, _) => False :=
  ⟨by decide +kernel, by decide +kernel, by decide +kernel,
    previewScheduler_sound (.call (@Reached.new ⟨2, 0, true⟩ _ rfl []) _ []) scrolled []⟩

end Runs

end Gfm.Preview

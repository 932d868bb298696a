import Gfm.Preview.Staging

/-!
# Limits on what is in flight

The loops of a call, on a copy that no loop cancels tokens of: removals keep the copy in its
staging, and after a reconciliation no more tasks of a priority are in flight than the policy
allows.
-/

namespace Gfm.Preview

open List Programs

/-- Every run of the call on a copy ends in `Done`, or fails with everything as it was before. -/
abbrev Achieves {α : Type} (before : Shared) (call : Call α) (Done : α → Shared → Prop)
    (world : Shared) : Prop :=
  Meets (fun _ => True) call Done (Refused before) world

section Rules

variable {α β : Type} {before world : Shared} {call : Call α} {rest : α → Call β}
  {Done : α → Shared → Prop} {Finally : β → Shared → Prop}

theorem Achieves.bind (first : Achieves before call Done world)
    (next : ∀ value after, Done value after → Achieves before (rest value) Finally after) :
    Achieves before (call >>= rest) Finally world :=
  Meets.bind first next fun _ _ refused => refused

theorem achieves_checkControl (untouched : Untouched before world)
    (Done : Unit → Shared → Prop) (done : Done () world) :
    Achieves before checkControl Done world := by
  intro choice _
  rcases choice with ⟨control, order⟩
  cases control with
  | none => exact done
  | some error => exact ⟨rfl, untouched⟩

/-- The control is asked, and the rest starts from the same world. -/
theorem achieves_check {rest : Unit → Call β} (untouched : Untouched before world)
    (next : Achieves before (rest ()) Finally world) :
    Achieves before (checkControl >>= rest) Finally world := by
  refine (achieves_checkControl untouched (fun _ after => after = world) rfl).bind ?_
  rintro - after rfl
  exact next

theorem achieves_iterate {Entry : Type} {entries : List Entry} {rest : List Entry → Call β}
    (next : ∀ ordered : List Entry, ordered.Perm entries →
      Achieves before (rest ordered) Finally world) :
    Achieves before (iterate entries >>= rest) Finally world := by
  intro choice _
  refine next _ ?_
  have perm := (choice.order entries.length).ofFn_comp_perm entries.get
  rwa [ofFn_get] at perm

theorem achieves_observe {rest : Shared → Call β}
    (next : Achieves before (rest world) Finally world) :
    Achieves before (observe >>= rest) Finally world := next

theorem achieves_pure {value : α} (done : Done value world) :
    Achieves before (pure value) Done world := done

/-- A loop whose rounds only ask the control builds its value step by step. -/
theorem achieves_loop {State Item : Type} {items : List Item} {body : State → Item → Call State}
    {state : State} (Always : List Item → State → Prop)
    (round : ∀ done item state, Always done state →
      Achieves before (body state item)
        (fun next after => after = world ∧ Always (done ++ [item]) next) world)
    (start : Always [] state) :
    Achieves before (items.foldlM body state)
      (fun final after => after = world ∧ Always items final) world := by
  refine Meets.foldlM (fun done state after => after = world ∧ Always done state) ?_
    ⟨rfl, start⟩
  rintro done item - state after - ⟨rfl, holds⟩
  exact round done item state holds

end Rules

section Removals

variable {before world : Shared} {prior : List PreviewTaskDecision} {start : PreviewScheduler}
  {done : List PreviewRequestKey} {staged : Staged} {key : PreviewRequestKey}

theorem erase_of_notMem {inflight : Inflight} (absent : key ∉ inflight) :
    inflight.erase key = inflight := by
  refine AList.ext ?_
  exact kerase_of_notMem_keys absent

/-- Without cancelling, a removal is only an erasure. -/
theorem removeInflight_false (inflight : Inflight) (key : PreviewRequestKey) :
    removeInflight false inflight key = pure (inflight.erase key) := by
  rw [removeInflight]
  cases found : inflight.lookup key with
  | none => rw [erase_of_notMem (AList.lookup_eq_none.mp found)]
  | some task => rfl

/-- A copy from which the keys done so far are removed. -/
structure Removing (before : Shared) (prior : List PreviewTaskDecision) (start : PreviewScheduler)
    (done : List PreviewRequestKey) (staged : Staged) (world : Shared) : Prop where
  staging : Staging before (prior ++ staged.decisions) staged.scheduler.inflight world
  policy : staged.scheduler.policy = start.policy
  basePolicy : staged.scheduler.basePolicy = start.basePolicy
  fewer : staged.scheduler.inflight.entries.Sublist start.inflight.entries
  gone : ∀ key ∈ done, key ∉ staged.scheduler.inflight

namespace Removing

theorem init
    (staging : Staging before (prior ++ staged.decisions) staged.scheduler.inflight world) :
    Removing before prior staged.scheduler [] staged world :=
  ⟨staging, rfl, rfl, List.Sublist.refl _, fun _ listed => absurd listed not_mem_nil⟩

theorem next (removing : Removing before prior start done staged world) (key : PreviewRequestKey)
    (reason : String) :
    Removing before prior start (done ++ [key])
      { scheduler := { staged.scheduler with inflight := staged.scheduler.inflight.erase key }
        decisions := staged.decisions ++ [.cancelled key reason] } world where
  staging := by
    rw [← append_assoc]
    exact removing.staging.remove key reason
  policy := removing.policy
  basePolicy := removing.basePolicy
  fewer := entries_erase_sublist.trans removing.fewer
  gone other listed := by
    rw [AList.mem_erase, not_and]
    intro different
    rcases mem_append.mp listed with earlier | last
    · exact removing.gone other earlier
    · exact absurd (mem_singleton.mp last) different

theorem absent (removing : Removing before prior start done staged world)
    (absent : key ∉ staged.scheduler.inflight) :
    Removing before prior start (done ++ [key]) staged world where
  staging := removing.staging
  policy := removing.policy
  basePolicy := removing.basePolicy
  fewer := removing.fewer
  gone other listed := by
    rcases mem_append.mp listed with earlier | last
    · exact removing.gone other earlier
    · rw [mem_singleton.mp last]
      exact absent

end Removing

theorem achieves_removeDecided (removing : Removing before prior start done staged world)
    (key : PreviewRequestKey) (reason : String) :
    Achieves before (removeDecided reason false staged key)
      (Removing before prior start (done ++ [key])) world := by
  rw [removeDecided, removeInflight_false]
  by_cases listed : key ∈ staged.scheduler.inflight
  · rw [if_pos listed]
    exact removing.next key reason
  · rw [if_neg listed, erase_of_notMem listed]
    exact removing.absent listed

theorem achieves_prune {scheduler : PreviewScheduler} (reason : String)
    (staging : Staging before prior scheduler.inflight world) :
    Achieves before (pruneCancelledInflight reason false scheduler)
      (fun staged after => ∃ done, Removing before prior scheduler done staged after) world := by
  refine achieves_observe (achieves_iterate fun ordered _ => ?_)
  have start : Staging before (prior ++ []) scheduler.inflight world := by
    rwa [append_nil]
  refine (Meets.foldlM (Removing before prior scheduler) ?_
    (@Removing.init before world prior ⟨scheduler, []⟩ start)).mono (fun _ _ done => ⟨_, done⟩)
      fun _ _ refused => refused
  intro done key rest staged after _ removing
  exact achieves_removeDecided removing key reason

end Removals

section Limits

/-- How many tasks of a priority are in flight. -/
def countAt (priority : PreviewPriority) (inflight : Inflight) : Nat :=
  inflight.entries.countP fun entry => entry.2.priority = priority

/-- How many tasks of a priority the policy allows. -/
def PreviewSchedulingPolicy.limit (policy : PreviewSchedulingPolicy) : PreviewPriority → Nat
  | .visible => policy.maxVisible
  | .prefetch => policy.maxPrefetch
  | .background => 0

def WithinLimits (policy : PreviewSchedulingPolicy) (inflight : Inflight) : Prop :=
  ∀ priority, countAt priority inflight ≤ policy.limit priority

variable {policy : PreviewSchedulingPolicy}

theorem WithinLimits.fewer {left right : Inflight} (within : WithinLimits policy right)
    (fewer : left.entries.Sublist right.entries) : WithinLimits policy left :=
  fun priority => Nat.le_trans fewer.countP_le (within priority)

def Counts.of (counts : Counts) : PreviewPriority → Nat
  | .visible => counts.visible
  | .prefetch => counts.prefetch
  | .background => 0

/-- A task is kept only where there is room, and then it is counted. -/
theorem Counts.take_kept {counts : Counts} {priority : PreviewPriority}
    (taken : (counts.take policy priority).2 = true) :
    (counts.take policy priority).1.of priority = counts.of priority + 1 ∧
      counts.of priority + 1 ≤ policy.limit priority := by
  cases priority with
  | visible => exact ⟨rfl, of_decide_eq_true taken⟩
  | prefetch => exact ⟨rfl, of_decide_eq_true taken⟩
  | background => cases taken

theorem Counts.le_take (counts : Counts) (priority other : PreviewPriority) :
    counts.of other ≤ (counts.take policy priority).1.of other := by
  cases priority <;> cases other <;> simp [Counts.take, Counts.of]

/-- How many items of a priority are not among the cancelled keys. -/
def kept (priority : PreviewPriority) (items : List InflightItem)
    (cancelled : List PreviewRequestKey) : Nat :=
  items.countP fun item => item.priority = priority ∧ item.key ∉ cancelled

theorem kept_append (priority : PreviewPriority) (items : List InflightItem) (item : InflightItem)
    (cancelled : List PreviewRequestKey) :
    kept priority (items ++ [item]) cancelled ≤
      kept priority items cancelled + if item.priority = priority then 1 else 0 := by
  rw [kept, countP_append, countP_singleton]
  refine Nat.add_le_add_left ?_ _
  split <;> split <;> simp_all

theorem kept_cancel (priority : PreviewPriority) (items : List InflightItem) (item : InflightItem)
    (cancelled : List PreviewRequestKey) :
    kept priority (items ++ [item]) (cancelled ++ [item.key]) ≤ kept priority items cancelled := by
  rw [kept, countP_append, countP_singleton, if_neg (by simp), Nat.add_zero]
  refine countP_mono_left fun other _ holds => ?_
  have parts := of_decide_eq_true holds
  exact decide_eq_true ⟨parts.1, fun listed => parts.2 (mem_append_left _ listed)⟩

/-- The items done so far are counted, and those that are kept are within the limits. -/
def Limited (policy : PreviewSchedulingPolicy) (done : List InflightItem)
    (state : Counts × List PreviewRequestKey) : Prop :=
  ∀ priority, kept priority done state.2 ≤ min (state.1.of priority) (policy.limit priority)

theorem Limited.next {done : List InflightItem} {state : Counts × List PreviewRequestKey}
    (limited : Limited policy done state) (item : InflightItem) :
    Limited policy (done ++ [item]) ((state.1.take policy item.priority).1,
      if (state.1.take policy item.priority).2 then state.2 else state.2 ++ [item.key]) := by
  intro priority
  have sofar := limited priority
  have counted := @Counts.le_take policy state.1 item.priority priority
  by_cases taken : (state.1.take policy item.priority).2 = true
  · have more := kept_append priority done item state.2
    simp only [taken, if_true]
    by_cases same : item.priority = priority
    · subst same
      have room := Counts.take_kept taken
      rw [if_pos rfl] at more
      omega
    · rw [if_neg same] at more
      omega
  · have less := kept_cancel priority done item state.2
    simp only [taken, Bool.false_eq_true, if_false]
    omega

end Limits

section Reconcile

variable {before world : Shared} {prior : List PreviewTaskDecision}
  {scheduler : PreviewScheduler}

/-- The tasks that are left are those that were kept. -/
theorem withinLimits_of_kept {policy : PreviewSchedulingPolicy} {left right : Inflight}
    {items : List InflightItem} {state : Counts × List PreviewRequestKey}
    (limited : Limited policy items state) (fewer : left.entries.Sublist right.entries)
    (gone : ∀ key ∈ state.2, key ∉ left) (ordered : List (Sigma fun _ => InflightTask))
    (perm : ordered.Perm right.entries) (toItem : (Sigma fun _ => InflightTask) → InflightItem)
    (same : ∀ entry, (toItem entry).key = entry.1 ∧ (toItem entry).priority = entry.2.priority)
    (sorted : items.Perm (ordered.map toItem)) : WithinLimits policy left := by
  intro priority
  have alive : left.entries.countP (fun entry => entry.2.priority = priority) =
      left.entries.countP fun entry => entry.2.priority = priority ∧ entry.1 ∉ state.2 := by
    refine countP_congr fun entry listed => ?_
    have present : entry.1 ∈ left := AList.mem_keys.mpr (mem_keys_of_mem listed)
    have unlisted : entry.1 ∉ state.2 := fun cancelled => gone entry.1 cancelled present
    rw [decide_eq_true_iff, decide_eq_true_iff]
    exact (and_iff_left unlisted).symm
  have counted : right.entries.countP (fun entry =>
      entry.2.priority = priority ∧ entry.1 ∉ state.2) = kept priority items state.2 := by
    rw [kept, sorted.countP_eq, countP_map, ← perm.countP_eq]
    refine countP_congr fun entry _ => ?_
    rw [Function.comp_apply, (same entry).1, (same entry).2]
  rw [countAt, alive]
  refine Nat.le_trans fewer.countP_le ?_
  rw [counted]
  exact Nat.le_trans (limited priority) (Nat.min_le_right _ _)

/-- A reconciliation leaves no more tasks of a priority than the policy allows. -/
theorem achieves_reconcile (policy : PreviewSchedulingPolicy) (reason : String)
    (desiredKeys : Finset PreviewRequestKey)
    (staging : Staging before prior scheduler.inflight world) :
    Achieves before
      (reconcileInflightLimitsPreservingChecked policy reason desiredKeys false scheduler)
      (fun staged after => (∃ done, Removing before prior scheduler done staged after) ∧
        WithinLimits policy staged.scheduler.inflight) world := by
  have untouched := staging.untouched
  refine achieves_iterate fun ordered perm => ?_
  let toItem : (Sigma fun _ : PreviewRequestKey => InflightTask) → InflightItem := fun entry =>
    { key := entry.1, priority := entry.2.priority, sequence := entry.2.sequence
      desired := entry.1 ∈ desiredKeys }
  have collected := @achieves_loop before world (List InflightItem) _ ordered (fun items entry => do
    checkControl
    pure (items ++ [toItem entry])) [] (fun done items => items = done.map toItem)
    (fun done entry items built => by
      refine achieves_check untouched (achieves_pure ⟨rfl, ?_⟩)
      rw [built, map_append, map_singleton]) rfl
  refine collected.bind ?_
  rintro items after ⟨rfl, rfl⟩
  refine achieves_check untouched (achieves_check untouched ?_)
  refine (achieves_loop (Limited policy) ?_ fun priority => Nat.zero_le _).bind ?_
  · intro done item state limited
    exact achieves_check untouched (achieves_pure ⟨rfl, limited.next item⟩)
  rintro state after ⟨rfl, limited⟩
  have start : Staging before (prior ++ []) scheduler.inflight after := by
    rwa [append_nil]
  refine (Meets.foldlM (Removing before prior scheduler) ?_
    (@Removing.init before after prior ⟨scheduler, []⟩ start)).mono
      (fun staged later removing => ?_) fun _ _ refused => refused
  · intro done key rest staged later _ removing
    refine achieves_check removing.staging.untouched ?_
    refine (achieves_removeDecided removing key reason).bind fun next later removing => ?_
    exact achieves_check removing.staging.untouched removing
  · refine ⟨⟨_, removing⟩, withinLimits_of_kept limited removing.fewer removing.gone ordered perm
      toItem (fun _ => ⟨rfl, rfl⟩) ?_⟩
    exact perm_insertionSort _ _

end Reconcile

end Gfm.Preview

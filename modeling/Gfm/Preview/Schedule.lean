import Gfm.Lib.Programs
import Gfm.Types

/-!
# The preview scheduler

Requests for previews are ranked by where they are drawn, and a bounded number of them is in
flight, each with a token that cancels it. A call works on a copy of the scheduler, which shares
the tokens; only when nothing failed are the tokens of the removed tasks cancelled and is the copy
installed.

The order in which a hash map is gone through is chosen by the environment each time, and so is
what the caller's control says when it is asked. A token is a place in the list of all tokens that
were made, which says whether it is cancelled.
-/

namespace Gfm.Preview

open Programs

section Geometry

def i32Min : Int := -2 ^ 31

def i32Max : Int := 2 ^ 31 - 1

def u32Max : Nat := 2 ^ 32 - 1

structure Rect where
  x : Int
  y : Int
  width : Nat
  height : Nat
  deriving DecidableEq

namespace Rect

def intersects (self other : Rect) : Bool :=
  let ax2 := self.x + self.width
  let ay2 := self.y + self.height
  let bx2 := other.x + other.width
  let by2 := other.y + other.height
  self.x < bx2 && other.x < ax2 && self.y < by2 && other.y < ay2

/-- The sums and differences stop at the bounds of their types. -/
def inflate (self : Rect) (margin : Nat) : Rect :=
  let signedMargin := min (margin : Int) i32Max
  let growth := min (margin * 2) u32Max
  { x := max (self.x - signedMargin) i32Min
    y := max (self.y - signedMargin) i32Min
    width := min (self.width + growth) u32Max
    height := min (self.height + growth) u32Max }

end Rect

structure Viewport where
  visible : Rect
  prefetchMarginPx : Nat

inductive PreviewPriority where
  | visible
  | prefetch
  | background
  deriving DecidableEq, Repr

def PreviewPriority.score : PreviewPriority → Nat
  | visible => 0
  | prefetch => 1
  | background => 2

def Viewport.priorityFor (viewport : Viewport) (rect : Rect) : PreviewPriority :=
  if rect.intersects viewport.visible then .visible
  else if rect.intersects (viewport.visible.inflate viewport.prefetchMarginPx) then .prefetch
  else .background

end Geometry

section Tasks

inductive PreviewKind where
  | icon
  | thumbnail
  | quickLook
  | text
  deriving DecidableEq, Repr

structure PreviewRequestKey where
  fileId : FileId
  path : Path
  kind : PreviewKind
  pixelSize : Nat
  scaleFactorMilli : Nat
  contentEpoch : Nat
  deriving DecidableEq

structure PreviewTask where
  key : PreviewRequestKey
  rect : Rect
  generation : Nat

structure ScheduledTask where
  task : PreviewTask
  priority : PreviewPriority

inductive PreviewTaskDecision where
  | scheduled (key : PreviewRequestKey) (priority : PreviewPriority)
  | coalesced (key : PreviewRequestKey) (priority : PreviewPriority)
  | cancelled (key : PreviewRequestKey) (reason : String)
  deriving DecidableEq

end Tasks

section Policy

inductive JobIoPressure where
  | nominal
  | elevated
  | saturated
  deriving DecidableEq

inductive JobThermalState where
  | nominal
  | fair
  | serious
  | critical
  deriving DecidableEq

inductive JobBatteryState where
  | acPower
  | battery
  | lowPower
  deriving DecidableEq

inductive JobUserActivity where
  | idle
  | active
  deriving DecidableEq

structure SchedulingPressure where
  io : JobIoPressure
  thermal : JobThermalState
  battery : JobBatteryState
  userActivity : JobUserActivity

structure PreviewSchedulingPolicy where
  maxVisible : Nat
  maxPrefetch : Nat
  cancelOffscreen : Bool
  deriving DecidableEq

def throttleLimit (limit : Nat) : Nat := if limit = 0 then 0 else max (limit / 2) 1

def PreviewSchedulingPolicy.adaptedForPressure (policy : PreviewSchedulingPolicy)
    (pressure : SchedulingPressure) : PreviewSchedulingPolicy :=
  if pressure.io = .saturated ∨ pressure.thermal = .critical then
    { policy with maxPrefetch := 0, cancelOffscreen := true }
  else if pressure.io = .elevated ∨ pressure.thermal = .serious ∨
      (pressure.battery = .battery ∨ pressure.battery = .lowPower) ∨
        pressure.userActivity = .active then
    { policy with maxPrefetch := throttleLimit policy.maxPrefetch, cancelOffscreen := true }
  else policy

end Policy

section Scheduler

abbrev Cancellation := Nat

structure InflightTask where
  cancellation : Cancellation
  priority : PreviewPriority
  generation : Nat
  sequence : Nat

abbrev Inflight := AList fun _ : PreviewRequestKey => InflightTask

structure PreviewScheduler where
  basePolicy : PreviewSchedulingPolicy
  policy : PreviewSchedulingPolicy
  inflight : Inflight
  nextSequence : Nat

def PreviewScheduler.new (policy : PreviewSchedulingPolicy) :
    Except GfmError PreviewScheduler :=
  if policy.maxVisible = 0 then
    .error (.format "preview scheduler max_visible must be non-zero")
  else .ok { basePolicy := policy, policy, inflight := ∅, nextSequence := 0 }

/-- The scheduler and, for each token that was made, whether it is cancelled. -/
structure Shared where
  scheduler : PreviewScheduler
  tokens : List Bool

def Shared.isCancelled (shared : Shared) (token : Cancellation) : Bool :=
  shared.tokens.getD token false

/-- What the environment decides: what the control says, and the order of a hash map. -/
structure Choice where
  control : Option GfmError
  order : (count : Nat) → Equiv.Perm (Fin count)

instance : Inhabited Choice := ⟨⟨none, fun _ => 1⟩⟩

abbrev Call := Program Choice Shared GfmError

/-- The decisions taken so far, on a copy of the scheduler. -/
structure Staged where
  scheduler : PreviewScheduler
  decisions : List PreviewTaskDecision

end Scheduler

section Primitives

def observe : Call Shared := .observe .done

def checkControl : Call Unit :=
  .ask fun choice => match choice.control with
    | none => .done ()
    | some error => .fail error

/-- The entries of a hash map, in any order. -/
def iterate {Entry : Type} (entries : List Entry) : Call (List Entry) :=
  .ask fun choice => .done (List.ofFn (entries.get ∘ choice.order entries.length))

def makeToken : Call Cancellation :=
  .observe fun shared =>
    .install { shared with tokens := shared.tokens ++ [false] } (.done shared.tokens.length)

def cancel (token : Cancellation) : Call Unit :=
  .observe fun shared =>
    .install { shared with tokens := shared.tokens.set token true } (.done ())

def replaceScheduler (scheduler : PreviewScheduler) : Call Unit :=
  .observe fun shared => .install { shared with scheduler } (.done ())

/-- A task is taken out of the copy, and its token is cancelled if that is wanted here. -/
def removeInflight (cancelRemoved : Bool) (inflight : Inflight) (key : PreviewRequestKey) :
    Call Inflight :=
  match inflight.lookup key with
  | none => pure inflight
  | some task => do
      if cancelRemoved then
        cancel task.cancellation
      pure (inflight.erase key)

/-- A removal that is told only if there was a task. -/
def removeDecided (reason : String) (cancelRemoved : Bool) (staged : Staged)
    (key : PreviewRequestKey) : Call Staged := do
  let inflight ← removeInflight cancelRemoved staged.scheduler.inflight key
  pure {
    scheduler := { staged.scheduler with inflight }
    decisions :=
      if key ∈ staged.scheduler.inflight then staged.decisions ++ [.cancelled key reason]
      else staged.decisions }

end Primitives

section Limits

structure Counts where
  visible : Nat
  prefetch : Nat

/-- The next task of a priority is counted, and kept if there is room for it. -/
def Counts.take (policy : PreviewSchedulingPolicy) (counts : Counts) :
    PreviewPriority → Counts × Bool
  | .visible =>
      ({ counts with visible := counts.visible + 1 }, counts.visible + 1 ≤ policy.maxVisible)
  | .prefetch =>
      ({ counts with prefetch := counts.prefetch + 1 }, counts.prefetch + 1 ≤ policy.maxPrefetch)
  | .background => (counts, false)

def applyLimitsChecked (policy : PreviewSchedulingPolicy) (desired : List ScheduledTask) :
    Call (List ScheduledTask) := do
  let result ← desired.foldlM (fun (state : Counts × List ScheduledTask) item => do
    checkControl
    let taken := state.1.take policy item.priority
    checkControl
    pure (taken.1, if taken.2 then state.2 ++ [item] else state.2)) (⟨0, 0⟩, [])
  pure result.2

structure InflightItem where
  key : PreviewRequestKey
  priority : PreviewPriority
  sequence : Nat
  desired : Bool

def InflightItem.cmp (left right : InflightItem) : Ordering :=
  (compare left.priority.score right.priority.score).then
    ((compare right.desired left.desired).then
      ((compare left.sequence right.sequence).then (compare left.key.path right.key.path)))

def reconcileInflightLimitsPreservingChecked (policy : PreviewSchedulingPolicy) (reason : String)
    (desiredKeys : Finset PreviewRequestKey) (cancelRemoved : Bool)
    (scheduler : PreviewScheduler) : Call Staged := do
  let entries ← iterate scheduler.inflight.entries
  let inflight ← entries.foldlM (fun (items : List InflightItem) entry => do
    checkControl
    pure (items ++ [{
      key := entry.1, priority := entry.2.priority, sequence := entry.2.sequence
      desired := entry.1 ∈ desiredKeys }])) []
  checkControl
  let sorted := inflight.insertionSort fun left right => (left.cmp right).isLE = true
  checkControl
  let limited ← sorted.foldlM (fun (state : Counts × List PreviewRequestKey) item => do
    checkControl
    let taken := state.1.take policy item.priority
    pure (taken.1, if taken.2 then state.2 else state.2 ++ [item.key])) (⟨0, 0⟩, [])
  limited.2.foldlM (fun (staged : Staged) key => do
    checkControl
    let staged ← removeDecided reason cancelRemoved staged key
    checkControl
    pure staged) ⟨scheduler, []⟩

def reconcileInflightLimitsChecked (policy : PreviewSchedulingPolicy) (reason : String)
    (cancelRemoved : Bool) (scheduler : PreviewScheduler) : Call Staged :=
  reconcileInflightLimitsPreservingChecked policy reason ∅ cancelRemoved scheduler

def pruneCancelledInflight (reason : String) (cancelRemoved : Bool)
    (scheduler : PreviewScheduler) : Call Staged := do
  let shared ← observe
  let entries ← iterate scheduler.inflight.entries
  let cancelled := (entries.filter fun entry => shared.isCancelled entry.2.cancellation).map
    Sigma.fst
  cancelled.foldlM (removeDecided reason cancelRemoved) ⟨scheduler, []⟩

end Limits

section Desired

def shouldReplaceDesired (current candidate : ScheduledTask) : Bool :=
  ((compare candidate.task.generation current.task.generation).then
    (compare current.priority.score candidate.priority.score)).isGT

def coalesceDesired (byKey : AList fun _ : PreviewRequestKey => ScheduledTask)
    (task : ScheduledTask) : AList fun _ : PreviewRequestKey => ScheduledTask :=
  match byKey.lookup task.task.key with
  | some current =>
      if shouldReplaceDesired current task then byKey.insert task.task.key task else byKey
  | none => byKey.insert task.task.key task

def coalesceDesiredTasksChecked (tasks : List ScheduledTask) : Call (List ScheduledTask) := do
  let byKey ← tasks.foldlM (fun byKey task => do
    checkControl
    let byKey := coalesceDesired byKey task
    checkControl
    pure byKey) ∅
  let entries ← iterate byKey.entries
  entries.foldlM (fun (desired : List ScheduledTask) entry => do
    checkControl
    pure (desired ++ [entry.2])) []

def ScheduledTask.cmp (left right : ScheduledTask) : Ordering :=
  (compare left.priority.score right.priority.score).then
    ((compare left.task.rect.y right.task.rect.y).then
      ((compare left.task.rect.x right.task.rect.x).then
        (compare left.task.generation right.task.generation)))

/-- The tasks that are wanted in flight, ranked and within the limits. -/
def desiredTasks (policy : PreviewSchedulingPolicy) (viewport : Viewport)
    (tasks : List PreviewTask) : Call (List ScheduledTask) := do
  let desired ← tasks.foldlM (fun (desired : List ScheduledTask) task => do
    checkControl
    checkControl
    pure (desired ++ [{ task, priority := viewport.priorityFor task.rect }])) []
  let desired ← coalesceDesiredTasksChecked desired
  checkControl
  let desired := desired.insertionSort fun left right => (left.cmp right).isLE = true
  checkControl
  applyLimitsChecked policy desired

def desiredKeysChecked (desired : List ScheduledTask) : Call (Finset PreviewRequestKey) :=
  desired.foldlM (fun keys item => do
    checkControl
    pure (insert item.task.key keys)) ∅

end Desired

section Schedule

/-- Tasks that are no longer wanted are taken out of the copy. -/
def cancelOffscreenChecked (desiredKeys : Finset PreviewRequestKey) (cancelRemoved : Bool)
    (staged : Staged) : Call Staged :=
  if staged.scheduler.policy.cancelOffscreen then do
    let entries ← iterate staged.scheduler.inflight.entries
    let stale := (entries.map Sigma.fst).filter fun key => key ∉ desiredKeys
    stale.foldlM (fun (staged : Staged) key => do
      checkControl
      let inflight ← removeInflight cancelRemoved staged.scheduler.inflight key
      checkControl
      pure {
        scheduler := { staged.scheduler with inflight }
        decisions := staged.decisions ++ [.cancelled key "offscreen-or-superseded"] }) staged
  else pure staged

def PreviewScheduler.insertTask (scheduler : PreviewScheduler) (item : ScheduledTask)
    (cancellation : Cancellation) : PreviewScheduler :=
  { scheduler with
    nextSequence := min (scheduler.nextSequence + 1) (2 ^ 64 - 1)
    inflight := scheduler.inflight.insert item.task.key {
      cancellation, priority := item.priority, generation := item.task.generation
      sequence := scheduler.nextSequence } }

def admitTaskChecked (cancelRemoved : Bool) (staged : Staged) (item : ScheduledTask) :
    Call Staged := do
  checkControl
  match staged.scheduler.inflight.lookup item.task.key with
  | some inflight =>
      if inflight.generation ≠ item.task.generation then
        let removed ← removeInflight cancelRemoved staged.scheduler.inflight item.task.key
        let token ← makeToken
        pure {
          scheduler := PreviewScheduler.insertTask { staged.scheduler with inflight := removed }
            item token
          decisions := staged.decisions ++ [.cancelled item.task.key "superseded-generation",
            .scheduled item.task.key item.priority] }
      else
        checkControl
        pure {
          scheduler := { staged.scheduler with
            inflight := staged.scheduler.inflight.insert item.task.key
              { inflight with priority := item.priority } }
          decisions := staged.decisions ++ [.coalesced item.task.key item.priority] }
  | none =>
      let token ← makeToken
      checkControl
      pure {
        scheduler := staged.scheduler.insertTask item token
        decisions := staged.decisions ++ [.scheduled item.task.key item.priority] }

def scheduleMutatingChecked (viewport : Viewport) (tasks : List PreviewTask)
    (cancelRemoved : Bool) (scheduler : PreviewScheduler) : Call Staged := do
  checkControl
  let staged ← pruneCancelledInflight "cancelled-token" cancelRemoved scheduler
  checkControl
  let desired ← desiredTasks staged.scheduler.policy viewport tasks
  let desiredKeys ← desiredKeysChecked desired
  checkControl
  let staged ← cancelOffscreenChecked desiredKeys cancelRemoved staged
  let staged ← desired.foldlM (admitTaskChecked cancelRemoved) staged
  let reconciled ← reconcileInflightLimitsPreservingChecked staged.scheduler.policy
    "capacity-limit" desiredKeys cancelRemoved staged.scheduler
  checkControl
  pure ⟨reconciled.scheduler, staged.decisions ++ reconciled.decisions⟩

def adaptToPressureMutatingChecked (pressure : SchedulingPressure) (cancelRemoved : Bool)
    (scheduler : PreviewScheduler) : Call Staged := do
  checkControl
  let policy := scheduler.basePolicy.adaptedForPressure pressure
  let staged ← pruneCancelledInflight "cancelled-token" cancelRemoved scheduler
  checkControl
  let reconciled ← reconcileInflightLimitsChecked policy "pressure-admission" cancelRemoved
    staged.scheduler
  checkControl
  pure ⟨{ reconciled.scheduler with policy }, staged.decisions ++ reconciled.decisions⟩

/-- The tokens of the tasks that were in flight before, under the keys of the removals. -/
def cancelRemovedOriginalTokens (originalInflight : Inflight)
    (decisions : List PreviewTaskDecision) : Call Unit :=
  decisions.foldlM (fun _ decision =>
    match decision with
    | .cancelled key _ =>
        match originalInflight.lookup key with
        | some inflight => cancel inflight.cancellation
        | none => pure ()
    | .scheduled _ _ => pure ()
    | .coalesced _ _ => pure ()) ()

/-- A call on a copy: what it did is seen only when nothing failed. -/
def commitStaged (mutate : PreviewScheduler → Call Staged) : Call (List PreviewTaskDecision) := do
  let shared ← observe
  let staged ← mutate shared.scheduler
  checkControl
  cancelRemovedOriginalTokens shared.scheduler.inflight staged.decisions
  replaceScheduler staged.scheduler
  pure staged.decisions

def scheduleChecked (viewport : Viewport) (tasks : List PreviewTask) :
    Call (List PreviewTaskDecision) :=
  commitStaged (scheduleMutatingChecked viewport tasks false)

def adaptToPressureChecked (pressure : SchedulingPressure) : Call (List PreviewTaskDecision) :=
  commitStaged (adaptToPressureMutatingChecked pressure false)

def scheduleWithPressureChecked (pressure : SchedulingPressure) (viewport : Viewport)
    (tasks : List PreviewTask) : Call (List PreviewTaskDecision) :=
  commitStaged fun scheduler => do
    let adapted ← adaptToPressureMutatingChecked pressure false scheduler
    checkControl
    let staged ← scheduleMutatingChecked viewport tasks false adapted.scheduler
    pure ⟨staged.scheduler, adapted.decisions ++ staged.decisions⟩

/-- A task that is done leaves without its token being cancelled. -/
def finish (key : PreviewRequestKey) : Call Unit := do
  let shared ← observe
  replaceScheduler { shared.scheduler with inflight := shared.scheduler.inflight.erase key }

end Schedule

end Gfm.Preview

import Gfm.Index.Backpressure
import Gfm.Index.EventEdits

/-!
# Events that wait and the index

A run of the event queue, with the order in which the waiting events came kept beside its lanes.
An event that is merged with one that waits, or drained before one that came earlier, overtakes
the events between. Where no event overtakes one that it interferes with, and no event is merged
with one that it does not supersede, the drained events leave the records that the enqueued events
leave.
-/

namespace Gfm.Index

open Edits EventBackpressureQueue List Search Edits.Action

/-- An event that waits in a lane, and the events before and after it. -/
structure Waiting where
  before : List (EventPriority × FileEvent)
  event : FileEvent
  after : List (EventPriority × FileEvent)

/-- The last event of a lane that has the key of this one. -/
def lastMatch (priority : EventPriority) (event : FileEvent) :
    List (EventPriority × FileEvent) → Option Waiting
  | [] => none
  | (lane, existing) :: rest =>
      match lastMatch priority event rest with
      | some found => some { found with before := (lane, existing) :: found.before }
      | none =>
          if lane = priority ∧ sameKey existing event then some ⟨[], existing, rest⟩ else none

/-- The first event of a lane. -/
def firstOf (priority : EventPriority) : List (EventPriority × FileEvent) → Option Waiting
  | [] => none
  | (lane, event) :: rest =>
      if lane = priority then some ⟨[], event, rest⟩
      else (firstOf priority rest).map fun found =>
        { found with before := (lane, event) :: found.before }

/-- A queue, the events that wait in it in the order of their places, and the events that were
drained and enqueued. -/
structure QueueRun where
  queue : EventBackpressureQueue
  waiting : List (EventPriority × FileEvent)
  drained : List FileEvent
  enqueued : List FileEvent

inductive QueueStep where
  | enqueue (priority : EventPriority) (event : FileEvent)
  | drain (max : Nat)

namespace QueueRun

def start (maxPending visibleBurst : Nat) : QueueRun where
  queue := .new maxPending visibleBurst
  waiting := []
  drained := []
  enqueued := []

def waitingAfter (run : QueueRun) (priority : EventPriority) (event : FileEvent) :
    List (EventPriority × FileEvent) :=
  match lastMatch priority event run.waiting with
  | some found => found.before ++ (priority, coalescedEvent found.event event) :: found.after
  | none => run.waiting ++ [(priority, event)]

/-- What is left of the waiting events after a drain. -/
def drainWaiting (queue : EventBackpressureQueue) (visibleCredit : Nat)
    (waiting : List (EventPriority × FileEvent)) : Nat → List (EventPriority × FileEvent)
  | 0 => waiting
  | count + 1 =>
      match queue.nextLane visibleCredit with
      | none => waiting
      | some priority =>
          match firstOf priority waiting with
          | none => waiting
          | some found => drainWaiting (queue.setLane (queue.lane priority).tail priority)
              (creditAfter visibleCredit priority)
              (found.before ++ found.after) count

def step (run : QueueRun) : QueueStep → QueueRun
  | .enqueue priority event => {
      queue := (run.queue.enqueue priority event).2
      waiting := run.waitingAfter priority event
      drained := run.drained
      enqueued := run.enqueued ++ [event] }
  | .drain max => {
      queue := (run.queue.drainBatch max).2
      waiting := drainWaiting run.queue 0 run.waiting (min max run.queue.pending)
      drained := run.drained ++ (run.queue.drainBatch max).1
      enqueued := run.enqueued }

def runSteps (run : QueueRun) (steps : List QueueStep) : QueueRun := steps.foldl step run

end QueueRun

section Fits

variable (files : Files)

noncomputable def actions (events : List FileEvent) : List (Action FileRecord) :=
  events.map (eventAction files)

/-- Each event that a drain takes is independent of those that came before it. -/
def DrainFits (queue : EventBackpressureQueue) (visibleCredit : Nat)
    (waiting : List (EventPriority × FileEvent)) (store : Set FileRecord) : Nat → Prop
  | 0 => True
  | count + 1 =>
      match queue.nextLane visibleCredit with
      | none => True
      | some priority =>
          match firstOf priority waiting with
          | none => True
          | some found =>
              Overtakes (eventAction files found.event)
                  (actions files (found.before.map Prod.snd)) store ∧
                DrainFits (queue.setLane (queue.lane priority).tail priority)
                  (creditAfter visibleCredit priority)
                  (found.before ++ found.after) ((eventAction files found.event).run store) count

/-- A step that interferes with no event that waits: a merged event supersedes the one that it is
merged with and is independent of those that came after that, and a drained event is independent
of those that came before it. -/
def StepFits (store : Set FileRecord) (run : QueueRun) : QueueStep → Prop
  | .enqueue priority event =>
      match lastMatch priority event run.waiting with
      | none => True
      | some found =>
          let reached := runAll
            (actions files (run.drained ++ found.before.map Prod.snd)) store
          Supersedes (eventAction files found.event) (eventAction files event) reached ∧
            Overtakes (eventAction files event)
              (actions files (found.after.map Prod.snd))
              ((eventAction files found.event).run reached)
  | .drain max => DrainFits files run.queue 0 run.waiting
      (runAll (actions files run.drained) store) (min max run.queue.pending)

/-- Every step fits the state before it. -/
def StepsFit (store : Set FileRecord) : QueueRun → List QueueStep → Prop
  | _, [] => True
  | run, step :: rest => StepFits files store run step ∧ StepsFit store (run.step step) rest

end Fits

section Places

variable {priority : EventPriority} {event : FileEvent} {found : Waiting}
  {waiting : List (EventPriority × FileEvent)}

theorem lastMatch_split (matched : lastMatch priority event waiting = some found) :
    waiting = found.before ++ (priority, found.event) :: found.after := by
  induction waiting generalizing found with
  | nil => cases matched
  | cons first rest ih =>
      rcases first with ⟨lane, existing⟩
      rw [lastMatch] at matched
      cases later : lastMatch priority event rest with
      | some inner =>
          rw [later, Option.some.injEq] at matched
          rw [← matched, cons_append, ← ih later]
      | none =>
          rw [later, Option.ite_none_right_eq_some, Option.some.injEq] at matched
          rcases matched with ⟨⟨rfl, -⟩, rfl⟩
          rfl

theorem firstOf_split (taken : firstOf priority waiting = some found) :
    waiting = found.before ++ (priority, found.event) :: found.after ∧
      laneOf priority found.before = [] := by
  induction waiting generalizing found with
  | nil => cases taken
  | cons first rest ih =>
      rcases first with ⟨lane, existing⟩
      rw [firstOf] at taken
      split at taken
      case isTrue same =>
        subst same
        cases taken
        exact ⟨rfl, rfl⟩
      case isFalse other =>
        rcases Option.map_eq_some_iff.mp taken with ⟨inner, later, rfl⟩
        rcases ih later with ⟨split, empty⟩
        refine ⟨?_, ?_⟩
        · rw [cons_append, ← split]
        · simpa [laneOf, other] using empty

theorem firstOf_eq_none (none : firstOf priority waiting = none) :
    laneOf priority waiting = [] := by
  induction waiting with
  | nil => rfl
  | cons first rest ih =>
      rcases first with ⟨lane, existing⟩
      rw [firstOf] at none
      split at none
      case isTrue same => cases none
      case isFalse other => simpa [laneOf, other] using ih (Option.map_eq_none_iff.mp none)

theorem laneOf_append (waiting others : List (EventPriority × FileEvent)) :
    laneOf priority (waiting ++ others) = laneOf priority waiting ++ laneOf priority others := by
  simp [laneOf]

theorem laneOf_cons_self (rest : List (EventPriority × FileEvent)) :
    laneOf priority ((priority, event) :: rest) = event :: laneOf priority rest := by
  simp [laneOf]

theorem laneOf_cons_of_ne {lane : EventPriority} (other : lane ≠ priority)
    (rest : List (EventPriority × FileEvent)) :
    laneOf priority ((lane, event) :: rest) = laneOf priority rest := by
  simp [laneOf, other]

theorem coalesceIn_laneOf : coalesceIn event (laneOf priority waiting) =
    (lastMatch priority event waiting).map fun found => laneOf priority
      (found.before ++ (priority, coalescedEvent found.event event) :: found.after) := by
  induction waiting with
  | nil => rfl
  | cons first rest ih =>
      rcases first with ⟨lane, existing⟩
      rw [lastMatch]
      by_cases same : lane = priority
      · subst same
        rw [laneOf_cons_self, coalesceIn, ih]
        cases later : lastMatch lane event rest with
        | some inner => simp [laneOf_cons_self]
        | none => by_cases key : sameKey existing event = true <;> simp [key, laneOf_cons_self]
      · rw [laneOf_cons_of_ne same, ih]
        cases later : lastMatch priority event rest with
        | some inner => simp [laneOf_cons_of_ne same]
        | none => simp [same]

end Places

section Runs

variable {files : Files} {store : Set FileRecord} {run : QueueRun} {queue : EventBackpressureQueue}
  {priority : EventPriority} {event : FileEvent}

/-- A merged event does what the later one does. -/
theorem eventAction_coalescedEvent (existing incoming : FileEvent) :
    eventAction files (coalescedEvent existing incoming) = eventAction files incoming := by
  rcases existing with ⟨path, kind⟩
  rcases incoming with ⟨incomingPath, incomingKind⟩
  cases kind <;> cases incomingKind <;> rfl

/-- A queue that asks for no repair after an event has dropped nothing: the event was merged or
has the last place of its lane. -/
theorem enqueue_calm (calm : (queue.enqueue priority event).2.repairRequired = false) :
    queue.repairRequired = false ∧ ∀ lane, (queue.enqueue priority event).2.lane lane =
      match coalesceIn event (queue.lane priority) with
      | some events => (queue.setLane events priority).lane lane
      | none => (queue.setLane (queue.lane priority ++ [event]) priority).lane lane := by
  rw [EventBackpressureQueue.enqueue] at calm ⊢
  split at calm
  case h_1 => cases calm
  case h_2 =>
    cases merged : coalesceIn event (queue.lane priority) with
    | some events =>
        simp only [merged, repairRequired_setLane] at calm ⊢
        refine ⟨calm, ?_⟩
        intro lane
        cases lane <;> rfl
    | none =>
        simp only [merged, placeOrRefuse] at calm ⊢
        by_cases room : queue.pending < queue.maxPending
        · have kept : queue.makeRoom priority = (0, queue) := by
            rw [EventBackpressureQueue.makeRoom, if_pos room]
          simp only [kept, ge_iff_le, Nat.not_le.mpr room, if_false, repairRequired_setLane]
            at calm ⊢
          exact ⟨calm, fun _ => trivial⟩
        · exfalso
          revert calm
          simp only [EventBackpressureQueue.makeRoom, if_neg room]
          split
          · simp only
            split <;> simp
          · split
            · simp [Nat.not_lt.mp room]
            · split
              · simp [Nat.not_lt.mp room]
              · split
                · split <;> simp
                · simp [Nat.not_lt.mp room]

theorem drainLoop_repairRequired (count : Nat) :
    ∀ (queue : EventBackpressureQueue) (visibleCredit : Nat),
      (queue.drainLoop visibleCredit count).2.repairRequired = queue.repairRequired := by
  induction count with
  | zero => exact fun _ _ => rfl
  | succ count ih =>
      intro queue visibleCredit
      rw [drainLoop]
      split
      · rfl
      · split
        · rfl
        · simp only [ih, repairRequired_setLane]

/-- The waiting events, cut into lanes, are those of the queue. -/
def Kept (queue : EventBackpressureQueue) (waiting : List (EventPriority × FileEvent)) : Prop :=
  ∀ priority, queue.lane priority = laneOf priority waiting

theorem kept_enqueue (kept : Kept run.queue run.waiting)
    (calm : (run.step (.enqueue priority event)).queue.repairRequired = false) :
    Kept (run.step (.enqueue priority event)).queue
      (run.step (.enqueue priority event)).waiting := by
  have lanes := (enqueue_calm calm).2
  rw [kept priority, coalesceIn_laneOf] at lanes
  intro lane
  refine (lanes lane).trans ?_
  simp only [QueueRun.step, QueueRun.waitingAfter]
  cases matched : lastMatch priority event run.waiting with
  | some found =>
      have split := lastMatch_split matched
      simp only [Option.map_some, lane_setLane]
      split
      case isTrue same => rw [same]
      case isFalse other =>
        rw [kept lane, split, laneOf_append, laneOf_append, laneOf_cons_of_ne (Ne.symm other),
          laneOf_cons_of_ne (Ne.symm other)]
  | none =>
      simp only [Option.map_none, lane_setLane]
      rw [laneOf_append]
      split
      case isTrue same =>
        subst same
        simp [laneOf]
      case isFalse other =>
        rw [kept lane, laneOf_cons_of_ne (Ne.symm other)]
        simp [laneOf]

theorem actions_append (events others : List FileEvent) :
    actions files (events ++ others) = actions files events ++ actions files others :=
  map_append

theorem actions_cons (rest : List FileEvent) :
    actions files (event :: rest) = eventAction files event :: actions files rest := rfl

theorem runAll_cons (action : Action FileRecord) (rest : List (Action FileRecord)) :
    runAll (action :: rest) store = runAll rest (action.run store) := rfl

/-- A drain that fits keeps what the drained and the waiting events do together. -/
theorem drainLoop_order (count : Nat) :
    ∀ (queue : EventBackpressureQueue) (visibleCredit : Nat)
      (waiting : List (EventPriority × FileEvent)) (store : Set FileRecord),
      Kept queue waiting → DrainFits files queue visibleCredit waiting store count →
        Kept (queue.drainLoop visibleCredit count).2
            (QueueRun.drainWaiting queue visibleCredit waiting count) ∧
          runAll (actions files ((queue.drainLoop visibleCredit count).1 ++
              (QueueRun.drainWaiting queue visibleCredit waiting count).map Prod.snd)) store =
            runAll (actions files (waiting.map Prod.snd)) store := by
  induction count with
  | zero => exact fun queue visibleCredit waiting store kept _ => ⟨kept, rfl⟩
  | succ count ih =>
      intro queue visibleCredit waiting store kept fits
      rw [drainLoop, QueueRun.drainWaiting]
      rw [DrainFits] at fits
      cases next : queue.nextLane visibleCredit with
      | none => exact ⟨kept, rfl⟩
      | some priority =>
          simp only [next] at fits ⊢
          cases taken : firstOf priority waiting with
          | none =>
              have empty := firstOf_eq_none taken
              rw [← kept priority] at empty
              simp only [empty]
              exact ⟨kept, rfl⟩
          | some found =>
              simp only [taken] at fits ⊢
              rcases fits with ⟨overtakes, later⟩
              rcases firstOf_split taken with ⟨split, before⟩
              have lane : queue.lane priority = found.event :: laneOf priority found.after := by
                rw [kept priority, split, laneOf_append, before, laneOf_cons_self, nil_append]
              simp only [lane, tail_cons] at later ⊢
              have keptAfter : Kept (queue.setLane (laneOf priority found.after) priority)
                  (found.before ++ found.after) := by
                intro other
                rw [lane_setLane, laneOf_append]
                split
                case isTrue same => rw [same, before, nil_append]
                case isFalse differs =>
                  rw [kept other, split, laneOf_append, laneOf_cons_of_ne (Ne.symm differs)]
              rcases ih _ _ _ _ keptAfter later with ⟨keptLater, order⟩
              refine ⟨keptLater, ?_⟩
              rw [cons_append, actions_cons, runAll_cons, order]
              have moved := runAll_overtakes overtakes
              rw [split]
              simp only [map_append, map_cons, actions_append, actions_cons,
                runAll_append, runAll_cons] at moved ⊢
              rw [← moved]
              rfl

/-- A merge that fits keeps what the drained and the waiting events do together. -/
theorem enqueue_order (fits : StepFits files store run (.enqueue priority event)) :
    runAll (actions files (run.drained ++
        (run.waitingAfter priority event).map Prod.snd)) store =
      runAll (actions files (run.drained ++ run.waiting.map Prod.snd ++ [event])) store := by
  rw [StepFits] at fits
  rw [QueueRun.waitingAfter]
  cases matched : lastMatch priority event run.waiting with
  | none => simp
  | some found =>
      simp only [matched] at fits ⊢
      rcases fits with ⟨supersedes, overtakes⟩
      have split := lastMatch_split matched
      have moved := runAll_overtakes overtakes
      rw [split]
      simp only [map_append, map_cons, actions_append, actions_cons,
        runAll_append, runAll_cons, eventAction_coalescedEvent] at moved supersedes ⊢
      rw [← supersedes.run_run, ← moved]
      rfl

/-- What the drained and the waiting events do together is what the enqueued events do. -/
structure InOrder (files : Files) (store : Set FileRecord) (run : QueueRun) : Prop where
  kept : Kept run.queue run.waiting
  order : runAll (actions files (run.drained ++ run.waiting.map Prod.snd)) store =
    runAll (actions files run.enqueued) store

theorem inOrder_start (maxPending visibleBurst : Nat) :
    InOrder files store (.start maxPending visibleBurst) := by
  constructor
  · intro priority
    cases priority <;> rfl
  · rfl

theorem inOrder_step {step : QueueStep} (inOrder : InOrder files store run)
    (fits : StepFits files store run step)
    (calm : (run.step step).queue.repairRequired = false) :
    InOrder files store (run.step step) := by
  cases step with
  | enqueue priority event =>
      refine ⟨kept_enqueue inOrder.kept calm, ?_⟩
      have order := enqueue_order fits
      rw [actions_append (run.drained ++ _), runAll_append, inOrder.order,
        ← runAll_append, ← actions_append] at order
      exact order
  | drain max =>
      rcases drainLoop_order _ _ _ _ _ inOrder.kept fits with ⟨kept, order⟩
      refine ⟨kept, ?_⟩
      have whole := inOrder.order
      rw [actions_append, runAll_append, ← order, ← runAll_append,
        ← actions_append, ← append_assoc] at whole
      exact whole

theorem calm_of_step {step : QueueStep} (calm : (run.step step).queue.repairRequired = false) :
    run.queue.repairRequired = false := by
  cases step with
  | enqueue priority event => exact (enqueue_calm calm).1
  | drain max =>
      rw [← calm]
      exact (drainLoop_repairRequired _ run.queue 0).symm

theorem calm_of_runSteps (steps : List QueueStep) :
    ∀ run : QueueRun, (run.runSteps steps).queue.repairRequired = false →
      run.queue.repairRequired = false := by
  induction steps with
  | nil => exact fun _ calm => calm
  | cons step rest ih => exact fun run calm => calm_of_step (ih (run.step step) calm)

theorem inOrder_runSteps (steps : List QueueStep) :
    ∀ run : QueueRun, InOrder files store run → StepsFit files store run steps →
      (run.runSteps steps).queue.repairRequired = false →
        InOrder files store (run.runSteps steps) := by
  induction steps with
  | nil => exact fun _ inOrder _ _ => inOrder
  | cons step rest ih =>
      intro run inOrder fits calm
      exact ih (run.step step)
        (inOrder_step inOrder fits.1 (calm_of_runSteps rest (run.step step) calm)) fits.2 calm

end Runs

section Drained

variable {unicode : Unicode} {files : Files}

def applyAll (unicode : Unicode) (files : Files) (index : ShardedSearchIndex)
    (events : List FileEvent) : ShardedSearchIndex :=
  events.foldl (applyEvent unicode files) index

def indexPaths (index : ShardedSearchIndex) : List Text := index.records.map FileRecord.path

theorem recordSet_applyAll (events : List FileEvent) :
    ∀ index : ShardedSearchIndex, index.Coherent →
      (∀ record ∈ recordSet index, Absolute record.path) →
        (∀ event ∈ events, AbsoluteEvent event) →
          recordSet (applyAll unicode files index events) =
            runAll (actions files events) (recordSet index) := by
  induction events with
  | nil => exact fun _ _ _ _ => rfl
  | cons event rest ih =>
      intro index coherent absolute absoluteEvents
      have absoluteEvent := absoluteEvents event mem_cons_self
      have ran := @recordSet_applyEvent unicode files index event coherent absolute absoluteEvent
      have coherentAfter : (applyEvent unicode files index event).Coherent :=
        coherent_apply coherent
      have absoluteAfter : ∀ record ∈ recordSet (applyEvent unicode files index event),
          Absolute record.path := by
        rw [ran]
        exact absolute_run absolute absoluteEvent
      have later := ih (applyEvent unicode files index event) coherentAfter absoluteAfter
        fun other listed => absoluteEvents other (mem_cons_of_mem event listed)
      rw [ran] at later
      exact later

theorem absolute_coalescedEvent {existing incoming : FileEvent}
    (absolute : AbsoluteEvent incoming) : AbsoluteEvent (coalescedEvent existing incoming) := by
  rcases existing with ⟨path, kind⟩
  rcases incoming with ⟨incomingPath, incomingKind⟩
  cases kind <;> cases incomingKind <;> exact absolute

def AbsoluteLanes (queue : EventBackpressureQueue) : Prop :=
  ∀ priority, ∀ event ∈ queue.lane priority, AbsoluteEvent event

theorem mem_coalesceIn {event : FileEvent} {lane events : List FileEvent}
    (merged : coalesceIn event lane = some events) :
    ∀ other ∈ events, other ∈ lane ∨ ∃ existing, other = coalescedEvent existing event := by
  rcases coalesceIn_split merged with ⟨before, existing, after, rfl, rfl⟩
  intro other member
  rcases mem_append.mp member with early | late
  · exact Or.inl (mem_append_left _ early)
  · rcases mem_cons.mp late with rfl | later
    · exact Or.inr ⟨existing, rfl⟩
    · exact Or.inl (mem_append_right _ (mem_cons_of_mem existing later))

theorem absoluteLanes_setLane {queue : EventBackpressureQueue} {priority : EventPriority}
    {events : List FileEvent} (absolute : AbsoluteLanes queue)
    (absoluteEvents : ∀ event ∈ events, AbsoluteEvent event) :
    AbsoluteLanes (queue.setLane events priority) := by
  intro other event member
  rw [lane_setLane] at member
  split at member
  · exact absoluteEvents event member
  · exact absolute other event member

theorem absoluteLanes_enqueue {queue : EventBackpressureQueue} {priority : EventPriority}
    {event : FileEvent} (absolute : AbsoluteLanes queue) (absoluteEvent : AbsoluteEvent event)
    (calm : (queue.enqueue priority event).2.repairRequired = false) :
    AbsoluteLanes (queue.enqueue priority event).2 := by
  intro lane other member
  rw [(enqueue_calm calm).2 lane] at member
  cases merged : coalesceIn event (queue.lane priority) with
  | some events =>
      rw [merged] at member
      refine absoluteLanes_setLane absolute ?_ lane other member
      intro one listed
      rcases mem_coalesceIn merged one listed with known | ⟨existing, rfl⟩
      · exact absolute priority one known
      · exact absolute_coalescedEvent absoluteEvent
  | none =>
      rw [merged] at member
      refine absoluteLanes_setLane absolute ?_ lane other member
      intro one listed
      rcases mem_append.mp listed with known | last
      · exact absolute priority one known
      · rw [mem_singleton.mp last]
        exact absoluteEvent

theorem absolute_drainLoop (count : Nat) :
    ∀ (queue : EventBackpressureQueue) (visibleCredit : Nat), AbsoluteLanes queue →
      (∀ event ∈ (queue.drainLoop visibleCredit count).1, AbsoluteEvent event) ∧
        AbsoluteLanes (queue.drainLoop visibleCredit count).2 := by
  induction count with
  | zero => exact fun queue _ absolute => ⟨nofun, absolute⟩
  | succ count ih =>
      intro queue visibleCredit absolute
      rw [drainLoop]
      split
      case h_1 => exact ⟨nofun, absolute⟩
      case h_2 priority _ =>
        split
        case h_1 => exact ⟨nofun, absolute⟩
        case h_2 first rest lane =>
          have known := absolute priority
          rw [lane] at known
          have left := ih (queue.setLane rest priority)
            (creditAfter visibleCredit priority)
            (absoluteLanes_setLane absolute fun event listed =>
              known event (mem_cons_of_mem first listed))
          refine ⟨?_, left.2⟩
          intro event listed
          rcases mem_cons.mp listed with rfl | listed
          · exact known event mem_cons_self
          · exact left.1 event listed

def AbsoluteStep : QueueStep → Prop
  | .enqueue _ event => AbsoluteEvent event
  | .drain _ => True

/-- Every event of a run is absolute. -/
structure AbsoluteRun (run : QueueRun) : Prop where
  lanes : AbsoluteLanes run.queue
  drained : ∀ event ∈ run.drained, AbsoluteEvent event
  enqueued : ∀ event ∈ run.enqueued, AbsoluteEvent event

theorem absoluteRun_step {run : QueueRun} {step : QueueStep} (absolute : AbsoluteRun run)
    (absoluteStep : AbsoluteStep step)
    (calm : (run.step step).queue.repairRequired = false) : AbsoluteRun (run.step step) := by
  cases step with
  | enqueue priority event =>
      refine ⟨absoluteLanes_enqueue absolute.lanes absoluteStep calm, absolute.drained, ?_⟩
      intro other listed
      rcases mem_append.mp listed with known | last
      · exact absolute.enqueued other known
      · rw [mem_singleton.mp last]
        exact absoluteStep
  | drain max =>
      have left := absolute_drainLoop (min max run.queue.pending) run.queue 0 absolute.lanes
      refine ⟨left.2, ?_, absolute.enqueued⟩
      intro other listed
      rcases mem_append.mp listed with known | later
      · exact absolute.drained other known
      · exact left.1 other later

theorem absoluteRun_runSteps (steps : List QueueStep) :
    ∀ run : QueueRun, AbsoluteRun run → (∀ step ∈ steps, AbsoluteStep step) →
      (run.runSteps steps).queue.repairRequired = false → AbsoluteRun (run.runSteps steps) := by
  induction steps with
  | nil => exact fun _ absolute _ _ => absolute
  | cons step rest ih =>
      intro run absolute absoluteSteps calm
      have here := absoluteRun_step absolute (absoluteSteps step mem_cons_self)
        (calm_of_runSteps rest (run.step step) calm)
      exact ih (run.step step) here
        (fun other listed => absoluteSteps other (mem_cons_of_mem step listed)) calm

theorem absoluteRun_start (maxPending visibleBurst : Nat) :
    AbsoluteRun (.start maxPending visibleBurst) := by
  refine ⟨?_, nofun, nofun⟩
  intro priority event listed
  cases priority <;> cases listed

theorem mem_indexPaths {index : ShardedSearchIndex} {path : Text} :
    path ∈ indexPaths index ↔ ∃ record ∈ recordSet index, record.path = path :=
  mem_map

/-- A queue that needs no repair and holds nothing has lost no change, in every run of steps that
interfere with no event that waits. -/
theorem drained_leave_enqueued_paths (unicode : Unicode) (files : Files) (changes : List Change)
    (absolute : ∀ record ∈ (liveIndex unicode changes).records, Absolute record.path)
    (maxPending visibleBurst : Nat) (steps : List QueueStep)
    (absoluteSteps : ∀ step ∈ steps, AbsoluteStep step)
    (fits : StepsFit files (recordSet (liveIndex unicode changes))
      (.start maxPending visibleBurst) steps)
    (calm : ((QueueRun.start maxPending visibleBurst).runSteps steps).queue.repairRequired = false)
    (empty : ((QueueRun.start maxPending visibleBurst).runSteps steps).queue.pending = 0)
    (path : Text) :
    path ∈ indexPaths (applyAll unicode files (liveIndex unicode changes)
        ((QueueRun.start maxPending visibleBurst).runSteps steps).drained) ↔
      path ∈ indexPaths (applyAll unicode files (liveIndex unicode changes)
        ((QueueRun.start maxPending visibleBurst).runSteps steps).enqueued) := by
  have coherent := coherent_liveIndex unicode changes
  have inOrder := inOrder_runSteps steps _ (inOrder_start maxPending visibleBurst) fits calm
  have absoluteRun := absoluteRun_runSteps steps _ (absoluteRun_start maxPending visibleBurst)
    absoluteSteps calm
  generalize (QueueRun.start maxPending visibleBurst).runSteps steps = run at *
  have drained : run.waiting = [] := by
    cases waiting : run.waiting with
    | nil => rfl
    | cons first rest =>
        exfalso
        have lane := inOrder.kept first.1
        rw [waiting, show first = (first.1, first.2) from rfl, laneOf_cons_self] at lane
        simp only [EventBackpressureQueue.pending, Nat.add_eq_zero_iff,
          length_eq_zero_iff] at empty
        revert lane
        cases first.1 <;> simp [EventBackpressureQueue.lane, empty]
  have order := inOrder.order
  rw [drained, map_nil, append_nil,
    ← @recordSet_applyAll unicode files _ _ coherent absolute absoluteRun.drained,
    ← @recordSet_applyAll unicode files _ _ coherent absolute absoluteRun.enqueued] at order
  rw [mem_indexPaths, mem_indexPaths, order]

/-- A directory with a record below it. -/
def fullDirectory : List Change :=
  [.insert (plainDirectory 1 "/r/a".toList "a".toList),
    .insert (plainDirectory 2 "/r/a/x".toList "x".toList)]

/-- The directory under its new path. -/
def renamedFiles : Files := fun path =>
  if path = "/r/b".toList then some (plainDirectory 1 "/r/b".toList "b".toList)
  else if path = "/r/b/x".toList then some (plainDirectory 2 "/r/b/x".toList "x".toList)
  else none

def renamedAndTouched : QueueRun :=
  (QueueRun.start 8 4).runSteps
    [.enqueue .visible ⟨"/r/b".toList, .rename "/r/a".toList "/r/b".toList⟩,
      .enqueue .visible ⟨"/r/b".toList, .metadata⟩, .drain 2]

/-- The rename is merged with the metadata event of its target. -/
theorem rename_disappears :
    renamedAndTouched.queue.repairRequired = false ∧ renamedAndTouched.queue.pending = 0 ∧
      "/r/b/x".toList ∈ indexPaths (applyAll Unicode.ascii renamedFiles
        (liveIndex Unicode.ascii fullDirectory) renamedAndTouched.enqueued) ∧
      "/r/b/x".toList ∉ indexPaths (applyAll Unicode.ascii renamedFiles
        (liveIndex Unicode.ascii fullDirectory) renamedAndTouched.drained) := by
  decide +kernel

/-- The rename is drained before its target is touched, twice. -/
def touchedLater : List QueueStep :=
  [.enqueue .background ⟨"/r/b".toList, .rename "/r/a".toList "/r/b".toList⟩, .drain 1,
    .enqueue .visible ⟨"/r/b".toList, .metadata⟩, .enqueue .visible ⟨"/r/b".toList, .modify⟩,
    .drain 1]

theorem drained_leave_enqueued_paths_touched :
    "/r/b/x".toList ∈ indexPaths (applyAll Unicode.ascii renamedFiles
        (liveIndex Unicode.ascii fullDirectory)
        ((QueueRun.start 8 4).runSteps touchedLater).drained) ↔
      "/r/b/x".toList ∈ indexPaths (applyAll Unicode.ascii renamedFiles
        (liveIndex Unicode.ascii fullDirectory)
        ((QueueRun.start 8 4).runSteps touchedLater).enqueued) := by
  refine drained_leave_enqueued_paths Unicode.ascii renamedFiles fullDirectory (by decide +kernel)
    8 4 touchedLater ?_ ?_ (by decide +kernel) (by decide +kernel) "/r/b/x".toList
  · have target : Absolute "/r/b".toList := by decide
    have source : Absolute "/r/a".toList := by decide
    simp only [touchedLater, forall_mem_cons, AbsoluteStep, AbsoluteEvent]
    exact ⟨⟨source, target⟩, trivial, target, target, trivial, nofun⟩
  · refine ⟨trivial, ⟨trivial, trivial⟩, trivial, ⟨⟨nofun, ?_, ?_⟩, trivial⟩, ⟨trivial, trivial⟩,
      trivial⟩
    · exact fun _ _ taken => Or.inr taken
    · exact fun _ put => Or.inl put

end Drained

end Gfm.Index

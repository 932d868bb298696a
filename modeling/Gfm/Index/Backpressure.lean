import Gfm.Index.Events

/-!
# The event queue

Events wait in two lanes, the visible one and the background one. An event that has the key of one
that waits in its lane is merged with it; a full queue drops an event, which asks for a repair. A
drain takes a burst of visible events before each background one. The control of a drain lets it
go on, and when an event was observed is left out.
-/

namespace Gfm.Index

open Search

inductive EventPriority where
  | visible
  | background
  deriving DecidableEq, Repr

structure EventBackpressureReport where
  accepted : Bool
  coalesced : Bool
  dropped : Nat
  repairRequired : Bool
  deriving DecidableEq, Repr

structure EventBackpressureQueue where
  maxPending : Nat
  visibleBurst : Nat
  visible : List FileEvent
  background : List FileEvent
  dropped : Nat
  coalesced : Nat
  repairRequired : Bool

section Keys

def renameKey (source target : Text) : Text := joinPath (joinPath source "->".toList) target

def coalesceKey (event : FileEvent) : Text :=
  match event.kind with
  | .rename source target => renameKey source target
  | _ => event.path

def sameKey (existing incoming : FileEvent) : Bool :=
  pathComponents (coalesceKey existing) = pathComponents (coalesceKey incoming)

def coalescedEvent (existing incoming : FileEvent) : FileEvent where
  path := incoming.path
  kind := match existing.kind, incoming.kind with
    | .create, .metadata | .create, .modify => .create
    | .metadata, .modify | .modify, .metadata => .modify
    | _, .remove => .remove
    | _, kind => kind

/-- The lane with the event merged into the last one that has its key. -/
def coalesceIn (event : FileEvent) : List FileEvent → Option (List FileEvent)
  | [] => none
  | existing :: rest =>
      match coalesceIn event rest with
      | some rest => some (existing :: rest)
      | none =>
          if sameKey existing event then some (coalescedEvent existing event :: rest) else none

end Keys

def laneOf (priority : EventPriority) (waiting : List (EventPriority × FileEvent)) :
    List FileEvent := (waiting.filter fun event => event.1 = priority).map Prod.snd

namespace EventBackpressureQueue

variable (queue : EventBackpressureQueue)

def new (maxPending visibleBurst : Nat) : EventBackpressureQueue where
  maxPending := max maxPending 1
  visibleBurst := max visibleBurst 1
  visible := []
  background := []
  dropped := 0
  coalesced := 0
  repairRequired := false

def pending : Nat := queue.visible.length + queue.background.length

def lane : EventPriority → List FileEvent
  | .visible => queue.visible
  | .background => queue.background

def setLane (events : List FileEvent) : EventPriority → EventBackpressureQueue
  | .visible => { queue with visible := events }
  | .background => { queue with background := events }

def makeRoom (priority : EventPriority) : Nat × EventBackpressureQueue :=
  if queue.pending < queue.maxPending then (0, queue)
  else
    match queue.background with
    | _ :: background =>
        (1, { queue with background, dropped := queue.dropped + 1, repairRequired := true })
    | [] =>
        if priority = .background then (0, queue)
        else
          match queue.visible with
          | [] => (0, queue)
          | _ :: visible =>
              if queue.visible.length > queue.visibleBurst then
                (1, { queue with visible, dropped := queue.dropped + 1, repairRequired := true })
              else (0, queue)

/-- What becomes of an event that is merged with none. -/
def placeOrRefuse (priority : EventPriority) (event : FileEvent) :
    EventBackpressureReport × EventBackpressureQueue :=
  let (dropped, roomy) := queue.makeRoom priority
  if roomy.pending ≥ roomy.maxPending then
    (⟨false, false, dropped + 1, true⟩,
      { roomy with dropped := roomy.dropped + 1, repairRequired := true })
  else
    (⟨true, false, dropped, roomy.repairRequired⟩,
      roomy.setLane (roomy.lane priority ++ [event]) priority)

def enqueue (priority : EventPriority) (event : FileEvent) :
    EventBackpressureReport × EventBackpressureQueue :=
  match event.kind with
  | .rescan =>
      (⟨true, false, queue.pending, true⟩,
        { queue with
          visible := []
          background := [event]
          dropped := queue.dropped + queue.pending
          repairRequired := true })
  | _ =>
      match coalesceIn event (queue.lane priority) with
      | some events =>
          (⟨true, true, 0, queue.repairRequired⟩,
            { queue.setLane events priority with coalesced := queue.coalesced + 1 })
      | none => queue.placeOrRefuse priority event

/-- The lane that a drain takes from once it has taken so many visible events in a row. -/
def nextLane (visibleCredit : Nat) : Option EventPriority :=
  if visibleCredit < queue.visibleBurst ∧ queue.visible ≠ [] then some .visible
  else if queue.background ≠ [] then some .background
  else if queue.visible ≠ [] then some .visible
  else none

def creditAfter (visibleCredit : Nat) : EventPriority → Nat
  | .visible => visibleCredit + 1
  | .background => 0

def drainLoop (queue : EventBackpressureQueue) (visibleCredit : Nat) :
    Nat → List FileEvent × EventBackpressureQueue
  | 0 => ([], queue)
  | count + 1 =>
      match queue.nextLane visibleCredit with
      | none => ([], queue)
      | some priority =>
          match queue.lane priority with
          | [] => ([], queue)
          | event :: rest =>
              let (drained, queue) := drainLoop (queue.setLane rest priority)
                (creditAfter visibleCredit priority) count
              (event :: drained, queue)

def drainBatch (max : Nat) : List FileEvent × EventBackpressureQueue :=
  queue.drainLoop 0 (min max queue.pending)

end EventBackpressureQueue

section Lanes

variable {queue : EventBackpressureQueue} {priority : EventPriority} {event : FileEvent}

@[simp]
theorem lane_setLane (events : List FileEvent) (other : EventPriority) :
    (queue.setLane events priority).lane other =
      if other = priority then events else queue.lane other := by
  cases priority <;> cases other <;> rfl

@[simp]
theorem repairRequired_setLane (events : List FileEvent) :
    (queue.setLane events priority).repairRequired = queue.repairRequired := by
  cases priority <;> rfl

@[simp]
theorem maxPending_setLane (events : List FileEvent) :
    (queue.setLane events priority).maxPending = queue.maxPending := by
  cases priority <;> rfl

@[simp]
theorem visibleBurst_setLane (events : List FileEvent) :
    (queue.setLane events priority).visibleBurst = queue.visibleBurst := by
  cases priority <;> rfl

@[simp]
theorem dropped_setLane (events : List FileEvent) :
    (queue.setLane events priority).dropped = queue.dropped := by
  cases priority <;> rfl

@[simp]
theorem coalesced_setLane (events : List FileEvent) :
    (queue.setLane events priority).coalesced = queue.coalesced := by
  cases priority <;> rfl

theorem pending_setLane (queue : EventBackpressureQueue) (priority : EventPriority)
    (events : List FileEvent) :
    (queue.setLane events priority).pending + (queue.lane priority).length =
      queue.pending + events.length := by
  cases priority <;> simp only [EventBackpressureQueue.setLane, EventBackpressureQueue.lane,
    EventBackpressureQueue.pending] <;> omega

/-- A merge changes one event of the lane, at its place. -/
theorem coalesceIn_split {lane events : List FileEvent}
    (merged : coalesceIn event lane = some events) :
    ∃ before existing after, lane = before ++ existing :: after ∧
      events = before ++ coalescedEvent existing event :: after := by
  induction lane generalizing events with
  | nil => cases merged
  | cons first rest ih =>
      rw [coalesceIn] at merged
      cases later : coalesceIn event rest with
      | some inner =>
          simp only [later, Option.some.injEq] at merged
          rcases ih later with ⟨before, existing, after, laneEq, innerEq⟩
          exact ⟨first :: before, existing, after, by simp [laneEq], by simp [← merged, innerEq]⟩
      | none =>
          simp only [later, Option.ite_none_right_eq_some, Option.some.injEq] at merged
          exact ⟨[], first, rest, rfl, merged.2.symm⟩

end Lanes

end Gfm.Index

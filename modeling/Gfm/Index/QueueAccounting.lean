import Gfm.Index.Backpressure
import Gfm.Lib.Lines

/-!
# The accounts of the event queue

A drain works on a copy of the queue and puts the copy in the queue's place at the end, unless the
control stops it before. Over any run the queue accounts for every event that was enqueued: it was
drained, it waits, it was dropped, or it was merged with one of these. Each lane is a waiting
line.
-/

namespace Gfm.Index

open Interruptible List

abbrev Draining (α : Type) := Checked GfmError EventBackpressureQueue α

namespace EventBackpressureQueue

section Checked

variable (control : Control GfmError)

def current : Draining EventBackpressureQueue := fun clocked => .ok clocked.state clocked

def install (staged : EventBackpressureQueue) : Draining PUnit := fun clocked =>
  .ok ⟨⟩ { clocked with state := staged }

/-- The loop of a drain, on the staged queue. -/
def drainLoopChecked (staged : EventBackpressureQueue) (visibleCredit : Nat)
    (drained : List FileEvent) : Nat → Draining (List FileEvent × EventBackpressureQueue)
  | 0 => pure (drained, staged)
  | count + 1 => do
      check control
      match staged.nextLane visibleCredit with
      | none => pure (drained, staged)
      | some priority =>
          match staged.lane priority with
          | [] => pure (drained, staged)
          | event :: rest => do
              check control
              drainLoopChecked (staged.setLane rest priority)
                (creditAfter visibleCredit priority) (drained ++ [event]) count

def drainBatchMutatingChecked (staged : EventBackpressureQueue) (max : Nat) :
    Draining (List FileEvent × EventBackpressureQueue) := do
  check control
  staged.drainLoopChecked control 0 [] (min max staged.pending)

def drainBatchChecked (max : Nat) : Draining (List FileEvent) := do
  check control
  let staged ← current
  let (drained, staged) ← staged.drainBatchMutatingChecked control max
  check control
  install staged
  pure drained

variable {control}

/-- The control alone can stop the loop of a drain. -/
theorem steady_drainLoopChecked (count : Nat) :
    ∀ (staged : EventBackpressureQueue) (visibleCredit : Nat) (drained : List FileEvent),
      ∃ checks, Steady control (staged.drainLoopChecked control visibleCredit drained count) checks
        (drained ++ (staged.drainLoop visibleCredit count).1,
          (staged.drainLoop visibleCredit count).2) := by
  induction count with
  | zero =>
      intro staged visibleCredit drained
      have done : Steady control (pure (drained, staged) : Draining _) 0 (drained, staged) :=
        Steady.pure (drained, staged)
      exact ⟨0, by simpa [drainLoop, drainLoopChecked] using done⟩
  | succ count ih =>
      intro staged visibleCredit drained
      have done : Steady control (pure (drained, staged) : Draining _) 0 (drained, staged) :=
        Steady.pure (drained, staged)
      simp only [drainLoopChecked, drainLoop]
      cases next : staged.nextLane visibleCredit with
      | none =>
          exact ⟨1 + 0, Steady.check_bind (by simpa using done)⟩
      | some priority =>
          cases lane : staged.lane priority with
          | nil =>
              exact ⟨1 + 0, Steady.check_bind (by simpa [lane] using done)⟩
          | cons event rest =>
              rcases ih (staged.setLane rest priority) (creditAfter visibleCredit priority)
                (drained ++ [event]) with ⟨checks, steady⟩
              refine ⟨1 + (1 + checks), Steady.check_bind ?_⟩
              simp only [lane]
              refine Steady.check_bind ?_
              simpa using steady

/-- A drain that goes through is the plain drain; one that the control stops leaves the queue
unchanged. -/
theorem drainBatchChecked_cases (queue : EventBackpressureQueue) (max checks : Nat) :
    (∃ made, drainBatchChecked control max ⟨queue, checks⟩ =
        .ok (queue.drainBatch max).1 ⟨(queue.drainBatch max).2, made⟩) ∨
      ∃ error made, drainBatchChecked control max ⟨queue, checks⟩ =
        .error error ⟨queue, made⟩ := by
  rcases @steady_drainLoopChecked control (min max queue.pending) queue 0 [] with ⟨count, steady⟩
  have mutating : Steady control (queue.drainBatchMutatingChecked control max) (1 + count)
      (queue.drainBatch max) := Steady.check_bind (by simpa [drainBatch] using steady)
  simp only [drainBatchChecked]
  rw [Steady.check.bind_apply]
  split
  case h_2 => exact Or.inr ⟨_, _, rfl⟩
  case h_1 =>
    simp only [current, bind, EStateM.bind]
    have ran := mutating.bind_apply (fun staged => do
      check control
      install staged.2
      pure staged.1) ((⟨queue, checks⟩ : Clocked EventBackpressureQueue).advance 1)
    simp only [bind, EStateM.bind] at ran
    rw [Clocked.state_advance, ran]
    split
    case h_2 => exact Or.inr ⟨_, _, rfl⟩
    case h_1 =>
      cases answered : control
          (((⟨queue, checks⟩ : Clocked EventBackpressureQueue).advance 1).advance
            (1 + count)).checks with
      | none => exact Or.inl ⟨_, by simp only [check, answered]; rfl⟩
      | some error => exact Or.inr ⟨error, _, by simp only [check, answered]; rfl⟩

end Checked

section Drains

/-- The lanes from which a drain takes its events. -/
def drainOrder (queue : EventBackpressureQueue) (visibleCredit : Nat) : Nat → List EventPriority
  | 0 => []
  | count + 1 =>
      match queue.nextLane visibleCredit with
      | none => []
      | some priority =>
          match queue.lane priority with
          | [] => []
          | _ :: rest => priority :: drainOrder (queue.setLane rest priority)
              (creditAfter visibleCredit priority) count

/-- What a drain leaves as it was. -/
structure SameAccounts (queue after : EventBackpressureQueue) : Prop where
  maxPending : after.maxPending = queue.maxPending
  visibleBurst : after.visibleBurst = queue.visibleBurst
  dropped : after.dropped = queue.dropped
  coalesced : after.coalesced = queue.coalesced
  repairRequired : after.repairRequired = queue.repairRequired

theorem sameAccounts_setLane (queue : EventBackpressureQueue) (events : List FileEvent)
    (priority : EventPriority) : queue.SameAccounts (queue.setLane events priority) := by
  constructor <;> simp

theorem SameAccounts.trans {first second third : EventBackpressureQueue}
    (same : first.SameAccounts second) (later : second.SameAccounts third) :
    first.SameAccounts third where
  maxPending := later.maxPending.trans same.maxPending
  visibleBurst := later.visibleBurst.trans same.visibleBurst
  dropped := later.dropped.trans same.dropped
  coalesced := later.coalesced.trans same.coalesced
  repairRequired := later.repairRequired.trans same.repairRequired

/-- The loop of a drain takes the first events of each lane and nothing else. -/
structure Drains (queue : EventBackpressureQueue) (order : List EventPriority)
    (drained : List FileEvent) (after : EventBackpressureQueue) : Prop where
  length : order.length = drained.length
  pending : drained.length + after.pending = queue.pending
  same : queue.SameAccounts after
  lanes : ∀ lane, queue.lane lane = laneOf lane (order.zip drained) ++ after.lane lane

theorem drains_nothing (queue : EventBackpressureQueue) : queue.Drains [] [] queue where
  length := rfl
  pending := Nat.zero_add _
  same := ⟨rfl, rfl, rfl, rfl, rfl⟩
  lanes _ := rfl

theorem drains_first {queue after : EventBackpressureQueue} {priority : EventPriority}
    {event : FileEvent} {rest drained : List FileEvent} {order : List EventPriority}
    (lane : queue.lane priority = event :: rest)
    (drains : (queue.setLane rest priority).Drains order drained after) :
    queue.Drains (priority :: order) (event :: drained) after where
  length := congrArg (· + 1) drains.length
  pending := by
    have left := drains.pending
    have set := pending_setLane queue priority rest
    rw [lane] at set
    simp only [length_cons] at set ⊢
    omega
  same := (sameAccounts_setLane queue rest priority).trans drains.same
  lanes other := by
    have left := drains.lanes other
    by_cases same : priority = other
    · subst same
      simp only [lane_setLane, if_true] at left
      simp [lane, left, laneOf]
    · rw [lane_setLane, if_neg (Ne.symm same)] at left
      simpa [laneOf, same] using left

theorem drains_drainLoop (count : Nat) : ∀ (queue : EventBackpressureQueue) (visibleCredit : Nat),
    queue.Drains (queue.drainOrder visibleCredit count) (queue.drainLoop visibleCredit count).1
      (queue.drainLoop visibleCredit count).2 := by
  induction count with
  | zero => exact fun queue _ => drains_nothing queue
  | succ count ih =>
      intro queue visibleCredit
      simp only [drainOrder, drainLoop]
      cases queue.nextLane visibleCredit with
      | none => exact drains_nothing queue
      | some priority =>
          cases lane : queue.lane priority with
          | nil => simpa [lane] using drains_nothing queue
          | cons event rest =>
              simp only [lane]
              exact drains_first lane (ih _ _)

theorem drains_drainBatch (queue : EventBackpressureQueue) (max : Nat) :
    queue.Drains (queue.drainOrder 0 (min max queue.pending)) (queue.drainBatch max).1
      (queue.drainBatch max).2 :=
  drains_drainLoop _ queue 0

end Drains

section Enqueues

/-- The queue before an event is placed: the oldest event of a lane may have given way. -/
inductive GivesWay (queue : EventBackpressureQueue) : EventBackpressureQueue → Prop
  | room : GivesWay queue queue
  | oldest (lane : EventPriority) (event : FileEvent) (rest : List FileEvent)
      (waits : queue.lane lane = event :: rest) :
      GivesWay queue
        { queue.setLane rest lane with dropped := queue.dropped + 1, repairRequired := true }

theorem givesWay_makeRoom (queue : EventBackpressureQueue) (priority : EventPriority) :
    queue.GivesWay (queue.makeRoom priority).2 := by
  rw [makeRoom]
  split
  case isTrue => exact .room
  case isFalse =>
    split
    case h_1 event background waits => exact .oldest .background event background waits
    case h_2 =>
      split
      case isTrue => exact .room
      case isFalse =>
        split
        case h_1 => exact .room
        case h_2 event visible waits =>
          split
          case isTrue => exact .oldest .visible event visible waits
          case isFalse => exact .room

/-- What becomes of an event. -/
inductive Enqueues (queue : EventBackpressureQueue) (priority : EventPriority)
    (event : FileEvent) : EventBackpressureReport × EventBackpressureQueue → Prop
  | rescan (asked : event.kind = .rescan) :
      Enqueues queue priority event (⟨true, false, queue.pending, true⟩,
        { queue with
          visible := []
          background := [event]
          dropped := queue.dropped + queue.pending
          repairRequired := true })
  | merged (ordinary : event.kind ≠ .rescan) (before after : List FileEvent)
      (existing : FileEvent) (waits : queue.lane priority = before ++ existing :: after) :
      Enqueues queue priority event (⟨true, true, 0, queue.repairRequired⟩,
        { queue.setLane (before ++ coalescedEvent existing event :: after) priority with
          coalesced := queue.coalesced + 1 })
  | placed (ordinary : event.kind ≠ .rescan) (dropped : Nat) (roomy : EventBackpressureQueue)
      (gives : queue.GivesWay roomy) (room : roomy.pending < roomy.maxPending) :
      Enqueues queue priority event (⟨true, false, dropped, roomy.repairRequired⟩,
        roomy.setLane (roomy.lane priority ++ [event]) priority)
  | refused (ordinary : event.kind ≠ .rescan) (dropped : Nat) (roomy : EventBackpressureQueue)
      (gives : queue.GivesWay roomy) :
      Enqueues queue priority event (⟨false, false, dropped, true⟩,
        { roomy with dropped := roomy.dropped + 1, repairRequired := true })

theorem enqueue_cases (queue : EventBackpressureQueue) (priority : EventPriority)
    (event : FileEvent) : queue.Enqueues priority event (queue.enqueue priority event) := by
  rw [enqueue]
  split
  case h_1 asked => exact .rescan asked
  case h_2 ordinary =>
    split
    case h_1 events merged =>
      rcases coalesceIn_split merged with ⟨before, existing, after, waits, rfl⟩
      exact .merged ordinary before after existing waits
    case h_2 =>
      rw [placeOrRefuse]
      dsimp only
      split
      case isTrue => exact .refused ordinary _ _ (givesWay_makeRoom queue priority)
      case isFalse room =>
        exact .placed ordinary _ _ (givesWay_makeRoom queue priority) (Nat.not_le.mp room)

/-- What gave way is counted, and asks for a repair. -/
structure Yields (queue roomy : EventBackpressureQueue) : Prop where
  maxPending : roomy.maxPending = queue.maxPending
  visibleBurst : roomy.visibleBurst = queue.visibleBurst
  balanced : roomy.pending + roomy.dropped = queue.pending + queue.dropped
  fewer : roomy.pending ≤ queue.pending
  coalesced : roomy.coalesced = queue.coalesced
  repairs : queue.dropped < roomy.dropped → roomy.repairRequired = true
  kept : queue.repairRequired = true → roomy.repairRequired = true
  lanes : ∀ lane, ∃ count, roomy.lane lane = (queue.lane lane).drop count

theorem GivesWay.yields {queue roomy : EventBackpressureQueue} (gives : queue.GivesWay roomy) :
    queue.Yields roomy := by
  cases gives with
  | room => exact ⟨rfl, rfl, rfl, le_rfl, rfl, fun more => absurd more (lt_irrefl _), id,
      fun _ => ⟨0, rfl⟩⟩
  | oldest lane event rest waits =>
      have set := pending_setLane queue lane rest
      rw [waits, length_cons] at set
      refine ⟨by simp, by simp, ?_, ?_, by simp, fun _ => rfl, fun _ => rfl, ?_⟩
      · change (queue.setLane rest lane).pending + (queue.dropped + 1) = _
        omega
      · change (queue.setLane rest lane).pending ≤ _
        omega
      · intro other
        change ∃ count, (queue.setLane rest lane).lane other = _
        rw [lane_setLane]
        split
        case isTrue same => exact ⟨1, by simp [same, waits]⟩
        case isFalse => exact ⟨0, rfl⟩

end Enqueues

end EventBackpressureQueue

/-- An event that came to the queue, and the report about it. -/
structure Enqueued where
  priority : EventPriority
  event : FileEvent
  report : EventBackpressureReport

/-- The lane that an event belongs to: a rescan is queued in the background. -/
def Enqueued.lane (enqueued : Enqueued) : EventPriority :=
  match enqueued.event.kind with
  | .rescan => .background
  | _ => enqueued.priority

theorem Enqueued.lane_rescan {enqueued : Enqueued} (asked : enqueued.event.kind = .rescan) :
    enqueued.lane = .background := by
  simp [lane, asked]

theorem Enqueued.lane_ordinary {enqueued : Enqueued} (ordinary : enqueued.event.kind ≠ .rescan) :
    enqueued.lane = enqueued.priority := by
  rw [lane]
  split
  case h_1 asked => exact absurd asked ordinary
  case h_2 => rfl

/-- What came to a lane: what was queued in it, and what was merged with an event of it. -/
def arrivals (log : List Enqueued) (lane : EventPriority) : Line.Arrivals FileEvent where
  took time event := ∃ enqueued, log[time]? = some enqueued ∧ enqueued.event = event ∧
    enqueued.lane = lane ∧ enqueued.report.accepted = true ∧ enqueued.report.coalesced = false
  merged time event := ∃ enqueued, log[time]? = some enqueued ∧ enqueued.event = event ∧
    enqueued.lane = lane ∧ enqueued.report.coalesced = true

inductive QueueCall where
  | enqueue (priority : EventPriority) (event : FileEvent)
  | drain (max : Nat) (control : Control GfmError)

/-- A queue, what came to it and what was drained of it so far. -/
structure QueueLedger where
  queue : EventBackpressureQueue
  enqueued : List Enqueued
  drained : List (EventPriority × FileEvent)

namespace QueueLedger

def opened (maxPending visibleBurst : Nat) : QueueLedger := ⟨.new maxPending visibleBurst, [], []⟩

def call (ledger : QueueLedger) : QueueCall → QueueLedger
  | .enqueue priority event =>
      let (report, queue) := ledger.queue.enqueue priority event
      { ledger with queue, enqueued := ledger.enqueued ++ [⟨priority, event, report⟩] }
  | .drain max control =>
      match EventBackpressureQueue.drainBatchChecked control max ⟨ledger.queue, 0⟩ with
      | .ok events clocked =>
          { ledger with
            queue := clocked.state
            drained := ledger.drained ++
              (ledger.queue.drainOrder 0 (min max ledger.queue.pending)).zip events }
      | .error _ clocked => { ledger with queue := clocked.state }

def run (ledger : QueueLedger) (calls : List QueueCall) : QueueLedger := calls.foldl call ledger

/-- The accounts of the queue are right, and each lane is a line that is served in order. -/
structure Accounted (ledger : QueueLedger) : Prop where
  positive : 0 < ledger.queue.maxPending
  bounded : ledger.queue.pending ≤ ledger.queue.maxPending
  balanced : ledger.enqueued.length =
    ledger.drained.length + ledger.queue.pending + ledger.queue.dropped + ledger.queue.coalesced
  repairs : 0 < ledger.queue.dropped → ledger.queue.repairRequired = true
  inOrder : ∀ lane, Line.InOrder coalescedEvent (arrivals ledger.enqueued lane)
    ledger.enqueued.length (laneOf lane ledger.drained) (ledger.queue.lane lane)

theorem accounted_opened (maxPending visibleBurst : Nat) :
    (opened maxPending visibleBurst).Accounted where
  positive := Nat.lt_of_lt_of_le Nat.one_pos (Nat.le_max_right maxPending 1)
  bounded := Nat.zero_le _
  balanced := rfl
  repairs more := absurd more (lt_irrefl 0)
  inOrder lane := by cases lane <;> exact Line.InOrder.nil

section Steps

variable {ledger : QueueLedger}

theorem took_append {log : List Enqueued} {lane : EventPriority} {time : Nat} {event : FileEvent}
    (enqueued : Enqueued) (took : (arrivals log lane).took time event) :
    (arrivals (log ++ [enqueued]) lane).took time event := by
  rcases took with ⟨entry, found, kept⟩
  exact ⟨entry, by rw [getElem?_append_left (List.getElem?_eq_some_iff.mp found).1, found],
    kept⟩

theorem merged_append {log : List Enqueued} {lane : EventPriority} {time : Nat}
    {event : FileEvent} (enqueued : Enqueued) (merged : (arrivals log lane).merged time event) :
    (arrivals (log ++ [enqueued]) lane).merged time event := by
  rcases merged with ⟨entry, found, kept⟩
  exact ⟨entry, by rw [getElem?_append_left (List.getElem?_eq_some_iff.mp found).1, found],
    kept⟩

/-- A lane that nothing joins may lose its first events. -/
theorem inOrder_fewer {log : List Enqueued} {lane : EventPriority} {served waiting : List FileEvent}
    (inOrder : Line.InOrder coalescedEvent (arrivals log lane) log.length served waiting)
    (enqueued : Enqueued) (count : Nat) :
    Line.InOrder coalescedEvent (arrivals (log ++ [enqueued]) lane) (log ++ [enqueued]).length
      served (waiting.drop count) := by
  rw [length_append]
  exact (inOrder.lose count).mono (Nat.le_add_right _ _) (fun _ _ => took_append enqueued)
    fun _ _ => merged_append enqueued

/-- The event takes the last place of its lane, which may have lost its first events. -/
theorem inOrder_joined {log : List Enqueued} {served waiting : List FileEvent}
    {enqueued : Enqueued}
    (inOrder : Line.InOrder coalescedEvent (arrivals log enqueued.lane) log.length served waiting)
    (accepted : enqueued.report.accepted = true) (alone : enqueued.report.coalesced = false)
    (count : Nat) :
    Line.InOrder coalescedEvent (arrivals (log ++ [enqueued]) enqueued.lane)
      (log ++ [enqueued]).length served (waiting.drop count ++ [enqueued.event]) := by
  have known : Line.InOrder coalescedEvent (arrivals (log ++ [enqueued]) enqueued.lane) log.length
      served (waiting.drop count) := (inOrder.lose count).mono le_rfl
    (fun _ _ => took_append enqueued) fun _ _ => merged_append enqueued
  rw [length_append, length_singleton]
  exact known.join ⟨enqueued, by simp, rfl, rfl, accepted, alone⟩

/-- The event is merged with one of its lane. -/
theorem inOrder_merged {log : List Enqueued} {served before after : List FileEvent}
    {existing : FileEvent} {enqueued : Enqueued}
    (inOrder : Line.InOrder coalescedEvent (arrivals log enqueued.lane) log.length served
      (before ++ existing :: after))
    (merged : enqueued.report.coalesced = true) :
    Line.InOrder coalescedEvent (arrivals (log ++ [enqueued]) enqueued.lane)
      (log ++ [enqueued]).length served
      (before ++ coalescedEvent existing enqueued.event :: after) := by
  have known : Line.InOrder coalescedEvent (arrivals (log ++ [enqueued]) enqueued.lane) log.length
      served (before ++ existing :: after) := inOrder.mono le_rfl
    (fun _ _ => took_append enqueued) fun _ _ => merged_append enqueued
  rw [length_append, length_singleton]
  exact known.mergeAt ⟨enqueued, by simp, rfl, rfl, merged⟩

theorem accounted_rescan (accounted : ledger.Accounted) (enqueued : Enqueued)
    (asked : enqueued.event.kind = .rescan) (accepted : enqueued.report.accepted = true)
    (alone : enqueued.report.coalesced = false) :
    Accounted
      { ledger with
        queue := { ledger.queue with
          visible := []
          background := [enqueued.event]
          dropped := ledger.queue.dropped + ledger.queue.pending
          repairRequired := true }
        enqueued := ledger.enqueued ++ [enqueued] } where
  positive := accounted.positive
  bounded := accounted.positive
  balanced := by
    have balanced := accounted.balanced
    simp only [length_append, length_singleton, EventBackpressureQueue.pending,
      length_nil] at balanced ⊢
    omega
  repairs _ := rfl
  inOrder lane := by
    have background := Enqueued.lane_rescan asked
    cases lane with
    | visible =>
        have left := inOrder_fewer (accounted.inOrder .visible) enqueued
          (ledger.queue.lane .visible).length
        simpa [EventBackpressureQueue.lane] using left
    | background =>
        have joined := inOrder_joined (background.symm ▸ accounted.inOrder .background) accepted
          alone (ledger.queue.lane .background).length
        rw [background] at joined
        simpa [EventBackpressureQueue.lane] using joined

theorem accounted_merged (accounted : ledger.Accounted) (enqueued : Enqueued)
    {before after : List FileEvent} {existing : FileEvent}
    (ordinary : enqueued.event.kind ≠ .rescan)
    (waits : ledger.queue.lane enqueued.priority = before ++ existing :: after)
    (merged : enqueued.report.coalesced = true) :
    Accounted
      { ledger with
        queue := { ledger.queue.setLane
            (before ++ coalescedEvent existing enqueued.event :: after) enqueued.priority with
          coalesced := ledger.queue.coalesced + 1 }
        enqueued := ledger.enqueued ++ [enqueued] } := by
  have same : (ledger.queue.setLane (before ++ coalescedEvent existing enqueued.event :: after)
      enqueued.priority).pending = ledger.queue.pending := by
    have set := pending_setLane ledger.queue enqueued.priority
      (before ++ coalescedEvent existing enqueued.event :: after)
    rw [waits] at set
    simp only [length_append, length_cons] at set
    omega
  have balanced := accounted.balanced
  refine ⟨?_, ?_, ?_, ?_, ?_⟩
  · simpa using accounted.positive
  · change EventBackpressureQueue.pending (ledger.queue.setLane _ _) ≤ _
    simpa [same] using accounted.bounded
  · change _ = _ + EventBackpressureQueue.pending (ledger.queue.setLane _ _) + _ + _
    simp only [length_append, length_singleton, same, dropped_setLane]
    omega
  · simpa using accounted.repairs
  · intro lane
    change Line.InOrder _ _ _ _ ((ledger.queue.setLane _ _).lane lane)
    have belongs := Enqueued.lane_ordinary ordinary
    rw [lane_setLane]
    split
    case isTrue here =>
      have known := accounted.inOrder enqueued.lane
      rw [belongs, waits, ← belongs] at known
      have changed := inOrder_merged known merged
      rw [belongs, ← here] at changed
      exact changed
    case isFalse => simpa using inOrder_fewer (accounted.inOrder lane) enqueued 0

theorem accounted_placed (accounted : ledger.Accounted) (enqueued : Enqueued)
    {roomy : EventBackpressureQueue} (ordinary : enqueued.event.kind ≠ .rescan)
    (yields : ledger.queue.Yields roomy) (room : roomy.pending < roomy.maxPending)
    (accepted : enqueued.report.accepted = true) (alone : enqueued.report.coalesced = false) :
    Accounted
      { ledger with
        queue := roomy.setLane (roomy.lane enqueued.priority ++ [enqueued.event])
          enqueued.priority
        enqueued := ledger.enqueued ++ [enqueued] } := by
  have more : (roomy.setLane (roomy.lane enqueued.priority ++ [enqueued.event])
      enqueued.priority).pending = roomy.pending + 1 := by
    have set := pending_setLane roomy enqueued.priority
      (roomy.lane enqueued.priority ++ [enqueued.event])
    simp only [length_append, length_singleton] at set
    omega
  have balanced := accounted.balanced
  have yielded := yields.balanced
  refine ⟨?_, ?_, ?_, ?_, ?_⟩
  · simpa [yields.maxPending] using accounted.positive
  · simpa [more] using room
  · simp only [length_append, length_singleton, more, dropped_setLane,
      coalesced_setLane, yields.coalesced]
    omega
  · intro more
    rw [dropped_setLane] at more
    rw [repairRequired_setLane]
    rcases Nat.eq_zero_or_pos ledger.queue.dropped with none | some
    · exact yields.repairs (none ▸ more)
    · exact yields.kept (accounted.repairs some)
  · intro lane
    have belongs := Enqueued.lane_ordinary ordinary
    rw [lane_setLane]
    split
    case isTrue here =>
      rcases yields.lanes enqueued.priority with ⟨count, left⟩
      have joined := inOrder_joined (accounted.inOrder enqueued.lane) accepted alone count
      rw [belongs, ← left, ← here] at joined
      rw [← here]
      exact joined
    case isFalse =>
      rcases yields.lanes lane with ⟨count, left⟩
      rw [left]
      exact inOrder_fewer (accounted.inOrder lane) enqueued count

theorem accounted_refused (accounted : ledger.Accounted) (enqueued : Enqueued)
    {roomy : EventBackpressureQueue} (yields : ledger.queue.Yields roomy) :
    Accounted
      { ledger with
        queue := { roomy with dropped := roomy.dropped + 1, repairRequired := true }
        enqueued := ledger.enqueued ++ [enqueued] } := by
  have balanced := accounted.balanced
  have yielded := yields.balanced
  refine ⟨?_, ?_, ?_, fun _ => rfl, ?_⟩
  · simpa [yields.maxPending] using accounted.positive
  · change roomy.pending ≤ roomy.maxPending
    rw [yields.maxPending]
    exact yields.fewer.trans accounted.bounded
  · change _ = ledger.drained.length + roomy.pending + (roomy.dropped + 1) + roomy.coalesced
    rw [length_append, length_singleton, yields.coalesced]
    omega
  · intro lane
    rcases yields.lanes lane with ⟨count, left⟩
    change Line.InOrder _ _ _ _ (roomy.lane lane)
    rw [left]
    exact inOrder_fewer (accounted.inOrder lane) enqueued count

theorem Accounted.enqueue (accounted : ledger.Accounted) (priority : EventPriority)
    (event : FileEvent) : (ledger.call (.enqueue priority event)).Accounted := by
  have result := ledger.queue.enqueue_cases priority event
  simp only [call]
  generalize ledger.queue.enqueue priority event = answer at result ⊢
  cases result with
  | rescan asked => exact accounted_rescan accounted ⟨priority, event, _⟩ asked rfl rfl
  | merged ordinary before after existing waits =>
      exact accounted_merged accounted ⟨priority, event, _⟩ ordinary waits rfl
  | placed ordinary dropped roomy gives room =>
      exact accounted_placed accounted ⟨priority, event, _⟩ ordinary gives.yields room rfl rfl
  | refused ordinary dropped roomy gives =>
      exact accounted_refused accounted ⟨priority, event, _⟩ gives.yields

theorem Accounted.drain (accounted : ledger.Accounted) (max : Nat)
    (control : Control GfmError) : (ledger.call (.drain max control)).Accounted := by
  rw [call]
  rcases @EventBackpressureQueue.drainBatchChecked_cases control ledger.queue max 0 with
    ⟨made, ran⟩ | ⟨error, made, ran⟩
  · have drains := ledger.queue.drains_drainBatch max
    have pending := drains.pending
    have balanced := accounted.balanced
    have same := drains.same
    rw [ran]
    refine ⟨?_, ?_, ?_, ?_, ?_⟩
    · simpa [same.maxPending] using accounted.positive
    · have bounded := accounted.bounded
      simp only [same.maxPending]
      omega
    · simp only [length_append, length_zip, drains.length, same.dropped,
        same.coalesced, Nat.min_self]
      omega
    · simpa [same.dropped, same.repairRequired] using accounted.repairs
    · intro lane
      have known := accounted.inOrder lane
      have taken := drains.lanes lane
      have served := known.serve
        (laneOf lane ((ledger.queue.drainOrder 0 (min max ledger.queue.pending)).zip
          (ledger.queue.drainBatch max).1)).length
      rw [taken, take_left, drop_left] at served
      simpa [laneOf] using served
  · rw [ran]
    exact accounted

theorem Accounted.run (accounted : ledger.Accounted) (calls : List QueueCall) :
    (ledger.run calls).Accounted := by
  induction calls generalizing ledger with
  | nil => exact accounted
  | cons call calls ih =>
      cases call with
      | enqueue priority event => exact ih (accounted.enqueue priority event)
      | drain max control => exact ih (accounted.drain max control)

theorem maxPending_call (call : QueueCall) :
    (ledger.call call).queue.maxPending = ledger.queue.maxPending := by
  cases call with
  | enqueue priority event =>
      have result := ledger.queue.enqueue_cases priority event
      simp only [QueueLedger.call]
      generalize ledger.queue.enqueue priority event = answer at result ⊢
      cases result with
      | rescan asked => rfl
      | merged ordinary before after existing waits => simp
      | placed ordinary dropped roomy gives room => simp [gives.yields.maxPending]
      | refused ordinary dropped roomy gives => simp [gives.yields.maxPending]
  | drain max control =>
      rw [QueueLedger.call]
      rcases @EventBackpressureQueue.drainBatchChecked_cases control ledger.queue max 0 with
        ⟨made, ran⟩ | ⟨error, made, ran⟩
      · rw [ran]
        exact (ledger.queue.drains_drainBatch max).same.maxPending
      · rw [ran]

theorem maxPending_run (calls : List QueueCall) :
    (ledger.run calls).queue.maxPending = ledger.queue.maxPending := by
  induction calls generalizing ledger with
  | nil => rfl
  | cons call calls ih => exact ih.trans (maxPending_call call)

end Steps

/-- Whatever is enqueued and drained, the accounts are right and the capacity is that of the start;
a drain that fails changes nothing. -/
theorem accounted_run (maxPending visibleBurst : Nat) (calls : List QueueCall) :
    ((opened maxPending visibleBurst).run calls).Accounted ∧
      ((opened maxPending visibleBurst).run calls).queue.maxPending = max maxPending 1 ∧
      ∀ max control error clocked,
        EventBackpressureQueue.drainBatchChecked control max
            ⟨((opened maxPending visibleBurst).run calls).queue, 0⟩ = .error error clocked →
          clocked.state = ((opened maxPending visibleBurst).run calls).queue := by
  refine ⟨(accounted_opened maxPending visibleBurst).run calls, maxPending_run calls, ?_⟩
  intro max control error clocked failed
  rcases EventBackpressureQueue.drainBatchChecked_cases _ max 0 with
    ⟨made, ran⟩ | ⟨stopped, made, ran⟩
  · rw [ran] at failed
    cases failed
  · rw [ran] at failed
    cases failed
    rfl

end QueueLedger

end Gfm.Index

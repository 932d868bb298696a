import Gfm.Index.QueueAccounting

/-!
# How long the background lane waits

While events wait in the background lane, a drain takes at most a burst of visible events before it
takes one of them. The credit that counts the visible events starts anew with each drain, so over
many drains the background lane waits as long as the drains are short. It waits for no more than a
burst exactly where each drain leaves it room.
-/

namespace Gfm.Index

open List

namespace EventBackpressureQueue

/-- The visible events that went before the background lane, after one more event of a drain. They
count from when the lane gave an event or was empty. -/
def waitAfter (queue : EventBackpressureQueue) (waited : Nat) : EventPriority → Nat
  | .visible => if queue.background = [] then 0 else waited + 1
  | .background => 0

/-- How long the background lane has waited, after each event of a drain. -/
def drainWaits (queue : EventBackpressureQueue) (visibleCredit waited : Nat) : Nat → List Nat
  | 0 => []
  | count + 1 =>
      match queue.nextLane visibleCredit with
      | none => []
      | some priority =>
          match queue.lane priority with
          | [] => []
          | _ :: rest =>
              queue.waitAfter waited priority ::
                drainWaits (queue.setLane rest priority) (creditAfter visibleCredit priority)
                  (queue.waitAfter waited priority) count

/-- Within one drain the credit bounds the wait. -/
theorem drainWaits_le_of_credit (count : Nat) :
    ∀ (queue : EventBackpressureQueue) (visibleCredit waited : Nat), waited ≤ visibleCredit →
      ∀ wait ∈ queue.drainWaits visibleCredit waited count, wait ≤ queue.visibleBurst := by
  induction count with
  | zero => exact fun _ _ _ _ wait listed => by cases listed
  | succ count ih =>
      intro queue visibleCredit waited within wait listed
      rw [drainWaits] at listed
      split at listed
      case h_1 => cases listed
      case h_2 priority next =>
        split at listed
        case h_1 => cases listed
        case h_2 first rest lane =>
          have bounds : queue.waitAfter waited priority ≤ queue.visibleBurst ∧
              queue.waitAfter waited priority ≤ creditAfter visibleCredit priority := by
            cases priority with
            | background => simp [waitAfter]
            | visible =>
                simp only [waitAfter, creditAfter]
                split
                case isTrue => simp
                case isFalse some =>
                  -- A waiting background lane lets a visible event go first only on credit.
                  have credit : visibleCredit < queue.visibleBurst := by
                    by_contra spent
                    simp [nextLane, spent, some] at next
                  omega
          rcases mem_cons.mp listed with rfl | later
          · exact bounds.1
          · have kept := ih _ _ _ bounds.2 wait later
            rwa [visibleBurst_setLane] at kept

/-- A background lane that is empty does not wait. -/
theorem drainWaits_of_idle (count : Nat) :
    ∀ (queue : EventBackpressureQueue) (visibleCredit waited : Nat), queue.background = [] →
      ∀ wait ∈ queue.drainWaits visibleCredit waited count, wait = 0 := by
  induction count with
  | zero => exact fun _ _ _ _ wait listed => by cases listed
  | succ count ih =>
      intro queue visibleCredit waited idle wait listed
      rw [drainWaits] at listed
      split at listed
      case h_1 => cases listed
      case h_2 priority next =>
        split at listed
        case h_1 => cases listed
        case h_2 first rest lane =>
          cases priority with
          | background =>
              rw [EventBackpressureQueue.lane, idle] at lane
              cases lane
          | visible =>
              rcases mem_cons.mp listed with rfl | later
              · simp [waitAfter, idle]
              · exact ih (queue.setLane rest .visible) _ _ idle wait later

/-- A drain from a waiting background lane keeps it waiting for no more than a burst exactly where
the visible events that it takes first leave room. -/
theorem drainWaits_le_iff (count : Nat) :
    ∀ (queue : EventBackpressureQueue) (visibleCredit waited : Nat),
      waited ≤ queue.visibleBurst → queue.background ≠ [] →
      ((∀ wait ∈ queue.drainWaits visibleCredit waited count, wait ≤ queue.visibleBurst) ↔
        waited + min count (min queue.visible.length (queue.visibleBurst - visibleCredit)) ≤
          queue.visibleBurst) := by
  induction count with
  | zero =>
      intro queue visibleCredit waited within _
      simpa [drainWaits] using within
  | succ count ih =>
      intro queue visibleCredit waited within waits
      by_cases first : visibleCredit < queue.visibleBurst ∧ queue.visible ≠ []
      · have next : queue.nextLane visibleCredit = some .visible := by simp [nextLane, first]
        cases lane : queue.visible with
        | nil => exact absurd lane first.2
        | cons event rest =>
            have again := ih (queue.setLane rest .visible) (visibleCredit + 1) (waited + 1)
            simp only [setLane] at again
            simp only [drainWaits, next, EventBackpressureQueue.lane, lane, setLane, waitAfter,
              creditAfter, waits, if_false, forall_mem_cons, length_cons]
            constructor
            · rintro ⟨here, later⟩
              have room := (again here waits).mp later
              omega
            · intro room
              have here : waited + 1 ≤ queue.visibleBurst := by omega
              exact ⟨here, (again here waits).mpr (by omega)⟩
      · have next : queue.nextLane visibleCredit = some .background := by
          simp only [nextLane, first, if_false, if_pos waits]
        have none : min queue.visible.length (queue.visibleBurst - visibleCredit) = 0 := by
          rcases not_and_or.mp first with spent | empty
          · omega
          · simp [not_not.mp empty]
        cases lane : queue.background with
        | nil => exact absurd lane waits
        | cons event rest =>
            have later := drainWaits_le_of_credit count (queue.setLane rest .background) 0 0 le_rfl
            simp only [setLane] at later
            simp only [drainWaits, next, EventBackpressureQueue.lane, lane, setLane, waitAfter,
              creditAfter, forall_mem_cons, none, Nat.min_zero, Nat.add_zero]
            exact iff_of_true ⟨Nat.zero_le _, later⟩ within

end EventBackpressureQueue

inductive BatchCall where
  | enqueue (priority : EventPriority) (event : FileEvent)
  | drainBatch (max : Nat)

/-- A queue, how long its background lane waits by now, and how long it had waited after each event
that was drained. -/
structure FairnessRun where
  queue : EventBackpressureQueue
  waited : Nat
  waits : List Nat

namespace FairnessRun

def opened (maxPending visibleBurst : Nat) : FairnessRun := ⟨.new maxPending visibleBurst, 0, []⟩

def call (run : FairnessRun) : BatchCall → FairnessRun
  | .enqueue priority event =>
      let queue := (run.queue.enqueue priority event).2
      { run with queue, waited := if queue.background = [] then 0 else run.waited }
  | .drainBatch max =>
      let waits := run.queue.drainWaits 0 run.waited (min max run.queue.pending)
      { queue := (run.queue.drainBatch max).2
        waited := waits.getLastD run.waited
        waits := run.waits ++ waits }

def after (run : FairnessRun) (calls : List BatchCall) : FairnessRun := calls.foldl call run

/-- The background lane never waits for more than a burst. -/
def Unstarved (run : FairnessRun) : Prop := ∀ wait ∈ run.waits, wait ≤ run.queue.visibleBurst

/-- The visible events that a drain takes before it turns to the background lane leave the lane
within its burst, or the lane does not wait. -/
def LeavesRoom (run : FairnessRun) : BatchCall → Prop
  | .enqueue _ _ => True
  | .drainBatch max => run.queue.background = [] ∨
      run.waited + min max (min run.queue.visible.length run.queue.visibleBurst) ≤
        run.queue.visibleBurst

variable {run : FairnessRun}

theorem visibleBurst_call (run : FairnessRun) (call : BatchCall) :
    (run.call call).queue.visibleBurst = run.queue.visibleBurst := by
  cases call with
  | enqueue priority event =>
      have result := run.queue.enqueue_cases priority event
      simp only [FairnessRun.call]
      generalize run.queue.enqueue priority event = answer at result ⊢
      cases result with
      | rescan asked => rfl
      | merged ordinary before after existing waits => simp
      | placed ordinary dropped roomy gives room => simp [gives.yields.visibleBurst]
      | refused ordinary dropped roomy gives => simp [gives.yields.visibleBurst]
  | drainBatch max => exact (run.queue.drains_drainBatch max).same.visibleBurst

/-- What waits now is one of the waits, and nothing at the start. -/
def Recorded (run : FairnessRun) : Prop := run.waited = 0 ∨ run.waited ∈ run.waits

theorem recorded_call (recorded : run.Recorded) (call : BatchCall) :
    (run.call call).Recorded := by
  cases call with
  | enqueue priority event =>
      simp only [Recorded, FairnessRun.call]
      split
      case isTrue => exact Or.inl rfl
      case isFalse => exact recorded
  | drainBatch max =>
      simp only [Recorded, FairnessRun.call]
      rcases eq_nil_or_concat (run.queue.drainWaits 0 run.waited (min max run.queue.pending))
        with none | ⟨before, last, some⟩
      · simpa [none, Recorded] using recorded
      · right
        simp [some]

/-- A drain with nothing in the background keeps nothing waiting. -/
theorem unstarved_call_iff (recorded : run.Recorded) (call : BatchCall) :
    (run.call call).Unstarved ↔ run.Unstarved ∧ run.LeavesRoom call := by
  cases call with
  | enqueue priority event =>
      have same := visibleBurst_call run (.enqueue priority event)
      simp only [Unstarved, same, LeavesRoom, and_true]
      rfl
  | drainBatch max =>
      have same := visibleBurst_call run (.drainBatch max)
      simp only [Unstarved, same, LeavesRoom]
      simp only [FairnessRun.call, mem_append, or_imp, forall_and]
      refine and_congr_right fun unstarved => ?_
      by_cases idle : run.queue.background = []
      · refine iff_of_true (fun wait listed => ?_) (Or.inl idle)
        rw [EventBackpressureQueue.drainWaits_of_idle _ _ _ _ idle wait listed]
        exact Nat.zero_le _
      · have within : run.waited ≤ run.queue.visibleBurst := by
          rcases recorded with none | known
          · omega
          · exact unstarved _ known
        have visible : run.queue.visible.length ≤ run.queue.pending := Nat.le_add_right _ _
        rw [EventBackpressureQueue.drainWaits_le_iff _ _ _ _ within idle]
        simp only [idle, false_or]
        omega

theorem recorded_after (recorded : run.Recorded) (calls : List BatchCall) :
    (run.after calls).Recorded := by
  induction calls generalizing run with
  | nil => exact recorded
  | cons call calls ih => exact ih (recorded_call recorded call)

theorem after_append (run : FairnessRun) (calls : List BatchCall) (call : BatchCall) :
    run.after (calls ++ [call]) = (run.after calls).call call := by
  simp [after]

/-- The background lane waits for no more than a burst of visible events exactly where each drain,
from the state in which it finds the queue, leaves it room. -/
theorem unstarved_iff (maxPending visibleBurst : Nat) (calls : List BatchCall) :
    ((opened maxPending visibleBurst).after calls).Unstarved ↔
      ∀ before call later, calls = before ++ call :: later →
        ((opened maxPending visibleBurst).after before).LeavesRoom call := by
  have recorded : (opened maxPending visibleBurst).Recorded := Or.inl rfl
  induction calls using List.reverseRecOn with
  | nil => exact iff_of_true (fun wait listed => by cases listed) (by simp)
  | append_singleton calls last ih =>
      rw [after_append, unstarved_call_iff (recorded_after recorded calls)]
      constructor
      · rintro ⟨unstarved, room⟩ before call later split
        have earlier := ih.mp unstarved
        rcases eq_nil_or_concat later with rfl | ⟨rest, final, rfl⟩
        · rcases append_inj' split rfl with ⟨rfl, same⟩
          rw [← singleton_inj.mp same]
          exact room
        · rw [concat_eq_append, ← cons_append, ← append_assoc] at split
          exact earlier before call rest (append_inj' split rfl).1
      · intro room
        refine ⟨ih.mpr fun before call later split => ?_, room calls last [] rfl⟩
        exact room before call (later ++ [last]) (by simp [split])

/-- Two drains of one event each keep the background lane waiting for two visible events, where the
burst is one. -/
theorem opened_starved :
    ¬((opened 8 1).after [.enqueue .visible ⟨['a'], .create⟩, .enqueue .visible ⟨['b'], .create⟩,
      .enqueue .background ⟨['c'], .create⟩, .drainBatch 1, .drainBatch 1]).Unstarved := by
  intro unstarved
  have waits := unstarved 2 (by decide)
  revert waits
  decide

end FairnessRun

end Gfm.Index

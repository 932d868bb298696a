import Mathlib

/-!
# States gathered by key

A fold over items keeps one state for each key, in the order in which the keys were first seen: an
item goes into the state of its key, and starts one where there is none. The state of a key is what
the items of that key make of it, whatever stands between them.
-/

namespace Gathering

open List

universe u v w

/-- How items are keyed, and how the state of a key is started and continued. -/
structure Scheme (Item : Type u) (State : Type v) (Key : Type w) where
  key : Item → Key
  own : State → Key
  start : Item → State
  push : State → Item → State
  own_start : ∀ item, own (start item) = key item
  own_push : ∀ state item, own (push state item) = own state

namespace Scheme

variable {Item : Type u} {State : Type v} {Key : Type w} (scheme : Scheme Item State Key)

/-- The state of a key after one more of its items. -/
def take (state : Option State) (item : Item) : Option State :=
  some (state.elim (scheme.start item) fun state => scheme.push state item)

/-- What items of one key make. -/
def summary (items : List Item) : Option State := items.foldl scheme.take none

theorem summary_append (items : List Item) (item : Item) :
    scheme.summary (items ++ [item]) = scheme.take (scheme.summary items) item := by
  simp [summary]

variable [DecidableEq Key]

def absorb (item : Item) : List State → List State
  | [] => [scheme.start item]
  | state :: states =>
      if scheme.own state = scheme.key item then scheme.push state item :: states
      else state :: absorb item states

def gather (items : List Item) : List State :=
  items.foldl (fun states item => scheme.absorb item states) []

/-- The items of a key. -/
def ofKey (items : List Item) (key : Key) : List Item :=
  items.filter fun item => scheme.key item = key

variable {scheme}

theorem gather_append (items : List Item) (item : Item) :
    scheme.gather (items ++ [item]) = scheme.absorb item (scheme.gather items) := by
  simp [gather]

/-- Any function that absorbs an item in this way gathers the same states. -/
theorem foldl_eq_gather (scheme : Scheme Item State Key) (take : Item → List State → List State)
    (nil : ∀ item, take item [] = [scheme.start item])
    (cons : ∀ item state states, take item (state :: states) =
      if scheme.own state = scheme.key item then scheme.push state item :: states
      else state :: take item states) (items : List Item) :
    items.foldl (fun states item => take item states) [] = scheme.gather items := by
  have same : ∀ item states, take item states = scheme.absorb item states := by
    intro item states
    induction states with
    | nil => exact nil item
    | cons state states ih => rw [cons, absorb, ih]
  simp only [gather, same]

theorem map_own_absorb (item : Item) (states : List State) :
    (scheme.absorb item states).map scheme.own =
      if scheme.key item ∈ states.map scheme.own then states.map scheme.own
      else states.map scheme.own ++ [scheme.key item] := by
  induction states with
  | nil => simp [absorb, scheme.own_start]
  | cons state states ih =>
      unfold absorb
      by_cases same : scheme.own state = scheme.key item
      · simp [same, scheme.own_push]
      · have differs : ¬scheme.key item = scheme.own state := fun eq => same eq.symm
        simp only [same, if_false, map_cons, ih, mem_cons, differs, false_or]
        split
        · rfl
        · rfl

theorem nodup_gather (scheme : Scheme Item State Key) (items : List Item) :
    ((scheme.gather items).map scheme.own).Nodup := by
  induction items using List.reverseRecOn with
  | nil => simp [gather]
  | append_singleton items item ih =>
      rw [gather_append, map_own_absorb]
      split
      case isTrue _ => exact ih
      case isFalse absent =>
        refine nodup_append'.mpr ⟨ih, nodup_singleton _, ?_⟩
        intro other before last
        rw [mem_singleton] at last
        exact absent (last ▸ before)

theorem find?_absorb (item : Item) (states : List State) (key : Key) :
    (scheme.absorb item states).find? (fun state => decide (scheme.own state = key)) =
      if scheme.key item = key then
        scheme.take (states.find? fun state => decide (scheme.own state = key)) item
      else states.find? fun state => decide (scheme.own state = key) := by
  induction states with
  | nil =>
      by_cases this : scheme.key item = key
      · simp [absorb, this, scheme.own_start, take]
      · simp [absorb, this, scheme.own_start]
  | cons state states ih =>
      unfold absorb
      by_cases same : scheme.own state = scheme.key item
      · by_cases this : scheme.key item = key
        · simp [same, this, scheme.own_push, take]
        · simp [same, this, scheme.own_push]
      · by_cases this : scheme.key item = key
        · have differs : ¬scheme.own state = key := fun eq => same (eq.trans this.symm)
          simp only [if_neg same, find?_cons, differs, decide_false, ih]
        · by_cases here : scheme.own state = key
          · have differs : ¬key = scheme.key item := fun eq => this eq.symm
            simp [here, differs, this]
          · simp only [if_neg same, find?_cons, here, decide_false, ih]

/-- The state of a key is made by the items of the key alone. -/
theorem find?_gather (items : List Item) (key : Key) :
    (scheme.gather items).find? (fun state => decide (scheme.own state = key)) =
      scheme.summary (scheme.ofKey items key) := by
  induction items using List.reverseRecOn with
  | nil => rfl
  | append_singleton items item ih =>
      rw [gather_append, find?_absorb, ih, ofKey, ofKey, filter_append]
      by_cases this : scheme.key item = key
      · rw [if_pos this, filter_singleton, decide_eq_true this, cond_true, summary_append]
      · rw [if_neg this, filter_singleton, decide_eq_false this, cond_false, append_nil]

theorem mem_gather {items : List Item} {state : State} : state ∈ scheme.gather items ↔
    scheme.summary (scheme.ofKey items (scheme.own state)) = some state := by
  rw [← find?_gather]
  constructor
  · intro member
    cases found : (scheme.gather items).find? fun other =>
        decide (scheme.own other = scheme.own state) with
    | none => simpa using find?_eq_none.mp found state member
    | some other =>
        have same : scheme.own other = scheme.own state := by simpa using find?_some found
        rw [inj_on_of_nodup_map (scheme.nodup_gather items)
          (mem_of_find?_eq_some found) member same]
  · exact mem_of_find?_eq_some

end Scheme

end Gathering

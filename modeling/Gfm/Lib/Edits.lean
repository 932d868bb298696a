import Mathlib.Data.Set.Basic
import Mathlib.Tactic.Tauto

/-!
# Edits that may change places

An action takes items out of a store and puts others in, and which ones depends on a part of the
store only. Two actions that leave alone what the other reads, and take out nothing that the
other puts in, may change places; an action that takes out whatever an earlier one has done
supersedes it.
-/

namespace Edits

universe u

variable {Item : Type u}

structure Edit (Item : Type u) where
  taken : Item → Prop
  put : Set Item

def Edit.apply (edit : Edit Item) (store : Set Item) : Set Item :=
  {item | item ∈ edit.put ∨ (item ∈ store ∧ ¬edit.taken item)}

/-- What an action does depends on the items that it reads. -/
structure Action (Item : Type u) where
  reads : Item → Prop
  edit : Set Item → Edit Item
  local_edit : ∀ store other,
    (∀ item, reads item → (item ∈ store ↔ item ∈ other)) → edit store = edit other

namespace Action

variable {first second : Action Item} {store : Set Item}

def run (action : Action Item) (store : Set Item) : Set Item := (action.edit store).apply store

theorem mem_run {action : Action Item} {item : Item} : item ∈ action.run store ↔
    item ∈ (action.edit store).put ∨ (item ∈ store ∧ ¬(action.edit store).taken item) := Iff.rfl

/-- Neither action disturbs what the other reads or puts in. -/
structure Independent (first second : Action Item) (store : Set Item) : Prop where
  firstReads : ∀ item, first.reads item → (item ∈ second.run store ↔ item ∈ store)
  secondReads : ∀ item, second.reads item → (item ∈ first.run store ↔ item ∈ store)
  firstSpared : ∀ item ∈ (first.edit store).put,
    item ∈ (second.edit store).put ∨ ¬(second.edit store).taken item
  secondSpared : ∀ item ∈ (second.edit store).put,
    item ∈ (first.edit store).put ∨ ¬(first.edit store).taken item

theorem mem_run_run (reads : ∀ item, second.reads item → (item ∈ first.run store ↔ item ∈ store))
    (item : Item) : item ∈ second.run (first.run store) ↔
      item ∈ (second.edit store).put ∨
        ((item ∈ (first.edit store).put ∨ (item ∈ store ∧ ¬(first.edit store).taken item)) ∧
          ¬(second.edit store).taken item) := by
  rw [mem_run, second.local_edit (first.run store) store reads, mem_run]

theorem Independent.swap (independent : Independent first second store) :
    second.run (first.run store) = first.run (second.run store) := by
  ext item
  rw [mem_run_run independent.secondReads, mem_run_run independent.firstReads]
  have firstSpared := independent.firstSpared item
  have secondSpared := independent.secondSpared item
  tauto

/-- The second action takes out whatever the first has done. -/
structure Supersedes (first second : Action Item) (store : Set Item) : Prop where
  reads : ∀ item, second.reads item → (item ∈ first.run store ↔ item ∈ store)
  taken : ∀ item ∈ store, (first.edit store).taken item →
    item ∈ (second.edit store).put ∨ (second.edit store).taken item
  put : ∀ item ∈ (first.edit store).put,
    item ∈ (second.edit store).put ∨ (second.edit store).taken item

theorem Supersedes.run_run (supersedes : Supersedes first second store) :
    second.run (first.run store) = second.run store := by
  ext item
  rw [mem_run_run supersedes.reads, mem_run]
  have taken := supersedes.taken item
  have put := supersedes.put item
  tauto

def runAll (actions : List (Action Item)) (store : Set Item) : Set Item :=
  actions.foldl (fun store action => action.run store) store

theorem runAll_append (actions others : List (Action Item)) (store : Set Item) :
    runAll (actions ++ others) store = runAll others (runAll actions store) :=
  List.foldl_append

/-- The late action is independent of each of these where it would come after it. -/
def Overtakes (late : Action Item) : List (Action Item) → Set Item → Prop
  | [], _ => True
  | first :: rest, store => Independent first late store ∧ Overtakes late rest (first.run store)

theorem runAll_overtakes {late : Action Item} {between : List (Action Item)} :
    ∀ {store : Set Item}, Overtakes late between store →
      runAll (between ++ [late]) store = runAll (late :: between) store := by
  induction between with
  | nil => exact fun _ => rfl
  | cons first rest ih =>
      intro store overtakes
      rcases overtakes with ⟨independent, later⟩
      calc runAll (first :: rest ++ [late]) store
          = runAll (rest ++ [late]) (first.run store) := rfl
        _ = runAll rest (late.run (first.run store)) := ih later
        _ = runAll rest (first.run (late.run store)) := by rw [independent.swap]

end Action

end Edits

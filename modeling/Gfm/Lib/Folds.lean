import Mathlib

/-!
# Folds that may fail

A fold whose steps may fail either stops at a fault or takes all its steps; what its steps keep
or bring about holds of the result.
-/

namespace Folds

universe u v w

variable {α : Type u} {β : Type u} {σ : Type u} {Item : Type v} {Fault : Type w}
  {step : σ → Item → Except Fault σ}

theorem bind_eq_ok {first : Except Fault α} {next : α → Except Fault β} {result : β}
    (run : (first >>= next) = .ok result) :
    ∃ value, first = .ok value ∧ next value = .ok result := by
  cases first with
  | error fault => cases run
  | ok value => exact ⟨value, rfl, run⟩

theorem foldlM_keeps (Holds : σ → Prop) {items : List Item}
    (keeps : ∀ {state next item}, item ∈ items → step state item = .ok next → Holds state →
      Holds next)
    {start finish : σ} (run : items.foldlM step start = .ok finish) (holds : Holds start) :
    Holds finish := by
  induction items generalizing start with
  | nil => exact (Except.ok.inj run) ▸ holds
  | cons first items ih =>
      rw [List.foldlM_cons] at run
      rcases bind_eq_ok run with ⟨middle, stepped, rest⟩
      refine ih (fun member => keeps (List.mem_cons_of_mem _ member)) rest ?_
      exact keeps List.mem_cons_self stepped holds

/-- What every step keeps and the step of one item brings about holds at the end. -/
theorem foldlM_of_mem (Holds : σ → Prop) {item : Item} {items : List Item} (member : item ∈ items)
    (keeps : ∀ {state next other}, step state other = .ok next → Holds state → Holds next)
    (brings : ∀ {state next}, step state item = .ok next → Holds next) {start finish : σ}
    (run : items.foldlM step start = .ok finish) : Holds finish := by
  induction items generalizing start with
  | nil => cases member
  | cons first items ih =>
      rw [List.foldlM_cons] at run
      rcases bind_eq_ok run with ⟨middle, stepped, rest⟩
      rcases List.mem_cons.mp member with same | later
      · exact foldlM_keeps Holds (fun _ => keeps) rest (brings (same ▸ stepped))
      · exact ih later rest

/-- A fold whose steps all succeed succeeds. -/
theorem exists_foldlM_ok (succeeds : ∀ state item, ∃ next, step state item = .ok next)
    (items : List Item) (start : σ) : ∃ finish, items.foldlM step start = .ok finish := by
  induction items generalizing start with
  | nil => exact ⟨start, rfl⟩
  | cons first items ih =>
      rcases succeeds start first with ⟨middle, stepped⟩
      rcases ih middle with ⟨finish, rest⟩
      refine ⟨finish, ?_⟩
      rw [List.foldlM_cons, stepped]
      exact rest

/-- A map whose steps all succeed gives what they give. -/
theorem mapM_ok {Value : Type u} {read : Item → Except Fault Value} {result : Item → Value}
    {items : List Item} (each : ∀ item ∈ items, read item = .ok (result item)) :
    items.mapM read = .ok (items.map result) := by
  induction items with
  | nil => rfl
  | cons first items ih =>
      rw [List.mapM_cons, each first List.mem_cons_self,
        ih fun item member => each item (List.mem_cons_of_mem _ member)]
      rfl

end Folds

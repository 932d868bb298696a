import Gfm.Lib.Interruptible

/-!
# Invariants of interruptible programs

A program maintains a property of the state when it holds wherever the program ends, in a value or
in an error; what is known of the value goes with it. The rules follow the program's own shape.
-/

namespace Interruptible

universe u

variable {ε σ α β : Type u} {control : Control ε} {Holds : σ → Prop}

/-- From a state with the property, the program ends in one, and with a value of the given kind. -/
def Maintains (Holds : σ → Prop) (program : Checked ε σ α) (returns : α → Prop) : Prop :=
  ∀ start, Holds start.state →
    match program start with
    | .ok value finish => Holds finish.state ∧ returns value
    | .error _ finish => Holds finish.state

namespace Maintains

variable {program : Checked ε σ α} {returns : α → Prop}

theorem pure {value : α} (kind : returns value) :
    Maintains Holds (Pure.pure value : Checked ε σ α) returns :=
  fun _ held => ⟨held, kind⟩

theorem throw (error : ε) : Maintains Holds (throw error : Checked ε σ α) returns :=
  fun _ held => held

theorem check : Maintains Holds (check control : Checked ε σ PUnit) fun _ => True := by
  intro start held
  simp only [Interruptible.check]
  cases control start.checks with
  | none => exact ⟨held, trivial⟩
  | some error => exact held

theorem bind {next : α → Checked ε σ β} {kind : β → Prop}
    (maintains : Maintains Holds program returns)
    (continues : ∀ value, returns value → Maintains Holds (next value) kind) :
    Maintains Holds (program >>= next) kind := by
  intro start held
  have first := maintains start held
  change match EStateM.bind program next start with
    | .ok value finish => Holds finish.state ∧ kind value
    | .error _ finish => Holds finish.state
  unfold EStateM.bind
  cases run : program start with
  | ok value finish =>
      rw [run] at first
      exact continues value first.2 finish first.1
  | error error finish =>
      rw [run] at first
      exact first

theorem check_bind {next : PUnit → Checked ε σ β} {kind : β → Prop}
    (continues : Maintains Holds (next ⟨⟩) kind) :
    Maintains Holds (Interruptible.check control >>= next) kind :=
  bind check fun _ _ => continues

theorem tryCatch {handle : ε → Checked ε σ α} (maintains : Maintains Holds program returns)
    (handles : ∀ error, Maintains Holds (handle error) returns) :
    Maintains Holds (tryCatch program handle) returns := by
  intro start held
  have first := maintains start held
  change match EStateM.tryCatch program handle start with
    | .ok value finish => Holds finish.state ∧ returns value
    | .error _ finish => Holds finish.state
  unfold EStateM.tryCatch
  cases run : program start with
  | ok value finish =>
      rw [run] at first
      exact first
  | error error finish =>
      rw [run] at first
      exact handles error finish first

/-- A steady program leaves the state alone, and what follows it has its value. -/
theorem steady_bind {next : α → Checked ε σ β} {kind : β → Prop} {count : ℕ} {value : α}
    (steady : Steady control program count value) (continues : Maintains Holds (next value) kind) :
    Maintains Holds (program >>= next) kind := by
  intro start held
  rw [steady.bind_apply]
  cases firstInterrupt control start.checks count with
  | none => exact continues (start.advance count) held
  | some found => exact held

end Maintains

end Interruptible

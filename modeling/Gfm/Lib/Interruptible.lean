import Mathlib

/-!
# Programs that consult a control

A long-running program asks a control, between its steps, whether it may go
on. The control answers the checks in the order in which they are made: with
nothing, and the program continues, or with an error, and the program stops
there. `Clocked` counts the checks made so far, so that a program run under a
control is an ordinary state-and-error program.

A program is `Steady` when the control is the only thing that can stop it and
it leaves the state alone. Such a program makes a fixed number of checks; it
returns its value exactly when none of them is answered with an error.
-/

namespace Interruptible

universe u

variable {ε σ α β : Type u}

abbrev Control (ε : Type u) := ℕ → Option ε

/-- A state together with the number of checks made so far. -/
structure Clocked (σ : Type u) where
  state : σ
  checks : ℕ
  deriving DecidableEq

abbrev Checked (ε σ α : Type u) := EStateM ε (Clocked σ) α

def Clocked.advance (clocked : Clocked σ) (count : ℕ) : Clocked σ :=
  { clocked with checks := clocked.checks + count }

@[simp]
theorem Clocked.state_advance (clocked : Clocked σ) (count : ℕ) :
    (clocked.advance count).state = clocked.state := rfl

@[simp]
theorem Clocked.checks_advance (clocked : Clocked σ) (count : ℕ) :
    (clocked.advance count).checks = clocked.checks + count := rfl

@[simp]
theorem Clocked.advance_zero (clocked : Clocked σ) : clocked.advance 0 = clocked := rfl

@[simp]
theorem Clocked.advance_advance (clocked : Clocked σ) (first second : ℕ) :
    (clocked.advance first).advance second = clocked.advance (first + second) := by
  simp [advance, Nat.add_assoc]

def check (control : Control ε) : Checked ε σ PUnit := fun clocked =>
  match control clocked.checks with
  | none => .ok ⟨⟩ (clocked.advance 1)
  | some error => .error error (clocked.advance 1)

/-- The first of the `count` checks from `start` that is answered with an error. -/
def firstInterrupt (control : Control ε) (start : ℕ) : ℕ → Option (ℕ × ε)
  | 0 => none
  | count + 1 =>
      match control start with
      | some error => some (0, error)
      | none => (firstInterrupt control (start + 1) count).map fun (index, error) =>
          (index + 1, error)

theorem firstInterrupt_lt {control : Control ε} {start count index : ℕ} {error : ε}
    (found : firstInterrupt control start count = some (index, error)) : index < count := by
  induction count generalizing start index with
  | zero => simp [firstInterrupt] at found
  | succ count ih =>
      unfold firstInterrupt at found
      split at found
      · simp only [Option.some.injEq, Prod.mk.injEq] at found
        omega
      · simp only [Option.map_eq_some_iff, Prod.mk.injEq, Prod.exists] at found
        obtain ⟨later, stopped, foundLater, rfl, rfl⟩ := found
        have := ih foundLater
        omega

theorem firstInterrupt_add (control : Control ε) (start first second : ℕ) :
    firstInterrupt control start (first + second) =
      match firstInterrupt control start first with
      | some found => some found
      | none => (firstInterrupt control (start + first) second).map fun (index, error) =>
          (first + index, error) := by
  induction first generalizing start with
  | zero => simp [firstInterrupt]
  | succ first ih =>
      rw [show first + 1 + second = first + second + 1 by omega]
      simp only [firstInterrupt]
      cases control start with
      | some error => simp
      | none =>
          simp only [ih (start + 1), show start + 1 + first = start + (first + 1) by omega]
          cases firstInterrupt control (start + 1) first with
          | some found => simp
          | none =>
              simp only [Option.map_none, Option.map_map]
              congr 1
              funext found
              simp only [Function.comp_apply, Prod.mk.injEq, and_true]
              omega

theorem firstInterrupt_never (start count : ℕ) :
    firstInterrupt (fun _ => (none : Option ε)) start count = none := by
  induction count generalizing start with
  | zero => rfl
  | succ count ih => rw [firstInterrupt, ih (start + 1), Option.map_none]

/-- Where a run of `count` checks ends if all that happens is checks. -/
def checksResult (control : Control ε) (count : ℕ) (value : α) (start : Clocked σ) :
    EStateM.Result ε (Clocked σ) α :=
  match firstInterrupt control start.checks count with
  | none => .ok value (start.advance count)
  | some (index, error) => .error error (start.advance (index + 1))

/-- The control alone can stop the program, which makes `count` checks and returns `value`. -/
def Steady (control : Control ε) (program : Checked ε σ α) (count : ℕ) (value : α) : Prop :=
  ∀ start, program start = checksResult control count value start

namespace Steady

variable {control : Control ε}

theorem pure (value : α) : Steady control (Pure.pure value : Checked ε σ α) 0 value := by
  intro start
  rfl

theorem check : Steady control (check control : Checked ε σ PUnit) 1 ⟨⟩ := by
  intro start
  simp only [Interruptible.check, checksResult, firstInterrupt]
  cases control start.checks <;> rfl

theorem bind {program : Checked ε σ α} {next : α → Checked ε σ β} {first second : ℕ}
    {value : α} {result : β} (steady : Steady control program first value)
    (steadyNext : Steady control (next value) second result) :
    Steady control (program >>= next) (first + second) result := by
  intro start
  change EStateM.bind program next start = _
  simp only [EStateM.bind, steady start, checksResult, firstInterrupt_add]
  cases firstInterrupt control start.checks first with
  | some found => rfl
  | none =>
      simp only [steadyNext (start.advance first), checksResult, Clocked.checks_advance]
      cases firstInterrupt control (start.checks + first) second with
      | some found => simp [Nat.add_assoc]
      | none => simp

theorem check_bind {next : PUnit → Checked ε σ β} {count : ℕ} {result : β}
    (steadyNext : Steady control (next ⟨⟩) count result) :
    Steady control (Interruptible.check control >>= next) (1 + count) result :=
  check.bind steadyNext

theorem congr {program : Checked ε σ α} {count count' : ℕ} {value value' : α}
    (steady : Steady control program count value) (sameCount : count = count')
    (sameValue : value = value') : Steady control program count' value' := by
  subst sameCount sameValue
  exact steady

theorem map {program : Checked ε σ α} {count : ℕ} {value : α} (transform : α → β)
    (steady : Steady control program count value) :
    Steady control (program >>= fun result => Pure.pure (transform result)) count
      (transform value) :=
  Steady.congr (steady.bind (Steady.pure (transform value))) (Nat.add_zero count) rfl

theorem bind_apply {program : Checked ε σ α} {count : ℕ} {value : α}
    (steady : Steady control program count value) (next : α → Checked ε σ β)
    (start : Clocked σ) :
    (program >>= next) start =
      match firstInterrupt control start.checks count with
      | none => next value (start.advance count)
      | some (index, error) => .error error (start.advance (index + 1)) := by
  change EStateM.bind program next start = _
  simp only [EStateM.bind, steady start, checksResult]
  cases firstInterrupt control start.checks count <;> rfl

end Steady

end Interruptible

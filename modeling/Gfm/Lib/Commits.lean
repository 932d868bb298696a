import Gfm.Lib.Interruptible

/-!
# Programs that commit once

Under a control, a program that changes its state in one step is known by what it does from a
given state. It is steady there, and leaves the state; or it stops there with an error of its
own, whatever the control says; or it commits: after a number of checks it puts a new state in
place of the old one, and some checks more may follow.

A program is atomic where an error leaves the state as it was. One that commits is atomic exactly
when no check after the commit is answered with an error, or the commit is not reached, or it
changes nothing.
-/

namespace Interruptible

universe u

variable {ε σ α β : Type u} {control : Control ε} {state next : σ}

/-- The control alone can stop the program from this state, which it leaves alone. -/
def SteadyAt (control : Control ε) (state : σ) (program : Checked ε σ α) (count : ℕ) (value : α) :
    Prop :=
  ∀ checks, program ⟨state, checks⟩ = checksResult control count value ⟨state, checks⟩

/-- From this state the program stops with an error, under every control. -/
def RefusesAt (state : σ) (program : Checked ε σ α) : Prop :=
  ∀ checks, ∃ error later, program ⟨state, checks⟩ = .error error ⟨state, later⟩

/-- From this state the program installs the next one after `first` checks, and makes `trailing`
checks more before it returns the value. -/
def CommitsAt (control : Control ε) (state : σ) (program : Checked ε σ α) (first : ℕ) (next : σ)
    (trailing : ℕ) (value : α) : Prop :=
  ∀ checks, program ⟨state, checks⟩ =
    match firstInterrupt control checks first with
    | some (index, error) => .error error ⟨state, checks + (index + 1)⟩
    | none => checksResult control trailing value ⟨next, checks + first⟩

/-- An error leaves the state as it was. -/
def AtomicAt (state : σ) (checks : ℕ) (program : Checked ε σ α) : Prop :=
  ∀ error after, program ⟨state, checks⟩ = .error error after → after.state = state

def install (state : σ) : Checked ε σ PUnit := fun clocked => .ok ⟨⟩ { clocked with state }

def observe : Checked ε σ σ := fun clocked => .ok clocked.state clocked

/-- The value of a computation that makes no checks. -/
def settle : Except ε α → Checked ε σ α
  | .ok value => fun clocked => .ok value clocked
  | .error error => fun clocked => .error error clocked

@[simp]
theorem settle_ok_bind (value : α) (rest : α → Checked ε σ β) :
    (settle (.ok value) >>= rest) = rest value := rfl

theorem firstInterrupt_eq_none_iff {checks count : ℕ} :
    firstInterrupt control checks count = none ↔
      ∀ index, index < count → control (checks + index) = none := by
  induction count generalizing checks with
  | zero => simp [firstInterrupt]
  | succ count ih =>
      rw [firstInterrupt]
      cases answer : control checks with
      | some error =>
          constructor
          · intro impossible
            cases impossible
          · intro silent
            have first := silent 0 (Nat.succ_pos count)
            rw [Nat.add_zero, answer] at first
            cases first
      | none =>
          rw [Option.map_eq_none_iff, ih]
          constructor
          · intro later index below
            cases index with
            | zero => exact answer
            | succ index =>
                have silent := later index (Nat.lt_of_succ_lt_succ below)
                rwa [Nat.add_right_comm] at silent
          · intro silent index below
            have answered := silent (index + 1) (Nat.succ_lt_succ below)
            rwa [← Nat.add_assoc, Nat.add_right_comm] at answered

section Steady

theorem Steady.at {program : Checked ε σ α} {count : ℕ} {value : α}
    (steady : Steady control program count value) (state : σ) :
    SteadyAt control state program count value :=
  fun checks => steady ⟨state, checks⟩

namespace SteadyAt

variable {program : Checked ε σ α} {rest : α → Checked ε σ β} {count : ℕ} {value : α} {result : β}

theorem pure : SteadyAt control state (Pure.pure value : Checked ε σ α) 0 value :=
  (Steady.pure value).at state

theorem check : SteadyAt control state (check control) 1 ⟨⟩ := Steady.check.at state

theorem observe : SteadyAt control state observe 0 state := by
  intro checks
  rfl

theorem settle_ok : SteadyAt control state (settle (.ok value)) 0 value := by
  intro checks
  rfl

theorem bind_apply (steady : SteadyAt control state program count value) (checks : ℕ) :
    (program >>= rest) ⟨state, checks⟩ =
      match firstInterrupt control checks count with
      | some (index, error) => .error error ⟨state, checks + (index + 1)⟩
      | none => rest value ⟨state, checks + count⟩ := by
  change EStateM.bind program rest _ = _
  simp only [EStateM.bind, steady checks, checksResult]
  cases firstInterrupt control checks count <;> rfl

theorem bind {more : ℕ} (steady : SteadyAt control state program count value)
    (steadyRest : SteadyAt control state (rest value) more result) :
    SteadyAt control state (program >>= rest) (count + more) result := by
  intro checks
  rw [steady.bind_apply, checksResult, firstInterrupt_add]
  cases firstInterrupt control checks count with
  | some found => rfl
  | none =>
      simp only [steadyRest (checks + count), checksResult]
      cases firstInterrupt control (checks + count) more with
      | some found => simp [Clocked.advance, Nat.add_assoc]
      | none => simp [Clocked.advance, Nat.add_assoc]

theorem congr {more : ℕ} (steady : SteadyAt control state program count value)
    (same : count = more) : SteadyAt control state program more value := by
  rw [← same]
  exact steady

theorem atomic (steady : SteadyAt control state program count value) (checks : ℕ) :
    AtomicAt state checks program := by
  intro error after run
  rw [steady checks, checksResult] at run
  cases found : firstInterrupt control checks count with
  | none =>
      rw [found] at run
      cases run
  | some stop =>
      rw [found] at run
      cases run
      rfl

end SteadyAt

end Steady

section Refusing

variable {program : Checked ε σ α} {rest : α → Checked ε σ β} {count : ℕ} {value : α}

namespace RefusesAt

theorem throw {error : ε} : RefusesAt state (settle (.error error) : Checked ε σ α) :=
  fun checks => ⟨error, checks, rfl⟩

theorem bind (refuses : RefusesAt state program) : RefusesAt state (program >>= rest) := by
  intro checks
  rcases refuses checks with ⟨error, later, run⟩
  refine ⟨error, later, ?_⟩
  change EStateM.bind program rest _ = _
  simp only [EStateM.bind, run]

/-- A steady program before one that refuses: either the control stops it or the second does. -/
theorem after (steady : SteadyAt control state program count value)
    (refuses : RefusesAt state (rest value)) : RefusesAt state (program >>= rest) := by
  intro checks
  rw [steady.bind_apply]
  cases firstInterrupt control checks count with
  | some found => exact ⟨found.2, checks + (found.1 + 1), rfl⟩
  | none => exact refuses (checks + count)

theorem atomic (refuses : RefusesAt state program) (checks : ℕ) :
    AtomicAt state checks program := by
  intro error after run
  rcases refuses checks with ⟨stopped, later, same⟩
  rw [same] at run
  cases run
  rfl

end RefusesAt

end Refusing

section Committing

variable {program : Checked ε σ α} {rest : α → Checked ε σ β} {first trailing : ℕ} {value : α}
  {result : β}

namespace CommitsAt

theorem install : CommitsAt control state (install next) 0 next 0 ⟨⟩ := by
  intro checks
  rfl

/-- The checks of a steady program before the commit count before it. -/
theorem after {count : ℕ} (steady : SteadyAt control state program count value)
    (commits : CommitsAt control state (rest value) first next trailing result) :
    CommitsAt control state (program >>= rest) (count + first) next trailing result := by
  intro checks
  rw [steady.bind_apply, firstInterrupt_add]
  cases firstInterrupt control checks count with
  | some found => rfl
  | none =>
      simp only [commits (checks + count)]
      cases firstInterrupt control (checks + count) first with
      | some found => simp [Nat.add_assoc]
      | none => simp [Nat.add_assoc]

/-- And those of a steady program after it, after it. -/
theorem bind {count : ℕ} (commits : CommitsAt control state program first next trailing value)
    (steady : SteadyAt control next (rest value) count result) :
    CommitsAt control state (program >>= rest) first next (trailing + count) result := by
  intro checks
  change EStateM.bind program rest _ = _
  simp only [EStateM.bind, commits checks]
  cases firstInterrupt control checks first with
  | some found => rfl
  | none =>
      have waited : SteadyAt control next
          (fun clocked => checksResult control trailing value clocked) trailing value :=
        fun _ => rfl
      exact waited.bind steady (checks + first)

theorem congr {count : ℕ} (commits : CommitsAt control state program first next trailing value)
    (same : first = count) : CommitsAt control state program count next trailing value := by
  rw [← same]
  exact commits

/-- What an error leaves is the old state unless the commit was reached. -/
theorem atomic_iff (commits : CommitsAt control state program first next trailing value)
    (checks : ℕ) : AtomicAt state checks program ↔
      (firstInterrupt control checks first = none → next ≠ state →
        firstInterrupt control (checks + first) trailing = none) := by
  unfold AtomicAt
  rw [commits checks]
  cases firstInterrupt control checks first with
  | some found =>
      constructor
      · intro _ reached
        cases reached
      · intro _ error after run
        cases run
        rfl
  | none =>
      simp only [checksResult]
      cases firstInterrupt control (checks + first) trailing with
      | none =>
          constructor
          · intro _ _ _
            rfl
          · intro _ error after run
            cases run
      | some found =>
          constructor
          · intro atomic _ changed
            exact (changed (atomic found.2 _ rfl)).elim
          · intro unchanged error after run
            cases run
            by_contra changed
            cases unchanged trivial changed

end CommitsAt

end Committing

section Following

variable {program : Checked ε σ α} {rest : α → Checked ε σ β} {count more : ℕ}
  {outcome : Except ε α} {next : α → Except ε β}

/-- From this state the program is steady, or refuses, as the outcome says. -/
def FollowsAt (control : Control ε) (state : σ) (program : Checked ε σ α) (count : ℕ) :
    Except ε α → Prop
  | .ok value => SteadyAt control state program count value
  | .error _ => RefusesAt state program

namespace FollowsAt

theorem settle (outcome : Except ε α) :
    FollowsAt control state (settle outcome) 0 outcome := by
  cases outcome with
  | ok value => exact SteadyAt.settle_ok
  | error error => exact RefusesAt.throw

theorem bind (follows : FollowsAt control state program count outcome)
    (followsRest : ∀ value, outcome = .ok value →
      FollowsAt control state (rest value) more (next value)) :
    FollowsAt control state (program >>= rest) (count + more) (outcome >>= next) := by
  cases outcome with
  | error error => exact RefusesAt.bind follows
  | ok value =>
      have later := followsRest value rfl
      change FollowsAt control state (program >>= rest) (count + more) (next value)
      cases result : next value with
      | ok final =>
          rw [result] at later
          exact SteadyAt.bind follows later
      | error error =>
          rw [result] at later
          exact RefusesAt.after follows later

theorem congr (follows : FollowsAt control state program count outcome) (same : count = more) :
    FollowsAt control state program more outcome := by
  rw [← same]
  exact follows

theorem check_bind {rest : PUnit → Checked ε σ α}
    (follows : FollowsAt control state (rest ⟨⟩) count outcome) :
    FollowsAt control state (Interruptible.check control >>= rest) (1 + count) outcome := by
  cases outcome with
  | ok value => exact SteadyAt.check.bind follows
  | error error => exact RefusesAt.after SteadyAt.check follows

/-- A check before the value is returned. -/
theorem check_after (follows : FollowsAt control state program count outcome) :
    FollowsAt control state
      (program >>= fun value => Interruptible.check control >>= fun _ => Pure.pure value)
      (count + 1) outcome := by
  have followed : FollowsAt control state
      (program >>= fun value => Interruptible.check control >>= fun _ => Pure.pure value)
      (count + (1 + 0)) (outcome >>= Except.ok) :=
    follows.bind fun _ _ => check_bind SteadyAt.pure
  cases outcome with
  | ok value => exact followed
  | error error => exact followed

theorem observe_bind {rest : σ → Checked ε σ α}
    (follows : FollowsAt control state (rest state) count outcome) :
    FollowsAt control state (observe >>= rest) count outcome := by
  cases outcome with
  | ok value => exact fun checks => follows checks
  | error error => exact fun checks => follows checks

end FollowsAt

end Following

section Planning

/-- The commit of a program: the checks before it and the state that it installs. -/
structure Commit (σ : Type u) where
  checks : ℕ
  next : σ

/-- The commit after that many checks more. -/
def Commit.delay (commit : Commit σ) (count : ℕ) : Commit σ :=
  { commit with checks := count + commit.checks }

/-- From this state the program makes the commit and then one check more, or is atomic. -/
def PlannedAt (control : Control ε) (state : σ) (program : Checked ε σ α) :
    Option (Commit σ) → Prop
  | none => ∀ checks, AtomicAt state checks program
  | some commit =>
      ∃ value, CommitsAt control state program commit.checks commit.next 1 value

/-- A steady program before the plan delays it. -/
theorem PlannedAt.after {program : Checked ε σ α} {rest : α → Checked ε σ β} {count : ℕ} {value : α}
    {plan : Option (Commit σ)} (steady : SteadyAt control state program count value)
    (planned : PlannedAt control state (rest value) plan) :
    PlannedAt control state (program >>= rest) (plan.map fun commit => commit.delay count) := by
  cases plan with
  | none =>
      intro checks error final run
      rw [steady.bind_apply] at run
      cases found : firstInterrupt control checks count with
      | none =>
          rw [found] at run
          exact planned (checks + count) error final run
      | some stop =>
          rw [found] at run
          cases run
          rfl
  | some commit =>
      rcases planned with ⟨result, commits⟩
      exact ⟨result, .after steady commits⟩

/-- Where the checks before the commit pass and it changes the state, so does the one after. -/
def PassesAfter (control : Control ε) (state : σ) (plan : Option (Commit σ)) : Prop :=
  ∀ commit, plan = some commit → (∀ index, index < commit.checks → control index = none) →
    commit.next ≠ state → control commit.checks = none

theorem PlannedAt.atomic_iff {program : Checked ε σ α} {plan : Option (Commit σ)}
    (planned : PlannedAt control state program plan) :
    AtomicAt state 0 program ↔ PassesAfter control state plan := by
  cases plan with
  | none =>
      refine ⟨fun _ commit impossible => ?_, fun _ => planned 0⟩
      cases impossible
  | some commit =>
      rcases planned with ⟨value, commits⟩
      rw [commits.atomic_iff 0, firstInterrupt_eq_none_iff, firstInterrupt_eq_none_iff]
      simp only [Nat.zero_add, Nat.lt_one_iff, forall_eq, Nat.add_zero]
      constructor
      · rintro atomic other ⟨⟩
        exact atomic
      · intro passes
        exact passes commit rfl

end Planning

section Granted

variable {program : Checked ε σ α} {count trailing : ℕ} {value : α}

/-- The control that answers every check with nothing. -/
def granted : Control ε := fun _ => none

theorem firstInterrupt_granted (start count : ℕ) :
    firstInterrupt (granted : Control ε) start count = none :=
  firstInterrupt_eq_none_iff.mpr fun _ _ => rfl

theorem granted_run (steady : Steady granted program count value) (start : Clocked σ) :
    program start = .ok value (start.advance count) := by
  rw [steady start, checksResult, firstInterrupt_granted]

theorem granted_steady (steady : SteadyAt granted state program count value) (checks : ℕ) :
    program ⟨state, checks⟩ = .ok value ⟨state, checks + count⟩ := by
  rw [steady checks, checksResult, firstInterrupt_granted]
  rfl

theorem granted_commits (commits : CommitsAt granted state program count next trailing value)
    (checks : ℕ) :
    program ⟨state, checks⟩ = .ok value ⟨next, checks + count + trailing⟩ := by
  rw [commits checks, firstInterrupt_granted]
  dsimp only
  rw [checksResult, firstInterrupt_granted]
  rfl

end Granted

end Interruptible

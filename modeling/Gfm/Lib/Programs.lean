import Mathlib

/-!
# Programs that may fail or be killed

A program is the tree of its calls: it asks its environment what happens next, observes the
world or installs another one, and ends with a value, with an error of its own, or because
the process died, which no handler of the program sees.

`run` is the run on a script of choices. `Meets` says what holds at the end of every run
whose choices are allowed (the process may die at any call, so what holds at every end holds
at every point of a run), and `Ends` is the other direction: some choices lead to this end.
-/

namespace Programs

inductive Outcome (Error α : Type) where
  | value (value : α)
  | failed (error : Error)
  | died

inductive Program (Choice World Error α : Type) where
  | done (value : α)
  | fail (error : Error)
  | die
  | ask (next : Choice → Program Choice World Error α)
  | observe (next : World → Program Choice World Error α)
  | install (world : World) (next : Program Choice World Error α)

variable {Choice World Error α β : Type}

namespace Program

def bind : Program Choice World Error α → (α → Program Choice World Error β) →
    Program Choice World Error β
  | done value, rest => rest value
  | fail error, _ => fail error
  | die, _ => die
  | ask next, rest => ask fun choice => (next choice).bind rest
  | observe next, rest => observe fun world => (next world).bind rest
  | install world next, rest => install world (next.bind rest)

instance : Monad (Program Choice World Error) where
  pure := done
  bind := bind

/-- The result of a program as a value; a death is not a result. -/
def attempt : Program Choice World Error α → Program Choice World Error (Except Error α)
  | done value => done (.ok value)
  | fail error => done (.error error)
  | die => die
  | ask next => ask fun choice => (next choice).attempt
  | observe next => observe fun world => (next world).attempt
  | install world next => install world next.attempt

/-- What is done with the value of a program, or with its error. -/
def handle {Error' : Type} : Program Choice World Error α →
    (α → Program Choice World Error' β) → (Error → Program Choice World Error' β) →
    Program Choice World Error' β
  | done value, rest, _ => rest value
  | fail error, _, caught => caught error
  | die, _, _ => die
  | ask next, rest, caught => ask fun choice => (next choice).handle rest caught
  | observe next, rest, caught => observe fun world => (next world).handle rest caught
  | install world next, rest, caught => install world (next.handle rest caught)

/-- Past the end of its script a program meets the default choice. -/
def run [Inhabited Choice] :
    Program Choice World Error α → List Choice → World → Outcome Error α × World
  | done value, _, world => (.value value, world)
  | fail error, _, world => (.failed error, world)
  | die, _, world => (.died, world)
  | ask next, script, world => (next (script.headD default)).run script.tail world
  | observe next, script, world => (next world).run script world
  | install world next, script, _ => next.run script world

end Program

open Program

section Meeting

variable (Allowed : Choice → Prop)

/-- Every run with allowed choices ends in a value with `Done`, or stops with `Stopped`. -/
def Meets : Program Choice World Error α → (α → World → Prop) →
    (Option Error → World → Prop) → World → Prop
  | done value, Done, _, world => Done value world
  | fail error, _, Stopped, world => Stopped (some error) world
  | die, _, Stopped, world => Stopped none world
  | ask next, Done, Stopped, world => ∀ choice, Allowed choice →
      Meets (next choice) Done Stopped world
  | observe next, Done, Stopped, world => Meets (next world) Done Stopped world
  | install world next, Done, Stopped, _ => Meets next Done Stopped world

variable {Allowed} {program : Program Choice World Error α}
  {rest : α → Program Choice World Error β} {world : World}
  {Done Done' : α → World → Prop} {Finally : β → World → Prop}
  {Stopped Stopped' : Option Error → World → Prop}

namespace Meets

theorem mono (meets : Meets Allowed program Done Stopped world)
    (done : ∀ value after, Done value after → Done' value after)
    (stopped : ∀ error after, Stopped error after → Stopped' error after) :
    Meets Allowed program Done' Stopped' world := by
  induction program generalizing world with
  | done value => exact done value world meets
  | fail error => exact stopped (some error) world meets
  | die => exact stopped none world meets
  | ask next ih => exact fun choice allowed => ih choice (meets choice allowed)
  | observe next ih => exact ih world meets
  | install inner next ih => exact ih meets

theorem bind_iff : Meets Allowed (program >>= rest) Finally Stopped world ↔
    Meets Allowed program (fun value => Meets Allowed
      (rest value) Finally Stopped) Stopped world := by
  induction program generalizing world with
  | done value => exact Iff.rfl
  | fail error => exact Iff.rfl
  | die => exact Iff.rfl
  | ask next ih => exact forall_congr' fun choice => imp_congr_right fun _ => ih choice
  | observe next ih => exact ih world
  | install inner next ih => exact ih

/-- The rule for sequences: what the first program leaves is what the rest starts from. -/
theorem bind (first : Meets Allowed program Done Stopped world)
    (next : ∀ value after, Done value after → Meets Allowed (rest value) Finally Stopped' after)
    (stopped : ∀ error after, Stopped error after → Stopped' error after) :
    Meets Allowed (program >>= rest) Finally Stopped' world :=
  bind_iff.mpr (first.mono next stopped)

theorem observe_iff {rest : World → Program Choice World Error β} :
    Meets Allowed (Program.observe Program.done >>= rest) Finally Stopped world ↔
      Meets Allowed (rest world) Finally Stopped world := Iff.rfl

theorem attempt_iff {Finally : Except Error α → World → Prop} :
    Meets Allowed program.attempt Finally Stopped world ↔
      Meets Allowed program (fun value => Finally (.ok value))
        (fun stop after => match stop with
          | some error => Finally (.error error) after
          | none => Stopped none after) world := by
  induction program generalizing world with
  | done value => exact Iff.rfl
  | fail error => exact Iff.rfl
  | die => exact Iff.rfl
  | ask next ih => exact forall_congr' fun choice => imp_congr_right fun _ => ih choice
  | observe next ih => exact ih world
  | install inner next ih => exact ih

/-- The rule for a handler: it starts from the world that the error left. -/
theorem handle {Error' : Type} {Stopped' : Option Error' → World → Prop}
    {rest : α → Program Choice World Error' β} {caught : Error → Program Choice World Error' β}
    (first : Meets Allowed program Done Stopped world)
    (next : ∀ value after, Done value after → Meets Allowed (rest value) Finally Stopped' after)
    (failed : ∀ error after, Stopped (some error) after →
      Meets Allowed (caught error) Finally Stopped' after)
    (died : ∀ after, Stopped none after → Stopped' none after) :
    Meets Allowed (program.handle rest caught) Finally Stopped' world := by
  induction program generalizing world with
  | done value => exact next value world first
  | fail error => exact failed error world first
  | die => exact died world first
  | ask inner ih => exact fun choice allowed => ih choice (first choice allowed)
  | observe inner ih => exact ih world first
  | install held inner ih => exact ih first

/-- The rule for loops: what holds of the items done so far, each round carries on. -/
theorem foldlM {State Item : Type} {items : List Item}
    {body : State → Item → Program Choice World Error State}
    (Always : List Item → State → World → Prop)
    (round : ∀ before item after state world, items = before ++ item :: after →
      Always before state world →
        Meets Allowed (body state item) (Always (before ++ [item])) Stopped world)
    {state : State} (start : Always [] state world) :
    Meets Allowed (items.foldlM body state) (Always items) Stopped world := by
  have going : ∀ after before state world, items = before ++ after → Always before state world →
      Meets Allowed (after.foldlM body state) (Always items) Stopped world := by
    intro after
    induction after with
    | nil =>
        intro before state world whole holds
        rw [whole, List.append_nil]
        exact holds
    | cons item after ih =>
        intro before state world whole holds
        rw [List.foldlM_cons]
        refine (round before item after state world whole holds).bind (fun next later held => ?_)
          fun error later stopped => stopped
        exact ih (before ++ [item]) next later (by rw [whole, List.append_cons]) held
  exact going items [] state world rfl start

/-- What every end meets, the run on a script meets. -/
theorem run [Inhabited Choice] (meets : Meets Allowed program Done Stopped world)
    (usual : Allowed default) (script : List Choice) (allowed : ∀ choice ∈ script, Allowed choice) :
    match program.run script world with
    | (.value value, after) => Done value after
    | (.failed error, after) => Stopped (some error) after
    | (.died, after) => Stopped none after := by
  induction program generalizing world script with
  | done value => exact meets
  | fail error => exact meets
  | die => exact meets
  | ask next ih =>
      cases script with
      | nil => exact ih default (meets default usual) [] allowed
      | cons choice script =>
          refine ih choice
            (meets choice (allowed choice List.mem_cons_self)) script fun other listed => ?_
          exact allowed other (List.mem_cons_of_mem choice listed)
  | observe next ih => exact ih world meets script allowed
  | install inner next ih => exact ih meets script allowed

end Meets

/-- The assertion holds at every end if it holds at the start. -/
def Upholds (Always : World → Prop) (program : Program Choice World Error α) : Prop :=
  ∀ world, Always world → Meets (fun _ => True) program (fun _ => Always) (fun _ => Always) world

namespace Upholds

variable {Always : World → Prop}

theorem pure {value : α} : Upholds Always (Pure.pure value : Program Choice World Error α) :=
  fun _ holds => holds

theorem fail {error : Error} : Upholds Always (fail error : Program Choice World Error α) :=
  fun _ holds => holds

theorem bind (first : Upholds Always program) (next : ∀ value, Upholds Always (rest value)) :
    Upholds Always (program >>= rest) :=
  fun world holds => (first world holds).bind next fun _ _ held => held

theorem attempt (upholds : Upholds Always program) : Upholds Always program.attempt := by
  refine fun world holds => Meets.attempt_iff.mpr ((upholds world holds).mono (fun _ _ held =>
    held) ?_)
  intro error after held
  cases error with
  | none => exact held
  | some error => exact held

theorem ite {condition : Prop} [Decidable condition] {other : Program Choice World Error α}
    (yes : condition → Upholds Always program) (no : ¬condition → Upholds Always other) :
    Upholds Always (if condition then program else other) := by
  split
  case isTrue holds => exact yes holds
  case isFalse fails => exact no fails

end Upholds

/-- The program leaves the world as it is: it upholds every assertion. -/
def ReadsOnly (program : Program Choice World Error α) : Prop :=
  ∀ Always : World → Prop, Upholds Always program

namespace ReadsOnly

theorem done {value : α} : ReadsOnly (done value : Program Choice World Error α) :=
  fun _ _ holds => holds

theorem fail {error : Error} : ReadsOnly (fail error : Program Choice World Error α) :=
  fun _ _ holds => holds

theorem bind (first : ReadsOnly program) (next : ∀ value, ReadsOnly (rest value)) :
    ReadsOnly (program >>= rest) :=
  fun Always => (first Always).bind fun value => next value Always

theorem attempt (readsOnly : ReadsOnly program) : ReadsOnly program.attempt :=
  fun Always => (readsOnly Always).attempt

theorem observe : ReadsOnly (observe Program.done : Program Choice World Error World) :=
  fun _ _ holds => holds

theorem ite {condition : Prop} [Decidable condition] {other : Program Choice World Error α}
    (yes : ReadsOnly program) (no : ReadsOnly other) :
    ReadsOnly (if condition then program else other) :=
  fun Always => Upholds.ite (fun _ => yes Always) fun _ => no Always

/-- In a sequence, what a reading program leaves is the world it started from. -/
theorem meets (readsOnly : ReadsOnly program) (world : World) :
    Meets (fun _ => True) program (fun _ after => after = world) (fun _ after => after = world)
      world :=
  readsOnly (fun after => after = world) world rfl

/-- A reading program before the rest: the rest starts from the same world. -/
theorem before (readsOnly : ReadsOnly program)
    (next : ∀ value, Meets (fun _ => True) (rest value) Finally Stopped world)
    (stopped : ∀ error, Stopped error world) :
    Meets (fun _ => True) (program >>= rest) Finally Stopped world := by
  refine (readsOnly.meets world).bind (fun value after same => ?_) fun error after same => ?_
  · rw [same]
    exact next value
  · rw [same]
    exact stopped error

end ReadsOnly

end Meeting

end Programs

import Mathlib

/-!
# Writers that can be read in one way

A writer appends symbols for a value. It is readable before the rests of some kind if what it
wrote, and one of these rests after it, tell the value and where the rest begins. Writers that are
put together from readable ones are readable: one after the other, a word that tells the kind of
value before the rest of it, or a counted list.
-/

namespace Writers

open List

universe u v w

variable {Symbol : Type u} {Value : Type v} {Head : Type w}

def Readable (Rest : List Symbol → Prop) (write : Value → List Symbol) : Prop :=
  ∀ ⦃left right : Value⦄ ⦃leftRest rightRest : List Symbol⦄, Rest leftRest → Rest rightRest →
    write left ++ leftRest = write right ++ rightRest → left = right ∧ leftRest = rightRest

variable {Rest : List Symbol → Prop} {write : Value → List Symbol}

theorem Readable.injective (readable : Readable Rest write) (empty : Rest []) :
    Function.Injective write := by
  intro left right same
  exact (readable empty empty (congrArg (· ++ []) same)).1

/-- The words of which none is the beginning of another. -/
def PrefixFree (word : Head → List Symbol) : Prop :=
  ∀ left right, word left <+: word right → left = right

theorem PrefixFree.reads {word : Head → List Symbol} (free : PrefixFree word) {left right : Head}
    {leftRest rightRest : List Symbol} (same : word left ++ leftRest = word right ++ rightRest) :
    left = right ∧ leftRest = rightRest := by
  have begins : word left <+: word right ++ rightRest := ⟨leftRest, same⟩
  have heads : left = right := by
    rcases prefix_or_prefix_of_prefix begins (prefix_append _ _) with front | front
    · exact free _ _ front
    · exact (free _ _ front).symm
  subst heads
  exact ⟨rfl, append_cancel_left same⟩

/-- A word for the kind of value, then what tells the values of that kind apart. -/
theorem readable_tagged {word : Head → List Symbol} (free : PrefixFree word) (head : Value → Head)
    (body : Value → List Symbol) (shape : ∀ value, write value = word (head value) ++ body value)
    (bodies : ∀ ⦃left right leftRest rightRest⦄, head left = head right → Rest leftRest →
      Rest rightRest → body left ++ leftRest = body right ++ rightRest →
        left = right ∧ leftRest = rightRest) : Readable Rest write := by
  intro left right leftRest rightRest atLeft atRight same
  rw [shape, shape, append_assoc, append_assoc] at same
  have heads := free.reads same
  exact bodies heads.1 atLeft atRight heads.2

/-- Symbols of one class, before a rest that does not go on with one of the class. -/
theorem readable_of_class {inside : Symbol → Bool} (injective : Function.Injective write)
    (within : ∀ value, ∀ symbol ∈ write value, inside symbol = true) :
    Readable (fun rest => ∀ symbol ∈ rest.head?, inside symbol = false) write := by
  have front : ∀ value {rest : List Symbol}, (∀ symbol ∈ rest.head?, inside symbol = false) →
      (write value ++ rest).takeWhile inside = write value := by
    intro value rest outside
    rw [takeWhile_append_of_pos (within value)]
    cases rest with
    | nil => simp
    | cons symbol rest => simp [outside symbol rfl]
  intro left right leftRest rightRest atLeft atRight same
  have fronts := congrArg (List.takeWhile inside) same
  rw [front left atLeft, front right atRight] at fronts
  have values := injective fronts
  subst values
  exact ⟨rfl, append_cancel_left same⟩

section Items

variable {Item : Type v} {item : Item → List Symbol}

theorem rest_flatMap (follows : ∀ value rest, Rest rest → Rest (item value ++ rest))
    (items : List Item) {rest : List Symbol} (atRest : Rest rest) :
    Rest (items.flatMap item ++ rest) := by
  induction items with
  | nil => exact atRest
  | cons value items ih =>
      rw [flatMap_cons, append_assoc]
      exact follows value _ ih

/-- Lists of one length, item after item. -/
theorem flatMap_reads (readable : Readable Rest item)
    (follows : ∀ value rest, Rest rest → Rest (item value ++ rest)) :
    ∀ {left right : List Item} {leftRest rightRest : List Symbol}, left.length = right.length →
      Rest leftRest → Rest rightRest →
        left.flatMap item ++ leftRest = right.flatMap item ++ rightRest →
          left = right ∧ leftRest = rightRest
  | [], [], _, _, _, _, _, same => ⟨rfl, same⟩
  | [], _ :: _, _, _, lengths, _, _, _ => nomatch lengths
  | _ :: _, [], _, _, lengths, _, _, _ => nomatch lengths
  | first :: left, second :: right, leftRest, rightRest, lengths, atLeft, atRight, same => by
      rw [flatMap_cons, flatMap_cons, append_assoc, append_assoc] at same
      have heads := readable (rest_flatMap follows left atLeft) (rest_flatMap follows right atRight)
        same
      have tails := flatMap_reads readable follows (Nat.succ.inj lengths) atLeft atRight heads.2
      exact ⟨cons_eq_cons.mpr ⟨heads.1, tails.1⟩, tails.2⟩

/-- The number of items before the items. -/
theorem readable_counted {count : Nat → List Symbol} (counts : Readable Rest count)
    (readable : Readable Rest item)
    (follows : ∀ value rest, Rest rest → Rest (item value ++ rest)) :
    Readable Rest fun items : List Item => count items.length ++ items.flatMap item := by
  intro left right leftRest rightRest atLeft atRight same
  simp only [append_assoc] at same
  have lengths :=
    counts (rest_flatMap follows left atLeft) (rest_flatMap follows right atRight) same
  exact flatMap_reads readable follows lengths.1 atLeft atRight lengths.2

end Items

end Writers

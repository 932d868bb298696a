import Mathlib

/-!
# Waiting lines

A line is served from its front. An item that comes takes the last place, or is merged into the
item of a place that was taken before. Items may be lost from the front as well. Whatever happens
in whatever order, the places are served in the order in which they were taken, and each holds
what took it with all that was merged into it since.
-/

namespace Line

open List

universe u

variable {Item : Type u}

/-- A place of a line: what took it, and what was merged into it since, each with its time. -/
structure Place (Item : Type u) where
  first : ℕ × Item
  merged : List (ℕ × Item)

namespace Place

def item (merge : Item → Item → Item) (place : Place Item) : Item :=
  (place.merged.map Prod.snd).foldl merge place.first.2

def arrivals (place : Place Item) : List (ℕ × Item) := place.first :: place.merged

end Place

/-- What came to a line, and when: what took a place and what was merged into one. -/
structure Arrivals (Item : Type u) where
  took : ℕ → Item → Prop
  merged : ℕ → Item → Prop

/-- A place that holds what came to the line, in the order in which it came. -/
structure Place.Holds (arrivals : Arrivals Item) (clock : ℕ) (place : Place Item) : Prop where
  took : arrivals.took place.first.1 place.first.2
  merged : ∀ arrival ∈ place.merged, arrivals.merged arrival.1 arrival.2
  ascending : place.arrivals.Pairwise fun earlier later => earlier.1 < later.1
  past : ∀ arrival ∈ place.arrivals, arrival.1 < clock

/-- What was served and what waits are the items of places, one taken after the other. -/
def InOrder (merge : Item → Item → Item) (arrivals : Arrivals Item) (clock : ℕ)
    (served waiting : List Item) : Prop :=
  ∃ left right : List (Place Item),
    left.map (Place.item merge) = served ∧ right.map (Place.item merge) = waiting ∧
      ((left ++ right).Pairwise fun earlier later => earlier.first.1 < later.first.1) ∧
      ∀ place ∈ left ++ right, place.Holds arrivals clock

variable {merge : Item → Item → Item} {arrivals later : Arrivals Item} {clock time : ℕ}
  {served waiting : List Item}

theorem Place.Holds.mono {place : Place Item} (holds : place.Holds arrivals clock)
    (within : clock ≤ time) (took : ∀ time item, arrivals.took time item → later.took time item)
    (merged : ∀ time item, arrivals.merged time item → later.merged time item) :
    place.Holds later time where
  took := took _ _ holds.took
  merged arrival listed := merged _ _ (holds.merged arrival listed)
  ascending := holds.ascending
  past arrival listed := Nat.lt_of_lt_of_le (holds.past arrival listed) within

namespace InOrder

theorem nil : InOrder merge arrivals clock [] [] :=
  ⟨[], [], rfl, rfl, List.Pairwise.nil, by simp⟩

theorem mono (inOrder : InOrder merge arrivals clock served waiting) (within : clock ≤ time)
    (took : ∀ time item, arrivals.took time item → later.took time item)
    (merged : ∀ time item, arrivals.merged time item → later.merged time item) :
    InOrder merge later time served waiting := by
  rcases inOrder with ⟨left, right, servedEq, waitingEq, ascending, holds⟩
  exact ⟨left, right, servedEq, waitingEq, ascending, fun place listed =>
    (holds place listed).mono within took merged⟩

/-- The first items are lost. -/
theorem lose (inOrder : InOrder merge arrivals clock served waiting) (count : ℕ) :
    InOrder merge arrivals clock served (waiting.drop count) := by
  rcases inOrder with ⟨left, right, servedEq, waitingEq, ascending, holds⟩
  have fewer : (left ++ right.drop count).Sublist (left ++ right) :=
    List.Sublist.append_left (drop_sublist count right) left
  refine ⟨left, right.drop count, servedEq, ?_, ascending.sublist fewer, ?_⟩
  · rw [map_drop, waitingEq]
  · exact fun place listed => holds place (fewer.subset listed)

/-- The first items are served. -/
theorem serve (inOrder : InOrder merge arrivals clock served waiting) (count : ℕ) :
    InOrder merge arrivals clock (served ++ waiting.take count) (waiting.drop count) := by
  rcases inOrder with ⟨left, right, servedEq, waitingEq, ascending, holds⟩
  have same : (left ++ right.take count) ++ right.drop count = left ++ right := by
    simp
  refine ⟨left ++ right.take count, right.drop count, ?_, ?_, ?_, ?_⟩
  · rw [map_append, map_take, servedEq, waitingEq]
  · rw [map_drop, waitingEq]
  · simpa only [same] using ascending
  · simpa only [same] using holds

/-- An item takes the last place. -/
theorem join (inOrder : InOrder merge arrivals clock served waiting) {item : Item}
    (took : arrivals.took clock item) :
    InOrder merge arrivals (clock + 1) served (waiting ++ [item]) := by
  rcases inOrder with ⟨left, right, servedEq, waitingEq, ascending, holds⟩
  let place : Place Item := ⟨(clock, item), []⟩
  have new : place.Holds arrivals (clock + 1) := by
    constructor <;> simp [place, Place.arrivals, took]
  refine ⟨left, right ++ [place], servedEq, ?_, ?_, ?_⟩
  · simp [waitingEq, place, Place.item]
  · rw [← append_assoc, pairwise_append]
    refine ⟨ascending, pairwise_singleton _ _, fun earlier listed later last => ?_⟩
    have isLast : later = place := by simpa using last
    subst isLast
    exact (holds earlier listed).past _ (mem_cons_self ..)
  · intro other listed
    rw [← append_assoc, mem_append, mem_singleton] at listed
    rcases listed with before | rfl
    · exact (holds other before).mono (Nat.le_succ clock) (fun _ _ => id) fun _ _ => id
    · exact new

/-- An item is merged into that of a place. -/
theorem mergeAt {before after : List Item} {existing item : Item}
    (inOrder : InOrder merge arrivals clock served (before ++ existing :: after))
    (merged : arrivals.merged clock item) :
    InOrder merge arrivals (clock + 1) served (before ++ merge existing item :: after) := by
  rcases inOrder with ⟨left, right, servedEq, waitingEq, ascending, holds⟩
  rcases map_eq_append_iff.mp waitingEq with ⟨first, rest, rightEq, firstEq, restEq⟩
  rcases map_eq_cons_iff.mp restEq with ⟨place, last, restSplit, placeEq, lastEq⟩
  subst rightEq restSplit
  let changed : Place Item := ⟨place.first, place.merged ++ [(clock, item)]⟩
  have held := holds place (by simp)
  have new : changed.Holds arrivals (clock + 1) := by
    have arrivalsEq : changed.arrivals = place.arrivals ++ [(clock, item)] := rfl
    refine ⟨held.took, ?_, ?_, ?_⟩
    · intro arrival listed
      rcases mem_append.mp listed with before | last
      · exact held.merged arrival before
      · rw [mem_singleton.mp last]
        exact merged
    · rw [arrivalsEq, pairwise_append]
      refine ⟨held.ascending, pairwise_singleton _ _, fun earlier listed later last => ?_⟩
      rw [mem_singleton.mp last]
      exact held.past earlier listed
    · intro arrival listed
      rw [arrivalsEq, mem_append, mem_singleton] at listed
      rcases listed with before | rfl
      · exact Nat.lt_succ_of_lt (held.past arrival before)
      · exact Nat.lt_succ_self clock
  refine ⟨left, first ++ changed :: last, servedEq, ?_, ?_, ?_⟩
  · simp [firstEq, lastEq, ← placeEq, changed, Place.item]
  · -- The times at which the places were taken are as they were.
    have times : (left ++ (first ++ changed :: last)).map (fun place => place.first.1) =
        (left ++ (first ++ place :: last)).map fun place => place.first.1 := by
      simp [changed]
    have before : ((left ++ (first ++ place :: last)).map fun place => place.first.1).Pairwise
        (· < ·) := pairwise_map.mpr ascending
    rw [← times] at before
    exact pairwise_map.mp before
  · intro other listed
    have known : other = changed ∨ other ∈ left ++ (first ++ place :: last) := by
      simp only [mem_append, mem_cons] at listed ⊢
      tauto
    rcases known with rfl | before
    · exact new
    · exact (holds other before).mono (Nat.le_succ clock) (fun _ _ => id) fun _ _ => id

end InOrder

end Line

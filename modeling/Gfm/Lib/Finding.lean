import Mathlib

/-!
# Finding a piece of a list

The first place at which a piece stands in a list. It is the place of a split of the list around
the piece, and no shorter split has the piece.
-/

namespace Finding

open List

universe u

variable {α : Type u} [DecidableEq α]

def find (piece : List α) : List α → Option ℕ
  | [] => if piece = [] then some 0 else none
  | item :: rest =>
      if piece.isPrefixOf (item :: rest) then some 0 else (find piece rest).map (· + 1)

variable {piece list before after : List α} {place : ℕ}

theorem find_eq_some_iff : find piece list = some place ↔
    place ≤ list.length ∧ piece <+: list.drop place ∧
      ∀ earlier < place, ¬piece <+: list.drop earlier := by
  induction list generalizing place with
  | nil =>
      rw [find]
      split
      next empty =>
        subst empty
        constructor
        · intro same
          obtain rfl := Option.some.inj same
          simp
        · rintro ⟨bound, -, -⟩
          rw [length_nil, Nat.le_zero] at bound
          rw [bound]
      next nonempty => simp [nonempty]
  | cons item rest ih =>
      rw [find]
      split
      next here =>
        have first : piece <+: (item :: rest).drop 0 := isPrefixOf_iff_prefix.mp here
        constructor
        · intro same
          obtain rfl := Option.some.inj same
          exact ⟨Nat.zero_le _, first, nofun⟩
        · rintro ⟨-, -, none⟩
          by_contra other
          have positive : 0 < place := by
            by_contra zero
            apply other
            rw [Nat.eq_zero_of_not_pos zero]
          exact none 0 positive first
      next elsewhere =>
        have notFirst : ¬piece <+: item :: rest := fun prefixed =>
          elsewhere (List.isPrefixOf_iff_prefix.mpr prefixed)
        cases place with
        | zero =>
            simp only [Option.map_eq_some_iff, Nat.add_eq_zero_iff, one_ne_zero, and_false,
              exists_false, drop_zero, false_iff, not_and]
            exact fun _ prefixed => (notFirst prefixed).elim
        | succ place =>
            simp only [Option.map_eq_some_iff, Nat.add_right_cancel_iff, exists_eq_right, ih,
              length_cons, drop_succ_cons, Nat.add_le_add_iff_right]
            refine and_congr_right fun _ => and_congr_right fun _ => ?_
            constructor
            · intro none earlier bound
              cases earlier with
              | zero => exact notFirst
              | succ earlier => exact none earlier (by omega)
            · intro none earlier bound
              exact none (earlier + 1) (by omega)

/-- A split around the piece gives its place, if no shorter one does. -/
theorem find_append (none : ∀ earlier < before.length,
    ¬piece <+: (before ++ (piece ++ after)).drop earlier) :
    find piece (before ++ (piece ++ after)) = some before.length := by
  rw [find_eq_some_iff, drop_left]
  refine ⟨?_, prefix_append _ _, none⟩
  rw [length_append]
  exact Nat.le_add_right _ _

theorem length_le_of_find (found : find piece list = some place) :
    place + piece.length ≤ list.length := by
  rcases find_eq_some_iff.mp found with ⟨bound, begins, -⟩
  have fits := begins.length_le
  rw [length_drop] at fits
  omega

/-- What is found in a list is found there in each longer list. -/
theorem find_append_of_find (found : find piece list = some place) :
    find piece (list ++ after) = some place := by
  have fits := length_le_of_find found
  rcases find_eq_some_iff.mp found with ⟨bound, begins, none⟩
  rw [find_eq_some_iff, drop_append_of_le_length bound]
  refine ⟨bound.trans (by simp), begins.trans (prefix_append _ _), ?_⟩
  intro earlier inside again
  rw [drop_append_of_le_length (by omega)] at again
  have length : piece.length ≤ (list.drop earlier).length := by
    rw [length_drop]
    omega
  exact none earlier inside
    (prefix_of_prefix_length_le again (prefix_append _ _) length)

omit [DecidableEq α] in
/-- A piece does not lie across the border to an item that it does not have. -/
theorem infix_append {left right : List α} (border : ∀ item ∈ right.head?, item ∉ piece)
    (inside : piece <:+: left ++ right) : piece <:+: left ∨ piece <:+: right := by
  rcases inside with ⟨before, after, whole⟩
  rw [append_assoc] at whole
  rcases append_eq_append_iff.mp whole with ⟨more, leftEq, restEq⟩ | ⟨more, -, rightEq⟩
  · rcases append_eq_append_iff.mp restEq with ⟨rest, moreEq, -⟩ | ⟨rest, pieceEq, rightEq⟩
    · exact .inl ⟨before, rest, by rw [leftEq, moreEq, append_assoc]⟩
    · cases rest with
      | nil =>
          rw [append_nil] at pieceEq
          exact .inl ⟨before, [], by rw [leftEq, pieceEq, append_nil]⟩
      | cons item rest =>
          exact (border item (by rw [rightEq]; rfl) (by rw [pieceEq]; simp)).elim
  · exact .inr ⟨more, after, by rw [rightEq, append_assoc]⟩

/-- The piece is found behind a list that it is not in, if it cannot begin at the end of it. -/
theorem find_append_of_last (notIn : ¬piece <:+: before)
    (last : ∀ item ∈ before.getLast?, item ∉ piece) :
    find piece (before ++ (piece ++ after)) = some before.length := by
  apply find_append
  intro earlier inside begins
  rw [drop_append_of_le_length inside.le] at begins
  rcases prefix_or_prefix_of_prefix begins (prefix_append _ _) with within | beyond
  · exact notIn (within.isInfix.trans (drop_suffix _ _).isInfix)
  · rcases before.eq_nil_or_concat' with rfl | ⟨front, item, rfl⟩
    · cases inside
    · rw [length_append, length_singleton] at inside
      rw [drop_append_of_le_length (Nat.le_of_lt_succ inside)] at beyond
      exact last item (by simp) (beyond.subset (by simp))

/-- What is found is a split of the list. -/
theorem eq_append_of_find (found : find piece list = some place) :
    list = list.take place ++ (piece ++ list.drop (place + piece.length)) := by
  rcases find_eq_some_iff.mp found with ⟨-, ⟨rest, restEq⟩, -⟩
  have after : list.drop (place + piece.length) = rest := by
    rw [← drop_drop, ← restEq, drop_left]
  rw [after, restEq, take_append_drop]

theorem find_eq_none_iff : find piece list = none ↔ ¬piece <:+: list := by
  induction list with
  | nil =>
      rw [find, infix_nil]
      split <;> simp [*]
  | cons item rest ih =>
      rw [find, infix_cons_iff, not_or, ← ih]
      split
      next here => simp [List.isPrefixOf_iff_prefix.mp here]
      next elsewhere =>
        have notFirst : ¬piece <+: item :: rest := fun prefixed =>
          elsewhere (List.isPrefixOf_iff_prefix.mpr prefixed)
        simp [notFirst]

omit [DecidableEq α] in
/-- A piece of two items is nowhere in the list when no item and the next one are the two. -/
theorem isChain_iff_nowhere {first second : α} :
    list.IsChain (fun item next => ¬(item = first ∧ next = second)) ↔
      ¬[first, second] <:+: list := by
  induction list with
  | nil => simp
  | cons item list ih =>
      cases list with
      | nil => simp [infix_cons_iff]
      | cons next list =>
          have here : [first, second] <+: item :: next :: list ↔ item = first ∧ next = second := by
            simp [cons_prefix_cons, eq_comm]
          have split : [first, second] <:+: item :: next :: list ↔
              [first, second] <+: item :: next :: list ∨ [first, second] <:+: next :: list :=
            infix_cons_iff
          rw [isChain_cons_cons, ih, split, here, not_or]

/-- A piece of two items is found behind what it does not begin in. -/
theorem find_pair {first second : α}
    (nowhere : (before ++ [first]).IsChain fun item next => ¬(item = first ∧ next = second)) :
    find [first, second] (before ++ ([first, second] ++ after)) = some before.length := by
  apply find_append
  intro earlier inside begins
  rw [isChain_iff_nowhere] at nowhere
  have longer : (before ++ [first]).drop earlier <+:
      (before ++ ([first, second] ++ after)).drop earlier := by
    apply List.IsPrefix.drop
    simp
  have fits : [first, second].length ≤ ((before ++ [first]).drop earlier).length := by
    simp
    omega
  have within := prefix_of_prefix_length_le begins longer fits
  exact nowhere (within.isInfix.trans (drop_suffix _ _).isInfix)

/-- A piece of two items that is not in the list, nor begins at its end, is found behind it. -/
theorem find_pair_append {first second : α} (notIn : ¬[first, second] <:+: list)
    (notLast : list.getLast? ≠ some first) :
    find [first, second] (list ++ after) =
      (find [first, second] after).map (list.length + ·) := by
  induction list with
  | nil => simp
  | cons item list ih =>
      rw [infix_cons_iff, not_or] at notIn
      have notHere : ¬[first, second] <+: item :: (list ++ after) := by
        intro begins
        cases list with
        | nil =>
            rw [cons_prefix_cons] at begins
            exact notLast (congrArg some begins.1.symm)
        | cons next list =>
            apply notIn.1
            simpa [cons_prefix_cons] using begins
      have kept : list.getLast? ≠ some first := by
        intro last
        apply notLast
        rw [getLast?_cons, last]
        rfl
      rw [cons_append, find, if_neg (by simpa using notHere), ih notIn.2 kept,
        Option.map_map]
      congr 1
      funext place
      simp
      omega

end Finding

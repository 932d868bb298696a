import Gfm.Lib.EditDistance
import Gfm.Search.Fuzzy

/-!
# The bounded edit distance

The table of the edit distance is filled row by row, in two rows that are as wide as the right term
has bytes. The result is read from the last cell, which belongs to the table only where the term
has one byte to each character; else it is what the row held at the start. Before that, terms whose
lengths in bytes are too far apart are told to be too far apart.
-/

namespace Gfm.Search

open Deletions List

/-- Further than this from every beginning of the right term. -/
def FarFrom (max : Nat) (left right : Text) : Prop :=
  ∀ front, front <+: right → max < distance left front

/-- The cells of a row are the distances to the beginnings of the right term. -/
def RowOf (left right : Text) (row : List Nat) : Prop :=
  ∀ place ≤ right.length, row.getD place 0 = distance left (right.take place)

section Cells

variable {max : Nat} {left right : Text} {row : List Nat}

theorem farFrom_iff : FarFrom max left right ↔
    ∀ place ≤ right.length, max < distance left (right.take place) := by
  constructor
  · exact fun far place _ => far _ (List.take_prefix place right)
  · intro far front begins
    have same := prefix_iff_eq_take.mp begins
    rw [same]
    exact far _ begins.length_le

theorem getD_range {width place : Nat} (inside : place ≤ width) :
    (List.range (width + 1)).getD place 0 = place := by
  have known : place < (List.range (width + 1)).length := by
    rw [length_range]
    omega
  rw [getD_eq_getElem _ _ known, getElem_range]

theorem rowOf_range {width : Nat} {right : Text} (within : right.length ≤ width) :
    RowOf [] right (List.range (width + 1)) := by
  intro place inside
  rw [getD_range (inside.trans within), distance_nil_left, length_take,
    Nat.min_eq_left inside]

theorem getD_set_self (row : List Nat) (place value : Nat) (inside : place < row.length) :
    (row.set place value).getD place 0 = value := by
  simp [getD_eq_getElem?_getD, inside]

theorem getD_set_other (row : List Nat) {place other : Nat} (value : Nat) (apart : place ≠ other) :
    (row.set place value).getD other 0 = row.getD other 0 := by
  simp [getD_eq_getElem?_getD, getElem?_set_ne apart]

/-- What the inner loop leaves: the cells after the first ones are filled, the others are as they
were, and the least cell is kept. -/
structure Filled (left right : Text) (start : Nat) (current : List Nat) (rowMin : Nat)
    (result : List Nat × Nat) : Prop where
  length : result.1.length = current.length
  cells : ∀ place, start < place → place ≤ right.length →
    result.1.getD place 0 = distance left (right.take place)
  others : ∀ place, place ≤ start ∨ right.length < place →
    result.1.getD place 0 = current.getD place 0
  least : ∀ bound, bound < result.2 ↔ bound < rowMin ∧
    ∀ place, start < place → place ≤ right.length → bound < distance left (right.take place)

theorem filled_levenshteinCells (leftChar : Char) (rest : Text) :
    ∀ (done : Text) (previous current : List Nat) (rowMin : Nat),
      RowOf left (done ++ rest) previous → (done ++ rest).length < current.length →
      current.getD done.length 0 = distance (left ++ [leftChar]) done →
      Filled (left ++ [leftChar]) (done ++ rest) done.length current rowMin
        (levenshteinCells leftChar done.length rest previous current rowMin) := by
  induction rest with
  | nil =>
      intro done previous current rowMin _ _ _
      rw [levenshteinCells]
      refine ⟨rfl, ?_, fun _ _ => rfl, ?_⟩
      · intro place after within
        rw [append_nil] at within
        omega
      · intro bound
        refine ⟨fun less => ⟨less, fun place after within => ?_⟩, And.left⟩
        rw [append_nil] at within
        omega
  | cons rightChar rest ih =>
      intro done previous current rowMin above wide last
      have whole : done ++ rightChar :: rest = (done ++ [rightChar]) ++ rest := by simp
      have place : (done ++ [rightChar]).length = done.length + 1 := by simp
      have inside : done.length + 1 < current.length := by
        simp only [length_append, length_cons] at wide
        omega
      -- The cell is the distance, by the equation for the ends of the two terms.
      have cell : min (min (previous.getD (done.length + 1) 0 + 1) (current.getD done.length 0 + 1))
          (previous.getD done.length 0 + if leftChar = rightChar then 0 else 1) =
            distance (left ++ [leftChar]) (done ++ [rightChar]) := by
        have here := above done.length (by simp)
        have next := above (done.length + 1) (by simp)
        rw [take_left] at here
        rw [whole, ← place, take_left, place] at next
        rw [here, next, last, distance_concat]
      rw [levenshteinCells]
      simp only [cell]
      rw [whole] at above wide ⊢
      have filled := ih (done ++ [rightChar]) previous
        (current.set (done.length + 1) (distance (left ++ [leftChar]) (done ++ [rightChar])))
        (min rowMin (distance (left ++ [leftChar]) (done ++ [rightChar]))) above
        (by simpa using wide) (by rw [place, getD_set_self _ _ _ inside])
      rw [place] at filled
      have taken :
          ((done ++ [rightChar]) ++ rest).take (done.length + 1) = done ++ [rightChar] := by
        rw [← place, take_left]
      refine ⟨?_, ?_, ?_, ?_⟩
      · simpa using filled.length
      · intro other after within
        by_cases same : other = done.length + 1
        · rw [same, filled.others _ (Or.inl le_rfl), getD_set_self _ _ _ inside, taken]
        · exact filled.cells other (by omega) within
      · intro other apart
        have differs : done.length + 1 ≠ other := by
          simp only [length_append, length_singleton] at apart
          omega
        rw [filled.others other (by omega), getD_set_other _ _ differs]
      · intro bound
        rw [filled.least bound, Nat.lt_min]
        constructor
        · rintro ⟨⟨less, here⟩, later⟩
          refine ⟨less, fun other after within => ?_⟩
          by_cases same : other = done.length + 1
          · rw [same, taken]
            exact here
          · exact later other (by omega) within
        · rintro ⟨less, later⟩
          refine ⟨⟨less, ?_⟩, fun other after within => later other (by omega) within⟩
          have here := later (done.length + 1) (by omega) (by simp)
          rwa [taken] at here

/-- A row after the loop over the right term is that of one more character of the left term. -/
theorem row_levenshteinCells (leftChar : Char) {done : Text} {previous current : List Nat}
    (above : RowOf done right previous) (wide : right.length < current.length) :
    let result := levenshteinCells leftChar 0 right previous (current.set 0 (done.length + 1))
      (done.length + 1)
    result.1.length = current.length ∧ RowOf (done ++ [leftChar]) right result.1 ∧
      (∀ place, right.length < place → result.1.getD place 0 = current.getD place 0) ∧
      (max < result.2 ↔ FarFrom max (done ++ [leftChar]) right) := by
  have first : (current.set 0 (done.length + 1)).getD 0 0 =
      distance (done ++ [leftChar]) [] := by
    rw [getD_set_self _ _ _ (by omega)]
    simp
  have filled := filled_levenshteinCells leftChar right [] previous
    (current.set 0 (done.length + 1)) (done.length + 1) above (by simpa using wide) first
  simp only [nil_append, length_nil] at filled
  refine ⟨by simpa using filled.length, ?_, ?_, ?_⟩
  · intro place inside
    cases place with
    | zero => rw [filled.others 0 (Or.inl le_rfl), first, take_zero]
    | succ place => exact filled.cells (place + 1) (Nat.succ_pos place) inside
  · intro place beyond
    rw [filled.others place (Or.inr beyond), getD_set_other _ _ (by omega)]
  · rw [filled.least max, farFrom_iff]
    constructor
    · rintro ⟨less, later⟩ place inside
      cases place with
      | zero => simpa using less
      | succ place => exact later (place + 1) (Nat.succ_pos place) inside
    · intro far
      exact ⟨by simpa using far 0 (Nat.zero_le _), fun place _ inside => far place inside⟩

/-- What the outer loop gives: it stops at a beginning of the left term that is too far from the
right one, or ends with the last row. The cells beyond the right term are those of one of the two
rows that it started with. -/
theorem levenshteinRows_cases (right : Text) (max : Nat) (rest : Text) :
    ∀ (done : Text) (previous current : List Nat), RowOf done right previous →
      right.length < previous.length → right.length < current.length →
      (levenshteinRows right max done.length rest previous current = none ∧
          ∃ front, front ≠ [] ∧ front <+: rest ∧ FarFrom max (done ++ front) right) ∨
        ∃ row, levenshteinRows right max done.length rest previous current = some row ∧
          (∀ front, front ≠ [] → front <+: rest → ¬FarFrom max (done ++ front) right) ∧
          RowOf (done ++ rest) right row ∧
          ∀ place, right.length < place → row.getD place 0 =
            (if rest.length % 2 = 0 then previous else current).getD place 0 := by
  induction rest with
  | nil =>
      intro done previous current above _ _
      refine Or.inr ⟨previous, rfl, ?_, by simpa using above, fun _ _ => rfl⟩
      intro front some begins
      exact absurd (prefix_nil.mp begins) some
  | cons leftChar rest ih =>
      intro done previous current above wide wideCurrent
      have whole : done ++ leftChar :: rest = (done ++ [leftChar]) ++ rest := by simp
      have filled :=
        @row_levenshteinCells max right leftChar done previous current above wideCurrent
      rw [levenshteinRows]
      generalize levenshteinCells leftChar 0 right previous (current.set 0 (done.length + 1))
        (done.length + 1) = result at filled ⊢
      rcases result with ⟨cells, rowMin⟩
      rcases filled with ⟨length, row, beyond, far⟩
      dsimp only
      split
      case isTrue cut =>
        exact Or.inl ⟨rfl, [leftChar], cons_ne_nil _ _, ⟨rest, rfl⟩, far.mp cut⟩
      case isFalse near =>
        have later :=
          ih (done ++ [leftChar]) _ previous row (by rw [length]; exact wideCurrent) wide
        rw [length_append, length_singleton] at later
        rcases later with ⟨stopped, front, some, begins, farFront⟩ |
          ⟨last, ended, nearAll, lastRow, lastBeyond⟩
        · refine Or.inl ⟨stopped, leftChar :: front, cons_ne_nil _ _, ?_, ?_⟩
          · exact cons_prefix_cons.mpr ⟨rfl, begins⟩
          · simpa using farFront
        · refine Or.inr ⟨last, ended, ?_, by rw [whole]; exact lastRow, ?_⟩
          · intro front some begins
            rcases prefix_cons_iff.mp begins with rfl | ⟨inner, rfl, goesOn⟩
            · exact absurd rfl some
            · cases inner with
              | nil => exact fun farFront => near (far.mpr farFront)
              | cons char inner =>
                  have nearInner := nearAll (char :: inner) (cons_ne_nil _ _) goesOn
                  simpa using nearInner
          · intro place outside
            rw [lastBeyond place outside, length_cons]
            rcases Nat.mod_two_eq_zero_or_one rest.length with even | odd
            · rw [if_pos even, if_neg (by omega), beyond place outside]
            · rw [if_neg (by omega), if_pos (by omega)]

end Cells

section Exact

variable {left right : Text} {max : Nat}

/-- The bounded distance is the distance, unless that is beyond the bound. -/
def DistanceExact (left right : Text) (max : Nat) : Prop :=
  boundedLevenshtein left right max =
    if distance left right ≤ max then some (distance left right) else none

/-- The lengths in bytes are no further apart than the bound. -/
def LengthsNear (left right : Text) (max : Nat) : Prop :=
  (utf8Length left - utf8Length right) + (utf8Length right - utf8Length left) ≤ max

/-- Some beginning of the left term is too far from every beginning of the right one. -/
def CutOff (left right : Text) (max : Nat) : Prop :=
  ∃ front, front <+: left ∧ FarFrom max front right

theorem length_le_utf8Length (text : Text) : text.length ≤ utf8Length text := by
  induction text with
  | nil => exact le_rfl
  | cons char text ih =>
      have byte := Char.utf8Size_pos char
      simp only [utf8Length, map_cons, sum_cons, length_cons] at ih ⊢
      omega

theorem farFrom_nil : ¬FarFrom max [] right := by
  intro far
  have first := far [] (List.nil_prefix ..)
  simp at first

theorem cutOff_iff : CutOff left right max ↔
    ∃ front, front ≠ [] ∧ front <+: left ∧ FarFrom max front right := by
  constructor
  · rintro ⟨front, begins, far⟩
    refine ⟨front, fun empty => farFrom_nil (empty ▸ far), begins, far⟩
  · rintro ⟨front, _, begins, far⟩
    exact ⟨front, begins, far⟩

/-- Terms within the bound are not cut off. -/
theorem not_cutOff (near : distance left right ≤ max) : ¬CutOff left right max := by
  rintro ⟨front, begins, far⟩
  rcases exists_prefix_distance_le begins right with ⟨other, prefixed, close⟩
  have beyond := far other prefixed
  omega

/-- The last cell of the row: the distance if the right term has one byte to a character, else what
the row held there at first. -/
def lastCell (left right : Text) : Nat :=
  if utf8Length right = right.length then distance left right
  else if left.length % 2 = 0 then utf8Length right else 0

theorem boundedLevenshtein_eq (left right : Text) (max : Nat)
    [Decidable (LengthsNear left right max ∧ ¬CutOff left right max ∧
      lastCell left right ≤ max)] :
    boundedLevenshtein left right max =
      if LengthsNear left right max ∧ ¬CutOff left right max ∧ lastCell left right ≤ max then
        some (lastCell left right)
      else none := by
  have within := length_le_utf8Length right
  rw [boundedLevenshtein]
  by_cases near : LengthsNear left right max
  · rw [if_neg (Nat.not_lt.mpr near)]
    rcases levenshteinRows_cases right max left [] (List.range (utf8Length right + 1))
        (List.replicate (utf8Length right + 1) 0) (rowOf_range within) (by simp; omega)
        (by simp; omega) with ⟨stopped, front, some, begins, far⟩ | ⟨row, ended, none, last, beyond⟩
    · have cut : CutOff left right max := ⟨front, begins, by simpa using far⟩
      simp only [length_nil] at stopped
      rw [stopped, if_neg fun all => all.2.1 cut]
      rfl
    · have uncut : ¬CutOff left right max := by
        rw [cutOff_iff]
        rintro ⟨front, some, begins, far⟩
        exact none front some begins (by simpa using far)
      have cell : row.getD (utf8Length right) 0 = lastCell left right := by
        rw [lastCell]
        split
        case isTrue ascii =>
          have whole := last right.length le_rfl
          simpa [ascii] using whole
        case isFalse wide =>
          rw [beyond _ (by omega)]
          split
          case isTrue => exact getD_range le_rfl
          case isFalse => simp
      simp only [length_nil] at ended
      rw [ended, Option.bind_some, cell]
      by_cases small : lastCell left right ≤ max
      · rw [if_pos small, if_pos ⟨near, uncut, small⟩]
      · rw [if_neg small, if_neg fun all => small all.2.2]
  · rw [if_pos (Nat.not_le.mp near), if_neg fun all => near all.1]

theorem distanceExact_of_near (near : distance left right ≤ max) :
    DistanceExact left right max ↔
      LengthsNear left right max ∧ lastCell left right = distance left right := by
  classical
  rw [DistanceExact, boundedLevenshtein_eq, if_pos near]
  have uncut := not_cutOff near
  constructor
  · intro same
    by_cases all : LengthsNear left right max ∧ ¬CutOff left right max ∧ lastCell left right ≤ max
    · rw [if_pos all, Option.some.injEq] at same
      exact ⟨all.1, same⟩
    · rw [if_neg all] at same
      cases same
  · rintro ⟨lengths, same⟩
    rw [if_pos ⟨lengths, uncut, same ▸ near⟩, same]

theorem distanceExact_of_far (far : max < distance left right) :
    DistanceExact left right max ↔
      ¬LengthsNear left right max ∨ CutOff left right max ∨ max < lastCell left right := by
  classical
  rw [DistanceExact, boundedLevenshtein_eq, if_neg (Nat.not_le.mpr far)]
  rw [ite_eq_right_iff]
  simp only [reduceCtorEq, imp_false]
  rw [not_and_or, not_and_or, not_not, Nat.not_le]

/-- Where the right term has one byte to a character, terms within the bound must have lengths in
bytes within it. Elsewhere the result is either the number of bytes of the right term or zero, by
the parity of the left term, unless the lengths or a row end the computation. -/
def BoundApplies (left right : Text) (max : Nat) : Prop :=
  if utf8Length right = right.length then
    LengthsNear left right max ∨ max < distance left right
  else if distance left right ≤ max then
    LengthsNear left right max ∧
      if left.length % 2 = 0 then distance left right = utf8Length right else left = right
  else
    ¬LengthsNear left right max ∨ CutOff left right max ∨
      (left.length % 2 = 0 ∧ max < utf8Length right)

/-- The bounded distance is exact exactly where the bound applies. -/
theorem distanceExact_iff (left right : Text) (max : Nat) :
    DistanceExact left right max ↔ BoundApplies left right max := by
  rw [BoundApplies]
  by_cases near : distance left right ≤ max
  · rw [distanceExact_of_near near, lastCell, if_pos near]
    split
    case isTrue ascii => simp [Nat.not_lt.mpr near]
    case isFalse wide =>
      refine and_congr_right fun _ => ?_
      split
      case isTrue => exact eq_comm
      case isFalse => rw [eq_comm, distance_eq_zero_iff]
  · rw [distanceExact_of_far (Nat.not_le.mp near), lastCell, if_neg near]
    have far := Nat.not_le.mp near
    split
    case isTrue ascii => simp [far]
    case isFalse wide =>
      refine or_congr_right (or_congr_right ?_)
      split
      case isTrue even => simp [even]
      case isFalse odd => simp [odd]

/-- A character of three bytes is one edit apart from a character of one byte, and two equal terms
of two such characters are no edit apart. -/
theorem bound_inexact :
    ¬DistanceExact ['a'] ['日'] 1 ∧ ¬DistanceExact ['日', '本'] ['日', '本'] 2 := by
  constructor
  · rw [distanceExact_of_near (by simp [distance])]
    rintro ⟨lengths, _⟩
    revert lengths
    unfold LengthsNear
    decide
  · have free : distance ['日', '本'] ['日', '本'] = 0 := distance_eq_zero_iff.mpr rfl
    rw [distanceExact_of_near (by omega), free]
    rintro ⟨_, cell⟩
    revert cell
    have wide : utf8Length ['日', '本'] = 6 := by decide
    simp [lastCell, wide]

end Exact

end Gfm.Search

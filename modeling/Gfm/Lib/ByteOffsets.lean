import Mathlib

/-!
# Byte offsets into a text

A text is a list of characters and its offsets count the bytes of their encoding. An offset that
falls between two characters is a boundary; the boundaries are the lengths of what the text
begins with. An offset inside a character is moved down to the boundary before it or up to the
boundary after it, byte by byte.
-/

namespace ByteOffsets

open List

def byteLength (text : List Char) : ℕ := (text.map Char.utf8Size).sum

@[simp]
theorem byteLength_nil : byteLength [] = 0 := rfl

@[simp]
theorem byteLength_cons (char : Char) (text : List Char) :
    byteLength (char :: text) = char.utf8Size + byteLength text := by
  simp [byteLength]

@[simp]
theorem byteLength_append (left right : List Char) :
    byteLength (left ++ right) = byteLength left + byteLength right := by
  simp [byteLength]

theorem byteLength_eq_zero {text : List Char} : byteLength text = 0 ↔ text = [] := by
  cases text with
  | nil => simp
  | cons char text =>
      have positive := char.utf8Size_pos
      simp
      omega

theorem byteLength_le_of_sublist {left right : List Char} (within : left.Sublist right) :
    byteLength left ≤ byteLength right := by
  induction within with
  | slnil => simp
  | cons char _ ih => simp; omega
  | cons_cons char _ ih => simp; omega

/-- Whether the offset falls between two characters, or at an end. -/
def isCharBoundary : List Char → ℕ → Bool
  | _, 0 => true
  | [], _ + 1 => false
  | char :: text, index + 1 =>
      char.utf8Size ≤ index + 1 && isCharBoundary text (index + 1 - char.utf8Size)

/-- The text before an offset; of a character that the offset cuts, nothing is left. -/
def sliceTo : List Char → ℕ → List Char
  | [], _ => []
  | char :: text, index =>
      if char.utf8Size ≤ index then char :: sliceTo text (index - char.utf8Size) else []

def floorFrom (text : List Char) : ℕ → ℕ
  | 0 => 0
  | index + 1 => if isCharBoundary text (index + 1) then index + 1 else floorFrom text index

def floorCharBoundary (text : List Char) (index : ℕ) : ℕ :=
  floorFrom text (min index (byteLength text))

/-- The first boundary of as many offsets as are left to try. -/
def ceilFrom (text : List Char) (index : ℕ) : ℕ → ℕ
  | 0 => index
  | left + 1 => if isCharBoundary text index then index else ceilFrom text (index + 1) left

def ceilCharBoundary (text : List Char) (index : ℕ) : ℕ :=
  ceilFrom text (min index (byteLength text)) (byteLength text - min index (byteLength text))

/-- The text between two boundaries, if they are ones and in order. -/
def slice (text : List Char) (start stop : ℕ) : Option (List Char) :=
  if start ≤ stop ∧ isCharBoundary text start ∧ isCharBoundary text stop then
    some ((sliceTo text stop).drop (sliceTo text start).length)
  else none

@[simp]
theorem isCharBoundary_zero (text : List Char) : isCharBoundary text 0 = true := by
  cases text <;> rfl

theorem isCharBoundary_append (left right : List Char) :
    isCharBoundary (left ++ right) (byteLength left) = true := by
  induction left with
  | nil => simp
  | cons char left ih =>
      have positive := char.utf8Size_pos
      obtain ⟨size, sizeEq⟩ : ∃ size, char.utf8Size + byteLength left = size + 1 :=
        ⟨char.utf8Size + byteLength left - 1, by omega⟩
      have rest : size + 1 - char.utf8Size = byteLength left := by omega
      simp only [cons_append, byteLength_cons, sizeEq, isCharBoundary, rest, ih,
        Bool.and_true, decide_eq_true_eq]
      omega

/-- A boundary is the length of what the text begins with. -/
theorem isCharBoundary_iff {text : List Char} {index : ℕ} :
    isCharBoundary text index = true ↔
      ∃ left right, text = left ++ right ∧ byteLength left = index := by
  constructor
  · intro boundary
    induction text generalizing index with
    | nil =>
        cases index with
        | zero => exact ⟨[], [], rfl, rfl⟩
        | succ index => cases boundary
    | cons char text ih =>
        cases index with
        | zero => exact ⟨[], char :: text, rfl, rfl⟩
        | succ index =>
            simp only [isCharBoundary, Bool.and_eq_true, decide_eq_true_eq] at boundary
            rcases ih boundary.2 with ⟨left, right, textEq, lengthEq⟩
            refine ⟨char :: left, right, by rw [textEq]; rfl, ?_⟩
            rw [byteLength_cons, lengthEq]
            omega
  · rintro ⟨left, right, rfl, rfl⟩
    exact isCharBoundary_append left right

theorem isCharBoundary_byteLength (text : List Char) :
    isCharBoundary text (byteLength text) = true := by
  simpa using isCharBoundary_append text []

theorem isCharBoundary_floorFrom (text : List Char) (index : ℕ) :
    isCharBoundary text (floorFrom text index) = true := by
  induction index with
  | zero => simp [floorFrom]
  | succ index ih =>
      rw [floorFrom]
      split
      · assumption
      · exact ih

theorem floorFrom_le (text : List Char) (index : ℕ) : floorFrom text index ≤ index := by
  induction index with
  | zero => simp [floorFrom]
  | succ index ih =>
      rw [floorFrom]
      split
      · simp
      · omega

theorem le_floorFrom {text : List Char} {boundary index : ℕ}
    (isBoundary : isCharBoundary text boundary = true) (le : boundary ≤ index) :
    boundary ≤ floorFrom text index := by
  induction index with
  | zero => simpa [floorFrom] using le
  | succ index ih =>
      rw [floorFrom]
      split
      next => exact le
      next cut =>
        apply ih
        by_contra beyond
        have same : boundary = index + 1 := by omega
        exact cut (same ▸ isBoundary)

theorem isCharBoundary_floor (text : List Char) (index : ℕ) :
    isCharBoundary text (floorCharBoundary text index) = true :=
  isCharBoundary_floorFrom text _

theorem floorCharBoundary_le (text : List Char) (index : ℕ) :
    floorCharBoundary text index ≤ index :=
  (floorFrom_le text _).trans (min_le_left _ _)

theorem sliceTo_append (left right : List Char) :
    sliceTo (left ++ right) (byteLength left) = left := by
  induction left with
  | nil =>
      cases right with
      | nil => rfl
      | cons char right =>
          have positive := char.utf8Size_pos
          simp [sliceTo]
          omega
  | cons char left ih => simp [sliceTo, ih]

/-- What is before a boundary has its length. -/
theorem sliceTo_of_isCharBoundary {text : List Char} {index : ℕ}
    (boundary : isCharBoundary text index = true) :
    byteLength (sliceTo text index) = index ∧ ∃ right, text = sliceTo text index ++ right := by
  rcases isCharBoundary_iff.mp boundary with ⟨left, right, rfl, rfl⟩
  rw [sliceTo_append]
  exact ⟨rfl, right, rfl⟩

theorem floorFrom_of_isCharBoundary {text : List Char} {index : ℕ}
    (boundary : isCharBoundary text index = true) : floorFrom text index = index :=
  (floorFrom_le text index).antisymm (le_floorFrom boundary le_rfl)

@[simp]
theorem sliceTo_byteLength (text : List Char) : sliceTo text (byteLength text) = text := by
  simpa using sliceTo_append text []

theorem floorCharBoundary_of_le {text : List Char} {index : ℕ} (long : byteLength text ≤ index) :
    floorCharBoundary text index = byteLength text := by
  rw [floorCharBoundary, min_eq_right long,
    floorFrom_of_isCharBoundary (isCharBoundary_byteLength text)]

section Fitting

variable {text left right : List Char} {index : ℕ}

theorem byteLength_sliceTo_le (text : List Char) (index : ℕ) :
    byteLength (sliceTo text index) ≤ index := by
  induction text generalizing index with
  | nil => simp [sliceTo]
  | cons char text ih =>
      rw [sliceTo]
      split
      next fits =>
        have rest := ih (index - char.utf8Size)
        rw [byteLength_cons]
        omega
      next => simp

theorem sliceTo_isPrefix (text : List Char) (index : ℕ) : sliceTo text index <+: text := by
  induction text generalizing index with
  | nil => simp [sliceTo]
  | cons char text ih =>
      rw [sliceTo]
      split
      · exact cons_prefix_cons.mpr ⟨rfl, ih _⟩
      · exact nil_prefix

theorem sliceTo_append_of_le (fits : byteLength left ≤ index) :
    sliceTo (left ++ right) index = left ++ sliceTo right (index - byteLength left) := by
  induction left generalizing index with
  | nil => simp
  | cons char left ih =>
      rw [byteLength_cons] at fits
      have rest : index - char.utf8Size - byteLength left =
          index - byteLength (char :: left) := by
        rw [byteLength_cons]
        omega
      rw [cons_append, sliceTo, if_pos (by omega), ih (by omega), rest, cons_append]

theorem sliceTo_append_of_ge (beyond : index ≤ byteLength left) :
    sliceTo (left ++ right) index = sliceTo left index := by
  induction left generalizing index with
  | nil =>
      obtain rfl : index = 0 := by simpa using beyond
      have none := byteLength_sliceTo_le right 0
      exact byteLength_eq_zero.mp (by simpa using none)
  | cons char left ih =>
      rw [byteLength_cons] at beyond
      rw [cons_append, sliceTo, sliceTo, ih (by omega)]

theorem sliceTo_of_le (fits : byteLength text ≤ index) : sliceTo text index = text := by
  have whole := @sliceTo_append_of_le text [] index fits
  simpa [sliceTo] using whole

/-- What is before an offset is the longest part at the front that fits. -/
theorem isPrefix_sliceTo {part : List Char} (front : part <+: text)
    (fits : byteLength part ≤ index) : part <+: sliceTo text index := by
  rcases front with ⟨rest, rfl⟩
  rw [sliceTo_append_of_le fits]
  exact prefix_append _ _

theorem sliceTo_floorCharBoundary (text : List Char) (index : ℕ) :
    sliceTo text (floorCharBoundary text index) = sliceTo text index := by
  have floored := sliceTo_of_isCharBoundary (isCharBoundary_floor text index)
  rcases sliceTo_isPrefix text index with ⟨rest, textEq⟩
  have boundary : isCharBoundary text (byteLength (sliceTo text index)) = true :=
    isCharBoundary_iff.mpr ⟨_, rest, textEq.symm, rfl⟩
  have reached : byteLength (sliceTo text index) ≤ floorCharBoundary text index := by
    apply le_floorFrom boundary
    apply le_min (byteLength_sliceTo_le text index)
    exact byteLength_le_of_sublist (sliceTo_isPrefix text index).sublist
  have front : sliceTo text (floorCharBoundary text index) <+: sliceTo text index := by
    apply isPrefix_sliceTo (sliceTo_isPrefix text _)
    rw [floored.1]
    exact floorCharBoundary_le text index
  rcases front with ⟨more, same⟩
  have total := congrArg byteLength same
  rw [byteLength_append, floored.1] at total
  obtain rfl : more = [] := byteLength_eq_zero.mp (by omega)
  simpa using same

theorem isCharBoundary_of_append (boundary : isCharBoundary (left ++ right) index = true)
    (within : index ≤ byteLength left) : isCharBoundary left index = true := by
  have length := (sliceTo_of_isCharBoundary boundary).1
  rw [sliceTo_append_of_ge within] at length
  rcases sliceTo_isPrefix left index with ⟨rest, leftEq⟩
  exact isCharBoundary_iff.mpr ⟨_, rest, leftEq.symm, length⟩

theorem le_ceilFrom (text : List Char) (index left : ℕ) : index ≤ ceilFrom text index left := by
  induction left generalizing index with
  | zero => exact le_rfl
  | succ left ih =>
      rw [ceilFrom]
      split
      · exact le_rfl
      · exact (Nat.le_succ index).trans (ih _)

/-- The tries end at a boundary, at the latest at the end of the text. -/
theorem isCharBoundary_ceilFrom {left : ℕ} (last : index + left = byteLength text) :
    isCharBoundary text (ceilFrom text index left) = true := by
  induction left generalizing index with
  | zero =>
      obtain rfl : index = byteLength text := last
      exact isCharBoundary_byteLength text
  | succ left ih =>
      rw [ceilFrom]
      split
      next boundary => exact boundary
      next => exact ih (by omega)

theorem isCharBoundary_ceil (text : List Char) (index : ℕ) :
    isCharBoundary text (ceilCharBoundary text index) = true :=
  isCharBoundary_ceilFrom (Nat.add_sub_cancel' (min_le_right _ _))

theorem le_ceilCharBoundary (within : index ≤ byteLength text) :
    index ≤ ceilCharBoundary text index := by
  rw [ceilCharBoundary, min_eq_left within]
  exact le_ceilFrom text _ _

/-- A piece of a text is inside of each longer slice. -/
theorem slice_around {before piece after : List Char} {start stop : ℕ}
    (startBoundary : isCharBoundary (before ++ (piece ++ after)) start = true)
    (stopBoundary : isCharBoundary (before ++ (piece ++ after)) stop = true)
    (starts : start ≤ byteLength before) (stops : byteLength (before ++ piece) ≤ stop) :
    ∃ front back, slice (before ++ (piece ++ after)) start stop = some (front ++ (piece ++ back)) ∧
      byteLength front = byteLength before - start := by
  have order : start ≤ stop := by
    rw [byteLength_append] at stops
    omega
  have early : sliceTo (before ++ (piece ++ after)) start = sliceTo before start :=
    sliceTo_append_of_ge starts
  rcases sliceTo_isPrefix before start with ⟨front, beforeEq⟩
  have length := (sliceTo_of_isCharBoundary startBoundary).1
  rw [early] at length
  refine ⟨front, sliceTo after (stop - byteLength (before ++ piece)), ?_, ?_⟩
  · rw [slice, if_pos ⟨order, startBoundary, stopBoundary⟩, early, ← append_assoc,
      sliceTo_append_of_le stops, append_assoc]
    nth_rewrite 2 [← beforeEq]
    rw [append_assoc, drop_left]
  · have total := congrArg byteLength beforeEq
    rw [byteLength_append, length] at total
    omega

/-- The slice between the offsets of two splits. -/
theorem slice_append (before piece after : List Char) :
    slice (before ++ (piece ++ after)) (byteLength before) (byteLength (before ++ piece)) =
      some piece := by
  have start := isCharBoundary_append before (piece ++ after)
  have stop := isCharBoundary_append (before ++ piece) after
  have piecesEnd := sliceTo_append (before ++ piece) after
  rw [append_assoc] at stop piecesEnd
  have order : byteLength before ≤ byteLength (before ++ piece) := by
    rw [byteLength_append]
    omega
  rw [slice, if_pos ⟨order, start, stop⟩, sliceTo_append, piecesEnd, drop_left]

end Fitting

end ByteOffsets

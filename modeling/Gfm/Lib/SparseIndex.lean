import Gfm.Lib.Sorted

/-!
# Sparse indexes

A sorted list is cut into pieces of one size, and only the first item of each piece is kept in an
index. A lookup searches the index for the piece that an item would be in and goes through that
piece alone. It finds an item exactly if the list has it, and where the list has it.
-/

namespace SparseIndex

open List Sorted Std

universe u

variable {Item : Type u}

/-- The list in pieces of the size; the last one may be shorter. -/
def pieces (size : Nat) (items : List Item) : List (List Item) :=
  if items.length = 0 ∨ size = 0 then []
  else items.take size :: pieces size (items.drop size)
termination_by items.length
decreasing_by
  rw [length_drop]
  omega

/-- The first items of the pieces. -/
def firsts (size : Nat) (items : List Item) : List Item :=
  (pieces size items).filterMap List.head?

section Pieces

variable {size : Nat}

@[simp]
theorem pieces_nil : pieces size ([] : List Item) = [] := by
  rw [pieces]
  exact if_pos (Or.inl rfl)

theorem pieces_of_ne_nil (positive : 0 < size) {items : List Item} (filled : items ≠ []) :
    pieces size items = items.take size :: pieces size (items.drop size) := by
  have long := length_pos_iff.mpr filled
  rw [pieces, if_neg (by omega)]

/-- A piece is a slice of the list, from a multiple of the size on. -/
theorem getElem?_pieces (positive : 0 < size) (items : List Item) (index : Nat) :
    (pieces size items)[index]? =
      if index * size < items.length then some ((items.drop (index * size)).take size)
      else none := by
  induction items using pieces.induct size generalizing index with
  | case1 items stop =>
      have empty : items = [] := length_eq_zero_iff.mp (by omega)
      simp [empty]
  | case2 items more ih =>
      have filled : items ≠ [] := fun empty => more (Or.inl (length_eq_zero_iff.mpr empty))
      rw [pieces_of_ne_nil positive filled]
      cases index with
      | zero => simp [length_pos_iff.mpr filled]
      | succ index =>
          have shift : (index + 1) * size = size + index * size := by
            rw [Nat.succ_mul, Nat.add_comm]
          have inside : index * size < items.length - size ↔
              size + index * size < items.length := by omega
          rw [getElem?_cons_succ, ih index, length_drop, drop_drop, shift]
          simp only [inside]

/-- Every piece is a slice from within the list. -/
theorem exists_slice_of_mem_pieces {items piece : List Item} (listed : piece ∈ pieces size items) :
    0 < size ∧ ∃ start < items.length, piece = (items.drop start).take size := by
  have positive : 0 < size := by
    refine Nat.pos_of_ne_zero fun zero => ?_
    rw [pieces, if_pos (Or.inr zero)] at listed
    cases listed
  rcases getElem?_of_mem listed with ⟨index, place⟩
  rw [getElem?_pieces positive] at place
  split at place
  case isFalse => cases place
  case isTrue inside => exact ⟨positive, index * size, inside, (Option.some.inj place).symm⟩

theorem ne_nil_of_mem_pieces {items piece : List Item} (listed : piece ∈ pieces size items) :
    piece ≠ [] := by
  rcases exists_slice_of_mem_pieces listed with ⟨positive, start, inside, rfl⟩
  refine ne_nil_of_length_pos ?_
  rw [length_take, length_drop]
  omega

theorem length_le_of_mem_pieces {items piece : List Item} (listed : piece ∈ pieces size items) :
    piece.length ≤ size := by
  rcases exists_slice_of_mem_pieces listed with ⟨-, start, -, rfl⟩
  exact length_take_le size _

theorem sublist_of_mem_pieces {items piece : List Item} (listed : piece ∈ pieces size items) :
    piece.Sublist items := by
  rcases exists_slice_of_mem_pieces listed with ⟨-, start, -, rfl⟩
  exact (take_sublist size _).trans (drop_sublist start items)

theorem flatten_pieces (positive : 0 < size) (items : List Item) :
    (pieces size items).flatten = items := by
  induction items using pieces.induct size with
  | case1 items stop =>
      have empty : items = [] := length_eq_zero_iff.mp (by omega)
      simp [empty]
  | case2 items more ih =>
      have filled : items ≠ [] := fun empty => more (Or.inl (length_eq_zero_iff.mpr empty))
      rw [pieces_of_ne_nil positive filled, flatten_cons, ih, take_append_drop]

theorem length_pieces_le (size : Nat) (items : List Item) :
    (pieces size items).length ≤ items.length := by
  induction items using pieces.induct size with
  | case1 items stop =>
      rw [pieces, if_pos stop]
      exact Nat.zero_le _
  | case2 items more ih =>
      rw [pieces, if_neg more, length_cons]
      rw [length_drop] at ih
      omega

/-- The index says where the pieces begin. -/
theorem getElem?_firsts (positive : 0 < size) (items : List Item) (index : Nat) :
    (firsts size items)[index]? = items[index * size]? := by
  induction items using pieces.induct size generalizing index with
  | case1 items stop =>
      have empty : items = [] := length_eq_zero_iff.mp (by omega)
      simp [firsts, empty]
  | case2 items more ih =>
      have filled : items ≠ [] := fun empty => more (Or.inl (length_eq_zero_iff.mpr empty))
      have head : (items.take size).head? = some (items.head filled) := by
        rw [head?_take, if_neg (by omega), head?_eq_some_head filled]
      have rest : firsts size items = items.head filled :: firsts size (items.drop size) := by
        simp only [firsts, pieces_of_ne_nil positive filled, filterMap_cons, head]
      rw [rest]
      cases index with
      | zero =>
          rw [getElem?_cons_zero, Nat.zero_mul, ← head?_eq_getElem?,
            head?_eq_some_head filled]
      | succ index =>
          rw [getElem?_cons_succ, ih index, getElem?_drop, Nat.succ_mul,
            Nat.add_comm size]

/-- An item is in the piece that its index divided by the size tells, at the remainder. -/
theorem getElem?_div_mod (positive : 0 < size) {items : List Item} {index : Nat}
    (inside : index < items.length) :
    ∃ piece, (pieces size items)[index / size]? = some piece ∧
      piece[index % size]? = items[index]? := by
  have parts := Nat.div_add_mod' index size
  have below := Nat.mod_lt index positive
  refine ⟨_, (getElem?_pieces positive items _).trans (if_pos (by omega)), ?_⟩
  rw [getElem?_take_of_lt below, getElem?_drop, parts]

end Pieces

section Search

variable [Ord Item]

/-- The index of the target, or the index at which it could be inserted. -/
def binarySearch (items : List Item) (target : Item) : Except Nat Nat :=
  let index := partitionPoint (fun item => (compare item target).isLT) items
  if items[index]?.any fun item => compare item target = .eq then .ok index else .error index

/-- The scan of a piece whose first item has this index; it stops at a larger item. -/
def scan (target : Item) : Nat → List Item → Option Nat
  | _, [] => none
  | index, item :: items =>
      match compare item target with
      | .eq => some index
      | .gt => none
      | .lt => scan target (index + 1) items

/-- The piece that the target would be in. -/
def pieceOf (firsts : List Item) (target : Item) : Option Nat :=
  match binarySearch firsts target with
  | .ok index => some index
  | .error 0 => none
  | .error (index + 1) => some index

omit [Ord Item] in
theorem partitionPoint_eq {before : Item → Bool} {items : List Item} {index : Nat}
    (early : ∀ item ∈ items.take index, before item = true)
    (late : ∀ item, items[index]? = some item → before item = false)
    (within : index ≤ items.length) : partitionPoint before items = index := by
  have stop : (items.drop index).takeWhile before = [] := by
    cases shape : items.drop index with
    | nil => rfl
    | cons item rest =>
        have place : items[index]? = some item := by
          rw [← head?_drop, shape, head?_cons]
        simp [late item place]
  have whole : items.takeWhile before = items.take index := by
    conv_lhs => rw [← take_append_drop index items]
    rw [takeWhile_append_of_pos early, stop, append_nil]
  rw [partitionPoint, whole, length_take, Nat.min_eq_left within]

variable [TransOrd Item] [LawfulEqOrd Item] {items : List Item} {size : Nat}

omit [TransOrd Item] [LawfulEqOrd Item] in
theorem Strict.lt_of_getElem? (strict : Strict id items) {left right : Nat} {low high : Item}
    (order : left < right) (atLeft : items[left]? = some low)
    (atRight : items[right]? = some high) : compare low high = .lt := by
  rcases List.getElem?_eq_some_iff.mp atLeft with ⟨insideLeft, rfl⟩
  rcases List.getElem?_eq_some_iff.mp atRight with ⟨insideRight, rfl⟩
  exact pairwise_iff_getElem.mp strict left right insideLeft insideRight order

omit [TransOrd Item] in
theorem scan_eq_some_iff (strict : Strict id items) {target : Item} {base found : Nat} :
    scan target base items = some found ↔
      ∃ entry, found = base + entry ∧ items[entry]? = some target := by
  induction items generalizing base with
  | nil => simp [scan]
  | cons item items ih =>
      rcases pairwise_cons.mp strict with ⟨above, strict⟩
      rw [scan]
      cases order : compare item target with
      | eq =>
          have same := Std.compare_eq_iff_eq.mp order
          subst same
          constructor
          · rintro ⟨⟩
            exact ⟨0, rfl, rfl⟩
          · rintro ⟨entry, rfl, place⟩
            cases entry with
            | zero => rfl
            | succ entry =>
                have lower := above item (mem_of_getElem? place)
                rw [id, Std.compare_self] at lower
                cases lower
      | gt =>
          constructor
          · rintro ⟨⟩
          · rintro ⟨entry, rfl, place⟩
            cases entry with
            | zero =>
                cases place
                rw [Std.compare_self] at order
                cases order
            | succ entry =>
                have lower := above target (mem_of_getElem? place)
                rw [id, id, order] at lower
                cases lower
      | lt =>
          rw [ih strict]
          constructor
          · rintro ⟨entry, rfl, place⟩
            exact ⟨entry + 1, by omega, place⟩
          · rintro ⟨entry, rfl, place⟩
            cases entry with
            | zero =>
                cases place
                rw [Std.compare_self] at order
                cases order
            | succ entry => exact ⟨entry, by omega, place⟩

section Place

variable {target : Item} {index : Nat}

omit [TransOrd Item] [LawfulEqOrd Item] in
/-- The pieces up to the one of the target begin below it, if that one does. -/
theorem isLT_of_mem_take_firsts (positive : 0 < size) (strict : Strict id items)
    (place : items[index]? = some target) {count : Nat}
    (before : ∀ number < count, number * size < index) :
    ∀ item ∈ (firsts size items).take count, (compare item target).isLT = true := by
  intro item listed
  rcases getElem?_of_mem listed with ⟨number, first⟩
  rw [getElem?_take] at first
  split at first
  case isFalse => cases first
  case isTrue early =>
    rw [getElem?_firsts positive] at first
    rw [Strict.lt_of_getElem? strict (before number early) first place]
    rfl

omit [LawfulEqOrd Item] in
/-- The next piece begins above the target. -/
theorem gt_of_next_first (positive : 0 < size) (strict : Strict id items)
    (place : items[index]? = some target) {item : Item}
    (next : (firsts size items)[index / size + 1]? = some item) : compare item target = .gt := by
  have parts := Nat.div_add_mod' index size
  have below := Nat.mod_lt index positive
  rw [getElem?_firsts positive, Nat.succ_mul] at next
  rw [OrientedOrd.eq_swap, Strict.lt_of_getElem? strict (by omega) place next]
  rfl

/-- The target is in no other piece than the one that the index leads to. -/
theorem pieceOf_firsts (positive : 0 < size) (strict : Strict id items)
    (place : items[index]? = some target) :
    pieceOf (firsts size items) target = some (index / size) := by
  have inside := (List.getElem?_eq_some_iff.mp place).1
  have parts := Nat.div_add_mod' index size
  have earlier : ∀ number < index / size, number * size < index := by
    intro number before
    have scaled : (number + 1) * size ≤ index / size * size := Nat.mul_le_mul_right size before
    rw [Nat.succ_mul] at scaled
    omega
  have start : index / size * size < items.length := by omega
  have first : (firsts size items)[index / size]? = some items[index / size * size] :=
    (getElem?_firsts positive items _).trans (getElem?_eq_getElem start)
  have long := (List.getElem?_eq_some_iff.mp first).1
  by_cases same : index % size = 0
  · -- the target begins its piece
    have begins : index / size * size = index := by omega
    have first : (firsts size items)[index / size]? = some target := by
      rw [getElem?_firsts positive, begins, place]
    have point : partitionPoint (fun item => (compare item target).isLT) (firsts size items) =
        index / size := by
      refine partitionPoint_eq (isLT_of_mem_take_firsts positive strict place earlier) ?_ long.le
      intro item known
      cases first.symm.trans known
      rw [Std.compare_self]
      rfl
    simp [pieceOf, binarySearch, point, first]
  · have point : partitionPoint (fun item => (compare item target).isLT) (firsts size items) =
        index / size + 1 := by
      refine partitionPoint_eq (isLT_of_mem_take_firsts positive strict place ?_) ?_ long
      · intro number before
        rcases Nat.lt_succ_iff_lt_or_eq.mp before with sooner | rfl
        · exact earlier number sooner
        · omega
      · intro item known
        rw [gt_of_next_first positive strict place known]
        rfl
    have missed : ((firsts size items)[index / size + 1]?.any
        fun item => compare item target = .eq) = false := by
      cases next : (firsts size items)[index / size + 1]? with
      | none => rfl
      | some item => simp [gt_of_next_first positive strict place next]
    simp [pieceOf, binarySearch, point, missed]

end Place

omit [TransOrd Item] [LawfulEqOrd Item] in
/-- The index leads to a piece that there is. -/
theorem exists_piece_of_pieceOf (positive : 0 < size) {target : Item} {number : Nat}
    (found : pieceOf (firsts size items) target = some number) :
    ∃ piece, (pieces size items)[number]? = some piece := by
  have within : number < (firsts size items).length := by
    rw [pieceOf, binarySearch] at found
    split at found
    case h_1 index shape =>
      cases found
      split at shape
      case isTrue present =>
        cases shape
        rcases (Option.any_eq_true _ _).mp present with ⟨item, place, -⟩
        exact (List.getElem?_eq_some_iff.mp place).1
      case isFalse => cases shape
    case h_2 => cases found
    case h_3 index shape =>
      cases found
      split at shape
      case isTrue => cases shape
      case isFalse =>
        have point := Except.error.inj shape
        have short := @length_partitionPoint _
          (fun item => (compare item target).isLT) (firsts size items)
        omega
  have first := getElem?_eq_getElem within
  rw [getElem?_firsts positive] at first
  have inside := (List.getElem?_eq_some_iff.mp first).1
  exact ⟨_, (getElem?_pieces positive items number).trans (if_pos inside)⟩

/-- The lookup by the index and a scan of one piece finds the target where the list has it. -/
theorem scan_pieceOf_iff (positive : 0 < size) (strict : Strict id items) {target : Item}
    {found : Nat} :
    (∃ number piece, pieceOf (firsts size items) target = some number ∧
        (pieces size items)[number]? = some piece ∧
          scan target (number * size) piece = some found) ↔ items[found]? = some target := by
  constructor
  · rintro ⟨number, piece, -, cut, scanned⟩
    rw [getElem?_pieces positive] at cut
    split at cut
    case isFalse => cases cut
    case isTrue inside =>
      cases cut
      have part : Strict id ((items.drop (number * size)).take size) :=
        strict.sublist ((take_sublist _ _).trans (drop_sublist _ _))
      rcases (scan_eq_some_iff part).mp scanned with ⟨entry, rfl, place⟩
      rw [getElem?_take] at place
      split at place
      case isFalse => cases place
      case isTrue => rwa [getElem?_drop] at place
  · intro place
    have inside := (List.getElem?_eq_some_iff.mp place).1
    rcases getElem?_div_mod positive inside with ⟨piece, cut, entry⟩
    refine ⟨found / size, piece, pieceOf_firsts positive strict place, cut, ?_⟩
    rw [getElem?_pieces positive] at cut
    split at cut
    case isFalse => cases cut
    case isTrue =>
      cases cut
      have part : Strict id ((items.drop (found / size * size)).take size) :=
        strict.sublist ((take_sublist _ _).trans (drop_sublist _ _))
      exact (scan_eq_some_iff part).mpr
        ⟨found % size, (Nat.div_add_mod' found size).symm, entry.trans place⟩

end Search

end SparseIndex

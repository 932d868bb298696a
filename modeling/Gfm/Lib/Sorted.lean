import Mathlib

/-!
# Sorted slices

Stable sorting by a key, removal of adjacent duplicates, partition points and binary search, with
what they give on a sorted list. Keys are compared by any total order.
-/

namespace Sorted

open List Std

universe u v

variable {Item : Type u} {Key : Type v} [Ord Key]

/-- A stable sort. -/
def sortByKey (key : Item → Key) (items : List Item) : List Item :=
  items.insertionSort fun left right => (compare (key left) (key right)).isLE = true

/-- The first index at which the predicate fails, on a list that it partitions. -/
def partitionPoint (before : Item → Bool) (items : List Item) : Nat :=
  (items.takeWhile before).length

/-- The index of an item with the key. -/
def binarySearchByKey (items : List Item) (target : Key) (key : Item → Key) : Option Nat :=
  let index := partitionPoint (fun item => (compare (key item) target).isLT) items
  match items[index]? with
  | none => none
  | some item => if compare (key item) target = .eq then some index else none

/-- The keys ascend. -/
def Ascending (key : Item → Key) (items : List Item) : Prop :=
  items.Pairwise fun left right => (compare (key left) (key right)).isLE

/-- The keys ascend, and no two are equal. -/
def Strict (key : Item → Key) (items : List Item) : Prop :=
  items.Pairwise fun left right => compare (key left) (key right) = .lt

section Partition

variable {before upTo : Item → Bool} {items : List Item}

theorem length_partitionPoint : partitionPoint before items ≤ items.length :=
  (takeWhile_sublist before).length_le

theorem take_partitionPoint
    (closed : items.Pairwise fun left right => before right = true → before left = true) :
    items.take (partitionPoint before items) = items.filter before ∧
      items.drop (partitionPoint before items) = items.filter fun item => !before item := by
  induction items with
  | nil => exact ⟨rfl, rfl⟩
  | cons item items ih =>
      rw [pairwise_cons] at closed
      rcases ih closed.2 with ⟨taken, dropped⟩
      cases first : before item with
      | true =>
          simp only [partitionPoint, takeWhile_cons, first, if_true, length_cons,
            take_succ_cons, drop_succ_cons, filter_cons_of_pos first]
          refine ⟨congrArg (item :: ·) taken, dropped.trans ?_⟩
          rw [filter_cons_of_neg (by simp [first])]
      | false =>
          have others : ∀ other ∈ items, ¬before other = true := fun other listed accepted => by
            rw [closed.1 other listed accepted] at first
            cases first
          simp only [partitionPoint, takeWhile_cons, first, Bool.false_eq_true, if_false,
            length_nil, take_zero, drop_zero]
          refine ⟨?_, ?_⟩
          · rw [filter_cons_of_neg (by simp [first]), filter_eq_nil_iff.mpr others]
          · rw [filter_cons_of_pos (by simp [first])]
            refine congrArg (item :: ·) (filter_eq_self.mpr ?_).symm
            intro other listed
            rw [Bool.not_eq_true', Bool.eq_false_iff]
            exact others other listed

/-- The slice between two partition points. -/
theorem slice_partitionPoint
    (closed : items.Pairwise fun left right => before right = true → before left = true)
    (closedUpTo : items.Pairwise fun left right => upTo right = true → upTo left = true)
    (included : ∀ item ∈ items, before item = true → upTo item = true) :
    (items.take (partitionPoint upTo items)).drop (partitionPoint before items) =
      items.filter fun item => upTo item && !before item := by
  have prefixed := (take_partitionPoint closedUpTo).1
  have closedPart := closed.sublist (filter_sublist (p := upTo))
  have same : partitionPoint before items = partitionPoint before (items.filter upTo) := by
    have first := congrArg List.length (take_partitionPoint closed).1
    have second := congrArg List.length (take_partitionPoint closedPart).1
    rw [length_take, Nat.min_eq_left length_partitionPoint] at first second
    rw [first, second, filter_filter]
    refine congrArg List.length (filter_congr fun item listed => ?_)
    cases shape : before item with
    | false => rfl
    | true => rw [included item listed shape, Bool.and_true]
  rw [prefixed, same, (take_partitionPoint closedPart).2, filter_filter]
  exact filter_congr fun item _ => Bool.and_comm _ _

end Partition

section Keys

variable {key : Item → Key} {items : List Item}

theorem sortByKey_perm (key : Item → Key) (items : List Item) :
    (sortByKey key items).Perm items := perm_insertionSort _ _

theorem Strict.ascending (strict : Strict key items) : Ascending key items :=
  strict.imp fun lower => by rw [lower]; rfl

theorem strict_of_ascending [LawfulEqOrd Key] (ascending : Ascending key items)
    (distinct : (items.map key).Nodup) : Strict key items := by
  rw [List.Nodup, pairwise_map] at distinct
  refine (ascending.and distinct).imp fun {left right} both => ?_
  cases shape : compare (key left) (key right) with
  | lt => rfl
  | eq => exact absurd (Std.compare_eq_iff_eq.mp shape) both.2
  | gt =>
      have lower := both.1
      rw [shape] at lower
      cases lower

variable [TransOrd Key]

theorem ascending_sortByKey (key : Item → Key) (items : List Item) :
    Ascending key (sortByKey key items) := by
  have trans : IsTrans Item fun left right => (compare (key left) (key right)).isLE = true :=
    ⟨fun first second third lower higher => TransCmp.isLE_trans lower higher⟩
  have total : Std.Total fun left right => (compare (key left) (key right)).isLE = true := by
    refine ⟨fun first second => ?_⟩
    have swapped : compare (key first) (key second) = (compare (key second) (key first)).swap :=
      OrientedCmp.eq_swap
    rw [swapped]
    cases compare (key second) (key first) <;> decide
  exact pairwise_insertionSort _ items

section Stable

variable {relation : Item → Item → Prop} [DecidableRel relation] {keep : Item → Bool}

theorem filter_orderedInsert [IsTrans Item relation] (item : Item)
    (sorted : items.Pairwise relation) :
    (items.orderedInsert relation item).filter keep =
      if keep item then (items.filter keep).orderedInsert relation item else items.filter keep := by
  induction items with
  | nil => cases kept : keep item <;> simp [kept]
  | cons first items ih =>
      rcases pairwise_cons.mp sorted with ⟨below, sorted⟩
      by_cases before : relation item first
      · rw [orderedInsert_cons_of_le relation _ before]
        cases kept : keep item with
        | false => simp [kept]
        | true =>
            -- the item goes before everything that is kept
            have least : ∀ other ∈ (first :: items).filter keep, relation item other := by
              intro other member
              rcases mem_cons.mp (mem_filter.mp member).1 with rfl | later
              · exact before
              · exact IsTrans.trans _ _ _ before (below other later)
            rw [filter_cons_of_pos kept, if_pos rfl]
            cases shape : (first :: items).filter keep with
            | nil => rfl
            | cons other others =>
                rw [shape] at least
                rw [orderedInsert_cons_of_le relation _ (least other mem_cons_self)]
      · rw [orderedInsert_of_not_le relation _ before]
        cases kept : keep first with
        | false => simp [kept, ih sorted]
        | true =>
            rw [filter_cons_of_pos kept, filter_cons_of_pos kept, ih sorted]
            split
            · rw [orderedInsert_of_not_le relation _ before]
            · rfl

/-- What is kept of a sorted list is what is kept, sorted. -/
theorem filter_insertionSort [IsTrans Item relation] [Std.Total relation] (items : List Item) :
    (items.insertionSort relation).filter keep = (items.filter keep).insertionSort relation := by
  induction items with
  | nil => rfl
  | cons item items ih =>
      rw [insertionSort_cons, filter_orderedInsert item (pairwise_insertionSort _ items),
        ih]
      cases kept : keep item with
      | false => simp [kept]
      | true => simp [kept]

end Stable

theorem strict_sortByKey [LawfulEqOrd Key] (distinct : (items.map key).Nodup) :
    Strict key (sortByKey key items) :=
  strict_of_ascending (ascending_sortByKey key items)
    (((sortByKey_perm key items).map key).nodup_iff.mpr distinct)

/-- Lists with the same items in strictly ascending order are the same list. -/
theorem Strict.eq_of_perm {others : List Item} (strict : Strict key items)
    (strictOthers : Strict key others) (perm : items.Perm others) : items = others := by
  refine List.Perm.eq_of_pairwise ?_ strict strictOthers perm
  intro left right _ _ lower higher
  have swapped : compare (key left) (key right) = (compare (key right) (key left)).swap :=
    OrientedCmp.eq_swap
  rw [lower, higher] at swapped
  cases swapped

theorem sortByKey_eq_of_strict {others : List Item} [LawfulEqOrd Key]
    (perm : items.Perm others) (strict : Strict key others) : sortByKey key items = others := by
  have reordered := (sortByKey_perm key items).trans perm
  refine Strict.eq_of_perm (strict_of_ascending (ascending_sortByKey key items) ?_) strict reordered
  refine ((reordered.map key).nodup_iff).mpr ?_
  rw [List.Nodup, pairwise_map]
  refine strict.imp fun {left right} lower same => ?_
  have equal : compare (key left) (key right) = .eq := Std.compare_eq_iff_eq.mpr same
  rw [equal] at lower
  cases lower

theorem Ascending.closed_lt (ascending : Ascending key items) (target : Key) :
    items.Pairwise fun left right => (compare (key right) target).isLT = true →
      (compare (key left) target).isLT = true := by
  refine ascending.imp fun {left right} lower below => ?_
  rw [Ordering.isLT_iff_eq_lt] at below ⊢
  exact TransCmp.lt_of_isLE_of_lt lower below

omit [TransOrd Key] in
/-- No item is left from the target on: none has the target as its key. -/
theorem ne_of_filter_eq_nil {target : Key}
    (rest : (items.filter fun item => !(compare (key item) target).isLT) = []) :
    ∀ item ∈ items, compare (key item) target ≠ .eq := by
  intro item listed same
  have kept := filter_eq_nil_iff.mp rest item listed
  rw [same] at kept
  exact kept rfl

/-- The first item from the target on has the target as its key, or none has. -/
theorem ne_of_filter_eq_cons (ascending : Ascending key items) {target : Key} {first : Item}
    {others : List Item}
    (rest : (items.filter fun item => !(compare (key item) target).isLT) = first :: others)
    (different : compare (key first) target ≠ .eq) :
    ∀ item ∈ items, compare (key item) target ≠ .eq := by
  intro item listed equal
  have member : item ∈ first :: others := by
    rw [← rest, mem_filter, equal]
    exact ⟨listed, rfl⟩
  have listedFirst : first ∈ items.filter fun item => !(compare (key item) target).isLT := by
    rw [rest]
    exact mem_cons_self
  have above := (mem_filter.mp listedFirst).2
  have ordered := ascending.sublist
    (filter_sublist (p := fun item => !(compare (key item) target).isLT))
  rw [rest] at ordered
  have lower : (compare (key first) target).isLE := by
    rcases mem_cons.mp member with rfl | later
    · rw [equal]
      rfl
    · have step := (pairwise_cons.mp ordered).1 item later
      exact TransCmp.isLE_trans step (by rw [equal]; rfl)
  cases shape : compare (key first) target <;> simp_all

/-- On ascending keys the search finds an item with the key whenever there is one. -/
theorem binarySearchByKey_spec (ascending : Ascending key items) (target : Key) :
    (∃ index item, binarySearchByKey items target key = some index ∧ items[index]? = some item ∧
        compare (key item) target = .eq) ∨
      (binarySearchByKey items target key = none ∧
        ∀ item ∈ items, compare (key item) target ≠ .eq) := by
  have split := take_partitionPoint (ascending.closed_lt target)
  have position : items[partitionPoint (fun item => (compare (key item) target).isLT) items]? =
      (items.filter fun item => !(compare (key item) target).isLT).head? := by
    rw [← split.2, head?_drop]
  simp only [binarySearchByKey, position]
  cases rest : items.filter fun item => !(compare (key item) target).isLT with
  | nil => exact Or.inr ⟨rfl, ne_of_filter_eq_nil rest⟩
  | cons first others =>
      by_cases same : compare (key first) target = .eq
      · refine Or.inl ⟨_, first, if_pos same, ?_, same⟩
        rw [position, rest]
        rfl
      · exact Or.inr ⟨if_neg same, ne_of_filter_eq_cons ascending rest same⟩

/-- A search that goes on from an index before which all keys are smaller than the target. -/
theorem partitionPoint_drop (ascending : Ascending key items) {target : Key} {index : Nat}
    (passed : ∀ item ∈ items.take index, (compare (key item) target).isLT) :
    items[index + partitionPoint (fun item => (compare (key item) target).isLT)
        (items.drop index)]? =
        (items.filter fun item => !(compare (key item) target).isLT).head? ∧
      ∀ item ∈ items.take (index + partitionPoint
        (fun item => (compare (key item) target).isLT) (items.drop index)),
        (compare (key item) target).isLT := by
  have closed := (ascending.closed_lt target).sublist (drop_sublist index items)
  have split := take_partitionPoint closed
  refine ⟨?_, fun item listed => ?_⟩
  · have whole : (items.filter fun item => !(compare (key item) target).isLT) =
        (items.drop index).filter fun item => !(compare (key item) target).isLT := by
      have halves := congrArg
        (List.filter fun item => !(compare (key item) target).isLT)
          (take_append_drop index items)
      rw [filter_append, filter_eq_nil_iff.mpr fun item listed => ?_] at halves
      · exact halves.symm
      · simp [passed item listed]
    rw [whole, ← split.2, drop_drop, head?_drop]
  · rw [take_add, mem_append] at listed
    rcases listed with early | late
    · exact passed item early
    · rw [split.1] at late
      exact (mem_filter.mp late).2

/-- The items of an ascending list that are not the item before it, when the first of them is
not. -/
theorem filter_previous [LawfulEqOrd Key] [DecidableEq Item] [BEq Item] [LawfulBEq Item]
    (injective : Function.Injective key)
    {previous : Option Item} {item : Item} {items : List Item} (other : previous ≠ some item)
    (above : ∀ known, previous = some known → (compare (key known) (key item)).isLE)
    (ordered : ∀ later ∈ items, (compare (key item) (key later)).isLE) :
    ((item :: items).filter (previous ≠ some ·)).eraseDups =
      item :: (items.filter (some item ≠ some ·)).eraseDups := by
  have all : (item :: items).filter (previous ≠ some ·) = item :: items := by
    refine filter_eq_self.mpr fun later listed => decide_eq_true fun same => ?_
    rcases mem_cons.mp listed with rfl | member
    · exact other same
    · have lower := above later same
      have higher := ordered later member
      have equal : key item = key later :=
        Std.compare_eq_iff_eq.mp (OrientedCmp.isLE_antisymm higher lower)
      exact other (by rw [same, injective equal])
  rw [all, eraseDups_cons]
  refine congrArg (fun rest => item :: List.eraseDups rest) (filter_congr fun later _ => ?_)
  rw [Bool.eq_iff_iff, decide_eq_true_eq, Bool.not_eq_true', beq_eq_false_iff_ne, ne_eq, ne_eq,
    Option.some_inj]
  exact not_congr eq_comm

/-- Of two strict lists, one inside the other: they begin alike if the smaller one has the first
items of the larger one. -/
theorem Strict.take_eq {others : List Item} {limit : Nat} (strict : Strict key items)
    (strictOthers : Strict key others) (inside : ∀ item ∈ items, item ∈ others)
    (first : ∀ item ∈ others.take limit, item ∈ items) : items.take limit = others.take limit := by
  have irreflexive : ∀ item : Item, compare (key item) (key item) ≠ .lt := fun item lower => by
    rw [Std.ReflOrd.compare_self] at lower
    cases lower
  induction limit generalizing items others with
  | zero => rw [take_zero, take_zero]
  | succ limit ih =>
      cases others with
      | nil =>
          have none : items = [] := eq_nil_iff_forall_not_mem.mpr fun item listed =>
            not_mem_nil (inside item listed)
          rw [none]
      | cons other others =>
          have listed := first other (mem_cons_self)
          cases items with
          | nil => cases listed
          | cons item items =>
              have above := pairwise_cons.mp strict
              have aboveOthers := pairwise_cons.mp strictOthers
              have same : item = other := by
                rcases mem_cons.mp listed with same | later
                · exact same.symm
                rcases mem_cons.mp (inside item mem_cons_self) with same | laterOther
                · exact same
                have lower := above.1 other later
                have higher := aboveOthers.1 item laterOther
                rw [OrientedOrd.eq_swap, higher] at lower
                cases lower
              rw [take_succ_cons, take_succ_cons, same]
              refine congrArg (other :: ·) (ih above.2 aboveOthers.2 (fun next later => ?_)
                fun next later => ?_)
              · rcases mem_cons.mp (inside next (mem_cons_of_mem item later)) with
                  equal | member
                · exact absurd (above.1 next later) (by rw [equal, same]; exact irreflexive other)
                · exact member
              · rcases mem_cons.mp (first next (mem_cons_of_mem other later)) with
                  equal | member
                · exact absurd (aboveOthers.1 next (mem_of_mem_take later))
                    (by rw [equal, same]; exact irreflexive other)
                · exact member

/-- Of two strict lists, one inside the other: what comes late in the smaller one comes late in the
larger one. -/
theorem Strict.not_mem_take {others : List Item} {limit : Nat} (strict : Strict key items)
    (strictOthers : Strict key others) (inside : ∀ item ∈ items, item ∈ others) :
    ∀ item ∈ items.drop limit, item ∉ others.take limit := by
  induction limit generalizing items others with
  | zero =>
      intro item _ early
      rw [take_zero] at early
      cases early
  | succ limit ih =>
      intro item late
      cases items with
      | nil => cases late
      | cons first items =>
          cases others with
          | nil => cases inside first mem_cons_self
          | cons other others =>
              have above := pairwise_cons.mp strict
              have aboveOthers := pairwise_cons.mp strictOthers
              have beyond : ∀ next ∈ items, next ≠ other := by
                intro next later same
                have lower := above.1 next later
                rcases mem_cons.mp (inside first mem_cons_self) with equal | member
                · rw [same, equal, Std.ReflOrd.compare_self] at lower
                  cases lower
                · have higher := aboveOthers.1 first member
                  rw [same, OrientedOrd.eq_swap, higher] at lower
                  cases lower
              rw [drop_succ_cons] at late
              have rest := ih above.2 aboveOthers.2 (fun next later =>
                (mem_cons.mp (inside next (mem_cons_of_mem first later))).resolve_left
                  (beyond next later)) item late
              rw [take_succ_cons, mem_cons]
              intro early
              rcases early with same | early
              · exact beyond item (mem_of_mem_drop late) same
              · exact rest early

end Keys

section Dedup

variable [DecidableEq Item]

theorem mem_destutter_ne {items : List Item} {item : Item} :
    item ∈ items.destutter (· ≠ ·) ↔ item ∈ items := by
  refine ⟨fun listed => (destutter_sublist _ _).subset listed, ?_⟩
  cases items with
  | nil => exact id
  | cons first items =>
      rw [destutter_cons']
      induction items generalizing first with
      | nil => exact id
      | cons next items ih =>
          intro listed
          by_cases same : first = next
          · subst same
            rw [destutter'_cons_neg items (by simp)]
            exact ih first (by simpa using listed)
          · rw [destutter'_cons_pos items same]
            rcases mem_cons.mp listed with rfl | later
            · exact mem_cons_self
            · exact mem_cons_of_mem _ (ih next later)

variable [Ord Item]

/-- The items in order, each once. -/
def sortDedup (items : List Item) : List Item := (sortByKey id items).destutter (· ≠ ·)

theorem mem_sortDedup {items : List Item} {item : Item} :
    item ∈ sortDedup items ↔ item ∈ items :=
  mem_destutter_ne.trans (sortByKey_perm id items).mem_iff

variable [TransOrd Item] [LawfulEqOrd Item]

theorem strict_destutter {items : List Item} (ascending : Ascending id items) :
    Strict id (items.destutter (· ≠ ·)) := by
  cases items with
  | nil => exact List.Pairwise.nil
  | cons first items =>
      rw [destutter_cons']
      induction items generalizing first with
      | nil => exact pairwise_singleton _ _
      | cons next items ih =>
          have later := (pairwise_cons.mp ascending).2
          have below := (pairwise_cons.mp ascending).1 next mem_cons_self
          by_cases same : first = next
          · subst same
            rw [destutter'_cons_neg items (by simp)]
            exact ih first later
          · rw [destutter'_cons_pos items same]
            refine pairwise_cons.mpr ⟨fun item listed => ?_, ih next later⟩
            have lower : compare first next = .lt := by
              cases shape : compare first next with
              | lt => rfl
              | eq => exact absurd (Std.compare_eq_iff_eq.mp shape) same
              | gt =>
                  rw [id, id, shape] at below
                  cases below
            rcases mem_cons.mp
              ((destutter'_sublist _ _ next).subset listed) with rfl | member
            · exact lower
            · exact TransCmp.lt_of_lt_of_isLE lower
                ((pairwise_cons.mp later).1 item member)

theorem strict_sortDedup (items : List Item) : Strict id (sortDedup items) :=
  strict_destutter (ascending_sortByKey id items)

omit [DecidableEq Item] [TransOrd Item] in
theorem Strict.nodup {items : List Item} (strict : Strict id items) : items.Nodup :=
  strict.imp fun lower same => by
    rw [same, Std.compare_self] at lower
    cases lower

/-- Only the items count, not their order and not how often they are listed. -/
theorem sortDedup_congr {items others : List Item} (same : ∀ item, item ∈ items ↔ item ∈ others) :
    sortDedup items = sortDedup others := by
  refine (strict_sortDedup items).eq_of_perm (strict_sortDedup others) ?_
  rw [perm_ext_iff_of_nodup (strict_sortDedup items).nodup (strict_sortDedup others).nodup]
  intro item
  rw [mem_sortDedup, mem_sortDedup, same]

end Dedup

end Sorted

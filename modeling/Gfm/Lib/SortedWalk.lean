import Gfm.Lib.Sorted

/-!
# Walks over sorted keys

Ascending keys are looked up in a strictly ascending slice in one walk over both: the place in the
slice only moves forward. The walk gives what looking up each key by itself gives, a repeated key
once; it refuses keys that are out of order.
-/

namespace SortedWalk

open List Sorted Std

universe u v w x

variable {Item : Type u} {Key : Type v} {Value : Type w} {Fault : Type x} [Ord Key]
  [DecidableEq Key] (key : Item → Key) (items : List Item) (read : Item → Except Fault Value)
  (unsorted : Fault)

/-- The walk from a place in the slice on, with what it has found so far. -/
def walkFrom (previous : Option Key) (index : Nat) (found : List Value) :
    List Key → Except Fault (List Value)
  | [] => .ok found
  | target :: targets =>
      if previous.any fun previous => (compare target previous).isLT then .error unsorted
      else if previous = some target then walkFrom previous index found targets
      else
        let index := index +
          partitionPoint (fun item => (compare (key item) target).isLT) (items.drop index)
        match items[index]? with
        | none => walkFrom (some target) index found targets
        | some item =>
            if key item = target then do
              let value ← read item
              walkFrom (some target) index (found ++ [value]) targets
            else walkFrom (some target) index found targets

/-- The item of a key in the slice. -/
def itemOf (target : Key) : Option Item := items.find? fun item => key item = target

variable {key items read}

/-- Everything that a walk finds is read from the item of one of the keys. -/
theorem mem_walkFrom {targets : List Key} {previous : Option Key} {index : Nat}
    {before found : List Value}
    (walked : walkFrom key items read unsorted previous index before targets = .ok found) :
    ∀ value ∈ found, value ∈ before ∨
      ∃ item ∈ items, key item ∈ targets ∧ read item = .ok value := by
  induction targets generalizing previous index before with
  | nil =>
      cases walked
      exact fun value present => Or.inl present
  | cons target targets ih =>
      have later : ∀ {value}, (value ∈ before ∨
          ∃ item ∈ items, key item ∈ targets ∧ read item = .ok value) →
          value ∈ before ∨ ∃ item ∈ items, key item ∈ target :: targets ∧ read item = .ok value :=
        fun known => known.imp_right fun ⟨item, listed, wanted, own⟩ =>
          ⟨item, listed, mem_cons_of_mem _ wanted, own⟩
      rw [walkFrom] at walked
      split at walked
      case isTrue => cases walked
      case isFalse =>
        split at walked
        case isTrue => exact fun value present => later (ih walked value present)
        case isFalse =>
          dsimp only at walked
          split at walked
          case h_1 => exact fun value present => later (ih walked value present)
          case h_2 item place =>
            split at walked
            case isFalse => exact fun value present => later (ih walked value present)
            case isTrue same =>
              cases own : read item with
              | error fault =>
                  rw [own] at walked
                  cases walked
              | ok value =>
                  rw [own] at walked
                  intro other present
                  rcases ih walked other present with earlier | known
                  · rcases mem_append.mp earlier with first | last
                    · exact Or.inl first
                    · cases mem_singleton.mp last
                      exact Or.inr
                        ⟨item, mem_of_getElem? place, same ▸ mem_cons_self, own⟩
                  · exact later (Or.inr known)

variable [TransOrd Key] [LawfulEqOrd Key]

omit [Ord Key] [TransOrd Key] [LawfulEqOrd Key] in
theorem itemOf_eq_none {target : Key} :
    itemOf key items target = none ↔ ∀ item ∈ items, key item ≠ target := by
  simp [itemOf]

omit [Ord Key] [TransOrd Key] [LawfulEqOrd Key] in
/-- With one item for each key, an item is the one of its key. -/
theorem itemOf_of_mem (distinct : (items.map key).Nodup) {item : Item} (listed : item ∈ items) :
    itemOf key items (key item) = some item := by
  induction items with
  | nil => cases listed
  | cons first items ih =>
      have later := nodup_cons.mp distinct
      rcases mem_cons.mp listed with rfl | member
      · simp [itemOf]
      · have differs : key first ≠ key item := fun same =>
          later.1 (same ▸ mem_map_of_mem member)
        rw [itemOf, find?_cons_of_neg (by simpa using differs)]
        exact ih later.2 member

omit [TransOrd Key] in
theorem itemOf_eq_some (strict : Strict key items) {target : Key} {item : Item} :
    itemOf key items target = some item ↔ item ∈ items ∧ key item = target := by
  have distinct : (items.map key).Nodup := pairwise_map.mpr <| strict.imp fun lower same => by
    rw [same, Std.compare_self] at lower
    cases lower
  constructor
  · intro found
    exact ⟨mem_of_find?_eq_some found, of_decide_eq_true
      (find?_some (p := fun item => decide (key item = target)) found)⟩
  · rintro ⟨listed, rfl⟩
    exact itemOf_of_mem distinct listed

/-- The place that the walk moves on to has the item of the key, if there is one. -/
theorem getElem?_moved (strict : Strict key items) {target : Key} {index : Nat}
    (passed : ∀ item ∈ items.take index, (compare (key item) target).isLT) :
    (items[index + partitionPoint (fun item => (compare (key item) target).isLT)
      (items.drop index)]?).filter (fun item => decide (key item = target)) =
        itemOf key items target := by
  rw [(partitionPoint_drop strict.ascending passed).1]
  cases later : items.filter fun item => !(compare (key item) target).isLT with
  | nil =>
      refine (itemOf_eq_none.mpr fun item listed same => ?_).symm
      exact ne_of_filter_eq_nil later item listed (Std.compare_eq_iff_eq.mpr same)
  | cons item others =>
      by_cases same : key item = target
      · have listed : item ∈ items := mem_of_mem_filter (later ▸ mem_cons_self)
        rw [(itemOf_eq_some strict).mpr ⟨listed, same⟩]
        simp [same]
      · have missing : itemOf key items target = none := by
          refine itemOf_eq_none.mpr fun other listed equal => ?_
          exact ne_of_filter_eq_cons strict.ascending later
            (fun equal => same (Std.compare_eq_iff_eq.mp equal)) other listed
            (Std.compare_eq_iff_eq.mpr equal)
        rw [missing]
        simp [same]

/-- One key that is not the key before it. -/
theorem walkFrom_step (strict : Strict key items) {result : Item → Value} {target : Key}
    (reads : ∀ item, itemOf key items target = some item → read item = .ok (result item))
    {previous : Option Key} {index : Nat} (found : List Value) (targets : List Key)
    (above : ∀ known, previous = some known → (compare known target).isLE)
    (other : previous ≠ some target)
    (passed : ∀ item ∈ items.take index, (compare (key item) target).isLT) :
    walkFrom key items read unsorted previous index found (target :: targets) =
      walkFrom key items read unsorted (some target)
        (index + partitionPoint (fun item => (compare (key item) target).isLT) (items.drop index))
        (found ++ ((itemOf key items target).map result).toList) targets := by
  have inOrder : ¬(previous.any fun known => (compare target known).isLT) = true := by
    intro smaller
    rcases (Option.any_eq_true _ _).mp smaller with ⟨known, same, lower⟩
    have higher := above known same
    rw [Ordering.isLT_iff_eq_lt] at lower
    rw [OrientedOrd.eq_swap, lower] at higher
    cases higher
  have moved := getElem?_moved strict passed
  rw [walkFrom, if_neg inOrder, if_neg other]
  dsimp only
  split
  case h_1 none =>
    rw [none, Option.filter_none] at moved
    rw [← moved, Option.map_none, Option.toList_none, append_nil]
  case h_2 item place =>
    rw [place] at moved
    split
    case isTrue same =>
      have own : itemOf key items target = some item := by
        rw [← moved]
        simp [same]
      rw [reads item own, own]
      rfl
    case isFalse differs =>
      have missing : itemOf key items target = none := by
        rw [← moved]
        simp [differs]
      rw [missing, Option.map_none, Option.toList_none, append_nil]

/-- The walk from a place behind smaller keys only. -/
theorem walkFrom_eq (strict : Strict key items) {result : Item → Value} {targets : List Key}
    (reads : ∀ target ∈ targets, ∀ item, itemOf key items target = some item →
      read item = .ok (result item))
    (ordered : Ascending id targets) (previous : Option Key) (index : Nat) (found : List Value)
    (above : ∀ known, previous = some known → ∀ target ∈ targets, (compare known target).isLE)
    (passed : ∀ item ∈ items.take index,
      ∃ known, previous = some known ∧ (compare (key item) known).isLT) :
    walkFrom key items read unsorted previous index found targets =
      .ok (found ++ ((targets.filter (previous ≠ some ·)).eraseDups.filterMap
        fun target => (itemOf key items target).map result)) := by
  induction targets generalizing previous index found with
  | nil => simp [walkFrom]
  | cons target targets ih =>
      have later := pairwise_cons.mp ordered
      have readsLater := (forall_mem_cons.mp reads).2
      by_cases repeated : previous = some target
      · have inOrder : ¬(previous.any fun known => (compare target known).isLT) = true := by
          rw [repeated, Option.any_some, Std.ReflOrd.compare_self]
          exact Bool.false_ne_true
        rw [walkFrom, if_neg inOrder, if_pos repeated, filter_cons_of_neg (by simp [repeated])]
        exact ih readsLater later.2 previous index found
          (fun known same other listed => above known same other (mem_cons_of_mem _ listed))
          passed
      · have passedTarget : ∀ item ∈ items.take index, (compare (key item) target).isLT := by
          intro item listed
          rcases passed item listed with ⟨known, same, lower⟩
          have upper := above known same _ mem_cons_self
          rw [Ordering.isLT_iff_eq_lt] at lower ⊢
          exact TransCmp.lt_of_lt_of_isLE lower upper
        have first : ∀ known, previous = some known → (compare known target).isLE :=
          fun known same => above known same _ mem_cons_self
        rw [walkFrom_step unsorted strict (reads target mem_cons_self) found targets first
          repeated passedTarget, filter_previous Function.injective_id repeated first later.1]
        rw [ih readsLater later.2 (some target) _ _
          (fun known same other listed => Option.some.inj same ▸ later.1 other listed)
          (fun item listed => ⟨target, rfl,
            (partitionPoint_drop strict.ascending passedTarget).2 item listed⟩)]
        rw [filterMap_cons]
        cases itemOf key items target <;> simp

omit [DecidableEq Key] in
theorem strict_eraseDups [BEq Key] [LawfulBEq Key] {keys : List Key}
    (ordered : Ascending id keys) : Strict id keys.eraseDups := by
  induction length : keys.length using Nat.strong_induction_on generalizing keys with
  | _ size ih =>
      cases keys with
      | nil => exact List.Pairwise.nil
      | cons key keys =>
          have later := pairwise_cons.mp ordered
          have fewer : (keys.filter fun other => !other == key).length < size := by
            rw [← length, length_cons]
            exact Nat.lt_succ_of_le (length_filter_le _ _)
          rw [eraseDups_cons]
          refine pairwise_cons.mpr
            ⟨fun other listed => ?_, ih _ fewer (later.2.sublist filter_sublist) rfl⟩
          rcases mem_filter.mp (mem_eraseDups.mp listed) with ⟨listed, differs⟩
          have lower := later.1 other listed
          cases shape : compare key other with
          | lt => exact shape
          | eq =>
              rw [Std.compare_eq_iff_eq.mp shape] at differs
              simp at differs
          | gt =>
              rw [id, id, shape] at lower
              cases lower

theorem eraseDups_eq_sortDedup {keys : List Key} (ordered : Ascending id keys) :
    keys.eraseDups = sortDedup keys := by
  have strict := strict_eraseDups ordered
  refine strict.eq_of_perm (strict_sortDedup keys) ?_
  rw [perm_ext_iff_of_nodup strict.nodup (strict_sortDedup keys).nodup]
  intro key
  rw [mem_eraseDups, mem_sortDedup]

/-- A whole walk over ascending keys. -/
theorem walk_eq (strict : Strict key items) {result : Item → Value} {targets : List Key}
    (reads : ∀ target ∈ targets, ∀ item, itemOf key items target = some item →
      read item = .ok (result item))
    (ordered : Ascending id targets) :
    walkFrom key items read unsorted none 0 [] targets =
      .ok ((sortDedup targets).filterMap fun target => (itemOf key items target).map result) := by
  have walked := walkFrom_eq unsorted strict reads ordered none 0 [] (by simp) (by simp)
  have all : targets.filter (none ≠ some ·) = targets := filter_eq_self.mpr (by simp)
  rw [walked, all, nil_append, eraseDups_eq_sortDedup ordered]

end SortedWalk

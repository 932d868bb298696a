import Mathlib.Data.List.Basic
import Mathlib.Logic.Function.Basic
import Mathlib.Tactic.SplitIfs

/-!
# Shelves

A shelf holds entries under ids, each at a path. Beside the entries it has marks, which the
entries put there and several entries can share, and stale keys of ids, which no entry accounts
for. An entry takes its marks along when it is removed, unless another entry has them as well,
and a shelf that loses its last entry loses everything.

A change that takes items out, puts others in and is then called off clears the paths of the
others and places the items anew. What it says here is when the shelf is as it was before.
-/

namespace Shelves

open List

universe u

variable {Id Entry Key Mark Item Path : Type u}

structure Shelf (Id Entry Key Mark : Type u) where
  entry : Id → Option Entry
  stale : Key → Id → Prop
  words : Mark → Prop

/-- How items are entered, and what an entry has. -/
structure Catalogue (Id Entry Key Mark Item Path : Type u) where
  id : Item → Id
  fresh : Item → Entry
  path : Entry → Path
  keys : Entry → Key → Prop
  marks : Entry → Mark → Prop
  owns : Item → Prop

@[ext]
theorem Shelf.ext {left right : Shelf Id Entry Key Mark}
    (entry : ∀ id, left.entry id = right.entry id)
    (stale : ∀ key id, left.stale key id ↔ right.stale key id)
    (words : ∀ mark, left.words mark ↔ right.words mark) : left = right := by
  rcases left with ⟨leftEntry, leftStale, leftWords⟩
  rcases right with ⟨rightEntry, rightStale, rightWords⟩
  congr
  · exact funext entry
  · exact funext fun key => funext fun id => propext (stale key id)
  · exact funext fun mark => propext (words mark)

namespace Shelf

variable (catalogue : Catalogue Id Entry Key Mark Item Path) (shelf : Shelf Id Entry Key Mark)

def bare : Shelf Id Entry Key Mark := ⟨fun _ => none, fun _ _ => False, fun _ => False⟩

def Vacant : Prop := ∀ id, shelf.entry id = none

/-- An entry has the mark. -/
def Marked (mark : Mark) : Prop :=
  ∃ id entry, shelf.entry id = some entry ∧ catalogue.marks entry mark

open Classical in
noncomputable def keep (kept : Id → Entry → Prop) (id : Id) : Option Entry :=
  (shelf.entry id).filter fun entry => decide (kept id entry)

noncomputable def remove (gone : Id → Entry → Prop) : Shelf Id Entry Key Mark where
  entry := shelf.keep fun id entry => ¬gone id entry
  stale := shelf.stale
  words mark := shelf.words mark ∧ (shelf.Marked catalogue mark →
    ∃ id entry, shelf.entry id = some entry ∧ ¬gone id entry ∧ catalogue.marks entry mark)

open Classical in
noncomputable def prune : Shelf Id Entry Key Mark := if shelf.Vacant then bare else shelf

noncomputable def clear (path : Path) : Shelf Id Entry Key Mark :=
  (shelf.remove catalogue fun _ entry => catalogue.path entry = path).prune

open Classical in
/-- Enter an item, in place of what its id has. -/
noncomputable def put (item : Item) : Shelf Id Entry Key Mark :=
  let freed := shelf.remove catalogue fun id _ => id = catalogue.id item
  { entry := Function.update freed.entry (catalogue.id item) (some (catalogue.fresh item))
    stale key id :=
      shelf.stale key id ∧ ¬(id = catalogue.id item ∧ catalogue.keys (catalogue.fresh item) key)
    words mark :=
      freed.words mark ∨
        (catalogue.marks (catalogue.fresh item) mark ∧ ¬freed.Marked catalogue mark) }

open Classical in
/-- Clear the path of an item, and enter it if the shelf is the one for it. -/
noncomputable def place (item : Item) : Shelf Id Entry Key Mark :=
  let cleared := shelf.clear catalogue (catalogue.path (catalogue.fresh item))
  if catalogue.owns item then cleared.put catalogue item else cleared

noncomputable def takeOut (ids : List Id) : Shelf Id Entry Key Mark :=
  (shelf.remove catalogue fun id _ => id ∈ ids).prune

/-- Call a change off: clear the paths of what was put in, and place again what was taken out. -/
noncomputable def callOff (removed inserted : List Item) : Shelf Id Entry Key Mark :=
  removed.foldl (fun shelf item => shelf.place catalogue item)
    ((inserted.map fun item => catalogue.path (catalogue.fresh item)).foldl
      (fun shelf path => shelf.clear catalogue path) shelf)

/-- The change, called off: items taken out, others put in, and everything undone. -/
noncomputable def rolledBack (removed inserted : List Item) : Shelf Id Entry Key Mark :=
  (inserted.foldl (fun shelf item => shelf.place catalogue item)
    (shelf.takeOut catalogue (removed.map catalogue.id))).callOff catalogue removed inserted

end Shelf

section Steps

variable {catalogue : Catalogue Id Entry Key Mark Item Path}
  {shelf start laden after : Shelf Id Entry Key Mark} {gone : Id → Entry → Prop} {id : Id}
  {entry : Entry} {key : Key} {mark : Mark} {item : Item} {items : List Item}

theorem remove_entry : (shelf.remove catalogue gone).entry id = some entry ↔
    shelf.entry id = some entry ∧ ¬gone id entry := by
  simp [Shelf.remove, Shelf.keep, Option.filter_eq_some_iff]

theorem marked_remove : (shelf.remove catalogue gone).Marked catalogue mark ↔
    ∃ id entry, shelf.entry id = some entry ∧ ¬gone id entry ∧ catalogue.marks entry mark := by
  simp only [Shelf.Marked, remove_entry, and_assoc]

theorem remove_words : (shelf.remove catalogue gone).words mark ↔
    shelf.words mark ∧
      (shelf.Marked catalogue mark → (shelf.remove catalogue gone).Marked catalogue mark) := by
  rw [marked_remove]
  rfl

theorem remove_nothing (none : ∀ id entry, shelf.entry id = some entry → ¬gone id entry) :
    shelf.remove catalogue gone = shelf := by
  have entries : ∀ id, (shelf.remove catalogue gone).entry id = shelf.entry id := by
    intro id
    refine Option.ext fun entry => ?_
    rw [remove_entry]
    exact and_iff_left_of_imp (none id entry)
  apply Shelf.ext entries
  · exact fun _ _ => Iff.rfl
  · intro mark
    rw [remove_words]
    refine and_iff_left_of_imp ?_
    rintro - ⟨id, entry, found, marks⟩
    exact ⟨id, entry, (entries id).trans found, marks⟩

theorem remove_congr {other : Id → Entry → Prop}
    (same : ∀ id entry, shelf.entry id = some entry → (gone id entry ↔ other id entry)) :
    shelf.remove catalogue gone = shelf.remove catalogue other := by
  apply Shelf.ext
  · intro id
    refine Option.ext fun entry => ?_
    rw [remove_entry, remove_entry]
    exact and_congr_right fun found => not_congr (same id entry found)
  · exact fun _ _ => Iff.rfl
  · intro mark
    rw [remove_words, remove_words, marked_remove, marked_remove]
    refine and_congr_right fun _ => imp_congr_right fun _ => ?_
    refine exists_congr fun id => exists_congr fun entry => and_congr_right fun found => ?_
    exact and_congr_left fun _ => not_congr (same id entry found)

theorem remove_remove (first second : List Id) :
    (shelf.remove catalogue fun id _ => id ∈ first).remove catalogue (fun id _ => id ∈ second) =
      shelf.remove catalogue fun id _ => id ∈ first ++ second := by
  apply Shelf.ext
  · intro id
    refine Option.ext fun entry => ?_
    rw [remove_entry, remove_entry, remove_entry, mem_append]
    grind
  · exact fun _ _ => Iff.rfl
  · intro mark
    rw [remove_words, remove_words, remove_words]
    simp only [marked_remove, remove_entry, mem_append, not_or, and_assoc]
    constructor
    · rintro ⟨words, still, later⟩
      exact ⟨words, fun marked => later (still marked)⟩
    · rintro ⟨words, still⟩
      refine ⟨words, fun marked => ?_, fun marked => still ?_⟩
      · rcases still marked with ⟨id, entry, found, notFirst, -, marks⟩
        exact ⟨id, entry, found, notFirst, marks⟩
      · rcases marked with ⟨id, entry, found, -, marks⟩
        exact ⟨id, entry, found, marks⟩

theorem prune_of_entry (found : shelf.entry id = some entry) : shelf.prune = shelf := by
  refine if_neg fun vacant => ?_
  rw [vacant id] at found
  cases found

theorem prune_entry : shelf.prune.entry id = shelf.entry id := by
  rw [Shelf.prune]
  split
  case isTrue vacant => exact (vacant id).symm
  case isFalse _ => rfl

theorem prune_prune : shelf.prune.prune = shelf.prune := by
  by_cases vacant : shelf.Vacant
  · have bare : shelf.prune = Shelf.bare := if_pos vacant
    rw [bare]
    exact ite_self _
  · have same : shelf.prune = shelf := if_neg vacant
    rw [same, same]

theorem clear_entry {path : Path} : (shelf.clear catalogue path).entry id = some entry ↔
    shelf.entry id = some entry ∧ catalogue.path entry ≠ path := by
  rw [Shelf.clear, prune_entry, remove_entry]

theorem takeOut_entry {ids : List Id} : (shelf.takeOut catalogue ids).entry id = some entry ↔
    shelf.entry id = some entry ∧ id ∉ ids := by
  rw [Shelf.takeOut, prune_entry, remove_entry]

theorem put_entry : (shelf.put catalogue item).entry id = some entry ↔
    (id = catalogue.id item ∧ entry = catalogue.fresh item) ∨
      (id ≠ catalogue.id item ∧ shelf.entry id = some entry) := by
  classical
  by_cases same : id = catalogue.id item
  · subst same
    simp [Shelf.put, eq_comm]
  · simp only [Shelf.put, Function.update_of_ne same, remove_entry, same, false_and, false_or]
    grind

theorem clear_nothing {path : Path} (pruned : shelf.prune = shelf)
    (none : ∀ id entry, shelf.entry id = some entry → catalogue.path entry ≠ path) :
    shelf.clear catalogue path = shelf := by
  rw [Shelf.clear, remove_nothing none, pruned]

theorem foldl_clear_entry (paths : List Path) (shelf : Shelf Id Entry Key Mark) :
    (paths.foldl (fun shelf path => shelf.clear catalogue path) shelf).entry id = some entry ↔
      shelf.entry id = some entry ∧ catalogue.path entry ∉ paths := by
  induction paths generalizing shelf with
  | nil => simp
  | cons path paths ih =>
      rw [foldl_cons, ih, clear_entry, mem_cons]
      grind

theorem takeOut_congr {ids others : List Id}
    (same : ∀ id entry, shelf.entry id = some entry → (id ∈ ids ↔ id ∈ others)) :
    shelf.takeOut catalogue ids = shelf.takeOut catalogue others :=
  congrArg Shelf.prune (remove_congr same)

/-- Taking out in two steps is taking out at once. -/
theorem takeOut_takeOut (first second : List Id) :
    (shelf.takeOut catalogue first).takeOut catalogue second =
      shelf.takeOut catalogue (first ++ second) := by
  by_cases vacant : (shelf.remove catalogue fun id _ => id ∈ first).Vacant
  · have none : ∀ id entry, shelf.entry id = some entry → id ∈ first := by
      intro id entry found
      by_contra outside
      have kept : (shelf.remove catalogue fun id _ => id ∈ first).entry id = some entry :=
        remove_entry.mpr ⟨found, outside⟩
      rw [vacant id] at kept
      cases kept
    have bothVacant : (shelf.remove catalogue fun id _ => id ∈ first ++ second).Vacant := by
      intro id
      refine Option.eq_none_iff_forall_ne_some.mpr fun entry found => ?_
      rw [remove_entry, mem_append] at found
      exact found.2 (Or.inl (none id entry found.1))
    have bareVacant : ((Shelf.bare : Shelf Id Entry Key Mark).remove catalogue
        fun id _ => id ∈ second).Vacant := by
      intro id
      rfl
    rw [Shelf.takeOut, Shelf.takeOut, Shelf.takeOut, Shelf.prune, Shelf.prune, Shelf.prune,
      if_pos vacant, if_pos bothVacant, if_pos bareVacant]
  · have once : shelf.takeOut catalogue first =
        shelf.remove catalogue fun id _ => id ∈ first := if_neg vacant
    rw [once, Shelf.takeOut, Shelf.takeOut, remove_remove]

end Steps

section Inserting

variable {catalogue : Catalogue Id Entry Key Mark Item Path}
  {shelf start laden : Shelf Id Entry Key Mark} {gone : Id → Entry → Prop} {id : Id}
  {entry : Entry} {key : Key} {mark : Mark} {item : Item} {items : List Item}

/-- The shelf with items put on top, some of which may be gone again. -/
structure Laden (catalogue : Catalogue Id Entry Key Mark Item Path)
    (start : Shelf Id Entry Key Mark) (items : List Item) (laden : Shelf Id Entry Key Mark) :
    Prop where
  kept : ∀ id entry, start.entry id = some entry → laden.entry id = some entry
  known : ∀ id entry, laden.entry id = some entry → start.entry id = some entry ∨
    ∃ item ∈ items, catalogue.owns item ∧ id = catalogue.id item ∧ entry = catalogue.fresh item
  stale : ∀ key id, laden.stale key id ↔ start.stale key id ∧
    ¬∃ item ∈ items, catalogue.owns item ∧ id = catalogue.id item ∧
      catalogue.keys (catalogue.fresh item) key
  words : ∀ mark, laden.words mark ↔
    (laden.Marked catalogue mark ∧ (start.Marked catalogue mark → start.words mark)) ∨
      (¬laden.Marked catalogue mark ∧ start.words mark ∧
        ¬∃ item ∈ items, catalogue.owns item ∧ catalogue.marks (catalogue.fresh item) mark)

theorem Laden.marked (isLaden : Laden catalogue start items laden)
    (marked : start.Marked catalogue mark) : laden.Marked catalogue mark := by
  rcases marked with ⟨id, entry, found, marks⟩
  exact ⟨id, entry, isLaden.kept id entry found, marks⟩

theorem laden_nil : Laden catalogue start [] start := by
  refine ⟨fun _ _ => id, fun _ _ => Or.inl, fun _ _ => by simp, fun mark => ?_⟩
  by_cases marked : start.Marked catalogue mark <;> simp [marked]

/-- Nothing of the start is removed. -/
theorem Laden.remove (isLaden : Laden catalogue start items laden)
    (spared : ∀ id entry, start.entry id = some entry → ¬gone id entry) :
    Laden catalogue start items (laden.remove catalogue gone) := by
  refine ⟨?_, ?_, isLaden.stale, ?_⟩
  · intro id entry found
    exact remove_entry.mpr ⟨isLaden.kept id entry found, spared id entry found⟩
  · intro id entry found
    exact isLaden.known id entry (remove_entry.mp found).1
  · intro mark
    have less : (laden.remove catalogue gone).Marked catalogue mark →
        laden.Marked catalogue mark := by
      rintro ⟨id, entry, found, marks⟩
      exact ⟨id, entry, (remove_entry.mp found).1, marks⟩
    -- a mark that goes is one of an item
    have lost : laden.Marked catalogue mark → (laden.remove catalogue gone).Marked catalogue mark ∨
        ∃ item ∈ items, catalogue.owns item ∧ catalogue.marks (catalogue.fresh item) mark := by
      rintro ⟨id, entry, found, marks⟩
      rcases isLaden.known id entry found with old | ⟨item, member, owns, -, rfl⟩
      · exact Or.inl ⟨id, entry, remove_entry.mpr ⟨found, spared id entry old⟩, marks⟩
      · exact Or.inr ⟨item, member, owns, marks⟩
    have fromStart : start.Marked catalogue mark → laden.Marked catalogue mark := isLaden.marked
    have stays : start.Marked catalogue mark →
        (laden.remove catalogue gone).Marked catalogue mark := by
      rintro ⟨id, entry, found, marks⟩
      exact ⟨id, entry, remove_entry.mpr ⟨isLaden.kept id entry found, spared id entry found⟩,
        marks⟩
    rw [remove_words, isLaden.words]
    generalize (∃ item ∈ items, catalogue.owns item ∧
      catalogue.marks (catalogue.fresh item) mark) = ofItem at lost ⊢
    grind

theorem Laden.start_bare (isLaden : Laden catalogue start items laden)
    (pruned : start.prune = start) (vacant : laden.Vacant) : start = Shelf.bare := by
  have startVacant : start.Vacant := by
    intro id
    refine Option.eq_none_iff_forall_ne_some.mpr fun entry found => ?_
    have kept := isLaden.kept id entry found
    rw [vacant id] at kept
    cases kept
  rw [← pruned, Shelf.prune, if_pos startVacant]

theorem Laden.pruned (isLaden : Laden catalogue start items laden)
    (pruned : start.prune = start) : laden.prune = laden := by
  rw [Shelf.prune]
  split
  case isTrue vacant =>
    have startBare := isLaden.start_bare pruned vacant
    apply Shelf.ext
    · exact fun id => (vacant id).symm
    · intro key id
      rw [isLaden.stale, startBare]
      exact (iff_of_false And.left False.elim).symm
    · intro mark
      have unmarked : ¬laden.Marked catalogue mark := by
        rintro ⟨id, entry, found, -⟩
        rw [vacant id] at found
        cases found
      rw [isLaden.words, startBare]
      simp [unmarked, Shelf.bare]
  case isFalse _ => rfl

theorem Laden.prune (isLaden : Laden catalogue start items laden) (pruned : start.prune = start) :
    Laden catalogue start items laden.prune := by
  by_cases vacant : laden.Vacant
  · have startBare := isLaden.start_bare pruned vacant
    have ladenBare : laden.prune = Shelf.bare := if_pos vacant
    rw [ladenBare, startBare]
    constructor
    · intro id entry found
      cases found
    · intro id entry found
      cases found
    · intro key id
      exact (and_iff_left_of_imp fun absurdity => absurdity.elim).symm
    · intro mark
      simp [Shelf.bare, Shelf.Marked]
  · rw [Shelf.prune, if_neg vacant]
    exact isLaden

theorem Laden.clear {path : Path} (isLaden : Laden catalogue start items laden)
    (pruned : start.prune = start)
    (spared : ∀ id entry, start.entry id = some entry → catalogue.path entry ≠ path) :
    Laden catalogue start items (laden.clear catalogue path) :=
  (isLaden.remove spared).prune pruned

theorem marked_put (mark : Mark) : (shelf.put catalogue item).Marked catalogue mark ↔
    catalogue.marks (catalogue.fresh item) mark ∨
      (shelf.remove catalogue fun id _ => id = catalogue.id item).Marked catalogue mark := by
  simp only [Shelf.Marked, put_entry, remove_entry]
  constructor
  · rintro ⟨id, entry, ⟨-, rfl⟩ | ⟨other, found⟩, marks⟩
    · exact Or.inl marks
    · exact Or.inr ⟨id, entry, ⟨found, other⟩, marks⟩
  · rintro (marks | ⟨id, entry, ⟨found, other⟩, marks⟩)
    · exact ⟨_, _, Or.inl ⟨rfl, rfl⟩, marks⟩
    · exact ⟨id, entry, Or.inr ⟨other, found⟩, marks⟩

theorem Laden.put (isLaden : Laden catalogue start items laden) (owns : catalogue.owns item)
    (spared : ∀ id entry, start.entry id = some entry → id ≠ catalogue.id item) :
    Laden catalogue start (items ++ [item]) (laden.put catalogue item) := by
  have freed : Laden catalogue start items
      (laden.remove catalogue fun id _ => id = catalogue.id item) := isLaden.remove spared
  refine ⟨?_, ?_, ?_, ?_⟩
  · intro id entry found
    exact put_entry.mpr (Or.inr ⟨spared id entry found, isLaden.kept id entry found⟩)
  · intro id entry found
    rcases put_entry.mp found with ⟨sameId, sameEntry⟩ | ⟨-, old⟩
    · exact Or.inr ⟨item, by simp, owns, sameId, sameEntry⟩
    · rcases isLaden.known id entry old with start | ⟨other, member, known⟩
      · exact Or.inl start
      · exact Or.inr ⟨other, mem_append_left _ member, known⟩
  · intro key id
    simp only [Shelf.put, isLaden.stale, mem_append, mem_singleton, or_and_right,
      exists_or, exists_eq_left, owns, true_and, not_or, and_assoc]
  · intro mark
    have fromStart : start.Marked catalogue mark →
        (laden.remove catalogue fun id _ => id = catalogue.id item).Marked catalogue mark :=
      freed.marked
    have words : (laden.put catalogue item).words mark ↔
        (laden.remove catalogue fun id _ => id = catalogue.id item).words mark ∨
          (catalogue.marks (catalogue.fresh item) mark ∧
            ¬(laden.remove catalogue fun id _ => id = catalogue.id item).Marked catalogue mark) :=
      Iff.rfl
    rw [words, freed.words, marked_put]
    simp only [mem_append, mem_singleton, or_and_right, exists_or, exists_eq_left, owns,
      true_and]
    generalize (∃ item ∈ items, catalogue.owns item ∧
      catalogue.marks (catalogue.fresh item) mark) = ofItem
    grind

theorem Laden.place (isLaden : Laden catalogue start items laden) (pruned : start.prune = start)
    (sparedPath : ∀ id entry, start.entry id = some entry →
      catalogue.path entry ≠ catalogue.path (catalogue.fresh item))
    (sparedId : catalogue.owns item → ∀ id entry, start.entry id = some entry →
      id ≠ catalogue.id item) :
    Laden catalogue start (items ++ [item]) (laden.place catalogue item) := by
  have cleared := isLaden.clear pruned sparedPath
  rw [Shelf.place]
  split
  case isTrue owns => exact cleared.put owns (sparedId owns)
  case isFalse other =>
    refine ⟨cleared.kept, ?_, ?_, ?_⟩
    · intro id entry found
      rcases cleared.known id entry found with old | ⟨known, member, rest⟩
      · exact Or.inl old
      · exact Or.inr ⟨known, mem_append_left _ member, rest⟩
    · intro key id
      rw [cleared.stale]
      simp [or_and_right, exists_or, other]
    · intro mark
      rw [cleared.words]
      simp [or_and_right, exists_or, other]

/-- The items find nothing of theirs on the shelf. -/
def Spares (catalogue : Catalogue Id Entry Key Mark Item Path) (start : Shelf Id Entry Key Mark)
    (items : List Item) : Prop :=
  ∀ id entry, start.entry id = some entry → ∀ item ∈ items,
    catalogue.path entry ≠ catalogue.path (catalogue.fresh item) ∧
      (catalogue.owns item → id ≠ catalogue.id item)

theorem Laden.foldl_place {done : List Item} (items : List Item)
    (isLaden : Laden catalogue start done laden) (pruned : start.prune = start)
    (spares : Spares catalogue start items) :
    Laden catalogue start (done ++ items)
      (items.foldl (fun shelf item => shelf.place catalogue item) laden) := by
  induction items generalizing done laden with
  | nil => simpa using isLaden
  | cons item items ih =>
      rw [append_cons, foldl_cons]
      refine ih (isLaden.place pruned ?_ ?_) ?_
      · exact fun id entry found => (spares id entry found item mem_cons_self).1
      · exact fun owns id entry found => (spares id entry found item mem_cons_self).2 owns
      · exact fun id entry found other member =>
          spares id entry found other (mem_cons_of_mem _ member)

theorem Laden.foldl_clear (paths : List Path) (isLaden : Laden catalogue start items laden)
    (pruned : start.prune = start)
    (spared : ∀ id entry, start.entry id = some entry → catalogue.path entry ∉ paths) :
    Laden catalogue start items
      (paths.foldl (fun shelf path => shelf.clear catalogue path) laden) := by
  induction paths generalizing laden with
  | nil => exact isLaden
  | cons path paths ih =>
      refine ih (isLaden.clear pruned ?_) ?_
      · exact fun id entry found same => spared id entry found (by simp [same])
      · exact fun id entry found member => spared id entry found (mem_cons_of_mem _ member)

/-- Whatever was on the shelf: an entry is either one of the items or has nothing to do with
them. -/
theorem foldl_place_entry (items : List Item) (shelf : Shelf Id Entry Key Mark)
    (found : (items.foldl (fun shelf item => shelf.place catalogue item) shelf).entry id =
      some entry) :
    (shelf.entry id = some entry ∧ ∀ item ∈ items,
      catalogue.path entry ≠ catalogue.path (catalogue.fresh item) ∧
        (catalogue.owns item → id ≠ catalogue.id item)) ∨
      ∃ item ∈ items, catalogue.owns item ∧ id = catalogue.id item ∧
        entry = catalogue.fresh item := by
  induction items generalizing shelf with
  | nil => exact Or.inl ⟨found, fun _ member => by cases member⟩
  | cons item items ih =>
      rcases ih (shelf.place catalogue item) found with ⟨placed, others⟩ | ⟨other, member, known⟩
      · rw [Shelf.place] at placed
        by_cases owns : catalogue.owns item
        · rw [if_pos owns, put_entry] at placed
          rcases placed with ⟨sameId, sameEntry⟩ | ⟨differs, cleared⟩
          · exact Or.inr ⟨item, mem_cons_self, owns, sameId, sameEntry⟩
          · rw [clear_entry] at cleared
            refine Or.inl ⟨cleared.1, fun other member => ?_⟩
            rcases mem_cons.mp member with rfl | member
            · exact ⟨cleared.2, fun _ => differs⟩
            · exact others other member
        · rw [if_neg owns, clear_entry] at placed
          refine Or.inl ⟨placed.1, fun other member => ?_⟩
          rcases mem_cons.mp member with rfl | member
          · exact ⟨placed.2, fun mine => absurd mine owns⟩
          · exact others other member
      · exact Or.inr ⟨other, mem_cons_of_mem _ member, known⟩

end Inserting

section Refilling

variable {catalogue : Catalogue Id Entry Key Mark Item Path}
  {shelf start filled : Shelf Id Entry Key Mark} {item : Item} {items removed inserted : List Item}

/-- The shelf with items added that have ids and paths of their own. -/
structure Refilled (catalogue : Catalogue Id Entry Key Mark Item Path)
    (start : Shelf Id Entry Key Mark) (items : List Item) (filled : Shelf Id Entry Key Mark) :
    Prop where
  pruned : filled.prune = filled
  entry : ∀ id entry, filled.entry id = some entry ↔ start.entry id = some entry ∨
    ∃ item ∈ items, catalogue.owns item ∧ id = catalogue.id item ∧ entry = catalogue.fresh item
  stale : ∀ key id, filled.stale key id ↔ start.stale key id ∧
    ¬∃ item ∈ items, catalogue.owns item ∧ id = catalogue.id item ∧
      catalogue.keys (catalogue.fresh item) key
  words : ∀ mark, filled.words mark ↔ start.words mark ∨
    (¬start.Marked catalogue mark ∧
      ∃ item ∈ items, catalogue.owns item ∧ catalogue.marks (catalogue.fresh item) mark)

theorem refilled_nil (pruned : start.prune = start) : Refilled catalogue start [] start := by
  refine ⟨pruned, ?_, ?_, ?_⟩
  · simp
  · simp
  · simp

theorem Refilled.marked (isFilled : Refilled catalogue start items filled) (mark : Mark) :
    filled.Marked catalogue mark ↔ start.Marked catalogue mark ∨
      ∃ item ∈ items, catalogue.owns item ∧ catalogue.marks (catalogue.fresh item) mark := by
  simp only [Shelf.Marked, isFilled.entry]
  constructor
  · rintro ⟨id, entry, old | ⟨item, member, owns, -, rfl⟩, marks⟩
    · exact Or.inl ⟨id, entry, old, marks⟩
    · exact Or.inr ⟨item, member, owns, marks⟩
  · rintro (⟨id, entry, old, marks⟩ | ⟨item, member, owns, marks⟩)
    · exact ⟨id, entry, Or.inl old, marks⟩
    · exact ⟨_, _, Or.inr ⟨item, member, owns, rfl, rfl⟩, marks⟩

theorem Refilled.place (isFilled : Refilled catalogue start items filled)
    (freePath : ∀ id entry, filled.entry id = some entry →
      catalogue.path entry ≠ catalogue.path (catalogue.fresh item))
    (freeId : catalogue.owns item → ∀ id entry, filled.entry id = some entry →
      id ≠ catalogue.id item) :
    Refilled catalogue start (items ++ [item]) (filled.place catalogue item) := by
  rw [Shelf.place, clear_nothing isFilled.pruned freePath]
  split
  case isTrue owns =>
    have untouched : (filled.remove catalogue fun id _ => id = catalogue.id item) = filled :=
      remove_nothing (freeId owns)
    have placed : (filled.put catalogue item).entry (catalogue.id item) =
        some (catalogue.fresh item) := put_entry.mpr (Or.inl ⟨rfl, rfl⟩)
    refine ⟨prune_of_entry placed, ?_, ?_, ?_⟩
    · intro id entry
      have other : filled.entry id = some entry → id ≠ catalogue.id item := freeId owns id entry
      rw [put_entry, and_iff_right_of_imp other, isFilled.entry]
      simp only [mem_append, mem_singleton, or_and_right, exists_or, exists_eq_left, owns,
        true_and]
      rw [or_comm, or_assoc]
    · intro key id
      simp only [Shelf.put, isFilled.stale, mem_append, mem_singleton, or_and_right,
        exists_or, exists_eq_left, owns, true_and, not_or, and_assoc]
    · intro mark
      have words : (filled.put catalogue item).words mark ↔ filled.words mark ∨
          (catalogue.marks (catalogue.fresh item) mark ∧ ¬filled.Marked catalogue mark) := by
        simp only [Shelf.put, untouched]
      rw [words, isFilled.words, isFilled.marked]
      simp only [mem_append, mem_singleton, or_and_right, exists_or, exists_eq_left, owns,
        true_and]
      generalize (∃ item ∈ items, catalogue.owns item ∧
        catalogue.marks (catalogue.fresh item) mark) = ofItem
      grind
  case isFalse other =>
    refine ⟨isFilled.pruned, ?_, ?_, ?_⟩
    · intro id entry
      rw [isFilled.entry]
      simp [or_and_right, exists_or, other]
    · intro key id
      rw [isFilled.stale]
      simp [or_and_right, exists_or, other]
    · intro mark
      rw [isFilled.words]
      simp [or_and_right, exists_or, other]

/-- The items have ids and paths that differ from each other. -/
def Apart (catalogue : Catalogue Id Entry Key Mark Item Path) (items : List Item) : Prop :=
  items.Pairwise fun left right => catalogue.id left ≠ catalogue.id right ∧
    catalogue.path (catalogue.fresh left) ≠ catalogue.path (catalogue.fresh right)

theorem Refilled.foldl_place {done : List Item} (items : List Item)
    (isFilled : Refilled catalogue start done filled) (apart : Apart catalogue (done ++ items))
    (spares : Spares catalogue start items) :
    Refilled catalogue start (done ++ items)
      (items.foldl (fun shelf item => shelf.place catalogue item) filled) := by
  induction items generalizing done filled with
  | nil => simpa using isFilled
  | cons item items ih =>
      have different : ∀ other ∈ done, catalogue.id other ≠ catalogue.id item ∧
          catalogue.path (catalogue.fresh other) ≠ catalogue.path (catalogue.fresh item) :=
        fun other member => (pairwise_append.mp apart).2.2 other member item
          mem_cons_self
      rw [append_cons] at apart ⊢
      rw [foldl_cons]
      refine ih (isFilled.place ?_ ?_) apart ?_
      · intro id entry found
        rcases (isFilled.entry id entry).mp found with old | ⟨other, member, -, -, rfl⟩
        · exact (spares id entry old item mem_cons_self).1
        · exact (different other member).2
      · intro owns id entry found
        rcases (isFilled.entry id entry).mp found with old | ⟨other, member, -, rfl, -⟩
        · exact (spares id entry old item mem_cons_self).2 owns
        · exact (different other member).1
      · exact fun id entry found other member =>
          spares id entry found other (mem_cons_of_mem _ member)

end Refilling

section RollingBack

variable {catalogue : Catalogue Id Entry Key Mark Item Path} {shelf : Shelf Id Entry Key Mark}
  {removed inserted : List Item}

/-- What the removed items of a change are: entries of the shelf, as far as it is theirs. -/
structure Removable (catalogue : Catalogue Id Entry Key Mark Item Path)
    (shelf : Shelf Id Entry Key Mark) (removed : List Item) : Prop where
  pruned : shelf.prune = shelf
  apart : Apart catalogue removed
  here : ∀ item ∈ removed, ∀ entry, shelf.entry (catalogue.id item) = some entry →
    catalogue.owns item
  only : ∀ item ∈ removed, ∀ id entry, shelf.entry id = some entry →
    catalogue.path entry = catalogue.path (catalogue.fresh item) → id = catalogue.id item
  accounted : ∀ key id entry, shelf.entry id = some entry → shelf.stale key id →
    ¬catalogue.keys entry key

/-- Another entry than those with the ids. -/
def Outside (shelf : Shelf Id Entry Key Mark) (ids : List Id) : Prop :=
  ∃ id entry, shelf.entry id = some entry ∧ id ∉ ids

/-- An entry other than the removed ones has the mark. -/
def MarkedOutside (catalogue : Catalogue Id Entry Key Mark Item Path)
    (shelf : Shelf Id Entry Key Mark) (removed : List Item) (mark : Mark) : Prop :=
  ∃ id entry, shelf.entry id = some entry ∧ id ∉ removed.map catalogue.id ∧
    catalogue.marks entry mark

/-- When a change that is called off leaves no trace. -/
structure Undone (catalogue : Catalogue Id Entry Key Mark Item Path)
    (shelf : Shelf Id Entry Key Mark) (removed inserted : List Item) : Prop where
  spared : ∀ id entry, shelf.entry id = some entry → id ∉ removed.map catalogue.id →
    ∀ item ∈ inserted, catalogue.path entry ≠ catalogue.path (catalogue.fresh item) ∧
      (catalogue.owns item → id ≠ catalogue.id item)
  plain : ∀ item ∈ removed, catalogue.owns item →
    shelf.entry (catalogue.id item) = some (catalogue.fresh item)
  stale : ∀ key id, shelf.stale key id →
    Outside shelf (removed.map catalogue.id) ∧
      ∀ item ∈ inserted, catalogue.owns item → id = catalogue.id item →
        ¬catalogue.keys (catalogue.fresh item) key
  remarked : ∀ item ∈ removed, catalogue.owns item → ∀ mark,
    catalogue.marks (catalogue.fresh item) mark →
      MarkedOutside catalogue shelf removed mark ∨ shelf.words mark
  unmarked : ∀ mark, shelf.words mark →
    MarkedOutside catalogue shelf removed mark ∨
      (∃ item ∈ removed, catalogue.owns item ∧ catalogue.marks (catalogue.fresh item) mark) ∨
      (Outside shelf (removed.map catalogue.id) ∧
        ∀ item ∈ inserted, catalogue.owns item → ¬catalogue.marks (catalogue.fresh item) mark)

theorem takeOut_cases (catalogue : Catalogue Id Entry Key Mark Item Path)
    (shelf : Shelf Id Entry Key Mark) (ids : List Id) :
    (¬Outside shelf ids ∧ shelf.takeOut catalogue ids = Shelf.bare) ∨
      (Outside shelf ids ∧
        shelf.takeOut catalogue ids = shelf.remove catalogue fun id _ => id ∈ ids) := by
  by_cases vacant : (shelf.remove catalogue fun id _ => id ∈ ids).Vacant
  · refine Or.inl ⟨?_, if_pos vacant⟩
    rintro ⟨id, entry, found, outside⟩
    have kept : (shelf.remove catalogue fun id _ => id ∈ ids).entry id = some entry :=
      remove_entry.mpr ⟨found, outside⟩
    rw [vacant id] at kept
    cases kept
  · refine Or.inr ⟨?_, if_neg vacant⟩
    rcases not_forall.mp vacant with ⟨id, occupied⟩
    rcases Option.ne_none_iff_exists'.mp occupied with ⟨entry, kept⟩
    rcases remove_entry.mp kept with ⟨found, outside⟩
    exact ⟨id, entry, found, outside⟩

theorem takeOut_stale {ids : List Id} {key : Key} {id : Id} :
    (shelf.takeOut catalogue ids).stale key id ↔ Outside shelf ids ∧ shelf.stale key id := by
  rcases takeOut_cases catalogue shelf ids with ⟨emptied, same⟩ | ⟨outside, same⟩
  · rw [same]
    exact iff_of_false False.elim fun both => emptied both.1
  · rw [same]
    exact (and_iff_right outside).symm

theorem marked_takeOut {mark : Mark} :
    (shelf.takeOut catalogue (removed.map catalogue.id)).Marked catalogue mark ↔
      MarkedOutside catalogue shelf removed mark := by
  simp only [Shelf.Marked, takeOut_entry, MarkedOutside, and_assoc]

theorem takeOut_words {mark : Mark} :
    (shelf.takeOut catalogue (removed.map catalogue.id)).words mark ↔
      Outside shelf (removed.map catalogue.id) ∧ shelf.words mark ∧
        (shelf.Marked catalogue mark → MarkedOutside catalogue shelf removed mark) := by
  rcases takeOut_cases catalogue shelf (removed.map catalogue.id) with
    ⟨emptied, same⟩ | ⟨outside, same⟩
  · rw [same]
    exact iff_of_false False.elim fun both => emptied both.1
  · rw [and_iff_right outside, ← marked_takeOut, same]
    exact remove_words

theorem spares_takeOut : Spares catalogue (shelf.takeOut catalogue (removed.map catalogue.id))
      inserted ↔
    ∀ id entry, shelf.entry id = some entry → id ∉ removed.map catalogue.id →
      ∀ item ∈ inserted, catalogue.path entry ≠ catalogue.path (catalogue.fresh item) ∧
        (catalogue.owns item → id ≠ catalogue.id item) := by
  simp only [Spares, takeOut_entry, and_imp]

/-- An entry that an inserted item pushes out does not come back. -/
theorem spares_of_rolledBack (same : shelf.rolledBack catalogue removed inserted = shelf) :
    Spares catalogue (shelf.takeOut catalogue (removed.map catalogue.id)) inserted := by
  intro id entry found item member
  have before := (takeOut_entry.mp found).1
  have outside := (takeOut_entry.mp found).2
  have back : (shelf.rolledBack catalogue removed inserted).entry id = some entry :=
    same.symm ▸ before
  rcases foldl_place_entry removed _ back with ⟨cleared, -⟩ | ⟨other, otherMem, -, rfl, -⟩
  · rw [foldl_clear_entry] at cleared
    rcases foldl_place_entry inserted _ cleared.1 with
      ⟨-, spared⟩ | ⟨other, otherMem, -, -, rfl⟩
    · exact spared item member
    · exact absurd (mem_map_of_mem otherMem) cleared.2
  · exact absurd (mem_map_of_mem otherMem) outside

/-- What is on the shelf after a change that pushed nothing out was called off. -/
structure Recovered (catalogue : Catalogue Id Entry Key Mark Item Path)
    (shelf : Shelf Id Entry Key Mark) (removed inserted : List Item)
    (after : Shelf Id Entry Key Mark) : Prop where
  entry : ∀ id entry, after.entry id = some entry ↔
    (shelf.entry id = some entry ∧ id ∉ removed.map catalogue.id) ∨
      ∃ item ∈ removed, catalogue.owns item ∧ id = catalogue.id item ∧
        entry = catalogue.fresh item
  stale : ∀ key id, after.stale key id ↔
    Outside shelf (removed.map catalogue.id) ∧ shelf.stale key id ∧
      (¬∃ item ∈ inserted, catalogue.owns item ∧ id = catalogue.id item ∧
        catalogue.keys (catalogue.fresh item) key) ∧
      ¬∃ item ∈ removed, catalogue.owns item ∧ id = catalogue.id item ∧
        catalogue.keys (catalogue.fresh item) key
  words : ∀ mark, after.words mark ↔
    (Outside shelf (removed.map catalogue.id) ∧ shelf.words mark ∧
      (shelf.Marked catalogue mark → MarkedOutside catalogue shelf removed mark) ∧
      (MarkedOutside catalogue shelf removed mark ∨
        ¬∃ item ∈ inserted, catalogue.owns item ∧
          catalogue.marks (catalogue.fresh item) mark)) ∨
    (¬MarkedOutside catalogue shelf removed mark ∧
      ∃ item ∈ removed, catalogue.owns item ∧ catalogue.marks (catalogue.fresh item) mark)

theorem recovered_rolledBack (removable : Removable catalogue shelf removed)
    (spares : Spares catalogue (shelf.takeOut catalogue (removed.map catalogue.id)) inserted) :
    Recovered catalogue shelf removed inserted
      (shelf.rolledBack catalogue removed inserted) := by
  have pruned : (shelf.takeOut catalogue (removed.map catalogue.id)).prune =
      shelf.takeOut catalogue (removed.map catalogue.id) := prune_prune
  have placed := laden_nil.foldl_place inserted pruned spares
  rw [nil_append] at placed
  have cleared :=
    placed.foldl_clear (inserted.map fun item => catalogue.path (catalogue.fresh item))
    pruned (by
      intro id entry found member
      rcases mem_map.mp member with ⟨item, itemMem, same⟩
      exact (spares id entry found item itemMem).1 same.symm)
  generalize loaded : (inserted.map fun item => catalogue.path (catalogue.fresh item)).foldl
    (fun shelf path => shelf.clear catalogue path) (inserted.foldl (fun shelf item =>
      shelf.place catalogue item) (shelf.takeOut catalogue (removed.map catalogue.id))) = start
    at cleared
  have entries : ∀ id entry, start.entry id = some entry ↔
      shelf.entry id = some entry ∧ id ∉ removed.map catalogue.id := by
    intro id entry
    rw [← takeOut_entry]
    refine ⟨fun found => ?_, cleared.kept id entry⟩
    rcases cleared.known id entry found with old | ⟨item, member, -, -, rfl⟩
    · exact old
    · rw [← loaded, foldl_clear_entry] at found
      exact absurd (mem_map_of_mem member) found.2
  have marked : ∀ mark, start.Marked catalogue mark ↔
      MarkedOutside catalogue shelf removed mark := by
    intro mark
    simp only [Shelf.Marked, entries, MarkedOutside, and_assoc]
  have refilled :
      Refilled catalogue start removed (shelf.rolledBack catalogue removed inserted) := by
    rw [Shelf.rolledBack, Shelf.callOff, loaded]
    have filled := (refilled_nil (cleared.pruned pruned)).foldl_place removed removable.apart ?_
    · exact filled
    · intro id entry found item member
      rw [entries] at found
      have other : id ≠ catalogue.id item := by
        rintro rfl
        exact found.2 (mem_map_of_mem member)
      exact ⟨fun samePath => other (removable.only item member id entry found.1 samePath),
        fun _ => other⟩
  refine ⟨?_, ?_, ?_⟩
  · intro id entry
    rw [refilled.entry, entries]
  · intro key id
    rw [refilled.stale, cleared.stale, takeOut_stale]
    grind
  · intro mark
    rw [refilled.words, cleared.words, marked, marked_takeOut, takeOut_words]
    generalize (∃ item ∈ inserted, catalogue.owns item ∧
      catalogue.marks (catalogue.fresh item) mark) = ofInserted
    have lent : MarkedOutside catalogue shelf removed mark → shelf.Marked catalogue mark := by
      rintro ⟨id, entry, found, -, marks⟩
      exact ⟨id, entry, found, marks⟩
    have outside : MarkedOutside catalogue shelf removed mark →
        Outside shelf (removed.map catalogue.id) := by
      rintro ⟨id, entry, found, outside, -⟩
      exact ⟨id, entry, found, outside⟩
    grind

theorem undone_congr {other otherInserted : List Item}
    (same : ∀ item, item ∈ removed ↔ item ∈ other)
    (sameInserted : ∀ item, item ∈ inserted ↔ item ∈ otherInserted) :
    Undone catalogue shelf removed inserted ↔ Undone catalogue shelf other otherInserted := by
  have ids : ∀ id, id ∈ removed.map catalogue.id ↔ id ∈ other.map catalogue.id := by
    intro id
    simp only [mem_map, same]
  have outside : Outside shelf (removed.map catalogue.id) ↔
      Outside shelf (other.map catalogue.id) := by
    simp only [Outside, ids]
  have marked : ∀ mark, MarkedOutside catalogue shelf removed mark ↔
      MarkedOutside catalogue shelf other mark := by
    intro mark
    simp only [MarkedOutside, ids]
  constructor
  · rintro ⟨spared, plain, stale, remarked, unmarked⟩
    simp only [ids, same, outside, marked, sameInserted] at *
    exact ⟨spared, plain, stale, remarked, unmarked⟩
  · rintro ⟨spared, plain, stale, remarked, unmarked⟩
    simp only [← ids, ← same, ← outside, ← marked, ← sameInserted] at *
    exact ⟨spared, plain, stale, remarked, unmarked⟩

/-- A change that is called off leaves no trace exactly when it is `Undone`. -/
theorem rolledBack_eq_iff (removable : Removable catalogue shelf removed) :
    shelf.rolledBack catalogue removed inserted = shelf ↔
      Undone catalogue shelf removed inserted := by
  constructor
  · intro same
    have spares := spares_of_rolledBack same
    have recovered := recovered_rolledBack removable spares
    rw [same] at recovered
    refine ⟨spares_takeOut.mp spares, ?_, ?_, ?_, ?_⟩
    · intro item member owns
      exact (recovered.entry _ _).mpr (Or.inr ⟨item, member, owns, rfl, rfl⟩)
    · intro key id stale
      rcases (recovered.stale key id).mp stale with ⟨outside, -, notInserted, -⟩
      exact ⟨outside, fun item member owns sameId keys =>
        notInserted ⟨item, member, owns, sameId, keys⟩⟩
    · intro item member owns mark marks
      by_cases outside : MarkedOutside catalogue shelf removed mark
      · exact Or.inl outside
      · exact Or.inr ((recovered.words mark).mpr (Or.inr ⟨outside, item, member, owns, marks⟩))
    · intro mark words
      rcases (recovered.words mark).mp words with ⟨outside, -, -, marked | notInserted⟩ | ⟨-, own⟩
      · exact Or.inl marked
      · exact Or.inr (Or.inr ⟨outside, fun item member owns marks =>
          notInserted ⟨item, member, owns, marks⟩⟩)
      · exact Or.inr (Or.inl own)
  · intro undone
    have recovered := recovered_rolledBack removable (spares_takeOut.mpr undone.spared)
    apply Shelf.ext
    · intro id
      refine Option.ext fun entry => ?_
      rw [recovered.entry]
      constructor
      · rintro (⟨found, -⟩ | ⟨item, member, owns, rfl, rfl⟩)
        · exact found
        · exact undone.plain item member owns
      · intro found
        by_cases gone : id ∈ removed.map catalogue.id
        · rcases mem_map.mp gone with ⟨item, member, rfl⟩
          have owns := removable.here item member entry found
          rw [undone.plain item member owns, Option.some.injEq] at found
          exact Or.inr ⟨item, member, owns, rfl, found.symm⟩
        · exact Or.inl ⟨found, gone⟩
    · intro key id
      rw [recovered.stale]
      refine ⟨fun all => all.2.1, fun stale => ?_⟩
      rcases undone.stale key id stale with ⟨outside, notInserted⟩
      refine ⟨outside, stale, ?_, ?_⟩
      · rintro ⟨item, member, owns, sameId, keys⟩
        exact notInserted item member owns sameId keys
      · rintro ⟨item, member, owns, rfl, keys⟩
        exact removable.accounted key _ _ (undone.plain item member owns) stale keys
    · intro mark
      rw [recovered.words]
      constructor
      · rintro (⟨-, words, -⟩ | ⟨notOutside, item, member, owns, marks⟩)
        · exact words
        · exact (undone.remarked item member owns mark marks).resolve_left notOutside
      · intro words
        by_cases outside : MarkedOutside catalogue shelf removed mark
        · rcases outside with ⟨id, entry, found, notGone, marks⟩
          exact Or.inl ⟨⟨id, entry, found, notGone⟩, words,
            fun _ => ⟨id, entry, found, notGone, marks⟩, Or.inl ⟨id, entry, found, notGone, marks⟩⟩
        · rcases undone.unmarked mark words with marked | own | ⟨others, notInserted⟩
          · exact absurd marked outside
          · exact Or.inr ⟨outside, own⟩
          · by_cases own : ∃ item ∈ removed, catalogue.owns item ∧
                catalogue.marks (catalogue.fresh item) mark
            · exact Or.inr ⟨outside, own⟩
            · refine Or.inl ⟨others, words, ?_, Or.inr ?_⟩
              · rintro ⟨id, entry, found, marks⟩
                by_cases gone : id ∈ removed.map catalogue.id
                · rcases mem_map.mp gone with ⟨item, member, rfl⟩
                  have owns := removable.here item member entry found
                  rw [undone.plain item member owns, Option.some.injEq] at found
                  exact absurd ⟨item, member, owns, found ▸ marks⟩ own
                · exact ⟨id, entry, found, gone, marks⟩
              · rintro ⟨item, member, owns, marks⟩
                exact notInserted item member owns marks

end RollingBack

end Shelves

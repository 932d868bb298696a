import Mathlib

/-!
# Logs with tombstones

A log is a list of entries, oldest first. An entry first voids every older
item of the keys that it names and then adds items of its own, so an item is
live when some entry adds it and no later one voids its key.

Compaction takes some entries of a log, replays them, and puts the result in
front of the entries that it retains; the tombstones of the entries it took are
gone. It can go wrong in two ways. A selected tombstone no longer reaches an
older retained entry, and an item of that entry comes back. A retained
tombstone now stands behind a younger selected entry, and an item of that entry
disappears. The live view survives exactly when every item that comes back is
live anyway and every item that disappears is also live among the retained
entries.
-/

namespace TombstoneLog

universe u v

variable {Key : Type u} {Item : Type v}

structure Entry (Key : Type u) (Item : Type v) where
  dead : Set Key
  items : Set Item

section Replay

variable (key : Item → Key)

def apply (view : Set Item) (entry : Entry Key Item) : Set Item :=
  {item | item ∈ view ∧ key item ∉ entry.dead} ∪ entry.items

def replay (view : Set Item) (log : List (Entry Key Item)) : Set Item :=
  log.foldl (apply key) view

/-- No entry voids the key of the item. -/
def Untouched (item : Item) (log : List (Entry Key Item)) : Prop :=
  ∀ entry ∈ log, key item ∉ entry.dead

/-- Some entry adds the item and no later one voids its key. -/
def Live (item : Item) : List (Entry Key Item) → Prop
  | [] => False
  | entry :: later => (item ∈ entry.items ∧ Untouched key item later) ∨ Live item later

variable {key}

@[simp]
theorem untouched_nil (item : Item) : Untouched key item [] := by
  intro entry member
  cases member

@[simp]
theorem untouched_cons {item : Item} {entry : Entry Key Item} {log : List (Entry Key Item)} :
    Untouched key item (entry :: log) ↔ key item ∉ entry.dead ∧ Untouched key item log := by
  simp [Untouched]

theorem mem_replay {view : Set Item} {log : List (Entry Key Item)} {item : Item} :
    item ∈ replay key view log ↔ (item ∈ view ∧ Untouched key item log) ∨ Live key item log := by
  induction log generalizing view with
  | nil => simp [replay, Live]
  | cons entry log ih =>
      have step : item ∈ replay key (apply key view entry) log ↔ _ := ih
      simp only [replay, List.foldl_cons] at step ⊢
      rw [step]
      simp only [apply, Set.mem_union, Set.mem_ofPred_eq, untouched_cons, Live]
      tauto

theorem mem_replay_empty {log : List (Entry Key Item)} {item : Item} :
    item ∈ replay key ∅ log ↔ Live key item log := by
  simp [mem_replay]

/-- Entries that void nothing add their items. -/
theorem mem_replay_of_clean {view : Set Item} {log : List (Entry Key Item)} {item : Item}
    (clean : ∀ entry ∈ log, entry.dead = ∅) :
    item ∈ replay key view log ↔ item ∈ view ∨ ∃ entry ∈ log, item ∈ entry.items := by
  induction log generalizing view with
  | nil => simp [replay]
  | cons entry log ih =>
      have later := @ih (apply key view entry) fun other member =>
        clean other (List.mem_cons_of_mem _ member)
      have step : replay key view (entry :: log) = replay key (apply key view entry) log := rfl
      rw [step, later]
      simp [apply, clean entry List.mem_cons_self, or_assoc]

theorem Live.exists_entry {log : List (Entry Key Item)} {item : Item}
    (live : Live key item log) : ∃ entry ∈ log, item ∈ entry.items := by
  induction log with
  | nil => exact live.elim
  | cons entry log ih =>
      rcases live with ⟨added, -⟩ | live
      · exact ⟨entry, List.mem_cons_self, added⟩
      · rcases ih live with ⟨later, laterMem, added⟩
        exact ⟨later, List.mem_cons_of_mem _ laterMem, added⟩

end Replay

section Compaction

abbrev Marked (Key : Type u) (Item : Type v) := List (Bool × Entry Key Item)

def selected (marked : Marked Key Item) : List (Entry Key Item) :=
  (marked.filter fun entry => entry.1).map Prod.snd

def retained (marked : Marked Key Item) : List (Entry Key Item) :=
  (marked.filter fun entry => !entry.1).map Prod.snd

@[simp]
theorem selected_cons (mark : Bool) (entry : Entry Key Item) (marked : Marked Key Item) :
    selected ((mark, entry) :: marked) =
      if mark then entry :: selected marked else selected marked := by
  cases mark <;> rfl

@[simp]
theorem retained_cons (mark : Bool) (entry : Entry Key Item) (marked : Marked Key Item) :
    retained ((mark, entry) :: marked) =
      if mark then retained marked else entry :: retained marked := by
  cases mark <;> rfl

variable (key : Item → Key)

/-- The selected entries replayed, then the retained ones on top. -/
def compacted (marked : Marked Key Item) : Set Item :=
  replay key (replay key ∅ (selected marked)) (retained marked)

/-- An item of a retained entry that only a younger selected entry voids. -/
def Resurrected (item : Item) : Marked Key Item → Prop
  | [] => False
  | (mark, entry) :: later =>
      (mark = false ∧ item ∈ entry.items ∧ Untouched key item (retained later) ∧
        ¬Untouched key item (selected later)) ∨ Resurrected item later

/-- A live item of a selected entry. -/
def LiveSelected (item : Item) : Marked Key Item → Prop
  | [] => False
  | (mark, entry) :: later =>
      (mark = true ∧ item ∈ entry.items ∧ Untouched key item (later.map Prod.snd)) ∨
        LiveSelected item later

/-- A live item of a selected entry whose key an older retained entry voids. -/
def Lost (item : Item) : Marked Key Item → Prop
  | [] => False
  | (mark, entry) :: later =>
      (mark = false ∧ key item ∈ entry.dead ∧ LiveSelected key item later) ∨ Lost item later

variable {key} {item : Item} {marked : Marked Key Item}

theorem mem_compacted :
    item ∈ compacted key marked ↔
      (Live key item (selected marked) ∧ Untouched key item (retained marked)) ∨
        Live key item (retained marked) := by
  rw [compacted, mem_replay, mem_replay_empty]

theorem untouched_iff :
    Untouched key item (marked.map Prod.snd) ↔
      Untouched key item (selected marked) ∧ Untouched key item (retained marked) := by
  induction marked with
  | nil => simp [selected, retained]
  | cons entry marked ih =>
      rcases entry with ⟨_ | _, entry⟩
      · simp only [List.map_cons, untouched_cons, ih, selected_cons, retained_cons,
          Bool.false_eq_true, if_false]
        tauto
      · simp only [List.map_cons, untouched_cons, ih, selected_cons, retained_cons, if_true]
        tauto

theorem live_of_selected (live : Live key item (selected marked))
    (untouched : Untouched key item (retained marked)) :
    Live key item (marked.map Prod.snd) := by
  induction marked with
  | nil => exact live
  | cons entry marked ih =>
      rcases entry with ⟨_ | _, entry⟩
      · simp only [selected_cons, retained_cons, Bool.false_eq_true, if_false,
          untouched_cons] at live untouched
        exact Or.inr (ih live untouched.2)
      · simp only [selected_cons, retained_cons, if_true, Live] at live untouched
        rcases live with ⟨added, later⟩ | live
        · exact Or.inl ⟨added, untouched_iff.mpr ⟨later, untouched⟩⟩
        · exact Or.inr (ih live untouched)

theorem live_or_resurrected (live : Live key item (retained marked)) :
    Live key item (marked.map Prod.snd) ∨ Resurrected key item marked := by
  induction marked with
  | nil => exact Or.inl live
  | cons entry marked ih =>
      rcases entry with ⟨_ | _, entry⟩
      · simp only [retained_cons, Bool.false_eq_true, if_false, Live] at live
        rcases live with ⟨added, later⟩ | live
        · by_cases reached : Untouched key item (selected marked)
          · exact Or.inl (Or.inl ⟨added, untouched_iff.mpr ⟨reached, later⟩⟩)
          · exact Or.inr (Or.inl ⟨rfl, added, later, reached⟩)
        · exact (ih live).imp Or.inr Or.inr
      · simp only [retained_cons, if_true] at live
        exact (ih live).imp Or.inr Or.inr

theorem Resurrected.live (back : Resurrected key item marked) :
    Live key item (retained marked) := by
  induction marked with
  | nil => exact back
  | cons entry marked ih =>
      rcases entry with ⟨mark, entry⟩
      rcases back with ⟨rfl, added, later, -⟩ | back
      · exact Or.inl ⟨added, later⟩
      · cases mark with
        | false => exact Or.inr (ih back)
        | true => exact ih back

theorem LiveSelected.live (live : LiveSelected key item marked) :
    Live key item (marked.map Prod.snd) := by
  induction marked with
  | nil => exact live
  | cons entry marked ih =>
      rcases live with ⟨-, added, later⟩ | live
      · exact Or.inl ⟨added, later⟩
      · exact Or.inr (ih live)

theorem Lost.live (lost : Lost key item marked) : Live key item (marked.map Prod.snd) := by
  induction marked with
  | nil => exact lost
  | cons entry marked ih =>
      rcases lost with ⟨-, -, live⟩ | lost
      · exact Or.inr live.live
      · exact Or.inr (ih lost)

theorem Lost.touched (lost : Lost key item marked) :
    ¬Untouched key item (retained marked) := by
  induction marked with
  | nil => exact lost.elim
  | cons entry marked ih =>
      rcases entry with ⟨mark, entry⟩
      rcases lost with ⟨rfl, voided, -⟩ | lost
      · simp [voided]
      · cases mark with
        | false =>
            simp only [retained_cons, Bool.false_eq_true, if_false, untouched_cons, not_and]
            intro _
            exact ih lost
        | true => simpa using ih lost

/-- A live item is live among the retained entries or in a selected one. -/
theorem live_cases (live : Live key item (marked.map Prod.snd)) :
    Live key item (retained marked) ∨
      (LiveSelected key item marked ∧ Live key item (selected marked)) := by
  induction marked with
  | nil => exact Or.inl live
  | cons entry marked ih =>
      rcases entry with ⟨mark, entry⟩
      rcases live with ⟨added, later⟩ | live
      · cases mark with
        | false => exact Or.inl (Or.inl ⟨added, (untouched_iff.mp later).2⟩)
        | true =>
            exact Or.inr ⟨Or.inl ⟨rfl, added, later⟩, Or.inl ⟨added, (untouched_iff.mp later).1⟩⟩
      · rcases ih live with live | ⟨inSelected, live⟩
        · cases mark with
          | false => exact Or.inl (Or.inr live)
          | true => exact Or.inl live
        · cases mark with
          | false => exact Or.inr ⟨Or.inr inSelected, live⟩
          | true => exact Or.inr ⟨Or.inr inSelected, Or.inr live⟩

theorem LiveSelected.untouched_or_lost (live : LiveSelected key item marked) :
    Untouched key item (retained marked) ∨ Lost key item marked := by
  induction marked with
  | nil => exact live.elim
  | cons entry marked ih =>
      rcases entry with ⟨mark, entry⟩
      rcases live with ⟨rfl, -, later⟩ | live
      · left
        simpa using (untouched_iff.mp later).2
      · rcases ih live with untouched | lost
        · cases mark with
          | false =>
              by_cases voided : key item ∈ entry.dead
              · exact Or.inr (Or.inl ⟨rfl, voided, live⟩)
              · left
                simpa using ⟨voided, untouched⟩
          | true =>
              left
              simpa using untouched
        · exact Or.inr (Or.inr lost)

/-- Exactly when compaction keeps the live view. -/
theorem compacted_eq_replay_iff :
    compacted key marked = replay key ∅ (marked.map Prod.snd) ↔
      (∀ item, Resurrected key item marked → Live key item (marked.map Prod.snd)) ∧
        ∀ item, Lost key item marked → Live key item (retained marked) := by
  simp only [Set.ext_iff, mem_compacted, mem_replay_empty]
  constructor
  · intro same
    constructor
    · intro item back
      exact (same item).mp (Or.inr back.live)
    · intro item lost
      rcases (same item).mpr lost.live with ⟨-, untouched⟩ | live
      · exact absurd untouched lost.touched
      · exact live
  · rintro ⟨harmless, covered⟩ item
    constructor
    · rintro (⟨live, untouched⟩ | live)
      · exact live_of_selected live untouched
      · rcases live_or_resurrected live with live | back
        · exact live
        · exact harmless item back
    · intro live
      rcases live_cases live with live | ⟨inSelected, live⟩
      · exact Or.inr live
      · rcases inSelected.untouched_or_lost with untouched | lost
        · exact Or.inl ⟨live, untouched⟩
        · exact Or.inr (covered item lost)

end Compaction

section Base

variable (key : Item → Key)

/-- The selected entries replayed beside what is kept of an older view, then the retained ones on
top. -/
def maintained (kept : Set Item) (marked : Marked Key Item) : Set Item :=
  replay key (kept ∪ replay key ∅ (selected marked)) (retained marked)

/-- When it is safe to replay the selected entries without the view that they were written for. -/
structure Discharged (base kept : Set Item) (marked : Marked Key Item) : Prop where
  resurrected : ∀ item, Resurrected key item marked → Live key item (marked.map Prod.snd)
  lost : ∀ item, Lost key item marked → Live key item (retained marked)
  stale : ∀ item ∈ kept, Untouched key item (retained marked) →
    ¬Untouched key item (selected marked) → Live key item (marked.map Prod.snd)
  replaced : ∀ item ∈ base, item ∉ kept → Untouched key item (marked.map Prod.snd) →
    Live key item (marked.map Prod.snd)

variable {key} {item : Item} {marked : Marked Key Item} {base kept : Set Item}

theorem Resurrected.touched (back : Resurrected key item marked) :
    ¬Untouched key item (selected marked) := by
  induction marked with
  | nil => exact back.elim
  | cons entry marked ih =>
      rcases entry with ⟨mark, entry⟩
      rcases back with ⟨rfl, -, -, touched⟩ | back
      · exact touched
      · cases mark with
        | false => exact ih back
        | true =>
            simp only [selected_cons, if_true, untouched_cons, not_and]
            intro _
            exact ih back

theorem mem_maintained :
    item ∈ maintained key kept marked ↔
      item ∈ compacted key marked ∨ (item ∈ kept ∧ Untouched key item (retained marked)) := by
  rw [maintained, compacted, mem_replay, mem_replay, Set.mem_union]
  tauto

/-- Exactly when the view over what is kept is the view that the whole log gives. -/
theorem maintained_eq_replay_iff (within : kept ⊆ base) :
    maintained key kept marked = replay key base (marked.map Prod.snd) ↔
      Discharged key base kept marked := by
  simp only [Set.ext_iff, mem_maintained]
  constructor
  · intro same
    refine ⟨?_, ?_, ?_, ?_⟩
    · intro item back
      rcases mem_replay.mp ((same item).mp (Or.inl (mem_compacted.mpr (Or.inr back.live)))) with
        ⟨-, untouched⟩ | live
      · exact absurd (untouched_iff.mp untouched).1 back.touched
      · exact live
    · intro item lost
      rcases (same item).mpr (mem_replay.mpr (Or.inr lost.live)) with inCompacted | ⟨-, untouched⟩
      · rcases mem_compacted.mp inCompacted with ⟨-, untouched⟩ | live
        · exact absurd untouched lost.touched
        · exact live
      · exact absurd untouched lost.touched
    · intro item inKept untouched touched
      rcases mem_replay.mp ((same item).mp (Or.inr ⟨inKept, untouched⟩)) with ⟨-, all⟩ | live
      · exact absurd (untouched_iff.mp all).1 touched
      · exact live
    · intro item inBase dropped untouched
      rcases (same item).mpr (mem_replay.mpr (Or.inl ⟨inBase, untouched⟩)) with
        inCompacted | ⟨inKept, -⟩
      · rcases mem_compacted.mp inCompacted with ⟨live, untouched⟩ | live
        · exact live_of_selected live untouched
        · rcases live_or_resurrected live with live | back
          · exact live
          · exact absurd (untouched_iff.mp untouched).1 back.touched
      · exact absurd inKept dropped
  · intro discharged item
    have compactedSame := compacted_eq_replay_iff.mpr ⟨discharged.resurrected, discharged.lost⟩
    rw [compactedSame, mem_replay_empty, mem_replay]
    constructor
    · rintro (live | ⟨inKept, untouched⟩)
      · exact Or.inr live
      · by_cases reached : Untouched key item (selected marked)
        · exact Or.inl ⟨within inKept, untouched_iff.mpr ⟨reached, untouched⟩⟩
        · exact Or.inr (discharged.stale item inKept untouched reached)
    · rintro (⟨inBase, untouched⟩ | live)
      · by_cases inKept : item ∈ kept
        · exact Or.inr ⟨inKept, (untouched_iff.mp untouched).2⟩
        · exact Or.inl (discharged.replaced item inBase inKept untouched)
      · exact Or.inl live

end Base

end TombstoneLog

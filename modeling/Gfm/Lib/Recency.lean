import Mathlib

/-!
# The least recently used go first

What a bounded cache is for: the values of the keys that were used last. The entries are listed
from the least recently used one on, and what they are is told by the calls that were made.
-/

namespace Recency

open List

universe u v

variable {Key : Type u} {Value : Type v} [DecidableEq Key]

inductive Call (Key : Type u) (Value : Type v) where
  | get (key : Key)
  | insert (key : Key) (value : Value)
  | clear

section Calls

def Call.uses (key : Key) : Call Key Value → Bool
  | .get other => other = key
  | .insert other _ => other = key
  | .clear => false

def Call.inserts (key : Key) : Call Key Value → Option Value
  | .insert other value => if other = key then some value else none
  | _ => none

/-- The number of calls up to the last one that uses the key. -/
def lastUse (calls : List (Call Key Value)) (key : Key) : Nat :=
  calls.length - calls.reverse.findIdx (Call.uses key)

def lastInserted (calls : List (Call Key Value)) (key : Key) : Option Value :=
  calls.reverse.findSome? (Call.inserts key)

variable {calls : List (Call Key Value)} {call : Call Key Value} {key : Key}

theorem lastUse_le : lastUse calls key ≤ calls.length := Nat.sub_le ..

theorem lastUse_append_of_uses (uses : call.uses key = true) :
    lastUse (calls ++ [call]) key = calls.length + 1 := by
  simp [lastUse, findIdx_cons, uses]

theorem lastUse_append (unused : call.uses key = false) :
    lastUse (calls ++ [call]) key = lastUse calls key := by
  simp [lastUse, findIdx_cons, unused]

theorem lastInserted_append :
    lastInserted (calls ++ [call]) key = (call.inserts key).or (lastInserted calls key) := by
  simp only [lastInserted, reverse_append, reverse_singleton, singleton_append,
    findSome?_cons]
  cases call.inserts key <;> rfl

theorem inserts_of_unused (unused : call.uses key = false) : call.inserts key = none := by
  cases call with
  | get | clear => rfl
  | insert other value => exact if_neg (of_decide_eq_false unused)

end Calls

section Held

/-- The entry of a key, as the one used last. -/
def touch (held : List (Key × Value)) (key : Key) (value : Value) : List (Key × Value) :=
  held.filter (fun entry => entry.1 ≠ key) ++ [(key, value)]

def evict (capacity : Nat) (held : List (Key × Value)) : List (Key × Value) :=
  held.drop (held.length - capacity)

def perform (capacity : Nat) (held : List (Key × Value)) : Call Key Value → List (Key × Value)
  | .get key =>
      match held.lookup key with
      | some value => touch held key value
      | none => held
  | .insert key value => if capacity = 0 then held else evict capacity (touch held key value)
  | .clear => []

def run (capacity : Nat) (calls : List (Call Key Value)) : List (Key × Value) :=
  calls.foldl (perform capacity) []

variable {held : List (Key × Value)} {key other : Key} {value : Value} {capacity : Nat}

theorem mem_touch {entry : Key × Value} :
    entry ∈ touch held key value ↔ entry.1 ≠ key ∧ entry ∈ held ∨ entry = (key, value) := by
  simp [touch, and_comm]

theorem mem_of_lookup (found : held.lookup key = some value) : (key, value) ∈ held := by
  rcases List.lookup_eq_some_iff.mp found with ⟨before, after, rfl, -⟩
  simp

section Distinct

variable (distinct : (held.map Prod.fst).Nodup)

include distinct

theorem lookup_eq_some_iff : held.lookup key = some value ↔ (key, value) ∈ held := by
  refine ⟨mem_of_lookup, fun member => ?_⟩
  have present : (held.lookup key).isSome :=
    lookup_isSome_iff.mpr ⟨_, member, beq_self_eq_true key⟩
  rcases Option.isSome_iff_exists.mp present with ⟨kept, found⟩
  have same := inj_on_of_nodup_map distinct (mem_of_lookup found) member rfl
  cases same
  exact found

theorem length_touch_of_mem (member : (key, value) ∈ held) (next : Value) :
    (touch held key next).length = held.length := by
  have once := count_eq_one_of_mem distinct (mem_map_of_mem member)
  rw [List.count, countP_map] at once
  have counts : held.length = _ := length_eq_countP_add_countP ((· == key) ∘ Prod.fst)
  rw [once, countP_eq_length_filter] at counts
  rw [counts, Nat.add_comm, touch, length_append]
  simp

end Distinct

omit [DecidableEq Key] in
theorem length_evict_le : (evict capacity held).length ≤ capacity := by
  rw [evict, length_drop]
  omega

end Held

section Record

/-- What the calls tell of the entries: their order, and their values. -/
structure Recorded (capacity : Nat) (calls : List (Call Key Value)) (held : List (Key × Value)) :
    Prop where
  small : held.length ≤ capacity
  ordered : held.Pairwise fun first second => lastUse calls first.1 < lastUse calls second.1
  inserted : ∀ entry ∈ held, lastInserted calls entry.1 = some entry.2

variable {capacity : Nat} {calls : List (Call Key Value)} {call : Call Key Value}
  {held : List (Key × Value)} {key : Key} {value : Value}

theorem Recorded.nodup (recorded : Recorded capacity calls held) : (held.map Prod.fst).Nodup := by
  refine pairwise_map.mpr (recorded.ordered.imp ?_)
  intro first second before same
  rw [same] at before
  exact lt_irrefl _ before

/-- A call that uses no key of the entries leaves what is told of them. -/
theorem Recorded.unused (recorded : Recorded capacity calls held)
    (unused : ∀ entry ∈ held, call.uses entry.1 = false) :
    Recorded capacity (calls ++ [call]) held where
  small := recorded.small
  ordered := by
    refine recorded.ordered.imp_of_mem ?_
    intro first second member member' before
    rw [lastUse_append (unused first member), lastUse_append (unused second member')]
    exact before
  inserted entry member := by
    rw [lastInserted_append, inserts_of_unused (unused entry member)]
    exact recorded.inserted entry member

theorem Recorded.sublist (recorded : Recorded capacity calls held) {kept : List (Key × Value)}
    {bound : Nat} (sublist : kept.Sublist held)
    (small : kept.length ≤ bound) : Recorded bound calls kept where
  small := small
  ordered := recorded.ordered.sublist sublist
  inserted entry member := recorded.inserted entry (sublist.subset member)

/-- A call that uses one key, which then has the value inserted last. -/
theorem Recorded.touched (recorded : Recorded capacity calls held) {bound : Nat}
    (uses : ∀ other, call.uses other = decide (key = other))
    (inserted : lastInserted (calls ++ [call]) key = some value)
    (small : (touch held key value).length ≤ bound) :
    Recorded bound (calls ++ [call]) (touch held key value) where
  small := small
  ordered := by
    have others : ∀ entry ∈ held.filter fun entry => entry.1 ≠ key, call.uses entry.1 = false := by
      intro entry member
      have different := of_decide_eq_true (mem_filter.mp member).2
      rw [uses]
      exact decide_eq_false (Ne.symm different)
    refine pairwise_append.mpr
      ⟨(recorded.ordered.sublist filter_sublist).imp_of_mem ?_, pairwise_singleton .., ?_⟩
    · intro first second member member' before
      rw [lastUse_append (others first member), lastUse_append (others second member')]
      exact before
    · intro entry member last listed
      rw [mem_singleton.mp listed, lastUse_append (others entry member),
        lastUse_append_of_uses ((uses key).trans (decide_eq_true rfl))]
      exact Nat.lt_succ_of_le lastUse_le
  inserted entry member := by
    rcases mem_touch.mp member with ⟨different, member⟩ | rfl
    · have unused : call.uses entry.1 = false :=
        (uses _).trans (decide_eq_false (Ne.symm different))
      rw [lastInserted_append, inserts_of_unused unused]
      exact recorded.inserted entry member
    · exact inserted

theorem recorded_perform (recorded : Recorded capacity calls held) (call : Call Key Value) :
    Recorded capacity (calls ++ [call]) (perform capacity held call) := by
  cases call with
  | clear => exact ⟨Nat.zero_le _, List.Pairwise.nil, fun _ member => nomatch member⟩
  | get key =>
      rw [perform]
      split
      · rename_i value found
        have member := mem_of_lookup found
        refine recorded.touched (fun other => rfl) ?_ ?_
        · rw [lastInserted_append]
          exact recorded.inserted _ member
        · rw [length_touch_of_mem recorded.nodup member]
          exact recorded.small
      · rename_i absent
        refine recorded.unused fun entry member => decide_eq_false fun same => ?_
        subst same
        have found := (lookup_eq_some_iff recorded.nodup).mpr member
        exact Option.some_ne_none _ (found.symm.trans absent)
  | insert key value =>
      rw [perform]
      split
      · rename_i closed
        have small := recorded.small
        rw [closed, Nat.le_zero] at small
        have empty := length_eq_zero_iff.mp small
        subst empty
        exact ⟨Nat.zero_le _, List.Pairwise.nil, fun _ member => nomatch member⟩
      · have moved : Recorded (touch held key value).length (calls ++ [.insert key value])
            (touch held key value) := by
          refine recorded.touched (fun other => rfl) ?_ le_rfl
          rw [lastInserted_append, Call.inserts, if_pos rfl]
          rfl
        exact moved.sublist (drop_sublist ..) length_evict_le

theorem recorded_run (capacity : Nat) (calls : List (Call Key Value)) :
    Recorded capacity calls (run capacity calls) := by
  induction calls using List.reverseRecOn with
  | nil => exact ⟨Nat.zero_le _, List.Pairwise.nil, fun _ member => nomatch member⟩
  | append_singleton calls call recorded =>
      rw [run, foldl_append]
      exact recorded_perform recorded call

end Record

section Evicted

/-- Of the keys, the one whose last use is the longest ago. -/
def LeastRecent (calls : List (Call Key Value)) (keys : Key → Prop) (oldest : Key) : Prop :=
  keys oldest ∧ ∀ other, keys other → other ≠ oldest → lastUse calls oldest < lastUse calls other

def Holds (held : List (Key × Value)) (key : Key) : Prop := ∃ value, (key, value) ∈ held

variable {capacity : Nat} {calls : List (Call Key Value)} {held : List (Key × Value)} {key : Key}
  {value : Value}

theorem holds_touch {other : Key} :
    Holds (touch held key value) other ↔ other = key ∨ Holds held other := by
  simp only [Holds, mem_touch]
  constructor
  · rintro ⟨_, ⟨_, member⟩ | same⟩
    · exact .inr ⟨_, member⟩
    · exact .inl (congrArg Prod.fst same)
  · rintro (rfl | ⟨_, member⟩)
    · exact ⟨_, .inr rfl⟩
    · by_cases same : other = key
      · exact ⟨value, .inr (Prod.ext same rfl)⟩
      · exact ⟨_, .inl ⟨same, member⟩⟩

omit [DecidableEq Key] in
theorem holds_cons {first : Key × Value} :
    Holds (first :: held) key ↔ key = first.1 ∨ Holds held key := by
  constructor
  · rintro ⟨value, member⟩
    rcases mem_cons.mp member with rfl | member
    · exact .inl rfl
    · exact .inr ⟨_, member⟩
  · rintro (rfl | ⟨_, member⟩)
    · exact ⟨_, mem_cons_self ..⟩
    · exact ⟨_, mem_cons_of_mem _ member⟩

theorem holds_get {other : Key} :
    Holds (perform capacity held (.get key)) other ↔ Holds held other := by
  rw [perform]
  split
  · rename_i value found
    rw [holds_touch, or_iff_right_of_imp]
    rintro rfl
    exact ⟨value, mem_of_lookup found⟩
  · rfl

/-- An insertion that finds its key, or room for it, evicts nothing. -/
theorem Recorded.holds_insert (recorded : Recorded capacity calls held) (opened : 0 < capacity)
    (spare : Holds held key ∨ held.length < capacity) {other : Key} :
    Holds (perform capacity held (.insert key value)) other ↔ other = key ∨ Holds held other := by
  have fits : (touch held key value).length ≤ capacity := by
    rcases spare with ⟨_, member⟩ | room
    · exact (length_touch_of_mem recorded.nodup member value).trans_le recorded.small
    · rw [touch, length_append, length_singleton]
      exact Nat.succ_le_of_lt ((length_filter_le ..).trans_lt room)
  rw [perform, if_neg opened.ne', evict, Nat.sub_eq_zero_of_le fits, drop_zero, holds_touch]

/-- An insertion beyond the capacity evicts the entry that was used the longest ago. -/
theorem Recorded.holds_insert_full (recorded : Recorded capacity calls held) (opened : 0 < capacity)
    (absent : ¬Holds held key) (full : held.length = capacity) :
    ∃ oldest, LeastRecent calls (Holds held) oldest ∧ ∀ other,
      Holds (perform capacity held (.insert key value)) other ↔
        other = key ∨ Holds held other ∧ other ≠ oldest := by
  cases held with
  | nil => exact absurd full opened.ne
  | cons oldest rest =>
      have kept : (oldest :: rest).filter (fun entry => entry.1 ≠ key) = oldest :: rest := by
        refine filter_eq_self.mpr fun entry member => decide_eq_true ?_
        rintro rfl
        exact absent ⟨_, member⟩
      have after :
          perform capacity (oldest :: rest) (.insert key value) = rest ++ [(key, value)] := by
        rw [perform, if_neg opened.ne', evict, touch, kept, length_append, full,
          length_singleton, Nat.add_sub_cancel_left]
        rfl
      have ordered := pairwise_cons.mp recorded.ordered
      have later : ∀ other, Holds rest other → lastUse calls oldest.1 < lastUse calls other :=
        fun other ⟨_, member⟩ => ordered.1 _ member
      refine ⟨oldest.1, ⟨⟨oldest.2, mem_cons_self ..⟩, ?_⟩, ?_⟩
      · intro other holds different
        exact later other ((holds_cons.mp holds).resolve_left different)
      · intro other
        rw [after, holds_cons]
        constructor
        · rintro ⟨value, member⟩
          rcases mem_append.mp member with member | member
          · refine .inr ⟨.inr ⟨_, member⟩, ?_⟩
            rintro rfl
            exact lt_irrefl _ (later _ ⟨_, member⟩)
          · exact .inl (congrArg Prod.fst (mem_singleton.mp member))
        · rintro (rfl | ⟨rfl | ⟨_, member⟩, different⟩)
          · exact ⟨value, mem_append_right _ (mem_singleton_self _)⟩
          · exact absurd rfl different
          · exact ⟨_, mem_append_left _ member⟩

end Evicted

end Recency

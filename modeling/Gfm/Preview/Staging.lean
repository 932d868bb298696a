import Gfm.Preview.Schedule

/-!
# The copy that a call works on

A call that cancels nothing by itself makes new tokens and tells its removals. Its copy holds
tasks of before, which no removal names, and tasks with new tokens; a task of before is in the
copy or a removal names its key.
-/

namespace Gfm.Preview

open List Programs

section Maps

variable {inflight : Inflight} {key other : PreviewRequestKey} {task found : InflightTask}

theorem lookup_erase_eq_some :
    (inflight.erase key).lookup other = some task ↔
      other ≠ key ∧ inflight.lookup other = some task := by
  by_cases same : other = key
  · subst same
    rw [AList.lookup_erase]
    exact iff_of_false (Option.some_ne_none task).symm fun absurd => absurd.1 rfl
  · rw [AList.lookup_erase_ne same]
    exact (and_iff_right same).symm

theorem lookup_insert_eq_some :
    (inflight.insert key found).lookup other = some task ↔
      (other = key ∧ task = found) ∨ (other ≠ key ∧ inflight.lookup other = some task) := by
  by_cases same : other = key
  · subst same
    rw [AList.lookup_insert, Option.some_inj]
    simp [eq_comm]
  · rw [AList.lookup_insert_ne same]
    simp [same]

theorem entries_erase_sublist : List.Sublist (inflight.erase key).entries inflight.entries :=
  kerase_sublist key inflight.entries

end Maps

section Untouched

/-- Nothing that others can see has changed: only new tokens were made. -/
structure Untouched (before world : Shared) : Prop where
  scheduler : world.scheduler = before.scheduler
  tokens : ∃ made, world.tokens = before.tokens ++ List.replicate made false

/-- The call failed, with everything as it was. -/
def Refused (before : Shared) (error : Option GfmError) (world : Shared) : Prop :=
  error.isSome = true ∧ Untouched before world

variable {before world : Shared}

theorem Untouched.refl (before : Shared) : Untouched before before :=
  ⟨rfl, 0, (append_nil _).symm⟩

theorem Untouched.isCancelled (untouched : Untouched before world) (token : Cancellation) :
    world.isCancelled token = before.isCancelled token := by
  rcases untouched.tokens with ⟨made, tokens⟩
  rw [Shared.isCancelled, Shared.isCancelled, tokens, getD_eq_getElem?_getD,
    getD_eq_getElem?_getD]
  by_cases old : token < before.tokens.length
  · rw [getElem?_append_left old]
  · rw [getElem?_append_right (Nat.not_lt.mp old), getElem?_replicate,
      getElem?_eq_none (Nat.not_lt.mp old)]
    split <;> rfl

theorem Untouched.length_le (untouched : Untouched before world) :
    before.tokens.length ≤ world.tokens.length := by
  rcases untouched.tokens with ⟨made, tokens⟩
  rw [tokens, length_append]
  exact Nat.le_add_right _ _

theorem Untouched.makeToken (untouched : Untouched before world) :
    Untouched before { world with tokens := world.tokens ++ [false] } := by
  rcases untouched.tokens with ⟨made, tokens⟩
  refine ⟨untouched.scheduler, made + 1, ?_⟩
  rw [tokens, append_assoc, replicate_succ']

end Untouched

section Staging

/-- Some decision tells the removal of the key. -/
def Removed (key : PreviewRequestKey) (decisions : List PreviewTaskDecision) : Prop :=
  ∃ reason, .cancelled key reason ∈ decisions

theorem removed_append {key : PreviewRequestKey} {left right : List PreviewTaskDecision} :
    Removed key (left ++ right) ↔ Removed key left ∨ Removed key right := by
  simp only [Removed, mem_append, exists_or]

/-- A copy in the middle of a call, with the decisions taken so far. -/
structure Staging (before : Shared) (decisions : List PreviewTaskDecision) (inflight : Inflight)
    (world : Shared) : Prop where
  untouched : Untouched before world
  origin : ∀ key task, inflight.lookup key = some task →
    (before.tokens.length ≤ task.cancellation ∧ task.cancellation < world.tokens.length) ∨
      (¬Removed key decisions ∧ ∃ old, before.scheduler.inflight.lookup key = some old ∧
        old.cancellation = task.cancellation)
  fate : ∀ key old, before.scheduler.inflight.lookup key = some old →
    Removed key decisions ∨
      ∃ task, inflight.lookup key = some task ∧ task.cancellation = old.cancellation
  distinct : ∀ key task other found, inflight.lookup key = some task →
    inflight.lookup other = some found → task.cancellation = found.cancellation → key = other

/-- The tokens in flight were made, each for one task. -/
structure OwnTokens (world : Shared) : Prop where
  made : ∀ key task, world.scheduler.inflight.lookup key = some task →
    task.cancellation < world.tokens.length
  distinct : ∀ key task other found, world.scheduler.inflight.lookup key = some task →
    world.scheduler.inflight.lookup other = some found →
      task.cancellation = found.cancellation → key = other

variable {before world : Shared} {decisions more : List PreviewTaskDecision}
  {inflight : Inflight} {key : PreviewRequestKey} {task : InflightTask}

namespace Staging

theorem start (own : OwnTokens before) :
    Staging before [] before.scheduler.inflight before where
  untouched := .refl before
  origin key task found := by
    refine Or.inr ⟨?_, task, found, rfl⟩
    rintro ⟨reason, listed⟩
    exact not_mem_nil listed
  fate key old found := Or.inr ⟨old, found, rfl⟩
  distinct := own.distinct

theorem made (staging : Staging before decisions inflight world) (own : OwnTokens before)
    (found : inflight.lookup key = some task) : task.cancellation < world.tokens.length := by
  rcases staging.origin key task found with new | ⟨-, old, oldFound, same⟩
  · exact new.2
  · rw [← same]
    exact Nat.lt_of_lt_of_le (own.made key old oldFound) staging.untouched.length_le

/-- Decisions that remove nothing. -/
theorem tell (staging : Staging before decisions inflight world)
    (keeps : ∀ key, ¬Removed key more) : Staging before (decisions ++ more) inflight world where
  untouched := staging.untouched
  origin key task found := by
    rw [removed_append, or_iff_left (keeps key)]
    exact staging.origin key task found
  fate key old found := by
    rw [removed_append, or_iff_left (keeps key)]
    exact staging.fate key old found
  distinct := staging.distinct

theorem remove (staging : Staging before decisions inflight world) (key : PreviewRequestKey)
    (reason : String) :
    Staging before (decisions ++ [.cancelled key reason]) (inflight.erase key) world where
  untouched := staging.untouched
  origin other task found := by
    rcases lookup_erase_eq_some.mp found with ⟨different, found⟩
    refine (staging.origin other task found).imp_right fun old => ⟨?_, old.2⟩
    rw [removed_append, not_or]
    refine ⟨old.1, ?_⟩
    rintro ⟨told, listed⟩
    exact different (PreviewTaskDecision.cancelled.inj (mem_singleton.mp listed)).1
  fate other old found := by
    rw [removed_append]
    by_cases same : other = key
    · subst same
      exact Or.inl (Or.inr ⟨reason, mem_singleton_self _⟩)
    · rcases staging.fate other old found with removed | ⟨task, kept, token⟩
      · exact Or.inl (Or.inl removed)
      · exact Or.inr ⟨task, lookup_erase_eq_some.mpr ⟨same, kept⟩, token⟩
  distinct first task second found firstFound secondFound :=
    staging.distinct first task second found (lookup_erase_eq_some.mp firstFound).2
      (lookup_erase_eq_some.mp secondFound).2

/-- A task with a new token, under a key that is free. -/
theorem insertNew (staging : Staging before decisions inflight world) (own : OwnTokens before)
    (free : inflight.lookup key = none) (token : task.cancellation = world.tokens.length) :
    Staging before decisions (inflight.insert key task)
      { world with tokens := world.tokens ++ [false] } where
  untouched := staging.untouched.makeToken
  origin other found place := by
    rw [length_append, length_singleton]
    rcases lookup_insert_eq_some.mp place with ⟨-, new⟩ | ⟨-, place⟩
    · rw [new, token]
      exact Or.inl ⟨staging.untouched.length_le, Nat.lt_succ_self _⟩
    · rcases staging.origin other found place with new | old
      · exact Or.inl ⟨new.1, Nat.lt_succ_of_lt new.2⟩
      · exact Or.inr old
  fate other old found := by
    rcases staging.fate other old found with removed | ⟨kept, place, same⟩
    · exact Or.inl removed
    · refine Or.inr ⟨kept, lookup_insert_eq_some.mpr (Or.inr ⟨?_, place⟩), same⟩
      rintro rfl
      rw [free] at place
      cases place
  distinct first one second two firstPlace secondPlace same := by
    rcases lookup_insert_eq_some.mp firstPlace with ⟨rfl, firstNew⟩ | ⟨-, firstOld⟩
    · rcases lookup_insert_eq_some.mp secondPlace with ⟨rfl, -⟩ | ⟨-, secondOld⟩
      · rfl
      · have small := staging.made own secondOld
        rw [← same, firstNew, token] at small
        exact absurd small (Nat.lt_irrefl _)
    · rcases lookup_insert_eq_some.mp secondPlace with ⟨rfl, secondNew⟩ | ⟨-, secondOld⟩
      · have small := staging.made own firstOld
        rw [same, secondNew, token] at small
        exact absurd small (Nat.lt_irrefl _)
      · exact staging.distinct first one second two firstOld secondOld same

/-- A task in flight is ranked anew. -/
theorem rank (staging : Staging before decisions inflight world)
    (found : inflight.lookup key = some task) (priority : PreviewPriority) :
    Staging before decisions (inflight.insert key { task with priority }) world := by
  have kept : ∀ other new, (inflight.insert key { task with priority }).lookup other = some new →
      ∃ old, inflight.lookup other = some old ∧ old.cancellation = new.cancellation := by
    intro other new place
    rcases lookup_insert_eq_some.mp place with ⟨rfl, rfl⟩ | ⟨-, place⟩
    · exact ⟨task, found, rfl⟩
    · exact ⟨new, place, rfl⟩
  refine ⟨staging.untouched, fun other new place => ?_, fun other old place => ?_,
    fun first one second two firstPlace secondPlace same => ?_⟩
  · rcases kept other new place with ⟨old, oldPlace, same⟩
    rw [← same]
    exact staging.origin other old oldPlace
  · rcases staging.fate other old place with removed | ⟨kept, keptPlace, same⟩
    · exact Or.inl removed
    · by_cases equal : other = key
      · subst equal
        rw [found] at keptPlace
        cases keptPlace
        exact Or.inr ⟨_, lookup_insert_eq_some.mpr (Or.inl ⟨rfl, rfl⟩), same⟩
      · exact Or.inr ⟨kept, lookup_insert_eq_some.mpr (Or.inr ⟨equal, keptPlace⟩), same⟩
  · rcases kept first one firstPlace with ⟨oldOne, oneFound, oneSame⟩
    rcases kept second two secondPlace with ⟨oldTwo, twoFound, twoSame⟩
    exact staging.distinct first oldOne second oldTwo oneFound twoFound
      (oneSame.trans (same.trans twoSame.symm))

end Staging

end Staging

end Gfm.Preview

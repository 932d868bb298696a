import Mathlib

/-!
# Joining parts with a separator

A text is put together from parts: each part that is not empty is appended, after a separator
unless it is the first. Appending in this way is associative, and the empty list is neutral, so
the parts may be appended one by one or in groups.
-/

namespace Joining

open List

universe u

variable {α : Type u} (separator : α)

def push (output part : List α) : List α :=
  if part.isEmpty then output
  else if output.isEmpty then part
  else output ++ separator :: part

/-- The parts that are not empty, with the separator between them. -/
def joined (parts : List (List α)) : List α :=
  [separator].intercalate (parts.filter fun part => !part.isEmpty)

@[simp]
theorem push_nil (output : List α) : push separator output [] = output := rfl

@[simp]
theorem nil_push (part : List α) : push separator [] part = part := by
  cases part <;> rfl

theorem push_of_ne_nil {output part : List α} (started : output ≠ []) (nonempty : part ≠ []) :
    push separator output part = output ++ separator :: part := by
  simp [push, started, nonempty]

theorem push_assoc (first second third : List α) :
    push separator (push separator first second) third =
      push separator first (push separator second third) := by
  rcases eq_or_ne first [] with rfl | firstNonempty
  · simp
  rcases eq_or_ne second [] with rfl | secondNonempty
  · simp
  rcases eq_or_ne third [] with rfl | thirdNonempty
  · simp
  rw [push_of_ne_nil separator firstNonempty secondNonempty,
    push_of_ne_nil separator secondNonempty thirdNonempty,
    push_of_ne_nil separator (by simp) thirdNonempty,
    push_of_ne_nil separator firstNonempty (by simp)]
  simp

@[simp]
theorem joined_nil : joined separator [] = [] := rfl

theorem joined_cons (part : List α) (parts : List (List α)) :
    joined separator (part :: parts) = push separator part (joined separator parts) := by
  rcases eq_or_ne part [] with rfl | nonempty
  · simp [joined]
  cases restEq : parts.filter fun part => !part.isEmpty with
  | nil => simp [joined, nonempty, restEq]
  | cons next rest =>
      have present : next ≠ [] := by
        have member : next ∈ parts.filter fun part => !part.isEmpty := by simp [restEq]
        simpa using (mem_filter.mp member).2
      have started : [separator].intercalate (next :: rest) ≠ [] := by
        cases rest <;> simp [List.intercalate, present]
      simp only [joined, filter_cons, restEq]
      rw [push_of_ne_nil separator nonempty started]
      simp [nonempty, List.intercalate]

theorem joined_append (left right : List (List α)) :
    joined separator (left ++ right) =
      push separator (joined separator left) (joined separator right) := by
  induction left with
  | nil => simp
  | cons part left ih => simp [joined_cons, ih, push_assoc]

theorem foldl_push (output : List α) (parts : List (List α)) :
    parts.foldl (push separator) output = push separator output (joined separator parts) := by
  induction parts generalizing output with
  | nil => simp
  | cons part parts ih => simp [joined_cons, ih, push_assoc]

/-- The stretches of a list that have no blank item, with the separator between them. -/
def collapse (blank : α → Bool) (list : List α) : List α := joined separator (list.splitOnP blank)

theorem collapse_append {blank : α → Bool} {item : α} (isBlank : blank item = true)
    (left right : List α) : collapse separator blank (left ++ item :: right) =
      push separator (collapse separator blank left) (collapse separator blank right) := by
  rw [collapse, splitOnP_append_cons left right isBlank, joined_append]
  rfl

/-- Blank items may be replaced by other blank ones. -/
theorem collapse_congr {blank : α → Bool} {left right : List α}
    (alike : List.Forall₂ (fun item other => item = other ∨ blank item ∧ blank other) left right) :
    collapse separator blank left = collapse separator blank right := by
  suffices same : left.splitOnP blank = right.splitOnP blank by rw [collapse, same, collapse]
  induction alike with
  | nil => rfl
  | cons first _ ih =>
      simp only [splitOnP_cons_eq_if_modifyHead, ih]
      rcases first with rfl | ⟨isBlank, otherBlank⟩
      · rfl
      · simp [isBlank, otherBlank]

/-- A blank item behind another one, or at the front, adds nothing. -/
theorem collapse_blank {blank : α → Bool} {item : α} (isBlank : blank item = true)
    {left : List α} (last : ∀ other ∈ left.getLast?, blank other = true) (right : List α) :
    collapse separator blank (left ++ item :: right) =
      collapse separator blank (left ++ right) := by
  have skipped : collapse separator blank (item :: right) = collapse separator blank right := by
    simp [collapse, splitOnP_cons_eq_if_modifyHead, isBlank, joined_cons]
  rcases eq_nil_or_concat left with rfl | ⟨front, other, rfl⟩
  · exact skipped
  · have otherBlank := last other (by simp)
    simp only [concat_eq_append, append_assoc, singleton_append]
    rw [collapse_append separator otherBlank, skipped, collapse_append separator otherBlank]

@[simp]
theorem collapse_nil (blank : α → Bool) : collapse separator blank [] = [] := rfl

variable {separator}

theorem getLast?_push {output part : List α} (nonempty : part ≠ []) :
    (push separator output part).getLast? = part.getLast? := by
  rcases eq_or_ne output [] with rfl | started
  · simp
  · rw [push_of_ne_nil separator started nonempty, getLast?_append, getLast?_cons]
    cases lastEq : part.getLast? with
    | none => exact (nonempty (getLast?_eq_none_iff.mp lastEq)).elim
    | some last => rfl

/-- The last item is one of a part. -/
theorem mem_of_mem_getLast?_joined {parts : List (List α)} {last : α}
    (isLast : last ∈ (joined separator parts).getLast?) : ∃ part ∈ parts, last ∈ part := by
  induction parts with
  | nil => cases isLast
  | cons part parts ih =>
      rw [joined_cons] at isLast
      rcases eq_or_ne (joined separator parts) [] with empty | nonempty
      · rw [empty, push_nil] at isLast
        exact ⟨part, mem_cons_self, mem_of_getLast? isLast⟩
      · rw [getLast?_push nonempty] at isLast
        rcases ih isLast with ⟨other, listed, member⟩
        exact ⟨other, mem_cons_of_mem _ listed, member⟩

theorem not_blank_of_mem_splitOnP {blank : α → Bool} {list part : List α}
    (listed : part ∈ list.splitOnP blank) {item : α} (member : item ∈ part) :
    blank item = false := by
  induction list generalizing part with
  | nil => simp_all
  | cons first list ih =>
      rw [splitOnP_cons_eq_if_modifyHead] at listed
      split at listed
      next =>
        rcases mem_cons.mp listed with rfl | behind
        · cases member
        · exact ih behind member
      next notBlank =>
        rcases exists_cons_of_ne_nil (splitOnP_ne_nil blank list) with
          ⟨head, rest, split⟩
        rw [split] at listed ih
        rcases mem_cons.mp listed with rfl | behind
        · rcases mem_cons.mp member with rfl | inHead
          · exact Bool.eq_false_iff.mpr notBlank
          · exact ih mem_cons_self inHead
        · exact ih (mem_cons_of_mem _ behind) member

theorem not_blank_of_getLast?_collapse {blank : α → Bool} {list : List α} {last : α}
    (isLast : last ∈ (collapse separator blank list).getLast?) : blank last = false := by
  rcases mem_of_mem_getLast?_joined isLast with ⟨part, listed, member⟩
  exact not_blank_of_mem_splitOnP listed member

theorem isPrefix_push {output part : List α} : output <+: push separator output part := by
  rcases eq_or_ne part [] with rfl | nonempty
  · simp
  rcases eq_or_ne output [] with rfl | started
  · simp
  simp [push_of_ne_nil separator started nonempty]

theorem sublist_push {output part : List α} : output.Sublist (push separator output part) :=
  isPrefix_push.sublist

theorem push_sublist_push {output part wholeOutput wholePart : List α}
    (outputs : output.Sublist wholeOutput) (parts : part.Sublist wholePart) :
    (push separator output part).Sublist (push separator wholeOutput wholePart) := by
  rcases eq_or_ne part [] with rfl | nonempty
  · simpa using outputs.trans sublist_push
  have wholeNonempty : wholePart ≠ [] := by
    rintro rfl
    exact nonempty (sublist_nil.mp parts)
  rcases eq_or_ne output [] with rfl | started
  · rcases eq_or_ne wholeOutput [] with rfl | wholeStarted
    · simpa using parts
    · rw [nil_push, push_of_ne_nil separator wholeStarted wholeNonempty]
      exact (parts.trans (sublist_cons_self _ _)).trans (sublist_append_right _ _)
  · have wholeStarted : wholeOutput ≠ [] := by
      rintro rfl
      exact started (sublist_nil.mp outputs)
    rw [push_of_ne_nil separator started nonempty,
      push_of_ne_nil separator wholeStarted wholeNonempty]
    exact outputs.append (parts.cons_cons separator)

/-- Parts that lose some of their items make a text that loses some of its items. -/
theorem joined_sublist_joined {parts wholes : List (List α)}
    (within : List.Forall₂ List.Sublist parts wholes) :
    (joined separator parts).Sublist (joined separator wholes) := by
  induction within with
  | nil => simp
  | cons first _ ih =>
      rw [joined_cons, joined_cons]
      exact push_sublist_push first ih

theorem countP_push {counted : α → Bool} (uncounted : counted separator = false)
    (output part : List α) :
    (push separator output part).countP counted = output.countP counted + part.countP counted := by
  rcases eq_or_ne part [] with rfl | nonempty
  · simp
  rcases eq_or_ne output [] with rfl | started
  · simp
  simp [push_of_ne_nil separator started nonempty, uncounted]

theorem countP_joined {counted : α → Bool} (uncounted : counted separator = false)
    (parts : List (List α)) :
    (joined separator parts).countP counted = (parts.map (List.countP counted)).sum := by
  induction parts with
  | nil => simp
  | cons part parts ih => simp [joined_cons, countP_push uncounted, ih]

/-- Items that count are not blank, and are not lost with the blank ones. -/
theorem countP_collapse {blank counted : α → Bool} (uncounted : counted separator = false)
    (notBlank : ∀ item, blank item = true → counted item = false) (list : List α) :
    (collapse separator blank list).countP counted = list.countP counted := by
  rw [collapse, countP_joined uncounted]
  induction list with
  | nil => rfl
  | cons item list ih =>
      have alone (rest : List α) : (item :: rest).countP counted =
          [item].countP counted + rest.countP counted := by
        rw [← countP_append, singleton_append]
      rw [splitOnP_cons_eq_if_modifyHead]
      split
      next isBlank =>
        rw [map_cons, sum_cons, ih, alone list]
        simp [notBlank item isBlank]
      next =>
        rcases exists_cons_of_ne_nil (splitOnP_ne_nil blank list) with
          ⟨first, rest, split⟩
        rw [split, map_cons, sum_cons] at ih
        rw [split, modifyHead_cons, map_cons, sum_cons, alone first, alone list]
        omega

end Joining

import Gfm.Lib.ByteOffsets
import Gfm.Lib.Finding
import Gfm.Text

/-!
# Snippets

A snippet is cut around the first place at which a needle stands in the lowercased text. The place
is an offset into the lowercased text, and is used as an offset into the text itself: characters in
front of the match that change their length move the highlight. The needles are lowercased as
strings, the text character by character.
-/

namespace Gfm.Content

open ByteOffsets Finding List

variable (unicode : Unicode)

section Model

def usizeMax : Nat := 2 ^ 64 - 1

inductive SnippetPanic where
  | overflow
  | slice
  deriving DecidableEq, Repr

structure SnippetHighlight where
  start : Nat
  stop : Nat
  deriving DecidableEq, Repr

structure SearchSnippet where
  text : Text
  highlights : List SnippetHighlight
  deriving DecidableEq, Repr

/-- Every character in lower case. -/
def lowercase (text : Text) : Text := text.flatMap unicode.charToLowercase

def findBytes (needle text : Text) : Option Nat :=
  (find needle text).map fun place => byteLength (text.take place)

/-- The needles in lower case, the longest first. -/
def needles (terms phrases : List Text) : List Text :=
  ((phrases ++ terms).filterMap fun needle =>
      let needle := unicode.lowercaseTerm needle
      if needle.isEmpty then none else some needle).mergeSort
    fun left right => byteLength right ≤ byteLength left

def matched (normalized : Text) (needles : List Text) : Option (Nat × Nat) :=
  needles.findSome? fun needle =>
    (findBytes needle normalized).map fun start => (start, start + byteLength needle)

def buildSnippet (text : Text) (terms phrases : List Text) (contextBytes : Nat) :
    Except SnippetPanic (Option SearchSnippet) :=
  match matched (lowercase unicode text) (needles unicode terms phrases) with
  | none => .ok none
  | some (matchStart, matchEnd) =>
      if usizeMax < matchEnd + contextBytes then .error .overflow
      else
        let snippetStart := floorCharBoundary text (matchStart - contextBytes)
        let snippetEnd := ceilCharBoundary text (min (matchEnd + contextBytes) (byteLength text))
        match slice text snippetStart snippetEnd with
        | none => .error .slice
        | some snippetText =>
            .ok (some ⟨snippetText, [⟨matchStart - snippetStart, matchEnd - snippetStart⟩]⟩)

end Model

section Properties

/-- The one highlight is a piece of the snippet that reads as a needle. -/
def Highlights (terms phrases : List Text) (snippet : SearchSnippet) : Prop :=
  ∃ highlight, snippet.highlights = [highlight] ∧ highlight.start < highlight.stop ∧
    ∃ before piece after, snippet.text = before ++ (piece ++ after) ∧
      byteLength before = highlight.start ∧ byteLength (before ++ piece) = highlight.stop ∧
      ∃ needle ∈ phrases ++ terms, lowercase unicode piece = unicode.lowercaseTerm needle

/-- A needle that is not blank stands in the text, both in lower case. -/
def Occurs (text needle : Text) : Prop :=
  lowercase unicode (unicode.trim needle) ≠ [] ∧
    lowercase unicode (unicode.trim needle) <:+: lowercase unicode text

/-- No panic; a snippet highlights a needle, and only without one in the text there is none. -/
def SnippetExact (text : Text) (terms phrases : List Text) (contextBytes : Nat) : Prop :=
  ∃ result, buildSnippet unicode text terms phrases contextBytes = .ok result ∧
    (∀ snippet ∈ result, Highlights unicode terms phrases snippet) ∧
    (result = none → ∀ needle ∈ phrases ++ terms, ¬Occurs unicode text needle)

/-- The longest of the lowercased needles that are in the lowercased text. -/
def firstNeedle (text : Text) (terms phrases : List Text) : Option Text :=
  (needles unicode terms phrases).find? fun needle =>
    (find needle (lowercase unicode text)).isSome

/-- The character has one in lower case, of the same length. -/
def Keeps (char : Char) : Prop :=
  ∃ lower, unicode.charToLowercase char = [lower] ∧ lower.utf8Size = char.utf8Size

/-- The first needle is already in a front part of the text whose characters keep their length. -/
def OffsetsKept (text : Text) (terms phrases : List Text) : Prop :=
  ∀ needle ∈ firstNeedle unicode text terms phrases, ∃ front, front <+: text ∧
    needle <:+: lowercase unicode front ∧ ∀ char ∈ front, Keeps unicode char

/-- The end of the first match and the context are an offset. -/
def InRange (text : Text) (terms phrases : List Text) (contextBytes : Nat) : Prop :=
  ∀ needle ∈ firstNeedle unicode text terms phrases, ∃ before,
    before ++ needle <+: lowercase unicode text ∧
      byteLength (before ++ needle) + contextBytes ≤ usizeMax

/-- Lowercased as a string the needle is another than lowercased character by character, as it is
with a capital sigma at the end of a word. -/
def Respelled (needle : Text) : Prop :=
  unicode.lowercaseTerm needle ≠ lowercase unicode (unicode.trim needle)

/-- Where nothing matches, no needle is in the text that the two lowercasings spell apart. -/
def NeedlesAgree (text : Text) (terms phrases : List Text) : Prop :=
  firstNeedle unicode text terms phrases = none →
    ∀ needle ∈ phrases ++ terms, Respelled unicode needle → ¬Occurs unicode text needle

end Properties

section Matches

variable {unicode} {text : Text} {terms phrases : List Text}

theorem mem_needles {needle : Text} (listed : needle ∈ needles unicode terms phrases) :
    needle ≠ [] ∧ ∃ given ∈ phrases ++ terms, unicode.lowercaseTerm given = needle := by
  rw [needles, mem_mergeSort, mem_filterMap] at listed
  rcases listed with ⟨given, member, kept⟩
  by_cases empty : (unicode.lowercaseTerm given).isEmpty = true
  · simp [empty] at kept
  · simp only [empty, if_false, Bool.false_eq_true, Option.some.injEq] at kept
    refine ⟨?_, given, member, kept⟩
    rw [← kept]
    simpa using empty

/-- The match is the place of the first needle. -/
theorem matched_eq : matched (lowercase unicode text) (needles unicode terms phrases) =
    (firstNeedle unicode text terms phrases).bind fun needle =>
      (findBytes needle (lowercase unicode text)).map fun start =>
        (start, start + byteLength needle) := by
  rw [matched, firstNeedle]
  induction needles unicode terms phrases with
  | nil => rfl
  | cons needle rest ih =>
      rw [findSome?_cons, find?_cons]
      cases found : find needle (lowercase unicode text) with
      | none => simpa [findBytes, found] using ih
      | some place => simp [findBytes, found]

theorem find_firstNeedle {needle : Text}
    (first : firstNeedle unicode text terms phrases = some needle) :
    needle ∈ needles unicode terms phrases ∧
      ∃ place, find needle (lowercase unicode text) = some place := by
  refine ⟨mem_of_find?_eq_some first, ?_⟩
  have found := find?_some first
  exact Option.isSome_iff_exists.mp found

/-- A needle that is in the text is found there unless the two lowercasings spell it apart. -/
theorem respelled_of_occurs {needle : Text} (none : firstNeedle unicode text terms phrases = none)
    (listed : needle ∈ phrases ++ terms) (occurs : Occurs unicode text needle) :
    Respelled unicode needle := by
  intro same
  have member : unicode.lowercaseTerm needle ∈ needles unicode terms phrases := by
    rw [needles, mem_mergeSort, mem_filterMap]
    exact ⟨needle, listed, by simp [same, occurs.1]⟩
  have absent := find?_eq_none.mp none _ member
  rw [Bool.not_eq_true, Option.isSome_eq_false_iff, Option.isNone_iff_eq_none, find_eq_none_iff,
    same] at absent
  exact absent occurs.2

/-- A front part whose characters keep their length is lowercased item by item. -/
theorem lowercase_take {front : Text} (keeps : ∀ char ∈ front, Keeps unicode char) (place : Nat) :
    lowercase unicode (front.take place) = (lowercase unicode front).take place ∧
      byteLength (lowercase unicode (front.take place)) = byteLength (front.take place) := by
  induction front generalizing place with
  | nil => simp [lowercase]
  | cons char front ih =>
      rw [forall_mem_cons] at keeps
      rcases keeps.1 with ⟨lower, lowerEq, size⟩
      cases place with
      | zero => simp [lowercase]
      | succ place =>
          have rest := ih keeps.2 place
          simp only [lowercase, take_succ_cons, flatMap_cons, lowerEq,
            singleton_append, byteLength_cons, size] at rest ⊢
          exact ⟨congrArg _ rest.1, by rw [rest.2]⟩

theorem lowercase_append (left right : Text) :
    lowercase unicode (left ++ right) = lowercase unicode left ++ lowercase unicode right :=
  flatMap_append

/-- The match is the needle's place in the text itself. -/
theorem split_of_offsetsKept (kept : OffsetsKept unicode text terms phrases) {needle : Text}
    (first : firstNeedle unicode text terms phrases = some needle) :
    ∃ before piece after, text = before ++ (piece ++ after) ∧
      findBytes needle (lowercase unicode text) = some (byteLength before) ∧
      lowercase unicode piece = needle ∧ byteLength piece = byteLength needle := by
  rcases kept needle first with ⟨front, ⟨rest, rfl⟩, within, keeps⟩
  obtain ⟨place, found⟩ : ∃ place, find needle (lowercase unicode front) = some place := by
    cases found : find needle (lowercase unicode front) with
    | none => exact (find_eq_none_iff.mp found within).elim
    | some place => exact ⟨place, rfl⟩
  have bound := length_le_of_find found
  have whole : find needle (lowercase unicode (front ++ rest)) = some place := by
    rw [lowercase_append]
    exact find_append_of_find found
  have begins := (find_eq_some_iff.mp found).2.1
  have early := lowercase_take keeps place
  have late := lowercase_take keeps (place + needle.length)
  have taken : front.take (place + needle.length) =
      front.take place ++ (front.drop place).take needle.length := take_add
  rw [taken, lowercase_append, early.1, take_add, ← prefix_iff_eq_take.mp begins] at late
  have piece : lowercase unicode ((front.drop place).take needle.length) = needle :=
    append_cancel_left late.1
  refine ⟨front.take place, (front.drop place).take needle.length,
    (front.drop place).drop needle.length ++ rest, ?_, ?_, piece, ?_⟩
  · have behind (list : Text) :
        list.take needle.length ++ (list.drop needle.length ++ rest) = list ++ rest := by
      rw [← append_assoc, take_append_drop]
    rw [behind, ← append_assoc, take_append_drop]
  · rw [findBytes, whole, Option.map_some, lowercase_append,
      take_append_of_le_length (by omega), ← early.1, early.2]
  · have total := late.2
    rw [piece, byteLength_append, byteLength_append, ← early.1, early.2] at total
    omega

/-- The first match ends in range if any does. -/
theorem inRange_iff {contextBytes start : Nat} {needle : Text}
    (first : firstNeedle unicode text terms phrases = some needle)
    (found : findBytes needle (lowercase unicode text) = some start) :
    InRange unicode text terms phrases contextBytes ↔
      start + byteLength needle + contextBytes ≤ usizeMax := by
  rw [findBytes, Option.map_eq_some_iff] at found
  rcases found with ⟨place, found, rfl⟩
  constructor
  · intro range
    rcases range needle first with ⟨before, ⟨rest, begins⟩, bound⟩
    -- The match is the first one, so that it is not behind the one that ends in range.
    have earliest : place ≤ before.length := by
      by_contra later
      apply (find_eq_some_iff.mp found).2.2 before.length (by omega)
      rw [← begins, append_assoc, drop_left]
      exact prefix_append _ _
    have front : (lowercase unicode text).take place <+: before := by
      rw [← begins, append_assoc, take_append_of_le_length earliest]
      exact take_prefix _ _
    have shorter := byteLength_le_of_sublist front.sublist
    rw [byteLength_append] at bound
    omega
  · intro bound other same
    obtain rfl := Option.some.inj (first.symm.trans same)
    refine ⟨(lowercase unicode text).take place, ?_, by rwa [byteLength_append]⟩
    refine ⟨(lowercase unicode text).drop (place + needle.length), ?_⟩
    rw [append_assoc]
    exact (eq_append_of_find found).symm

theorem buildSnippet_of_split {before piece after : Text} {contextBytes : Nat}
    (textEq : text = before ++ (piece ++ after))
    (match_ : matched (lowercase unicode text) (needles unicode terms phrases) =
      some (byteLength before, byteLength (before ++ piece)))
    (range : byteLength (before ++ piece) + contextBytes ≤ usizeMax) :
    ∃ front back, buildSnippet unicode text terms phrases contextBytes =
      .ok (some ⟨front ++ (piece ++ back),
        [⟨byteLength front, byteLength (front ++ piece)⟩]⟩) := by
  have total : byteLength text = byteLength (before ++ piece) + byteLength after := by
    rw [textEq, ← append_assoc, byteLength_append]
  have starts := floorCharBoundary_le text (byteLength before - contextBytes)
  have stops : min (byteLength (before ++ piece) + contextBytes) (byteLength text) ≤
      ceilCharBoundary text
        (min (byteLength (before ++ piece) + contextBytes) (byteLength text)) :=
    le_ceilCharBoundary (min_le_right _ _)
  have startBoundary := isCharBoundary_floor text (byteLength before - contextBytes)
  have stopBoundary := isCharBoundary_ceil text
    (min (byteLength (before ++ piece) + contextBytes) (byteLength text))
  generalize startEq : floorCharBoundary text (byteLength before - contextBytes) = start at *
  generalize stopEq : ceilCharBoundary text
    (min (byteLength (before ++ piece) + contextBytes) (byteLength text)) = stop at *
  rw [textEq] at startBoundary stopBoundary
  rcases slice_around startBoundary stopBoundary (by omega) (by omega) with
    ⟨front, back, sliced, length⟩
  refine ⟨front, back, ?_⟩
  rw [buildSnippet, match_]
  simp only [not_lt.mpr range, if_false, startEq, stopEq]
  rw [textEq, sliced]
  have ends : byteLength (before ++ piece) - start = byteLength (front ++ piece) := by
    rw [byteLength_append, byteLength_append, length]
    omega
  rw [← length, ends]

end Matches

/-- With the offsets kept up to the match, the snippet is exact when its end is an offset and
the lowercasings agree. -/
theorem snippetExact_iff {text : Text} {terms phrases : List Text} {contextBytes : Nat}
    (kept : OffsetsKept unicode text terms phrases) :
    SnippetExact unicode text terms phrases contextBytes ↔
      InRange unicode text terms phrases contextBytes ∧
        NeedlesAgree unicode text terms phrases := by
  have match_ := @matched_eq unicode text terms phrases
  cases first : firstNeedle unicode text terms phrases with
  | none =>
      have built : buildSnippet unicode text terms phrases contextBytes = .ok none := by
        rw [buildSnippet, match_, first]
        rfl
      have range : InRange unicode text terms phrases contextBytes := by simp [InRange, first]
      simp only [SnippetExact, built, Except.ok.injEq, exists_eq_left', range, true_and]
      constructor
      · rintro ⟨-, nowhere⟩ - needle listed -
        exact nowhere trivial needle listed
      · intro agree
        refine ⟨by simp, fun _ needle listed occurs => ?_⟩
        exact agree first needle listed (respelled_of_occurs first listed occurs) occurs
  | some needle =>
      rcases split_of_offsetsKept kept first with ⟨before, piece, after, textEq, found, reads, size⟩
      have agree : NeedlesAgree unicode text terms phrases := by simp [NeedlesAgree, first]
      rw [first, Option.bind_some, found, Option.map_some, ← size, ← byteLength_append] at match_
      rw [inRange_iff first found, ← size, ← byteLength_append]
      constructor
      · rintro ⟨result, built, -⟩
        refine ⟨?_, agree⟩
        by_contra beyond
        rw [buildSnippet, match_] at built
        simp only [if_pos (not_le.mp beyond), reduceCtorEq] at built
      · rintro ⟨range, -⟩
        rcases buildSnippet_of_split textEq match_ range with ⟨front, back, built⟩
        rcases mem_needles (find_firstNeedle first).1 with ⟨nonempty, given, listed, lowered⟩
        refine ⟨_, built, ?_, fun none => by cases none⟩
        rintro _ ⟨rfl⟩
        refine ⟨_, rfl, ?_, front, piece, back, rfl, rfl, rfl, given, listed, ?_⟩
        · have positive : byteLength piece ≠ 0 := by
            rw [size]
            exact fun zero => nonempty (byteLength_eq_zero.mp zero)
          simp only [byteLength_append]
          omega
        · rw [reads, lowered]

theorem snippetExact_iff_letter :
    SnippetExact Unicode.ascii ['a', 'B'] [['b']] [] 7 := by
  have listed : needles Unicode.ascii [['b']] [] = [['b']] := mergeSort_singleton _
  have first : firstNeedle Unicode.ascii ['a', 'B'] [['b']] [] = some ['b'] := by
    rw [firstNeedle, listed]
    decide
  refine (snippetExact_iff Unicode.ascii ?_).mpr ⟨?_, ?_⟩
  · intro needle found
    obtain rfl := Option.some.inj (first.symm.trans found)
    refine ⟨['a', 'B'], prefix_refl _, by decide, ?_⟩
    simp only [forall_mem_cons, Keeps]
    exact ⟨⟨'a', rfl, rfl⟩, ⟨'b', rfl, rfl⟩, nofun⟩
  · intro needle found
    obtain rfl := Option.some.inj (first.symm.trans found)
    exact ⟨['a'], by decide, by decide⟩
  · intro none
    rw [first] at none
    cases none

/-- With all bytes as context the end of the snippet overflows. -/
theorem buildSnippet_overflows :
    ¬∀ (unicode : Unicode) (text : Text) (terms phrases : List Text) (contextBytes : Nat),
      contextBytes ≤ usizeMax → SnippetExact unicode text terms phrases contextBytes := by
  intro always
  rcases always Unicode.ascii ['a'] [['a']] [] usizeMax le_rfl with ⟨result, built, -⟩
  have listed : needles Unicode.ascii [['a']] [] = [['a']] := mergeSort_singleton _
  rw [buildSnippet, listed] at built
  have match_ : matched (lowercase Unicode.ascii ['a']) [['a']] = some (0, 1) := by decide
  rw [match_] at built
  cases built

end Gfm.Content

import Gfm.Content.PdfLiterals

/-!
# Blocks of PDF text

A block shows texts one after the other, each written as a literal in which only parentheses and
backslashes are escaped. The extractor cuts the block at the first `ET` it finds, before it reads
the literals; a block is extracted as a whole exactly when no text has these letters.
-/

namespace Gfm.Content

open Finding Joining LineLog List LossyText

section Blocks

def plainSpelling (byte : UInt8) : LiteralSpelling :=
  if plain : byte ≠ 40 ∧ byte ≠ 41 ∧ byte ≠ 92 then .raw byte plain
  else if byte = 40 then .named .opening
  else if byte = 41 then .named .closing
  else .named .backslash

def literalOf (bytes : Bytes) : Bytes := writeLiteral (bytes.map plainSpelling)

/-- `(text) Tj` and a space. -/
def shownText (text : Text) : Bytes :=
  40 :: (literalOf (encodeText text) ++ [41, 32, 84, 106, 32])

def textBlock (texts : List Text) : Bytes := [66, 84, 32] ++ (texts.flatMap shownText ++ [69, 84])

/-- The output with more text, set off from what does not end in a space or a line break. -/
def followedBy (output added : Text) : Text :=
  if added = [] then output
  else if output = [] ∨ output.getLast? = some ' ' ∨ output.getLast? = some '\n' then
    output ++ added
  else output ++ ' ' :: added

end Blocks

section Reading

theorem spelled_plainSpelling (byte : UInt8) :
    (plainSpelling byte).spelled = [byte] ∧ (plainSpelling byte).isOctal = false ∧
      ∀ depth, (plainSpelling byte).nested depth = some depth := by
  rw [plainSpelling]
  split
  · exact ⟨rfl, rfl, fun _ => rfl⟩
  · split
    next same => exact ⟨congrArg ([·]) same.symm, rfl, fun _ => rfl⟩
    next =>
      split
      next same => exact ⟨congrArg ([·]) same.symm, rfl, fun _ => rfl⟩
      next =>
        have same : byte = 92 := by tauto
        exact ⟨congrArg ([·]) same.symm, rfl, fun _ => rfl⟩

theorem plainSpelling_ne_continuation (byte : UInt8) (ending : LineEnd) :
    plainSpelling byte ≠ .continuation ending := by
  intro same
  have spelled := (spelled_plainSpelling byte).1
  rw [same] at spelled
  cases spelled

theorem separate_plainSpelling (bytes : Bytes) :
    (bytes.map plainSpelling).IsChain LiteralSpelling.Separate := by
  induction bytes with
  | nil => exact List.IsChain.nil
  | cons byte bytes ih =>
      rw [map_cons, isChain_cons]
      refine ⟨fun next _ hidden => ?_, ih⟩
      exact (plainSpelling_ne_continuation _ _ hidden).elim

theorem balanced_plainSpelling (bytes : Bytes) :
    (bytes.map plainSpelling).foldlM (fun depth spelling => spelling.nested depth) 0 =
      some 0 := by
  induction bytes with
  | nil => rfl
  | cons byte bytes ih =>
      rw [map_cons, foldlM_cons, (spelled_plainSpelling byte).2.2]
      exact ih

theorem literalBytes_plainSpelling (bytes : Bytes) :
    literalBytes (bytes.map plainSpelling) = bytes := by
  induction bytes with
  | nil => rfl
  | cons byte bytes ih =>
      rw [map_cons, literalBytes_cons, (spelled_plainSpelling byte).1, ih]
      rfl

theorem parseLiteralFrom_literalOf (bytes rest : Bytes) :
    parseLiteralFrom 1 [] (literalOf bytes ++ 41 :: rest) = some (bytes, rest) := by
  have plain : ∀ spelling ∈ bytes.map plainSpelling, spelling.isOctal = false := by
    simp [spelled_plainSpelling]
  have run := @parseLiteralFrom_written _ 0 [] rest plain (separate_plainSpelling bytes)
    (balanced_plainSpelling bytes)
  rwa [literalBytes_plainSpelling] at run

theorem extractTextSection_other {byte : UInt8} (other : byte ∉ [40, 60, 39, 34])
    (output : Text) (rest : Bytes) :
    extractTextSection output (byte :: rest) = extractTextSection output rest := by
  simp only [mem_cons, not_mem_nil, or_false, not_or] at other
  rw [extractTextSection]
  simp [other]

theorem extractTextSection_shownText (output text : Text) (rest : Bytes) :
    extractTextSection output (shownText text ++ rest) =
      extractTextSection (pushPdfText output text) rest := by
  have parsed := parseLiteralFrom_literalOf (encodeText text) ([32, 84, 106, 32] ++ rest)
  have written : shownText text ++ rest =
      40 :: (literalOf (encodeText text) ++ 41 :: ([32, 84, 106, 32] ++ rest)) := by
    simp [shownText]
  rw [written, extractTextSection, if_pos rfl]
  split
  next value after found =>
    rw [parsed] at found
    cases found
    rw [decodeLossy_encodeText]
    simp only [cons_append, nil_append]
    rw [extractTextSection_other (by decide), extractTextSection_other (by decide),
      extractTextSection_other (by decide), extractTextSection_other (by decide)]
  next none =>
    rw [parsed] at none
    cases none

theorem extractTextSection_shownTexts (output : Text) (texts : List Text) :
    extractTextSection output (32 :: texts.flatMap shownText) =
      texts.foldl pushPdfText output := by
  rw [extractTextSection_other (by decide)]
  induction texts generalizing output with
  | nil => rw [flatMap_nil, extractTextSection, foldl_nil]
  | cons text texts ih =>
      rw [flatMap_cons, extractTextSection_shownText, ih, foldl_cons]

theorem pushPdfText_eq (output text : Text) :
    pushPdfText output text = followedBy output (trim text) := by
  simp only [pushPdfText, followedBy, List.isEmpty_iff]

theorem trim_last {text : Text} {char : Char} (last : (trim text).getLast? = some char) :
    isWhitespace char = false := by
  have present : trim text ≠ [] := by
    intro blank
    rw [blank] at last
    cases last
  have kept := rdropWhile_last_not isWhitespace (text.dropWhile isWhitespace) present
  rw [getLast?_eq_some_getLast present] at last
  obtain rfl := Option.some.inj last
  exact Bool.eq_false_iff.mpr kept

theorem followedBy_push (output text added : Text) :
    followedBy (followedBy output (trim text)) added =
      followedBy output (push ' ' (trim text) added) := by
  rcases eq_or_ne added [] with rfl | more
  · rw [push_nil, followedBy, if_pos rfl]
  rcases eq_or_ne (trim text) [] with blank | present
  · simp [followedBy, blank]
  have notSpace : (trim text).getLast? ≠ some ' ' := fun last => by cases trim_last last
  have notBreak : (trim text).getLast? ≠ some '\n' := fun last => by cases trim_last last
  have kept : (' ' :: trim text).getLast? = (trim text).getLast? :=
    getLast?_append_of_ne_nil [' '] present
  rw [push_of_ne_nil ' ' present more]
  by_cases joins : output = [] ∨ output.getLast? = some ' ' ∨ output.getLast? = some '\n'
  · simp [followedBy, present, more, joins, notSpace, notBreak]
  · simp [followedBy, present, more, joins, notSpace, notBreak, kept]

/-- The texts follow the output one by one as they do together. -/
theorem foldl_pushPdfText (output : Text) (texts : List Text) :
    texts.foldl pushPdfText output = followedBy output (spacedTokens texts) := by
  induction texts generalizing output with
  | nil => simp [spacedTokens, followedBy]
  | cons text texts ih =>
      rw [foldl_cons, ih, pushPdfText_eq, followedBy_push, spacedTokens, spacedTokens,
        map_cons, joined_cons]

end Reading

section Ends

/-- The two bytes are not the keyword that ends a block. -/
def NotEnd (item next : UInt8) : Prop := ¬(item = 69 ∧ next = 84)

theorem notEnd_of_ne {item : UInt8} (other : item ≠ 69) (next : UInt8) : NotEnd item next :=
  fun both => other both.1

theorem written_plainSpelling (byte : UInt8) :
    (plainSpelling byte).written = [byte] ∨ (plainSpelling byte).written = [92, byte] := by
  rw [plainSpelling]
  split
  · exact .inl rfl
  · split
    next same => exact .inr (congrArg ([92, ·]) same.symm)
    next =>
      split
      next same => exact .inr (congrArg ([92, ·]) same.symm)
      next =>
        have same : byte = 92 := by tauto
        exact .inr (congrArg ([92, ·]) same.symm)

theorem mem_literalOf {letter char : Char} (ascii : letter.toNat < 128) (other : letter ≠ '\\')
    (listed : UInt8.ofNat letter.toNat ∈ literalOf (String.utf8EncodeChar char)) :
    letter = char := by
  have small : (UInt8.ofNat letter.toNat).toNat = letter.toNat := by
    simp only [UInt8.toNat_ofNat']
    omega
  rcases mem_flatMap.mp listed with ⟨spelling, mapped, written⟩
  rcases mem_map.mp mapped with ⟨byte, encoded, rfl⟩
  have notEscape : UInt8.ofNat letter.toNat ≠ 92 := by
    intro same
    apply other
    apply Char.toNat_inj.mp
    rw [← small, same]
    rfl
  have same : UInt8.ofNat letter.toNat = byte := by
    rcases written_plainSpelling byte with alone | escaped
    · rw [alone] at written
      exact mem_singleton.mp written
    · rw [escaped] at written
      simpa [notEscape] using written
  have codes := toNat_eq_of_mem_utf8EncodeChar encoded (by rw [← same]; omega)
  exact Char.toNat_inj.mp (by rw [← codes, ← same, small])

theorem literalOf_append (left right : Bytes) :
    literalOf (left ++ right) = literalOf left ++ literalOf right := by
  simp [literalOf, writeLiteral]

theorem literalOf_encodeText (text : Text) : literalOf (encodeText text) =
    (text.map fun char => literalOf (String.utf8EncodeChar char)).flatten := by
  induction text with
  | nil => rfl
  | cons char text ih =>
      rw [map_cons, flatten_cons, ← ih, ← literalOf_append]
      rfl

theorem literalOf_utf8EncodeChar_ne_nil (char : Char) :
    literalOf (String.utf8EncodeChar char) ≠ [] := by
  have positive := char.utf8Size_pos
  rw [← String.length_utf8EncodeChar char] at positive
  cases encoded : String.utf8EncodeChar char with
  | nil => simp [encoded] at positive
  | cons byte bytes =>
      rcases written_plainSpelling byte with written | written <;>
        simp [literalOf, writeLiteral, written]

theorem isChain_literalOf {text : Text} (unended : ¬['E', 'T'] <:+: text) :
    (literalOf (encodeText text)).IsChain NotEnd := by
  have letters : ∀ {first second : Char},
      69 ∈ literalOf (String.utf8EncodeChar first) →
      84 ∈ literalOf (String.utf8EncodeChar second) → first = 'E' ∧ second = 'T' :=
    fun {first second} inFirst inSecond =>
      ⟨(@mem_literalOf 'E' first (by decide) (by decide) inFirst).symm,
        (@mem_literalOf 'T' second (by decide) (by decide) inSecond).symm⟩
  rw [literalOf_encodeText, isChain_flatten]
  · constructor
    · intro piece listed
      rcases mem_map.mp listed with ⟨char, _, rfl⟩
      refine isChain_iff_nowhere.mpr fun inside => ?_
      rcases letters (inside.mem (by simp)) (inside.mem (by simp)) with ⟨isE, isT⟩
      rw [isE] at isT
      cases isT
    · rw [isChain_map]
      refine (isChain_iff_nowhere.mpr unended).imp ?_
      rintro first second notPair item last next head ⟨rfl, rfl⟩
      exact notPair (letters (mem_of_getLast? last) (mem_of_head? head))
  · intro listed
    rcases mem_map.mp listed with ⟨char, _, empty⟩
    exact literalOf_utf8EncodeChar_ne_nil char empty

theorem isChain_shownTexts {texts : List Text} (unended : ∀ text ∈ texts, ¬['E', 'T'] <:+: text) :
    (texts.flatMap shownText ++ [69]).IsChain NotEnd := by
  induction texts with
  | nil => simp
  | cons text texts ih =>
      have rest := ih fun other member => unended other (mem_cons_of_mem _ member)
      have inside := isChain_literalOf (unended text (mem_cons_self ..))
      have written : (text :: texts).flatMap shownText ++ [69] =
          40 :: (literalOf (encodeText text) ++
            41 :: 32 :: 84 :: 106 :: 32 :: (texts.flatMap shownText ++ [69])) := by
        simp [shownText]
      rw [written, isChain_cons, isChain_append]
      refine ⟨fun next _ => notEnd_of_ne (by decide) next, inside, ?_, ?_⟩
      · simp only [isChain_cons_cons]
        refine ⟨notEnd_of_ne (by decide) _, notEnd_of_ne (by decide) _,
          notEnd_of_ne (by decide) _, notEnd_of_ne (by decide) _, ?_⟩
        rw [isChain_cons]
        exact ⟨fun next _ => notEnd_of_ne (by decide) next, rest⟩
      · rintro item _ next head ⟨_, rfl⟩
        cases head

end Ends

section Streams

theorem extractTextStream_none (output : Text) {bytes : Bytes}
    (none : Finding.find [66, 84] bytes = none) : extractTextStream output bytes = output := by
  rw [extractTextStream]
  split
  next => rfl
  next begin found =>
    rw [bytesOf_BT, none] at found
    cases found

theorem extractTextStream_begin (output : Text) {bytes : Bytes} {begin : Nat}
    (begins : Finding.find [66, 84] bytes = some begin) :
    extractTextStream output bytes =
      match Finding.find [69, 84] (bytes.drop (begin + 2)) with
      | none => output
      | some finish =>
          extractTextStream
            (extractTextSection output ((bytes.drop (begin + 2)).take finish))
            ((bytes.drop (begin + 2)).drop (finish + 2)) := by
  rw [extractTextStream]
  split
  next found =>
    rw [bytesOf_BT, begins] at found
    cases found
  next place found =>
    rw [bytesOf_BT, begins] at found
    obtain rfl := Option.some.inj found
    rfl

theorem extractTextStream_turn (output : Text) {bytes : Bytes} {begin finish : Nat}
    (begins : Finding.find [66, 84] bytes = some begin)
    (ends : Finding.find [69, 84] (bytes.drop (begin + 2)) = some finish) :
    extractTextStream output bytes =
      extractTextStream
        (extractTextSection output ((bytes.drop (begin + 2)).take finish))
        ((bytes.drop (begin + 2)).drop (finish + 2)) := by
  rw [extractTextStream_begin output begins, ends]

theorem find_textBlock (bytes : Bytes) : Finding.find [66, 84] (66 :: 84 :: bytes) = some 0 := rfl

/-- A block in whose texts the keyword is not is one section. -/
theorem extractTextStream_textBlock (output : Text) {texts : List Text}
    (unended : ∀ text ∈ texts, ¬['E', 'T'] <:+: text) :
    extractTextStream output (textBlock texts) = followedBy output (spacedTokens texts) := by
  have nowhere : (32 :: texts.flatMap shownText ++ [69]).IsChain NotEnd := by
    rw [cons_append, isChain_cons]
    exact ⟨fun next _ => notEnd_of_ne (by decide) next, isChain_shownTexts unended⟩
  have ends := @find_pair _ _ _ [] _ _ nowhere
  have inside : (textBlock texts).drop (0 + 2) =
      32 :: texts.flatMap shownText ++ ([69, 84] ++ []) := by simp [textBlock]
  rw [← inside] at ends
  have turn := @extractTextStream_turn output (textBlock texts) 0 _
    (find_textBlock (32 :: (texts.flatMap shownText ++ [69, 84]))) ends
  rw [turn, inside, take_left, extractTextSection_shownTexts, foldl_pushPdfText,
    ← drop_drop, drop_left]
  exact extractTextStream_none _ rfl

/-- Bytes that a block ends. -/
def Ended (bytes : Bytes) : Prop := [32, 69, 84] <:+ bytes

/-- A keyword in the bytes that a block ends is in front of their end, or is their end. -/
theorem place_of_pair {front : Bytes} {first second : UInt8} {place : Nat}
    (found : Finding.find [first, second] (front ++ [32, 69, 84]) = some place)
    (noSpace : first ≠ 32 ∧ second ≠ 32) :
    place + 2 ≤ front.length ∨ (first = 69 ∧ place = front.length + 1) := by
  have begins := (find_eq_some_iff.mp found).2.1
  have fits := length_le_of_find found
  rcases begins with ⟨rest, pair⟩
  have firstAt : (front ++ [32, 69, 84])[place]? = some first := by
    rw [← head?_drop, ← pair]
    rfl
  have secondAt : (front ++ [32, 69, 84])[place + 1]? = some second := by
    rw [← head?_drop, ← drop_drop, ← pair]
    rfl
  by_contra neither
  simp only [not_or, not_and, not_le] at neither
  simp only [length_append, length_cons, length_nil] at fits
  rcases (show place + 1 = front.length ∨ place = front.length ∨ place = front.length + 1 by
    omega) with last | end_ | inner
  · rw [last, getElem?_append_right le_rfl, Nat.sub_self] at secondAt
    exact noSpace.2 (Option.some.inj secondAt).symm
  · rw [end_, getElem?_append_right le_rfl, Nat.sub_self] at firstAt
    exact noSpace.1 (Option.some.inj firstAt).symm
  · rw [inner, getElem?_append_right (by omega), Nat.add_sub_cancel_left] at firstAt
    exact neither.2 (Option.some.inj firstAt).symm inner

/-- What the loop finds in the bytes that a block ends: nothing, or a section behind which nothing
is left or other such bytes. -/
theorem turn_of_ended {bytes : Bytes} (ended : Ended bytes) :
    Finding.find [66, 84] bytes = none ∨
    ∃ begin finish, Finding.find [66, 84] bytes = some begin ∧
      Finding.find [69, 84] (bytes.drop (begin + 2)) = some finish ∧
      ((bytes.drop (begin + 2)).drop (finish + 2) = [] ∨
        Ended ((bytes.drop (begin + 2)).drop (finish + 2))) := by
  cases begins : Finding.find [66, 84] bytes with
  | none => exact .inl rfl
  | some begin =>
      rcases ended with ⟨front, rfl⟩
      rcases place_of_pair begins (by decide) with inFront | ⟨isE, -⟩
      · have text : (front ++ [32, 69, 84]).drop (begin + 2) =
            front.drop (begin + 2) ++ [32, 69, 84] := drop_append_of_le_length inFront
        cases ends : Finding.find [69, 84] (front.drop (begin + 2) ++ [32, 69, 84]) with
        | none =>
            have last : [69, 84] <:+: front.drop (begin + 2) ++ [32, 69, 84] :=
              ⟨front.drop (begin + 2) ++ [32], [], by simp⟩
            exact (find_eq_none_iff.mp ends last).elim
        | some finish =>
            refine .inr ⟨begin, finish, rfl, by rw [text, ends], ?_⟩
            rw [text]
            rcases place_of_pair ends (by decide) with earlier | ⟨-, last⟩
            · rw [drop_append_of_le_length earlier]
              exact .inr (suffix_append _ _)
            · left
              apply drop_eq_nil_of_le
              simp only [length_append, length_cons, length_nil]
              omega
      · cases isE

/-- Bytes in which no section begins are skipped. -/
theorem extractTextStream_skip (output : Text) {first : Bytes} (second : Bytes)
    (ended : Ended first) (none : Finding.find [66, 84] first = none) :
    extractTextStream output (first ++ second) = extractTextStream output second := by
  have notLast : first.getLast? ≠ some 66 := by
    rcases ended with ⟨front, rfl⟩
    simp
  have shifted := @find_pair_append _ _ first second _ _
    (find_eq_none_iff.mp none) notLast
  cases begins : Finding.find [66, 84] second with
  | none =>
      rw [begins, Option.map_none] at shifted
      rw [extractTextStream_none output shifted, extractTextStream_none output begins]
  | some begin =>
      rw [begins, Option.map_some] at shifted
      have text : (first ++ second).drop (first.length + begin + 2) = second.drop (begin + 2) := by
        rw [Nat.add_assoc, ← drop_drop, drop_left]
      rw [extractTextStream_begin output shifted, extractTextStream_begin output begins, text]

/-- What stands behind a block is extracted as if it stood alone. -/
theorem extractTextStream_append (output : Text) {first : Bytes} (second : Bytes)
    (ended : first = [] ∨ Ended first) :
    extractTextStream output (first ++ second) =
      extractTextStream (extractTextStream output first) second := by
  induction size : first.length using Nat.strong_induction_on generalizing first output with
  | _ length ih =>
      rcases ended with rfl | ended
      · have nothing := @extractTextStream_none output [] rfl
        rw [nil_append, nothing]
      rcases turn_of_ended ended with none | ⟨begin, finish, begins, ends, left⟩
      · rw [extractTextStream_skip output second ended none, extractTextStream_none output none]
      · have inFirst := length_le_of_find begins
        have inText := length_le_of_find ends
        simp only [length_cons, length_nil] at inFirst inText
        have text : (first ++ second).drop (begin + 2) = first.drop (begin + 2) ++ second :=
          drop_append_of_le_length inFirst
        have section_ : (first.drop (begin + 2) ++ second).take finish =
            (first.drop (begin + 2)).take finish := take_append_of_le_length (by omega)
        have rest : (first.drop (begin + 2) ++ second).drop (finish + 2) =
            (first.drop (begin + 2)).drop (finish + 2) ++ second :=
          drop_append_of_le_length inText
        have turn := @extractTextStream_turn output (first ++ second) begin finish
          (find_append_of_find begins) (by
            rw [text]
            exact find_append_of_find ends)
        rw [turn, extractTextStream_turn output begins ends, text, section_, rest]
        refine ih _ ?_ _ left rfl
        simp only [length_drop] at inText ⊢
        omega

end Streams

section Digits

/-- The bytes that a literal or a hexadecimal string can make more text of. -/
def isHexByte (byte : UInt8) : Bool := (hexNibble byte).isSome

def isHexChar (char : Char) : Bool := (hexDigitValue char).isSome

theorem countP_byte (byte : UInt8) (rest : Bytes) :
    (byte :: rest).countP isHexByte = [byte].countP isHexByte + rest.countP isHexByte := by
  rw [← countP_append, singleton_append]

theorem isHexByte_ofNat {char : Char} (ascii : char.toNat < 128) :
    isHexByte (UInt8.ofNat char.toNat) = isHexChar char := by
  rw [isHexByte, isHexChar, hexNibble, hexDigitValue]
  generalize char.toNat = code at ascii
  revert code
  decide

theorem toNat_lt_of_isHexByte {byte : UInt8} (counted : isHexByte byte = true) :
    byte.toNat < 128 := by
  simp only [isHexByte, hexNibble, UInt8.le_iff_toNat_le] at counted
  by_contra beyond
  have notDigit : ¬byte.toNat ≤ 57 := by omega
  have notLower : ¬byte.toNat ≤ 102 := by omega
  have notUpper : ¬byte.toNat ≤ 70 := by omega
  simp [notDigit, notLower, notUpper] at counted

theorem isHexChar_eq : isHexChar = countedChar isHexByte := by
  funext char
  by_cases ascii : char.toNat < 128
  · simp [countedChar, ascii, isHexByte_ofNat]
  · have uncounted : isHexChar char = false := by
      simp only [isHexChar, hexDigitValue]
      repeat' split
      all_goals first | omega | rfl
    simp [countedChar, ascii, uncounted]

theorem countP_isHexByte_encodeText (text : Text) :
    (encodeText text).countP isHexByte = text.countP isHexChar := by
  rw [isHexChar_eq, LossyText.countP_encodeText fun _ => toNat_lt_of_isHexByte]

theorem countP_isHexChar_decodeLossy (bytes : Bytes) :
    (decodeLossy bytes).countP isHexChar ≤ bytes.countP isHexByte := by
  rw [isHexChar_eq]
  exact LossyText.countP_decodeLossy (fun _ => toNat_lt_of_isHexByte) bytes

theorem countP_hexBytes (nibbles : List Nat) :
    (hexBytes nibbles).countP isHexByte ≤ nibbles.length := by
  fun_induction hexBytes nibbles with
  | case1 => simp
  | case2 high => exact countP_le_length
  | case3 high low rest ih =>
      have first := @countP_le_length _ isHexByte [UInt8.ofNat (16 * high + low)]
      rw [← singleton_append, countP_append]
      simp only [length_cons, length_nil] at first ⊢
      omega

theorem countP_parseOctalFrom (digits value : Nat) (bytes : Bytes) :
    (parseOctalFrom digits value bytes).2.countP isHexByte ≤ bytes.countP isHexByte := by
  induction digits generalizing value bytes with
  | zero => simp [parseOctalFrom]
  | succ digits ih =>
      cases bytes with
      | nil => simp [parseOctalFrom]
      | cons byte bytes =>
          rw [parseOctalFrom]
          split
          · exact (ih _ bytes).trans (sublist_cons_self byte bytes).countP_le
          · exact le_rfl

theorem isHexByte_of_isOctalDigit {byte : UInt8} (octal : isOctalDigit byte = true) :
    isHexByte byte = true := by
  rw [isOctalDigit, decide_eq_true_eq] at octal
  have digit : 48 ≤ byte ∧ byte ≤ 57 := ⟨octal.1, UInt8.le_trans octal.2 (by decide)⟩
  rw [isHexByte, hexNibble, if_pos digit]
  rfl

theorem countP_parseOctal {escaped : UInt8} (octal : isOctalDigit escaped = true)
    (after : Bytes) :
    [(parseOctal (escaped :: after)).1].countP isHexByte +
        (parseOctal (escaped :: after)).2.countP isHexByte ≤
      (escaped :: after).countP isHexByte := by
  have first := @countP_le_length _ isHexByte [(parseOctal (escaped :: after)).1]
  have rest := countP_parseOctalFrom 2 (0 * 8 + (escaped.toNat - 48)) after
  have counted := isHexByte_of_isOctalDigit octal
  have behind : (parseOctal (escaped :: after)).2 =
      (parseOctalFrom 2 (0 * 8 + (escaped.toNat - 48)) after).2 := by
    rw [parseOctal, parseOctalFrom, if_pos octal]
  rw [behind, countP_cons_of_pos counted]
  simp only [length_cons, length_nil] at first
  omega

theorem countP_parseEscape (escaped : UInt8) (rest : Bytes) :
    (parseEscape escaped rest).1.countP isHexByte +
        (parseEscape escaped rest).2.countP isHexByte ≤
      (escaped :: rest).countP isHexByte := by
  have whole := countP_byte escaped rest
  have dropped : (rest.drop 1).countP isHexByte ≤ rest.countP isHexByte :=
    (drop_sublist 1 rest).countP_le
  have lineFeed : [10].countP isHexByte = 0 := rfl
  have carriageReturn : [13].countP isHexByte = 0 := rfl
  have tab : [9].countP isHexByte = 0 := rfl
  have backspace : [8].countP isHexByte = 0 := rfl
  have formFeed : [12].countP isHexByte = 0 := rfl
  unfold parseEscape
  split_ifs <;> simp only [countP_nil] <;> omega

/-- A literal makes no digits that are not in the bytes it is read from. -/
theorem countP_parseLiteralFrom {depth : Nat} {value bytes result left : Bytes}
    (parsed : parseLiteralFrom depth value bytes = some (result, left)) :
    result.countP isHexByte + left.countP isHexByte ≤
      value.countP isHexByte + bytes.countP isHexByte := by
  have opening : [40].countP isHexByte = 0 := rfl
  have closing : [41].countP isHexByte = 0 := rfl
  fun_induction parseLiteralFrom depth value bytes with
  | case1 => cases parsed
  | case2 => cases parsed
  | case3 depth value escaped after digit octal ih =>
      have inner := ih parsed
      have read : [octal.1].countP isHexByte + octal.2.countP isHexByte ≤
          (escaped :: after).countP isHexByte := countP_parseOctal digit after
      have dropped : (octal.2.drop 1).countP isHexByte ≤ octal.2.countP isHexByte :=
        (drop_sublist 1 _).countP_le
      rw [countP_append] at inner
      rw [countP_byte 92]
      omega
  | case4 depth value escaped after _ plain ih =>
      have inner := ih parsed
      have read : plain.1.countP isHexByte + plain.2.countP isHexByte ≤
          (escaped :: after).countP isHexByte := countP_parseEscape escaped after
      rw [countP_append] at inner
      rw [countP_byte 92]
      omega
  | case5 depth value rest _ ih =>
      have inner := ih parsed
      rw [countP_append] at inner
      rw [countP_byte]
      omega
  | case6 depth value rest =>
      obtain ⟨rfl, rfl⟩ := Prod.mk.inj (Option.some.inj parsed)
      rw [countP_byte]
      omega
  | case7 depth value rest _ _ _ ih =>
      have inner := ih parsed
      rw [countP_append] at inner
      rw [countP_byte]
      omega
  | case8 depth value byte rest _ _ _ ih =>
      have inner := ih parsed
      rw [countP_append] at inner
      rw [countP_byte]
      omega

theorem countP_parseHex {bytes left : Bytes} {value : Text}
    (parsed : parseHex bytes = some (value, left)) :
    value.countP isHexChar + left.countP isHexByte ≤ bytes.countP isHexByte := by
  rcases Option.map_eq_some_iff.mp parsed with ⟨offset, _, same⟩
  obtain ⟨rfl, rfl⟩ := Prod.mk.inj same
  have digits := countP_hexBytes ((bytes.take offset).filterMap hexNibble)
  have decoded := countP_isHexChar_decodeLossy (hexBytes ((bytes.take offset).filterMap hexNibble))
  have read : ((bytes.take offset).filterMap hexNibble).length =
      (bytes.take offset).countP isHexByte := by
    rw [countP_eq_length_filter, length_filterMap_eq_countP,
      countP_eq_length_filter]
    rfl
  have whole := congrArg (List.countP isHexByte) (take_append_drop offset bytes)
  have behind : (bytes.drop (offset + 1)).countP isHexByte ≤
      (bytes.drop offset).countP isHexByte := by
    rw [← drop_drop]
    exact (drop_sublist 1 _).countP_le
  rw [countP_append] at whole
  omega

theorem countP_followedBy (output added : Text) :
    (followedBy output added).countP isHexChar =
      output.countP isHexChar + added.countP isHexChar := by
  have space : isHexChar ' ' = false := rfl
  unfold followedBy
  split_ifs <;> simp [*]

theorem isHexChar_of_isWhitespace (char : Char) (blank : isWhitespace char = true) :
    isHexChar char = false := by
  simp only [isWhitespace, decide_eq_true_eq] at blank
  simp only [isHexChar, hexDigitValue]
  repeat' split
  all_goals first | omega | rfl

theorem countP_pushPdfText (output text : Text) :
    (pushPdfText output text).countP isHexChar =
      output.countP isHexChar + text.countP isHexChar := by
  rw [pushPdfText_eq, countP_followedBy, countP_trim isHexChar_of_isWhitespace]

theorem countP_extractTextSection (output : Text) (bytes : Bytes) :
    (extractTextSection output bytes).countP isHexChar ≤
      output.countP isHexChar + bytes.countP isHexByte := by
  fun_induction extractTextSection output bytes with
  | case1 => simp
  | case2 output rest value after parsed ih =>
      have read := countP_parseLiteralFrom parsed
      have decoded := countP_isHexChar_decodeLossy value
      rw [countP_pushPdfText] at ih
      rw [countP_nil] at read
      rw [countP_byte]
      omega
  | case3 output rest _ ih =>
      rw [countP_byte]
      omega
  | case4 output byte rest _ _ value after parsed ih =>
      have read := countP_parseHex parsed
      rw [countP_pushPdfText] at ih
      rw [countP_byte]
      omega
  | case5 output byte rest _ _ _ ih =>
      rw [countP_byte]
      omega
  | case6 output byte rest _ _ _ ih =>
      have lineBreak : ['\n'].countP isHexChar = 0 := rfl
      rw [countP_append] at ih
      rw [countP_byte]
      omega
  | case7 output byte rest _ _ _ ih =>
      rw [countP_byte]
      omega

/-- The first letter of the keyword that ends a section is in none. -/
theorem countP_of_find {bytes : Bytes} {finish : Nat}
    (ends : Finding.find [69, 84] bytes = some finish) :
    bytes.countP isHexByte = (bytes.take finish).countP isHexByte + 1 +
      (bytes.drop (finish + 2)).countP isHexByte := by
  have keyword : ([69, 84] : Bytes).countP isHexByte = 1 := rfl
  have split := congrArg (List.countP isHexByte) (eq_append_of_find ends)
  rw [countP_append, countP_append, keyword] at split
  simp only [length_cons, length_nil, Nat.zero_add, Nat.reduceAdd] at split
  omega

theorem countP_extractTextStream {bytes : Bytes} (output : Text) (ended : Ended bytes) :
    (extractTextStream output bytes).countP isHexChar <
      output.countP isHexChar + bytes.countP isHexByte := by
  induction size : bytes.length using Nat.strong_induction_on generalizing bytes output with
  | _ length ih =>
      rcases turn_of_ended ended with none | ⟨begin, finish, begins, ends, left⟩
      · rcases ended with ⟨front, rfl⟩
        rw [extractTextStream_none output none, countP_append]
        have keyword : ([32, 69, 84] : Bytes).countP isHexByte = 1 := rfl
        omega
      · have inBytes := length_le_of_find begins
        have inText := length_le_of_find ends
        have text := countP_of_find ends
        have dropped : (bytes.drop (begin + 2)).countP isHexByte ≤ bytes.countP isHexByte :=
          (drop_sublist _ _).countP_le
        have read := countP_extractTextSection output ((bytes.drop (begin + 2)).take finish)
        rw [extractTextStream_turn output begins ends]
        rcases left with nothing | left
        · rw [nothing] at text
          rw [nothing, extractTextStream_none _ rfl]
          omega
        · have rest := ih _ (by
            simp only [length_drop, length_cons, length_nil] at inBytes inText ⊢
            omega) (extractTextSection output ((bytes.drop (begin + 2)).take finish)) left rfl
          omega

theorem countP_literalOf (bytes : Bytes) :
    (literalOf bytes).countP isHexByte = bytes.countP isHexByte := by
  induction bytes with
  | nil => rfl
  | cons byte bytes ih =>
      have written : (plainSpelling byte).written.countP isHexByte = [byte].countP isHexByte := by
        rcases written_plainSpelling byte with alone | escaped
        · rw [alone]
        · rw [escaped, countP_byte]
          exact Nat.zero_add _
      have split := literalOf_append [byte] bytes
      rw [singleton_append] at split
      rw [split, countP_append, ih, countP_byte byte, ← written]
      simp [literalOf, writeLiteral]

theorem countP_shownTexts (texts : List Text) :
    (texts.flatMap shownText).countP isHexByte = (texts.map (List.countP isHexChar)).sum := by
  induction texts with
  | nil => rfl
  | cons text texts ih =>
      have opening : [40].countP isHexByte = 0 := rfl
      have operator : ([41, 32, 84, 106, 32] : Bytes).countP isHexByte = 0 := rfl
      rw [flatMap_cons, countP_append, ih, shownText, countP_byte, countP_append,
        countP_literalOf, countP_isHexByte_encodeText, opening, operator]
      simp

end Digits

section Texts

theorem ended_textBlock (texts : List Text) : Ended (textBlock texts) := by
  rcases texts.eq_nil_or_concat with rfl | ⟨others, text, rfl⟩
  · exact ⟨[66, 84], rfl⟩
  · refine ⟨[66, 84, 32] ++ (others.flatMap shownText ++
      40 :: (literalOf (encodeText text) ++ [41, 32, 84, 106])), ?_⟩
    simp [textBlock, shownText]

theorem infix_shownTexts {texts : List Text} {text : Text} (listed : text ∈ texts)
    (inside : ['E', 'T'] <:+: text) : [69, 84] <:+: texts.flatMap shownText := by
  have keyword : literalOf (encodeText ['E', 'T']) = [69, 84] := by decide
  have written : [69, 84] <:+: literalOf (encodeText text) := by
    rcases inside with ⟨before, after, rfl⟩
    rw [encodeText_append, encodeText_append, literalOf_append, literalOf_append, keyword]
    exact List.infix_append _ _ _
  have shown : [69, 84] <:+: shownText text := by
    apply written.trans
    exact ⟨[40], [41, 32, 84, 106, 32], by simp [shownText]⟩
  rcases append_of_mem listed with ⟨before, after, rfl⟩
  apply shown.trans
  exact ⟨before.flatMap shownText, after.flatMap shownText, by simp⟩

theorem countP_textBlock (texts : List Text) :
    (textBlock texts).countP isHexByte = (texts.map (List.countP isHexChar)).sum + 2 := by
  have opening : ([66, 84, 32] : Bytes).countP isHexByte = 1 := rfl
  have keyword : ([69, 84] : Bytes).countP isHexByte = 1 := rfl
  rw [textBlock, countP_append, countP_append, countP_shownTexts, opening, keyword]
  omega

/-- A keyword in a text ends the first section, and leaves another letter out of the sections. -/
theorem countP_extractTextStream_textBlock (output : Text) {texts : List Text} {text : Text}
    (listed : text ∈ texts) (inside : ['E', 'T'] <:+: text) :
    (extractTextStream output (textBlock texts)).countP isHexChar + 3 ≤
      output.countP isHexChar + (textBlock texts).countP isHexByte := by
  rcases infix_shownTexts listed inside with ⟨before, after, flatEq⟩
  have dropped : (textBlock texts).drop (0 + 2) =
      32 :: before ++ ([69, 84] ++ (after ++ [69, 84])) := by
    rw [textBlock, ← flatEq]
    simp
  have opening : (textBlock texts).countP isHexByte =
      1 + ((textBlock texts).drop (0 + 2)).countP isHexByte := by
    have first : ([66, 84] : Bytes).countP isHexByte = 1 := rfl
    have split := congrArg (List.countP isHexByte) (take_append_drop 2 (textBlock texts))
    rw [countP_append] at split
    exact split.symm.trans (congrArg (· + _) first)
  have begins : Finding.find [66, 84] (textBlock texts) = some 0 := rfl
  rcases turn_of_ended (ended_textBlock texts) with none | ⟨begin, finish, found, ends, left⟩
  · cases begins.symm.trans none
  · obtain rfl := Option.some.inj (begins.symm.trans found)
    have early : finish ≤ (32 :: before).length := by
      by_contra late
      apply (find_eq_some_iff.mp ends).2.2 _ (Nat.lt_of_not_le late)
      rw [dropped, drop_left]
      exact prefix_append _ _
    have read := countP_extractTextSection output (((textBlock texts).drop (0 + 2)).take finish)
    have whole := countP_of_find ends
    rw [extractTextStream_turn output found ends]
    rcases left with nothing | left
    · have short := drop_eq_nil_iff.mp nothing
      rw [dropped] at short
      simp only [length_append, length_cons, length_nil] at short early
      omega
    · have rest := countP_extractTextStream
        (extractTextSection output (((textBlock texts).drop (0 + 2)).take finish)) left
      omega

theorem countP_followedBy_spacedTokens (output : Text) (texts : List Text) :
    (followedBy output (spacedTokens texts)).countP isHexChar =
      output.countP isHexChar + (texts.map (List.countP isHexChar)).sum := by
  have space : isHexChar ' ' = false := rfl
  rw [countP_followedBy, spacedTokens, countP_joined space, map_map]
  congr 2
  apply map_congr_left
  intro text _
  exact countP_trim isHexChar_of_isWhitespace text

/-- A block of texts is extracted as the texts exactly when none has the keyword that ends it, and
two blocks are always extracted one after the other. -/
theorem extractTextStream_textBlock_iff (output : Text) (texts others : List Text) :
    (extractTextStream output (textBlock texts) = followedBy output (spacedTokens texts) ↔
      ∀ text ∈ texts, ¬['E', 'T'] <:+: text) ∧
    extractTextStream output (textBlock texts ++ textBlock others) =
      extractTextStream (extractTextStream output (textBlock texts)) (textBlock others) := by
  constructor
  · constructor
    · intro same text listed inside
      have shorter := countP_extractTextStream_textBlock output listed inside
      rw [same, countP_followedBy_spacedTokens, countP_textBlock] at shorter
      omega
    · exact extractTextStream_textBlock output
  · exact extractTextStream_append output _ (.inr (ended_textBlock texts))

/-- The letters `ET` of a text end the block in the middle of the text. -/
theorem extractTextStream_keyword_lost :
    ¬∀ (output : Text) (texts : List Text),
      extractTextStream output (textBlock texts) = followedBy output (spacedTokens texts) := by
  intro whole
  have shorter := countP_extractTextStream_textBlock [] (mem_singleton_self ['E', 'T'])
    (infix_refl _)
  rw [whole] at shorter
  exact absurd shorter (by decide)

end Texts

end Gfm.Content

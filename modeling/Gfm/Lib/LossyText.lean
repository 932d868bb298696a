import Gfm.Lib.LineLog

/-!
# Lossy decoding

Bytes are read as text whether they are valid or not: a valid encoding of a character is read as
the character, and each maximal part of the rest that could begin a character, or one byte where
there is none, as one replacement character. Valid bytes are read back, and a character of the
result that is not the replacement stands for bytes of the input.
-/

namespace LossyText

open LineLog List

/-- U+FFFD. -/
def replacement : Char := Char.ofNat 0xFFFD

def isContinuation (byte : UInt8) : Bool := 0x80 ≤ byte ∧ byte ≤ 0xBF

/-- Whether the two bytes begin the encoding of a character that is three or four bytes long. -/
def beginsLong (first second : UInt8) : Bool :=
  if first = 0xE0 then 0xA0 ≤ second ∧ second ≤ 0xBF
  else if first = 0xED then 0x80 ≤ second ∧ second ≤ 0x9F
  else if first = 0xF0 then 0x90 ≤ second ∧ second ≤ 0xBF
  else if first = 0xF4 then 0x80 ≤ second ∧ second ≤ 0x8F
  else (0xE1 ≤ first ∧ first ≤ 0xF3) ∧ isContinuation second

/-- How many bytes one replacement stands for, where no valid encoding begins. -/
def invalidLength : Bytes → ℕ
  | first :: second :: rest =>
      if beginsLong first second then
        match rest with
        | third :: _ => if 0xF0 ≤ first ∧ isContinuation third then 3 else 2
        | [] => 2
      else 1
  | _ => 1

def firstChar (bytes : Bytes) : Option Char := bytes.toByteArray.utf8DecodeChar? 0

theorem invalidLength_pos (bytes : Bytes) : 0 < invalidLength bytes := by
  unfold invalidLength
  repeat' split
  all_goals decide

/-- `String::from_utf8_lossy`. -/
def decodeLossy (bytes : Bytes) : List Char :=
  if bytes = [] then []
  else
    match firstChar bytes with
    | some char => char :: decodeLossy (bytes.drop char.utf8Size)
    | none => replacement :: decodeLossy (bytes.drop (invalidLength bytes))
termination_by bytes.length
decreasing_by
  · have nonempty : 0 < bytes.length := length_pos_iff.mpr ‹_›
    have positive := char.utf8Size_pos
    simp only [length_drop]
    omega
  · have nonempty : 0 < bytes.length := length_pos_iff.mpr ‹_›
    have positive := invalidLength_pos bytes
    simp only [length_drop]
    omega

@[simp]
theorem decodeLossy_nil : decodeLossy [] = [] := by
  rw [decodeLossy, if_pos rfl]

theorem firstChar_append (char : Char) (rest : Bytes) :
    firstChar (String.utf8EncodeChar char ++ rest) = some char := by
  rw [firstChar, toByteArray_append]
  exact ByteArray.utf8DecodeChar?_utf8EncodeChar_append

theorem eq_append_of_firstChar {bytes : Bytes} {char : Char} (found : firstChar bytes = some char) :
    bytes = String.utf8EncodeChar char ++ bytes.drop char.utf8Size := by
  rcases ByteArray.exists_of_utf8DecodeChar?_eq_some found with ⟨rest, same⟩
  have lists := congrArg (fun array => array.data.toList) same
  simp only [data_toByteArray, ByteArray.data_append, Array.toList_append] at lists
  rw [lists, ← String.length_utf8EncodeChar char, drop_left]

theorem decodeLossy_append (char : Char) (rest : Bytes) :
    decodeLossy (String.utf8EncodeChar char ++ rest) = char :: decodeLossy rest := by
  have present : String.utf8EncodeChar char ++ rest ≠ [] := by
    have positive := char.utf8Size_pos
    rw [← String.length_utf8EncodeChar char] at positive
    exact append_ne_nil_of_left_ne_nil (length_pos_iff.mp positive) rest
  rw [decodeLossy, if_neg present, firstChar_append]
  simp only
  rw [← String.length_utf8EncodeChar char, drop_left]

/-- The encoding of a text is read as the text. -/
theorem decodeLossy_encodeText (text : List Char) : decodeLossy (encodeText text) = text := by
  induction text with
  | nil => exact decodeLossy_nil
  | cons char text ih =>
      rw [encodeText, flatMap_cons, decodeLossy_append]
      exact congrArg (char :: ·) ih

/-- What is read without a replacement is valid. -/
theorem eq_encodeText_of_decodeLossy {bytes : Bytes} (valid : replacement ∉ decodeLossy bytes) :
    bytes = encodeText (decodeLossy bytes) := by
  fun_induction decodeLossy bytes with
  | case1 => rfl
  | case2 bytes _ char found ih =>
      rw [mem_cons, not_or] at valid
      rw [encodeText, flatMap_cons]
      exact (eq_append_of_firstChar found).trans (congrArg _ (ih valid.2))
  | case3 => exact (valid (mem_cons_self ..)).elim

section Counting

/-- An ASCII character is counted as its byte. -/
def countedChar (counted : UInt8 → Bool) (char : Char) : Bool :=
  char.toNat < 128 ∧ counted (UInt8.ofNat char.toNat)

variable {counted : UInt8 → Bool} (ascii : ∀ byte, counted byte = true → byte.toNat < 128)

include ascii

theorem countP_utf8EncodeChar (char : Char) :
    (String.utf8EncodeChar char).countP counted = [char].countP (countedChar counted) := by
  by_cases small : char.toNat < 128
  · have alone : String.utf8EncodeChar char = [UInt8.ofNat char.toNat] := by
      have within : char.val.toNat ≤ 127 := Nat.le_of_lt_succ small
      rw [String.utf8EncodeChar, if_pos within]
      rfl
    rw [alone, countP_singleton, countP_singleton, countedChar]
    simp [small]
  · have uncounted : countedChar counted char = false := by simp [countedChar, small]
    rw [countP_singleton, uncounted, countP_eq_zero.mpr]
    · rfl
    · intro byte listed isCounted
      have code := toNat_eq_of_mem_utf8EncodeChar listed (ascii byte isCounted)
      have bound := ascii byte isCounted
      omega

theorem countP_encodeText (text : List Char) :
    (encodeText text).countP counted = text.countP (countedChar counted) := by
  induction text with
  | nil => rfl
  | cons char text ih =>
      rw [encodeText, flatMap_cons, countP_append, countP_utf8EncodeChar ascii]
      rw [encodeText] at ih
      rw [ih, ← countP_append, singleton_append]

/-- Lossy decoding adds no characters that are counted. -/
theorem countP_decodeLossy (bytes : Bytes) :
    (decodeLossy bytes).countP (countedChar counted) ≤ bytes.countP counted := by
  fun_induction decodeLossy bytes with
  | case1 => simp
  | case2 bytes _ char found ih =>
      have split := congrArg (List.countP counted) (eq_append_of_firstChar found)
      rw [countP_append, countP_utf8EncodeChar ascii] at split
      rw [← singleton_append, countP_append]
      omega
  | case3 bytes _ _ ih =>
      have uncounted : countedChar counted replacement = false := rfl
      rw [countP_cons_of_neg (by simp [uncounted])]
      exact ih.trans (drop_sublist _ _).countP_le

end Counting

end LossyText

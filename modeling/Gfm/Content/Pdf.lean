import Gfm.Content.Structured
import Gfm.Lib.Finding
import Gfm.Lib.LossyText

/-!
# Text of PDF files

A PDF file is searched, not parsed: the streams, the dictionaries before them and the blocks of
text inside them are found by the bytes of their keywords. In a block the literal and hexadecimal
strings are decoded and pushed to the output.

The control never interrupts, and the inflation of a compressed stream is a parameter.
-/

namespace Gfm.Content

open ByteOffsets LineLog List LossyText

section Search

def bytesOf (word : String) : Bytes := encodeText word.toList

@[simp]
theorem bytesOf_BT : bytesOf "BT" = [66, 84] := by decide

/-- The place of the needle at or after the start. -/
def findFrom (haystack needle : Bytes) (start : Nat) : Option Nat :=
  if needle.isEmpty ∨ haystack.length ≤ start then none
  else (Finding.find needle (haystack.drop start)).map (start + ·)

theorem findFrom_of_ne_nil {needle : Bytes} (nonempty : needle ≠ []) (haystack : Bytes)
    (start : Nat) : findFrom haystack needle start =
      (Finding.find needle (haystack.drop start)).map (start + ·) := by
  rw [findFrom]
  split
  next outside =>
    rcases outside with empty | beyond
    · exact (nonempty (List.isEmpty_iff.mp empty)).elim
    · rw [drop_eq_nil_of_le beyond, Finding.find, if_neg nonempty]
      rfl
  next => rfl

end Search

section Strings

def isOctalDigit (byte : UInt8) : Bool := 48 ≤ byte ∧ byte ≤ 55

/-- At most so many octal digits: their value after this one, and the bytes behind them. -/
def parseOctalFrom : Nat → Nat → Bytes → Nat × Bytes
  | 0, value, bytes => (value, bytes)
  | _ + 1, value, [] => (value, [])
  | digits + 1, value, byte :: bytes =>
      if isOctalDigit byte then
        parseOctalFrom digits (value * 8 + (byte.toNat - 48)) bytes
      else (value, byte :: bytes)

def parseOctal (bytes : Bytes) : UInt8 × Bytes :=
  let (value, rest) := parseOctalFrom 3 0 bytes
  (UInt8.ofNat (min value 255), rest)

theorem length_parseOctalFrom (digits value : Nat) (bytes : Bytes) :
    (parseOctalFrom digits value bytes).2.length ≤ bytes.length := by
  induction digits generalizing value bytes with
  | zero => simp [parseOctalFrom]
  | succ digits ih =>
      cases bytes with
      | nil => simp [parseOctalFrom]
      | cons byte bytes =>
          rw [parseOctalFrom]
          split
          · exact (ih _ bytes).trans (Nat.le_succ _)
          · exact le_rfl

/-- What an escape that is not octal adds to the value, and the bytes behind it. -/
def parseEscape (escaped : UInt8) (rest : Bytes) : Bytes × Bytes :=
  if escaped = 110 then ([10], rest)
  else if escaped = 114 then ([13], rest)
  else if escaped = 116 then ([9], rest)
  else if escaped = 98 then ([8], rest)
  else if escaped = 102 then ([12], rest)
  else if escaped = 10 then ([], rest)
  else if escaped = 13 then ([], if rest.head? = some 10 then rest.drop 1 else rest)
  else ([escaped], rest)

theorem length_parseEscape (escaped : UInt8) (rest : Bytes) :
    (parseEscape escaped rest).2.length ≤ rest.length := by
  unfold parseEscape
  repeat' split
  all_goals simp

/-- The literal from the bytes on: its value, and the bytes behind its closing parenthesis. -/
def parseLiteralFrom (depth : Nat) (value : Bytes) : Bytes → Option (Bytes × Bytes)
  | [] => none
  | byte :: rest =>
      if byte = 92 then
        match rest with
        | [] => none
        | escaped :: after =>
            if isOctalDigit escaped then
              let octal := parseOctal (escaped :: after)
              -- the cursor stops before the last digit and then moves by two
              parseLiteralFrom depth (value ++ [octal.1]) (octal.2.drop 1)
            else
              let plain := parseEscape escaped after
              parseLiteralFrom depth (value ++ plain.1) plain.2
      else if byte = 40 then parseLiteralFrom (depth + 1) (value ++ [40]) rest
      else if byte = 41 then
        if depth - 1 = 0 then some (value, rest)
        else parseLiteralFrom (depth - 1) (value ++ [41]) rest
      else parseLiteralFrom depth (value ++ [byte]) rest
termination_by bytes => bytes.length
decreasing_by
  · have shorter := length_parseOctalFrom 3 0 (escaped :: after)
    simp only [parseOctal, length_drop, length_cons] at shorter ⊢
    omega
  · have shorter := length_parseEscape escaped after
    simp only [length_cons]
    omega
  · simp
  · simp
  · simp

theorem length_parseLiteralFrom {depth : Nat} {value bytes result rest : Bytes}
    (parsed : parseLiteralFrom depth value bytes = some (result, rest)) :
    rest.length < bytes.length := by
  fun_induction parseLiteralFrom depth value bytes with
  | case1 => cases parsed
  | case2 => cases parsed
  | case3 depth value escaped after _ octal ih =>
      have shorter := length_parseOctalFrom 3 0 (escaped :: after)
      have inner := ih parsed
      simp only [octal, parseOctal, length_drop, length_cons] at shorter inner ⊢
      omega
  | case4 depth value escaped after _ plain ih =>
      have shorter := length_parseEscape escaped after
      have inner := ih parsed
      simp only [plain, length_cons] at inner ⊢
      omega
  | case5 depth value rest' _ ih => exact (ih parsed).trans (by simp)
  | case6 =>
      cases parsed
      simp
  | case7 depth value rest' _ _ _ ih => exact (ih parsed).trans (by simp)
  | case8 depth value byte rest' _ _ _ ih => exact (ih parsed).trans (by simp)

/-- The string that opens at the start, and the place behind it. -/
def parseLiteral (bytes : Bytes) (start : Nat) : Option (Text × Nat) :=
  (parseLiteralFrom 1 [] (bytes.drop (start + 1))).map fun (value, rest) =>
    (decodeLossy value, bytes.length - rest.length)

def hexNibble (byte : UInt8) : Option Nat :=
  if 48 ≤ byte ∧ byte ≤ 57 then some (byte.toNat - 48)
  else if 97 ≤ byte ∧ byte ≤ 102 then some (byte.toNat - 87)
  else if 65 ≤ byte ∧ byte ≤ 70 then some (byte.toNat - 55)
  else none

/-- The nibbles two by two; a last one alone is followed by zero. -/
def hexBytes : List Nat → Bytes
  | [] => []
  | [high] => [UInt8.ofNat (16 * high)]
  | high :: low :: rest => UInt8.ofNat (16 * high + low) :: hexBytes rest

/-- The hexadecimal string whose digits come next, and the bytes behind its closing bracket. -/
def parseHex (bytes : Bytes) : Option (Text × Bytes) :=
  (bytes.findIdx? fun byte => byte = 62).map fun offset =>
    (decodeLossy (hexBytes ((bytes.take offset).filterMap hexNibble)), bytes.drop (offset + 1))

theorem length_parseHex {bytes rest : Bytes} {value : Text}
    (parsed : parseHex bytes = some (value, rest)) : rest.length < bytes.length := by
  rw [parseHex, Option.map_eq_some_iff] at parsed
  rcases parsed with ⟨offset, found, same⟩
  have inside := (findIdx?_eq_some_iff_findIdx_eq.mp found).1
  cases same
  rw [length_drop]
  omega

def pushPdfText (output value : Text) : Text :=
  let value := trim value
  if value.isEmpty then output
  else if output.isEmpty ∨ output.getLast? = some ' ' ∨ output.getLast? = some '\n' then
    output ++ value
  else output ++ ' ' :: value

def extractTextSection (output : Text) : Bytes → Text
  | [] => output
  | byte :: rest =>
      if byte = 40 then
        match _parsed : parseLiteralFrom 1 [] rest with
        | some (value, after) => extractTextSection (pushPdfText output (decodeLossy value)) after
        | none => extractTextSection output rest
      else if byte = 60 ∧ rest.head? ≠ some 60 then
        match _parsed : parseHex rest with
        | some (value, after) => extractTextSection (pushPdfText output value) after
        | none => extractTextSection output rest
      else if byte = 39 ∨ byte = 34 then extractTextSection (output ++ ['\n']) rest
      else extractTextSection output rest
termination_by bytes => bytes.length
decreasing_by
  · have shorter := length_parseLiteralFrom _parsed
    simp only [length_cons]
    omega
  · simp
  · have shorter := length_parseHex _parsed
    simp only [length_cons]
    omega
  · simp
  · simp
  · simp

def extractTextStream (output : Text) (bytes : Bytes) : Text :=
  match _begins : Finding.find (bytesOf "BT") bytes with
  | none => output
  | some begin =>
      let text := bytes.drop (begin + 2)
      match Finding.find (bytesOf "ET") text with
      | none => output
      | some finish =>
          extractTextStream (extractTextSection output (text.take finish)) (text.drop (finish + 2))
termination_by bytes.length
decreasing_by
  have inside := (Finding.find_eq_some_iff.mp _begins).2.1.length_le
  simp only [bytesOf_BT, length_drop, length_cons, length_nil] at inside ⊢
  omega

end Strings

end Gfm.Content

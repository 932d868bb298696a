import Gfm.Lib.ByteOffsets
import Gfm.Lib.Joining
import Gfm.Text

/-!
# Text of structured files

The extractors of JSON and CSV text read their input once, character by character, and append one
token for each string, number, literal or cell. A token is trimmed, an empty one is left out, and
a budget of bytes cuts the text that the tokens make.

The control that a caller may interrupt the extractors with is the one that never does.
-/

namespace Gfm.Content

open ByteOffsets Joining List

/-- `char::is_whitespace`. -/
def isWhitespace (char : Char) : Bool :=
  let code := char.toNat
  code = 0x20 ∨ (0x9 ≤ code ∧ code ≤ 0xD) ∨ code = 0x85 ∨ code = 0xA0 ∨ code = 0x1680 ∨
    (0x2000 ≤ code ∧ code ≤ 0x200A) ∨ code = 0x2028 ∨ code = 0x2029 ∨ code = 0x202F ∨
    code = 0x205F ∨ code = 0x3000

def trim (text : Text) : Text := trimWith isWhitespace text

/-- `char::from_u32`. -/
def charFromU32 (code : Nat) : Option Char :=
  if valid : code.isValidChar then some (Char.ofNatAux code valid) else none

theorem dropWhile_sublist_dropWhile {drop : Char → Bool} {part whole : Text}
    (within : part.Sublist whole) : (part.dropWhile drop).Sublist (whole.dropWhile drop) := by
  induction within with
  | slnil => exact .slnil
  | cons char within ih =>
      rw [dropWhile_cons]
      split
      · exact ih
      · exact ((dropWhile_sublist drop).trans within).cons char
  | cons_cons char within ih =>
      rw [dropWhile_cons, dropWhile_cons]
      split
      · exact ih
      · exact within.cons_cons char

theorem trim_sublist_trim {part whole : Text} (within : part.Sublist whole) :
    (trim part).Sublist (trim whole) := by
  have front := @dropWhile_sublist_dropWhile isWhitespace _ _ within
  exact (dropWhile_sublist_dropWhile front.reverse).reverse

theorem countP_dropWhile {counted drop : Char → Bool}
    (uncounted : ∀ char, drop char = true → counted char = false) (text : Text) :
    (text.dropWhile drop).countP counted = text.countP counted := by
  induction text with
  | nil => rfl
  | cons char text ih =>
      rw [dropWhile_cons]
      split
      next dropped => rw [ih, countP_cons_of_neg (by simp [uncounted char dropped])]
      next => rfl

theorem countP_trim {counted : Char → Bool}
    (uncounted : ∀ char, isWhitespace char = true → counted char = false) (text : Text) :
    (trim text).countP counted = text.countP counted := by
  rw [trim, trimWith, List.rdropWhile, countP_reverse, countP_dropWhile uncounted,
    countP_reverse, countP_dropWhile uncounted]

section Model

variable (maxBytes : Nat)

def pushToken (output value : Text) : Text :=
  let value := trim value
  if value.isEmpty ∨ maxBytes ≤ byteLength output then output
  else
    let output := if output.isEmpty then output else output ++ [' ']
    let remaining := maxBytes - byteLength output
    if byteLength value ≤ remaining then output ++ value
    else output ++ sliceTo value (floorCharBoundary value remaining)

/-- The text of the tokens under a budget that they do not reach. -/
def spacedTokens (values : List Text) : Text := joined ' ' (values.map trim)

theorem trim_trim (text : Text) : trim (trim text) = trim text := trimWith_idem isWhitespace text

theorem trim_nil : trim [] = [] := rfl

theorem pushToken_trim (output value : Text) :
    pushToken maxBytes output (trim value) = pushToken maxBytes output value := by
  simp only [pushToken, trim_trim]

theorem pushToken_nil (output : Text) : pushToken maxBytes output [] = output := by
  simp [pushToken, trim_nil]

theorem pushToken_of_fits {output value : Text}
    (fits : byteLength (push ' ' output (trim value)) ≤ maxBytes) :
    pushToken maxBytes output value = push ' ' output (trim value) := by
  rcases eq_or_ne (trim value) [] with blank | present
  · simp [pushToken, blank]
  rcases eq_or_ne output [] with rfl | started
  · have positive : byteLength (trim value) ≠ 0 := by simpa [byteLength_eq_zero] using present
    rw [nil_push] at fits ⊢
    simp [pushToken, present, fits]
    omega
  · rw [push_of_ne_nil ' ' started present] at fits ⊢
    have space : Char.utf8Size ' ' = 1 := rfl
    simp only [byteLength_append, byteLength_cons, space] at fits
    have room : ¬maxBytes ≤ byteLength output := by omega
    have whole : byteLength (trim value) ≤ maxBytes - byteLength (output ++ [' ']) := by
      simp [space]
      omega
    simp only [pushToken, List.isEmpty_iff, present, started, room, whole, or_self, if_false,
      if_true, append_assoc, singleton_append]

theorem pushToken_of_full {output : Text} (full : maxBytes ≤ byteLength output) (value : Text) :
    pushToken maxBytes output value = output := by
  simp [pushToken, full]

/-- Tokens that the budget holds make the text that no budget cuts. -/
theorem foldl_pushToken {output : Text} {values : List Text}
    (fits : byteLength (push ' ' output (spacedTokens values)) ≤ maxBytes) :
    values.foldl (pushToken maxBytes) output = push ' ' output (spacedTokens values) := by
  induction values generalizing output with
  | nil => simp [spacedTokens]
  | cons value values ih =>
      have split : push ' ' output (spacedTokens (value :: values)) =
          push ' ' (push ' ' output (trim value)) (spacedTokens values) := by
        rw [spacedTokens, map_cons, joined_cons, push_assoc]
        rfl
      rw [split] at fits ⊢
      have first : byteLength (push ' ' output (trim value)) ≤ maxBytes :=
        (byteLength_le_of_sublist sublist_push).trans fits
      rw [foldl_cons, pushToken_of_fits maxBytes first]
      exact ih fits

def hexDigitValue (char : Char) : Option Nat :=
  let code := char.toNat
  if 48 ≤ code ∧ code ≤ 57 then some (code - 48)
  else if 97 ≤ code ∧ code ≤ 102 then some (code - 87)
  else if 65 ≤ code ∧ code ≤ 70 then some (code - 55)
  else none

def pushHexDigit (value : Nat) (char : Char) : Option Nat :=
  (hexDigitValue char).map fun digit => 16 * value + digit

/-- `u32::from_str_radix(code, 16)` of a code that is too short to overflow. -/
def fromHex (code : Text) : Option Nat :=
  match code with
  | [] => none
  | ['+'] => none
  | '+' :: digits => digits.foldlM pushHexDigit 0
  | digits => digits.foldlM pushHexDigit 0

def jsonEscape (escape : Char) : Char :=
  if escape ∈ ['b', 'f', 'n', 'r', 't'] then ' ' else escape

def jsonCode (code : Text) : Text := ((fromHex code).bind charFromU32).toList

/-- The value of the string so far and the characters after the opening quote; the result is the
whole value and the characters that the string leaves. -/
def parseJsonString : Text → Text → Text × Text
  | value, [] => (value, [])
  | value, '"' :: chars => (value, chars)
  | value, '\\' :: 'u' :: first :: second :: third :: fourth :: chars =>
      parseJsonString (value ++ jsonCode [first, second, third, fourth]) chars
  -- the input ends within the four characters of the code
  | value, '\\' :: 'u' :: code => (value ++ jsonCode code, [])
  | value, '\\' :: escape :: chars => parseJsonString (value ++ [jsonEscape escape]) chars
  | value, ['\\'] => (value, [])
  | value, other :: chars => parseJsonString (value ++ [other]) chars

def isNumberStart (char : Char) : Bool := char = '-' ∨ char.isDigit

def isNumberChar (char : Char) : Bool := char.isDigit ∨ char ∈ ['.', 'e', 'E', '+', '-']

def isLiteralStart (char : Char) : Bool := char ∈ ['t', 'f', 'n']

def isJsonLiteral (value : Text) : Bool :=
  value = ['t', 'r', 'u', 'e'] ∨ value = ['f', 'a', 'l', 's', 'e'] ∨ value = ['n', 'u', 'l', 'l']

/-- What one step of the JSON extractor makes of the output, and the characters it leaves. -/
def jsonStep (output : Text) (char : Char) (chars : Text) : Text × Text :=
  if char = '"' then
    let (value, rest) := parseJsonString [] chars
    (pushToken maxBytes output value, rest)
  else if isNumberStart char then
    (pushToken maxBytes output (char :: chars.takeWhile isNumberChar),
      chars.dropWhile isNumberChar)
  else if isLiteralStart char then
    let value := char :: chars.takeWhile Char.isAlpha
    (if isJsonLiteral value then pushToken maxBytes output value else output,
      chars.dropWhile Char.isAlpha)
  else (output, chars)

theorem length_parseJsonString (value chars : Text) :
    (parseJsonString value chars).2.length ≤ chars.length := by
  fun_induction parseJsonString value chars <;> simp_all <;> omega

theorem length_jsonStep (output : Text) (char : Char) (chars : Text) :
    (jsonStep maxBytes output char chars).2.length ≤ chars.length := by
  rw [jsonStep]
  split
  · exact length_parseJsonString [] chars
  · split
    · exact (dropWhile_suffix isNumberChar).length_le
    · split
      · exact (dropWhile_suffix Char.isAlpha).length_le
      · exact le_rfl

def extractJsonLoop (output : Text) : Text → Text
  | [] => output
  | char :: chars =>
      let step := jsonStep maxBytes output char chars
      if maxBytes ≤ byteLength step.1 then step.1 else extractJsonLoop step.1 step.2
termination_by chars => chars.length
decreasing_by
  have shorter := length_jsonStep maxBytes output char chars
  simp only [length_cons]
  omega

def extractJsonText (input : Text) : Text := extractJsonLoop maxBytes [] input

structure CsvScan where
  output : Text
  field : Text
  inQuotes : Bool

def CsvScan.pushChar (scan : CsvScan) (char : Char) : CsvScan :=
  { scan with field := scan.field ++ [char] }

def CsvScan.pushField (scan : CsvScan) : CsvScan :=
  { scan with output := pushToken maxBytes scan.output (trim scan.field), field := [] }

def CsvScan.full (scan : CsvScan) : Bool := maxBytes ≤ byteLength scan.output

/-- One character that is not the first quote of a doubled one. -/
def csvStep (scan : CsvScan) (char : Char) : CsvScan :=
  if char = '"' then { scan with inQuotes := !scan.inQuotes }
  else if char ∈ [',', '\n', '\r'] ∧ scan.inQuotes = false then scan.pushField maxBytes
  else scan.pushChar char

def extractCsvLoop (scan : CsvScan) : Text → CsvScan
  | [] => scan
  | '"' :: '"' :: chars =>
      if scan.inQuotes then
        if (scan.pushChar '"').full maxBytes then scan.pushChar '"'
        else extractCsvLoop (scan.pushChar '"') chars
      else if (csvStep maxBytes scan '"').full maxBytes then csvStep maxBytes scan '"'
      else extractCsvLoop (csvStep maxBytes scan '"') ('"' :: chars)
  | char :: chars =>
      if (csvStep maxBytes scan char).full maxBytes then csvStep maxBytes scan char
      else extractCsvLoop (csvStep maxBytes scan char) chars

def extractCsvText (input : Text) : Text :=
  let scan := extractCsvLoop maxBytes ⟨[], [], false⟩ input
  pushToken maxBytes scan.output (trim scan.field)

end Model

end Gfm.Content

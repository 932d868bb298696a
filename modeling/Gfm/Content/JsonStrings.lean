import Gfm.Content.Structured

/-!
# JSON strings

A JSON string spells each of its characters raw, by a short escape, by the code of a `\u` escape
or, above U+FFFF, by the two codes of a surrogate pair. The reader of the source decodes every
`\u` escape by itself, and neither half of a pair is a character: it reads each spelling but
these.
-/

namespace Gfm.Content

open List

section Spellings

structure JsonHexDigit where
  value : Fin 16
  upper : Bool

def JsonHexDigit.written (digit : JsonHexDigit) : Char :=
  if digit.value.val < 10 then Char.ofNat (48 + digit.value)
  else if digit.upper then Char.ofNat (55 + digit.value)
  else Char.ofNat (87 + digit.value)

structure JsonQuad where
  first : JsonHexDigit
  second : JsonHexDigit
  third : JsonHexDigit
  fourth : JsonHexDigit

namespace JsonQuad

def written (quad : JsonQuad) : Text :=
  [quad.first.written, quad.second.written, quad.third.written, quad.fourth.written]

def code (quad : JsonQuad) : Nat :=
  16 * (16 * (16 * quad.first.value + quad.second.value) + quad.third.value) + quad.fourth.value

end JsonQuad

inductive JsonEscape where
  | quote
  | backslash
  | slash
  | backspace
  | formFeed
  | lineFeed
  | carriageReturn
  | tab

def JsonEscape.written : JsonEscape → Char
  | .quote => '"'
  | .backslash => '\\'
  | .slash => '/'
  | .backspace => 'b'
  | .formFeed => 'f'
  | .lineFeed => 'n'
  | .carriageReturn => 'r'
  | .tab => 't'

/-- The character of the escape; those that only move the cursor are shown as a space. -/
def JsonEscape.shown : JsonEscape → Char
  | .quote => '"'
  | .backslash => '\\'
  | .slash => '/'
  | _ => ' '

inductive JsonSpelling where
  | raw (char : Char) (plain : char ≠ '"' ∧ char ≠ '\\' ∧ 0x20 ≤ char.toNat)
  | short (escape : JsonEscape)
  | unit (quad : JsonQuad) (scalar : quad.code.isValidChar)
  | pair (high low : JsonQuad) (isHigh : 0xD800 ≤ high.code ∧ high.code < 0xDC00)
      (isLow : 0xDC00 ≤ low.code ∧ low.code < 0xE000)

namespace JsonSpelling

def written : JsonSpelling → Text
  | raw char _ => [char]
  | short escape => ['\\', escape.written]
  | unit quad _ => '\\' :: 'u' :: quad.written
  | pair high low _ _ => '\\' :: 'u' :: high.written ++ '\\' :: 'u' :: low.written

def pairCode (high low : Nat) : Nat := 0x10000 + ((high - 0xD800) * 0x400 + (low - 0xDC00))

/-- The character that is spelled. -/
def shown : JsonSpelling → Char
  | raw char _ => char
  | short escape => escape.shown
  | unit quad _ => Char.ofNat quad.code
  | pair high low _ _ => Char.ofNat (pairCode high.code low.code)

def isPair : JsonSpelling → Bool
  | pair .. => true
  | _ => false

end JsonSpelling

/-- What is spelled between two quotes. -/
def writeJsonString (spellings : List JsonSpelling) : Text :=
  spellings.flatMap JsonSpelling.written

def jsonShown (spellings : List JsonSpelling) : Text := spellings.map JsonSpelling.shown

end Spellings

section Reading

theorem hexDigitValue_written (digit : JsonHexDigit) :
    hexDigitValue digit.written = some digit.value.val := by
  rcases digit with ⟨value, upper⟩
  revert value upper
  decide

theorem written_ne_plus (digit : JsonHexDigit) : digit.written ≠ '+' := by
  rcases digit with ⟨value, upper⟩
  revert value upper
  decide

theorem fromHex_written (quad : JsonQuad) : fromHex quad.written = some quad.code := by
  have digits : quad.written.foldlM pushHexDigit 0 = some quad.code := by
    simp [JsonQuad.written, pushHexDigit, hexDigitValue_written, JsonQuad.code]
  have notPlus := written_ne_plus quad.first
  rw [← digits, JsonQuad.written, fromHex]
  · simp
  · simp [notPlus]
  · simp [notPlus]

theorem jsonCode_of_valid {quad : JsonQuad} (scalar : quad.code.isValidChar) :
    jsonCode quad.written = [Char.ofNat quad.code] := by
  simp [jsonCode, fromHex_written, charFromU32, scalar, Char.ofNat]

theorem jsonCode_of_surrogate {quad : JsonQuad} (surrogate : ¬quad.code.isValidChar) :
    jsonCode quad.written = [] := by
  simp [jsonCode, fromHex_written, charFromU32, surrogate]

theorem parseJsonString_unit (value : Text) (quad : JsonQuad) (chars : Text) :
    parseJsonString value ('\\' :: 'u' :: (quad.written ++ chars)) =
      parseJsonString (value ++ jsonCode quad.written) chars := by
  simp [JsonQuad.written, parseJsonString]

theorem parseJsonString_short (value : Text) (escape : JsonEscape) (chars : Text) :
    parseJsonString value ('\\' :: escape.written :: chars) =
      parseJsonString (value ++ [escape.shown]) chars := by
  cases escape <;>
    simp [JsonEscape.written, JsonEscape.shown, parseJsonString, jsonEscape]

/-- What the reader takes for a spelling: neither code of a pair is a character. -/
def JsonSpelling.read (spelling : JsonSpelling) : Text :=
  if spelling.isPair then [] else [spelling.shown]

theorem parseJsonString_written (value : Text) (spelling : JsonSpelling) (chars : Text) :
    parseJsonString value (spelling.written ++ chars) =
      parseJsonString (value ++ spelling.read) chars := by
  cases spelling with
  | raw char plain => simp [JsonSpelling.written, JsonSpelling.read, JsonSpelling.isPair,
      JsonSpelling.shown, parseJsonString, plain]
  | short escape => exact parseJsonString_short value escape chars
  | unit quad scalar =>
      rw [JsonSpelling.written, cons_append, cons_append, parseJsonString_unit,
        jsonCode_of_valid scalar]
      rfl
  | pair high low isHigh isLow =>
      have highHalf : ¬high.code.isValidChar := by
        simp only [Nat.isValidChar]
        omega
      have lowHalf : ¬low.code.isValidChar := by
        simp only [Nat.isValidChar]
        omega
      simp only [JsonSpelling.written, cons_append, append_assoc]
      rw [parseJsonString_unit, parseJsonString_unit, jsonCode_of_surrogate highHalf,
        jsonCode_of_surrogate lowHalf]
      simp [JsonSpelling.read, JsonSpelling.isPair]

def jsonRead (spellings : List JsonSpelling) : Text := spellings.flatMap JsonSpelling.read

theorem parseJsonString_writeJsonString (spellings : List JsonSpelling) (chars : Text) :
    parseJsonString [] (writeJsonString spellings ++ '"' :: chars) =
      (jsonRead spellings, chars) := by
  have run : ∀ value, parseJsonString value (writeJsonString spellings ++ '"' :: chars) =
      (value ++ jsonRead spellings, chars) := by
    induction spellings with
    | nil => simp [writeJsonString, jsonRead, parseJsonString]
    | cons spelling spellings ih =>
        intro value
        rw [writeJsonString, flatMap_cons, append_assoc, parseJsonString_written]
        exact (ih _).trans (by simp [jsonRead])
  simpa using run []

theorem jsonRead_sublist (spellings : List JsonSpelling) :
    (jsonRead spellings).Sublist (jsonShown spellings) := by
  induction spellings with
  | nil => simp [jsonRead, jsonShown]
  | cons spelling spellings ih =>
      rw [jsonRead, flatMap_cons, JsonSpelling.read]
      split
      · exact ih.trans (sublist_cons_self _ _)
      · exact ih.cons_cons _

def beyondBmp (char : Char) : Bool := 0xFFFF < char.toNat

theorem beyondBmp_of_pair {high low : Nat} (isHigh : 0xD800 ≤ high ∧ high < 0xDC00)
    (isLow : 0xDC00 ≤ low ∧ low < 0xE000) :
    beyondBmp (Char.ofNat (JsonSpelling.pairCode high low)) = true := by
  have beyond : 0xFFFF < JsonSpelling.pairCode high low := by
    unfold JsonSpelling.pairCode
    omega
  have last : JsonSpelling.pairCode high low < 0x110000 := by
    unfold JsonSpelling.pairCode
    omega
  have valid : (JsonSpelling.pairCode high low).isValidChar := Or.inr ⟨by omega, last⟩
  rw [beyondBmp, Char.toNat_ofNat, if_pos valid]
  simpa using beyond

/-- Each surrogate pair costs the string one character beyond U+FFFF. -/
theorem countP_jsonRead (spellings : List JsonSpelling) :
    (jsonRead spellings).countP beyondBmp + spellings.countP JsonSpelling.isPair =
      (jsonShown spellings).countP beyondBmp := by
  induction spellings with
  | nil => rfl
  | cons spelling spellings ih =>
      simp only [jsonRead, jsonShown, flatMap_cons, map_cons] at ih ⊢
      cases spelling with
      | pair high low isHigh isLow =>
          have beyond := beyondBmp_of_pair isHigh isLow
          simp only [JsonSpelling.read, JsonSpelling.isPair, if_true, nil_append,
            countP_cons, JsonSpelling.shown, beyond]
          omega
      | raw | short | unit =>
          simp only [JsonSpelling.read, JsonSpelling.isPair, Bool.false_eq_true, if_false,
            singleton_append, countP_cons]
          omega

/-- The reader gives back the string that is spelled, unless a spelling is a surrogate pair. -/
theorem jsonRead_eq_iff {spellings : List JsonSpelling} :
    jsonRead spellings = jsonShown spellings ↔
      ∀ spelling ∈ spellings, spelling.isPair = false := by
  have counts := countP_jsonRead spellings
  constructor
  · intro same
    rw [same] at counts
    have none : spellings.countP JsonSpelling.isPair = 0 := by omega
    simpa [countP_eq_zero] using none
  · intro noPair
    rw [jsonRead, jsonShown, map_eq_flatMap]
    apply flatMap_congr
    intro spelling member
    simp [JsonSpelling.read, noPair spelling member]

end Reading

end Gfm.Content

import Gfm.Content.JsonStrings

/-!
# JSON documents

A document is a sequence of tokens that the grammar of JSON derives, with white space wherever the
grammar lets it stand. The extractor does not know the grammar: it reads token after token, and
takes a number or a literal up to the first character that cannot continue it. A derived sequence
always has such a character there, so that the extractor shows each token of the document.
-/

namespace Gfm.Content

open ByteOffsets Joining List

section Grammar

inductive JsonSpace where
  | space
  | tab
  | lineFeed
  | carriageReturn

def JsonSpace.written : JsonSpace → Char
  | .space => ' '
  | .tab => '\t'
  | .lineFeed => '\n'
  | .carriageReturn => '\r'

inductive JsonMark where
  | openArray
  | closeArray
  | openObject
  | closeObject
  | comma
  | colon

def JsonMark.written : JsonMark → Char
  | .openArray => '['
  | .closeArray => ']'
  | .openObject => '\x7b'
  | .closeObject => '\x7d'
  | .comma => ','
  | .colon => ':'

inductive JsonLiteral where
  | isTrue
  | isFalse
  | null

def JsonLiteral.written : JsonLiteral → Text
  | .isTrue => ['t', 'r', 'u', 'e']
  | .isFalse => ['f', 'a', 'l', 's', 'e']
  | .null => ['n', 'u', 'l', 'l']

def jsonDigits (digits : List (Fin 10)) : Text :=
  digits.map fun digit => Char.ofNat (48 + digit.val)

structure JsonExponent where
  upper : Bool
  sign : Option Bool
  digits : List (Fin 10)
  nonempty : digits ≠ []

def JsonExponent.written (exponent : JsonExponent) : Text :=
  (if exponent.upper then 'E' else 'e') ::
    ((exponent.sign.map fun negative => if negative then '-' else '+').toList ++
      jsonDigits exponent.digits)

/-- A fraction without digits is one that is not there. -/
structure JsonNumber where
  negative : Bool
  leading : Fin 10
  whole : List (Fin 10)
  noLeadingZero : leading = 0 → whole = []
  fraction : List (Fin 10)
  exponent : Option JsonExponent

def JsonNumber.magnitude (number : JsonNumber) : Text :=
  jsonDigits (number.leading :: number.whole) ++
    ((if number.fraction.isEmpty then [] else '.' :: jsonDigits number.fraction) ++
      (number.exponent.map JsonExponent.written).getD [])

def JsonNumber.written (number : JsonNumber) : Text :=
  if number.negative then '-' :: number.magnitude else number.magnitude

inductive JsonToken where
  | space (char : JsonSpace)
  | mark (char : JsonMark)
  | literal (value : JsonLiteral)
  | number (value : JsonNumber)
  | string (spellings : List JsonSpelling)

namespace JsonToken

def written : JsonToken → Text
  | space char => [char.written]
  | mark char => [char.written]
  | literal value => value.written
  | number value => value.written
  | string spellings => '"' :: (writeJsonString spellings ++ ['"'])

/-- What the text of a document shows of a token. -/
def shown : JsonToken → Option Text
  | space _ => none
  | mark _ => none
  | literal value => some value.written
  | number value => some value.written
  | string spellings => some (jsonShown spellings)

end JsonToken

def writeJson (tokens : List JsonToken) : Text := tokens.flatMap JsonToken.written

def jsonSpaces (chars : List JsonSpace) : List JsonToken := chars.map JsonToken.space

inductive JsonCategory where
  | value
  | element
  | elements
  | member
  | members

inductive JsonDerives : JsonCategory → List JsonToken → Prop where
  | literal (value : JsonLiteral) : JsonDerives .value [.literal value]
  | number (value : JsonNumber) : JsonDerives .value [.number value]
  | string (spellings : List JsonSpelling) : JsonDerives .value [.string spellings]
  | emptyArray (inner : List JsonSpace) :
      JsonDerives .value (.mark .openArray :: (jsonSpaces inner ++ [.mark .closeArray]))
  | array {inner : List JsonToken} (elements : JsonDerives .elements inner) :
      JsonDerives .value (.mark .openArray :: (inner ++ [.mark .closeArray]))
  | emptyObject (inner : List JsonSpace) :
      JsonDerives .value (.mark .openObject :: (jsonSpaces inner ++ [.mark .closeObject]))
  | object {inner : List JsonToken} (members : JsonDerives .members inner) :
      JsonDerives .value (.mark .openObject :: (inner ++ [.mark .closeObject]))
  | element (before : List JsonSpace) {value : List JsonToken} (derived : JsonDerives .value value)
      (after : List JsonSpace) :
      JsonDerives .element (jsonSpaces before ++ (value ++ jsonSpaces after))
  | lastElement {last : List JsonToken} (derived : JsonDerives .element last) :
      JsonDerives .elements last
  | moreElements {first rest : List JsonToken} (derived : JsonDerives .element first)
      (others : JsonDerives .elements rest) :
      JsonDerives .elements (first ++ .mark .comma :: rest)
  | member (before : List JsonSpace) (key : List JsonSpelling) (between : List JsonSpace)
      {value : List JsonToken} (derived : JsonDerives .element value) :
      JsonDerives .member
        (jsonSpaces before ++ .string key :: (jsonSpaces between ++ .mark .colon :: value))
  | lastMember {last : List JsonToken} (derived : JsonDerives .member last) :
      JsonDerives .members last
  | moreMembers {first rest : List JsonToken} (derived : JsonDerives .member first)
      (others : JsonDerives .members rest) :
      JsonDerives .members (first ++ .mark .comma :: rest)

structure JsonDocument where
  tokens : List JsonToken
  derived : JsonDerives .element tokens

end Grammar

section Extraction

variable {maxBytes : Nat}

def JsonToken.pairs : JsonToken → Nat
  | .string spellings => spellings.countP JsonSpelling.isPair
  | _ => 0

/-- What the extractor takes for a token. -/
def JsonToken.read : JsonToken → Option Text
  | .string spellings => some (jsonRead spellings)
  | token => token.shown

theorem jsonStep_of_full {output : Text} (full : maxBytes ≤ byteLength output) (char : Char)
    (chars : Text) : (jsonStep maxBytes output char chars).1 = output := by
  have kept := pushToken_of_full maxBytes full
  simp only [jsonStep, kept]
  split
  · rfl
  · split
    · rfl
    · split <;> simp

theorem extractJsonLoop_of_full {output : Text} (full : maxBytes ≤ byteLength output)
    (chars : Text) : extractJsonLoop maxBytes output chars = output := by
  cases chars with
  | nil => rw [extractJsonLoop]
  | cons char chars =>
      have step := jsonStep_of_full full char chars
      rw [extractJsonLoop]
      simp only [step, full, if_true]

/-- The loop ends early only where the rest of the input no longer counts. -/
theorem extractJsonLoop_cons (output : Text) (char : Char) (chars : Text) :
    extractJsonLoop maxBytes output (char :: chars) =
      extractJsonLoop maxBytes (jsonStep maxBytes output char chars).1
        (jsonStep maxBytes output char chars).2 := by
  rw [extractJsonLoop]
  split
  next full => exact (extractJsonLoop_of_full full _).symm
  next => rfl

/-- The next character ends the number or the literal before it. -/
def Delimited (chars : Text) : Prop :=
  ∀ char ∈ chars.head?, isNumberChar char = false ∧ char.isAlpha = false

theorem takeWhile_append_of_all {keep : Char → Bool} {word chars : Text}
    (all : ∀ char ∈ word, keep char = true) (ends : ∀ char ∈ chars.head?, keep char = false) :
    (word ++ chars).takeWhile keep = word ∧ (word ++ chars).dropWhile keep = chars := by
  have stopped : chars.takeWhile keep = [] ∧ chars.dropWhile keep = chars := by
    cases chars with
    | nil => simp
    | cons char chars => simp [ends char (by simp)]
  rw [takeWhile_append_of_pos all, dropWhile_append_of_pos all]
  simp [stopped]

theorem loop_space (output : Text) (char : JsonSpace) (chars : Text) :
    extractJsonLoop maxBytes output (char.written :: chars) =
      extractJsonLoop maxBytes output chars := by
  rw [extractJsonLoop_cons]
  cases char <;> rfl

theorem loop_mark (output : Text) (char : JsonMark) (chars : Text) :
    extractJsonLoop maxBytes output (char.written :: chars) =
      extractJsonLoop maxBytes output chars := by
  rw [extractJsonLoop_cons]
  cases char <;> rfl

theorem loop_string (output : Text) (spellings : List JsonSpelling) (chars : Text) :
    extractJsonLoop maxBytes output ('"' :: (writeJsonString spellings ++ '"' :: chars)) =
      extractJsonLoop maxBytes (pushToken maxBytes output (jsonRead spellings)) chars := by
  rw [extractJsonLoop_cons, jsonStep, if_pos rfl, parseJsonString_writeJsonString]

theorem loop_literal (output : Text) (literal : JsonLiteral) {chars : Text}
    (delimited : Delimited chars) :
    extractJsonLoop maxBytes output (literal.written ++ chars) =
      extractJsonLoop maxBytes (pushToken maxBytes output literal.written) chars := by
  obtain ⟨first, rest, writtenEq, starts, letters, known⟩ : ∃ first rest,
      literal.written = first :: rest ∧
        (first ≠ '"' ∧ isNumberStart first = false ∧ isLiteralStart first = true) ∧
        rest.all Char.isAlpha = true ∧ isJsonLiteral literal.written = true := by
    cases literal <;> exact ⟨_, _, rfl, ⟨by simp, rfl, rfl⟩, rfl, rfl⟩
  have ends : ∀ char ∈ chars.head?, char.isAlpha = false := fun char member =>
    (delimited char member).2
  have word := takeWhile_append_of_all (all_eq_true.mp letters) ends
  rw [writtenEq] at known ⊢
  rw [cons_append, extractJsonLoop_cons]
  simp [jsonStep, starts, word, known]

theorem isNumberChar_jsonDigits {digits : List (Fin 10)} :
    ∀ char ∈ jsonDigits digits, isNumberChar char = true := by
  intro char member
  obtain ⟨digit, listed, rfl⟩ := mem_map.mp member
  clear listed member
  revert digit
  decide

theorem isNumberChar_exponent (exponent : JsonExponent) :
    ∀ char ∈ exponent.written, isNumberChar char = true := by
  rw [JsonExponent.written, forall_mem_cons, forall_mem_append]
  refine ⟨?_, ?_, isNumberChar_jsonDigits⟩
  · cases exponent.upper <;> rfl
  · rcases exponent.sign with none | negative
    · simp
    · cases negative <;> simp [isNumberChar]

/-- A number starts with a sign or a digit and holds nothing that would end it. -/
theorem number_written (number : JsonNumber) :
    ∃ first rest, number.written = first :: rest ∧ isNumberStart first = true ∧
      ∀ char ∈ rest, isNumberChar char = true := by
  have fraction : ∀ char ∈ (if number.fraction.isEmpty then []
      else '.' :: jsonDigits number.fraction), isNumberChar char = true := by
    split
    · simp
    · rw [forall_mem_cons]
      exact ⟨by decide, isNumberChar_jsonDigits⟩
  have exponent : ∀ char ∈ (number.exponent.map JsonExponent.written).getD [],
      isNumberChar char = true := by
    rcases number.exponent with none | exponent
    · simp
    · exact isNumberChar_exponent exponent
  have magnitude : ∀ char ∈ number.magnitude, isNumberChar char = true := by
    rw [JsonNumber.magnitude, forall_mem_append, forall_mem_append]
    exact ⟨isNumberChar_jsonDigits, fraction, exponent⟩
  rw [JsonNumber.written]
  split
  · exact ⟨'-', _, rfl, by decide, magnitude⟩
  · refine ⟨Char.ofNat (48 + number.leading.val), _, rfl, ?_, ?_⟩
    · generalize number.leading = digit
      revert digit
      decide
    · intro char member
      exact magnitude char (mem_cons_of_mem _ member)

theorem loop_number (output : Text) (number : JsonNumber) {chars : Text}
    (delimited : Delimited chars) :
    extractJsonLoop maxBytes output (number.written ++ chars) =
      extractJsonLoop maxBytes (pushToken maxBytes output number.written) chars := by
  rcases number_written number with ⟨first, rest, writtenEq, starts, inside⟩
  have ends : ∀ char ∈ chars.head?, isNumberChar char = false := fun char member =>
    (delimited char member).1
  have word := takeWhile_append_of_all inside ends
  have notQuote : first ≠ '"' := by
    rintro rfl
    exact absurd starts (by decide)
  rw [writtenEq, cons_append, extractJsonLoop_cons]
  simp [jsonStep, notQuote, starts, word]

def pushTokens (maxBytes : Nat) (output : Text) (tokens : List JsonToken) : Text :=
  (tokens.filterMap JsonToken.read).foldl (pushToken maxBytes) output

/-- The extractor reads the tokens as a whole, up to a character that ends the last one. -/
def Runs (maxBytes : Nat) (tokens : List JsonToken) : Prop :=
  ∀ output chars, Delimited chars →
    extractJsonLoop maxBytes output (writeJson tokens ++ chars) =
      extractJsonLoop maxBytes (pushTokens maxBytes output tokens) chars

theorem loop_spaces (output : Text) (spaces : List JsonSpace) (chars : Text) :
    extractJsonLoop maxBytes output (writeJson (jsonSpaces spaces) ++ chars) =
      extractJsonLoop maxBytes output chars := by
  induction spaces with
  | nil => rfl
  | cons char spaces ih =>
      have step := @loop_space maxBytes output char
        (writeJson (jsonSpaces spaces) ++ chars)
      exact step.trans ih

theorem delimited_mark (char : JsonMark) (chars : Text) : Delimited (char.written :: chars) := by
  cases char <;> simp [Delimited] <;> decide

theorem delimited_spaces (spaces : List JsonSpace) {chars : Text} (delimited : Delimited chars) :
    Delimited (writeJson (jsonSpaces spaces) ++ chars) := by
  cases spaces with
  | nil => exact delimited
  | cons char spaces =>
      have ends : isNumberChar char.written = false ∧ char.written.isAlpha = false := by
        cases char <;> decide
      simpa [Delimited, writeJson, jsonSpaces, JsonToken.written] using ends

@[simp]
theorem pushTokens_nil (output : Text) : pushTokens maxBytes output [] = output := rfl

@[simp]
theorem pushTokens_append (output : Text) (left right : List JsonToken) :
    pushTokens maxBytes output (left ++ right) =
      pushTokens maxBytes (pushTokens maxBytes output left) right := by
  simp [pushTokens]

@[simp]
theorem pushTokens_spaces (output : Text) (spaces : List JsonSpace) :
    pushTokens maxBytes output (jsonSpaces spaces) = output := by
  induction spaces with
  | nil => rfl
  | cons char spaces ih => exact ih

@[simp]
theorem pushTokens_mark (output : Text) (char : JsonMark) (tokens : List JsonToken) :
    pushTokens maxBytes output (.mark char :: tokens) = pushTokens maxBytes output tokens := rfl

@[simp]
theorem pushTokens_string (output : Text) (spellings : List JsonSpelling)
    (tokens : List JsonToken) :
    pushTokens maxBytes output (.string spellings :: tokens) =
      pushTokens maxBytes (pushToken maxBytes output (jsonRead spellings)) tokens := rfl

theorem writeJson_append (left right : List JsonToken) :
    writeJson (left ++ right) = writeJson left ++ writeJson right := flatMap_append

theorem writeJson_mark (char : JsonMark) (tokens : List JsonToken) :
    writeJson (.mark char :: tokens) = char.written :: writeJson tokens := rfl

theorem writeJson_string (spellings : List JsonSpelling) (tokens : List JsonToken) (chars : Text) :
    writeJson (.string spellings :: tokens) ++ chars =
      '"' :: (writeJsonString spellings ++ '"' :: (writeJson tokens ++ chars)) := by
  simp [writeJson, JsonToken.written]

namespace Runs

variable {first rest inner : List JsonToken}

/-- A mark ends what is before it. -/
theorem append_mark (runs : Runs maxBytes first) (char : JsonMark) (others : Runs maxBytes rest) :
    Runs maxBytes (first ++ .mark char :: rest) := by
  intro output chars delimited
  rw [writeJson_append, append_assoc, writeJson_mark, cons_append,
    runs _ _ (delimited_mark char _), loop_mark, others _ _ delimited, pushTokens_append,
    pushTokens_mark]

theorem enclosed (opening closing : JsonMark) (runs : Runs maxBytes inner) :
    Runs maxBytes (.mark opening :: (inner ++ [.mark closing])) := by
  have nothing : Runs maxBytes [] := fun _ _ _ => rfl
  exact nothing.append_mark opening (runs.append_mark closing nothing)

theorem spaces (chars : List JsonSpace) : Runs maxBytes (jsonSpaces chars) := by
  intro output rest _
  rw [loop_spaces, pushTokens_spaces]

theorem spaced (before : List JsonSpace) (runs : Runs maxBytes inner) (after : List JsonSpace) :
    Runs maxBytes (jsonSpaces before ++ (inner ++ jsonSpaces after)) := by
  intro output chars delimited
  rw [writeJson_append, writeJson_append, append_assoc, append_assoc, loop_spaces,
    runs _ _ (delimited_spaces after delimited), loop_spaces, pushTokens_append,
    pushTokens_append, pushTokens_spaces, pushTokens_spaces]

theorem string (spellings : List JsonSpelling) : Runs maxBytes [.string spellings] := by
  intro output chars _
  rw [writeJson_string, loop_string]
  rfl

end Runs

theorem runs_derived {category : JsonCategory} {tokens : List JsonToken}
    (derived : JsonDerives category tokens) : Runs maxBytes tokens := by
  induction derived with
  | literal value =>
      intro output chars delimited
      rw [writeJson, flatMap_singleton, JsonToken.written, loop_literal output value delimited]
      rfl
  | number value =>
      intro output chars delimited
      rw [writeJson, flatMap_singleton, JsonToken.written, loop_number output value delimited]
      rfl
  | string spellings => exact Runs.string spellings
  | emptyArray inner => exact (Runs.spaces inner).enclosed _ _
  | array _ ih => exact ih.enclosed _ _
  | emptyObject inner => exact (Runs.spaces inner).enclosed _ _
  | object _ ih => exact ih.enclosed _ _
  | element before _ after ih => exact ih.spaced before after
  | lastElement _ ih => exact ih
  | moreElements _ _ ih ihRest => exact ih.append_mark _ ihRest
  | member before key between _ ih =>
      intro output chars delimited
      rw [writeJson_append, append_assoc, loop_spaces, writeJson_string, loop_string,
        ((Runs.spaces between).append_mark .colon ih) _ _ delimited]
      simp
  | lastMember _ ih => exact ih
  | moreMembers _ _ ih ihRest => exact ih.append_mark _ ihRest

end Extraction

section Documents

variable {maxBytes : Nat}

namespace JsonDocument

def written (document : JsonDocument) : Text := writeJson document.tokens

/-- The keys, strings, numbers and literals of the document, in order. -/
def values (document : JsonDocument) : List Text := document.tokens.filterMap JsonToken.shown

def readValues (document : JsonDocument) : List Text := document.tokens.filterMap JsonToken.read

/-- No string of the document spells a character by a surrogate pair. -/
def Unpaired (document : JsonDocument) : Prop :=
  ∀ spellings, .string spellings ∈ document.tokens →
    ∀ spelling ∈ spellings, spelling.isPair = false

end JsonDocument

theorem beyondBmp_of_isWhitespace (char : Char) (blank : isWhitespace char = true) :
    beyondBmp char = false := by
  simp only [isWhitespace, decide_eq_true_eq] at blank
  simp only [beyondBmp, decide_eq_false_iff_not]
  omega

theorem read_sublist_shown (tokens : List JsonToken) :
    List.Forall₂ List.Sublist ((tokens.filterMap JsonToken.read).map trim)
      ((tokens.filterMap JsonToken.shown).map trim) := by
  induction tokens with
  | nil => exact .nil
  | cons token tokens ih =>
      cases token with
      | space | mark => exact ih
      | literal | number => exact .cons (List.Sublist.refl _) ih
      | string spellings => exact .cons (trim_sublist_trim (jsonRead_sublist spellings)) ih

/-- Each surrogate pair of the document costs its text one character beyond U+FFFF. -/
theorem countP_spacedTokens (tokens : List JsonToken) :
    (spacedTokens (tokens.filterMap JsonToken.read)).countP beyondBmp +
        (tokens.map JsonToken.pairs).sum =
      (spacedTokens (tokens.filterMap JsonToken.shown)).countP beyondBmp := by
  have space : beyondBmp ' ' = false := rfl
  simp only [spacedTokens, countP_joined space]
  induction tokens with
  | nil => rfl
  | cons token tokens ih =>
      cases token with
      | space | mark | literal | number =>
          simp only [JsonToken.read, JsonToken.shown, JsonToken.pairs, filterMap_cons,
            map_cons, sum_cons] at ih ⊢
          omega
      | string spellings =>
          have counts := countP_jsonRead spellings
          simp only [JsonToken.read, JsonToken.shown, JsonToken.pairs, filterMap_cons,
            map_cons, sum_cons, countP_trim beyondBmp_of_isWhitespace] at ih ⊢
          omega

theorem extractJsonText_written (document : JsonDocument)
    (fits : byteLength (spacedTokens document.values) ≤ maxBytes) :
    extractJsonText maxBytes document.written = spacedTokens document.readValues := by
  have run := @runs_derived maxBytes _ _ document.derived [] [] (by simp [Delimited])
  have within := byteLength_le_of_sublist
    (@joined_sublist_joined _ ' ' _ _ (read_sublist_shown document.tokens))
  rw [append_nil] at run
  rw [extractJsonText, JsonDocument.written, run, pushTokens, foldl_pushToken, extractJsonLoop]
  · simp [JsonDocument.readValues]
  · rw [nil_push]
    exact within.trans fits

theorem extractJsonText_eq_iff {document : JsonDocument}
    (fits : byteLength (spacedTokens document.values) ≤ maxBytes) :
    extractJsonText maxBytes document.written = spacedTokens document.values ↔
      document.Unpaired := by
  have counts := countP_spacedTokens document.tokens
  rw [extractJsonText_written document fits]
  constructor
  · intro same spellings member
    rw [JsonDocument.readValues] at same
    rw [same, JsonDocument.values] at counts
    have none : (document.tokens.map JsonToken.pairs).sum = 0 := by omega
    have here := sum_eq_zero_iff.mp none (JsonToken.pairs (.string spellings))
      (mem_map_of_mem member)
    simpa [JsonToken.pairs, countP_eq_zero] using here
  · intro unpaired
    rw [JsonDocument.readValues, JsonDocument.values]
    congr 1
    apply filterMap_congr
    intro token member
    cases token with
    | string spellings =>
        exact congrArg some (jsonRead_eq_iff.mpr (unpaired spellings member))
    | _ => rfl

/-- A string is read back, and a document is extracted under a budget that holds its text, without
a loss exactly when no surrogate pair spells one of the characters. -/
theorem json_extraction_lossless_iff (spellings : List JsonSpelling) (chars : Text)
    (document : JsonDocument) (maxBytes : Nat)
    (fits : byteLength (spacedTokens document.values) ≤ maxBytes) :
    (parseJsonString [] (writeJsonString spellings ++ '"' :: chars) =
        (jsonShown spellings, chars) ↔
      ∀ spelling ∈ spellings, spelling.isPair = false) ∧
    (extractJsonText maxBytes document.written = spacedTokens document.values ↔
      document.Unpaired) := by
  constructor
  · rw [parseJsonString_writeJsonString, Prod.mk.injEq, and_iff_left rfl, jsonRead_eq_iff]
  · exact extractJsonText_eq_iff fits

theorem json_extraction_lossless_iff_letter :
    extractJsonText 1 (writeJson [.string [.raw 'a' (by decide), .short .lineFeed]]) = ['a'] :=
  ((json_extraction_lossless_iff [] []
    ⟨[.string [.raw 'a' (by decide), .short .lineFeed]], .element [] (.string _) []⟩ 1
    (by decide)).2.mpr (by simp [JsonDocument.Unpaired, JsonSpelling.isPair])).trans (by decide)

/-- `\uD83D\uDE00` is read as the empty string. -/
theorem parseJsonString_pair_lost :
    ¬∀ (spellings : List JsonSpelling) (chars : Text),
      parseJsonString [] (writeJsonString spellings ++ '"' :: chars) =
        (jsonShown spellings, chars) := by
  intro lossless
  have face := lossless
    [.pair ⟨⟨13, true⟩, ⟨8, true⟩, ⟨3, true⟩, ⟨13, true⟩⟩
      ⟨⟨13, true⟩, ⟨14, true⟩, ⟨0, true⟩, ⟨0, true⟩⟩ (by decide) (by decide)] []
  exact absurd face (by decide)

end Documents

end Gfm.Content

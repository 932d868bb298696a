import Gfm.Lib.LineLog
import Gfm.Types

/-!
# Tab-separated fields

The journals and manifests of the workspace are lines of tab-separated fields. Every crate has
its own copy of the two escape functions and writes and parses numbers with the standard
library; the copies differ only in the texts of their errors.
-/

namespace Gfm.Tsv

open List

def escapeChar (char : Char) : Text :=
  if char = '\\' then ['\\', '\\']
  else if char = '\t' then ['\\', 't']
  else if char = '\n' then ['\\', 'n']
  else if char = '\r' then ['\\', 'r']
  else [char]

def escape (input : Text) : Text := input.flatMap escapeChar

inductive EscapeFault where
  | invalid (code : Char)
  | trailing
  deriving DecidableEq, Repr

def EscapeFault.toText : EscapeFault → String
  | invalid code => "invalid escape " ++ String.ofList ['\x60', '\\', code, '\x60']
  | trailing => "trailing escape"

def unescapeCode (code : Char) : Option Char :=
  if code = '\\' then some '\\'
  else if code = 't' then some '\t'
  else if code = 'n' then some '\n'
  else if code = 'r' then some '\r'
  else none

def unescape : Text → Except EscapeFault Text
  | [] => .ok []
  | char :: rest =>
      if char = '\\' then
        match rest with
        | [] => .error .trailing
        | code :: rest =>
            match unescapeCode code with
            | none => .error (.invalid code)
            | some plain => (unescape rest).map (plain :: ·)
      else (unescape rest).map (char :: ·)

theorem unescape_cons {char : Char} (plain : char ≠ '\\') (rest : Text) :
    unescape (char :: rest) = (unescape rest).map (char :: ·) := by
  rw [unescape.eq_def]
  exact if_neg plain

theorem unescape_escapeChar_append (char : Char) (rest : Text) :
    unescape (escapeChar char ++ rest) = (unescape rest).map (char :: ·) := by
  by_cases slash : char = '\\'
  · subst slash
    rfl
  by_cases tab : char = '\t'
  · subst tab
    rfl
  by_cases feed : char = '\n'
  · subst feed
    rfl
  by_cases carriage : char = '\r'
  · subst carriage
    rfl
  simp only [escapeChar, slash, tab, feed, carriage, if_false]
  exact unescape_cons slash rest

theorem unescape_escape (input : Text) : unescape (escape input) = .ok input := by
  induction input with
  | nil => rfl
  | cons char input ih =>
      change unescape (escapeChar char ++ escape input) = .ok (char :: input)
      rw [unescape_escapeChar_append, ih]
      rfl

def unescapeText (input : Text) : Except String Text :=
  (unescape input).mapError EscapeFault.toText

@[simp]
theorem unescapeText_escape (input : Text) : unescapeText (escape input) = .ok input := by
  rw [unescapeText, unescape_escape]
  rfl

/-- A text that is unescaped under the name that errors give it. -/
def unescapeAs (label : String) (text : Text) : Except GfmError Text :=
  match unescape text with
  | .ok text => .ok text
  | .error .trailing => .error (.format ("trailing " ++ label ++ " escape"))
  | .error (.invalid code) => .error (.format ("invalid " ++ label ++ " escape " ++
      String.ofList ['\x60', '\\', code, '\x60']))

@[simp]
theorem unescapeAs_escape (label : String) (text : Text) :
    unescapeAs label (escape text) = .ok text := by
  simp only [unescapeAs, unescape_escape]

/-- The characters that would end a field or a line. -/
def Plain (text : Text) : Prop := '\t' ∉ text ∧ '\n' ∉ text ∧ '\r' ∉ text

instance (text : Text) : Decidable (Plain text) := inferInstanceAs (Decidable (_ ∧ _))

theorem Plain.append {left right : Text} (plainLeft : Plain left) (plainRight : Plain right) :
    Plain (left ++ right) := by
  simp only [Plain, mem_append, not_or]
  exact ⟨⟨plainLeft.1, plainRight.1⟩, ⟨plainLeft.2.1, plainRight.2.1⟩,
    ⟨plainLeft.2.2, plainRight.2.2⟩⟩

theorem plain_escapeChar (char : Char) : Plain (escapeChar char) := by
  by_cases slash : char = '\\'
  · subst slash
    decide
  by_cases tab : char = '\t'
  · subst tab
    decide
  by_cases feed : char = '\n'
  · subst feed
    decide
  by_cases carriage : char = '\r'
  · subst carriage
    decide
  simp only [escapeChar, slash, tab, feed, carriage, if_false, Plain, mem_singleton]
  exact ⟨fun same => tab same.symm, fun same => feed same.symm, fun same => carriage same.symm⟩

theorem plain_escape (input : Text) : Plain (escape input) := by
  induction input with
  | nil => decide
  | cons char input ih => exact (plain_escapeChar char).append ih

/-- The fields of a line, and the line of the fields. -/
def fields (line : Text) : List Text := line.splitOn '\t'

def join (fields : List Text) : Text := ['\t'].intercalate fields

theorem fields_join {parts : List Text} (plain : ∀ part ∈ parts, Plain part)
    (nonempty : parts ≠ []) : fields (join parts) = parts :=
  splitOn_intercalate '\t' (fun part listed => (plain part listed).1) nonempty

theorem unbroken_join {parts : List Text} (plain : ∀ part ∈ parts, Plain part) :
    '\n' ∉ join parts ∧ '\r' ∉ join parts := by
  induction parts with
  | nil => decide
  | cons part parts ih =>
      have first := plain part mem_cons_self
      have others := ih fun other listed => plain other (mem_cons_of_mem part listed)
      cases parts with
      | nil =>
          rw [join, intercalate_singleton]
          exact first.2
      | cons next parts =>
          rw [join, intercalate_cons_cons]
          simp only [mem_append, not_or]
          exact ⟨⟨⟨first.2.1, by decide⟩, others.1⟩, ⟨⟨first.2.2, by decide⟩, others.2⟩⟩

/-- The entries of a journal file, which is nothing at first. -/
def readJournal {Entry : Type} (parse : Text → Except String Entry) (path : Path)
    (content : Option LineLog.Bytes) : Except GfmError (List Entry) :=
  match content with
  | none => .ok []
  | some content =>
      (LineLog.read parse content).mapError fun fault =>
        match fault with
        | .notText => .io path "stream did not contain valid UTF-8"
        | .malformed line reason =>
            .format (path.display ++ " line " ++ toString line ++ ": " ++ reason)

section Numbers

def digitChar (digit : Nat) : Char := Char.ofNat (48 + digit)

/-- The decimal text of a number. -/
def decimal (number : Nat) : Text :=
  if number = 0 then ['0'] else ((Nat.digits 10 number).map digitChar).reverse

def digitValue (char : Char) : Option Nat :=
  if 48 ≤ char.toNat ∧ char.toNat ≤ 57 then some (char.toNat - 48) else none

/-- One digit of an unsigned number below the bound of its type. -/
def pushDigit (bound : Nat) (value : Nat) (char : Char) : Except String Nat :=
  match digitValue char with
  | none => .error "invalid digit found in string"
  | some digit =>
      if bound ≤ 10 * value + digit then .error "number too large to fit in target type"
      else .ok (10 * value + digit)

/-- The standard parser of unsigned integers: digits, after an optional plus sign. -/
def parseUnsigned (bound : Nat) (text : Text) : Except String Nat :=
  match text with
  | [] => .error "cannot parse integer from empty string"
  | ['+'] => .error "invalid digit found in string"
  | '+' :: digits => digits.foldlM (pushDigit bound) 0
  | digits => digits.foldlM (pushDigit bound) 0

theorem digitValue_digitChar {digit : Nat} (small : digit < 10) :
    digitValue (digitChar digit) = some digit := by
  revert digit
  decide

theorem digitChar_plain {digit : Nat} (small : digit < 10) :
    digitChar digit ≠ '+' ∧ Plain [digitChar digit] := by
  revert digit
  decide

theorem foldlM_pushDigit {bound : Nat} :
    ∀ (digits : List Nat), (∀ digit ∈ digits, digit < 10) → Nat.ofDigits 10 digits < bound →
      (digits.map digitChar).reverse.foldlM (pushDigit bound) 0 = .ok (Nat.ofDigits 10 digits)
  | [], _, _ => rfl
  | digit :: digits, small, fits => by
      rw [Nat.ofDigits_cons] at fits
      have rest := @foldlM_pushDigit bound digits
        (fun other listed => small other (mem_cons_of_mem digit listed)) (by omega)
      have value := digitValue_digitChar (small digit mem_cons_self)
      simp only [map_cons, reverse_cons, foldlM_append, rest]
      have room : ¬bound ≤ 10 * Nat.ofDigits 10 digits + digit := by omega
      simp only [foldlM_cons, foldlM_nil, bind, Except.bind, pushDigit, value, room,
        if_false, pure, Except.pure, Nat.ofDigits_cons]
      rw [Nat.add_comm]

theorem decimal_eq (number : Nat) :
    ∃ digits : List Nat, digits ≠ [] ∧ (∀ digit ∈ digits, digit < 10) ∧
      Nat.ofDigits 10 digits = number ∧ decimal number = (digits.map digitChar).reverse := by
  by_cases zero : number = 0
  · subst zero
    exact ⟨[0], by simp, by simp, rfl, rfl⟩
  · refine ⟨Nat.digits 10 number, Nat.digits_ne_nil_iff_ne_zero.mpr zero, ?_,
      Nat.ofDigits_digits 10 number, if_neg zero⟩
    exact fun digit listed => Nat.digits_lt_base (by decide) listed

theorem plain_decimal (number : Nat) : Plain (decimal number) := by
  rcases decimal_eq number with ⟨digits, -, small, -, shape⟩
  rw [shape]
  have each : ∀ char ∈ (digits.map digitChar).reverse, Plain [char] := by
    intro char listed
    rw [mem_reverse] at listed
    rcases mem_map.mp listed with ⟨digit, member, rfl⟩
    exact (digitChar_plain (small digit member)).2
  refine ⟨fun listed => ?_, fun listed => ?_, fun listed => ?_⟩
  · exact (each _ listed).1 mem_cons_self
  · exact (each _ listed).2.1 mem_cons_self
  · exact (each _ listed).2.2 mem_cons_self

theorem parseUnsigned_decimal {bound number : Nat} (fits : number < bound) :
    parseUnsigned bound (decimal number) = .ok number := by
  rcases decimal_eq number with ⟨digits, nonempty, small, value, shape⟩
  rw [← value] at fits
  have folded := foldlM_pushDigit digits small fits
  rw [shape, ← value]
  have signless : ∀ char ∈ (digits.map digitChar).reverse, char ≠ '+' := by
    intro char listed
    rw [mem_reverse] at listed
    rcases mem_map.mp listed with ⟨digit, member, rfl⟩
    exact (digitChar_plain (small digit member)).1
  cases chars : (digits.map digitChar).reverse with
  | nil =>
      rw [reverse_eq_nil_iff, map_eq_nil_iff] at chars
      exact absurd chars nonempty
  | cons char rest =>
      have plain : char ≠ '+' := signless char (by rw [chars]; exact mem_cons_self)
      rw [chars] at folded
      unfold parseUnsigned
      split
      case h_1 same => cases same
      case h_2 same => exact absurd (List.cons.inj same).1 plain
      case h_3 same => exact absurd (List.cons.inj same).1 plain
      case h_4 => exact folded

/-- The parser at an unsigned type of this bound. -/
def parse (bound : Nat) (text : Text) : Except String (Fin bound) :=
  match parseUnsigned bound text with
  | .error reason => .error reason
  | .ok number =>
      if fits : number < bound then .ok ⟨number, fits⟩
      else .error "number too large to fit in target type"

theorem parse_decimal {bound : Nat} (number : Fin bound) :
    parse bound (decimal number) = .ok number := by
  simp only [parse, parseUnsigned_decimal number.isLt, number.isLt, dif_pos, Fin.eta]

def quoted (value : Text) : String := "\x60" ++ String.ofList value ++ "\x60"

/-- An error of the standard number parser, under the name of its field. -/
def parseNumber (bound : Nat) (label : String) (field : Text) : Except String (Fin bound) :=
  (parse bound field).mapError fun reason =>
    "invalid " ++ label ++ " " ++ quoted field ++ ": " ++ reason

@[simp]
theorem parseNumber_decimal {bound : Nat} (label : String) (number : Fin bound) :
    parseNumber bound label (decimal number) = .ok number := by
  rw [parseNumber, parse_decimal]
  rfl

end Numbers

end Gfm.Tsv

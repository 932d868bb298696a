import Gfm.Content.Pdf

/-!
# Literal strings of PDF files

A literal spells the bytes of a text one after the other: raw, by a named escape or by three octal
digits, with its parentheses escaped or balanced and with line ends that a backslash hides. The
scanner reads each of these spellings back but the octal one, behind which it loses a byte.
-/

namespace Gfm.Content

open LineLog List LossyText

section Spellings

inductive NamedEscape where
  | lineFeed
  | carriageReturn
  | tab
  | backspace
  | formFeed
  | opening
  | closing
  | backslash

def NamedEscape.letter : NamedEscape → UInt8
  | lineFeed => 110
  | carriageReturn => 114
  | tab => 116
  | backspace => 98
  | formFeed => 102
  | opening => 40
  | closing => 41
  | backslash => 92

def NamedEscape.byte : NamedEscape → UInt8
  | lineFeed => 10
  | carriageReturn => 13
  | tab => 9
  | backspace => 8
  | formFeed => 12
  | opening => 40
  | closing => 41
  | backslash => 92

inductive LineEnd where
  | lineFeed
  | carriageReturn
  | both

def LineEnd.written : LineEnd → Bytes
  | lineFeed => [10]
  | carriageReturn => [13]
  | both => [13, 10]

def octalByte (value : Nat) : UInt8 := UInt8.ofNat (48 + value % 8)

inductive LiteralSpelling where
  | raw (byte : UInt8) (plain : byte ≠ 40 ∧ byte ≠ 41 ∧ byte ≠ 92)
  | named (escape : NamedEscape)
  | octal (byte : UInt8)
  | opening
  | closing
  | continuation (ending : LineEnd)

namespace LiteralSpelling

def written : LiteralSpelling → Bytes
  | raw byte _ => [byte]
  | named escape => [92, escape.letter]
  | octal byte =>
      [92, octalByte (byte.toNat / 64), octalByte (byte.toNat / 8), octalByte byte.toNat]
  | opening => [40]
  | closing => [41]
  | continuation ending => 92 :: ending.written

/-- The bytes that the spelling stands for. -/
def spelled : LiteralSpelling → Bytes
  | raw byte _ => [byte]
  | named escape => [escape.byte]
  | octal byte => [byte]
  | opening => [40]
  | closing => [41]
  | continuation _ => []

/-- The open parentheses after the spelling, where it leaves none closed too often. -/
def nested : LiteralSpelling → Nat → Option Nat
  | opening, depth => some (depth + 1)
  | closing, 0 => none
  | closing, depth + 1 => some depth
  | _, depth => some depth

def isOctal : LiteralSpelling → Bool
  | octal _ => true
  | _ => false

/-- A line feed behind a hidden carriage return would be hidden with it. -/
def Separate (first second : LiteralSpelling) : Prop :=
  first = continuation .carriageReturn → second.written.head? ≠ some 10

/-- An octal escape is not followed by a backslash. -/
def Apart (first second : LiteralSpelling) : Prop :=
  first.isOctal → second.written.head? ≠ some 92

end LiteralSpelling

def writeLiteral (spellings : List LiteralSpelling) : Bytes :=
  spellings.flatMap LiteralSpelling.written

def literalBytes (spellings : List LiteralSpelling) : Bytes :=
  spellings.flatMap LiteralSpelling.spelled

theorem writeLiteral_cons (spelling : LiteralSpelling) (spellings : List LiteralSpelling)
    (rest : Bytes) : writeLiteral (spelling :: spellings) ++ rest =
      spelling.written ++ (writeLiteral spellings ++ rest) := by
  simp [writeLiteral]

@[simp]
theorem literalBytes_cons (spelling : LiteralSpelling) (spellings : List LiteralSpelling) :
    literalBytes (spelling :: spellings) = spelling.spelled ++ literalBytes spellings :=
  flatMap_cons

structure PdfLiteral where
  text : Text
  spellings : List LiteralSpelling
  spells : literalBytes spellings = encodeText text
  balanced : spellings.foldlM (fun depth spelling => spelling.nested depth) 0 = some 0
  separate : spellings.IsChain LiteralSpelling.Separate

def PdfLiteral.written (literal : PdfLiteral) : Bytes := writeLiteral literal.spellings

def PdfLiteral.inside (literal : PdfLiteral) (before rest : Bytes) : Bytes :=
  before ++ 40 :: (literal.written ++ 41 :: rest)

def PdfLiteral.WithoutOctals (literal : PdfLiteral) : Prop :=
  ∀ spelling ∈ literal.spellings, spelling.isOctal = false

/-- No lost byte begins an escape, and the text cannot come from broken bytes. -/
def PdfLiteral.Unambiguous (literal : PdfLiteral) : Prop :=
  literal.spellings.IsChain LiteralSpelling.Apart ∧ replacement ∉ literal.text

end Spellings

section Scanning

variable {spelling : LiteralSpelling} {spellings : List LiteralSpelling} {depth : Nat}
  {value rest : Bytes}

theorem parseLiteralFrom_cons {byte : UInt8} (plain : byte ≠ 92) :
    parseLiteralFrom depth value (byte :: rest) =
      if byte = 40 then parseLiteralFrom (depth + 1) (value ++ [40]) rest
      else if byte = 41 then
        if depth - 1 = 0 then some (value, rest)
        else parseLiteralFrom (depth - 1) (value ++ [41]) rest
      else parseLiteralFrom depth (value ++ [byte]) rest := by
  rw [parseLiteralFrom.eq_def]
  simp only [plain, if_false]

theorem octalByte_read (digit : Nat) :
    isOctalDigit (octalByte digit) = true ∧ (octalByte digit).toNat - 48 = digit % 8 := by
  have bound : digit % 8 < 8 := Nat.mod_lt _ (by omega)
  rw [octalByte]
  generalize digit % 8 = low at bound ⊢
  revert low
  decide

theorem parseOctal_written (byte : UInt8) (rest : Bytes) :
    parseOctal (octalByte (byte.toNat / 64) :: octalByte (byte.toNat / 8) ::
      octalByte byte.toNat :: rest) = (byte, rest) := by
  have bound := byte.toNat_lt
  simp only [parseOctal, parseOctalFrom, octalByte_read, if_true]
  have whole : min (((0 * 8 + byte.toNat / 64 % 8) * 8 + byte.toNat / 8 % 8) * 8 +
      byte.toNat % 8) 255 = byte.toNat := by omega
  rw [whole, UInt8.ofNat_toNat]

/-- The byte behind the digits is lost with the escape. -/
theorem parseLiteralFrom_octal (byte : UInt8) :
    parseLiteralFrom depth value ((LiteralSpelling.octal byte).written ++ rest) =
      parseLiteralFrom depth (value ++ [byte]) (rest.drop 1) := by
  simp only [LiteralSpelling.written, cons_append, nil_append]
  rw [parseLiteralFrom]
  simp only [if_true, octalByte_read, parseOctal_written]

theorem parseEscape_letter (escape : NamedEscape) (rest : Bytes) :
    isOctalDigit escape.letter = false ∧
      parseEscape escape.letter rest = ([escape.byte], rest) := by
  cases escape <;> exact ⟨by decide, rfl⟩

theorem parseEscape_lineEnd (ending : LineEnd)
    (ends : ending = .carriageReturn → rest.head? ≠ some 10) :
    ∃ first after, ending.written ++ rest = first :: after ∧ isOctalDigit first = false ∧
      parseEscape first after = ([], rest) := by
  cases ending with
  | lineFeed => exact ⟨10, rest, rfl, by decide, rfl⟩
  | carriageReturn =>
      refine ⟨13, rest, rfl, by decide, ?_⟩
      simp [parseEscape, ends rfl]
  | both => exact ⟨13, 10 :: rest, rfl, by decide, rfl⟩

/-- Each other spelling is read as what it stands for. -/
theorem parseLiteralFrom_spelling {after : Nat} (plain : spelling.isOctal = false)
    (nested : spelling.nested depth = some after)
    (ends : spelling = .continuation .carriageReturn → rest.head? ≠ some 10) :
    parseLiteralFrom (depth + 1) value (spelling.written ++ rest) =
      parseLiteralFrom (after + 1) (value ++ spelling.spelled) rest := by
  cases spelling with
  | raw byte isPlain =>
      obtain rfl := Option.some.inj nested
      simp only [LiteralSpelling.written, singleton_append]
      rw [parseLiteralFrom_cons isPlain.2.2]
      simp [isPlain, LiteralSpelling.spelled]
  | named escape =>
      obtain rfl := Option.some.inj nested
      have escaped := parseEscape_letter escape rest
      simp only [LiteralSpelling.written, cons_append, nil_append]
      rw [parseLiteralFrom]
      simp [escaped, LiteralSpelling.spelled]
  | octal byte => cases plain
  | opening =>
      obtain rfl := Option.some.inj nested
      simp only [LiteralSpelling.written, singleton_append]
      rw [parseLiteralFrom_cons (by decide)]
      simp [LiteralSpelling.spelled]
  | closing =>
      cases depth with
      | zero => cases nested
      | succ depth =>
          obtain rfl := Option.some.inj nested
          simp only [LiteralSpelling.written, singleton_append]
          rw [parseLiteralFrom_cons (by decide)]
          simp [LiteralSpelling.spelled]
  | continuation ending =>
      obtain rfl := Option.some.inj nested
      rcases @parseEscape_lineEnd rest ending (by rintro rfl; exact ends rfl)
        with ⟨first, after, restEq, notDigit, escaped⟩
      simp only [LiteralSpelling.written, cons_append, restEq]
      rw [parseLiteralFrom]
      simp [notDigit, escaped, LiteralSpelling.spelled]

theorem head?_written (spelling : LiteralSpelling) (rest : Bytes) :
    (spelling.written ++ rest).head? = spelling.written.head? := by
  cases spelling <;> rfl

theorem head?_writeLiteral_ne {byte : UInt8} (other : byte ≠ 41)
    (first : ∀ next ∈ spellings.head?, next.written.head? ≠ some byte) :
    (writeLiteral spellings ++ 41 :: rest).head? ≠ some byte := by
  cases spellings with
  | nil => simpa [writeLiteral] using other.symm
  | cons next spellings =>
      rw [writeLiteral_cons, head?_written]
      exact first next rfl

/-- Nested as the bytes are, without octal escapes they are read back up to the parenthesis that
closes the literal. -/
theorem parseLiteralFrom_written (plain : ∀ spelling ∈ spellings, spelling.isOctal = false)
    (separate : spellings.IsChain LiteralSpelling.Separate)
    (balanced : spellings.foldlM (fun depth spelling => spelling.nested depth) depth = some 0) :
    parseLiteralFrom (depth + 1) value (writeLiteral spellings ++ 41 :: rest) =
      some (value ++ literalBytes spellings, rest) := by
  induction spellings generalizing depth value with
  | nil =>
      obtain rfl := Option.some.inj balanced
      rw [writeLiteral, flatMap_nil, nil_append, parseLiteralFrom_cons (by decide)]
      simp [literalBytes]
  | cons spelling spellings ih =>
      rw [foldlM_cons] at balanced
      rcases Option.bind_eq_some_iff.mp balanced with ⟨after, nested, inner⟩
      have ends : spelling = .continuation .carriageReturn →
          (writeLiteral spellings ++ 41 :: rest).head? ≠ some 10 := fun hidden =>
        head?_writeLiteral_ne (by decide) fun next listed =>
          (isChain_cons.mp separate).1 next listed hidden
      have step := @parseLiteralFrom_spelling spelling depth value _ _ (plain spelling (by simp))
        nested ends
      have run := @ih _ (value ++ spelling.spelled)
        (fun other member => plain other (by simp [member])) separate.tail inner
      rw [writeLiteral_cons]
      refine step.trans (run.trans ?_)
      simp

/-- A reading that ends where the literal does has lost a byte with each octal escape, and one more
where it starts behind the first byte. -/
theorem lengths_of_parseLiteralFrom {result left : Bytes}
    (apart : spellings.IsChain LiteralSpelling.Apart)
    (separate : spellings.IsChain LiteralSpelling.Separate) (ends : left.length = rest.length) :
    (parseLiteralFrom (depth + 1) value (writeLiteral spellings ++ 41 :: rest) =
        some (result, left) →
      result.length + spellings.countP LiteralSpelling.isOctal ≤
        value.length + (literalBytes spellings).length) ∧
    ((writeLiteral spellings ++ 41 :: rest).head? ≠ some 92 →
      parseLiteralFrom (depth + 1) value ((writeLiteral spellings ++ 41 :: rest).drop 1) =
        some (result, left) →
      result.length + spellings.countP LiteralSpelling.isOctal <
        value.length + (literalBytes spellings).length) := by
  induction spellings generalizing depth value with
  | nil =>
      constructor
      · intro parsed
        cases depth with
        | zero =>
            rw [writeLiteral, flatMap_nil, nil_append,
              parseLiteralFrom_cons (by decide)] at parsed
            obtain ⟨rfl, -⟩ : value = result ∧ rest = left := by simpa using parsed
            simp
        | succ depth =>
            rw [writeLiteral, flatMap_nil, nil_append,
              parseLiteralFrom_cons (by decide)] at parsed
            have shorter := length_parseLiteralFrom (by simpa using parsed)
            omega
      · intro _ parsed
        have shorter := length_parseLiteralFrom parsed
        simp [writeLiteral] at shorter
        omega
  | cons spelling spellings ih =>
      rw [writeLiteral_cons]
      have separated : spelling = .continuation .carriageReturn →
          (writeLiteral spellings ++ 41 :: rest).head? ≠ some 10 := fun hidden =>
        head?_writeLiteral_ne (by decide) fun next listed =>
          (isChain_cons.mp separate).1 next listed hidden
      have notEscaped : spelling.isOctal →
          (writeLiteral spellings ++ 41 :: rest).head? ≠ some 92 := fun octal =>
        head?_writeLiteral_ne (by decide) fun next listed =>
          (isChain_cons.mp apart).1 next listed octal
      constructor
      · intro parsed
        cases octal : spelling.isOctal with
        | true =>
            cases spelling with
            | octal byte =>
                rw [parseLiteralFrom_octal] at parsed
                have lost := (ih apart.tail separate.tail).2 (notEscaped rfl) parsed
                simp [LiteralSpelling.spelled, octal] at lost ⊢
                omega
            | _ => cases octal
        | false =>
            cases nested : spelling.nested depth with
            | some after =>
                rw [parseLiteralFrom_spelling octal nested separated] at parsed
                have lost := (ih apart.tail separate.tail).1 parsed
                simp [octal] at lost ⊢
                omega
            | none =>
                obtain ⟨rfl, rfl⟩ : spelling = .closing ∧ depth = 0 := by
                  cases spelling with
                  | closing => cases depth <;> simp_all [LiteralSpelling.nested]
                  | _ => cases nested
                simp only [LiteralSpelling.written, singleton_append] at parsed
                rw [parseLiteralFrom_cons (by decide)] at parsed
                obtain ⟨-, rfl⟩ : value = result ∧ writeLiteral spellings ++ 41 :: rest = left := by
                  simpa using parsed
                simp at ends
                omega
      · intro plain parsed
        rw [head?_written] at plain
        obtain ⟨byte, writtenEq, spelledEq, octal⟩ : ∃ byte, spelling.written = [byte] ∧
            spelling.spelled = [byte] ∧ spelling.isOctal = false := by
          cases spelling with
          | raw byte _ => exact ⟨byte, rfl, rfl, rfl⟩
          | opening => exact ⟨40, rfl, rfl, rfl⟩
          | closing => exact ⟨41, rfl, rfl, rfl⟩
          | named | octal | continuation => exact (plain rfl).elim
        rw [writtenEq, singleton_append, List.drop_one, tail_cons] at parsed
        have lost := (ih apart.tail separate.tail).1 parsed
        simp [octal, spelledEq] at lost ⊢
        omega

end Scanning

section Literals

/-- The place behind the opening parenthesis is where the scanner starts. -/
theorem parseLiteral_inside (literal : PdfLiteral) (before rest : Bytes) :
    parseLiteral (literal.inside before rest) before.length =
      (parseLiteralFrom 1 [] (literal.written ++ 41 :: rest)).map fun (value, left) =>
        (decodeLossy value,
          before.length + literal.written.length + 2 + rest.length - left.length) := by
  have start : (literal.inside before rest).drop (before.length + 1) =
      literal.written ++ 41 :: rest := by
    rw [PdfLiteral.inside, ← drop_drop, drop_left]
    rfl
  have whole : (literal.inside before rest).length =
      before.length + literal.written.length + 2 + rest.length := by
    simp [PdfLiteral.inside]
    omega
  rw [parseLiteral, start, whole]

/-- A literal is read back, up to the place behind it, if no byte is written by an octal escape.
Where the readings of two literals cannot agree by chance, this is also needed. -/
theorem parseLiteral_exact (literal : PdfLiteral) (before rest : Bytes) :
    (literal.WithoutOctals →
      parseLiteral (literal.inside before rest) before.length =
        some (literal.text, before.length + literal.written.length + 2)) ∧
    (literal.Unambiguous →
      parseLiteral (literal.inside before rest) before.length =
        some (literal.text, before.length + literal.written.length + 2) →
      literal.WithoutOctals) := by
  rw [parseLiteral_inside]
  constructor
  · intro plain
    have run := @parseLiteralFrom_written literal.spellings 0 [] rest plain literal.separate
      literal.balanced
    rw [PdfLiteral.written, run, nil_append, literal.spells]
    simp [decodeLossy_encodeText]
  · rintro ⟨apart, valid⟩ exact
    rcases Option.map_eq_some_iff.mp exact with ⟨⟨result, left⟩, parsed, same⟩
    obtain ⟨textEq, placeEq⟩ := Prod.mk.inj same
    have shorter := length_parseLiteralFrom parsed
    have ends : left.length = rest.length := by
      simp at shorter
      omega
    have lost := (@lengths_of_parseLiteralFrom literal.spellings 0 [] rest result left apart
      literal.separate ends).1 parsed
    have spelled : result = encodeText literal.text := by
      rw [← textEq] at valid ⊢
      exact eq_encodeText_of_decodeLossy valid
    rw [literal.spells, spelled] at lost
    have none : literal.spellings.countP LiteralSpelling.isOctal = 0 := by
      rw [length_nil] at lost
      omega
    intro spelling listed
    simpa using countP_eq_zero.mp none spelling listed

theorem parseLiteral_exact_letter :
    parseLiteral [40, 65, 92, 10, 41] 0 = some (['A'], 5) :=
  (parseLiteral_exact ⟨['A'], [.raw 65 (by decide), .continuation .lineFeed], rfl, rfl,
    by simp [LiteralSpelling.Separate]⟩ [] []).1
    (by simp [PdfLiteral.WithoutOctals, LiteralSpelling.isOctal])

/-- `(\101)` is read past its end. -/
theorem parseLiteral_octal_lost :
    ¬∀ (literal : PdfLiteral) (before rest : Bytes),
      parseLiteral (literal.inside before rest) before.length =
        some (literal.text, before.length + literal.written.length + 2) := by
  intro exact
  have letter := exact ⟨['A'], [.octal 65], rfl, rfl, by simp⟩ [] []
  rw [parseLiteral_inside, PdfLiteral.written, writeLiteral, flatMap_singleton,
    parseLiteralFrom_octal, List.drop_one, tail_cons, parseLiteralFrom] at letter
  cases letter

end Literals

end Gfm.Content

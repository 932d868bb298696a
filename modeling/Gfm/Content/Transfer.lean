import Gfm.Lib.LossyText
import Gfm.Text

/-!
# Transfer decodings

Base64 fills a quantum of four values, with 64 for the padding, and skips all other characters.
Quoted-printable reads an escape of two digits as its byte, and behind a soft break it skips every
line end, so that a hard line break there is lost.
-/

namespace Gfm.Content

open LineLog List LossyText

section Model

def pushByteBounded (output : Bytes) (byte : UInt8) (maxBytes : ℕ) : Bytes × Bool :=
  if maxBytes ≤ output.length then (output, false) else (output ++ [byte], true)

def isLineEndByte (byte : UInt8) : Bool := byte = 13 ∨ byte = 10

def isAsciiSpace (byte : UInt8) : Bool := byte ∈ ([32, 9, 10, 12, 13] : Bytes)

def hexValue (byte : UInt8) : Option UInt8 :=
  if 48 ≤ byte ∧ byte ≤ 57 then some (byte - 48)
  else if 97 ≤ byte ∧ byte ≤ 102 then some (byte - 97 + 10)
  else if 65 ≤ byte ∧ byte ≤ 70 then some (byte - 65 + 10)
  else none

def base64Value (byte : UInt8) : Option UInt8 :=
  if 65 ≤ byte ∧ byte ≤ 90 then some (byte - 65)
  else if 97 ≤ byte ∧ byte ≤ 122 then some (byte - 97 + 26)
  else if 48 ≤ byte ∧ byte ≤ 57 then some (byte - 48 + 52)
  else if byte = 43 then some 62
  else if byte = 47 then some 63
  else if byte = 61 then some 64
  else none

variable (maxBytes : ℕ)

/-- The bytes of a full quantum; false when the budget is used up. -/
def pushQuantum (output : Bytes) (first second third fourth : UInt8) : Bytes × Bool :=
  let one := pushByteBounded output ((first <<< 2) ||| (second >>> 4)) maxBytes
  if one.2 = false then one
  else
    let two :=
      if third ≠ 64 then pushByteBounded one.1 ((second <<< 4) ||| (third >>> 2)) maxBytes else one
    if two.2 = false then two
    else if fourth ≠ 64 then pushByteBounded two.1 ((third <<< 6) ||| fourth) maxBytes
    else two

def base64Loop (output quantum : Bytes) : Bytes → Bytes
  | [] => output
  | byte :: rest =>
      if maxBytes ≤ output.length then output
      else
        match base64Value byte with
        | none => base64Loop output quantum rest
        | some value =>
            match quantum ++ [value] with
            | [first, second, third, fourth] =>
                let pushed := pushQuantum maxBytes output first second third fourth
                if pushed.2 then base64Loop pushed.1 [] rest else pushed.1
            | quantum => base64Loop output quantum rest

def decodeBase64 (input : Text) : Text :=
  decodeLossy (base64Loop maxBytes [] [] ((encodeText input).filter fun byte => !isAsciiSpace byte))

def quotedLoop (output : Bytes) : Bytes → Bytes
  | [] => output
  | byte :: rest =>
      if maxBytes ≤ output.length then output
      else if byte = 61 then
        if rest.head?.any isLineEndByte then quotedLoop output (rest.dropWhile isLineEndByte)
        else
          match rest[0]?.bind hexValue, rest[1]?.bind hexValue with
          | some high, some low =>
              quotedLoop (pushByteBounded output ((high <<< 4) ||| low) maxBytes).1 (rest.drop 2)
          | _, _ => quotedLoop (pushByteBounded output byte maxBytes).1 rest
      else quotedLoop (pushByteBounded output byte maxBytes).1 rest
termination_by bytes => bytes.length
decreasing_by
  · have shorter := (rest.dropWhile_suffix isLineEndByte).length_le
    simp only [length_cons]
    omega
  all_goals simp only [length_drop, length_cons]; omega

def decodeQuotedPrintable (input : Text) : Text :=
  decodeLossy (quotedLoop maxBytes [] (encodeText input))

end Model

section Encodings

/-- The character of six bits. -/
def sextet (value : ℕ) : UInt8 :=
  UInt8.ofNat (if value < 26 then 65 + value else if value < 52 then 71 + value
    else if value < 62 then value - 4 else if value = 62 then 43 else 47)

/-- Groups of three bytes; the padding leaves spare bits in the last character before it. -/
def encodeBase64 (spare : ℕ) : Bytes → Bytes
  | [] => []
  | [one] => [sextet (one.toNat / 4), sextet (one.toNat % 4 * 16 + spare % 16), 61, 61]
  | [one, two] =>
      [sextet (one.toNat / 4), sextet (one.toNat % 4 * 16 + two.toNat / 16),
        sextet (two.toNat % 16 * 4 + spare % 4), 61]
  | one :: two :: three :: rest =>
      sextet (one.toNat / 4) :: sextet (one.toNat % 4 * 16 + two.toNat / 16) ::
        sextet (two.toNat % 16 * 4 + three.toNat / 64) :: sextet (three.toNat % 64) ::
          encodeBase64 spare rest

def hexDigit (upper : Bool) (value : ℕ) : UInt8 :=
  UInt8.ofNat (if value < 10 then 48 + value else if upper then 55 + value else 87 + value)

inductive QuotedItem where
  | raw (byte : UInt8) (plain : byte ≠ 61)
  | escaped (byte : UInt8) (upperHigh upperLow : Bool)
  | softBreak (carriageReturn : Bool)

namespace QuotedItem

def bytes : QuotedItem → Bytes
  | raw byte _ => [byte]
  | escaped byte _ _ => [byte]
  | softBreak _ => []

def written : QuotedItem → Bytes
  | raw byte _ => [byte]
  | escaped byte upperHigh upperLow =>
      [61, hexDigit upperHigh (byte.toNat / 16), hexDigit upperLow (byte.toNat % 16)]
  | softBreak carriageReturn => if carriageReturn then [61, 13, 10] else [61, 10]

def isSoftBreak : QuotedItem → Bool
  | softBreak _ => true
  | _ => false

/-- A line end that is written as it is. -/
def isLineEnd : QuotedItem → Bool
  | raw byte _ => isLineEndByte byte
  | _ => false

def Separate (items : List QuotedItem) : Prop :=
  items.IsChain fun item next => ¬(item.isSoftBreak = true ∧ next.isLineEnd = true)

end QuotedItem

/-- An encoding of bytes, with all that the standards leave open. -/
inductive TransferEncoding where
  | base64 (bytes : Bytes) (spare : ℕ)
  | quotedPrintable (items : List QuotedItem)

namespace TransferEncoding

def bytes : TransferEncoding → Bytes
  | base64 bytes _ => bytes
  | quotedPrintable items => items.flatMap QuotedItem.bytes

/-- Base64 may be wrapped anywhere. -/
def Spells : TransferEncoding → Bytes → Prop
  | base64 bytes spare, written =>
      (written.filter fun byte => !isAsciiSpace byte) = encodeBase64 spare bytes
  | quotedPrintable items, written => written = items.flatMap QuotedItem.written

def decode (maxBytes : ℕ) (input : Text) : TransferEncoding → Text
  | base64 .. => decodeBase64 maxBytes input
  | quotedPrintable _ => decodeQuotedPrintable maxBytes input

/-- No soft break stands directly before a line end. -/
def Separate : TransferEncoding → Prop
  | base64 .. => True
  | quotedPrintable items => QuotedItem.Separate items

end TransferEncoding

end Encodings

section Bits

/-- The bits of a shifted byte and those of a small one do not overlap. -/
theorem toNat_join {high low shift : UInt8} (bound : shift.toNat < 8)
    (small : low.toNat < 2 ^ shift.toNat) :
    ((high <<< shift) ||| low).toNat = high.toNat * 2 ^ shift.toNat % 256 + low.toNat := by
  have width : 256 = 2 ^ (8 - shift.toNat) * 2 ^ shift.toNat := by
    rw [← pow_add, Nat.sub_add_cancel bound.le]
    rfl
  rw [UInt8.toNat_or, UInt8.toNat_shiftLeft, Nat.mod_eq_of_lt bound, Nat.shiftLeft_eq,
    show 2 ^ 8 = 256 from rfl, width, Nat.mul_mod_mul_right, ← Nat.shiftLeft_eq,
    Nat.shiftLeft_add_eq_or_of_lt small]

variable {one two three : UInt8} {low : ℕ}

theorem join_first (bound : low < 16) :
    (UInt8.ofNat (one.toNat / 4) <<< 2) ||| (UInt8.ofNat (one.toNat % 4 * 16 + low) >>> 4) =
      one := by
  have byte := one.toNat_lt
  rw [← UInt8.toNat_inj, toNat_join (by decide)] <;>
    simp only [UInt8.toNat_shiftRight, UInt8.toNat_ofNat', Nat.shiftRight_eq_div_pow,
      UInt8.toNat_ofNat, Nat.reduceMod, Nat.reducePow] <;> omega

theorem join_second (bound : low < 4) :
    (UInt8.ofNat (one.toNat % 4 * 16 + two.toNat / 16) <<< 4) |||
      (UInt8.ofNat (two.toNat % 16 * 4 + low) >>> 2) = two := by
  have byte := two.toNat_lt
  rw [← UInt8.toNat_inj, toNat_join (by decide)] <;>
    simp only [UInt8.toNat_shiftRight, UInt8.toNat_ofNat', Nat.shiftRight_eq_div_pow,
      UInt8.toNat_ofNat, Nat.reduceMod, Nat.reducePow] <;> omega

theorem join_third : (UInt8.ofNat (two.toNat % 16 * 4 + three.toNat / 64) <<< 6) |||
    UInt8.ofNat (three.toNat % 64) = three := by
  have byte := three.toNat_lt
  rw [← UInt8.toNat_inj, toNat_join (by decide)] <;>
    simp only [UInt8.toNat_ofNat', UInt8.toNat_ofNat, Nat.reduceMod, Nat.reducePow] <;> omega

theorem join_digits :
    (UInt8.ofNat (one.toNat / 16) <<< 4) ||| UInt8.ofNat (one.toNat % 16) = one := by
  have byte := one.toNat_lt
  rw [← UInt8.toNat_inj, toNat_join (by decide)] <;>
    simp only [UInt8.toNat_ofNat', UInt8.toNat_ofNat, Nat.reduceMod, Nat.reducePow] <;> omega

theorem base64Value_sextet {value : ℕ} (bound : value < 64) :
    base64Value (sextet value) = some (UInt8.ofNat value) := by
  revert value
  decide

theorem hexValue_hexDigit (upper : Bool) {value : ℕ} (bound : value < 16) :
    hexValue (hexDigit upper value) = some (UInt8.ofNat value) ∧
      isLineEndByte (hexDigit upper value) = false := by
  revert upper value
  decide

theorem ofNat_ne_padding {value : ℕ} (bound : value < 64) : UInt8.ofNat value ≠ 64 := by
  revert value
  decide

end Bits

section Base64

variable {maxBytes : ℕ} {output : Bytes} {first second third fourth : UInt8}

theorem pushByteBounded_of_lt (room : output.length < maxBytes) (byte : UInt8) :
    pushByteBounded output byte maxBytes = (output ++ [byte], true) :=
  if_neg (by omega)

theorem pushQuantum_one (room : output.length + 1 ≤ maxBytes) :
    pushQuantum maxBytes output first second 64 64 =
      (output ++ [(first <<< 2) ||| (second >>> 4)], true) := by
  simp [pushQuantum, pushByteBounded_of_lt room]

theorem pushQuantum_two (whole : third ≠ 64) (room : output.length + 2 ≤ maxBytes) :
    pushQuantum maxBytes output first second third 64 =
      (output ++ [(first <<< 2) ||| (second >>> 4), (second <<< 4) ||| (third >>> 2)], true) := by
  have now : output.length < maxBytes := by omega
  have later : (output ++ [(first <<< 2) ||| (second >>> 4)]).length < maxBytes := by
    rw [length_append, length_singleton]
    omega
  simp [pushQuantum, pushByteBounded_of_lt now, pushByteBounded_of_lt later, whole]

theorem pushQuantum_three (whole : third ≠ 64) (last : fourth ≠ 64)
    (room : output.length + 3 ≤ maxBytes) :
    pushQuantum maxBytes output first second third fourth =
      (output ++ [(first <<< 2) ||| (second >>> 4), (second <<< 4) ||| (third >>> 2),
        (third <<< 6) ||| fourth], true) := by
  have now : output.length < maxBytes := by omega
  have later : (output ++ [(first <<< 2) ||| (second >>> 4)]).length < maxBytes := by
    rw [length_append, length_singleton]
    omega
  have latest : (output ++ [(first <<< 2) ||| (second >>> 4)] ++
      [(second <<< 4) ||| (third >>> 2)]).length < maxBytes := by
    simp only [length_append, length_singleton]
    omega
  rw [pushQuantum, pushByteBounded_of_lt now]
  simp only [Bool.true_eq_false, if_false, if_pos whole, pushByteBounded_of_lt later,
    if_pos last, pushByteBounded_of_lt latest]
  simp

/-- Four characters with values are one quantum. -/
theorem base64Loop_quantum {one two three four : UInt8} (room : output.length < maxBytes)
    (firstValue : base64Value one = some first) (secondValue : base64Value two = some second)
    (thirdValue : base64Value three = some third) (fourthValue : base64Value four = some fourth)
    {pushed : Bytes} (rest : Bytes)
    (quantum : pushQuantum maxBytes output first second third fourth = (pushed, true)) :
    base64Loop maxBytes output [] (one :: two :: three :: four :: rest) =
      base64Loop maxBytes pushed [] rest := by
  have begun : ¬maxBytes ≤ output.length := by omega
  simp [base64Loop, begun, firstValue, secondValue, thirdValue, fourthValue, quantum]

theorem base64Loop_encodeBase64 (spare : ℕ) (bytes : Bytes)
    (fits : output.length + bytes.length ≤ maxBytes) :
    base64Loop maxBytes output [] (encodeBase64 spare bytes) = output ++ bytes := by
  have padding : base64Value 61 = some 64 := rfl
  fun_induction encodeBase64 spare bytes generalizing output with
  | case1 => simp [base64Loop]
  | case2 one =>
      rw [length_singleton] at fits
      have byte := one.toNat_lt
      rw [base64Loop_quantum (by omega) (base64Value_sextet (by omega))
        (base64Value_sextet (by omega)) padding padding [] (pushQuantum_one fits),
        join_first (by omega), base64Loop]
  | case3 one two =>
      simp only [length_cons, length_nil] at fits
      have byte := one.toNat_lt
      have next := two.toNat_lt
      have whole : UInt8.ofNat (two.toNat % 16 * 4 + spare % 4) ≠ 64 :=
        ofNat_ne_padding (by omega)
      rw [base64Loop_quantum (by omega) (base64Value_sextet (by omega))
        (base64Value_sextet (by omega)) (base64Value_sextet (by omega)) padding []
        (pushQuantum_two whole fits), join_first (by omega), join_second (by omega), base64Loop]
  | case4 one two three rest ih =>
      simp only [length_cons] at fits
      have byte := one.toNat_lt
      have next := two.toNat_lt
      have last := three.toNat_lt
      have whole : UInt8.ofNat (two.toNat % 16 * 4 + three.toNat / 64) ≠ 64 :=
        ofNat_ne_padding (by omega)
      have final : UInt8.ofNat (three.toNat % 64) ≠ 64 := ofNat_ne_padding (by omega)
      rw [base64Loop_quantum (by omega) (base64Value_sextet (by omega))
        (base64Value_sextet (by omega)) (base64Value_sextet (by omega))
        (base64Value_sextet (by omega)) _ (pushQuantum_three whole final (by omega)),
        join_first (by omega), join_second (by omega), join_third, ih]
      · simp
      · simp only [length_append, length_cons, length_nil]
        omega

/-- Padded base64 is decoded, with all its line ends and blanks. -/
theorem decodeBase64_eq {text written : Text} {spare : ℕ}
    (spelled : ((encodeText written).filter fun byte => !isAsciiSpace byte) =
      encodeBase64 spare (encodeText text))
    (fits : (encodeText text).length ≤ maxBytes) : decodeBase64 maxBytes written = text := by
  rw [decodeBase64, spelled, base64Loop_encodeBase64 _ _ (by simpa using fits), nil_append,
    decodeLossy_encodeText]

end Base64

section QuotedPrintable

open QuotedItem

/-- What is decoded, behind a soft break or not. -/
def keptFrom : Bool → List QuotedItem → Bytes
  | _, [] => []
  | skipping, item :: items =>
      if skipping = true ∧ item.isLineEnd = true then keptFrom true items
      else item.bytes ++ keptFrom item.isSoftBreak items

def writeItems (items : List QuotedItem) : Bytes := items.flatMap QuotedItem.written

variable {maxBytes : ℕ} {output : Bytes}

theorem quotedLoop_full (full : maxBytes ≤ output.length) (bytes : Bytes) :
    quotedLoop maxBytes output bytes = output := by
  cases bytes with
  | nil => rw [quotedLoop]
  | cons byte bytes => rw [quotedLoop, if_pos full]

theorem written_eq_cons (item : QuotedItem) : ∃ first rest, item.written = first :: rest ∧
    isLineEndByte first = item.isLineEnd ∧ (item.isLineEnd = true → rest = []) := by
  cases item with
  | raw byte plain => exact ⟨byte, [], rfl, rfl, fun _ => rfl⟩
  | escaped byte upperHigh upperLow => exact ⟨_, _, rfl, rfl, fun ends => by cases ends⟩
  | softBreak carriageReturn =>
      cases carriageReturn <;> exact ⟨_, _, rfl, rfl, fun ends => by cases ends⟩

/-- One item: its bytes are read, and behind a soft break the line ends are skipped. -/
theorem quotedLoop_item (room : output.length < maxBytes) (item : QuotedItem) (rest : Bytes) :
    quotedLoop maxBytes output (item.written ++ rest) =
      quotedLoop maxBytes (output ++ item.bytes)
        (if item.isSoftBreak = true then rest.dropWhile isLineEndByte else rest) := by
  have begun : ¬maxBytes ≤ output.length := by omega
  cases item with
  | raw byte plain =>
      rw [QuotedItem.written, singleton_append, quotedLoop, if_neg begun, if_neg plain,
        pushByteBounded_of_lt room]
      rfl
  | escaped byte upperHigh upperLow =>
      have bound := byte.toNat_lt
      have high := @hexValue_hexDigit upperHigh (byte.toNat / 16) (by omega)
      have low := @hexValue_hexDigit upperLow (byte.toNat % 16) (by omega)
      rw [QuotedItem.written, cons_append, quotedLoop, if_neg begun, if_pos rfl]
      simp [high, low, join_digits, pushByteBounded_of_lt room, QuotedItem.bytes, isSoftBreak]
  | softBreak carriageReturn =>
      have ends : isLineEndByte 13 = true ∧ isLineEndByte 10 = true := by decide
      cases carriageReturn <;>
        simp [QuotedItem.written, quotedLoop, ends, begun, QuotedItem.bytes, isSoftBreak]

/-- Between two items the loop is at the start of one, or it skips the line ends there. -/
theorem quotedLoop_writeItems (skipping : Bool) (items : List QuotedItem)
    (fits : output.length + (keptFrom skipping items).length ≤ maxBytes) :
    quotedLoop maxBytes output (if skipping = true then (writeItems items).dropWhile isLineEndByte
      else writeItems items) = output ++ keptFrom skipping items := by
  induction items generalizing skipping output with
  | nil =>
      have empty : writeItems [] = [] := rfl
      cases skipping <;> simp [empty, quotedLoop, keptFrom]
  | cons item items ih =>
      have written : writeItems (item :: items) = item.written ++ writeItems items := rfl
      rcases written_eq_cons item with ⟨first, rest, shown, firstEnds, alone⟩
      rw [keptFrom] at fits ⊢
      by_cases skipped : skipping = true ∧ item.isLineEnd = true
      · rw [if_pos skipped] at fits ⊢
        rw [if_pos skipped.1, written, shown, alone skipped.2, singleton_append,
          dropWhile_cons_of_pos (firstEnds.trans skipped.2)]
        exact ih true fits
      · rw [if_neg skipped, length_append] at fits
        have whole : (if skipping = true then (writeItems (item :: items)).dropWhile isLineEndByte
            else writeItems (item :: items)) = item.written ++ writeItems items := by
          rw [written]
          split
          next skips =>
            rw [shown, cons_append]
            exact dropWhile_cons_of_neg fun ends => skipped ⟨skips, firstEnds ▸ ends⟩
          next => rfl
        rw [if_neg skipped, whole]
        by_cases room : output.length < maxBytes
        · rw [quotedLoop_item room, ih _ (by rw [length_append]; omega), append_assoc]
        · have none : item.bytes ++ keptFrom item.isSoftBreak items = [] := by
            rw [← length_eq_zero_iff, length_append]
            omega
          rw [quotedLoop_full (by omega), none, append_nil]

theorem keptFrom_sublist (skipping : Bool) (items : List QuotedItem) :
    (keptFrom skipping items).Sublist (items.flatMap QuotedItem.bytes) := by
  induction items generalizing skipping with
  | nil => exact List.Sublist.refl []
  | cons item items ih =>
      rw [keptFrom, flatMap_cons]
      split
      next => exact (ih true).trans (sublist_append_right _ _)
      next => exact (ih _).append_left _

/-- A skipped line end is the byte of its item. -/
theorem countP_bytes {item : QuotedItem} (ends : item.isLineEnd = true) :
    item.bytes.countP isLineEndByte = 1 := by
  cases item with
  | raw byte plain => exact countP_singleton.trans (if_pos ends)
  | escaped => cases ends
  | softBreak => cases ends

/-- All bytes are kept, or there is a line end too few. -/
theorem keptFrom_cases (skipping : Bool) (items : List QuotedItem) :
    ((Separate items ∧ ¬(skipping = true ∧ ∃ next ∈ items.head?, next.isLineEnd = true)) ∧
      keptFrom skipping items = items.flatMap QuotedItem.bytes) ∨
    (¬(Separate items ∧ ¬(skipping = true ∧ ∃ next ∈ items.head?, next.isLineEnd = true)) ∧
      (keptFrom skipping items).countP isLineEndByte <
        (items.flatMap QuotedItem.bytes).countP isLineEndByte) := by
  induction items generalizing skipping with
  | nil => exact .inl ⟨⟨isChain_nil, by simp⟩, rfl⟩
  | cons item items ih =>
      have free : (Separate (item :: items) ∧ ¬(skipping = true ∧
          ∃ next ∈ (item :: items).head?, next.isLineEnd = true)) ↔
          ¬(skipping = true ∧ item.isLineEnd = true) ∧ Separate items ∧
            ¬(item.isSoftBreak = true ∧ ∃ next ∈ items.head?, next.isLineEnd = true) := by
        simp only [Separate, isChain_cons, head?_cons, Option.mem_some_iff,
          exists_eq_left', not_and, not_exists]
        tauto
      rw [free, keptFrom, flatMap_cons, countP_append]
      by_cases skipped : skipping = true ∧ item.isLineEnd = true
      · right
        rw [if_pos skipped, countP_bytes skipped.2]
        have fewer : (keptFrom true items).countP isLineEndByte ≤ _ :=
          (keptFrom_sublist true items).countP_le
        exact ⟨fun kept => kept.1 skipped, by omega⟩
      · rw [if_neg skipped, countP_append]
        rcases ih item.isSoftBreak with ⟨kept, same⟩ | ⟨lost, fewer⟩
        · exact .inl ⟨⟨skipped, kept⟩, by rw [same]⟩
        · exact .inr ⟨fun kept => lost kept.2, by omega⟩

end QuotedPrintable

section Inversion

theorem toNat_lt_of_isLineEndByte {byte : UInt8} (ends : isLineEndByte byte = true) :
    byte.toNat < 128 := by
  rw [isLineEndByte, decide_eq_true_eq] at ends
  rcases ends with rfl | rfl <;> decide

theorem decodeQuotedPrintable_eq {items : List QuotedItem} {written : Text} {maxBytes : ℕ}
    (spelled : encodeText written = writeItems items)
    (fits : (items.flatMap QuotedItem.bytes).length ≤ maxBytes) :
    decodeQuotedPrintable maxBytes written = decodeLossy (keptFrom false items) := by
  have bound := (keptFrom_sublist false items).length_le.trans fits
  have loop := @quotedLoop_writeItems maxBytes [] false items (by simpa using bound)
  rw [decodeQuotedPrintable, spelled]
  exact congrArg decodeLossy loop

/-- A budget for all bytes is enough; the text comes back unless a soft break takes a line end. -/
theorem decode_eq_iff {encoding : TransferEncoding} {text written : Text} {maxBytes : ℕ}
    (encodes : encoding.bytes = encodeText text)
    (spelled : encoding.Spells (encodeText written))
    (fits : (encodeText text).length ≤ maxBytes) :
    encoding.decode maxBytes written = text ↔ encoding.Separate := by
  cases encoding with
  | base64 bytes spare =>
      obtain rfl : bytes = encodeText text := encodes
      exact iff_of_true (decodeBase64_eq spelled fits) trivial
  | quotedPrintable items =>
      rw [TransferEncoding.bytes] at encodes
      rw [TransferEncoding.decode, decodeQuotedPrintable_eq spelled (by rwa [encodes]),
        TransferEncoding.Separate]
      have ascii (byte : UInt8) := @toNat_lt_of_isLineEndByte byte
      rcases keptFrom_cases false items with ⟨⟨separate, -⟩, same⟩ | ⟨lost, fewer⟩
      · rw [same, encodes, decodeLossy_encodeText]
        exact iff_of_true rfl separate
      · apply iff_of_false
        · intro same
          have most := countP_decodeLossy ascii (keptFrom false items)
          rw [encodes, countP_encodeText ascii] at fewer
          rw [same] at most
          omega
        · intro separate
          exact lost ⟨separate, by simp⟩

/-- A soft break within a word, whose last letter is escaped. -/
def softenedWord : List QuotedItem :=
  [.raw 99 (by decide), .softBreak true, .raw 97 (by decide), .raw 102 (by decide),
    .escaped 195 true false, .escaped 169 true true, .raw 10 (by decide)]

/-- Base64 over two lines, and quoted-printable with a soft break and a line end. -/
theorem decode_eq_iff_wrapped :
    (TransferEncoding.decode 5 "Y2Fm\r\n w6k=\n".toList (.base64 [99, 97, 102, 195, 169] 0) =
        "café".toList ↔
      (TransferEncoding.base64 [99, 97, 102, 195, 169] 0).Separate) ∧
    (TransferEncoding.decode 6 "c=\r\naf=C3=A9\n".toList (.quotedPrintable softenedWord) =
        "café\n".toList ↔
      (TransferEncoding.quotedPrintable softenedWord).Separate) := by
  constructor
  · refine @decode_eq_iff _ "café".toList "Y2Fm\r\n w6k=\n".toList 5 (by decide) ?_ (by decide)
    rw [TransferEncoding.Spells]
    decide
  · refine @decode_eq_iff _ "café\n".toList "c=\r\naf=C3=A9\n".toList 6 (by decide) ?_ (by decide)
    rw [TransferEncoding.Spells]
    decide

def brokenLine : List QuotedItem :=
  [.raw 97 (by decide), .softBreak false, .raw 10 (by decide), .raw 98 (by decide)]

/-- The line end behind a soft break is lost. -/
theorem decodeQuotedPrintable_brokenLine :
    encodeText "a=\n\nb".toList = writeItems brokenLine ∧
      brokenLine.flatMap QuotedItem.bytes = encodeText "a\nb".toList ∧
      decodeQuotedPrintable 100 "a=\n\nb".toList = "ab".toList := by
  have spelled : encodeText "a=\n\nb".toList = writeItems brokenLine := by decide
  refine ⟨spelled, by decide, ?_⟩
  have kept : keptFrom false brokenLine = encodeText "ab".toList := by decide
  rw [decodeQuotedPrintable_eq spelled (by decide), kept, decodeLossy_encodeText]

end Inversion

end Gfm.Content

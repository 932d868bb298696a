import Mathlib

/-!
# Append-only logs of lines

A log is a file to which entries are appended, each as one line of UTF-8 text. The reader cuts
the bytes into lines, takes each as text and decodes it; one line that is not an entry fails the
whole log.

A crash in the middle of an append leaves a prefix of the last line. The torn-append law says
that such a crash loses at most the entry that was being appended: the log still reads, and a
later append adds its entry. It holds exactly where nothing or everything of the line was
written.
-/

namespace LineLog

open List

abbrev Bytes := List UInt8

def newline : UInt8 := 10

def carriageReturn : UInt8 := 13

def encodeText (text : List Char) : Bytes := text.flatMap String.utf8EncodeChar

def decodeText (bytes : Bytes) : Option (List Char) :=
  (ByteArray.utf8Decode? bytes.toByteArray).map Array.toList

/-- A line that a newline ended; a carriage return before the newline goes too. -/
def chomp (line : Bytes) : Bytes :=
  if line.getLast? = some carriageReturn then line.dropLast else line

def linesFrom (current : Bytes) : Bytes → List Bytes
  | [] => if current = [] then [] else [current]
  | byte :: rest =>
      if byte = newline then chomp current :: linesFrom [] rest
      else linesFrom (current ++ [byte]) rest

def lines : Bytes → List Bytes := linesFrom []

inductive Fault where
  | notText
  | malformed (line : Nat) (reason : String)
  deriving DecidableEq, Repr

variable {Entry : Type}

def decodeLines (decode : List Char → Except String Entry) :
    Nat → List Bytes → Except Fault (List Entry)
  | _, [] => .ok []
  | number, line :: rest =>
      match decodeText line with
      | none => .error .notText
      | some text =>
          match decode text with
          | .error reason => .error (.malformed number reason)
          | .ok entry =>
              match decodeLines decode (number + 1) rest with
              | .error fault => .error fault
              | .ok entries => .ok (entry :: entries)

def read (decode : List Char → Except String Entry) (content : Bytes) :
    Except Fault (List Entry) := decodeLines decode 1 (lines content)

section Lines

theorem linesFrom_append_newline {current line : Bytes} (unbroken : newline ∉ line)
    (rest : Bytes) :
    linesFrom current (line ++ newline :: rest) = chomp (current ++ line) :: lines rest := by
  induction line generalizing current with
  | nil => simp [linesFrom, lines]
  | cons byte line ih =>
      simp only [mem_cons, not_or] at unbroken
      have other : byte ≠ newline := fun same => unbroken.1 same.symm
      simp only [cons_append, linesFrom, other, if_false]
      rw [ih unbroken.2, append_assoc, singleton_append]

theorem linesFrom_unbroken {current line : Bytes} (unbroken : newline ∉ line) :
    linesFrom current line = if current ++ line = [] then [] else [current ++ line] := by
  induction line generalizing current with
  | nil => simp [linesFrom]
  | cons byte line ih =>
      simp only [mem_cons, not_or] at unbroken
      have other : byte ≠ newline := fun same => unbroken.1 same.symm
      simp only [linesFrom, other, if_false]
      rw [ih unbroken.2, append_assoc, singleton_append]

theorem lines_cons {line : Bytes} (unbroken : newline ∉ line) (rest : Bytes) :
    lines (line ++ newline :: rest) = chomp line :: lines rest :=
  linesFrom_append_newline unbroken rest

theorem lines_torn {line : Bytes} (unbroken : newline ∉ line) (nonempty : line ≠ []) :
    lines line = [line] := by
  refine (linesFrom_unbroken unbroken).trans ?_
  rw [nil_append, if_neg nonempty]

theorem encodeText_append (left right : List Char) :
    encodeText (left ++ right) = encodeText left ++ encodeText right :=
  flatMap_append

theorem decodeText_encodeText (text : List Char) : decodeText (encodeText text) = some text := by
  have decoded := @utf8Decode?_utf8Encode text
  simp only [List.utf8Encode] at decoded
  simp only [decodeText, encodeText, decoded, Option.map_some]

theorem encodeText_of_decodeText {bytes : Bytes} {text : List Char}
    (decoded : decodeText bytes = some text) : encodeText text = bytes := by
  rcases Option.map_eq_some_iff.mp decoded with ⟨chars, found, rfl⟩
  have isSome : bytes.toByteArray.utf8Decode?.isSome := by rw [found]; rfl
  have encoded := @ByteArray.utf8Encode_get_utf8Decode? bytes.toByteArray isSome
  simp only [found, Option.get_some] at encoded
  have lists := congrArg (fun array => array.data.toList) encoded
  simpa [List.utf8Encode, encodeText] using lists

/-- The first line, as it is read, is what the content begins with. -/
theorem prefix_of_lines {content first : Bytes} {rest : List Bytes}
    (split : lines content = first :: rest) : first <+: content := by
  have general : ∀ (content current first : Bytes) (rest : List Bytes),
      linesFrom current content = first :: rest → first <+: current ++ content := by
    intro content
    induction content with
    | nil =>
        intro current first rest split
        rw [linesFrom] at split
        split at split
        · cases split
        · cases split
          exact prefix_append _ _
    | cons byte content ih =>
        intro current first rest split
        rw [linesFrom] at split
        split at split
        · cases split
          have chomped : chomp current <+: current := by
            rw [chomp]
            split
            · exact dropLast_prefix _
            · exact prefix_refl _
          exact chomped.trans (prefix_append _ _)
        · have longer := ih _ _ _ split
          rw [append_assoc] at longer
          exact longer
  exact general content [] first rest split

/-- A byte below 128 in the encoding of a character is the character. -/
theorem toNat_eq_of_mem_utf8EncodeChar {byte : UInt8} {char : Char}
    (listed : byte ∈ String.utf8EncodeChar char) (ascii : byte.toNat < 128) :
    byte.toNat = char.toNat := by
  have bound : char.val.toNat < 1114112 := char.valid.elim (by omega) (by omega)
  simp only [String.utf8EncodeChar] at listed
  split at listed
  case isTrue short =>
    simp only [mem_singleton] at listed
    subst listed
    simp only [UInt8.toNat_ofNat']
    change char.val.toNat % 256 = char.val.toNat
    omega
  case isFalse long =>
    split at listed
    case isTrue two =>
      simp only [mem_cons, not_mem_nil, or_false] at listed
      rcases listed with rfl | rfl <;> simp only [UInt8.toNat_ofNat'] at ascii <;> omega
    case isFalse longer =>
      split at listed
      case isTrue three =>
        simp only [mem_cons, not_mem_nil, or_false] at listed
        rcases listed with rfl | rfl | rfl <;> simp only [UInt8.toNat_ofNat'] at ascii <;> omega
      case isFalse longest =>
        simp only [mem_cons, not_mem_nil, or_false] at listed
        rcases listed with rfl | rfl | rfl | rfl <;>
          simp only [UInt8.toNat_ofNat'] at ascii <;> omega

theorem mem_of_ascii_mem_encodeText {char : Char} {text : List Char} (ascii : char.toNat < 128)
    (listed : UInt8.ofNat char.toNat ∈ encodeText text) : char ∈ text := by
  rcases mem_flatMap.mp listed with ⟨other, member, listed⟩
  have small : (UInt8.ofNat char.toNat).toNat = char.toNat := by
    simp only [UInt8.toNat_ofNat']
    omega
  have same := toNat_eq_of_mem_utf8EncodeChar listed (by omega)
  have equal : char = other := Char.toNat_inj.mp (small.symm.trans same)
  rwa [equal]

end Lines

theorem newline_not_mem_encodeText {text : List Char} (unbroken : '\n' ∉ text) :
    newline ∉ encodeText text :=
  fun listed => unbroken (mem_of_ascii_mem_encodeText (by decide) listed)

theorem chomp_encodeText {text : List Char} (unended : '\r' ∉ text) :
    chomp (encodeText text) = encodeText text := by
  apply if_neg
  intro last
  have listed := mem_of_getLast? last
  exact unended (mem_of_ascii_mem_encodeText (by decide) listed)

/-- Texts that are written as one line each are read as those lines. -/
theorem lines_texts {texts : List (List Char)}
    (unbroken : ∀ text ∈ texts, '\n' ∉ text ∧ '\r' ∉ text) (rest : Bytes) :
    lines ((texts.flatMap fun text => encodeText text ++ [newline]) ++ rest) =
      texts.map encodeText ++ lines rest := by
  induction texts with
  | nil => rfl
  | cons text texts ih =>
      rcases unbroken text mem_cons_self with ⟨whole, unended⟩
      have shape : ((text :: texts).flatMap fun text => encodeText text ++ [newline]) ++ rest =
          encodeText text ++ newline ::
            ((texts.flatMap fun text => encodeText text ++ [newline]) ++ rest) := by
        simp
      rw [shape, lines_cons (newline_not_mem_encodeText whole), chomp_encodeText unended,
        ih fun other listed => unbroken other (mem_cons_of_mem text listed)]
      rfl

theorem length_decodeLines {decode : List Char → Except String Entry} {number : Nat}
    {pieces : List Bytes} {entries : List Entry}
    (decoded : decodeLines decode number pieces = .ok entries) :
    entries.length = pieces.length := by
  induction pieces generalizing number entries with
  | nil =>
      simp only [decodeLines, Except.ok.injEq] at decoded
      rw [← decoded]
      rfl
  | cons line pieces ih =>
      simp only [decodeLines] at decoded
      split at decoded
      case h_1 => cases decoded
      case h_2 =>
        split at decoded
        case h_1 => cases decoded
        case h_2 =>
          split at decoded
          case h_1 => cases decoded
          case h_2 rest known =>
            simp only [Except.ok.injEq] at decoded
            rw [← decoded, length_cons, ih known, length_cons]

/-- How the entries of a log are written: one line each, which decodes to what the log keeps of
the entry. -/
structure Format (Entry : Type) where
  encode : Entry → List Char
  decode : List Char → Except String Entry
  kept : Entry → Entry
  unbroken : ∀ entry, '\n' ∉ encode entry ∧ '\r' ∉ encode entry
  decode_encode : ∀ entry, decode (encode entry) = .ok (kept entry)

namespace Format

variable (format : Format Entry)

def line (entry : Entry) : Bytes := encodeText (format.encode entry) ++ [newline]

/-- What the appends of the entries have written. -/
def written (entries : List Entry) : Bytes := entries.flatMap format.line

variable {format}

theorem newline_not_mem (entry : Entry) : newline ∉ encodeText (format.encode entry) :=
  newline_not_mem_encodeText (format.unbroken entry).1

theorem lines_written (entries : List Entry) (rest : Bytes) :
    lines (format.written entries ++ rest) =
      entries.map (fun entry => encodeText (format.encode entry)) ++ lines rest := by
  have unbroken : ∀ text ∈ entries.map format.encode, '\n' ∉ text ∧ '\r' ∉ text := by
    intro text listed
    rcases mem_map.mp listed with ⟨entry, _, rfl⟩
    exact format.unbroken entry
  have split := lines_texts unbroken rest
  rw [flatMap_map, map_map] at split
  exact split

theorem decodeLines_encoded (entries : List Entry) (number : Nat) :
    decodeLines format.decode number (entries.map fun entry => encodeText (format.encode entry)) =
      .ok (entries.map format.kept) := by
  induction entries generalizing number with
  | nil => rfl
  | cons entry entries ih =>
      simp only [map_cons, decodeLines, decodeText_encodeText, format.decode_encode, ih]

theorem read_written (entries : List Entry) :
    read format.decode (format.written entries) = .ok (entries.map format.kept) := by
  have split : lines (format.written entries ++ []) = _ := lines_written entries []
  simp only [append_nil] at split
  have none : lines [] = [] := rfl
  simp only [read, split, none, append_nil]
  exact decodeLines_encoded entries 1

/-- After a crash that left `cut` bytes of the last line, the log reads as the entries before
it, or with it, and a further append adds its entry to what was read. -/
def TornAppendLaw (format : Format Entry) (entries : List Entry) (last next : Entry)
    (cut : Nat) : Prop :=
  ∃ result,
    read format.decode (format.written entries ++ (format.line last).take cut) = .ok result ∧
    (result = entries.map format.kept ∨ result = (entries ++ [last]).map format.kept) ∧
    read format.decode (format.written entries ++ (format.line last).take cut ++ format.line next) =
      .ok (result ++ [format.kept next])

theorem tornAppendLaw_of_nothing (entries : List Entry) (last next : Entry) :
    format.TornAppendLaw entries last next 0 := by
  refine ⟨entries.map format.kept, ?_, .inl rfl, ?_⟩
  · simpa using read_written entries
  · simpa [written] using read_written (entries ++ [next])

theorem tornAppendLaw_of_whole (entries : List Entry) (last next : Entry) {cut : Nat}
    (whole : (format.line last).length ≤ cut) : format.TornAppendLaw entries last next cut := by
  refine ⟨(entries ++ [last]).map format.kept, ?_, .inr rfl, ?_⟩
  · rw [take_of_length_le whole]
    simpa [written] using read_written (entries ++ [last])
  · rw [take_of_length_le whole]
    simpa [written] using read_written (entries ++ [last] ++ [next])

/-- A torn line is a line of its own before the next append, and a part of the next one after
it: the append adds no entry. -/
theorem not_tornAppendLaw_of_torn (entries : List Entry) (last next : Entry) {cut : Nat}
    (some : 0 < cut) (short : cut < (format.line last).length) :
    ¬format.TornAppendLaw entries last next cut := by
  rintro ⟨result, before, -, after⟩
  have within : cut ≤ (encodeText (format.encode last)).length := by
    simp only [line, length_append, length_singleton] at short
    omega
  have torn : (format.line last).take cut = (encodeText (format.encode last)).take cut := by
    rw [line, take_append_of_le_length within]
  have unbroken : newline ∉ (encodeText (format.encode last)).take cut :=
    fun listed => newline_not_mem last (mem_of_mem_take listed)
  have nonempty : (encodeText (format.encode last)).take cut ≠ [] := by
    intro empty
    have length := congrArg List.length empty
    simp only [length_take, length_nil] at length
    omega
  have first := length_decodeLines before
  rw [torn, lines_written, lines_torn unbroken nonempty] at first
  have second := length_decodeLines after
  have glued : newline ∉ (encodeText (format.encode last)).take cut ++
      encodeText (format.encode next) := by
    simp only [mem_append, not_or]
    exact ⟨unbroken, newline_not_mem next⟩
  have shape : format.written entries ++ (encodeText (format.encode last)).take cut ++
      format.line next = format.written entries ++ (((encodeText (format.encode last)).take cut ++
        encodeText (format.encode next)) ++ newline :: []) := by
    simp [line]
  rw [torn, shape, lines_written, lines_cons glued] at second
  simp only [length_append, length_map, length_cons] at first second
  have none : lines [] = [] := rfl
  simp only [none, length_nil] at second
  omega

theorem tornAppendLaw_iff (entries : List Entry) (last next : Entry) (cut : Nat) :
    format.TornAppendLaw entries last next cut ↔ cut = 0 ∨ (format.line last).length ≤ cut := by
  constructor
  · intro law
    by_contra neither
    simp only [not_or, not_le] at neither
    exact not_tornAppendLaw_of_torn entries last next (by omega) neither.2 law
  · rintro (rfl | whole)
    · exact tornAppendLaw_of_nothing entries last next
    · exact tornAppendLaw_of_whole entries last next whole

end Format

end LineLog

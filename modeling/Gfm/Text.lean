import Gfm.Types

/-!
# Text

The Unicode tables that the text functions of the source consult are a
parameter of the model; what the proofs need to know about them is a law of
the structure. The ASCII part of the tables is an instance.
-/

namespace Gfm

open List

def trimWith (isWhitespace : Char → Bool) (text : Text) : Text :=
  (text.dropWhile isWhitespace).rdropWhile isWhitespace

/-- The runs of so many characters, from the front to the back. -/
def charRuns (width : Nat) (text : Text) : List Text :=
  (List.range (text.length + 1 - width)).map fun start => (text.drop start).take width

theorem mem_charRuns {width : Nat} {text run : Text} :
    run ∈ charRuns width text ↔ run.length = width ∧ run <:+: text := by
  rw [charRuns, mem_map]
  constructor
  · rintro ⟨start, inside, rfl⟩
    rw [mem_range] at inside
    have long : width ≤ (text.drop start).length := by
      rw [length_drop]
      omega
    refine ⟨by rw [length_take, Nat.min_eq_left long], ?_⟩
    exact (List.take_prefix _ _).isInfix.trans (drop_suffix _ _).isInfix
  · rintro ⟨rfl, before, after, rfl⟩
    refine ⟨before.length, ?_, ?_⟩
    · rw [mem_range, length_append, length_append]
      omega
    · rw [append_assoc, drop_left, take_left]

structure Unicode where
  isWhitespace : Char → Bool
  isAlphabetic : Char → Bool
  isAlphanumeric : Char → Bool
  charToLowercase : Char → Text
  toLowercase : Text → Text
  toLowercase_trim_idem : ∀ text,
    toLowercase (trimWith isWhitespace (toLowercase (trimWith isWhitespace text))) =
      toLowercase (trimWith isWhitespace text)

namespace Unicode

variable (unicode : Unicode)

def trim (text : Text) : Text := trimWith unicode.isWhitespace text

/-- `trim().to_lowercase()`. -/
def lowercaseTerm (text : Text) : Text := unicode.toLowercase (unicode.trim text)

theorem lowercaseTerm_idem (text : Text) :
    unicode.lowercaseTerm (unicode.lowercaseTerm text) = unicode.lowercaseTerm text :=
  unicode.toLowercase_trim_idem text

/-- `trim()`, then every character in lower case. -/
def normalize (text : Text) : Text := (unicode.trim text).flatMap unicode.charToLowercase

/-- The maximal runs of alphanumeric characters. -/
def tokenize (text : Text) : List Text :=
  (text.splitOnP fun char => !unicode.isAlphanumeric char).filter fun part => !part.isEmpty

end Unicode

section Ascii

def asciiLower (char : Char) : Char :=
  if 65 ≤ char.toNat ∧ char.toNat ≤ 90 then Char.ofNat (char.toNat + 32) else char

def asciiWhitespace (char : Char) : Bool := char.toNat = 32 ∨ (9 ≤ char.toNat ∧ char.toNat ≤ 13)

def IsAsciiUpper (char : Char) : Prop := 65 ≤ char.toNat ∧ char.toNat ≤ 90

instance : DecidablePred IsAsciiUpper := fun char =>
  inferInstanceAs (Decidable (65 ≤ char.toNat ∧ char.toNat ≤ 90))

theorem asciiLower_of_not_upper {char : Char} (notUpper : ¬IsAsciiUpper char) :
    asciiLower char = char := if_neg notUpper

/-- The upper-case letters one by one, and every other character with itself. -/
theorem asciiLower_cases {motive : Char → Char → Prop}
    (upper : ∀ offset < 26, motive (Char.ofNat (65 + offset)) (Char.ofNat (97 + offset)))
    (other : ∀ char, ¬IsAsciiUpper char → motive char char) (char : Char) :
    motive char (asciiLower char) := by
  by_cases isUpper : IsAsciiUpper char
  · have bounds : 65 ≤ char.toNat ∧ char.toNat ≤ 90 := isUpper
    have same := upper (char.toNat - 65) (by omega)
    rw [show 65 + (char.toNat - 65) = char.toNat by omega,
      show 97 + (char.toNat - 65) = char.toNat + 32 by omega, Char.ofNat_toNat] at same
    rw [asciiLower, if_pos bounds]
    exact same
  · rw [asciiLower_of_not_upper isUpper]
    exact other char isUpper

theorem asciiLower_idem (char : Char) : asciiLower (asciiLower char) = asciiLower char :=
  asciiLower_cases (motive := fun _ lower => asciiLower lower = lower) (by decide)
    (fun _ => asciiLower_of_not_upper) char

theorem asciiWhitespace_asciiLower (char : Char) :
    asciiWhitespace (asciiLower char) = asciiWhitespace char :=
  asciiLower_cases (motive := fun char lower => asciiWhitespace lower = asciiWhitespace char)
    (by decide) (fun _ _ => rfl) char

theorem trimWith_map_asciiLower (text : Text) :
    trimWith asciiWhitespace (text.map asciiLower) =
      (trimWith asciiWhitespace text).map asciiLower := by
  have same : asciiWhitespace ∘ asciiLower = asciiWhitespace :=
    funext asciiWhitespace_asciiLower
  simp only [trimWith, List.rdropWhile, dropWhile_map, same, ← map_reverse]

theorem rdropWhile_dropWhile_comm (drop : Char → Bool) (text : Text) :
    ((text.dropWhile drop).rdropWhile drop).dropWhile drop =
      (text.dropWhile drop).rdropWhile drop := by
  rw [dropWhile_eq_self_iff]
  intro nonempty
  have front := rdropWhile_prefix drop (text.dropWhile drop)
  rw [front.getElem nonempty]
  exact dropWhile_get_zero_not drop text (nonempty.trans_le front.length_le)

theorem trimWith_idem (isWhitespace : Char → Bool) (text : Text) :
    trimWith isWhitespace (trimWith isWhitespace text) = trimWith isWhitespace text := by
  rw [trimWith, trimWith, rdropWhile_dropWhile_comm, rdropWhile_idempotent]

def Unicode.ascii : Unicode where
  isWhitespace := asciiWhitespace
  isAlphabetic := fun char => char.isAlpha
  isAlphanumeric := fun char => char.isAlphanum
  charToLowercase := fun char => [asciiLower char]
  toLowercase := fun text => text.map asciiLower
  toLowercase_trim_idem := by
    intro text
    rw [trimWith_map_asciiLower, trimWith_idem, map_map]
    congr 1
    funext char
    exact asciiLower_idem char

end Ascii

end Gfm

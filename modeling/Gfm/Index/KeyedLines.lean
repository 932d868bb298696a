import Gfm.Tsv

/-!
# Files of keys and values

The state of a volume, the cursor of its events, the progress of a scan and the description of a
content job are files of one kind: a header, then a key and a value on each line, in any order. A
key that comes again is an error in the state of a volume and replaces its value in the others.
-/

namespace Gfm.Index

open LineLog List

/-- What a file is called in errors, whether a key may come again, and what its lines and its end
do. -/
structure KeyedFormat (Fields Value : Type) where
  label : String
  magic : Text
  keysOnce : Bool := false
  start : Fields
  setField : Path → Fields → Text → Text → Except GfmError Fields
  finish : Path → Fields → Except GfmError Value

section Lines

def stateLine (field : Text × Text) : Text := field.1 ++ '\t' :: field.2

def splitOnce (line : Text) : Option (Text × Text) :=
  let key := line.takeWhile fun char => char ≠ '\t'
  if key.length < line.length then some (key, line.drop (key.length + 1)) else none

theorem splitOnce_stateLine {key : Text} (whole : '\t' ∉ key) (value : Text) :
    splitOnce (stateLine (key, value)) = some (key, value) := by
  have cut : (key ++ '\t' :: value).takeWhile (fun char => char ≠ '\t') = key := by
    rw [takeWhile_append_of_pos]
    · simp
    · intro char listed
      simp only [decide_eq_true_eq]
      intro same
      exact whole (same ▸ listed)
  simp only [splitOnce, stateLine, cut]
  simp

/-- One line of a file at a time. -/
theorem foldlM_cons_ok {Fields : Type} {set : Fields → Text × Text → Except GfmError Fields}
    {fields after : Fields} {pair : Text × Text} (ok : set fields pair = .ok after)
    (rest : List (Text × Text)) : (pair :: rest).foldlM set fields = rest.foldlM set after := by
  rw [foldlM_cons, ok]
  rfl

end Lines

section Values

variable (label : String) (path : Path)

def stateError (reason : String) : GfmError := .format (path.display ++ ": " ++ reason)

def notUtf8 : GfmError := .io path "stream did not contain valid UTF-8"

def parseKeyed (bound : Nat) (value : Text) (field : String) : Except GfmError (Fin bound) :=
  match Tsv.parse bound value with
  | .ok number => .ok number
  | .error reason => .error (stateError path ("invalid " ++ label ++ " " ++ field ++ " \x60" ++
      String.ofList value ++ "\x60: " ++ reason))

def requiredKeyed {α : Type} (value : Option α) (field : String) : Except GfmError α :=
  match value with
  | some value => .ok value
  | none => .error (stateError path ("missing " ++ label ++ " field \x60" ++ field ++ "\x60"))

def unknownKey {α : Type} (key : Text) : Except GfmError α :=
  .error (stateError path ("unknown " ++ label ++ " field \x60" ++ String.ofList key ++ "\x60"))

variable {label path}

@[simp]
theorem parseKeyed_decimal {bound : Nat} (number : Fin bound) (field : String) :
    parseKeyed label path bound (Tsv.decimal number.val) field = .ok number := by
  simp only [parseKeyed, Tsv.parse_decimal]

end Values

namespace KeyedFormat

variable {Fields Value : Type} (format : KeyedFormat Fields Value)

def write (pairs : List (Text × Text)) : Bytes :=
  (format.magic :: pairs.map stateLine).flatMap fun line => encodeText line ++ [newline]

variable (path : Path)

/-- The fields of the lines from a line on, after these keys. -/
def readLines (seen : List Text) : Nat → List Bytes → Fields → Except GfmError Fields
  | _, [], fields => .ok fields
  | number, line :: rest, fields =>
      match decodeText line with
      | none => .error (notUtf8 path)
      | some line =>
          match splitOnce line with
          | none => .error (.format (path.display ++ " line " ++ toString number ++
              ": expected key and value"))
          | some (key, value) =>
              if format.keysOnce ∧ key ∈ seen then
                .error (.format (path.display ++ " line " ++ toString number ++ ": duplicate " ++
                  format.label ++ " field \x60" ++ String.ofList key ++ "\x60"))
              else
                match format.setField path fields key value with
                | .error error => .error error
                | .ok fields => readLines (key :: seen) (number + 1) rest fields

def read (content : Bytes) : Except GfmError Value :=
  match lines content with
  | [] => .error (.format ("empty " ++ format.label ++ " " ++ path.display))
  | header :: rest =>
      match decodeText header with
      | none => .error (notUtf8 path)
      | some header =>
          if header ≠ format.magic then
            .error (.format ("unsupported " ++ format.label ++ " header \x60" ++
              String.ofList header ++ "\x60 in " ++ path.display))
          else
            match format.readLines path [] 2 rest format.start with
            | .error error => .error error
            | .ok fields => format.finish path fields

variable {format path} {pairs : List (Text × Text)}

/-- The lines set the fields one after the other, if no key comes again where it may not. -/
theorem readLines_eq (whole : ∀ pair ∈ pairs, '\t' ∉ pair.1) {seen : List Text}
    (distinct : format.keysOnce → (pairs.map Prod.fst).Nodup ∧ ∀ pair ∈ pairs, pair.1 ∉ seen)
    (number : Nat) (fields : Fields) :
    format.readLines path seen number (pairs.map fun pair => encodeText (stateLine pair)) fields =
      pairs.foldlM (fun fields pair => format.setField path fields pair.1 pair.2) fields := by
  induction pairs generalizing seen number fields with
  | nil => rfl
  | cons pair pairs ih =>
      rcases forall_mem_cons.mp whole with ⟨first, later⟩
      have unseen : ¬(format.keysOnce ∧ pair.1 ∈ seen) :=
        fun again => (distinct again.1).2 pair mem_cons_self again.2
      rw [map_cons, readLines, decodeText_encodeText, foldlM_cons]
      simp only [splitOnce_stateLine first]
      rw [if_neg unseen]
      cases format.setField path fields pair.1 pair.2 with
      | error error => rfl
      | ok next =>
          refine ih later ?_ (number + 1) next
          intro once
          rcases distinct once with ⟨keys, fresh⟩
          rw [map_cons, nodup_cons] at keys
          refine ⟨keys.2, fun other listed again => ?_⟩
          rcases mem_cons.mp again with same | again
          · exact keys.1 (same ▸ mem_map_of_mem listed)
          · exact fresh other (mem_cons_of_mem _ listed) again

theorem lines_write (header : '\n' ∉ format.magic ∧ '\r' ∉ format.magic)
    (keys : ∀ key ∈ pairs.map Prod.fst, Tsv.Plain key)
    (values : ∀ value ∈ pairs.map Prod.snd, Tsv.Plain value) :
    lines (format.write pairs) = encodeText format.magic ::
      pairs.map fun pair => encodeText (stateLine pair) := by
  have unbroken : ∀ text ∈ format.magic :: pairs.map stateLine, '\n' ∉ text ∧ '\r' ∉ text := by
    intro text listed
    rcases mem_cons.mp listed with rfl | listed
    · exact header
    · rcases mem_map.mp listed with ⟨pair, member, rfl⟩
      have key := keys pair.1 (mem_map_of_mem member)
      have value := values pair.2 (mem_map_of_mem member)
      simp only [stateLine, mem_append, mem_cons, not_or]
      exact ⟨⟨key.2.1, by decide, value.2.1⟩, key.2.2, by decide, value.2.2⟩
  have split := lines_texts unbroken []
  rw [append_nil, show lines [] = [] from rfl, append_nil, map_cons,
    map_map] at split
  exact split

/-- What is read from a written file is what its lines set. -/
theorem read_write (header : '\n' ∉ format.magic ∧ '\r' ∉ format.magic)
    (keys : ∀ key ∈ pairs.map Prod.fst, Tsv.Plain key)
    (distinct : format.keysOnce → (pairs.map Prod.fst).Nodup)
    (values : ∀ value ∈ pairs.map Prod.snd, Tsv.Plain value) {fields : Fields}
    (set : pairs.foldlM (fun fields pair => format.setField path fields pair.1 pair.2)
      format.start = .ok fields) :
    format.read path (format.write pairs) = format.finish path fields := by
  have whole : ∀ pair ∈ pairs, '\t' ∉ pair.1 :=
    fun pair listed => (keys pair.1 (mem_map_of_mem listed)).1
  rw [read, lines_write header keys values]
  simp only [decodeText_encodeText]
  rw [if_neg (not_not_intro rfl), readLines_eq whole, set]
  exact fun once => ⟨distinct once, fun _ _ => not_mem_nil⟩

end KeyedFormat

end Gfm.Index

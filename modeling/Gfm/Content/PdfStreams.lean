import Gfm.Content.Pdf

/-!
# Streams of PDF files

The dictionary of a stream is not parsed: the header of the stream is what stands between the last
opening bracket before the keyword and the keyword, and the names in it decide whether the body is
skipped, inflated or read as it is.
-/

namespace Gfm.Content

open LineLog List

section Names

/-- The bytes that continue a name. -/
def isNameByte (byte : UInt8) : Bool :=
  (48 ≤ byte ∧ byte ≤ 57) ∨ (65 ≤ byte ∧ byte ≤ 90) ∨ (97 ≤ byte ∧ byte ≤ 122) ∨
    byte = 45 ∨ byte = 95 ∨ byte = 46

def isPdfWhitespace (byte : UInt8) : Bool := byte ∈ [0, 9, 10, 12, 13, 32]

def pdfNameEndsAt (bytes : Bytes) (index : Nat) : Bool :=
  bytes[index]?.all fun byte => !isNameByte byte

def skipPdfWhitespace (bytes : Bytes) (index : Nat) : Nat :=
  index + ((bytes.drop index).takeWhile isPdfWhitespace).length

theorem le_findFrom {haystack needle : Bytes} {start place : Nat}
    (found : findFrom haystack needle start = some place) :
    start ≤ place ∧ place + needle.length ≤ haystack.length ∧ 0 < needle.length := by
  rw [findFrom] at found
  split at found
  next => cases found
  next inside =>
    rw [not_or, not_le] at inside
    rcases Option.map_eq_some_iff.mp found with ⟨offset, here, rfl⟩
    have fits := Finding.length_le_of_find here
    rw [length_drop] at fits
    have nonempty : needle ≠ [] := by simpa using inside.1
    have positive := length_pos_iff.mpr nonempty
    omega

/-- The place of the slash of the first such name at or after the start. -/
def findSlashNameFrom (bytes name : Bytes) (start : Nat) : Option Nat :=
  match _found : findFrom bytes name start with
  | none => none
  | some position =>
      if 0 < position ∧ bytes[position - 1]? = some 47 ∧
          pdfNameEndsAt bytes (position + name.length) then
        some (position - 1)
      else findSlashNameFrom bytes name (position + name.length)
termination_by bytes.length - start
decreasing_by
  have bounds := le_findFrom _found
  omega

theorem le_findSlashNameFrom {bytes name : Bytes} {start place : Nat}
    (found : findSlashNameFrom bytes name start = some place) :
    start ≤ place + 1 ∧ place + 1 + name.length ≤ bytes.length ∧ 0 < name.length := by
  fun_induction findSlashNameFrom bytes name start with
  | case1 => cases found
  | case2 start position here named =>
      have bounds := le_findFrom here
      obtain rfl := Option.some.inj found
      omega
  | case3 start position here _ ih =>
      have bounds := le_findFrom here
      have later := ih found
      omega

def headerHasSlashName (bytes name : Bytes) : Bool := (findSlashNameFrom bytes name 0).isSome

/-- Whether the name stands at the index, behind a slash, and ends there. -/
def hasNameAt (bytes name : Bytes) (index : Nat) : Bool :=
  bytes[index]? = some 47 ∧ (bytes.drop (index + 1)).take name.length = name ∧
    pdfNameEndsAt bytes (index + 1 + name.length)

def headerHasNameValueFrom (bytes key value : Bytes) (cursor : Nat) : Bool :=
  match _found : findSlashNameFrom bytes key cursor with
  | none => false
  | some position =>
      if hasNameAt bytes value (skipPdfWhitespace bytes (position + key.length + 1)) then true
      else headerHasNameValueFrom bytes key value (position + key.length + 1)
termination_by bytes.length - cursor
decreasing_by
  have bounds := le_findSlashNameFrom _found
  omega

def headerHasNameValue (bytes key value : Bytes) : Bool :=
  headerHasNameValueFrom bytes key value 0

def streamIsImageXobject (header : Bytes) : Bool :=
  headerHasNameValue header (bytesOf "Subtype") (bytesOf "Image")

def streamHasFilter (header filter : Bytes) : Bool := headerHasSlashName header filter

end Names

section Streams

structure PdfStream where
  header : Bytes
  body : Bytes
  deriving DecidableEq

def streamBodyStart (bytes : Bytes) (index : Nat) : Option Nat :=
  if bytes.length ≤ index then none
  else if bytes[index]? = some 13 ∧ bytes[index + 1]? = some 10 then some (index + 2)
  else if bytes[index]? = some 10 ∨ bytes[index]? = some 13 then some (index + 1)
  else some index

def trimStreamBody (body : Bytes) : Bytes := body.rdropWhile fun byte => byte = 10 ∨ byte = 13

/-- The place of the last such byte. -/
def rposition (byte : UInt8) (bytes : Bytes) : Option Nat :=
  (bytes.reverse.findIdx? fun other => other = byte).map (bytes.length - 1 - ·)

/-- The first stream at or after the cursor, and the cursor behind it. -/
def nextStream (bytes : Bytes) (cursor : Nat) : Option (PdfStream × Nat) := do
  let streamAt ← findFrom bytes (bytesOf "stream") cursor
  let bodyStart ← streamBodyStart bytes (streamAt + 6)
  let endAt ← findFrom bytes (bytesOf "endstream") bodyStart
  let headerStart := (rposition 60 (bytes.take streamAt)).getD (streamAt - 256)
  return (⟨(bytes.take streamAt).drop headerStart,
    trimStreamBody ((bytes.take endAt).drop bodyStart)⟩, endAt + 9)

/-- What the extractor does with a stream. -/
inductive StreamClass where
  | plain
  | inflated
  | unsupported
  | image
  deriving DecidableEq, Repr

def classify (header : Bytes) : StreamClass :=
  if streamIsImageXobject header then .image
  else if streamHasFilter header (bytesOf "LZWDecode") ∨
      streamHasFilter header (bytesOf "ASCII85Decode") ∨
      streamHasFilter header (bytesOf "DCTDecode") then .unsupported
  else if streamHasFilter header (bytesOf "FlateDecode") then .inflated
  else .plain

inductive InflateError where
  | tooLarge
  | corrupt
  deriving DecidableEq, Repr

inductive PdfExtractStatus where
  | tooLarge
  | corrupt
  deriving DecidableEq, Repr

/-- One turn of the loop over the streams. -/
def extractStream (inflate : Bytes → Except InflateError Bytes) (text : Text)
    (stream : PdfStream) : Except PdfExtractStatus Text :=
  match classify stream.header with
  | .image => .ok text
  | .unsupported => .ok text
  | .inflated =>
      match inflate stream.body with
      | .ok decoded => .ok (extractTextStream text decoded)
      | .error .tooLarge => .error .tooLarge
      | .error .corrupt => .error .corrupt
  | .plain => .ok (extractTextStream text stream.body)

theorem le_streamBodyStart {bytes : Bytes} {index start : Nat}
    (starts : streamBodyStart bytes index = some start) : index ≤ start := by
  unfold streamBodyStart at starts
  split_ifs at starts <;> simp at starts <;> omega

theorem le_nextStream {bytes : Bytes} {cursor behind : Nat} {stream : PdfStream}
    (next : nextStream bytes cursor = some (stream, behind)) :
    behind ≤ bytes.length ∧ ∃ streamAt, findFrom bytes (bytesOf "stream") cursor = some streamAt ∧
      cursor ≤ streamAt ∧ streamAt < behind := by
  rcases Option.bind_eq_some_iff.mp next with ⟨streamAt, found, next⟩
  rcases Option.bind_eq_some_iff.mp next with ⟨bodyStart, starts, next⟩
  rcases Option.bind_eq_some_iff.mp next with ⟨endAt, ended, next⟩
  have keyword : (bytesOf "endstream").length = 9 := by decide
  have first := le_findFrom found
  have last := le_findFrom ended
  have body := le_streamBodyStart starts
  obtain ⟨-, rfl⟩ := Prod.mk.inj (Option.some.inj next)
  exact ⟨by omega, streamAt, found, first.1, by omega⟩

/-- The text of the streams at or after the cursor. -/
def extractStreams (inflate : Bytes → Except InflateError Bytes) (bytes : Bytes) (text : Text)
    (cursor : Nat) : Except PdfExtractStatus Text :=
  match _next : nextStream bytes cursor with
  | none => .ok text
  | some (stream, behind) =>
      match extractStream inflate text stream with
      | .error status => .error status
      | .ok text => extractStreams inflate bytes text behind
termination_by bytes.length - cursor
decreasing_by
  obtain ⟨inside, streamAt, -, after, before⟩ := le_nextStream _next
  omega

end Streams

section Meaning

/-- A name that comes before these bytes ends there. -/
def NameEnds (after : Bytes) : Prop := ∀ byte ∈ after.head?, isNameByte byte = false

/-- The bytes begin with a slash and the name. -/
def Named (name bytes : Bytes) : Prop := ∃ after, bytes = 47 :: (name ++ after) ∧ NameEnds after

def HasName (name bytes : Bytes) : Prop := ∃ before rest, bytes = before ++ rest ∧ Named name rest

variable {bytes name : Bytes}

theorem named_drop_iff {place : Nat} : Named name (bytes.drop place) ↔
    bytes[place]? = some 47 ∧ name <+: bytes.drop (place + 1) ∧
      pdfNameEndsAt bytes (place + 1 + name.length) = true := by
  have parts : ∀ {after : Bytes}, bytes.drop (place + 1) = name ++ after →
      (pdfNameEndsAt bytes (place + 1 + name.length) = true ↔ NameEnds after) := by
    intro after dropped
    have next : bytes[place + 1 + name.length]? = after.head? := by
      rw [← head?_drop, ← drop_drop, dropped, drop_left]
    rw [pdfNameEndsAt, next, NameEnds]
    cases after <;> simp
  constructor
  · rintro ⟨after, dropped, ends⟩
    have rest : bytes.drop (place + 1) = name ++ after := by
      rw [← drop_drop, dropped]
      rfl
    refine ⟨?_, ⟨after, rest.symm⟩, (parts rest).mpr ends⟩
    rw [← head?_drop, dropped]
    rfl
  · rintro ⟨slash, ⟨after, rest⟩, ends⟩
    refine ⟨after, ?_, (parts rest.symm).mp ends⟩
    have inside : place < bytes.length := (List.getElem?_eq_some_iff.mp slash).1
    rw [drop_eq_getElem_cons inside, (List.getElem?_eq_some_iff.mp slash).2, rest]

theorem findFrom_eq_some {haystack needle : Bytes} {start place : Nat}
    (found : findFrom haystack needle start = some place) :
    needle <+: haystack.drop place ∧
      ∀ earlier, start ≤ earlier → earlier < place → ¬needle <+: haystack.drop earlier := by
  rw [findFrom] at found
  split at found
  next => cases found
  next inside =>
    rcases Option.map_eq_some_iff.mp found with ⟨offset, here, rfl⟩
    rcases Finding.find_eq_some_iff.mp here with ⟨-, begins, none⟩
    rw [drop_drop] at begins
    refine ⟨begins, fun earlier after before again => ?_⟩
    apply none (earlier - start) (by omega)
    rwa [drop_drop, Nat.add_sub_cancel' after]

theorem findFrom_eq_none {haystack needle : Bytes} {start : Nat} (nonempty : needle ≠ [])
    (none : findFrom haystack needle start = none) {place : Nat} (after : start ≤ place) :
    ¬needle <+: haystack.drop place := by
  rw [findFrom] at none
  split at none
  next outside =>
    have beyond : haystack.length ≤ place := by
      rcases outside with empty | beyond
      · exact (nonempty (List.isEmpty_iff.mp empty)).elim
      · exact beyond.trans after
    rw [drop_eq_nil_of_le beyond, prefix_nil]
    exact nonempty
  next inside =>
    intro begins
    apply Finding.find_eq_none_iff.mp (Option.map_eq_none_iff.mp none)
    have split := drop_drop (i := place - start) (j := start) (l := haystack)
    rw [Nat.add_sub_cancel' after] at split
    rw [← split] at begins
    exact begins.isInfix.trans (drop_suffix _ _).isInfix

/-- The search passes over no name: where one starts inside another, there is a slash in it. -/
theorem named_passed {start position place : Nat} (noSlash : 47 ∉ name)
    (found : findFrom bytes name start = some position)
    (test : ¬(0 < position ∧ bytes[position - 1]? = some 47 ∧
      pdfNameEndsAt bytes (position + name.length)))
    (after : start ≤ place + 1) (named : Named name (bytes.drop place)) :
    position + name.length ≤ place + 1 := by
  rcases findFrom_eq_some found with ⟨here, none⟩
  rcases named_drop_iff.mp named with ⟨slash, begins, ends⟩
  by_contra early
  rcases lt_trichotomy (place + 1) position with before | same | inside
  · exact none _ after before begins
  · rw [← same] at test
    exact test ⟨by omega, slash, ends⟩
  · rcases here with ⟨rest, dropped⟩
    have byte : name[place - position]? = some 47 := by
      have whole : (bytes.drop position)[place - position]? = some 47 := by
        rw [getElem?_drop, Nat.add_sub_cancel' (by omega), slash]
      rwa [← dropped, getElem?_append_left (by omega)] at whole
    exact noSlash (mem_of_getElem? byte)

theorem findSlashNameFrom_eq_some {start place : Nat} (noSlash : 47 ∉ name)
    (found : findSlashNameFrom bytes name start = some place) :
    Named name (bytes.drop place) ∧
      ∀ earlier, start ≤ earlier + 1 → earlier < place → ¬Named name (bytes.drop earlier) := by
  fun_induction findSlashNameFrom bytes name start with
  | case1 => cases found
  | case2 start position here test =>
      obtain rfl := Option.some.inj found
      obtain ⟨slash, rfl⟩ : ∃ slash, position = slash + 1 := ⟨position - 1, by omega⟩
      rcases findFrom_eq_some here with ⟨begins, none⟩
      refine ⟨named_drop_iff.mpr ⟨test.2.1, begins, test.2.2⟩, ?_⟩
      intro earlier after before named
      exact none _ after (by omega) (named_drop_iff.mp named).2.1
  | case3 start position here test ih =>
      rcases ih found with ⟨named, none⟩
      refine ⟨named, fun earlier after before early => ?_⟩
      exact none earlier (named_passed noSlash here test after early) before early

theorem findSlashNameFrom_eq_none {start place : Nat} (noSlash : 47 ∉ name) (nonempty : name ≠ [])
    (none : findSlashNameFrom bytes name start = none) (after : start ≤ place + 1) :
    ¬Named name (bytes.drop place) := by
  intro named
  fun_induction findSlashNameFrom bytes name start with
  | case1 start nowhere =>
      exact findFrom_eq_none nonempty nowhere after (named_drop_iff.mp named).2.1
  | case2 => cases none
  | case3 start position here test ih =>
      exact ih none (named_passed noSlash here test after named)

theorem hasName_iff_drop : HasName name bytes ↔ ∃ place, Named name (bytes.drop place) := by
  constructor
  · rintro ⟨before, rest, rfl, named⟩
    exact ⟨before.length, by rwa [drop_left]⟩
  · rintro ⟨place, named⟩
    exact ⟨bytes.take place, bytes.drop place, (take_append_drop _ _).symm, named⟩

theorem headerHasSlashName_iff (noSlash : 47 ∉ name) (nonempty : name ≠ []) :
    headerHasSlashName bytes name = true ↔ HasName name bytes := by
  rw [headerHasSlashName, hasName_iff_drop]
  cases found : findSlashNameFrom bytes name 0 with
  | none =>
      have nowhere : ∀ place, ¬Named name (bytes.drop place) := fun place =>
        findSlashNameFrom_eq_none noSlash nonempty found (Nat.zero_le _)
      simpa using nowhere
  | some place => simpa using ⟨place, (findSlashNameFrom_eq_some noSlash found).1⟩

/-- The bytes begin with the key and, behind white space, the value. -/
def Paired (key value bytes : Bytes) : Prop :=
  ∃ spaces rest, bytes = 47 :: (key ++ (spaces ++ rest)) ∧
    (∀ byte ∈ spaces, isPdfWhitespace byte = true) ∧ Named value rest

def HasPair (key value bytes : Bytes) : Prop :=
  ∃ before rest, bytes = before ++ rest ∧ Paired key value rest

variable {key value : Bytes}

theorem isNameByte_of_isPdfWhitespace {byte : UInt8} (space : isPdfWhitespace byte = true) :
    isNameByte byte = false := by
  simp only [isPdfWhitespace, mem_cons, not_mem_nil, or_false,
    decide_eq_true_eq] at space
  rcases space with rfl | rfl | rfl | rfl | rfl | rfl <;> rfl

theorem nameEnds_spaces {spaces rest : Bytes}
    (blank : ∀ byte ∈ spaces, isPdfWhitespace byte = true) (ends : NameEnds rest) :
    NameEnds (spaces ++ rest) := by
  cases spaces with
  | nil => exact ends
  | cons space spaces =>
      intro byte first
      obtain rfl := Option.some.inj first
      exact isNameByte_of_isPdfWhitespace (blank _ (mem_cons_self ..))

theorem Named.nameEnds {rest : Bytes} (named : Named value rest) : NameEnds rest := by
  rcases named with ⟨after, rfl, -⟩
  intro byte first
  obtain rfl := Option.some.inj first
  rfl

theorem Paired.named (paired : Paired key value bytes) : Named key bytes := by
  rcases paired with ⟨spaces, rest, rfl, blank, named⟩
  exact ⟨spaces ++ rest, rfl, nameEnds_spaces blank named.nameEnds⟩

theorem hasNameAt_iff {index : Nat} :
    hasNameAt bytes value index = true ↔ Named value (bytes.drop index) := by
  rw [named_drop_iff, prefix_iff_eq_take, hasNameAt, decide_eq_true_eq, eq_comm (a := value)]

theorem paired_drop_iff {place : Nat} : Paired key value (bytes.drop place) ↔
    Named key (bytes.drop place) ∧
      hasNameAt bytes value (skipPdfWhitespace bytes (place + key.length + 1)) = true := by
  rw [hasNameAt_iff, skipPdfWhitespace]
  have behind : ∀ {after : Bytes}, bytes.drop place = 47 :: (key ++ after) →
      bytes.drop (place + key.length + 1) = after := by
    intro after dropped
    rw [Nat.add_assoc, ← drop_drop, dropped, drop_succ_cons, drop_left]
  constructor
  · intro paired
    refine ⟨paired.named, ?_⟩
    rcases paired with ⟨spaces, rest, dropped, blank, named⟩
    have stops : rest.takeWhile isPdfWhitespace = [] := by
      rcases named with ⟨after, rfl, -⟩
      rfl
    rw [behind dropped, takeWhile_append_of_pos blank, stops, append_nil,
      ← drop_drop, behind dropped, drop_left]
    exact named
  · rintro ⟨⟨after, dropped, -⟩, named⟩
    rw [behind dropped, ← drop_drop, behind dropped] at named
    have split := prefix_iff_eq_append.mp (List.takeWhile_prefix (p := isPdfWhitespace)
      (l := after))
    refine ⟨after.takeWhile isPdfWhitespace,
      after.drop (after.takeWhile isPdfWhitespace).length, ?_, ?_, named⟩
    · rw [dropped, split]
    · exact fun byte listed => mem_takeWhile_imp listed

theorem headerHasNameValueFrom_iff {start : Nat} (noSlash : 47 ∉ key) (nonempty : key ≠ []) :
    headerHasNameValueFrom bytes key value start = true ↔
      ∃ place, start ≤ place + 1 ∧ Paired key value (bytes.drop place) := by
  fun_induction headerHasNameValueFrom bytes key value start with
  | case1 start nowhere =>
      have none : ∀ place, start ≤ place + 1 → ¬Paired key value (bytes.drop place) :=
        fun place after paired =>
          findSlashNameFrom_eq_none noSlash nonempty nowhere after paired.named
      simpa using none
  | case2 start position here test =>
      have bounds := le_findSlashNameFrom here
      have named := (findSlashNameFrom_eq_some noSlash here).1
      simpa using ⟨position, bounds.1, paired_drop_iff.mpr ⟨named, test⟩⟩
  | case3 start position here test ih =>
      have bounds := le_findSlashNameFrom here
      rcases findSlashNameFrom_eq_some noSlash here with ⟨⟨rest, dropped, -⟩, none⟩
      rw [ih]
      constructor
      · rintro ⟨place, after, paired⟩
        exact ⟨place, by omega, paired⟩
      · rintro ⟨place, after, paired⟩
        refine ⟨place, ?_, paired⟩
        by_contra early
        rcases lt_trichotomy place position with before | rfl | inside
        · exact none place after before paired.named
        · exact test (paired_drop_iff.mp paired).2
        · have slash := (named_drop_iff.mp paired.named).1
          have byte : key[place - position - 1]? = some 47 := by
            have whole : (bytes.drop position)[place - position]? = some 47 := by
              rw [getElem?_drop, Nat.add_sub_cancel' inside.le, slash]
            obtain ⟨offset, offsetEq⟩ : ∃ offset, place - position = offset + 1 :=
              ⟨place - position - 1, by omega⟩
            rw [dropped, offsetEq, getElem?_cons_succ,
              getElem?_append_left (by omega)] at whole
            rw [offsetEq, Nat.add_sub_cancel]
            exact whole
          exact noSlash (mem_of_getElem? byte)

theorem headerHasNameValue_iff (noSlash : 47 ∉ key) (nonempty : key ≠ []) :
    headerHasNameValue bytes key value = true ↔ HasPair key value bytes := by
  rw [headerHasNameValue, headerHasNameValueFrom_iff noSlash nonempty]
  constructor
  · rintro ⟨place, -, paired⟩
    exact ⟨bytes.take place, bytes.drop place, (take_append_drop _ _).symm, paired⟩
  · rintro ⟨before, rest, rfl, paired⟩
    exact ⟨before.length, Nat.zero_le _, by rwa [drop_left]⟩

end Meaning

section Pieces

variable {name key value left right : Bytes}

/-- The bytes end with the key and white space. -/
def Closes (key bytes : Bytes) : Prop :=
  ∃ before spaces, bytes = before ++ 47 :: (key ++ spaces) ∧
    ∀ byte ∈ spaces, isPdfWhitespace byte = true

/-- The bytes begin with white space and the value. -/
def Opens (value bytes : Bytes) : Prop :=
  ∃ spaces rest, bytes = spaces ++ rest ∧ (∀ byte ∈ spaces, isPdfWhitespace byte = true) ∧
    Named value rest

theorem NameEnds.of_append (ends : NameEnds (left ++ right)) : NameEnds left := by
  cases left with
  | nil => simp [NameEnds]
  | cons byte left => exact ends

theorem NameEnds.append (ends : NameEnds left) (rightEnds : NameEnds right) :
    NameEnds (left ++ right) := by
  cases left with
  | nil => exact rightEnds
  | cons byte left => exact ends

/-- A name does not go on behind a byte that ends it. -/
theorem Named.of_append (named : Named name (left ++ right)) (nonempty : left ≠ [])
    (letters : ∀ byte ∈ name, isNameByte byte = true) (ends : NameEnds right) :
    Named name left := by
  rcases named with ⟨after, whole, afterEnds⟩
  cases left with
  | nil => exact (nonempty rfl).elim
  | cons slash left =>
      rw [cons_append, List.cons.injEq] at whole
      rcases whole with ⟨rfl, whole⟩
      rcases append_eq_append_iff.mp whole with
        ⟨rest, nameEq, rightEq⟩ | ⟨rest, leftEq, afterEq⟩
      · cases rest with
        | nil => exact ⟨[], by rw [nameEq, append_nil, append_nil], by simp [NameEnds]⟩
        | cons byte rest =>
            have letter := letters byte (by simp [nameEq])
            rw [ends byte (by simp [rightEq])] at letter
            cases letter
      · rw [afterEq] at afterEnds
        exact ⟨rest, by rw [leftEq], afterEnds.of_append⟩

theorem hasName_append (letters : ∀ byte ∈ name, isNameByte byte = true) (ends : NameEnds right) :
    HasName name (left ++ right) ↔ HasName name left ∨ HasName name right := by
  constructor
  · rintro ⟨before, rest, whole, named⟩
    rcases append_eq_append_iff.mp whole with
      ⟨more, beforeEq, rightEq⟩ | ⟨more, leftEq, restEq⟩
    · exact .inr ⟨more, rest, rightEq, named⟩
    · rw [restEq] at named
      rcases eq_or_ne more [] with rfl | nonempty
      · exact .inr ⟨[], right, rfl, named⟩
      · exact .inl ⟨before, more, leftEq, named.of_append nonempty letters ends⟩
  · rintro (⟨before, rest, rfl, after, rfl, afterEnds⟩ | ⟨before, rest, rfl, named⟩)
    · exact ⟨before, 47 :: (name ++ (after ++ right)), by simp, after ++ right, rfl,
        afterEnds.append ends⟩
    · exact ⟨left ++ before, rest, by simp, named⟩

theorem hasPair_append (keyLetters : ∀ byte ∈ key, isNameByte byte = true)
    (letters : ∀ byte ∈ value, isNameByte byte = true) (ends : NameEnds right)
    (apart : ¬(Closes key left ∧ Opens value right)) :
    HasPair key value (left ++ right) ↔ HasPair key value left ∨ HasPair key value right := by
  constructor
  · rintro ⟨before, found, whole, paired⟩
    rcases append_eq_append_iff.mp whole with
      ⟨more, beforeEq, rightEq⟩ | ⟨more, leftEq, foundEq⟩
    · exact .inr ⟨more, found, rightEq, paired⟩
    rw [foundEq] at paired
    rcases eq_or_ne more [] with rfl | nonempty
    · exact .inr ⟨[], right, rfl, paired⟩
    left
    refine ⟨before, more, leftEq, ?_⟩
    rcases paired.named.of_append nonempty keyLetters ends with ⟨after, rfl, afterEnds⟩
    rcases paired with ⟨spaces, rest, same, blank, named⟩
    rw [cons_append, append_assoc, List.cons.injEq, append_cancel_left_eq] at same
    rcases append_eq_append_iff.mp same.2 with
      ⟨more, spacesEq, rightEq⟩ | ⟨more, afterEq, restEq⟩
    · rw [spacesEq, forall_mem_append] at blank
      exact (apart ⟨⟨before, after, leftEq, blank.1⟩, more, rest, rightEq, blank.2, named⟩).elim
    · rw [restEq] at named
      rcases eq_or_ne more [] with rfl | remains
      · rw [append_nil] at afterEq
        rw [afterEq] at leftEq
        exact (apart ⟨⟨before, spaces, leftEq, blank⟩, [], right, rfl, nofun, named⟩).elim
      · exact ⟨spaces, more, by rw [afterEq], blank, named.of_append remains letters ends⟩
  · rintro (⟨before, found, rfl, spaces, rest, rfl, blank, after, rfl, afterEnds⟩ |
      ⟨before, found, rfl, paired⟩)
    · exact ⟨before, 47 :: (key ++ (spaces ++ 47 :: (value ++ (after ++ right)))), by simp,
        spaces, 47 :: (value ++ (after ++ right)), rfl, blank, after ++ right, rfl,
        afterEnds.append ends⟩
    · exact ⟨left ++ before, found, by simp, paired⟩

theorem hasName_cons {byte : UInt8} (other : byte ≠ 47) :
    HasName name (byte :: right) ↔ HasName name right := by
  constructor
  · rintro ⟨before, rest, whole, named⟩
    cases before with
    | nil =>
        obtain ⟨after, rfl, -⟩ := named
        exact (other (List.cons.inj whole).1).elim
    | cons _ before => exact ⟨before, rest, (List.cons.inj whole).2, named⟩
  · rintro ⟨before, rest, rfl, named⟩
    exact ⟨byte :: before, rest, rfl, named⟩

theorem hasPair_cons {byte : UInt8} (other : byte ≠ 47) :
    HasPair key value (byte :: right) ↔ HasPair key value right := by
  constructor
  · rintro ⟨before, rest, whole, paired⟩
    cases before with
    | nil =>
        obtain ⟨spaces, after, rfl, -, -⟩ := paired
        exact (other (List.cons.inj whole).1).elim
    | cons _ before => exact ⟨before, rest, (List.cons.inj whole).2, paired⟩
  · rintro ⟨before, rest, rfl, paired⟩
    exact ⟨byte :: before, rest, rfl, paired⟩

/-- What closes with the key behind another slash closes with it alone. -/
theorem Closes.of_append (noSlash : 47 ∉ key) (closes : Closes key (left ++ right))
    (slash : 47 ∈ right) : Closes key right := by
  rcases closes with ⟨before, spaces, whole, blank⟩
  rcases append_eq_append_iff.mp whole with ⟨more, -, rightEq⟩ | ⟨more, leftEq, restEq⟩
  · exact ⟨more, spaces, rightEq, blank⟩
  · cases more with
    | nil => exact ⟨[], spaces, restEq.symm, blank⟩
    | cons _ more =>
        obtain ⟨-, rest⟩ := List.cons.inj restEq
        have listed : 47 ∈ key ++ spaces := by
          rw [rest]
          exact mem_append_right _ slash
        rcases mem_append.mp listed with inKey | inSpaces
        · exact (noSlash inKey).elim
        · cases blank 47 inSpaces

theorem Closes.append (closes : Closes key right) : Closes key (left ++ right) := by
  rcases closes with ⟨before, spaces, rfl, blank⟩
  exact ⟨left ++ before, spaces, by simp, blank⟩

end Pieces

section Classes

namespace StreamClass

def rank : StreamClass → Nat
  | plain => 0
  | inflated => 1
  | unsupported => 2
  | image => 3

theorem rank_inj {first second : StreamClass} (same : first.rank = second.rank) :
    first = second := by
  cases first <;> cases second <;> first | rfl | cases same

end StreamClass

/-- The classes by what the header has. -/
def classOf (image unsupported inflated : Bool) : StreamClass :=
  if image then .image else if unsupported then .unsupported
  else if inflated then .inflated else .plain

def hasUnsupportedFilter (header : Bytes) : Bool :=
  streamHasFilter header (bytesOf "LZWDecode") ||
    streamHasFilter header (bytesOf "ASCII85Decode") ||
    streamHasFilter header (bytesOf "DCTDecode")

theorem classify_eq (header : Bytes) : classify header =
    classOf (streamIsImageXobject header) (hasUnsupportedFilter header)
      (streamHasFilter header (bytesOf "FlateDecode")) := by
  simp only [classify, classOf, hasUnsupportedFilter, Bool.or_eq_true, or_assoc]

theorem rank_classOf (image unsupported inflated image' unsupported' inflated' : Bool) :
    (classOf (image || image') (unsupported || unsupported') (inflated || inflated')).rank =
      max (classOf image unsupported inflated).rank
        (classOf image' unsupported' inflated').rank := by
  revert image unsupported inflated image' unsupported' inflated'
  decide

def subtypeName : Bytes := bytesOf "Subtype"

def imageName : Bytes := bytesOf "Image"

variable {left right : Bytes}

/-- A name that the searches look for. -/
def isName (name : Bytes) : Bool := !name.isEmpty && name.all isNameByte

theorem isName_spec {name : Bytes} (valid : isName name = true) :
    47 ∉ name ∧ name ≠ [] ∧ ∀ byte ∈ name, isNameByte byte = true := by
  simp only [isName, Bool.and_eq_true, Bool.not_eq_true', isEmpty_eq_false_iff,
    all_eq_true] at valid
  refine ⟨fun slash => ?_, valid.1, valid.2⟩
  cases valid.2 47 slash

theorem streamHasFilter_append {filter : Bytes} (valid : isName filter = true)
    (ends : NameEnds right) :
    streamHasFilter (left ++ right) filter =
      (streamHasFilter left filter || streamHasFilter right filter) := by
  obtain ⟨noSlash, nonempty, letters⟩ := isName_spec valid
  rw [Bool.eq_iff_iff, Bool.or_eq_true]
  simp only [streamHasFilter, headerHasSlashName_iff noSlash nonempty]
  exact hasName_append letters ends

theorem streamHasFilter_cons {filter : Bytes} {byte : UInt8} (valid : isName filter = true)
    (other : byte ≠ 47) :
    streamHasFilter (byte :: right) filter = streamHasFilter right filter := by
  obtain ⟨noSlash, nonempty, -⟩ := isName_spec valid
  rw [Bool.eq_iff_iff]
  simp only [streamHasFilter, headerHasSlashName_iff noSlash nonempty]
  exact hasName_cons other

theorem isName_subtypeName : isName subtypeName = true := by decide

theorem isName_imageName : isName imageName = true := by decide

theorem streamIsImageXobject_iff (header : Bytes) :
    streamIsImageXobject header = true ↔ HasPair subtypeName imageName header := by
  obtain ⟨noSlash, nonempty, -⟩ := isName_spec isName_subtypeName
  exact headerHasNameValue_iff noSlash nonempty

/-- Of two pieces that make no pair together, the higher class counts. -/
theorem rank_classify_append (ends : NameEnds right)
    (apart : ¬(Closes subtypeName left ∧ Opens imageName right)) :
    (classify (left ++ right)).rank = max (classify left).rank (classify right).rank := by
  have image : streamIsImageXobject (left ++ right) =
      (streamIsImageXobject left || streamIsImageXobject right) := by
    rw [Bool.eq_iff_iff, Bool.or_eq_true]
    simp only [streamIsImageXobject_iff]
    exact hasPair_append (isName_spec isName_subtypeName).2.2
      (isName_spec isName_imageName).2.2 ends apart
  have filter : ∀ filter, isName filter = true → streamHasFilter (left ++ right) filter =
      (streamHasFilter left filter || streamHasFilter right filter) :=
    fun filter valid => streamHasFilter_append valid ends
  have unsupported : hasUnsupportedFilter (left ++ right) =
      (hasUnsupportedFilter left || hasUnsupportedFilter right) := by
    simp only [hasUnsupportedFilter, filter (bytesOf "LZWDecode") (by decide),
      filter (bytesOf "ASCII85Decode") (by decide), filter (bytesOf "DCTDecode") (by decide)]
    ac_rfl
  rw [classify_eq, image, unsupported, filter _ (by decide), rank_classOf, ← classify_eq,
    ← classify_eq]

theorem classify_cons {byte : UInt8} (other : byte ≠ 47) :
    classify (byte :: right) = classify right := by
  have image : streamIsImageXobject (byte :: right) = streamIsImageXobject right := by
    rw [Bool.eq_iff_iff, streamIsImageXobject_iff, streamIsImageXobject_iff, hasPair_cons other]
  have filter : ∀ filter, isName filter = true →
      streamHasFilter (byte :: right) filter = streamHasFilter right filter :=
    fun filter valid => streamHasFilter_cons valid other
  rw [classify_eq, classify_eq, image, filter _ (by decide)]
  simp only [hasUnsupportedFilter, filter (bytesOf "LZWDecode") (by decide),
    filter (bytesOf "ASCII85Decode") (by decide), filter (bytesOf "DCTDecode") (by decide)]

theorem classify_nil : classify [] = .plain := by
  have image : streamIsImageXobject [] = false := by
    rw [Bool.eq_false_iff, Ne, streamIsImageXobject_iff]
    rintro ⟨before, rest, whole, spaces, after, rfl, -⟩
    simp at whole
  have filter : ∀ filter, streamHasFilter [] filter = false := by
    intro filter
    rw [streamHasFilter, headerHasSlashName]
    cases found : findSlashNameFrom [] filter 0 with
    | none => rfl
    | some place =>
        have bounds := le_findSlashNameFrom found
        simp at bounds
  rw [classify_eq, image, filter, hasUnsupportedFilter, filter, filter, filter]
  rfl

/-- Without a slash there is no name. -/
theorem classify_of_notMem (noSlash : 47 ∉ right) : classify right = .plain := by
  induction right with
  | nil => exact classify_nil
  | cons byte right ih =>
      rw [mem_cons, not_or] at noSlash
      rw [classify_cons (Ne.symm noSlash.1)]
      exact ih noSlash.2

end Classes

end Gfm.Content

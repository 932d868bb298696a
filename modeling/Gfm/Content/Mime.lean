import Gfm.Content.Structured
import Gfm.Lib.Finding

/-!
# Parts of a multipart body

The lines of a body are walked with their byte offsets. A part reaches from the line behind one
delimiter to the next delimiter; surrounding line feeds are trimmed, and its headers end at the
first blank line. A part without headers or without a body loses that line with the trimming.
-/

namespace Gfm.Content

open ByteOffsets Finding List

section Model

structure MimePart where
  headers : Text
  body : Text
  deriving DecidableEq, Repr

/-- `split_inclusive('\n')`. -/
def splitInclusive : Text → List Text
  | [] => []
  | char :: text =>
      if char = '\n' then ['\n'] :: splitInclusive text
      else
        match splitInclusive text with
        | [] => [[char]]
        | line :: lines => (char :: line) :: lines

def isLineEnd (char : Char) : Bool := char = '\r' ∨ char = '\n'

def isLineFeed (char : Char) : Bool := char = '\n'

def splitOnce (piece text : Text) : Option (Text × Text) :=
  (find piece text).map fun place => (text.take place, text.drop (place + piece.length))

/-- The trimmed part, split at its first blank line. -/
def readMimePart (part : Text) : Option MimePart :=
  (splitOnce ['\n', '\n'] (trimWith isLineFeed part)).map fun (headers, body) => ⟨headers, body⟩

def pushMimePart (parts : List MimePart) (part : Text) : List MimePart :=
  parts ++ (readMimePart part).toList

def marker (boundary : Text) : Text := '-' :: '-' :: boundary

def closingMarker (boundary : Text) : Text := marker boundary ++ ['-', '-']

variable (boundary body : Text)

/-- The end of the current part, if there is one. -/
def endPart (parts : List MimePart) (currentStart : Option Nat) (stop : Nat) :
    Option (List MimePart) :=
  match currentStart with
  | none => some parts
  | some start => (slice body start stop).map (pushMimePart parts)

/-- The loop over the lines; a slice that is none is a panic. -/
def partsLoop (parts : List MimePart) (currentStart : Option Nat) (cursor : Nat) :
    List Text → Option (List MimePart)
  | [] => endPart body parts currentStart (byteLength body)
  | line :: lines => do
      let trimmed := line.rdropWhile isLineEnd
      if trimmed = marker boundary ∨ trimmed = closingMarker boundary then
        let parts ← endPart body parts currentStart cursor
        if trimmed = closingMarker boundary then pure parts
        else partsLoop parts (some (cursor + byteLength line)) (cursor + byteLength line) lines
      else partsLoop parts currentStart (cursor + byteLength line) lines

def multipartParts : Option (List MimePart) :=
  partsLoop boundary body [] none 0 (splitInclusive body)

end Model

section Documents

/-- A boundary is a part of one header line. -/
structure Boundary where
  text : Text
  whole : '\n' ∉ text
  settled : text.getLast? ≠ some '\r'

variable (boundary : Boundary)

def IsDelimiter (line : Text) : Prop :=
  line.rdropWhile isLineEnd = marker boundary.text ∨
    line.rdropWhile isLineEnd = closingMarker boundary.text

instance (line : Text) : Decidable (IsDelimiter boundary line) :=
  inferInstanceAs (Decidable (_ ∨ _))

/-- Lines, without their line feeds, that are no delimiters. -/
structure PlainLines where
  lines : List Text
  whole : ∀ line ∈ lines, '\n' ∉ line
  plain : ∀ line ∈ lines, ¬IsDelimiter boundary line

def writeLines (lines : List Text) : Text := lines.flatMap fun line => line ++ ['\n']

/-- A part as it is written: header lines, a blank line and a body. -/
structure SourcePart where
  headers : PlainLines boundary
  filled : ∀ line ∈ headers.lines, line ≠ []
  body : Text
  plain : ∀ line ∈ body.splitOnP isLineFeed, ¬IsDelimiter boundary line

namespace SourcePart

variable {boundary} (part : SourcePart boundary)

def written : Text := writeLines part.headers.lines ++ '\n' :: part.body

def headerBlock : Text := ['\n'].intercalate part.headers.lines

end SourcePart

/-- What stands behind the parts: nothing, or the closing delimiter and perhaps more lines. -/
inductive Ending where
  | opened
  | closed (epilogue : Option Text)
  deriving DecidableEq

def Ending.written : Ending → Text
  | opened => []
  | closed none => closingMarker boundary.text
  | closed (some epilogue) => closingMarker boundary.text ++ '\n' :: epilogue

variable {boundary} in
/-- The parts, each behind a delimiter line. -/
def writeParts (ending : Ending) : List (SourcePart boundary) → Text
  | [] => ending.written boundary
  | part :: parts =>
      marker boundary.text ++ '\n' :: (part.written ++
        if parts.isEmpty ∧ ending = .opened then [] else '\n' :: writeParts ending parts)

end Documents

section Lines

variable {boundary : Boundary} {parts : List MimePart} {current : Option Text}

theorem splitInclusive_line {line : Text} (whole : '\n' ∉ line) (rest : Text) :
    splitInclusive (line ++ '\n' :: rest) = (line ++ ['\n']) :: splitInclusive rest := by
  induction line with
  | nil => simp [splitInclusive]
  | cons char line ih =>
      rw [mem_cons, not_or] at whole
      rw [cons_append, splitInclusive, if_neg (Ne.symm whole.1), ih whole.2]
      rfl

theorem splitInclusive_last {line : Text} (whole : '\n' ∉ line) :
    splitInclusive line = if line = [] then [] else [line] := by
  induction line with
  | nil => rfl
  | cons char line ih =>
      rw [mem_cons, not_or] at whole
      rw [splitInclusive, if_neg (Ne.symm whole.1), ih whole.2]
      by_cases empty : line = [] <;> simp [empty]

theorem flatten_splitInclusive (text : Text) : (splitInclusive text).flatten = text := by
  induction text with
  | nil => rfl
  | cons char text ih =>
      rw [splitInclusive]
      split
      next same => simp [ih, same]
      next =>
        cases lines : splitInclusive text with
        | nil =>
            rw [lines] at ih
            simp [← ih]
        | cons line rest =>
            rw [lines] at ih
            simp [← ih]

/-- The loop with the texts of the parts for their offsets. -/
def textsLoop (boundary : Boundary) (parts : List MimePart) (current : Option Text) :
    List Text → List MimePart
  | [] => current.elim parts (pushMimePart parts)
  | line :: lines =>
      let trimmed := line.rdropWhile isLineEnd
      if trimmed = marker boundary.text ∨ trimmed = closingMarker boundary.text then
        let parts := current.elim parts (pushMimePart parts)
        if trimmed = closingMarker boundary.text then parts
        else textsLoop boundary parts (some []) lines
      else textsLoop boundary parts (current.map (· ++ line)) lines

/-- The current part is what is behind its start. -/
theorem endPart_eq {before rest : Text} {current : Option (Text × Text)}
    (split : ∀ pair ∈ current, before = pair.1 ++ pair.2) (parts : List MimePart) :
    endPart (before ++ rest) parts (current.map fun pair => byteLength pair.1)
        (byteLength before) =
      some ((current.map Prod.snd).elim parts (pushMimePart parts)) := by
  cases current with
  | none => rfl
  | some pair =>
      obtain rfl := split pair rfl
      rw [Option.map_some, endPart, append_assoc, slice_append]
      rfl

theorem partsLoop_eq {before : Text} {lines : List Text} {current : Option (Text × Text)}
    (split : ∀ pair ∈ current, before = pair.1 ++ pair.2) (parts : List MimePart) :
    partsLoop boundary.text (before ++ lines.flatten) parts
        (current.map fun pair => byteLength pair.1) (byteLength before) lines =
      some (textsLoop boundary parts (current.map Prod.snd) lines) := by
  induction lines generalizing before current parts with
  | nil => simpa [partsLoop, textsLoop] using @endPart_eq before [] current split parts
  | cons line lines ih =>
      have body : before ++ (line :: lines).flatten = (before ++ line) ++ lines.flatten := by simp
      have next := byteLength_append before line
      rw [partsLoop, textsLoop]
      split
      next =>
        rw [endPart_eq split]
        simp only [Option.bind_eq_bind, Option.bind_some]
        split
        next => rfl
        next =>
          rw [body, ← next]
          exact @ih (before ++ line) (some (before ++ line, [])) (by simp) _
      next =>
        rw [body, ← next]
        have longer := @ih (before ++ line) (current.map fun pair => (pair.1, pair.2 ++ line))
          (by
            intro pair listed
            rcases Option.map_eq_some_iff.mp listed with ⟨given, present, rfl⟩
            rw [split given present, append_assoc]) parts
        simpa [Option.map_map, Function.comp_def] using longer

theorem isDelimiter_line (line : Text) :
    IsDelimiter boundary (line ++ ['\n']) ↔ IsDelimiter boundary line := by
  rw [IsDelimiter, rdropWhile_concat_pos _ _ _ rfl, IsDelimiter]

/-- Lines that are no delimiters belong to the current part. -/
theorem textsLoop_writeLines {lines : List Text} (whole : ∀ line ∈ lines, '\n' ∉ line)
    (plain : ∀ line ∈ lines, ¬IsDelimiter boundary line) (rest : Text) :
    textsLoop boundary parts current (splitInclusive (writeLines lines ++ rest)) =
      textsLoop boundary parts (current.map (· ++ writeLines lines)) (splitInclusive rest) := by
  induction lines generalizing current with
  | nil => simp [writeLines]
  | cons line lines ih =>
      rw [forall_mem_cons] at whole plain
      have other := (isDelimiter_line line).not.mpr plain.1
      have written : writeLines (line :: lines) ++ rest =
          line ++ '\n' :: (writeLines lines ++ rest) := by simp [writeLines]
      rw [IsDelimiter] at other
      rw [written, splitInclusive_line whole.1, textsLoop, if_neg other, ih whole.2 plain.2,
        Option.map_map]
      simp [writeLines, Function.comp_def]

/-- The last line may have no line feed. -/
theorem textsLoop_last {line : Text} (whole : '\n' ∉ line) (plain : ¬IsDelimiter boundary line) :
    textsLoop boundary parts current (splitInclusive line) =
      textsLoop boundary parts (current.map (· ++ line)) [] := by
  rw [splitInclusive_last whole]
  split
  next empty => simp [empty]
  next =>
    rw [IsDelimiter] at plain
    simp only [textsLoop, if_neg plain]

theorem rdropWhile_marker : (marker boundary.text).rdropWhile isLineEnd = marker boundary.text := by
  rcases eq_nil_or_concat boundary.text with empty | ⟨front, last, textEq⟩
  · rw [marker, empty]
    rfl
  · have whole := boundary.whole
    have settled := boundary.settled
    rw [textEq] at whole settled
    have shape : marker boundary.text = ('-' :: '-' :: front) ++ [last] := by
      simp [marker, textEq]
    have kept : ¬isLineEnd last = true := by
      simp_all [isLineEnd, eq_comm]
    rw [shape, rdropWhile_concat_neg _ _ _ kept]

theorem rdropWhile_closing : (closingMarker boundary.text).rdropWhile isLineEnd =
    closingMarker boundary.text := by
  rw [rdropWhile_eq_self_iff]
  intro present
  simp [closingMarker, isLineEnd]

theorem whole_marker : '\n' ∉ marker boundary.text ∧ '\n' ∉ closingMarker boundary.text := by
  simp [marker, closingMarker, boundary.whole]

theorem marker_ne_closing (text : Text) : marker text ≠ closingMarker text := by
  simp [closingMarker]

theorem textsLoop_marker (rest : Text) :
    textsLoop boundary parts current (splitInclusive (marker boundary.text ++ '\n' :: rest)) =
      textsLoop boundary (current.elim parts (pushMimePart parts)) (some [])
        (splitInclusive rest) := by
  rw [splitInclusive_line whole_marker.1, textsLoop, rdropWhile_concat_pos _ _ _ rfl,
    rdropWhile_marker]
  simp [marker_ne_closing]

theorem textsLoop_ending (ending : Ending) :
    textsLoop boundary parts current (splitInclusive (ending.written boundary)) =
      current.elim parts (pushMimePart parts) := by
  cases ending with
  | opened => rfl
  | closed epilogue =>
      cases epilogue with
      | none =>
          have present : closingMarker boundary.text ≠ [] := by simp [closingMarker]
          rw [Ending.written, splitInclusive_last whole_marker.2, if_neg present, textsLoop,
            rdropWhile_closing]
          simp
      | some epilogue =>
          rw [Ending.written, splitInclusive_line whole_marker.2, textsLoop,
            rdropWhile_concat_pos _ _ _ rfl, rdropWhile_closing]
          simp

end Lines

section Parts

variable {boundary : Boundary}

theorem writeLines_append (left right : List Text) :
    writeLines (left ++ right) = writeLines left ++ writeLines right := flatMap_append

theorem writeLines_splitOnP (text : Text) :
    writeLines (text.splitOnP isLineFeed) = text ++ ['\n'] := by
  induction text with
  | nil => rfl
  | cons char text ih =>
      rw [splitOnP_cons_eq_if_modifyHead]
      split
      next feed =>
        obtain rfl : char = '\n' := by simpa [isLineFeed] using feed
        simp only [writeLines, flatMap_cons] at ih ⊢
        simp [ih]
      next =>
        rcases exists_cons_of_ne_nil (splitOnP_ne_nil isLineFeed text) with
          ⟨first, rest, split⟩
        rw [split] at ih ⊢
        simp only [writeLines, modifyHead_cons, flatMap_cons] at ih ⊢
        simp [ih]

/-- The lines of a part, the blank one among them. -/
def SourcePart.lines (part : SourcePart boundary) : List Text :=
  part.headers.lines ++ ([] :: part.body.splitOnP isLineFeed)

theorem SourcePart.plain_lines (part : SourcePart boundary) :
    (∀ line ∈ part.lines, '\n' ∉ line) ∧ ∀ line ∈ part.lines, ¬IsDelimiter boundary line := by
  have blank : ¬IsDelimiter boundary [] := by simp [IsDelimiter, marker, closingMarker]
  constructor
  · simp only [lines, forall_mem_append, forall_mem_cons]
    refine ⟨part.headers.whole, not_mem_nil, fun line listed feed => ?_⟩
    have other := Joining.not_blank_of_mem_splitOnP listed feed
    exact absurd other (by decide)
  · simp only [lines, forall_mem_append, forall_mem_cons]
    exact ⟨part.headers.plain, blank, part.plain⟩

theorem SourcePart.writeLines_lines (part : SourcePart boundary) :
    writeLines part.lines = part.written ++ ['\n'] := by
  have blank : writeLines ([] :: part.body.splitOnP isLineFeed) =
      '\n' :: (part.body ++ ['\n']) := by
    rw [← writeLines_splitOnP]
    rfl
  rw [lines, writeLines_append, blank, written]
  simp

variable {parts : List MimePart} {current : Option Text}

theorem textsLoop_written (part : SourcePart boundary) (rest : Text) :
    textsLoop boundary parts current (splitInclusive (part.written ++ '\n' :: rest)) =
      textsLoop boundary parts (current.map (· ++ (part.written ++ ['\n'])))
        (splitInclusive rest) := by
  have lines := @textsLoop_writeLines boundary parts current _ part.plain_lines.1
    part.plain_lines.2 rest
  simpa [part.writeLines_lines] using lines

/-- The last part may end without a line feed. -/
theorem textsLoop_written_last (part : SourcePart boundary) :
    textsLoop boundary parts current (splitInclusive part.written) =
      (current.map (· ++ part.written)).elim parts (pushMimePart parts) := by
  rcases eq_nil_or_concat part.lines with none | ⟨front, last, linesEq⟩
  · simp [SourcePart.lines] at none
  · have plain := part.plain_lines
    have written := part.writeLines_lines
    rw [linesEq, concat_eq_append] at plain written
    rw [forall_mem_append, forall_mem_append] at plain
    have split : part.written = writeLines front ++ last := by
      rw [writeLines_append] at written
      simpa [writeLines, ← append_assoc] using written.symm
    rw [split, textsLoop_writeLines plain.1.1 plain.2.1,
      textsLoop_last (plain.1.2 last (by simp)) (plain.2.2 last (by simp)), textsLoop,
      Option.map_map]
    simp [Function.comp_def]

theorem trim_feed (text : Text) :
    trimWith isLineFeed (text ++ ['\n']) = trimWith isLineFeed text := by
  rw [trimWith, dropWhile_append]
  split
  next none =>
    rw [trimWith, List.isEmpty_iff.mp none]
    rfl
  next => rw [rdropWhile_concat_pos _ _ _ rfl, trimWith]

theorem trim_rdropWhile (text : Text) :
    trimWith isLineFeed (text.rdropWhile isLineFeed) = trimWith isLineFeed text := by
  induction text using List.reverseRecOn with
  | nil => rfl
  | append_singleton text char ih =>
      by_cases feed : isLineFeed char
      · obtain rfl : char = '\n' := by simpa [isLineFeed] using feed
        rw [rdropWhile_concat_pos _ _ _ feed, ih, trim_feed]
      · rw [rdropWhile_concat_neg _ _ _ feed]

theorem readMimePart_feed (text : Text) : readMimePart (text ++ ['\n']) = readMimePart text := by
  rw [readMimePart, trim_feed, readMimePart]

/-- Each part is read by itself. -/
theorem textsLoop_writeParts (ending : Ending) (sources : List (SourcePart boundary)) :
    textsLoop boundary parts current (splitInclusive (writeParts ending sources)) =
      current.elim parts (pushMimePart parts) ++
        sources.filterMap fun part => readMimePart part.written := by
  induction sources generalizing parts current with
  | nil => simp [writeParts, textsLoop_ending]
  | cons part sources ih =>
      rw [writeParts, textsLoop_marker]
      split
      next last =>
        obtain rfl := List.isEmpty_iff.mp last.1
        rw [append_nil, textsLoop_written_last]
        cases read : readMimePart part.written <;> simp [pushMimePart, read]
      next =>
        rw [textsLoop_written, ih]
        cases read : readMimePart part.written <;> simp [pushMimePart, readMimePart_feed, read]

theorem multipartParts_eq (preamble : PlainLines boundary) (ending : Ending)
    (sources : List (SourcePart boundary)) :
    multipartParts boundary.text (writeLines preamble.lines ++ writeParts ending sources) =
      some (sources.filterMap fun part => readMimePart part.written) := by
  have loop := @partsLoop_eq boundary []
    (splitInclusive (writeLines preamble.lines ++ writeParts ending sources)) none (by simp) []
  rw [flatten_splitInclusive, nil_append] at loop
  rw [multipartParts]
  refine loop.trans ?_
  rw [Option.map_none, textsLoop_writeLines preamble.whole preamble.plain, Option.map_none,
    textsLoop_writeParts]
  rfl

end Parts

section Headers

theorem writeLines_eq {lines : List Text} (present : lines ≠ []) :
    writeLines lines = ['\n'].intercalate lines ++ ['\n'] := by
  induction lines with
  | nil => exact absurd rfl present
  | cons line lines ih =>
      cases lines with
      | nil => simp [writeLines]
      | cons next lines =>
          have rest := ih (cons_ne_nil next lines)
          rw [writeLines, flatMap_cons, ← writeLines, rest, intercalate_cons_cons]
          simp

/-- A text without a blank line, also when it stands between line feeds. -/
structure Unbroken (text : Text) : Prop where
  present : text ≠ []
  first : text.head? ≠ some '\n'
  last : text.getLast? ≠ some '\n'
  unbroken : text.IsChain fun char next => ¬(char = '\n' ∧ next = '\n')

theorem Unbroken.of_line {line : Text} (filled : line ≠ []) (whole : '\n' ∉ line) :
    Unbroken line where
  present := filled
  first := fun first => whole (mem_of_mem_head? first)
  last := fun last => whole (mem_of_getLast? last)
  unbroken := by
    rw [isChain_iff_nowhere]
    exact fun inside => whole (inside.subset (by simp))

theorem Unbroken.feed {left right : Text} (front : Unbroken left) (back : Unbroken right) :
    Unbroken (left ++ '\n' :: right) where
  present := by simp
  first := by simpa [head?_append_of_ne_nil _ front.present] using front.first
  last := by
    rw [getLast?_append_of_ne_nil _ (cons_ne_nil _ _),
      getLast?_cons_of_ne_nil back.present]
    exact back.last
  unbroken := by
    rw [isChain_append, isChain_cons]
    refine ⟨front.unbroken, ⟨?_, back.unbroken⟩, ?_⟩
    · rintro next listed ⟨-, rfl⟩
      exact back.first listed
    · rintro char listed next - ⟨rfl, -⟩
      exact front.last listed

theorem Unbroken.intercalate {lines : List Text} (present : lines ≠ [])
    (each : ∀ line ∈ lines, Unbroken line) : Unbroken (['\n'].intercalate lines) := by
  induction lines with
  | nil => exact absurd rfl present
  | cons line lines ih =>
      rw [forall_mem_cons] at each
      cases lines with
      | nil => simpa using each.1
      | cons next lines =>
          rw [intercalate_cons_cons]
          simpa using each.1.feed (ih (cons_ne_nil next lines) each.2)

variable {block : Text}

theorem Unbroken.nowhere (headers : Unbroken block) : ¬['\n', '\n'] <:+: block :=
  isChain_iff_nowhere.mp headers.unbroken

theorem rdropWhile_append (left right : Text) : (left ++ right).rdropWhile isLineFeed =
    if right.rdropWhile isLineFeed = [] then left.rdropWhile isLineFeed
    else left ++ right.rdropWhile isLineFeed := by
  rw [List.rdropWhile, reverse_append, dropWhile_append]
  split <;> simp_all [List.rdropWhile]

theorem Unbroken.trim_append (headers : Unbroken block) (rest : Text) :
    trimWith isLineFeed (block ++ rest) = block ++ rest.rdropWhile isLineFeed := by
  have start : (block ++ rest).dropWhile isLineFeed = block ++ rest := by
    have first := headers.first
    cases block with
    | nil => exact absurd rfl headers.present
    | cons char block =>
        apply dropWhile_cons_of_neg
        simpa [isLineFeed] using first
  have stop : block.rdropWhile isLineFeed = block := by
    rw [rdropWhile_eq_self_iff]
    intro present feed
    apply headers.last
    rw [getLast?_eq_some_getLast present]
    simpa [isLineFeed] using feed
  rw [trimWith, start, rdropWhile_append, stop]
  split
  next none => rw [none, append_nil]
  next => rfl

/-- The first blank line is the one behind the headers. -/
theorem readMimePart_unbroken (headers : Unbroken block) (body : Text) :
    readMimePart (block ++ (['\n', '\n'] ++ body)) =
      if body.rdropWhile isLineFeed = [] then none
      else some ⟨block, body.rdropWhile isLineFeed⟩ := by
  have feeds : List.rdropWhile isLineFeed ['\n', '\n'] = [] := rfl
  rw [readMimePart, headers.trim_append, rdropWhile_append, feeds, splitOnce]
  split
  next => rw [append_nil, find_eq_none_iff.mpr headers.nowhere, Option.map_none,
    Option.map_none]
  next =>
    have found := @find_append_of_last _ _ ['\n', '\n'] block (body.rdropWhile isLineFeed)
      headers.nowhere (by
        rintro char last feed
        obtain rfl : char = '\n' := by simpa using feed
        exact headers.last last)
    rw [found, Option.map_some, Option.map_some, take_left, ← append_assoc,
      ← length_append, drop_left]

/-- Headers that are found are not empty, as no line feed is left before them. -/
theorem headers_ne_nil {text : Text} {part : MimePart} (read : readMimePart text = some part) :
    part.headers ≠ [] := by
  simp only [readMimePart, splitOnce, Option.map_map, Option.map_eq_some_iff] at read
  rcases read with ⟨place, found, rfl⟩
  have split := eq_append_of_find found
  intro none
  have none : (trimWith isLineFeed text).take place = [] := none
  rw [none, nil_append] at split
  have again := rdropWhile_dropWhile_comm isLineFeed text
  rw [← trimWith, split] at again
  exact dropWhile_eq_self_iff.mp again (by simp) rfl

end Headers

section Exactness

variable {boundary : Boundary}

/-- The part up to the line feeds around its body. -/
def MimePart.settled (part : MimePart) : MimePart where
  headers := part.headers
  body := trimWith isLineFeed part.body

def SourcePart.expected (part : SourcePart boundary) : MimePart :=
  MimePart.settled ⟨part.headerBlock, part.body⟩

/-- There is a header line, and something else than line feeds in the body. -/
def SourcePart.Kept (part : SourcePart boundary) : Prop :=
  part.headers.lines ≠ [] ∧ ∃ char ∈ part.body, char ≠ '\n'

theorem SourcePart.unbroken (part : SourcePart boundary) (present : part.headers.lines ≠ []) :
    Unbroken part.headerBlock := by
  apply Unbroken.intercalate present
  intro line listed
  exact .of_line (part.filled line listed) (part.headers.whole line listed)

theorem SourcePart.written_eq (part : SourcePart boundary) (present : part.headers.lines ≠ []) :
    part.written = part.headerBlock ++ (['\n', '\n'] ++ part.body) := by
  rw [written, writeLines_eq present, headerBlock]
  simp

/-- A part is read as it was written just when it is kept. -/
theorem SourcePart.read_iff (part : SourcePart boundary) :
    (readMimePart part.written).map MimePart.settled = some part.expected ↔ part.Kept := by
  by_cases present : part.headers.lines = []
  · have empty : part.headerBlock = [] := by rw [headerBlock, present]; rfl
    constructor
    · intro read
      rcases Option.map_eq_some_iff.mp read with ⟨found, foundEq, same⟩
      have headers := congrArg MimePart.headers same
      have none : found.headers = [] := headers.trans empty
      exact absurd none (headers_ne_nil foundEq)
    · intro kept
      exact absurd present kept.1
  · rw [part.written_eq present, readMimePart_unbroken (part.unbroken present), Kept]
    split
    next none =>
      rw [rdropWhile_eq_nil_iff] at none
      constructor
      · rintro ⟨⟩
      · rintro ⟨-, char, listed, other⟩
        exact absurd (by simpa [isLineFeed] using none char listed) other
    next some =>
      rw [rdropWhile_eq_nil_iff] at some
      push Not at some
      rcases some with ⟨char, listed, other⟩
      refine iff_of_true ?_ ⟨present, char, listed, by simpa [isLineFeed] using other⟩
      rw [Option.map_some, expected, MimePart.settled, trim_rdropWhile, MimePart.settled]

/-- A list is filtered to one value for each item just when each item gives its value. -/
theorem filterMap_eq_map_iff {Item Value : Type} (read : Item → Option Value)
    (expected : Item → Value) (items : List Item) :
    items.filterMap read = items.map expected ↔
      ∀ item ∈ items, read item = some (expected item) := by
  induction items with
  | nil => simp
  | cons item items ih =>
      rw [forall_mem_cons, ← ih, map_cons]
      cases given : read item with
      | none =>
          rw [filterMap_cons_none given]
          refine iff_of_false ?_ (by simp)
          intro same
          have longer := congrArg List.length same
          have shorter := length_filterMap_le read items
          rw [length_cons, length_map] at longer
          omega
      | some value => simp [filterMap_cons_some given]

/-- All parts are found exactly when each is kept. -/
theorem multipartParts_exact_iff (preamble : PlainLines boundary) (ending : Ending)
    (parts : List (SourcePart boundary)) :
    (∃ found, multipartParts boundary.text
        (writeLines preamble.lines ++ writeParts ending parts) = some found ∧
      found.map MimePart.settled = parts.map SourcePart.expected) ↔
    ∀ part ∈ parts, part.Kept := by
  simp only [multipartParts_eq, Option.some.injEq, exists_eq_left', map_filterMap,
    filterMap_eq_map_iff, SourcePart.read_iff]

def plainBoundary : Boundary := ⟨['b'], by decide, by decide⟩

/-- A part without headers whose body is one letter. -/
def headerless : SourcePart plainBoundary where
  headers := ⟨[], by simp, by simp⟩
  filled := by simp
  body := ['x']
  plain := by decide

/-- The blank line of a part without headers is trimmed away, and the part with it. -/
theorem headerless_not_found :
    writeParts .opened [headerless] = "--b\n\nx".toList ∧
      multipartParts plainBoundary.text (writeParts .opened [headerless]) = some [] ∧
      [headerless].map SourcePart.expected = [⟨[], ['x']⟩] := by
  decide

end Exactness

end Gfm.Content

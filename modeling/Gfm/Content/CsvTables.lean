import Gfm.Content.Structured

/-!
# CSV tables

A table is written field by field: a quoted field doubles its quotes, a bare one holds none of
the characters that have a meaning. The extractor separates doubled quotes, closing quotes and
separators with one flag and one character of lookahead, so each field is read as a whole,
whatever it holds and whatever comes after it.
-/

namespace Gfm.Content

open ByteOffsets Joining List

section Tables

structure CsvField where
  text : Text
  quoted : Bool
  bare : quoted = false → ∀ char ∈ text, char ∉ [',', '"', '\n', '\r']

inductive CsvLineEnd where
  | lineFeed
  | carriageReturnLineFeed

structure CsvRow where
  fields : List CsvField
  lineEnd : CsvLineEnd

def doubleQuote (char : Char) : Text := if char = '"' then ['"', '"'] else [char]

def CsvField.written (field : CsvField) : Text :=
  if field.quoted then '"' :: (field.text.flatMap doubleQuote ++ ['"']) else field.text

def CsvLineEnd.written : CsvLineEnd → Text
  | .lineFeed => ['\n']
  | .carriageReturnLineFeed => ['\r', '\n']

def CsvRow.written (row : CsvRow) : Text :=
  [','].intercalate (row.fields.map CsvField.written) ++ row.lineEnd.written

def writeCsv (rows : List CsvRow) : Text := rows.flatMap CsvRow.written

def csvTexts (rows : List CsvRow) : List Text := rows.flatMap fun row => row.fields.map (·.text)

end Tables

section Scanning

variable {maxBytes : Nat}

theorem extractCsvLoop_doubled {scan : CsvScan} (inside : scan.inQuotes = true) (chars : Text) :
    extractCsvLoop maxBytes scan ('"' :: '"' :: chars) =
      if (scan.pushChar '"').full maxBytes then scan.pushChar '"'
      else extractCsvLoop maxBytes (scan.pushChar '"') chars := by
  simp [extractCsvLoop, inside]

theorem extractCsvLoop_cons {scan : CsvScan} {char : Char} {chars : Text}
    (single : scan.inQuotes = true → char = '"' → chars.head? ≠ some '"') :
    extractCsvLoop maxBytes scan (char :: chars) =
      if (csvStep maxBytes scan char).full maxBytes then csvStep maxBytes scan char
      else extractCsvLoop maxBytes (csvStep maxBytes scan char) chars := by
  conv_lhs => unfold extractCsvLoop
  split
  next charsEq => cases charsEq
  next charsEq =>
    obtain ⟨rfl, rfl⟩ := List.cons.inj charsEq
    have outside : ¬scan.inQuotes = true := fun inside => single inside rfl rfl
    rw [if_neg outside]
  next charsEq =>
    obtain ⟨rfl, rfl⟩ := List.cons.inj charsEq
    rfl

namespace CsvScan

/-- What the extractor returns when it goes on from a scan. -/
def finish (maxBytes : Nat) (scan : CsvScan) (chars : Text) : Text :=
  let last := extractCsvLoop maxBytes scan chars
  pushToken maxBytes last.output (trim last.field)

theorem output_csvStep_of_full {scan : CsvScan} (full : scan.full maxBytes = true) (char : Char) :
    (csvStep maxBytes scan char).output = scan.output := by
  rw [csvStep]
  split
  · rfl
  · split
    · apply pushToken_of_full
      simpa [CsvScan.full] using full
    · rfl

/-- Once the budget is reached, the rest of the input no longer counts. -/
theorem finish_of_full {scan : CsvScan} (full : scan.full maxBytes = true) (chars : Text) :
    scan.finish maxBytes chars = scan.output := by
  have kept : (extractCsvLoop maxBytes scan chars).output = scan.output := by
    cases chars with
    | nil => rfl
    | cons char chars =>
        by_cases single : scan.inQuotes = true → char = '"' → chars.head? ≠ some '"'
        · have step := output_csvStep_of_full full char
          have stops : (csvStep maxBytes scan char).full maxBytes = true := by
            simpa [CsvScan.full, step] using full
          rw [extractCsvLoop_cons single, if_pos stops, step]
        · simp only [not_forall, not_not] at single
          rcases single with ⟨inside, rfl, headEq⟩
          obtain ⟨more, rfl⟩ := head?_eq_some_iff.mp headEq
          have stops : (scan.pushChar '"').full maxBytes = true := full
          rw [extractCsvLoop_doubled inside, if_pos stops, pushChar]
  rw [finish, kept]
  apply pushToken_of_full
  simpa [CsvScan.full] using full

theorem finish_cons {scan : CsvScan} {char : Char} {chars : Text}
    (single : scan.inQuotes = true → char = '"' → chars.head? ≠ some '"') :
    scan.finish maxBytes (char :: chars) = (csvStep maxBytes scan char).finish maxBytes chars := by
  by_cases full : (csvStep maxBytes scan char).full maxBytes = true
  · rw [finish_of_full full, ← finish_of_full full [], finish, extractCsvLoop_cons single,
      if_pos full]
    rfl
  · rw [finish, extractCsvLoop_cons single, if_neg full]
    rfl

theorem finish_doubled {scan : CsvScan} (inside : scan.inQuotes = true) (chars : Text) :
    scan.finish maxBytes ('"' :: '"' :: chars) = (scan.pushChar '"').finish maxBytes chars := by
  by_cases full : (scan.pushChar '"').full maxBytes = true
  · rw [finish_of_full full, ← finish_of_full full [], finish, extractCsvLoop_doubled inside,
      if_pos full]
    rfl
  · rw [finish, extractCsvLoop_doubled inside, if_neg full]
    rfl

variable {output field : Text}

theorem finish_bare {text : Text} (bare : ∀ char ∈ text, char ∉ [',', '"', '\n', '\r'])
    (chars : Text) :
    finish maxBytes ⟨output, field, false⟩ (text ++ chars) =
      finish maxBytes ⟨output, field ++ text, false⟩ chars := by
  induction text generalizing field with
  | nil => simp
  | cons char text ih =>
      rw [forall_mem_cons] at bare
      have notMarked := bare.1
      simp only [mem_cons, not_mem_nil, or_false, not_or] at notMarked
      rw [cons_append, finish_cons (by simp)]
      have step : csvStep maxBytes ⟨output, field, false⟩ char =
          ⟨output, field ++ [char], false⟩ := by
        simp [csvStep, pushChar, notMarked]
      rw [step, ih bare.2]
      simp

theorem finish_quoted {text chars : Text} (ends : chars.head? ≠ some '"') :
    finish maxBytes ⟨output, field, true⟩ (text.flatMap doubleQuote ++ '"' :: chars) =
      finish maxBytes ⟨output, field ++ text, false⟩ chars := by
  induction text generalizing field with
  | nil =>
      rw [flatMap_nil, nil_append, finish_cons fun _ _ => ends]
      simp [csvStep]
  | cons char text ih =>
      rw [flatMap_cons, doubleQuote]
      split
      next quote =>
        subst quote
        rw [append_assoc, cons_append, singleton_append, finish_doubled rfl,
          pushChar, ih]
        simp
      next letter =>
        rw [append_assoc, singleton_append,
          finish_cons fun _ quote => (letter quote).elim]
        have step : csvStep maxBytes ⟨output, field, true⟩ char =
            ⟨output, field ++ [char], true⟩ := by
          simp [csvStep, pushChar, letter]
        rw [step, ih]
        simp

/-- A field is read as a whole, up to a character that does not continue it. -/
theorem finish_written (cell : CsvField) {chars : Text} (ends : chars.head? ≠ some '"') :
    finish maxBytes ⟨output, [], false⟩ (cell.written ++ chars) =
      finish maxBytes ⟨output, cell.text, false⟩ chars := by
  rw [CsvField.written]
  split
  next =>
    rw [cons_append, finish_cons (by simp)]
    have opened : csvStep maxBytes ⟨output, [], false⟩ '"' = ⟨output, [], true⟩ := by
      simp [csvStep]
    rw [opened, append_assoc, singleton_append, finish_quoted ends]
    simp
  next bare =>
    rw [finish_bare (cell.bare (by simpa using bare))]
    simp

theorem finish_separator {separator : Char} (separates : separator ∈ [',', '\n', '\r'])
    (chars : Text) :
    finish maxBytes ⟨output, field, false⟩ (separator :: chars) =
      finish maxBytes ⟨pushToken maxBytes output field, [], false⟩ chars := by
  have notQuote : separator ≠ '"' := by
    rintro rfl
    simp at separates
  rw [finish_cons (by simp)]
  have step : csvStep maxBytes ⟨output, field, false⟩ separator =
      ⟨pushToken maxBytes output field, [], false⟩ := by
    simp only [csvStep, notQuote, separates, if_false, and_self, if_true, pushField]
    rw [pushToken_trim]
  rw [step]

theorem finish_lineEnd (lineEnd : CsvLineEnd) (chars : Text) :
    finish maxBytes ⟨output, field, false⟩ (lineEnd.written ++ chars) =
      finish maxBytes ⟨pushToken maxBytes output field, [], false⟩ chars := by
  cases lineEnd with
  | lineFeed => exact finish_separator (by simp) chars
  | carriageReturnLineFeed =>
      rw [CsvLineEnd.written, cons_append, singleton_append,
        finish_separator (by simp), finish_separator (by simp), pushToken_nil]

theorem finish_row (row : CsvRow) (chars : Text) :
    finish maxBytes ⟨output, [], false⟩ (row.written ++ chars) =
      finish maxBytes
        ⟨(row.fields.map (·.text)).foldl (pushToken maxBytes) output, [], false⟩ chars := by
  rcases row with ⟨fields, lineEnd⟩
  have unquoted : (lineEnd.written ++ chars).head? ≠ some '"' := by
    cases lineEnd <;> simp [CsvLineEnd.written]
  cases fields with
  | nil => simp [CsvRow.written, finish_lineEnd, pushToken_nil]
  | cons cell fields =>
      induction fields generalizing cell output with
      | nil => simp [CsvRow.written, finish_written cell unquoted, finish_lineEnd]
      | cons next fields ih =>
          simp only [CsvRow.written, map_cons, intercalate_cons_cons, append_assoc,
            singleton_append] at ih ⊢
          rw [finish_written cell (by simp), cons_append, finish_separator (by simp), ih]
          rfl

theorem finish_rows (rows : List CsvRow) :
    finish maxBytes ⟨output, [], false⟩ (writeCsv rows) =
      (csvTexts rows).foldl (pushToken maxBytes) output := by
  induction rows generalizing output with
  | nil => simp [writeCsv, csvTexts, finish, extractCsvLoop, trim_nil, pushToken_nil]
  | cons row rows ih =>
      rw [writeCsv, flatMap_cons, finish_row, csvTexts, flatMap_cons, foldl_append]
      exact ih

end CsvScan

end Scanning

/-- A table whose text fits into the budget is extracted cell by cell. -/
theorem extractCsvText_writeCsv {maxBytes : Nat} {rows : List CsvRow}
    (fits : byteLength (spacedTokens (csvTexts rows)) ≤ maxBytes) :
    extractCsvText maxBytes (writeCsv rows) = spacedTokens (csvTexts rows) := by
  have read : extractCsvText maxBytes (writeCsv rows) =
      (csvTexts rows).foldl (pushToken maxBytes) [] := CsvScan.finish_rows rows
  rw [read, foldl_pushToken maxBytes (by simpa using fits)]
  simp

/-- An empty quoted field, a field of quotes only, and a bare one. -/
theorem extractCsvText_writeCsv_quotes :
    extractCsvText 7 (writeCsv
      [⟨[⟨[], true, by simp⟩, ⟨"\"\"".toList, true, by simp⟩], .lineFeed⟩,
        ⟨[⟨" a\n,b".toList, true, by simp⟩], .carriageReturnLineFeed⟩]) = "\"\" a\n,b".toList :=
  (extractCsvText_writeCsv (by decide)).trans (by decide)

end Gfm.Content

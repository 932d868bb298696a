import Gfm.Lib.Sorted
import Gfm.Search.Query
import Gfm.Tsv

/-!
# Reading filters

The texts of a query that stand for a proximity or for a filter, with the sizes and dates of a
filter. The day number of a date is computed in arithmetic that is a parameter: without bounds, or
checked against those of the types.
-/

namespace Gfm.Search

open Sorted

deriving instance Ord for QueryProximity, QueryKind, QueryScope, SizeOperator, SizeComparison,
  DateField, DateComparison, QueryFilter

section Texts

def stripPrefix (lead text : Text) : Option Text :=
  if lead.isPrefixOf text then some (text.drop lead.length) else none

/-- The text before the first colon and the text after it. -/
def splitColon (text : Text) : Option (Text × Text) :=
  let field := text.takeWhile fun char => char ≠ ':'
  if field.length < text.length then some (field, text.drop (field.length + 1)) else none

def parseU32 (text : Text) : Option Nat := (Tsv.parseUnsigned (2 ^ 32) text).toOption

def parseU64 (text : Text) : Option Nat := (Tsv.parseUnsigned (2 ^ 64) text).toOption

/-- The standard parser of signed 32-bit integers. -/
def parseI32 : Text → Option Int
  | ['-'] => none
  | '-' :: digits =>
      (digits.foldlM (Tsv.pushDigit (2 ^ 31 + 1)) 0).toOption.map fun value : Nat => -(value : Int)
  | text => (Tsv.parseUnsigned (2 ^ 31) text).toOption.map fun value : Nat => (value : Int)

end Texts

section Proximities

variable (unicode : Unicode)

/-- The terms of a proximity are kept in order, each once. -/
def QueryProximity.parse (input : Text) : Option QueryProximity := do
  let rest ← (stripPrefix "near:".toList input).orElse fun _ =>
    stripPrefix "proximity:".toList input
  let (distance, terms) ← splitColon rest
  let distance ← parseU32 (unicode.trim distance)
  if distance = 0 ∨ 256 < distance then none
  else
    let terms := sortDedup (unicode.tokenize (unicode.normalize terms))
    if 2 ≤ terms.length then some ⟨distance, terms⟩ else none

end Proximities

section Sizes

variable (unicode : Unicode)

def parseOperator (input : Text) : SizeOperator × Text :=
  match input with
  | '>' :: '=' :: value => (.gte, value)
  | '<' :: '=' :: value => (.lte, value)
  | '>' :: value => (.gt, value)
  | '<' :: value => (.lt, value)
  | '=' :: value => (.eq, value)
  | value => (.eq, value)

def unitMultiplier (unit : Text) : Option Nat :=
  if unit ∈ ["", "b"].map String.toList then some 1
  else if unit ∈ ["k", "kb", "kib"].map String.toList then some 1024
  else if unit ∈ ["m", "mb", "mib"].map String.toList then some (1024 * 1024)
  else if unit ∈ ["g", "gb", "gib"].map String.toList then some (1024 * 1024 * 1024)
  else if unit ∈ ["t", "tb", "tib"].map String.toList then some (1024 ^ 4)
  else none

def checkedU64 (value : Nat) : Option Nat := if value < 2 ^ 64 then some value else none

def parseSize (input : Text) : Option Nat := do
  let input := (unicode.trim input).map asciiLower
  let digits := input.takeWhile fun char => (Tsv.digitValue char).isSome
  let number ← parseU64 digits
  let multiplier ← unitMultiplier (unicode.trim (input.drop digits.length))
  checkedU64 (number * multiplier)

def SizeComparison.parse (input : Text) : Option SizeComparison :=
  let (operator, value) := parseOperator (unicode.trim input)
  (parseSize unicode value).map fun bytes => ⟨operator, bytes⟩

end Sizes

section Dates

variable (unicode : Unicode)

def isLeapYear (year : Int) : Bool :=
  (year.tmod 4 = 0 ∧ year.tmod 100 ≠ 0) ∨ year.tmod 400 = 0

def daysInMonth (year : Int) (month : Nat) : Option Nat :=
  if month ∈ [1, 3, 5, 7, 8, 10, 12] then some 31
  else if month ∈ [4, 6, 9, 11] then some 30
  else if month = 2 then some (if isLeapYear year then 29 else 28)
  else none

/-- A year, a month and a day of the month. -/
def parseDate (input : Text) : Option (Int × Nat × Nat) :=
  match (unicode.trim input).splitOn '-' with
  | [year, month, day] => do
      let year ← parseI32 year
      let month ← parseU32 month
      let day ← parseU32 day
      if ¬(1 ≤ month ∧ month ≤ 12) then none
      else
        let maxDay ← daysInMonth year month
        if 1 ≤ day ∧ day ≤ maxDay then some (year, month, day) else none
  | _ => none

/-- `as i32`. -/
def asI32 (value : Nat) : Int := Int.bmod value (2 ^ 32)

/-- The division by 400 of a year below zero rounds down. -/
def eraDividend {m : Type → Type} [Monad m] (i32 : Int → m Int) (year : Int) : m Int :=
  if 0 ≤ year then pure year else i32 (year - 399)

/-- The day number of a date, counted from the epoch; `i32` and `i64` are the results of the
operations that the types bound. -/
def daysFromCivilWith {m : Type → Type} [Monad m] (i32 i64 : Int → m Int)
    (year : Int) (month day : Nat) : m (Option Int) :=
  if month ≤ 2 ∧ year - 1 < -2 ^ 31 then pure none
  else do
    let (year, month) := if month ≤ 2 then (year - 1, month + 12) else (year, month)
    let era := (← eraDividend i32 year).tdiv 400
    let yearOfEra ← i32 (year - (← i32 (era * 400)))
    let monthDays ← i32 ((← i32 (153 * (← i32 (asI32 month - 3)))) + 2)
    let dayOfYear ← i32 ((← i32 (monthDays.tdiv 5 + asI32 day)) - 1)
    let leapDays ← i32 ((← i32 (yearOfEra * 365)) + yearOfEra.tdiv 4)
    let yearDays ← i32 (leapDays - yearOfEra.tdiv 100)
    let dayOfEra ← i32 (yearDays + dayOfYear)
    let days ← i64 ((← i64 ((← i64 (era * 146097)) + dayOfEra)) - 719468)
    pure (some days)

def daysFromCivil (year : Int) (month day : Nat) : Option Int :=
  daysFromCivilWith (m := Id) id id year month day

/-- The first and the last second of a date that is not before the epoch. -/
def dateBounds (input : Text) : Option (Nat × Nat) := do
  let (year, month, day) ← parseDate unicode input
  let startDays ← daysFromCivil year month day
  if startDays < 0 then none
  else
    let start ← checkedU64 (startDays.toNat * 86400)
    let finish ← checkedU64 (start + 86400)
    some (start, finish - 1)

def DateComparison.parse (input : Text) : Option DateComparison :=
  let (operator, value) := parseOperator (unicode.trim input)
  (dateBounds unicode (unicode.trim value)).map fun (start, finish) =>
    match operator with
    | .eq => .on start finish
    | .gt => .after (min (finish + 1) (2 ^ 64 - 1))
    | .gte => .afterOrOn start
    | .lt => .before start
    | .lte => .beforeOrOn finish

end Dates

section Filters

variable (unicode : Unicode)

def QueryKind.parse (input : Text) : Option QueryKind :=
  let name := unicode.normalize input
  if name ∈ ["dir", "directory", "folder"].map String.toList then some .directory
  else if name ∈ ["file", "document"].map String.toList then some .file
  else if name ∈ ["link", "symlink", "alias"].map String.toList then some .symlink
  else if name = "other".toList then some .other
  else none

def QueryScope.parse (input : Text) : Option QueryScope :=
  let value := unicode.trim input
  if value = [] then none
  else
    let normalized := unicode.normalize value
    some (if normalized = "desktop".toList then .desktop
      else if normalized ∈ ["documents", "docs"].map String.toList then .documents
      else if normalized = "downloads".toList then .downloads
      else if normalized ∈ ["applications", "apps"].map String.toList then .applications
      else if normalized ∈ ["icloud", "icloud-drive", "icloud drive"].map String.toList then
        .iCloud
      else if normalized = "trash".toList then .trash
      else if normalized = "home".toList then .home
      else .path normalized)

def normalizeExtension (input : Text) : Text :=
  (unicode.normalize input).dropWhile fun char => char = '.'

/-- The filter of a field; a value that the field cannot read is no filter. -/
def QueryFilter.ofField (field value : Text) (negative : Bool) : Option QueryFilter :=
  if field = "name".toList then some (.name (unicode.normalize value) negative)
  else if field ∈ ["path", "in"].map String.toList then
    some (.path (unicode.normalize value) negative)
  else if field ∈ ["ext", "extension"].map String.toList then
    some (.extension (normalizeExtension unicode value) negative)
  else if field ∈ ["tag", "label"].map String.toList then
    some (.tag (unicode.normalize value) negative)
  else if field ∈ ["scope", "where"].map String.toList then
    (QueryScope.parse unicode value).map fun scope => .scope scope negative
  else if field ∈ ["kind", "type"].map String.toList then
    (QueryKind.parse unicode value).map fun kind => .kind kind negative
  else if field = "size".toList then
    (SizeComparison.parse unicode value).map fun size => .size size negative
  else if field ∈ ["date", "modified", "mtime"].map String.toList then
    (DateComparison.parse unicode value).map fun date => .date .modified date negative
  else if field ∈ ["created", "birth", "btime"].map String.toList then
    (DateComparison.parse unicode value).map fun date => .date .created date negative
  else if field ∈ ["changed", "ctime"].map String.toList then
    (DateComparison.parse unicode value).map fun date => .date .changed date negative
  else none

def QueryFilter.parse (input : Text) (negative : Bool) : Option QueryFilter :=
  match (stripPrefix ['@'] input).bind (QueryScope.parse unicode) with
  | some wanted => some (.scope wanted negative)
  | none =>
      match splitColon input with
      | none => none
      | some (field, value) =>
          let value := unicode.trim value
          if value = [] then none
          else QueryFilter.ofField unicode (unicode.normalize field) value negative

end Filters

end Gfm.Search

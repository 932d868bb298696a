import Gfm.Search.Columns

/-!
# Query expressions

The expression tree of a parsed query and the filters at its leaves, with the
record-level meaning of a filter. Times are whole seconds since the epoch,
rounded down.
-/

namespace Gfm.Search

structure QueryProximity where
  distance : Nat
  terms : List Text
  deriving DecidableEq

inductive QueryKind where
  | directory
  | file
  | symlink
  | other
  deriving DecidableEq

def QueryKind.fileKind : QueryKind → FileKind
  | .directory => .directory
  | .file => .file
  | .symlink => .symlink
  | .other => .other

def QueryKind.matchesKind (kind : QueryKind) (fileKind : FileKind) : Bool :=
  match kind, fileKind with
  | .directory, .directory | .file, .file | .symlink, .symlink | .other, .other => true
  | _, _ => false

theorem QueryKind.matchesKind_iff {kind : QueryKind} {fileKind : FileKind} :
    kind.matchesKind fileKind = true ↔ fileKind = kind.fileKind := by
  cases kind <;> cases fileKind <;> simp [matchesKind, fileKind]

inductive QueryScope where
  | desktop
  | documents
  | downloads
  | applications
  | iCloud
  | trash
  | home
  | path (path : Text)
  deriving DecidableEq

inductive SizeOperator where
  | eq
  | gt
  | gte
  | lt
  | lte
  deriving DecidableEq

structure SizeComparison where
  operator : SizeOperator
  bytes : Nat
  deriving DecidableEq

def SizeComparison.matchesLen (comparison : SizeComparison) (len : Nat) : Bool :=
  match comparison.operator with
  | .eq => len = comparison.bytes
  | .gt => comparison.bytes < len
  | .gte => comparison.bytes ≤ len
  | .lt => len < comparison.bytes
  | .lte => len ≤ comparison.bytes

inductive DateField where
  | created
  | modified
  | changed
  deriving DecidableEq

def DateField.time (record : FileRecord) : DateField → Option Int
  | .created => record.created
  | .modified => record.modified
  | .changed => record.changed

inductive DateComparison where
  | on (start finish : Nat)
  | before (finish : Nat)
  | beforeOrOn (finish : Nat)
  | after (start : Nat)
  | afterOrOn (start : Nat)
  deriving DecidableEq

/-- A time before the epoch matches nothing. -/
def DateComparison.matchesTime (comparison : DateComparison) (time : Int) : Bool :=
  if time < 0 then false
  else
    match comparison with
    | .on start finish => (start : Int) ≤ time ∧ time ≤ finish
    | .before finish => time < finish
    | .beforeOrOn finish => time ≤ finish
    | .after start | .afterOrOn start => (start : Int) ≤ time

/-- The flag of a filter says whether it is negated. -/
inductive QueryFilter where
  | name (value : Text) (negative : Bool)
  | path (value : Text) (negative : Bool)
  | extension (value : Text) (negative : Bool)
  | tag (value : Text) (negative : Bool)
  | scope (scope : QueryScope) (negative : Bool)
  | kind (kind : QueryKind) (negative : Bool)
  | size (size : SizeComparison) (negative : Bool)
  | date (field : DateField) (date : DateComparison) (negative : Bool)
  deriving DecidableEq

def QueryFilter.isNegative : QueryFilter → Bool
  | .name _ negative | .path _ negative | .extension _ negative | .tag _ negative
  | .scope _ negative | .kind _ negative | .size _ negative | .date _ _ negative => negative

inductive QueryExpr where
  | term (term : Text)
  | phrase (phrase : Text)
  | proximity (proximity : QueryProximity)
  | filter (filter : QueryFilter)
  | not (expression : QueryExpr)
  | and (expressions : List QueryExpr)
  | or (expressions : List QueryExpr)

section Filters

variable (unicode : Unicode)

def normalizedComponents (path : Text) : List Text :=
  (pathComponents path).map unicode.normalize

def pathHasComponent (path : Text) (expected : Text) : Bool :=
  (normalizedComponents unicode path).contains expected

/-- The source passes sequences of one component only. -/
def pathContainsComponentSequence (path : Text) (expected : List Text) : Bool :=
  decide (expected <:+: normalizedComponents unicode path)

def pathHasUsersHomePrefix (path : Text) : Bool :=
  let components := normalizedComponents unicode path
  (components.zip (components.drop 1)).any fun (first, second) =>
    first = "users".toList && !second.isEmpty

def QueryScope.matchesRecord (scope : QueryScope) (record : FileRecord) : Bool :=
  match scope with
  | .desktop => pathHasComponent unicode record.path "desktop".toList
  | .documents => pathHasComponent unicode record.path "documents".toList
  | .downloads => pathHasComponent unicode record.path "downloads".toList
  | .applications => pathHasComponent unicode record.path "applications".toList
  | .iCloud =>
      pathContainsComponentSequence unicode record.path ["mobile documents".toList] ||
        pathContainsComponentSequence unicode record.path ["icloud drive".toList]
  | .trash =>
      pathHasComponent unicode record.path ".trash".toList ||
        pathHasComponent unicode record.path "trash".toList
  | .home => pathHasUsersHomePrefix unicode record.path
  | .path root =>
      let recordPath := unicode.normalize record.path
      recordPath = root || (root ++ ['/']).isPrefixOf recordPath

/-- `filter_matches_columns`: the scope, size and date filters look at the record itself. -/
def filterMatchesColumns (filter : QueryFilter) (record : FileRecord)
    (columns : RecordColumns) : Bool :=
  let positive := match filter with
    | .name value _ => RecordColumns.contains columns.name value
    | .path value _ => RecordColumns.contains columns.path value
    | .extension value _ => columns.extension = some value
    | .tag value _ => columns.tags.contains value
    | .scope scope _ => QueryScope.matchesRecord unicode scope record
    | .kind kind _ => kind.matchesKind record.kind
    | .size size _ => size.matchesLen record.len
    | .date field date _ => (field.time record).any date.matchesTime
  if filter.isNegative then !positive else positive

end Filters

end Gfm.Search

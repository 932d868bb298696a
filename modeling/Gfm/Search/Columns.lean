import Gfm.Text

/-!
# Search records and their columns

A record of the search index keeps its path as text. From the record, or from
columns computed earlier and handed in with it, the index derives the
normalized texts and the tokens under which it lists the record.
-/

namespace Gfm.Search

structure FileRecord where
  id : FileId
  path : Text
  name : Text
  kind : FileKind
  len : Nat
  created : Option Int
  modified : Option Int
  changed : Option Int
  tags : List Text
  finderComment : Option Text
  deriving DecidableEq

/-- The components of a path: the root, then the names; `.` counts only at the front. -/
def pathComponents (path : Text) : List Text :=
  let names := (path.splitOn '/').filter fun name => !name.isEmpty
  match path with
  | '/' :: _ => ['/'] :: names.filter fun name => name ≠ ['.']
  | _ => names.take 1 ++ (names.drop 1).filter fun name => name ≠ ['.']

def pathFileName (path : Text) : Option Text :=
  (pathComponents path).getLast?.bind fun name =>
    if name = ['/'] ∨ name = ['.'] ∨ name = ['.', '.'] then none else some name

/-- What follows the last dot of the file name, unless only the first character is a dot. -/
def pathExtension (path : Text) : Option Text :=
  (pathFileName path).bind fun name =>
    let suffix := (name.reverse.takeWhile fun char => char ≠ '.').reverse
    if suffix.length + 1 < name.length then some suffix else none

def FileRecord.extension (record : FileRecord) : Option Text := pathExtension record.path

section Terms

variable (unicode : Unicode)

def isFuzzyLoop : Text → Nat → Bool → Nat → Bool
  | [], count, hasAlpha, _ => decide (2 ≤ count ∧ count ≤ 32) && hasAlpha
  | char :: chars, count, hasAlpha, digits =>
      if unicode.isAlphabetic char then isFuzzyLoop chars (count + 1) true 0
      else if char.isDigit then
        if 4 < digits + 1 then false
        else isFuzzyLoop chars (count + 1) hasAlpha (digits + 1)
      else isFuzzyLoop chars (count + 1) hasAlpha 0

def isFuzzyTerm (term : Text) : Bool := isFuzzyLoop unicode term 0 false 0

def isPrefixTerm (term : Text) : Bool := decide (1 ≤ term.length ∧ term.length ≤ 32)

def tokenPrefixes (term : Text) : List Text :=
  ((((List.range term.length).drop 1) ++ [term.length]).take 32).map fun length =>
    term.take length

/-- Sorted, without repetitions. -/
def sortedTexts (texts : List Text) : List Text := (Std.ExtTreeSet.ofList texts).toList

@[simp]
theorem mem_sortedTexts {texts : List Text} {text : Text} :
    text ∈ sortedTexts texts ↔ text ∈ texts := by
  simp [sortedTexts, Std.ExtTreeSet.mem_toList, Std.ExtTreeSet.mem_ofList]

def substringGrams (value : Text) : List Text := sortedTexts (charRuns 3 value)

def isSubstringGram (value : Text) : Bool := value.length = 3

def hasLongDigitRun : Text → Nat → Bool
  | [], _ => false
  | char :: chars, digits =>
      if char.isDigit then
        if 4 < digits + 1 then true else hasLongDigitRun chars (digits + 1)
      else hasLongDigitRun chars 0

def collectDeletions : Nat → Text → List Text
  | 0, chars => [chars]
  | remaining + 1, chars =>
      if chars.length ≤ 1 then [chars]
      else chars :: (List.range chars.length).flatMap fun index =>
        collectDeletions remaining (chars.eraseIdx index)

def deletionKeys (term : Text) (maxDeletions : Nat) : List Text :=
  if term.isEmpty ∨ ¬term.any unicode.isAlphabetic ∨ hasLongDigitRun term 0 then []
  else sortedTexts (collectDeletions maxDeletions term)

end Terms

structure RecordColumns where
  name : Text
  path : Text
  extension : Option Text
  tags : List Text
  comment : Option Text
  nameTokens : List Text
  pathTokens : List Text
  metadataTokens : List Text
  fuzzyTerms : List Text
  deriving DecidableEq

/-- Columns computed earlier, from an archive. -/
structure SearchRecordColumns where
  id : FileId
  name : Text
  path : Text
  extension : Option Text
  tags : List Text
  comment : Option Text

namespace RecordColumns

variable (unicode : Unicode)

def normalizeTags (tags : List Text) : List Text :=
  sortedTexts ((tags.map unicode.normalize).filter fun tag => !tag.isEmpty)

def fromRecord (record : FileRecord) : RecordColumns :=
  let name := unicode.normalize record.name
  let comment := record.finderComment.map unicode.normalize
  let nameTokens := unicode.tokenize name
  { name
    path := unicode.normalize record.path
    extension := record.extension.map unicode.normalize
    tags := normalizeTags unicode record.tags
    comment
    nameTokens
    pathTokens := (pathComponents record.path).flatMap fun component =>
      unicode.tokenize (unicode.normalize component)
    metadataTokens := (comment.map unicode.tokenize).getD []
    fuzzyTerms := sortedTexts (nameTokens.filter (isFuzzyTerm unicode)) }

def fromSearchColumns (columns : SearchRecordColumns) : RecordColumns :=
  let name := unicode.normalize columns.name
  let path := unicode.normalize columns.path
  let comment := columns.comment.map unicode.normalize
  let nameTokens := unicode.tokenize name
  { name
    path
    extension := columns.extension.map unicode.normalize
    tags := normalizeTags unicode columns.tags
    comment
    nameTokens
    pathTokens := unicode.tokenize path
    metadataTokens := (comment.map unicode.tokenize).getD []
    fuzzyTerms := sortedTexts (nameTokens.filter (isFuzzyTerm unicode)) }

variable (columns : RecordColumns)

/-- `str::contains`. -/
def contains (text part : Text) : Bool := decide (part <:+: text)

def matchesNamePhrase (phrase : Text) : Bool := contains columns.name phrase

def matchesPathPhrase (phrase : Text) : Bool := contains columns.path phrase

def matchesCommentPhrase (phrase : Text) : Bool :=
  columns.comment.any fun comment => contains comment phrase

def matchesPhrase (phrase : Text) : Bool :=
  columns.matchesNamePhrase phrase || columns.matchesPathPhrase phrase ||
    columns.matchesCommentPhrase phrase

end RecordColumns

end Gfm.Search

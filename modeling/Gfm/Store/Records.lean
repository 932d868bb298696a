import Gfm.Lib.Sorted
import Gfm.Store.Integrity
import Gfm.Text
import Gfm.Tsv

/-!
# The record archive

File records as lines of tab-separated fields behind a checksum footer. Tags and comments are
escaped once more than the fields of a journal, since a comma separates the tags. The reader
takes the whole archive as text and parses it line by line.
-/

namespace Gfm.Store

open Sorted Wire

abbrev U32 := Fin (2 ^ 32)

abbrev U64 := Fin (2 ^ 64)

abbrev U128 := Fin (2 ^ 128)

/-- A file id as the machine holds it. -/
abbrev FileId64 := { id : FileId // id.volume.value < 2 ^ 64 ∧ id.node < 2 ^ 64 }

def fileId (volume node : U64) : FileId64 := ⟨⟨⟨volume⟩, node⟩, volume.isLt, node.isLt⟩

def FileId64.volume (id : FileId64) : U64 := ⟨id.val.volume.value, id.property.1⟩

def FileId64.node (id : FileId64) : U64 := ⟨id.val.node, id.property.2⟩

@[simp]
theorem fileId_volume_node (id : FileId64) : fileId id.volume id.node = id := rfl

/-- A system time, in nanoseconds since the epoch: 64 bits of signed seconds. -/
abbrev SystemTime := { nanos : Int // -(2 ^ 63 * 10 ^ 9) ≤ nanos ∧ nanos < 2 ^ 63 * 10 ^ 9 }

structure FileRecord where
  id : FileId64
  parent : Option FileId64
  path : Text
  name : Text
  kind : FileKind
  len : U64
  mode : U32
  owner : U32
  group : U32
  xattrsDigest : U64
  created : Option SystemTime
  modified : Option SystemTime
  changed : Option SystemTime
  hidden : Bool
  tags : List Text
  finderComment : Option Text
  deriving DecidableEq

/-- What the standard library says of bytes that are not text. -/
structure Utf8Report where
  error : LineLog.Bytes → String
  lossy : LineLog.Bytes → String

section Encode

def escapeChar (char : Char) : Text := if char = ',' then ['\\', ','] else Tsv.escapeChar char

def escape (input : Text) : Text := input.flatMap escapeChar

def encodeKind : FileKind → Text
  | .directory => ['d']
  | .file => ['f']
  | .symlink => ['l']
  | .other => ['o']

/-- Nanoseconds since the epoch; a time before it has no duration since and counts as none. -/
def encodeTime (time : Option SystemTime) : U128 :=
  match time with
  | none => 0
  | some time => ⟨time.val.toNat, by have := time.property.2; omega⟩

def encodeTags (tags : List Text) : Text := [','].intercalate (tags.map escape)

/-- The node of the parent; the volume is not written. -/
def parentNode (parent : Option FileId64) : U64 :=
  match parent with
  | none => 0
  | some parent => parent.node

def encodeComment (comment : Option Text) : Text :=
  match comment with
  | none => []
  | some comment => escape comment

def recordFields (record : FileRecord) : List Text :=
  [Tsv.decimal record.id.volume, Tsv.decimal record.id.node,
    Tsv.decimal (parentNode record.parent), encodeKind record.kind, Tsv.decimal record.len,
    Tsv.decimal record.mode, Tsv.decimal record.owner, Tsv.decimal record.group,
    Tsv.decimal record.xattrsDigest, Tsv.decimal (encodeTime record.created),
    Tsv.decimal (encodeTime record.modified), Tsv.decimal (encodeTime record.changed),
    if record.hidden then ['1'] else ['0'], encodeTags record.tags,
    encodeComment record.finderComment, escape record.path]

def encodeRecord (record : FileRecord) : Text := Tsv.join (recordFields record)

def recordLine (record : FileRecord) : Bytes :=
  LineLog.encodeText (encodeRecord record) ++ [LineLog.newline]

def magicV1 : Text := "gfm-store-v1".toList

def magicV2 : Text := "gfm-store-v2".toList

def magicV3 : Text := "gfm-store-v3".toList

def recordChecksumFooter : Bytes := LineLog.encodeText "gfm-records-checksum-v1\n".toList

def recordLines (records : List FileRecord) : Bytes := records.flatMap recordLine

def recordBody (records : List FileRecord) : Bytes :=
  LineLog.encodeText magicV3 ++ [LineLog.newline] ++ recordLines records

def writeRecords (records : List FileRecord) : Bytes :=
  recordBody records ++ checksumFooter recordChecksumFooter (recordBody records)

end Encode

section Decode

inductive StoreVersion where
  | v1
  | v2
  | v3
  deriving DecidableEq, Repr

/-- The number of fields of a line. -/
def StoreVersion.expected : StoreVersion → Nat
  | v1 => 10
  | v2 => 11
  | v3 => 16

def recordVersion (path : Path) (header : Text) : Except GfmError StoreVersion :=
  if header = magicV1 then .ok .v1
  else if header = magicV2 then .ok .v2
  else if header = magicV3 then .ok .v3
  else .error (.format ("unsupported store header " ++ Tsv.quoted header ++ " in " ++ path.display))

def unescapeCode (code : Char) : Option Char :=
  if code = ',' then some ',' else Tsv.unescapeCode code

def unescape : Text → Except String Text
  | [] => .ok []
  | char :: rest =>
      if char = '\\' then
        match rest with
        | [] => .error (Tsv.EscapeFault.toText .trailing)
        | code :: rest =>
            match unescapeCode code with
            | none => .error (Tsv.EscapeFault.toText (.invalid code))
            | some plain => (unescape rest).map (plain :: ·)
      else (unescape rest).map (char :: ·)

/-- The parts between commas that no backslash escapes; `part` is the one being read. -/
def splitEscapedFrom (part : Text) (escaped : Bool) : Text → List Text
  | [] => [part]
  | char :: rest =>
      if escaped then splitEscapedFrom (part ++ [char]) false rest
      else if char = '\\' then splitEscapedFrom (part ++ [char]) true rest
      else if char = ',' then part :: splitEscapedFrom [] false rest
      else splitEscapedFrom (part ++ [char]) false rest

def splitEscaped (input : Text) : List Text := splitEscapedFrom [] false input

def decodeTags (unicode : Unicode) (input : Text) : Except String (List Text) :=
  if input = [] then .ok []
  else do
    let tags ← (splitEscaped input).mapM unescape
    .ok (sortDedup (tags.filter fun tag => !(unicode.trim tag).isEmpty))

def decodeComment (input : Text) : Except String (Option Text) :=
  if input = [] then .ok none
  else (unescape input).map some

def decodeKind (value : Text) : Except String FileKind :=
  if value = ['d'] then .ok .directory
  else if value = ['f'] then .ok .file
  else if value = ['l'] then .ok .symlink
  else if value = ['o'] then .ok .other
  else .error ("invalid file kind " ++ Tsv.quoted value)

/-- The epoch itself is no time; a duration of more nanoseconds than 64 bits hold is cut. -/
def storedTime (nanos : Nat) : Option SystemTime :=
  if nanos = 0 then none
  else some ⟨min nanos (2 ^ 64 - 1), by
    have := Nat.min_le_right nanos (2 ^ 64 - 1)
    omega⟩

def decodeTime (value : Text) : Except String (Option SystemTime) :=
  (Tsv.parseNumber (2 ^ 128) "timestamp" value).map fun nanos => storedTime nanos

def decodeHidden (value : Text) : Except String Bool :=
  if value = ['0'] then .ok false
  else if value = ['1'] then .ok true
  else .error ("invalid hidden flag " ++ Tsv.quoted value)

/-- The last component of a path that names an entry: empty components and single dots are
skipped, and two dots name none. -/
def fileName (path : Text) : Option Text :=
  match ((path.splitOn '/').filter fun part => part ≠ [] ∧ part ≠ ['.']).getLast? with
  | none => none
  | some last => if last = ['.', '.'] then none else some last

def parseRecord (unicode : Unicode) (version : StoreVersion) (line : Text) :
    Except String FileRecord := do
  let parts := Tsv.fields line
  let part (index : Nat) : Text := parts.getD index []
  if parts.length ≠ version.expected then
    .error ("expected " ++ toString version.expected ++ " fields, got " ++
      toString parts.length)
  else
    let volume ← Tsv.parseNumber (2 ^ 64) "volume" (part 0)
    let node ← Tsv.parseNumber (2 ^ 64) "node" (part 1)
    let parentNode ← Tsv.parseNumber (2 ^ 64) "parent" (part 2)
    let kind ← decodeKind (part 3)
    let len ← Tsv.parseNumber (2 ^ 64) "len" (part 4)
    let (mode, owner, group, xattrsDigest, createdIndex) ← match version with
      | .v1 | .v2 => (.ok (0, 0, 0, 0, 5) : Except String (U32 × U32 × U32 × U64 × Nat))
      | .v3 => do
          let mode ← Tsv.parseNumber (2 ^ 32) "mode" (part 5)
          let owner ← Tsv.parseNumber (2 ^ 32) "owner" (part 6)
          let group ← Tsv.parseNumber (2 ^ 32) "group" (part 7)
          let xattrsDigest ← Tsv.parseNumber (2 ^ 64) "xattrs_digest" (part 8)
          .ok (mode, owner, group, xattrsDigest, 9)
    let created ← decodeTime (part createdIndex)
    let modified ← decodeTime (part (createdIndex + 1))
    let changed ← decodeTime (part (createdIndex + 2))
    let hidden ← decodeHidden (part (createdIndex + 3))
    let (tags, finderComment, pathIndex) ← match version with
      | .v1 => (.ok ([], none, 9) : Except String (List Text × Option Text × Nat))
      | .v2 => do
          let tags ← decodeTags unicode (part 9)
          .ok (tags, none, 10)
      | .v3 => do
          let tags ← decodeTags unicode (part (createdIndex + 4))
          let comment ← decodeComment (part (createdIndex + 5))
          .ok (tags, comment, createdIndex + 6)
    let path ← unescape (part pathIndex)
    .ok {
      id := fileId volume node
      parent := if parentNode ≠ 0 then some (fileId volume parentNode) else none
      path, name := (fileName path).getD path, kind, len, mode, owner, group, xattrsDigest
      created, modified, changed, hidden, tags, finderComment }

/-- The lines of a text; a carriage return before the newline is part of the line end. -/
def textLinesFrom (line : Text) : Text → List Text
  | [] => if line = [] then [] else [line]
  | char :: rest =>
      if char = '\n' then
        (if line.getLast? = some '\r' then line.dropLast else line) :: textLinesFrom [] rest
      else textLinesFrom (line ++ [char]) rest

def textLines : Text → List Text := textLinesFrom []

/-- An error of a line, under the path of the archive and the number of the line. -/
def lineError (path : Path) (line : Nat) (reason : String) : GfmError :=
  .format (path.display ++ " line " ++ toString line ++ ": " ++ reason)

def parseLines (unicode : Unicode) (path : Path) (version : StoreVersion) :
    Nat → List Text → Except GfmError (List FileRecord)
  | _, [] => .ok []
  | index, line :: lines => do
      let record ← (parseRecord unicode version line).mapError (lineError path (index + 2))
      let records ← parseLines unicode path version (index + 1) lines
      .ok (record :: records)

def recordFormatError (path : Path) (reason : String) : GfmError :=
  .format ("invalid record store " ++ path.display ++ ": " ++ reason)

def verifyRecordChecksum (path : Path) (bytes : Bytes) : Except GfmError Unit :=
  if hasChecksumFooter recordChecksumFooter bytes then do
    let verified ← verifyChecksumFooter path "record" recordChecksumFooter bytes
    if verified then .ok ()
    else .error (recordFormatError path "missing record checksum footer")
  else .ok ()

def readRecords (unicode : Unicode) (utf8 : Utf8Report) (path : Path) (bytes : Bytes) :
    Except GfmError (List FileRecord) := do
  verifyRecordChecksum path bytes
  let indexed := bytes.take (indexedLen recordChecksumFooter bytes)
  match LineLog.decodeText indexed with
  | none => .error (.format ("invalid store " ++ path.display ++ ": " ++ utf8.error indexed))
  | some text =>
      match textLines text with
      | [] => .error (.format ("empty store " ++ path.display))
      | header :: lines => do
          let version ← recordVersion path header
          parseLines unicode path version 0 lines

end Decode

end Gfm.Store

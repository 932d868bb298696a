import Gfm.Lib.IndexedArchive
import Gfm.Search.Columns
import Gfm.Store.ContentCodec
import Gfm.Store.Records

/-!
# The record columns archive

What the search needs of each record, as a row of numbers. The texts of the rows stand once in a
pool in front of the rows, in order, and a row names each by its place in the pool. A directory
behind the rows leads from an id to its row.
-/

namespace Gfm.Store

open IndexedArchive Sorted Wire

def columnsMagicV1 : Bytes := LineLog.encodeText "gfm-record-columns-v1\n".toList

def columnsMagicV2 : Bytes := LineLog.encodeText "gfm-record-columns-v2\n".toList

def columnsIndexFooter : Bytes := LineLog.encodeText "gfm-record-columns-index-v1\n".toList

def columnsChecksumFooter : Bytes := LineLog.encodeText "gfm-record-columns-checksum-v1\n".toList

def columnsFooterLen : Nat := 8 + columnsIndexFooter.length

inductive ColumnsVersion where
  | v1
  | v2
  deriving DecidableEq

structure RecordColumn where
  id : FileId
  name : Text
  path : Text
  extension : Option Text
  tags : List Text
  comment : Option Text
  deriving DecidableEq

structure ColumnDirectoryEntry where
  id : FileId
  offset : Nat
  len : Nat

structure StringPoolEntry where
  offset : Nat
  len : Nat

def FileRecord.extension (record : FileRecord) : Option Text := Search.pathExtension record.path

def RecordColumn.fromRecord (unicode : Unicode) (record : FileRecord) : RecordColumn where
  id := record.id.val
  name := unicode.lowercaseTerm record.name
  path := unicode.lowercaseTerm record.path
  extension := record.extension.map unicode.lowercaseTerm
  tags := sortDedup ((record.tags.map unicode.lowercaseTerm).filter fun tag => !tag.isEmpty)
  comment := record.finderComment.map unicode.lowercaseTerm

section Write

variable (path : Path)

def RecordColumn.strings (column : RecordColumn) : List Text :=
  column.name :: column.path :: (column.extension.toList ++ (column.tags ++ column.comment.toList))

/-- The texts of the columns in order, each once; the id of a text is its place. -/
def stringPoolForColumns (columns : List RecordColumn) : List Text :=
  sortDedup (columns.flatMap RecordColumn.strings)

def writeStringId (pool : List Text) (value : Text) : Except Fault Bytes :=
  match pool.idxOf? value with
  | none => .error (.error (.io path "missing string id"))
  | some id => .ok (writeVarint id)

def writeOptionalStringId (pool : List Text) : Option Text → Except Fault Bytes
  | none => .ok [0]
  | some value => do
      let id ← writeStringId path pool value
      .ok (1 :: id)

def writeColumnV2 (pool : List Text) (column : RecordColumn) : Except Fault Bytes := do
  let name ← writeStringId path pool column.name
  let columnPath ← writeStringId path pool column.path
  let extension ← writeOptionalStringId path pool column.extension
  let tags ← column.tags.mapM (writeStringId path pool)
  let comment ← writeOptionalStringId path pool column.comment
  .ok (writeVarint column.id.volume.value ++ (writeVarint column.id.node ++ (name ++ (columnPath ++
    (extension ++ (writeVarint column.tags.length ++ (tags.flatten ++ comment)))))))

def columnsHead (columns : List RecordColumn) : Bytes :=
  columnsMagicV2 ++ (writeVarint columns.length ++
    (writeVarint (stringPoolForColumns columns).length ++
      (stringPoolForColumns columns).flatMap writeTerm))

def writeColumnDirectoryEntry (entry : ColumnDirectoryEntry) : Bytes :=
  writeVarint entry.id.volume.value ++ (writeVarint entry.id.node ++
    (writeVarint entry.offset ++ writeVarint entry.len))

/-- The entries of rows that are written from an offset on. -/
def columnsDirectory (offset : Nat) (rows : List (RecordColumn × Bytes)) :
    List ColumnDirectoryEntry :=
  entriesFrom Prod.snd (fun row offset len => ⟨row.1.id, offset, len⟩) offset rows

def columnsDirectoryBytes (directory : List ColumnDirectoryEntry) : Bytes :=
  writeVarint directory.length ++ directory.flatMap writeColumnDirectoryEntry

/-- Everything before the checksum. -/
def columnsBody (columns : List RecordColumn) (rows : List (RecordColumn × Bytes)) : Bytes :=
  archive (columnsHead columns ++ rows.flatMap Prod.snd)
    (columnsDirectoryBytes (columnsDirectory (columnsHead columns).length rows)) columnsIndexFooter

def writeRecordColumns (unicode : Unicode) (records : List FileRecord) : Except Fault Bytes := do
  let columns := records.map (RecordColumn.fromRecord unicode)
  let rows ← columns.mapM (writeColumnV2 path (stringPoolForColumns columns))
  let body := columnsBody columns (columns.zip rows)
  .ok (body ++ checksumFooter columnsChecksumFooter body)

end Write

section Read

variable (report : Bytes → String) (path : Path)

def columnFormatError (reason : String) : Fault :=
  .error (.format ("invalid record columns " ++ path.display ++ ": " ++ reason))

def columnsVersion (bytes : Bytes) : Except Fault ColumnsVersion :=
  if columnsMagicV2 <+: bytes then .ok .v2
  else if columnsMagicV1 <+: bytes then .ok .v1
  else .error (columnFormatError path "unsupported record columns header")

def verifyColumnsChecksum (bytes : Bytes) : Except Fault Unit :=
  if hasChecksumFooter columnsChecksumFooter bytes then
    match verifyChecksumFooter path "record columns" columnsChecksumFooter bytes with
    | .error error => .error (.error error)
    | .ok true => .ok ()
    | .ok false => .error (columnFormatError path "missing record columns checksum footer")
  else .ok ()

def columnsIndexedLen (bytes : Bytes) : Nat := indexedLen columnsChecksumFooter bytes

def columnsDirectoryOffset (bytes : Bytes) : Option Nat :=
  if columnsIndexedLen bytes < columnsFooterLen then none
  else some (ofLeBytes ((bytes.drop (columnsIndexedLen bytes - columnsFooterLen)).take 8))

/-- One text of the pool, passed over: what is left of the bytes says where it starts, since they
end where the directory starts. -/
def readStringPoolEntry (directoryOffset : Nat) : Reader Fault StringPoolEntry := do
  let len ← readNumber path
  let rest ← get
  let start := directoryOffset - rest.length
  if 2 ^ 64 ≤ start + len then
    fail (columnFormatError path "record columns string range overflow")
  else if directoryOffset < start + len then
    fail (columnFormatError path "record columns string crosses column data")
  else do
    set (rest.drop len)
    pure ⟨start, len⟩

def readStringPoolEntries (directoryOffset : Nat) : Reader Fault (List StringPoolEntry) := do
  let _recordCount ← readNumber path
  let stringCount ← readNumber path
  readChain (fun _ : Unit => readStringPoolEntry path directoryOffset) (fun _ => ()) stringCount ()

def readStringPoolDirectory (bytes : Bytes) : Except Fault (List StringPoolEntry) :=
  match columnsDirectoryOffset bytes with
  | none => .error (columnFormatError path "missing record columns directory footer")
  | some directoryOffset =>
      if columnsIndexedLen bytes < directoryOffset then
        .error (columnFormatError path "record columns directory offset out of bounds")
      else do
        let pool ← getRange (columnFormatError path "record columns string pool out of bounds")
          bytes columnsMagicV2.length directoryOffset
        let (entries, _) ← (readStringPoolEntries path directoryOffset).run pool
        .ok entries

def readColumnDirectoryEntry : Reader Fault ColumnDirectoryEntry := do
  let volume ← readNumber path
  let node ← readNumber path
  let offset ← readNumber path
  let len ← readNumber path
  pure ⟨⟨⟨volume⟩, node⟩, offset, len⟩

def readColumnDirectoryEntries : Reader Fault (List ColumnDirectoryEntry) := do
  let count ← readNumber path
  readChain (fun _ : Unit => readColumnDirectoryEntry path) (fun _ => ()) count ()

def readColumnsDirectory (bytes : Bytes) : Except Fault (List ColumnDirectoryEntry) :=
  let archive := bytes.take (columnsIndexedLen bytes)
  match columnsDirectoryOffset bytes with
  | none => .error (columnFormatError path "missing record columns directory footer")
  | some directoryOffset =>
      if archive.length < columnsFooterLen then
        .error (columnFormatError path "missing record columns directory footer")
      else
        let footerOffset := archive.length - columnsFooterLen
        if directoryOffset < columnsMagicV1.length ∨ footerOffset ≤ directoryOffset then
          .error (columnFormatError path "invalid record columns directory offset")
        else if archive.drop (footerOffset + 8) ≠ columnsIndexFooter then
          .error (columnFormatError path "missing record columns directory footer")
        else do
          let (entries, _) ← (readColumnDirectoryEntries path).run
            ((archive.take footerOffset).drop directoryOffset)
          .ok ((sortByKey ColumnDirectoryEntry.id entries).destutter fun left right =>
            left.id ≠ right.id)

end Read

structure MmapRecordColumns where
  path : Path
  mmap : Bytes
  version : ColumnsVersion
  directory : List ColumnDirectoryEntry
  strings : List StringPoolEntry

namespace MmapRecordColumns

def openColumns (path : Path) (mmap : Bytes) : Except Fault MmapRecordColumns := do
  let version ← columnsVersion path mmap
  verifyColumnsChecksum path mmap
  let strings ← match version with
    | .v1 => .ok []
    | .v2 => readStringPoolDirectory path mmap
  let directory ← readColumnsDirectory path mmap
  .ok { path, mmap, version, directory, strings }

variable (report : Bytes → String) (archive : MmapRecordColumns)

def stringById (id : Nat) : Except Fault Text :=
  match archive.strings[id]? with
  | none => .error (columnFormatError archive.path "string pool id out of bounds")
  | some entry => do
      let stop ← checkedAdd (columnFormatError archive.path "string pool range overflow")
        entry.offset entry.len
      let bytes ← getRange (columnFormatError archive.path "string pool range out of bounds")
        archive.mmap entry.offset stop
      match LineLog.decodeText bytes with
      | none => .error (columnFormatError archive.path
          ("pooled string is not UTF-8: " ++ report bytes))
      | some text => .ok text

def readStringId : Reader Fault Text := do
  let id ← readNumber archive.path
  liftM (archive.stringById report id)

def readOptionalStringId : Reader Fault (Option Text) := do
  let present ← readByte (ended archive.path)
  if present = 0 then pure none
  else if present = 1 then do
    let text ← archive.readStringId report
    pure (some text)
  else fail (columnFormatError archive.path "invalid optional string id tag")

def readColumnV2 : Reader Fault RecordColumn := do
  let volume ← readNumber archive.path
  let node ← readNumber archive.path
  let name ← archive.readStringId report
  let path ← archive.readStringId report
  let extension ← archive.readOptionalStringId report
  let tagCount ← readNumber archive.path
  let tags ← readChain (fun _ : Unit => archive.readStringId report) (fun _ => ()) tagCount ()
  let comment ← archive.readOptionalStringId report
  pure { id := ⟨⟨volume⟩, node⟩, name, path, extension, tags, comment }

section FirstVersion

variable (path : Path)

def readString : Reader Fault Text := do
  let len ← readNumber path
  let bytes ← readBytes path len
  match LineLog.decodeText bytes with
  | none => fail (columnFormatError path ("string is not UTF-8: " ++ report bytes))
  | some text => pure text

def readOptionalString : Reader Fault (Option Text) := do
  let present ← readByte (ended path)
  if present = 0 then pure none
  else if present = 1 then do
    let text ← readString report path
    pure (some text)
  else fail (columnFormatError path "invalid optional string tag")

def readColumn : Reader Fault RecordColumn := do
  let volume ← readNumber path
  let node ← readNumber path
  let name ← readString report path
  let columnPath ← readString report path
  let extension ← readOptionalString report path
  let tagCount ← readNumber path
  let tags ← readChain (fun _ : Unit => readString report path) (fun _ => ()) tagCount ()
  let comment ← readOptionalString report path
  pure { id := ⟨⟨volume⟩, node⟩, name, path := columnPath, extension, tags, comment }

end FirstVersion

def readEntry (entry : ColumnDirectoryEntry) : Except Fault RecordColumn := do
  let stop ← checkedAdd (columnFormatError archive.path "column range overflow") entry.offset
    entry.len
  if (columnsDirectoryOffset archive.mmap).getD (columnsIndexedLen archive.mmap) < stop then
    .error (columnFormatError archive.path "record column range crosses directory")
  else do
    let bytes ← getRange (columnFormatError archive.path "record column range out of bounds")
      archive.mmap entry.offset stop
    let (column, _) ← match archive.version with
      | .v1 => (readColumn report archive.path).run bytes
      | .v2 => (archive.readColumnV2 report).run bytes
    if column.id = entry.id then .ok column
    else .error (columnFormatError archive.path "record column directory points at the wrong id")

def column (index : Nat) : Except Fault RecordColumn :=
  match archive.directory[index]? with
  | none => .error (.error (.format (archive.path.display ++ " record column index " ++
      toString index ++ " out of bounds")))
  | some entry => archive.readEntry report entry

def find (id : FileId) : Except Fault (Option RecordColumn) :=
  match binarySearchByKey archive.directory id ColumnDirectoryEntry.id with
  | none => .ok none
  | some index => (archive.column report index).map some

end MmapRecordColumns

end Gfm.Store

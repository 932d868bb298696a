import Gfm.Lib.Folds
import Gfm.Lib.SortedWalk
import Gfm.Store.ContentReading
import Gfm.Store.RecordColumns

/-!
# Reading written record columns

Every text of a row is in the pool, so a row is written and its numbers lead back to its texts. The
pool and the directory are found from both ends of the archive, and with distinct ids the directory
leads from each id to the row of its record, and from no other id to any.
-/

namespace Gfm.Store

open Folds IndexedArchive List MmapRecordColumns Sorted SortedWalk Wire
open LineLog hiding Bytes

section Rows

variable (pool : List Text)

/-- The number of a text that is in the pool. -/
def stringIdBytes (value : Text) : Bytes := writeVarint (pool.idxOf value)

def optionalIdBytes : Option Text → Bytes
  | none => [0]
  | some value => 1 :: stringIdBytes pool value

/-- A row whose texts are all in the pool. -/
def columnBytes (column : RecordColumn) : Bytes :=
  writeVarint column.id.volume.value ++ (writeVarint column.id.node ++
    (stringIdBytes pool column.name ++ (stringIdBytes pool column.path ++
      (optionalIdBytes pool column.extension ++ (writeVarint column.tags.length ++
        (column.tags.flatMap (stringIdBytes pool) ++ optionalIdBytes pool column.comment))))))

variable {pool} (path : Path)

theorem idxOf?_of_mem {value : Text} (listed : value ∈ pool) :
    pool.idxOf? value = some (pool.idxOf value) := by
  induction pool with
  | nil => cases listed
  | cons first pool ih =>
      rw [idxOf?_cons, idxOf_cons]
      by_cases same : first = value
      · simp [same]
      · have later : value ∈ pool := (mem_cons.mp listed).resolve_left (Ne.symm same)
        have other : (first == value) = false := beq_eq_false_iff_ne.mpr same
        simp [other, ih later]

theorem writeStringId_of_mem {value : Text} (listed : value ∈ pool) :
    writeStringId path pool value = .ok (stringIdBytes pool value) := by
  rw [writeStringId, idxOf?_of_mem listed]
  rfl

theorem writeOptionalStringId_of_mem {value : Option Text}
    (listed : ∀ text ∈ value.toList, text ∈ pool) :
    writeOptionalStringId path pool value = .ok (optionalIdBytes pool value) := by
  cases value with
  | none => rfl
  | some text =>
      rw [writeOptionalStringId, writeStringId_of_mem path (listed text (by simp))]
      rfl

theorem writeColumnV2_of_mem {column : RecordColumn}
    (listed : ∀ text ∈ column.strings, text ∈ pool) :
    writeColumnV2 path pool column = .ok (columnBytes pool column) := by
  simp only [RecordColumn.strings, forall_mem_cons, forall_mem_append] at listed
  rcases listed with ⟨name, columnPath, extension, tags, comment⟩
  rw [writeColumnV2, writeStringId_of_mem path name, writeStringId_of_mem path columnPath,
    writeOptionalStringId_of_mem path extension,
    mapM_ok fun tag member => writeStringId_of_mem path (tags tag member),
    writeOptionalStringId_of_mem path comment]
  simp only [bind, Except.bind, columnBytes, flatMap_def]

theorem mem_stringPool {columns : List RecordColumn} {column : RecordColumn}
    (member : column ∈ columns) : ∀ text ∈ column.strings, text ∈ stringPoolForColumns columns :=
  fun _ listed => mem_sortDedup.mpr (mem_flatMap.mpr ⟨column, member, listed⟩)

end Rows

section Archive

variable (columns : List RecordColumn)

def columnRows : List (RecordColumn × Bytes) :=
  columns.map fun column => (column, columnBytes (stringPoolForColumns columns) column)

def columnsFront : Bytes := columnsHead columns ++ (columnRows columns).flatMap Prod.snd

/-- The directory of the rows, in the order of the rows. -/
def rowsDirectory : List ColumnDirectoryEntry :=
  columnsDirectory (columnsHead columns).length (columnRows columns)

/-- The archive of the columns. -/
def columnsBytes : Bytes :=
  columnsBody columns (columnRows columns) ++
    checksumFooter columnsChecksumFooter (columnsBody columns (columnRows columns))

/-- The writer succeeds: no text is missing from the pool. -/
theorem writeRecordColumns_eq (unicode : Unicode) (path : Path) (records : List FileRecord) :
    writeRecordColumns path unicode records =
      .ok (columnsBytes (records.map (RecordColumn.fromRecord unicode))) := by
  generalize shape : records.map (RecordColumn.fromRecord unicode) = columns
  have rows : columns.mapM (writeColumnV2 path (stringPoolForColumns columns)) =
      .ok (columns.map (columnBytes (stringPoolForColumns columns))) :=
    mapM_ok fun column member => writeColumnV2_of_mem path (mem_stringPool member)
  have zipped : columns.zip (columns.map (columnBytes (stringPoolForColumns columns))) =
      columnRows columns := by
    have pairs := @zip_map' _ _ _ id (columnBytes (stringPoolForColumns columns)) columns
    rwa [map_id] at pairs
  rw [writeRecordColumns, shape]
  simp only [rows, bind, Except.bind, zipped]
  rfl

end Archive

section Pool

variable (path : Path)

/-- Where a text of the pool is, behind its length. -/
def poolEntry (text : Text) (offset _len : Nat) : StringPoolEntry where
  offset := offset + (writeVarint (encodeText text).length).length
  len := (encodeText text).length

/-- Where the texts of a pool are that is written from an offset on. -/
def poolEntries (offset : Nat) (pool : List Text) : List StringPoolEntry :=
  entriesFrom writeTerm poolEntry offset pool

theorem length_writeTerm (text : Text) : (writeTerm text).length =
    (writeVarint (encodeText text).length).length + (encodeText text).length :=
  length_append

theorem readStringPoolEntry_written {directoryOffset offset : Nat} {text : Text} {rest : Bytes}
    (ends : offset + (writeTerm text).length + rest.length = directoryOffset)
    (small : directoryOffset < 2 ^ 64) :
    (readStringPoolEntry path directoryOffset).run (writeTerm text ++ rest) =
      .ok (poolEntry text offset (writeTerm text).length, rest) := by
  rw [length_writeTerm] at ends
  have start : directoryOffset - (encodeText text ++ rest).length =
      offset + (writeVarint (encodeText text).length).length := by
    rw [length_append]
    omega
  have len := decodes_readNumber path
    (show (encodeText text).length < 2 ^ 64 by omega)
  rw [readStringPoolEntry, writeTerm, append_assoc, len.run_bind]
  change (if 2 ^ 64 ≤ directoryOffset - (encodeText text ++ rest).length + _ then _
    else if directoryOffset < directoryOffset - (encodeText text ++ rest).length + _ then _
    else _ : Reader Fault StringPoolEntry).run (encodeText text ++ rest) = _
  rw [start, if_neg (by omega), if_neg (by omega), drop_left]
  rfl

theorem readStringPool_written {directoryOffset offset : Nat} {pool : List Text} {rest : Bytes}
    (ends : offset + (pool.flatMap writeTerm).length + rest.length = directoryOffset)
    (small : directoryOffset < 2 ^ 64) :
    (readChain (fun _ : Unit => readStringPoolEntry path directoryOffset) (fun _ => ())
      pool.length ()).run (pool.flatMap writeTerm ++ rest) =
        .ok (poolEntries offset pool, rest) := by
  induction pool generalizing offset with
  | nil => rfl
  | cons text pool ih =>
      rw [flatMap_cons, length_append] at ends
      have first := @readStringPoolEntry_written path _ offset text
        (pool.flatMap writeTerm ++ rest) (by rw [length_append]; omega) small
      have others := @ih (offset + (writeTerm text).length) (by omega)
      rw [flatMap_cons, append_assoc, length_cons, readChain, StateT.run_bind,
        first]
      change (readChain (fun _ : Unit => readStringPoolEntry path directoryOffset) (fun _ => ())
        pool.length () >>= fun texts => pure (_ :: texts)).run (pool.flatMap writeTerm ++ rest) = _
      rw [StateT.run_bind, others]
      rfl

end Pool

/-- Columns that a program can hold and write: one for each id, and the archive is an object. -/
structure ColumnsFit (columns : List RecordColumn) : Prop where
  distinct : (columns.map RecordColumn.id).Nodup
  ids : ∀ column ∈ columns, Fits column.id
  written : (columnsBytes columns).length ≤ isizeMax

section Opening

variable (columns : List RecordColumn) (path : Path)

def directoryPart : Bytes := columnsDirectoryBytes (rowsDirectory columns)

/-- What stands before the pool. -/
def poolStart : Nat := (columnsMagicV2 ++ (writeVarint columns.length ++
  writeVarint (stringPoolForColumns columns).length)).length

/-- The archive as it opens. -/
def writtenColumns : MmapRecordColumns where
  path := path
  mmap := columnsBytes columns
  version := .v2
  directory := sortByKey ColumnDirectoryEntry.id (rowsDirectory columns)
  strings := poolEntries (poolStart columns) (stringPoolForColumns columns)

theorem columnsBody_eq : columnsBody columns (columnRows columns) =
    archive (columnsFront columns) (directoryPart columns) columnsIndexFooter := rfl

theorem length_columnsBody : (columnsBody columns (columnRows columns)).length =
    (columnsFront columns).length + (directoryPart columns).length +
      (8 + columnsIndexFooter.length) := length_archive _ _ _

theorem length_columnsBytes : (columnsBytes columns).length =
    (columnsBody columns (columnRows columns)).length + (4 + columnsChecksumFooter.length) := by
  rw [columnsBytes, length_append, length_checksumFooter]

theorem columnsIndexedLen_written : columnsIndexedLen (columnsBytes columns) =
    (columnsBody columns (columnRows columns)).length := indexedLen_written _ _

theorem directoryPart_pos : 0 < (directoryPart columns).length := by
  have filled := length_pos_iff.mpr (writeVarint_ne_nil (rowsDirectory columns).length)
  rw [directoryPart, columnsDirectoryBytes, length_append]
  omega

variable {columns} (fit : ColumnsFit columns)
include fit

namespace ColumnsFit

theorem length_front_lt : (columnsFront columns).length < 2 ^ 63 := by
  have bound : isizeMax < 2 ^ 63 := by decide
  have written := fit.written
  rw [length_columnsBytes, length_columnsBody] at written
  omega

theorem columnsDirectoryOffset_written :
    columnsDirectoryOffset (columnsBytes columns) = some (columnsFront columns).length := by
  have front := fit.length_front_lt
  have footer : columnsFooterLen = 8 + columnsIndexFooter.length := rfl
  have length := length_columnsBody columns
  have place : (columnsBody columns (columnRows columns)).length - columnsFooterLen =
      (columnsFront columns).length + (directoryPart columns).length := by omega
  have offset : ofLeBytes (((columnsBytes columns).drop ((columnsFront columns).length +
      (directoryPart columns).length)).take 8) = (columnsFront columns).length :=
    offset_archive _ _ columnsIndexFooter (by omega) _
  rw [columnsDirectoryOffset, columnsIndexedLen_written, if_neg (by omega), place, offset]

/-- There are no more columns, and no more texts, than bytes. -/
theorem counts_lt : columns.length < 2 ^ 63 ∧ (stringPoolForColumns columns).length < 2 ^ 63 := by
  have front := fit.length_front_lt
  have texts : (stringPoolForColumns columns).length ≤
      ((stringPoolForColumns columns).flatMap writeTerm).length :=
    length_le_length_flatMap (fun text => append_ne_nil_of_left_ne_nil
      (writeVarint_ne_nil _) _) _
  have rows : columns.length ≤
      (columns.flatMap (columnBytes (stringPoolForColumns columns))).length :=
    length_le_length_flatMap (fun column => append_ne_nil_of_left_ne_nil
      (writeVarint_ne_nil _) _) _
  have same : (columnRows columns).flatMap Prod.snd =
      columns.flatMap (columnBytes (stringPoolForColumns columns)) := flatMap_map _ _ _
  rw [columnsFront, columnsHead, same] at front
  simp only [length_append] at front
  constructor <;> omega

/-- The texts of the pool lie between the head and the rows. -/
theorem readStringPoolDirectory_written :
    readStringPoolDirectory path (columnsBytes columns) =
      .ok (poolEntries (poolStart columns) (stringPoolForColumns columns)) := by
  have front := fit.length_front_lt
  have counts := fit.counts_lt
  have inside : ¬columnsIndexedLen (columnsBytes columns) < (columnsFront columns).length := by
    rw [columnsIndexedLen_written, length_columnsBody]
    omega
  have texts := @readStringPool_written path (columnsFront columns).length (poolStart columns)
    (stringPoolForColumns columns) ((columnRows columns).flatMap Prod.snd) (by
      rw [columnsFront, columnsHead, poolStart]
      simp only [length_append]
      omega) (by omega)
  have entries : (readStringPoolEntries path (columnsFront columns).length).run
      (writeVarint columns.length ++ (writeVarint (stringPoolForColumns columns).length ++
        ((stringPoolForColumns columns).flatMap writeTerm ++
          (columnRows columns).flatMap Prod.snd))) =
      .ok (poolEntries (poolStart columns) (stringPoolForColumns columns),
        (columnRows columns).flatMap Prod.snd) := by
    rw [readStringPoolEntries, (decodes_readNumber path (by omega)).run_bind,
      (decodes_readNumber path (by omega)).run_bind, texts]
  generalize shape : writeVarint columns.length ++
    (writeVarint (stringPoolForColumns columns).length ++
      ((stringPoolForColumns columns).flatMap writeTerm ++
        (columnRows columns).flatMap Prod.snd)) = pool at entries
  have head : columnsFront columns = columnsMagicV2 ++ pool := by
    rw [columnsFront, columnsHead, ← shape]
    simp only [append_assoc]
  have slice : getRange (columnFormatError path "record columns string pool out of bounds")
      (columnsBytes columns) columnsMagicV2.length (columnsFront columns).length = .ok pool := by
    have range := getRange_written
      (columnFormatError path "record columns string pool out of bounds") columnsMagicV2 pool
      (directoryPart columns ++ (leBytes 8 (columnsFront columns).length ++ columnsIndexFooter) ++
        checksumFooter columnsChecksumFooter (columnsBody columns (columnRows columns)))
    rw [← append_assoc, ← head, ← length_append, ← head] at range
    exact range
  rw [readStringPoolDirectory, fit.columnsDirectoryOffset_written]
  simp only [if_neg inside, slice, bind, Except.bind, entries]

omit fit in
/-- Every entry is that of a column, with the place of its row. -/
theorem exists_column_of_mem {entry : ColumnDirectoryEntry}
    (listed : entry ∈ rowsDirectory columns) : ∃ index column, columns[index]? = some column ∧
      entry = ⟨column.id, (columnsHead columns).length + (((columnRows columns).take index).flatMap
        Prod.snd).length, (columnBytes (stringPoolForColumns columns) column).length⟩ := by
  rcases exists_item_of_mem_entriesFrom _ _ listed with ⟨index, row, known, rfl⟩
  rw [columnRows, getElem?_map, Option.map_eq_some_iff] at known
  rcases known with ⟨column, known, rfl⟩
  exact ⟨index, column, known, rfl⟩

omit fit in
theorem row_of_column {index : Nat} {column : RecordColumn}
    (known : columns[index]? = some column) :
    (columnRows columns)[index]? =
      some (column, columnBytes (stringPoolForColumns columns) column) := by
  rw [columnRows, getElem?_map, known, Option.map_some]

omit fit in
/-- A row ends where the directory starts, or before it. -/
theorem offset_row_le {index : Nat} {column : RecordColumn}
    (known : columns[index]? = some column) :
    (columnsHead columns).length + (((columnRows columns).take index).flatMap Prod.snd).length +
      (columnBytes (stringPoolForColumns columns) column).length ≤
        (columnsFront columns).length := by
  have within : (((columnRows columns).take index).flatMap Prod.snd).length +
      (columnBytes (stringPoolForColumns columns) column).length ≤
        ((columnRows columns).flatMap Prod.snd).length :=
    offset_add_length_le (row_of_column known)
  rw [columnsFront, length_append]
  omega

omit fit in
theorem map_id_rowsDirectory :
    (rowsDirectory columns).map ColumnDirectoryEntry.id = columns.map RecordColumn.id := by
  have ids : (rowsDirectory columns).map ColumnDirectoryEntry.id =
      (columnRows columns).map fun row => row.1.id :=
    map_entriesFrom _ _ ColumnDirectoryEntry.id (fun row : RecordColumn × Bytes => row.1.id)
      (fun _ _ _ => rfl) _ _
  rw [ids, columnRows, map_map]
  rfl

theorem strict_directory : Strict ColumnDirectoryEntry.id
    (sortByKey ColumnDirectoryEntry.id (rowsDirectory columns)) := by
  refine strict_sortByKey ?_
  rw [map_id_rowsDirectory]
  exact fit.distinct

theorem decodes_readColumnDirectoryEntry {entry : ColumnDirectoryEntry}
    (listed : entry ∈ rowsDirectory columns) :
    Decodes (readColumnDirectoryEntry path) (writeColumnDirectoryEntry entry) (id entry) := by
  have front := fit.length_front_lt
  rcases exists_column_of_mem listed with ⟨index, column, known, rfl⟩
  have within := offset_row_le known
  have own := fit.ids column (mem_of_getElem? known)
  refine (decodes_readNumber path own.1).bind ?_
  refine (decodes_readNumber path own.2).bind ?_
  refine (decodes_readNumber path ?_).bind ?_
  · change (columnsHead columns).length + _ < _
    omega
  · refine (decodes_readNumber path ?_).andThen (Decodes.pure _)
    change (columnBytes (stringPoolForColumns columns) column).length < _
    omega

theorem readColumnsDirectory_written :
    readColumnsDirectory path (columnsBytes columns) =
      .ok (sortByKey ColumnDirectoryEntry.id (rowsDirectory columns)) := by
  have footer : columnsFooterLen = 8 + columnsIndexFooter.length := rfl
  have length := length_columnsBody columns
  have filled := directoryPart_pos columns
  have indexed : (columnsBytes columns).take (columnsIndexedLen (columnsBytes columns)) =
      columnsBody columns (columnRows columns) := by
    rw [columnsIndexedLen_written, columnsBytes, take_left]
  have place : (columnsBody columns (columnRows columns)).length - columnsFooterLen =
      (columnsFront columns).length + (directoryPart columns).length := by omega
  have headed : columnsMagicV1.length ≤ (columnsFront columns).length := by
    have same : columnsMagicV1.length = columnsMagicV2.length := by decide +kernel
    rw [columnsFront, columnsHead, length_append, length_append]
    omega
  have magic : (columnsBody columns (columnRows columns)).drop ((columnsFront columns).length +
      (directoryPart columns).length + 8) = columnsIndexFooter := magic_archive _ _ _
  have part : ((columnsBody columns (columnRows columns)).take ((columnsFront columns).length +
      (directoryPart columns).length)).drop (columnsFront columns).length =
        directoryPart columns := directory_archive _ _ _
  have count : (rowsDirectory columns).length < 2 ^ 64 := by
    have counts := fit.counts_lt
    rw [rowsDirectory, columnsDirectory, length_entriesFrom, columnRows, length_map]
    omega
  have read : Decodes (readColumnDirectoryEntries path) (directoryPart columns)
      ((rowsDirectory columns).map id) :=
    (decodes_readNumber path count).bind (decodes_readEach fun entry listed =>
      fit.decodes_readColumnDirectoryEntry path listed)
  have whole := read []
  rw [append_nil, map_id] at whole
  have kept : (sortByKey ColumnDirectoryEntry.id (rowsDirectory columns)).destutter
      (fun left right => left.id ≠ right.id) =
        sortByKey ColumnDirectoryEntry.id (rowsDirectory columns) := by
    refine destutter_of_isChain _ _ (List.Pairwise.isChain ?_)
    exact fit.strict_directory.imp fun lower same => by
      rw [same, Std.compare_self] at lower
      cases lower
  simp only [readColumnsDirectory, indexed, fit.columnsDirectoryOffset_written, place]
  rw [if_neg (by omega), if_neg (by omega)]
  simp only [magic, ne_eq, not_true_eq_false, if_false, part, whole, bind, Except.bind, kept]

theorem openColumns_written : openColumns path (columnsBytes columns) =
    .ok (writtenColumns columns path) := by
  have headed : columnsMagicV2 <+: columnsBytes columns := by
    simp only [columnsBytes, columnsBody, archive, columnsHead, append_assoc]
    exact prefix_append _ _
  have checksum : verifyColumnsChecksum path (columnsBytes columns) = .ok () := by
    have footed : hasChecksumFooter columnsChecksumFooter (columnsBytes columns) = true :=
      hasChecksumFooter_written _ _
    have verified : verifyChecksumFooter path "record columns" columnsChecksumFooter
        (columnsBytes columns) = .ok true := verifyChecksumFooter_written _ _ path _
    rw [verifyColumnsChecksum, if_pos footed, verified]
  simp only [openColumns, columnsVersion, if_pos headed, checksum, bind,
    Except.bind, fit.readStringPoolDirectory_written, fit.readColumnsDirectory_written,
    writtenColumns]

end ColumnsFit

end Opening

section Lookups

variable {columns : List RecordColumn} (fit : ColumnsFit columns) (report : Bytes → String)
  (path : Path)
include fit

namespace ColumnsFit

omit fit in
/-- The entry of a text of the pool says where its bytes are. -/
theorem poolEntry_written {index : Nat} {text : Text}
    (pooled : (stringPoolForColumns columns)[index]? = some text) :
    ∃ entry before after, (poolEntries (poolStart columns)
        (stringPoolForColumns columns))[index]? = some entry ∧
      entry.offset = before.length ∧ entry.len = (encodeText text).length ∧
        columnsFront columns = before ++ encodeText text ++ after := by
  have place : (poolEntries (poolStart columns) (stringPoolForColumns columns))[index]? =
      some (poolEntry text (poolStart columns +
        (((stringPoolForColumns columns).take index).flatMap writeTerm).length)
          (writeTerm text).length) := by
    rw [poolEntries, getElem?_entriesFrom, pooled, Option.map_some]
  have texts : (stringPoolForColumns columns).flatMap writeTerm = _ :=
    flatMap_eq_of_getElem? pooled
  refine ⟨_, columnsMagicV2 ++ (writeVarint columns.length ++
    writeVarint (stringPoolForColumns columns).length) ++
      ((stringPoolForColumns columns).take index).flatMap writeTerm ++
        writeVarint (encodeText text).length,
    ((stringPoolForColumns columns).drop (index + 1)).flatMap writeTerm ++
      (columnRows columns).flatMap Prod.snd, place, ?_, rfl, ?_⟩
  · simp only [poolEntry, poolStart, length_append]
  · rw [columnsFront, columnsHead, texts, writeTerm]
    simp only [append_assoc]

/-- The number of a text leads to the text. -/
theorem stringById_written {index : Nat} {text : Text}
    (pooled : (stringPoolForColumns columns)[index]? = some text) :
    (writtenColumns columns path).stringById report index = .ok text := by
  have small := fit.length_front_lt
  rcases poolEntry_written pooled with ⟨entry, before, after, place, offset, len, front⟩
  have bytes : columnsBytes columns = before ++ encodeText text ++ (after ++
      (directoryPart columns ++ (leBytes 8 (columnsFront columns).length ++ columnsIndexFooter) ++
        checksumFooter columnsChecksumFooter (columnsBody columns (columnRows columns)))) := by
    rw [columnsBytes, columnsBody_eq, archive, front]
    simp only [append_assoc]
  have slice := getRange_written (columnFormatError path "string pool range out of bounds") before
    (encodeText text) (after ++ (directoryPart columns ++
      (leBytes 8 (columnsFront columns).length ++ columnsIndexFooter) ++
        checksumFooter columnsChecksumFooter (columnsBody columns (columnRows columns))))
  rw [← bytes] at slice
  have stop : checkedAdd (columnFormatError path "string pool range overflow") before.length
      (encodeText text).length =
        .ok (before.length + (encodeText text).length) := by
    refine if_pos ?_
    rw [front, length_append, length_append] at small
    omega
  simp only [stringById, writtenColumns, place, offset, len, stop, slice, bind,
    Except.bind, decodeText_encodeText]

theorem decodes_readStringId {text : Text} (pooled : text ∈ stringPoolForColumns columns) :
    Decodes ((writtenColumns columns path).readStringId report)
      (stringIdBytes (stringPoolForColumns columns) text) text := by
  have counts := fit.counts_lt
  have inside := idxOf_lt_length_of_mem pooled
  have place : (stringPoolForColumns columns)[(stringPoolForColumns columns).idxOf text]? =
      some text := getElem?_idxOf pooled
  refine (decodes_readNumber path (by omega)).andThen ?_
  exact decodes_lift (fit.stringById_written report path place)

theorem decodes_readOptionalStringId {value : Option Text}
    (pooled : ∀ text ∈ value.toList, text ∈ stringPoolForColumns columns) :
    Decodes ((writtenColumns columns path).readOptionalStringId report)
      (optionalIdBytes (stringPoolForColumns columns) value) value := by
  cases value with
  | none => exact (decodes_readByte _ 0).andThen (Decodes.pure none)
  | some text =>
      refine (decodes_readByte (ended path) 1).bind ?_
      exact (fit.decodes_readStringId report path (pooled text (by simp))).andThen
        (Decodes.pure (some text))

/-- A row is read back as the column that it was written of. -/
theorem decodes_readColumnV2 {column : RecordColumn} (listed : column ∈ columns)
    (short : (columnBytes (stringPoolForColumns columns) column).length < 2 ^ 64) :
    Decodes ((writtenColumns columns path).readColumnV2 report)
      (columnBytes (stringPoolForColumns columns) column) column := by
  have own := fit.ids column listed
  have pooled := mem_stringPool listed
  simp only [RecordColumn.strings, forall_mem_cons, forall_mem_append] at pooled
  rcases pooled with ⟨name, columnPath, extension, tags, comment⟩
  have count : column.tags.length < 2 ^ 64 := by
    have each : column.tags.length ≤
        (column.tags.flatMap (stringIdBytes (stringPoolForColumns columns))).length :=
      length_le_length_flatMap (fun tag => writeVarint_ne_nil _) _
    simp only [columnBytes, length_append] at short
    omega
  have tagsRead := decodes_readEach fun tag member =>
    fit.decodes_readStringId report path (tags tag member)
  rw [map_id'] at tagsRead
  refine (decodes_readNumber path own.1).bind ?_
  refine (decodes_readNumber path own.2).bind ?_
  refine (fit.decodes_readStringId report path name).bind ?_
  refine (fit.decodes_readStringId report path columnPath).bind ?_
  refine (fit.decodes_readOptionalStringId report path extension).bind ?_
  refine (decodes_readNumber path count).bind ?_
  refine tagsRead.bind ?_
  exact (fit.decodes_readOptionalStringId report path comment).andThen (Decodes.pure _)

/-- An entry of the directory leads to its column. -/
theorem readEntry_written {entry : ColumnDirectoryEntry} (listed : entry ∈ rowsDirectory columns) :
    ∃ column ∈ columns, entry.id = column.id ∧
      (writtenColumns columns path).readEntry report entry = .ok column := by
  have small := fit.length_front_lt
  rcases exists_column_of_mem listed with ⟨index, column, known, rfl⟩
  have present := mem_of_getElem? known
  have within := offset_row_le known
  refine ⟨column, present, rfl, ?_⟩
  have rows : (columnRows columns).flatMap Prod.snd = ((columnRows columns).take index).flatMap
      Prod.snd ++ columnBytes (stringPoolForColumns columns) column ++
        ((columnRows columns).drop (index + 1)).flatMap Prod.snd :=
    flatMap_eq_of_getElem? (row_of_column known)
  have read := fit.decodes_readColumnV2 report path present (by omega) []
  rw [append_nil] at read
  generalize ((columnRows columns).take index).flatMap Prod.snd = earlier at *
  generalize columnBytes (stringPoolForColumns columns) column = row at *
  have bytes : ∃ rest, columnsBytes columns = columnsHead columns ++ earlier ++ row ++ rest := by
    rw [columnsBytes, columnsBody_eq, archive, columnsFront, rows]
    simp only [append_assoc, append_cancel_left_eq, exists_eq']
  rcases bytes with ⟨rest, bytes⟩
  have slice := getRange_written (columnFormatError path "record column range out of bounds")
    (columnsHead columns ++ earlier) row rest
  rw [← bytes, length_append] at slice
  have stop : checkedAdd (columnFormatError path "column range overflow")
      ((columnsHead columns).length + earlier.length) row.length =
        .ok ((columnsHead columns).length + earlier.length + row.length) := if_pos (by omega)
  simp only [MmapRecordColumns.readEntry, writtenColumns, stop, bind, Except.bind,
    fit.columnsDirectoryOffset_written, Option.getD_some, if_neg (Nat.not_lt.mpr within), slice]
  simp only [writtenColumns] at read
  simp only [read, if_true]

/-- The columns are found by their ids. -/
theorem find_written (id : FileId) : (writtenColumns columns path).find report id =
    .ok (columns.find? fun column => column.id = id) := by
  have perm := sortByKey_perm ColumnDirectoryEntry.id (rowsDirectory columns)
  rw [MmapRecordColumns.find]
  rcases binarySearchByKey_spec fit.strict_directory.ascending id with
    ⟨index, entry, found, place, same⟩ | ⟨missed, others⟩
  · have own : entry.id = id := Std.LawfulEqOrd.eq_of_compare same
    have listed := perm.mem_iff.mp (mem_of_getElem? place)
    rcases fit.readEntry_written report path listed with ⟨column, present, named, read⟩
    have first : (columns.find? fun column => column.id = id) = some column := by
      rw [← own, named]
      exact itemOf_of_mem fit.distinct present
    have taken : (writtenColumns columns path).column report index = .ok column := by
      rw [MmapRecordColumns.column]
      simp only [writtenColumns, place]
      exact read
    simp only [writtenColumns, found] at taken ⊢
    rw [taken, first]
    rfl
  · have absent : (columns.find? fun column => column.id = id) = none := by
      refine itemOf_eq_none.mpr fun column present same => ?_
      have named : column.id ∈ (rowsDirectory columns).map ColumnDirectoryEntry.id := by
        rw [map_id_rowsDirectory]
        exact mem_map.mpr ⟨column, present, rfl⟩
      rcases mem_map.mp named with ⟨entry, listed, own⟩
      refine others entry (perm.mem_iff.mpr listed) ?_
      rw [own, same, Std.compare_self]
    simp only [writtenColumns, missed, absent]

end ColumnsFit

end Lookups

section Faithful

variable (unicode : Unicode) (report : Bytes → String) (path : Path)

/-- The rows of distinct records are found by the ids of the records, a row is found by no other
id, and the number that a text was written as leads back to the text. -/
theorem recordColumns_roundTrip (records : List FileRecord)
    (distinct : (records.map FileRecord.id).Nodup) :
    ∃ bytes, writeRecordColumns path unicode records = .ok bytes ∧
      (bytes.length ≤ isizeMax →
        ∃ archive, openColumns path bytes = .ok archive ∧
          (∀ id, archive.find report id = .ok ((records.find? fun record =>
            record.id.val = id).map (RecordColumn.fromRecord unicode))) ∧
          (∀ record ∈ records, ∀ text ∈ (RecordColumn.fromRecord unicode record).strings,
            ∃ id, writeStringId path (stringPoolForColumns
                (records.map (RecordColumn.fromRecord unicode))) text = .ok (writeVarint id) ∧
              archive.stringById report id = .ok text) ∧
          ∀ id text, (stringPoolForColumns (records.map
            (RecordColumn.fromRecord unicode)))[id]? = some text →
              archive.stringById report id = .ok text) := by
  refine ⟨_, writeRecordColumns_eq unicode path records, fun written => ?_⟩
  have own : (records.map (RecordColumn.fromRecord unicode)).map RecordColumn.id =
      (records.map FileRecord.id).map Subtype.val := by
    rw [map_map, map_map]
    rfl
  have fit : ColumnsFit (records.map (RecordColumn.fromRecord unicode)) := by
    refine ⟨?_, ?_, written⟩
    · rw [own]
      exact distinct.map Subtype.val_injective
    · intro column listed
      rcases mem_map.mp listed with ⟨record, -, rfl⟩
      exact record.id.property
  refine ⟨_, fit.openColumns_written path, fun id => ?_, fun record listed text used => ?_,
    fun id text pooled => fit.stringById_written report path pooled⟩
  · rw [fit.find_written report path, find?_map]
    rfl
  · have pooled := mem_stringPool (mem_map_of_mem listed) text used
    exact ⟨_, writeStringId_of_mem path pooled,
      fit.stringById_written report path (getElem?_idxOf pooled)⟩

/-- A record whose name and path are two texts of the pool, and its tag a third. -/
def noteRecord : FileRecord where
  id := fileId 1 7
  parent := some (fileId 1 2)
  path := "/Home/Note.txt".toList
  name := "Note.txt".toList
  kind := .file
  len := 12
  mode := 420
  owner := 501
  group := 20
  xattrsDigest := 0
  created := none
  modified := none
  changed := none
  hidden := false
  tags := ["Red".toList, "red".toList]
  finderComment := none

theorem recordColumns_roundTrip_note :
    ∃ bytes archive, writeRecordColumns [] Unicode.ascii [noteRecord] = .ok bytes ∧
      openColumns [] bytes = .ok archive ∧
        archive.find (fun _ => "") ⟨⟨1⟩, 7⟩ =
          .ok (some (RecordColumn.fromRecord Unicode.ascii noteRecord)) := by
  rcases recordColumns_roundTrip Unicode.ascii (fun _ => "") [] [noteRecord] (by decide) with
    ⟨bytes, written, opens⟩
  have short : bytes.length ≤ isizeMax := by
    cases (writeRecordColumns_eq Unicode.ascii [] [noteRecord]).symm.trans written
    decide +kernel
  rcases opens short with ⟨archive, opened, found, -⟩
  refine ⟨bytes, archive, written, opened, ?_⟩
  rw [found]
  rfl

end Faithful

end Gfm.Store

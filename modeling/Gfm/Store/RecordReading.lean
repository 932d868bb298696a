import Gfm.Store.RecordArchive
import Gfm.Store.RecordFields

/-!
# Both readers over a written archive

The sequential reader gives the records in their stored form. The mapped archive opens, and holds
a list of records: its entries parse to them, and its directory lists their ids in order.
-/

namespace Gfm.Store

open List Sorted Wire
open LineLog hiding Bytes

section Lines

theorem unbroken_encodeText {text : Text} (unbroken : '\n' ∉ text ∧ '\r' ∉ text) :
    LineLog.newline ∉ encodeText text ∧ LineLog.carriageReturn ∉ encodeText text :=
  ⟨fun listed => unbroken.1 (LineLog.mem_of_ascii_mem_encodeText (by decide) listed),
    fun listed => unbroken.2 (LineLog.mem_of_ascii_mem_encodeText (by decide) listed)⟩

theorem unbroken_magicV3 : '\n' ∉ magicV3 ∧ '\r' ∉ magicV3 := by decide +kernel

theorem textLinesFrom_append (part line rest : Text) (unbroken : '\n' ∉ line ∧ '\r' ∉ line)
    (start : '\r' ∉ part) :
    textLinesFrom part (line ++ '\n' :: rest) = (part ++ line) :: textLines rest := by
  induction line generalizing part with
  | nil =>
      have last : part.getLast? ≠ some '\r' := fun last => start (mem_of_getLast? last)
      simp only [nil_append, textLinesFrom, if_true, if_neg last, append_nil]
      rfl
  | cons char line ih =>
      simp only [mem_cons, not_or] at unbroken
      have other : char ≠ '\n' := fun same => unbroken.1.1 same.symm
      have extended : '\r' ∉ part ++ [char] := by
        simp only [mem_append, mem_singleton, not_or]
        exact ⟨start, unbroken.2.1⟩
      simp only [cons_append, textLinesFrom, if_neg other]
      rw [ih (part ++ [char]) ⟨unbroken.1.2, unbroken.2.2⟩ extended, append_assoc,
        singleton_append]

/-- The text whose bytes the records are written as. -/
theorem recordLines_eq (records : List FileRecord) :
    recordLines records =
      encodeText (records.flatMap fun record => encodeRecord record ++ ['\n']) := by
  induction records with
  | nil => rfl
  | cons record records ih =>
      rw [flatMap_cons, encodeText_append, encodeText_append, ← ih]
      rfl

theorem textLines_records (records : List FileRecord) :
    textLines (records.flatMap fun record => encodeRecord record ++ ['\n']) =
      records.map encodeRecord := by
  induction records with
  | nil => rfl
  | cons record records ih =>
      rw [flatMap_cons, append_assoc, singleton_append, textLines,
        textLinesFrom_append [] _ _ (unbroken_encodeRecord record) (by decide), ih]
      rfl

end Lines

section Sequential

variable (unicode : Unicode) (utf8 : Utf8Report) (path : Path)

theorem verifyRecordChecksum_written (records : List FileRecord) :
    verifyRecordChecksum path (writeRecords records) = .ok () := by
  rw [verifyRecordChecksum, writeRecords, if_pos (hasChecksumFooter_written _ _),
    verifyChecksumFooter_written]
  rfl

theorem parseLines_records (records : List FileRecord) (index : Nat) :
    parseLines unicode path .v3 index (records.map encodeRecord) =
      .ok (records.map (FileRecord.stored unicode)) := by
  induction records generalizing index with
  | nil => rfl
  | cons record records ih =>
      simp only [map_cons, parseLines, parseRecord_encodeRecord, ih]
      rfl

theorem recordVersion_magicV3 : recordVersion path magicV3 = .ok .v3 := by
  have first : ¬magicV3 = magicV1 := by decide +kernel
  have second : ¬magicV3 = magicV2 := by decide +kernel
  rw [recordVersion, if_neg first, if_neg second, if_pos rfl]

/-- The sequential reader on a written archive. -/
theorem readRecords_written (records : List FileRecord) :
    readRecords unicode utf8 path (writeRecords records) =
      .ok (records.map (FileRecord.stored unicode)) := by
  have indexed : (writeRecords records).take (indexedLen recordChecksumFooter
      (writeRecords records)) = recordBody records := by
    rw [writeRecords, indexedLen_written, take_left]
  have body : recordBody records = encodeText (magicV3 ++ '\n' ::
      records.flatMap fun record => encodeRecord record ++ ['\n']) := by
    rw [recordBody, recordLines_eq, append_assoc, encodeText_append]
    rfl
  have lines : textLines (magicV3 ++ '\n' ::
      records.flatMap fun record => encodeRecord record ++ ['\n']) =
        magicV3 :: records.map encodeRecord := by
    rw [textLines, textLinesFrom_append [] _ _ unbroken_magicV3 (by decide), textLines_records,
      nil_append]
  simp only [readRecords, verifyRecordChecksum_written, indexed, body,
    decodeText_encodeText, lines, recordVersion_magicV3, bind, Except.bind,
    parseLines_records]

end Sequential

section Ids

theorem utf8EncodeChar_digitChar {digit : Nat} (small : digit < 10) :
    String.utf8EncodeChar (Tsv.digitChar digit) = [UInt8.ofNat (48 + digit)] := by
  revert digit
  decide

theorem parseU64Bytes_decimal (utf8 : Utf8Report) (number : U64) (field : String) :
    parseU64Bytes utf8 (encodeText (Tsv.decimal number)) field = .ok number := by
  rcases Tsv.decimal_eq number with ⟨digits, nonempty, small, value, shape⟩
  rw [shape]
  generalize whole : encodeText (digits.map Tsv.digitChar).reverse = bytes
  have folded : ∀ (digits : List Nat) (_ : ∀ digit ∈ digits, digit < 10)
      (fits : Nat.ofDigits 10 digits < 2 ^ 64),
      (encodeText (digits.map Tsv.digitChar).reverse).foldlM
        (fun (parsed : U64) byte =>
          if byte.toNat < 48 ∨ 57 < byte.toNat then
            (.error ("invalid " ++ field ++ " \x60" ++ utf8.lossy bytes ++
              "\x60: expected digits") : Except String U64)
          else if fits : 10 * parsed.val + (byte.toNat - 48) < 2 ^ 64 then .ok ⟨_, fits⟩
          else
            .error ("invalid " ++ field ++ " \x60" ++ utf8.lossy bytes ++
              "\x60: integer overflow")) 0 = .ok ⟨Nat.ofDigits 10 digits, fits⟩ := by
    intro digits
    induction digits with
    | nil => exact fun _ _ => rfl
    | cons digit digits ih =>
        intro small fits
        have bound := small digit mem_cons_self
        have shorter : Nat.ofDigits 10 digits < 2 ^ 64 := by
          rw [Nat.ofDigits_cons] at fits
          omega
        have rest := ih (fun other listed => small other
          (mem_cons_of_mem digit listed)) shorter
        have byte : (UInt8.ofNat (48 + digit)).toNat = 48 + digit := by
          rw [UInt8.toNat_ofNat']
          omega
        have single : encodeText [Tsv.digitChar digit] = [UInt8.ofNat (48 + digit)] := by
          rw [encodeText, flatMap_singleton, utf8EncodeChar_digitChar bound]
        have sum : 10 * Nat.ofDigits 10 digits + (48 + digit - 48) =
            Nat.ofDigits 10 (digit :: digits) := by
          rw [Nat.ofDigits_cons, Nat.add_sub_cancel_left, Nat.add_comm]
        have digitRange : ¬(48 + digit < 48 ∨ 57 < 48 + digit) := by omega
        rw [map_cons, reverse_cons, encodeText_append, foldlM_append, rest,
          single]
        simp only [bind, Except.bind, foldlM_cons, foldlM_nil, byte, if_neg digitRange,
          sum, fits, dif_pos, pure, Except.pure]
  have filled : bytes ≠ [] := by
    intro empty
    rw [← whole, encodeText, flatMap_eq_nil_iff] at empty
    cases digits with
    | nil => exact nonempty rfl
    | cons digit digits =>
        have none := empty (Tsv.digitChar digit) (by simp)
        rw [utf8EncodeChar_digitChar (small digit mem_cons_self)] at none
        cases none
  have fits : Nat.ofDigits 10 digits < 2 ^ 64 := by
    rw [value]
    exact number.isLt
  have parsed := folded digits small fits
  rw [whole] at parsed
  rw [parseU64Bytes, if_neg filled, parsed]
  exact congrArg Except.ok (Fin.ext value)

theorem encodeText_join (parts : List Text) :
    encodeText (Tsv.join parts) = [tab].intercalate (parts.map encodeText) := by
  induction parts with
  | nil => rfl
  | cons part parts ih =>
      cases parts with
      | nil =>
          rw [Tsv.join, intercalate_singleton, map_singleton,
            intercalate_singleton]
      | cons next parts =>
          rw [Tsv.join, intercalate_cons_cons, map_cons, map_cons,
            intercalate_cons_cons, encodeText_append, encodeText_append]
          exact congrArg (_ ++ ·) ih

theorem parseRecordId_encodeRecord (utf8 : Utf8Report) (record : FileRecord) :
    parseRecordId utf8 (encodeText (encodeRecord record)) = .ok record.id := by
  have fields : (encodeText (encodeRecord record)).splitOn tab =
      (recordFields record).map encodeText := by
    rw [encodeRecord, encodeText_join]
    refine splitOn_intercalate tab (fun part listed member => ?_) (cons_ne_nil _ _)
    rcases mem_map.mp listed with ⟨field, written, rfl⟩
    exact (plain_recordFields record field written).1
      (LineLog.mem_of_ascii_mem_encodeText (by decide) member)
  rw [parseRecordId, fields]
  simp only [recordFields, map_cons, parseU64Bytes_decimal, bind, Except.bind]
  rfl

end Ids

section Mapped

theorem nextLine_written {before line rest : Bytes} (unbroken : LineLog.newline ∉ line)
    (last : LineLog.carriageReturn ∉ line) :
    nextLine (before ++ line ++ LineLog.newline :: rest) before.length =
      some (⟨before.length, before.length + line.length⟩, before.length + line.length + 1) := by
  have taken : (line ++ LineLog.newline :: rest).takeWhile (· ≠ LineLog.newline) = line := by
    rw [takeWhile_append_of_pos, takeWhile_cons_of_neg (by simp), append_nil]
    intro byte listed
    exact decide_eq_true fun same => unbroken (same ▸ listed)
  have size : (before ++ line ++ LineLog.newline :: rest).length =
      before.length + line.length + 1 + rest.length := by
    simp only [length_append, length_cons]
    omega
  have dropped : (before ++ line ++ LineLog.newline :: rest).drop before.length =
      line ++ LineLog.newline :: rest := by
    rw [append_assoc, drop_left]
  have stop : ¬(before.length < before.length + line.length ∧
      (before ++ line ++ LineLog.newline :: rest)[before.length + line.length - 1]? =
        some LineLog.carriageReturn) := by
    rintro ⟨nonempty, carriage⟩
    rw [append_assoc, getElem?_append_right (by omega),
      getElem?_append_left (by omega)] at carriage
    exact last (mem_of_getElem? carriage)
  have room : ¬before.length + line.length + 1 + rest.length ≤ before.length := by omega
  have inside : before.length + line.length <
      before.length + line.length + 1 + rest.length := by omega
  simp only [nextLine, size, dropped, taken, if_neg stop, if_neg room, if_pos inside]

theorem slice_written (before line rest : Bytes) :
    slice (before ++ line ++ rest) ⟨before.length, before.length + line.length⟩ = line := by
  rw [slice, ← length_append, take_left, drop_left]

/-- The scan over the lines of the records finds each line and its id. -/
theorem scanRecords_written (utf8 : Utf8Report) (path : Path) (records : List FileRecord)
    (after : Bytes) (index : Nat) (before : Bytes) :
    ∃ lines,
      scanRecords utf8 path (before ++ recordLines records ++ after)
        (before.length + (recordLines records).length) index before.length = .ok lines ∧
      lines.map (fun line => (slice (before ++ recordLines records ++ after) line.1, line.2)) =
        records.map fun record => (encodeText (encodeRecord record), record.id) := by
  induction records generalizing index before with
  | nil =>
      refine ⟨[], ?_, rfl⟩
      rw [scanRecords, dif_neg (by simp [recordLines])]
  | cons record records ih =>
      have unbroken := unbroken_encodeText (unbroken_encodeRecord record)
      have filled : encodeText (encodeRecord record) ≠ [] := by
        intro empty
        have read := decodeText_encodeText (encodeRecord record)
        rw [empty] at read
        exact encodeRecord_ne_nil record (Option.some.inj read).symm
      have identified := parseRecordId_encodeRecord utf8 record
      have lines : recordLines (record :: records) =
          encodeText (encodeRecord record) ++ LineLog.newline :: recordLines records := by
        rw [recordLines, flatMap_cons, recordLine, append_assoc, singleton_append]
        rfl
      rw [lines, map_cons]
      generalize encodeText (encodeRecord record) = line at *
      rcases ih (index + 1) (before ++ line ++ [LineLog.newline]) with ⟨rest, scanned, found⟩
      have shape : before ++ line ++ [LineLog.newline] ++ recordLines records ++ after =
          before ++ (line ++ LineLog.newline :: recordLines records) ++ after := by
        simp only [append_assoc, cons_append, nil_append]
      have start : nextLine (before ++ (line ++ LineLog.newline :: recordLines records) ++ after)
          before.length =
            some (⟨before.length, before.length + line.length⟩,
              before.length + line.length + 1) := by
        have first := @nextLine_written before line (recordLines records ++ after)
          unbroken.1 unbroken.2
        simp only [append_assoc, cons_append] at first ⊢
        exact first
      have content : slice (before ++ (line ++ LineLog.newline :: recordLines records) ++ after)
          ⟨before.length, before.length + line.length⟩ = line := by
        have first := slice_written before line (LineLog.newline :: recordLines records ++ after)
        simp only [append_assoc, cons_append] at first ⊢
        exact first
      have offset : (before ++ line ++ [LineLog.newline]).length =
          before.length + line.length + 1 := by
        simp only [length_append, length_singleton]
      have limit : before.length + line.length + 1 + (recordLines records).length =
          before.length + (line ++ LineLog.newline :: recordLines records).length := by
        simp only [length_append, length_cons]
        omega
      rw [shape, offset, limit] at scanned
      rw [shape] at found
      have below : before.length <
          before.length + (line ++ LineLog.newline :: recordLines records).length := by omega
      refine ⟨(⟨before.length, before.length + line.length⟩, record.id) :: rest, ?_, ?_⟩
      · rw [scanRecords, dif_pos below]
        split
        case h_1 nothing =>
          rw [start] at nothing
          cases nothing
        case h_2 range next known =>
          rw [start] at known
          cases known
          rw [content, if_neg filled, identified, scanned]
          rfl
      · rw [map_cons, content, found]

/-- What a mapped archive that holds these records has in it. -/
structure MmapRecordArchive.Holds (unicode : Unicode) (utf8 : Utf8Report)
    (archive : MmapRecordArchive) (held : List FileRecord) : Prop where
  len : archive.len = held.length
  record : ∀ index record, held[index]? = some record →
    archive.record unicode utf8 index = .ok record
  directory : archive.directory.Perm
    (held.zipIdx.map fun record => ⟨record.1.id, record.2⟩)
  strict : Strict RecordDirectoryEntry.key archive.directory

section Found

variable {mmap : Bytes} {records : List FileRecord} {lines : List (Range × FileId64)}

theorem directory_of_found
    (found : lines.map (fun line => (slice mmap line.1, line.2)) =
      records.map fun record => (encodeText (encodeRecord record), record.id)) :
    (lines.zipIdx.map fun line => (⟨line.1.2, line.2⟩ : RecordDirectoryEntry)) =
      (records.map FileRecord.id).zipIdx.map fun id => ⟨id.1, id.2⟩ := by
  have ids : lines.map Prod.snd = records.map FileRecord.id := by
    have second := congrArg (List.map Prod.snd) found
    rw [map_map, map_map] at second
    exact second
  rw [← ids, zipIdx_map, map_map]
  rfl

theorem holds_of_found (unicode : Unicode) (utf8 : Utf8Report) (path : Path)
    (found : lines.map (fun line => (slice mmap line.1, line.2)) =
      records.map fun record => (encodeText (encodeRecord record), record.id))
    (distinct : (records.map FileRecord.id).Nodup) :
    MmapRecordArchive.Holds unicode utf8
      { path, mmap, version := .v3, records := lines.map Prod.fst
        directory := sortByKey RecordDirectoryEntry.key
          (lines.zipIdx.map fun line => ⟨line.1.2, line.2⟩) }
      (records.map (FileRecord.stored unicode)) where
  len := by
    have lengths := congrArg List.length found
    rw [length_map, length_map] at lengths
    rw [MmapRecordArchive.len, length_map, length_map, lengths]
  record := by
    intro index record listed
    rw [getElem?_map] at listed
    rcases Option.map_eq_some_iff.mp listed with ⟨original, member, rfl⟩
    have place := congrArg (·[index]?) found
    simp only [getElem?_map, member, Option.map_some] at place
    rcases Option.map_eq_some_iff.mp place with ⟨line, known, content⟩
    have text : slice mmap line.1 = encodeText (encodeRecord original) :=
      congrArg Prod.fst content
    simp only [MmapRecordArchive.record, getElem?_map, known, Option.map_some, text,
      decodeText_encodeText, parseRecord_encodeRecord]
    rfl
  directory := by
    refine (sortByKey_perm _ _).trans ?_
    rw [directory_of_found found, zipIdx_map, zipIdx_map, map_map, map_map]
    exact List.Perm.refl _
  strict := by
    apply strict_sortByKey
    rw [directory_of_found found, map_map]
    have keys : RecordDirectoryEntry.key ∘ (fun id : FileId64 × Nat => ⟨id.1, id.2⟩) =
        Subtype.val ∘ Prod.fst := rfl
    rw [keys, ← map_map, zipIdx_map_fst]
    exact distinct.map Subtype.val_injective

end Found

theorem openArchive_written (unicode : Unicode) (utf8 : Utf8Report) (path : Path)
    (records : List FileRecord) (distinct : (records.map FileRecord.id).Nodup) :
    ∃ archive, MmapRecordArchive.openArchive utf8 path (writeRecords records) = .ok archive ∧
      archive.Holds unicode utf8 (records.map (FileRecord.stored unicode)) := by
  generalize footer : checksumFooter recordChecksumFooter (recordBody records) = tail
  have bytes : writeRecords records =
      encodeText magicV3 ++ [LineLog.newline] ++ recordLines records ++ tail := by
    rw [writeRecords, footer, recordBody]
  have header := unbroken_encodeText unbroken_magicV3
  have first : nextLine (writeRecords records) 0 =
      some (⟨0, (encodeText magicV3).length⟩,
        (encodeText magicV3).length + 1) := by
    have start := @nextLine_written [] (encodeText magicV3) (recordLines records ++ tail)
      header.1 header.2
    rw [length_nil, Nat.zero_add] at start
    rw [bytes, append_assoc, append_assoc]
    exact start
  have headerText : slice (writeRecords records) ⟨0, (encodeText magicV3).length⟩ =
      encodeText magicV3 := by
    have start := slice_written [] (encodeText magicV3)
      (LineLog.newline :: (recordLines records ++ tail))
    rw [length_nil, Nat.zero_add] at start
    rw [bytes, append_assoc, append_assoc]
    exact start
  have limit : indexedLen recordChecksumFooter (writeRecords records) =
      (encodeText magicV3 ++ [LineLog.newline]).length + (recordLines records).length := by
    rw [writeRecords, indexedLen_written, recordBody, length_append]
  rcases scanRecords_written utf8 path records tail 0
    (encodeText magicV3 ++ [LineLog.newline]) with ⟨lines, scanned, found⟩
  rw [← bytes] at scanned found
  have offset : (encodeText magicV3 ++ [LineLog.newline]).length =
      (encodeText magicV3).length + 1 := by
    rw [length_append, length_singleton]
  rw [← limit, offset] at scanned
  refine ⟨_, ?_, holds_of_found unicode utf8 path found distinct⟩
  · simp only [MmapRecordArchive.openArchive, verifyRecordChecksum_written, first, headerText,
      decodeText_encodeText, recordVersion_magicV3, scanned, bind, Except.bind]

end Mapped

end Gfm.Store

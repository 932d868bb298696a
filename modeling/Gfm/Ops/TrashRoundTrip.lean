import Gfm.Lib.Folds
import Gfm.Ops.TrashMetadata

/-!
# A read of the written trash metadata

A read of the file that was written from a map drops the entries whose line looks like a comment:
the writer escapes tabs, line ends and backslashes, and leaves a leading number sign as it is. An
issue that is the empty text is read as none.
-/

namespace Gfm.Ops.TrashMetadata

open Interruptible LineLog List Std Tsv

/-- The original path of each name. -/
def originals (entries : Entries) : ExtTreeMap Text Text :=
  entries.map fun _ entry => entry.originalPath

/-- Each entry is at its own name, as every insertion leaves it. -/
def Keyed (entries : Entries) : Prop :=
  ∀ name (entry : TrashRestoreMetadata), entries[name]? = some entry → entry.name = name

/-- The name begins with the sign of a comment. -/
def Commented (name : Text) : Prop := name.head? = some '#'

instance : DecidablePred Commented :=
  fun name => inferInstanceAs (Decidable (name.head? = some '#'))

def readTrashMetadata (unicode : Unicode) (path : Path) : Update Entries :=
  readTrashMetadataChecked unicode granted path

def writeTrashMetadata (entries : Entries) : Update PUnit :=
  writeTrashMetadataChecked granted entries

/-- The write goes through, and a read after it gives the original paths that were written. -/
def ReadsBack (unicode : Unicode) (path : Path) (content : Option Bytes) (entries : Entries) :
    Prop :=
  ∃ written read finish,
    writeTrashMetadata entries ⟨content, 0⟩ = .ok ⟨⟩ written ∧
    readTrashMetadata unicode path written = .ok read finish ∧
    originals read = originals entries

section Lines

variable {unicode : Unicode} {path : Path} {entry : TrashRestoreMetadata}

/-- An entry as its line keeps it. -/
def kept (entry : TrashRestoreMetadata) : TrashRestoreMetadata :=
  { entry with permissionIssue := entry.permissionIssue.filter fun issue => issue ≠ [] }

def fieldsOf (entry : TrashRestoreMetadata) : List Text :=
  [escape entry.name, escape entry.originalPath, decimal entry.deletedAtNanos,
    boolName entry.canRestore, boolName entry.canDeletePermanently,
    escape (entry.permissionIssue.getD [])]

theorem plain_boolName (value : Bool) : Plain (boolName value) := by
  cases value <;> decide

theorem plain_fieldsOf (entry : TrashRestoreMetadata) :
    ∀ part ∈ fieldsOf entry, Plain part := by
  intro part listed
  simp only [fieldsOf, mem_cons, not_mem_nil, or_false] at listed
  rcases listed with rfl | rfl | rfl | rfl | rfl | rfl
  · exact plain_escape _
  · exact plain_escape _
  · exact plain_decimal _
  · exact plain_boolName _
  · exact plain_boolName _
  · exact plain_escape _

theorem fields_asTsv (entry : TrashRestoreMetadata) :
    Tsv.fields (asTsv entry) = fieldsOf entry :=
  fields_join (plain_fieldsOf entry) (cons_ne_nil _ _)

theorem parseText_escape (text : Text) : parseText (escape text) = .ok text := by
  rw [parseText, unescapeText_escape]
  rfl

theorem parseBoolField_boolName (value : Bool) (name : String) (number : Nat) :
    parseBoolField (boolName value) name path number = .ok value := by
  cases value <;> rfl

theorem parseEntry_asTsv (number : Nat) (entry : TrashRestoreMetadata) :
    parseEntry path number (asTsv entry) = .ok (kept entry) := by
  have instant : parseDeletedAt path number (decimal entry.deletedAtNanos) =
      .ok entry.deletedAtNanos := by
    rw [parseDeletedAt, Tsv.parse_decimal]
    rfl
  have issue : (if entry.permissionIssue.getD [] = [] then none
      else some (entry.permissionIssue.getD [])) =
        entry.permissionIssue.filter fun issue => issue ≠ [] := by
    cases entry.permissionIssue with
    | none => rfl
    | some issue => cases issue <;> rfl
  rw [parseEntry, fields_asTsv, fieldsOf]
  simp only [parseText_escape, instant, parseBoolField_boolName]
  simp only [bind, Except.bind, pure, Except.pure, issue, kept]

/-- The number sign is left as it is, and no other character begins with it. -/
theorem escapeChar_cons (char : Char) :
    ∃ first rest, escapeChar char = first :: rest ∧ (first = '#' ↔ char = '#') := by
  by_cases slash : char = '\\'
  · exact ⟨'\\', ['\\'], by rw [slash]; rfl, by rw [slash]⟩
  by_cases tab : char = '\t'
  · exact ⟨'\\', ['t'], by rw [tab]; rfl, by rw [tab]; decide⟩
  by_cases feed : char = '\n'
  · exact ⟨'\\', ['n'], by rw [feed]; rfl, by rw [feed]; decide⟩
  by_cases carriage : char = '\r'
  · exact ⟨'\\', ['r'], by rw [carriage]; rfl, by rw [carriage]; decide⟩
  refine ⟨char, [], ?_, Iff.rfl⟩
  simp only [escapeChar, slash, tab, feed, carriage, if_false]

theorem head?_escape (text : Text) : (escape text).head? = some '#' ↔ Commented text := by
  cases text with
  | nil => exact Iff.rfl
  | cons char text =>
      rcases escapeChar_cons char with ⟨first, rest, escaped, same⟩
      change (escapeChar char ++ escape text).head? = some '#' ↔ some char = some '#'
      rw [escaped, cons_append, head?_cons, Option.some_inj, Option.some_inj]
      exact same

theorem head?_asTsv (entry : TrashRestoreMetadata) :
    (asTsv entry).head? = some '#' ↔ Commented entry.name := by
  rw [← head?_escape]
  change (['\t'].intercalate (fieldsOf entry)).head? = some '#' ↔ _
  rw [fieldsOf, intercalate_cons_cons]
  cases escape entry.name with
  | nil => simp
  | cons char rest => exact Iff.rfl

theorem trim_ne_nil {text : Text} {char : Char} (member : char ∈ text)
    (visible : unicode.isWhitespace char = false) : unicode.trim text ≠ [] := by
  intro blank
  rw [Unicode.trim, trimWith, rdropWhile_eq_nil_iff] at blank
  have listed : char ∈ text.takeWhile unicode.isWhitespace ++
      text.dropWhile unicode.isWhitespace := by
    rwa [takeWhile_append_dropWhile]
  rcases mem_append.mp listed with early | late
  · rw [mem_takeWhile_imp early] at visible
    cases visible
  · rw [blank char late] at visible
    cases visible

theorem mem_asTsv (entry : TrashRestoreMetadata) : 'e' ∈ asTsv entry := by
  have named : 'e' ∈ boolName entry.canRestore := by
    cases entry.canRestore <;> decide
  have joined : asTsv entry = ['\t'].intercalate (fieldsOf entry) := rfl
  rw [joined, fieldsOf]
  simp only [intercalate_cons_cons, mem_append]
  exact .inr (.inr (.inr (.inl (.inl named))))

theorem skipped_asTsv (letter : unicode.isWhitespace 'e' = false) (entry : TrashRestoreMetadata) :
    skipped unicode (asTsv entry) = decide (Commented entry.name) := by
  rw [skipped, decide_eq_decide, head?_asTsv]
  exact or_iff_right (trim_ne_nil (mem_asTsv entry) letter)

end Lines

section Rows

variable {unicode : Unicode} {path : Path}

def insertKept (entries : Entries) (entry : TrashRestoreMetadata) : Entries :=
  entries.insert (kept entry).name (kept entry)

theorem parseRows_asTsv (letter : unicode.isWhitespace 'e' = false)
    (listed : List TrashRestoreMetadata) (number : Nat) (start : Entries) :
    parseRows unicode path number (listed.map fun entry => encodeText (asTsv entry)) start =
      .ok ((listed.filter fun entry => ¬Commented entry.name).foldl insertKept start) := by
  induction listed generalizing number start with
  | nil => rfl
  | cons entry listed ih =>
      have whole : decodeLine path (encodeText (asTsv entry)) = .ok (asTsv entry) := by
        rw [decodeLine, decodeText_encodeText]
      rw [map_cons, parseRows, whole]
      simp only [bind, Except.bind, skipped_asTsv letter, parseEntry_asTsv, ih]
      by_cases marked : Commented entry.name
      · rw [filter_cons_of_neg (by simpa using marked)]
        simp only [marked, decide_true, if_true]
      · rw [filter_cons_of_pos (by simpa using marked), foldl_cons]
        simp only [marked, decide_false, Bool.false_eq_true, if_false]
        rfl

theorem getElem?_foldl_insertKept {listed : List TrashRestoreMetadata}
    (apart : listed.Pairwise fun entry other => entry.name ≠ other.name) (start : Entries)
    (name : Text) (found : TrashRestoreMetadata) :
    (listed.foldl insertKept start)[name]? = some found ↔
      (∃ entry ∈ listed, entry.name = name ∧ kept entry = found) ∨
        (∀ entry ∈ listed, entry.name ≠ name) ∧ start[name]? = some found := by
  induction listed generalizing start with
  | nil => simp
  | cons entry listed ih =>
      rw [pairwise_cons] at apart
      rw [foldl_cons, ih apart.2, insertKept, ExtTreeMap.getElem?_insert]
      have own : (kept entry).name = entry.name := rfl
      simp only [own, Std.compare_eq_iff_eq, exists_mem_cons_iff, forall_mem_cons]
      by_cases same : entry.name = name
      · have none : ∀ other ∈ listed, other.name ≠ name :=
          fun other member => same ▸ (apart.1 other member).symm
        simp only [same, if_true, Option.some.injEq, true_and, ne_eq, not_true, false_and, or_false]
        constructor
        · rintro (⟨other, member, named, -⟩ | ⟨-, rfl⟩)
          · exact absurd named (none other member)
          · exact .inl rfl
        · rintro (rfl | ⟨other, member, named, -⟩)
          · exact .inr ⟨none, rfl⟩
          · exact absurd named (none other member)
      · simp only [same, if_false, false_and, false_or, ne_eq, not_false_eq_true, true_and]

theorem apart_toList {entries : Entries} (keyed : Keyed entries) :
    (entries.toList.map Prod.snd).Pairwise fun entry other => entry.name ≠ other.name := by
  rw [pairwise_map]
  refine ExtTreeMap.distinct_keys_toList.imp_of_mem ?_
  intro row other member otherMember apart same
  have named := keyed _ _ (ExtTreeMap.mem_toList_iff_getElem?_eq_some.mp member)
  have otherNamed := keyed _ _ (ExtTreeMap.mem_toList_iff_getElem?_eq_some.mp otherMember)
  apply apart
  rw [← named, ← otherNamed, same]
  exact Std.compare_self

theorem mem_entries_iff {entries : Entries} (keyed : Keyed entries)
    {entry : TrashRestoreMetadata} :
    entry ∈ entries.toList.map Prod.snd ↔ entries[entry.name]? = some entry := by
  rw [mem_map]
  constructor
  · rintro ⟨⟨name, other⟩, member, rfl⟩
    have found := ExtTreeMap.mem_toList_iff_getElem?_eq_some.mp member
    rwa [keyed name other found]
  · intro found
    exact ⟨(entry.name, entry), ExtTreeMap.mem_toList_iff_getElem?_eq_some.mpr found, rfl⟩

/-- What a read of the written file gives. -/
def uncommented (entries : Entries) : Entries :=
  (entries.filter fun name _ => ¬Commented name).map fun _ entry => kept entry

theorem foldl_insertKept_toList {entries : Entries} (keyed : Keyed entries) :
    ((entries.toList.map Prod.snd).filter fun entry => ¬Commented entry.name).foldl
      insertKept ∅ = uncommented entries := by
  refine ExtTreeMap.ext_getElem? fun name => Option.ext fun found => ?_
  rw [getElem?_foldl_insertKept ((apart_toList keyed).filter _), uncommented]
  simp only [ExtTreeMap.getElem?_map, ExtTreeMap.getElem?_filter', Option.map_eq_some_iff,
    Option.filter_eq_some_iff, mem_filter, mem_entries_iff keyed, decide_eq_true_eq]
  constructor
  · rintro (⟨entry, ⟨present, plain⟩, rfl, rfl⟩ | ⟨-, absent⟩)
    · exact ⟨entry, ⟨present, plain⟩, rfl⟩
    · simp at absent
  · rintro ⟨entry, ⟨present, plain⟩, rfl⟩
    have named := keyed name entry present
    subst named
    exact .inl ⟨entry, ⟨present, plain⟩, rfl, rfl⟩

theorem parse_encode (letter : unicode.isWhitespace 'e' = false) {entries : Entries}
    (keyed : Keyed entries) :
    parse unicode path (some (encode entries)) = .ok (uncommented entries) := by
  have unbroken : ∀ text ∈ (entries.toList.map Prod.snd).map asTsv,
      '\n' ∉ text ∧ '\r' ∉ text := by
    intro text listed
    rcases mem_map.mp listed with ⟨entry, -, rfl⟩
    exact unbroken_join (plain_fieldsOf entry)
  have split := lines_texts unbroken []
  have none : lines [] = [] := rfl
  rw [none, append_nil, append_nil, flatMap_map, map_map] at split
  change parseRows unicode path 1 (lines (encode entries)) ∅ = _
  have written : encode entries =
      (entries.toList.map Prod.snd).flatMap fun entry => encodeText (asTsv entry) ++ [newline] :=
    rfl
  rw [written, split]
  exact (parseRows_asTsv letter _ 1 ∅).trans (congrArg _ (foldl_insertKept_toList keyed))

theorem originals_uncommented_iff (entries : Entries) :
    originals (uncommented entries) = originals entries ↔ ∀ name ∈ entries, ¬Commented name := by
  have each : ∀ name, (originals (uncommented entries))[name]? =
      (originals entries)[name]?.filter fun _ => ¬Commented name := by
    intro name
    simp only [originals, uncommented, ExtTreeMap.getElem?_map,
      ExtTreeMap.getElem?_filter']
    cases entries[name]? with
    | none => rfl
    | some entry => by_cases marked : Commented name <;> simp [Option.filter, marked, kept]
  constructor
  · intro same name member marked
    have lost := each name
    rw [same] at lost
    rcases ExtTreeMap.mem_iff_isSome_getElem?.mp member |> Option.isSome_iff_exists.mp with
      ⟨entry, found⟩
    simp [originals, ExtTreeMap.getElem?_map, found, marked] at lost
  · intro plain
    refine ExtTreeMap.ext_getElem? fun name => (each name).trans ?_
    cases found : (originals entries)[name]? with
    | none => rfl
    | some original =>
        have member : name ∈ entries := by
          have mapped : name ∈ originals entries :=
            ExtTreeMap.mem_iff_isSome_getElem?.mpr (by rw [found]; rfl)
          exact ExtTreeMap.mem_map.mp mapped
        simp [plain name member]

theorem keyed_empty : Keyed ∅ := by
  intro name entry found
  simp at found

theorem Keyed.insert {entries : Entries} (keyed : Keyed entries) (entry : TrashRestoreMetadata) :
    Keyed (entries.insert entry.name entry) := by
  intro name other found
  rw [ExtTreeMap.getElem?_insert] at found
  split at found
  · rename_i same
    cases found
    exact Std.compare_eq_iff_eq.mp same
  · exact keyed name other found

end Rows

section Runs

variable {unicode : Unicode} {path : Path} {content : Option Bytes} {entries : Entries}

theorem readsBack_iff_originals (letter : unicode.isWhitespace 'e' = false)
    (keyed : Keyed entries) :
    ReadsBack unicode path content entries ↔
      originals (uncommented entries) = originals entries := by
  have wrote := granted_commits (@writeTrashMetadataChecked_commits granted content entries) 0
  have follows := @readTrashMetadataChecked_follows unicode granted path (some (encode entries))
  rw [parse_encode letter keyed] at follows
  constructor
  · rintro ⟨written, found, finish, writing, reading, same⟩
    rw [writeTrashMetadata, wrote] at writing
    cases writing
    rw [readTrashMetadata, granted_steady follows] at reading
    cases reading
    exact same
  · intro same
    exact ⟨_, _, _, wrote, granted_steady follows _, same⟩

/-- The paths are read back exactly where no name begins like a comment. -/
theorem readsBack_iff (letter : unicode.isWhitespace 'e' = false) (path : Path)
    (content : Option Bytes) (keyed : Keyed entries) :
    ReadsBack unicode path content entries ↔ ∀ name ∈ entries, ¬Commented name :=
  (readsBack_iff_originals letter keyed).trans (originals_uncommented_iff entries)

end Runs

def report : TrashRestoreMetadata :=
  ⟨"report\t1".toList, "/home/report\t1".toList, 7, true, true, none⟩

theorem readsBack_report :
    Unicode.ascii.isWhitespace 'e' = false ∧ Keyed ((∅ : Entries).insert report.name report) ∧
      (ReadsBack Unicode.ascii ["trash"] none ((∅ : Entries).insert report.name report) ↔
        ∀ name ∈ (∅ : Entries).insert report.name report, ¬Commented name) :=
  ⟨by decide, keyed_empty.insert report,
    readsBack_iff (by decide) ["trash"] none (keyed_empty.insert report)⟩

/-- A draft whose name begins with the sign is in the trash, and is not read back. -/
def draft : TrashRestoreMetadata :=
  ⟨"#draft.md".toList, "/home/#draft.md".toList, 7, true, true, none⟩

theorem draft_lost :
    fromOriginalPath ["home", "#draft.md"] 7 = .ok draft ∧
      Keyed ((∅ : Entries).insert draft.name draft) ∧
      ¬ReadsBack Unicode.ascii ["trash"] none ((∅ : Entries).insert draft.name draft) := by
  refine ⟨by decide, keyed_empty.insert draft, fun back => ?_⟩
  rw [readsBack_iff_originals (by decide) (keyed_empty.insert draft),
    originals_uncommented_iff] at back
  exact back draft.name (ExtTreeMap.mem_insert_self) (by decide)

end Gfm.Ops.TrashMetadata

import Gfm.Store.Records

/-!
# Reading back what was written

What the parser gives for each field of a written line, and so for the line: the record in its
stored form.
-/

namespace Gfm.Store

open List Sorted Tsv Wire

section Escape

theorem escapeChar_cases {motive : Char → Prop} (comma : motive ',') (slash : motive '\\')
    (tab : motive '\t') (feed : motive '\n') (carriage : motive '\r')
    (other : ∀ char, char ≠ '\\' → char ≠ ',' → escapeChar char = [char] → motive char)
    (char : Char) : motive char := by
  by_cases isComma : char = ','
  · exact isComma ▸ comma
  by_cases isSlash : char = '\\'
  · exact isSlash ▸ slash
  by_cases isTab : char = '\t'
  · exact isTab ▸ tab
  by_cases isFeed : char = '\n'
  · exact isFeed ▸ feed
  by_cases isCarriage : char = '\r'
  · exact isCarriage ▸ carriage
  refine other char isSlash isComma ?_
  simp only [escapeChar, Tsv.escapeChar, isComma, isSlash, isTab, isFeed, isCarriage, if_false]

theorem unescape_escapeChar_append (char : Char) (rest : Text) :
    unescape (escapeChar char ++ rest) = (unescape rest).map (char :: ·) := by
  cases char using escapeChar_cases with
  | comma | slash | tab | feed | carriage => rfl
  | other char slash _ plain =>
      rw [plain, singleton_append, unescape.eq_def]
      exact if_neg slash

theorem unescape_escape (input : Text) : unescape (escape input) = .ok input := by
  induction input with
  | nil => rfl
  | cons char input ih =>
      change unescape (escapeChar char ++ escape input) = .ok (char :: input)
      rw [unescape_escapeChar_append, ih]
      rfl

theorem escape_eq_nil {input : Text} : escape input = [] ↔ input = [] := by
  refine ⟨fun empty => ?_, fun empty => by rw [empty]; rfl⟩
  have read := unescape_escape input
  rw [empty] at read
  exact (Except.ok.inj read).symm

theorem plain_escape (input : Text) : Plain (escape input) := by
  induction input with
  | nil => decide
  | cons char input ih =>
      refine Plain.append ?_ ih
      rw [escapeChar]
      split
      · decide
      · exact Tsv.plain_escapeChar char

theorem splitEscapedFrom_escapeChar (part : Text) (char : Char) (rest : Text) :
    splitEscapedFrom part false (escapeChar char ++ rest) =
      splitEscapedFrom (part ++ escapeChar char) false rest := by
  cases char using escapeChar_cases with
  | comma | slash | tab | feed | carriage =>
      change splitEscapedFrom (part ++ ['\\'] ++ [_]) false rest = _
      rw [append_assoc]
      rfl
  | other char slash comma plain =>
      rw [plain, singleton_append, splitEscapedFrom]
      simp only [Bool.false_eq_true, if_false, slash, comma]

theorem splitEscapedFrom_escape (part input rest : Text) :
    splitEscapedFrom part false (escape input ++ rest) =
      splitEscapedFrom (part ++ escape input) false rest := by
  induction input generalizing part with
  | nil =>
      change splitEscapedFrom part false rest = splitEscapedFrom (part ++ []) false rest
      rw [append_nil]
  | cons char input ih =>
      change splitEscapedFrom part false (escapeChar char ++ escape input ++ rest) =
        splitEscapedFrom (part ++ (escapeChar char ++ escape input)) false rest
      rw [append_assoc, splitEscapedFrom_escapeChar, ih, append_assoc]

theorem splitEscaped_encodeTags {tags : List Text} (nonempty : tags ≠ []) :
    splitEscaped (encodeTags tags) = tags.map escape := by
  induction tags with
  | nil => exact absurd rfl nonempty
  | cons tag tags ih =>
      cases tags with
      | nil =>
          have alone := splitEscapedFrom_escape [] tag []
          rw [append_nil] at alone
          rw [encodeTags, map_singleton, intercalate_singleton, splitEscaped, alone]
          rfl
      | cons next tags =>
          have rest := ih (cons_ne_nil next tags)
          rw [encodeTags, map_cons, map_cons, intercalate_cons_cons, splitEscaped,
            append_assoc, splitEscapedFrom_escape, nil_append]
          exact congrArg (escape tag :: ·) rest

theorem mapM_unescape (tags : List Text) : (tags.map escape).mapM unescape = .ok tags := by
  induction tags with
  | nil => rfl
  | cons tag tags ih =>
      rw [map_cons, mapM_cons, unescape_escape, ih]
      rfl

theorem plain_encodeTags (tags : List Text) : Plain (encodeTags tags) := by
  induction tags with
  | nil => decide
  | cons tag tags ih =>
      cases tags with
      | nil =>
          rw [encodeTags, map_singleton, intercalate_singleton]
          exact plain_escape tag
      | cons next tags =>
          rw [encodeTags, map_cons, map_cons, intercalate_cons_cons]
          exact ((plain_escape tag).append (by decide)).append ih

end Escape

section Stored

/-- The tags that are not blank, in order, each once. -/
def storedTags (unicode : Unicode) (tags : List Text) : List Text :=
  sortDedup (tags.filter fun tag => !(unicode.trim tag).isEmpty)

/-- A record as the archive keeps it. -/
def FileRecord.stored (unicode : Unicode) (record : FileRecord) : FileRecord where
  id := record.id
  parent :=
    match record.parent with
    | none => none
    | some parent => if parent.node = 0 then none else some (fileId record.id.volume parent.node)
  path := record.path
  name := (fileName record.path).getD record.path
  kind := record.kind
  len := record.len
  mode := record.mode
  owner := record.owner
  group := record.group
  xattrsDigest := record.xattrsDigest
  created := record.created.bind fun time => storedTime time.val.toNat
  modified := record.modified.bind fun time => storedTime time.val.toNat
  changed := record.changed.bind fun time => storedTime time.val.toNat
  hidden := record.hidden
  tags := storedTags unicode record.tags
  finderComment := record.finderComment.bind fun comment =>
    if comment = [] then none else some comment

theorem mem_storedTags {unicode : Unicode} {tags : List Text} {tag : Text} :
    tag ∈ storedTags unicode tags ↔ tag ∈ tags ∧ unicode.trim tag ≠ [] := by
  rw [storedTags, mem_sortDedup, mem_filter]
  simp

theorem decodeTags_encodeTags (unicode : Unicode) (tags : List Text) :
    decodeTags unicode (encodeTags tags) = .ok (storedTags unicode tags) := by
  by_cases empty : encodeTags tags = []
  · rw [decodeTags, if_pos empty]
    refine congrArg Except.ok (eq_nil_iff_forall_not_mem.mpr fun kept listed => ?_).symm
    rcases mem_storedTags.mp listed with ⟨member, visible⟩
    cases tags with
    | nil => cases member
    | cons tag tags =>
        -- only the list of one empty tag is written as nothing, and an empty tag is blank
        have parts := splitEscaped_encodeTags (cons_ne_nil tag tags)
        rw [empty] at parts
        have shape : escape tag = [] ∧ tags.map escape = [] := by
          rcases List.cons.inj parts with ⟨first, others⟩
          exact ⟨first.symm, others.symm⟩
        rw [escape_eq_nil.mp shape.1, map_eq_nil_iff.mp shape.2, mem_singleton] at member
        rw [member] at visible
        exact visible rfl
  · have nonempty : tags ≠ [] := fun none => empty (by rw [none]; rfl)
    rw [decodeTags, if_neg empty, splitEscaped_encodeTags nonempty, mapM_unescape]
    rfl

theorem decodeComment_encodeComment (comment : Option Text) :
    decodeComment (encodeComment comment) =
      .ok (comment.bind fun comment => if comment = [] then none else some comment) := by
  cases comment with
  | none => rfl
  | some comment =>
      by_cases empty : comment = []
      · rw [empty]
        rfl
      · simp only [decodeComment, encodeComment, escape_eq_nil, if_neg empty, unescape_escape,
          Option.bind_some]
        rfl

theorem decodeTime_encodeTime (time : Option SystemTime) :
    decodeTime (decimal (encodeTime time)) =
      .ok (time.bind fun time => storedTime time.val.toNat) := by
  rw [decodeTime, parseNumber_decimal]
  cases time with
  | none => rfl
  | some time => rfl

theorem decodeKind_encodeKind (kind : FileKind) : decodeKind (encodeKind kind) = .ok kind := by
  cases kind <;> rfl

theorem decodeHidden_flag (hidden : Bool) :
    decodeHidden (if hidden then ['1'] else ['0']) = .ok hidden := by
  cases hidden <;> rfl

theorem decodeParent (unicode : Unicode) (record : FileRecord) :
    (if parentNode record.parent ≠ 0 then
      some (fileId record.id.volume (parentNode record.parent)) else none) =
      (record.stored unicode).parent := by
  cases shape : record.parent with
  | none => simp [FileRecord.stored, shape, parentNode]
  | some parent =>
      by_cases root : parent.node = 0
      · simp [FileRecord.stored, shape, parentNode, root]
      · simp [FileRecord.stored, shape, parentNode, root]

end Stored

section Line

theorem plain_encodeKind (kind : FileKind) : Plain (encodeKind kind) := by
  cases kind <;> decide

theorem plain_flag (hidden : Bool) : Plain (if hidden then ['1'] else ['0']) := by
  cases hidden <;> decide

theorem plain_encodeComment (comment : Option Text) : Plain (encodeComment comment) := by
  cases comment with
  | none => decide
  | some comment => exact plain_escape comment

theorem plain_recordFields (record : FileRecord) :
    ∀ part ∈ recordFields record, Plain part := by
  simp only [recordFields, mem_cons, not_mem_nil, or_false, forall_eq_or_imp, forall_eq]
  exact ⟨plain_decimal _, plain_decimal _, plain_decimal _, plain_encodeKind _,
    plain_decimal _, plain_decimal _, plain_decimal _, plain_decimal _,
    plain_decimal _, plain_decimal _, plain_decimal _, plain_decimal _,
    plain_flag _, plain_encodeTags _, plain_encodeComment _, plain_escape _⟩

theorem fields_encodeRecord (record : FileRecord) :
    Tsv.fields (encodeRecord record) = recordFields record :=
  fields_join (plain_recordFields record) (cons_ne_nil _ _)

theorem parseRecord_encodeRecord (unicode : Unicode) (record : FileRecord) :
    parseRecord unicode .v3 (encodeRecord record) = .ok (record.stored unicode) := by
  have width : (recordFields record).length = StoreVersion.v3.expected := rfl
  simp only [parseRecord, fields_encodeRecord, width, ne_eq, not_true_eq_false, if_false]
  simp only [recordFields, getD_cons_zero, getD_cons_succ, parseNumber_decimal,
    decodeKind_encodeKind, decodeTime_encodeTime, decodeHidden_flag, decodeTags_encodeTags,
    decodeComment_encodeComment, unescape_escape, bind, Except.bind]
  refine congrArg Except.ok ?_
  have parent := decodeParent unicode record
  simp only [ne_eq] at parent
  simp only [parent]
  rfl

/-- The line of a record: it has no line break in it, and it is not empty. -/
theorem unbroken_encodeRecord (record : FileRecord) :
    '\n' ∉ encodeRecord record ∧ '\r' ∉ encodeRecord record :=
  unbroken_join (plain_recordFields record)

theorem encodeRecord_ne_nil (record : FileRecord) : encodeRecord record ≠ [] := by
  intro empty
  have parts := fields_encodeRecord record
  rw [empty] at parts
  have lengths := congrArg List.length parts
  cases lengths

end Line

end Gfm.Store

import Gfm.Content.Quarantine

/-!
# The file of the quarantine

The quarantine is written as lines of tab-separated fields: a header, the version of the schema,
the threshold, and a line for each entry. Reading the file back gives the quarantine that was
written, whatever characters its paths hold.
-/

namespace Gfm.Content

open ExtractionQuarantine LineLog List Std Store Tsv

section Fields

/-- The reader of fields is lenient: a code it does not know stands for itself. -/
def unescapeField : Text → Text
  | [] => []
  | ['\\'] => ['\\']
  | '\\' :: code :: rest =>
      match Tsv.unescapeCode code with
      | some plain => plain :: unescapeField rest
      | none => '\\' :: code :: unescapeField rest
  | char :: rest => char :: unescapeField rest

theorem unescapeField_escape (value : Text) : unescapeField (Tsv.escape value) = value := by
  have step : ∀ (char : Char) (rest : Text),
      unescapeField (Tsv.escapeChar char ++ rest) = char :: unescapeField rest := by
    intro char rest
    by_cases slash : char = '\\'
    · subst slash
      rfl
    by_cases tab : char = '\t'
    · subst tab
      rfl
    by_cases feed : char = '\n'
    · subst feed
      rfl
    by_cases carriage : char = '\r'
    · subst carriage
      rfl
    simp [Tsv.escapeChar, slash, tab, feed, carriage, unescapeField]
  induction value with
  | nil => rfl
  | cons char value ih =>
      change unescapeField (Tsv.escapeChar char ++ Tsv.escape value) = char :: value
      rw [step, ih]

def QuarantineFailureKind.asStr : QuarantineFailureKind → Text
  | .corrupt => "corrupt".toList
  | .encrypted => "encrypted".toList
  | .crash => "crash".toList
  | .timeout => "timeout".toList

def QuarantineFailureKind.parse (input : Text) : Option QuarantineFailureKind :=
  if input = "corrupt".toList then some .corrupt
  else if input = "encrypted".toList then some .encrypted
  else if input = "crash".toList then some .crash
  else if input = "timeout".toList then some .timeout
  else none

theorem QuarantineFailureKind.parse_asStr (kind : QuarantineFailureKind) :
    parse kind.asStr = some kind := by
  cases kind <;> rfl

end Fields

section Model

def quarantineMagic : Text := "gfm-extraction-quarantine-v1".toList

def extractionQuarantineSchemaVersion : U32 := 1

def QuarantineEntry.line (entry : QuarantineEntry) : Text :=
  Tsv.join ["entry".toList, Tsv.escape entry.cacheKey, Tsv.escape entry.path, entry.kind.asStr,
    decimal entry.failures.val, Tsv.escape entry.reason]

def ExtractionQuarantine.fileLines (quarantine : ExtractionQuarantine) : List Text :=
  quarantineMagic ::
    Tsv.join ["schema_version".toList, decimal extractionQuarantineSchemaVersion.val] ::
    Tsv.join ["failure_threshold".toList, decimal quarantine.failureThreshold.val] ::
    quarantine.entries.toList.map fun item => item.2.line

def ExtractionQuarantine.write (quarantine : ExtractionQuarantine) : Bytes :=
  quarantine.fileLines.flatMap fun line => encodeText line ++ [newline]

variable (path : Path)

def quarantineFormatError (message : String) : GfmError :=
  .format (path.display ++ ": " ++ message)

def requiredPart (value : Option Text) (name : String) : Except GfmError Text :=
  match value with
  | some value => .ok value
  | none => .error (quarantineFormatError path ("missing " ++ name))

def parseU32 (value : Option Text) (name : String) : Except GfmError U32 := do
  let value ← requiredPart path value name
  match Tsv.parse (2 ^ 32) value with
  | .ok number => .ok number
  | .error _ => .error (quarantineFormatError path ("invalid " ++ name))

structure QuarantineRows where
  schemaVersion : Option U32 := none
  failureThreshold : Option U32 := none
  entries : ExtTreeMap Text QuarantineEntry := ∅

def readEntry (rows : QuarantineRows) (parts : List Text) : Except GfmError QuarantineRows := do
  let cacheKey := unescapeField (← requiredPart path parts[0]? "cache_key")
  let entryPath := unescapeField (← requiredPart path parts[1]? "entry path")
  let kind ← match QuarantineFailureKind.parse (← requiredPart path parts[2]? "failure kind") with
    | some kind => .ok kind
    | none => .error (quarantineFormatError path "unsupported failure kind")
  let failures ← parseU32 path parts[3]? "failures"
  let reason := unescapeField (← requiredPart path parts[4]? "reason")
  return { rows with
    entries := rows.entries.insert cacheKey ⟨entryPath, cacheKey, kind, reason, failures⟩ }

def readRow (rows : QuarantineRows) (line : Text) : Except GfmError QuarantineRows :=
  match Tsv.fields line with
  | [] => .ok rows
  | key :: parts =>
      if key = "schema_version".toList then
        (parseU32 path parts[0]? "schema_version").map fun version =>
          { rows with schemaVersion := some version }
      else if key = "failure_threshold".toList then
        (parseU32 path parts[0]? "failure_threshold").map fun threshold =>
          { rows with failureThreshold := some threshold }
      else if key = "entry".toList then readEntry path rows parts
      else if key = [] then .ok rows
      else .error (quarantineFormatError path "unknown quarantine row")

/-- The line as text, which is what the reader of lines makes of its bytes. -/
def lineText (line : Bytes) : Except GfmError Text :=
  match decodeText line with
  | some text => .ok text
  | none => .error (.io path "stream did not contain valid UTF-8")

def readLine (rows : QuarantineRows) (line : Bytes) : Except GfmError QuarantineRows := do
  readRow path rows (← lineText path line)

def ExtractionQuarantine.read (content : Bytes) : Except GfmError ExtractionQuarantine :=
  match lines content with
  | [] => .error (quarantineFormatError path "missing header")
  | header :: rest => do
      let header ← lineText path header
      if header ≠ quarantineMagic then
        .error (quarantineFormatError path "unsupported quarantine header")
      else
        let rows ← rest.foldlM (readLine path) {}
        if rows.schemaVersion ≠ some extractionQuarantineSchemaVersion then
          .error (quarantineFormatError path "unsupported quarantine schema version")
        else .ok ⟨max (rows.failureThreshold.getD 2) 1, rows.entries⟩

end Model

section RoundTrip

variable {path : Path}

theorem parseU32_decimal (number : U32) (name : String) :
    parseU32 path (some (decimal number.val)) name = .ok number := by
  simp [parseU32, requiredPart, Tsv.parse_decimal, bind, Except.bind]

theorem plain_asStr (kind : QuarantineFailureKind) : Plain kind.asStr := by
  cases kind <;> decide

theorem plain_entryParts (entry : QuarantineEntry) :
    ∀ part ∈ ["entry".toList, Tsv.escape entry.cacheKey, Tsv.escape entry.path, entry.kind.asStr,
      decimal entry.failures.val, Tsv.escape entry.reason], Plain part := by
  have word : Plain "entry".toList := by decide
  simp only [forall_mem_cons, word, Tsv.plain_escape, plain_decimal, plain_asStr,
    not_mem_nil, false_imp_iff, implies_true, and_self]

theorem plain_numberParts {key : Text} (plain : Plain key) (number : Nat) :
    ∀ part ∈ [key, decimal number], Plain part := by
  simp only [forall_mem_cons, plain, plain_decimal, not_mem_nil, false_imp_iff,
    implies_true, and_self]

/-- The line of an entry puts it under its key. -/
theorem readRow_line (rows : QuarantineRows) (entry : QuarantineEntry) :
    readRow path rows entry.line =
      .ok { rows with entries := rows.entries.insert entry.cacheKey entry } := by
  have notVersion : "entry".toList ≠ "schema_version".toList := by decide
  have notThreshold : "entry".toList ≠ "failure_threshold".toList := by decide
  rw [readRow, QuarantineEntry.line, fields_join (plain_entryParts entry) (by simp)]
  simp only [notVersion, notThreshold, if_false, if_true]
  simp only [readEntry, getElem?_cons_zero, getElem?_cons_succ, requiredPart,
    QuarantineFailureKind.parse_asStr, parseU32_decimal, unescapeField_escape, bind, Except.bind,
    pure, Except.pure]

theorem readRow_version (rows : QuarantineRows) (version : U32) :
    readRow path rows (Tsv.join ["schema_version".toList, decimal version.val]) =
      .ok { rows with schemaVersion := some version } := by
  rw [readRow, fields_join (plain_numberParts (by decide) _) (by simp)]
  simp only [if_true, getElem?_cons_zero, parseU32_decimal]
  rfl

theorem readRow_threshold (rows : QuarantineRows) (threshold : U32) :
    readRow path rows (Tsv.join ["failure_threshold".toList, decimal threshold.val]) =
      .ok { rows with failureThreshold := some threshold } := by
  have notVersion : "failure_threshold".toList ≠ "schema_version".toList := by decide
  rw [readRow, fields_join (plain_numberParts (by decide) _) (by simp)]
  simp only [notVersion, if_false, if_true, getElem?_cons_zero, parseU32_decimal]
  rfl

def insertEntry (entries : ExtTreeMap Text QuarantineEntry) (item : Text × QuarantineEntry) :
    ExtTreeMap Text QuarantineEntry := entries.insert item.2.cacheKey item.2

theorem foldlM_readRow_lines (rows : QuarantineRows) (items : List (Text × QuarantineEntry)) :
    (items.map fun item => item.2.line).foldlM (readRow path) rows =
      .ok { rows with entries := items.foldl insertEntry rows.entries } := by
  induction items generalizing rows with
  | nil => rfl
  | cons item items ih =>
      rw [map_cons, foldlM_cons, readRow_line]
      exact ih _

theorem lineText_encodeText (text : Text) : lineText path (encodeText text) = .ok text := by
  rw [lineText, decodeText_encodeText]

theorem foldlM_encoded (rows : QuarantineRows) (texts : List Text) :
    (texts.map encodeText).foldlM (readLine path) rows = texts.foldlM (readRow path) rows := by
  induction texts generalizing rows with
  | nil => rfl
  | cons text texts ih =>
      have line : readLine path rows (encodeText text) = readRow path rows text := by
        rw [readLine, lineText_encodeText]
        rfl
      rw [map_cons, foldlM_cons, foldlM_cons, line]
      congr 1
      funext next
      exact ih next

namespace ExtractionQuarantine

variable {quarantine : ExtractionQuarantine}

/-- Every entry stands under its own key. -/
def Keyed (quarantine : ExtractionQuarantine) : Prop :=
  ∀ (key : Text) (entry : QuarantineEntry), quarantine.entries[key]? = some entry →
    entry.cacheKey = key

theorem lines_write (quarantine : ExtractionQuarantine) :
    lines quarantine.write = quarantine.fileLines.map encodeText := by
  have unbroken : ∀ text ∈ quarantine.fileLines, '\n' ∉ text ∧ '\r' ∉ text := by
    simp only [fileLines, forall_mem_cons, forall_mem_map]
    refine ⟨by decide, unbroken_join (plain_numberParts (by decide) _),
      unbroken_join (plain_numberParts (by decide) _), fun item _ => ?_⟩
    exact unbroken_join (plain_entryParts item.2)
  have split := lines_texts unbroken []
  simpa [write, show lines [] = [] from rfl] using split

/-- The entries that are put in one after the other are the entries that were listed. -/
theorem foldl_insertEntry (keyed : quarantine.Keyed) :
    quarantine.entries.toList.foldl insertEntry ∅ = quarantine.entries := by
  have byKey : quarantine.entries.toList.foldl insertEntry ∅ =
      (∅ : ExtTreeMap Text QuarantineEntry).insertMany quarantine.entries.toList := by
    rw [ExtTreeMap.insertMany_list_eq_foldl]
    apply foldl_ext
    rintro entries ⟨key, entry⟩ member
    rw [insertEntry, keyed key entry (ExtTreeMap.mem_toList_iff_getElem?_eq_some.mp member)]
  rw [byKey]
  apply ExtTreeMap.ext_getElem?
  intro key
  cases found : quarantine.entries[key]? with
  | some entry =>
      exact ExtTreeMap.getElem?_insertMany_list_of_mem Std.ReflCmp.compare_self
        ExtTreeMap.distinct_keys_toList
        (ExtTreeMap.mem_toList_iff_getElem?_eq_some.mpr found)
  | none =>
      rw [ExtTreeMap.getElem?_insertMany_list_of_contains_eq_false]
      · simp
      · simpa using found

theorem read_write (positive : 1 ≤ quarantine.failureThreshold.val) (keyed : quarantine.Keyed) :
    read path quarantine.write = .ok quarantine := by
  have clamped : max quarantine.failureThreshold 1 = quarantine.failureThreshold :=
    max_eq_left positive
  have rows : (quarantine.fileLines.tail.map encodeText).foldlM (readLine path) {} =
      .ok ⟨some extractionQuarantineSchemaVersion, some quarantine.failureThreshold,
        quarantine.entries⟩ := by
    have entries := @foldlM_readRow_lines path
      ⟨some extractionQuarantineSchemaVersion, some quarantine.failureThreshold, ∅⟩
      quarantine.entries.toList
    rw [foldl_insertEntry keyed] at entries
    rw [foldlM_encoded, fileLines, tail_cons, foldlM_cons, readRow_version]
    simp only [bind, Except.bind, foldlM_cons, readRow_threshold]
    exact entries
  rw [read, lines_write, fileLines, map_cons]
  simp only [lineText_encodeText, bind, Except.bind]
  rw [fileLines, tail_cons] at rows
  simp only [rows, ne_eq, not_true_eq_false, if_false, Option.getD_some, clamped]

theorem keyed_recordReport (keyed : quarantine.Keyed) (report : ExtractionReport) :
    (quarantine.recordReport report).1.Keyed := by
  intro key entry found
  by_cases own : report.fingerprint.cacheKey report.path = key
  · subst own
    rw [recordReport] at found
    cases statusEq : report.status with
    | quarantined reason =>
        simp only [statusEq, recordFailureKey, ExtTreeMap.getElem?_insert_self,
          Option.some.injEq] at found
        rw [← found]
        cases before : quarantine.entries[report.fingerprint.cacheKey report.path]? with
        | none => rfl
        | some old => exact keyed _ old before
    | extracted => simp [statusEq] at found
    | skipped reason => simp [statusEq] at found
  · rw [getElem?_recordReport_of_ne quarantine own] at found
    exact keyed key entry found

theorem keyed_recordReports (keyed : quarantine.Keyed) (reports : List ExtractionReport) :
    (quarantine.recordReports reports).Keyed := by
  induction reports generalizing quarantine with
  | nil => exact keyed
  | cons report reports ih => exact ih (keyed_recordReport keyed report)

theorem read_write_recordReports (threshold : U32) (reports : List ExtractionReport) :
    read path ((new threshold).recordReports reports).write =
      .ok ((new threshold).recordReports reports) := by
  have empty : (new threshold).Keyed := by
    intro key entry found
    simp [new] at found
  apply read_write
  · rw [one_le_threshold]
    exact le_max_right _ _
  · exact keyed_recordReports empty reports

end ExtractionQuarantine

end RoundTrip

/-- After any history of reports the quarantine blocks the files whose failures since the last
other report reach the threshold, no report concerns another path, and the file of the quarantine
gives every verdict again. -/
theorem quarantine_follows_reports (threshold : U32) (reports : List ExtractionReport) :
    (∀ path fingerprint,
      (((ExtractionQuarantine.new threshold).recordReports reports).beforeExtract path
        fingerprint).isQuarantined = true ↔
          max threshold.val 1 ≤ failuresSince path fingerprint reports) ∧
    (∀ report path fingerprint, report.path ≠ path →
      ((ExtractionQuarantine.new threshold).recordReports (reports ++ [report])).beforeExtract path
          fingerprint =
        ((ExtractionQuarantine.new threshold).recordReports reports).beforeExtract path
          fingerprint) ∧
    ∀ file, ∃ back,
      ExtractionQuarantine.read file
          ((ExtractionQuarantine.new threshold).recordReports reports).write = .ok back ∧
        ∀ path fingerprint, back.beforeExtract path fingerprint =
          ((ExtractionQuarantine.new threshold).recordReports reports).beforeExtract path
            fingerprint := by
  refine ⟨fun path fingerprint => ?_, fun report path fingerprint other => ?_, fun file => ?_⟩
  · exact isQuarantined_recordReports threshold reports
  · rw [recordReports_concat]
    exact beforeExtract_recordReport_of_ne _ other
  · exact ⟨_, ExtractionQuarantine.read_write_recordReports threshold reports, fun _ _ => rfl⟩

/-- A file that failed twice is blocked, and a failure of another file does not change that. -/
theorem quarantine_follows_reports_twice :
    let fingerprint : ExtractionFingerprint := ⟨4, 42, none⟩
    let failure (path : Text) : ExtractionReport :=
      ⟨path, .quarantined "corrupt".toList, fingerprint⟩
    let quarantine := (ExtractionQuarantine.new 2).recordReports [failure ['a'], failure ['a']]
    (quarantine.beforeExtract ['a'] fingerprint).isQuarantined = true ∧
      ((ExtractionQuarantine.new 2).recordReports
          ([failure ['a'], failure ['a']] ++ [failure ['b']])).beforeExtract ['a'] fingerprint =
        quarantine.beforeExtract ['a'] fingerprint := by
  intro fingerprint failure quarantine
  have follows := quarantine_follows_reports 2 [failure ['a'], failure ['a']]
  exact ⟨(follows.1 ['a'] fingerprint).mpr (by decide),
    follows.2.1 (failure ['b']) ['a'] fingerprint (by decide)⟩

/-- A threshold of zero counts as one: a file that never failed is not blocked. -/
theorem not_quarantined_at_zero_threshold :
    ¬∀ (threshold : U32) (reports : List ExtractionReport) (path : Text)
        (fingerprint : ExtractionFingerprint),
      (((ExtractionQuarantine.new threshold).recordReports reports).beforeExtract path
        fingerprint).isQuarantined = true ↔
          threshold.val ≤ failuresSince path fingerprint reports := by
  intro follows
  have blocked := (follows 0 [] [] ⟨4, 42, none⟩).mpr (Nat.zero_le _)
  simp [recordReports, ExtractionQuarantine.new,
    beforeExtract, QuarantineDecision.isQuarantined] at blocked

end Gfm.Content

import Gfm.Index.VolumeState
import Gfm.Store.RecordReading

/-!
# Recovery of a persistent index

A persistent index is an archive of records and the state that describes it. The recovery plans
from the two files, repairs what the plan asks for and plans again. It converges exactly where no
repair depends on the file that it should replace.
-/

namespace Gfm.Index

open LineLog Store

section Plan

inductive PersistentIndexAction where
  | ready
  | rebuildState
  | rebuildRecordsAndState
  | migrateState
  | quarantineRecordsAndRebuild
  deriving DecidableEq, Repr

inductive PersistentIndexReason where
  | healthy
  | suspendedAdmission
  | missingRecords
  | missingState
  | unreadableRecords
  | unreadableState
  | unsupportedStateSchema
  | rootMismatch
  | recordsPathMismatch
  | recordCountMismatch
  deriving DecidableEq, Repr

structure PersistentIndexPlan where
  action : PersistentIndexAction
  reason : PersistentIndexReason
  root : Text
  recordsPath : Text
  statePath : Text
  recordCount : Option U64
  stateRecordCount : Option U64
  stateSchemaVersion : Option U32
  detail : Option String
  deriving DecidableEq

def PersistentIndexPlan.ready (plan : PersistentIndexPlan) : Bool := plan.action = .ready

structure PersistentIndexRecovery where
  before : PersistentIndexPlan
  after : PersistentIndexPlan
  rebuiltRecords : Bool
  rebuiltState : Bool
  quarantinedRecordsPath : Option Path

/-- The archive of records and the state, with what was put aside. -/
structure IndexFiles where
  records : Option Bytes
  state : Option Bytes
  quarantine : List (Path × Bytes)
  deriving DecidableEq

def IndexVolumeState.isSuspendedAdmission (state : IndexVolumeState) : Bool :=
  state.recordCount = 0 && match state.indexAction with
    | none => false
    | some action => action ∈ ["api-unavailable".toList, "disabled".toList,
        "disconnected".toList, "unreachable".toList, "deferred-opt-in".toList]

def shownPath (path : Text) : Path :=
  ((Search.pathComponents path).filter fun name => name ≠ ['/']).map String.ofList

/-- The first line of the state file that gives a schema version. -/
def readStateSchemaVersion : List Bytes → Option U32
  | [] => none
  | line :: rest =>
      match decodeText line with
      | none => none
      | some line =>
          if "schema_version\t".toList <+: line then
            match Tsv.parse (2 ^ 32) (line.drop "schema_version\t".toList.length) with
            | .ok version => some version
            | .error _ => none
          else readStateSchemaVersion rest

variable (unicode : Unicode) (utf8 : Utf8Report) (root recordsPath statePath : Text)

def suspendedAdmissionPlanFromState (recordCount : Option U64) (state : IndexVolumeState) :
    Option PersistentIndexPlan :=
  if samePath state.root root && samePath state.recordsPath recordsPath &&
      state.isSuspendedAdmission then
    some {
      action := .ready
      reason := .suspendedAdmission
      root
      recordsPath
      statePath
      recordCount
      stateRecordCount := some state.recordCount
      stateSchemaVersion := some state.schemaVersion
      detail := some ("index action " ++ String.ofList (state.indexAction.getD ['-']) ++
        "; reason " ++ String.ofList (state.indexReason.getD ['-'])) }
  else none

def readStateAt (content : Bytes) : Except GfmError IndexVolumeState :=
  readState unicode (shownPath statePath) content

def readRecordsAt (content : Bytes) : Except GfmError (List FileRecord) :=
  readRecords unicode utf8 (shownPath recordsPath) content

def suspendedAdmissionPlan (recordCount : Option U64) (state : Option Bytes) :
    Option PersistentIndexPlan :=
  match state with
  | none => none
  | some content =>
      match readStateAt unicode statePath content with
      | .error _ => none
      | .ok state => suspendedAdmissionPlanFromState root recordsPath statePath recordCount state

def stateRebuildPlan (recordCount : Option U64) (state : IndexVolumeState)
    (reason : PersistentIndexReason) (detail : Option String) : PersistentIndexPlan where
  action := .rebuildState
  reason
  root
  recordsPath
  statePath
  recordCount
  stateRecordCount := some state.recordCount
  stateSchemaVersion := some state.schemaVersion
  detail

/-- The plan for readable records and a readable state. -/
def planFromState (records : List FileRecord) (state : IndexVolumeState) : PersistentIndexPlan :=
  let recordCount := some (wordOf records.length)
  let rebuild := stateRebuildPlan root recordsPath statePath recordCount state
  match suspendedAdmissionPlanFromState root recordsPath statePath recordCount state with
  | some plan => plan
  | none =>
      if samePath state.root root = false then
        rebuild .rootMismatch (some ("state root " ++ String.ofList state.root ++
          " does not match requested root " ++ String.ofList root))
      else if samePath state.recordsPath recordsPath = false then
        rebuild .recordsPathMismatch (some ("state records path " ++
          String.ofList state.recordsPath ++ " does not match requested records path " ++
          String.ofList recordsPath))
      else if state.recordCount ≠ wordOf records.length then
        rebuild .recordCountMismatch (some ("state record count " ++
          toString state.recordCount.val ++ " does not match archive count " ++
          toString (wordOf records.length).val))
      else {
        action := .ready
        reason := .healthy
        root
        recordsPath
        statePath
        recordCount
        stateRecordCount := some state.recordCount
        stateSchemaVersion := some state.schemaVersion
        detail := none }

/-- The plan for readable records. -/
def planFromRecords (records : List FileRecord) (state : Option Bytes) : PersistentIndexPlan :=
  let recordCount := some (wordOf records.length)
  match state with
  | none => {
      action := .rebuildState
      reason := .missingState
      root
      recordsPath
      statePath
      recordCount
      stateRecordCount := none
      stateSchemaVersion := none
      detail := none }
  | some content =>
      match readStateAt unicode statePath content with
      | .ok state => planFromState root recordsPath statePath records state
      | .error error =>
          let unsupported :=
            "unsupported index state schema version".toList <:+: error.toText.toList
          { action := if unsupported then .migrateState else .rebuildState
            reason := if unsupported then .unsupportedStateSchema else .unreadableState
            root
            recordsPath
            statePath
            recordCount
            stateRecordCount := none
            stateSchemaVersion := readStateSchemaVersion (lines content)
            detail := some error.toText }

def planPersistentIndexRecovery (files : IndexFiles) : PersistentIndexPlan :=
  let rebuild (action : PersistentIndexAction) (reason : PersistentIndexReason)
      (detail : Option String) : PersistentIndexPlan := {
    action
    reason
    root
    recordsPath
    statePath
    recordCount := none
    stateRecordCount := none
    stateSchemaVersion := none
    detail }
  match suspendedAdmissionPlan unicode root recordsPath statePath none files.state with
  | some plan => plan
  | none =>
      match files.records with
      | none => rebuild .rebuildRecordsAndState .missingRecords none
      | some content =>
          match readRecordsAt unicode utf8 recordsPath content with
          | .error error =>
              rebuild .quarantineRecordsAndRebuild .unreadableRecords (some error.toText)
          | .ok records => planFromRecords unicode root recordsPath statePath records files.state

end Plan

section Recover

variable (unicode : Unicode) (utf8 : Utf8Report) (canonicalRoot root recordsPath statePath : Text)
  (quarantineDir : Path) (stamp : Text) (scan : Except GfmError DirectoryPage)

def readPrevious (state : Option Bytes) : Except GfmError (Option IndexVolumeState) :=
  match state with
  | none => .ok none
  | some content => (readStateAt unicode statePath content).map some

def buildPersistent (files : IndexFiles) : Except GfmError IndexVolumeState × IndexFiles :=
  match readPrevious unicode statePath files.state with
  | .error error => (.error error, files)
  | .ok previous =>
      match scan with
      | .error error => (.error error, files)
      | .ok page =>
          let saved := { files with records := some (writeRecords page.entries) }
          match fromPage canonicalRoot page recordsPath previous with
          | .error error => (.error error, saved)
          | .ok state => (.ok state, { saved with state := some (writeState unicode state) })

def writeStateFromRecords (files : IndexFiles) : Except GfmError Unit × IndexFiles :=
  match files.records with
  | none => (.error (.io (shownPath recordsPath) "No such file or directory"), files)
  | some content =>
      match readRecordsAt unicode utf8 recordsPath content with
      | .error error => (.error error, files)
      | .ok records =>
          let previous := match readPrevious unicode statePath files.state with
            | .ok previous => previous
            | .error _ => none
          match fromPage canonicalRoot ⟨root, records, 0⟩ recordsPath previous with
          | .error error => (.error error, files)
          | .ok state => (.ok (), { files with state := some (writeState unicode state) })

def quarantinePath : Path :=
  let name := (fileName recordsPath).getD "records.gfmidx".toList
  quarantineDir ++ [String.ofList (name ++ ".corrupt.".toList ++ stamp)]

def quarantineRecords (files : IndexFiles) : IndexFiles where
  records := none
  state := files.state
  quarantine := match files.records with
    | none => files.quarantine
    | some content => (quarantinePath recordsPath quarantineDir stamp, content) :: files.quarantine

/-- The repair that a plan asks for, with whether it rebuilt the records and the state and what
it put aside. -/
def repair (action : PersistentIndexAction) (files : IndexFiles) :
    Except GfmError (Bool × Bool × Option Path) × IndexFiles :=
  match action with
  | .ready => (.ok (false, false, none), files)
  | .rebuildState | .migrateState =>
      match writeStateFromRecords unicode utf8 canonicalRoot root recordsPath statePath files with
      | (.error error, files) => (.error error, files)
      | (.ok _, files) => (.ok (false, true, none), files)
  | .rebuildRecordsAndState =>
      match buildPersistent unicode canonicalRoot recordsPath statePath scan files with
      | (.error error, files) => (.error error, files)
      | (.ok _, files) => (.ok (true, true, none), files)
  | .quarantineRecordsAndRebuild =>
      match buildPersistent unicode canonicalRoot recordsPath statePath scan
          (quarantineRecords recordsPath quarantineDir stamp files) with
      | (.error error, files) => (.error error, files)
      | (.ok _, files) =>
          (.ok (true, true, some (quarantinePath recordsPath quarantineDir stamp)), files)

def recoverPersistent (files : IndexFiles) : Except GfmError PersistentIndexRecovery × IndexFiles :=
  let before := planPersistentIndexRecovery unicode utf8 root recordsPath statePath files
  match repair unicode utf8 canonicalRoot root recordsPath statePath quarantineDir stamp scan
      before.action files with
  | (.error error, files) => (.error error, files)
  | (.ok (rebuiltRecords, rebuiltState, quarantinedRecordsPath), files) =>
      (.ok {
        before
        after := planPersistentIndexRecovery unicode utf8 root recordsPath statePath files
        rebuiltRecords
        rebuiltState
        quarantinedRecordsPath }, files)

end Recover

section Convergence

variable (unicode : Unicode) (utf8 : Utf8Report) (root recordsPath statePath : Text)

def readableRecords (records : Option Bytes) : Option (List FileRecord) :=
  records.bind fun content => (readRecordsAt unicode utf8 recordsPath content).toOption

def readableState (state : Option Bytes) : Option IndexVolumeState :=
  state.bind fun content => (readStateAt unicode statePath content).toOption

/-- The state is of this root and this archive. -/
def Belongs (state : IndexVolumeState) : Prop :=
  samePath state.root root = true ∧ samePath state.recordsPath recordsPath = true

def Describes (state : IndexVolumeState) (records : List FileRecord) : Prop :=
  Belongs root recordsPath state ∧ state.recordCount = wordOf records.length

/-- The contents of the two files that a recovery repairs: a state that suspends the index, no
readable records and no state that it cannot read, or readable records that it has a record to
take the volume from or that need no repair. -/
def Recoverable (files : IndexFiles) : Prop :=
  (∃ state, readableState unicode statePath files.state = some state ∧
      Belongs root recordsPath state ∧ state.isSuspendedAdmission = true) ∨
    match readableRecords unicode utf8 recordsPath files.records with
    | none => files.state = none ∨ (readableState unicode statePath files.state).isSome
    | some records => records ≠ [] ∨ ∃ state,
        readableState unicode statePath files.state = some state ∧
          Describes root recordsPath state records

variable {unicode utf8 root recordsPath statePath} {canonicalRoot : Text} {page : DirectoryPage}
  {previous : Option IndexVolumeState} {records : List FileRecord} {state : IndexVolumeState}
  {files : IndexFiles} {quarantineDir : Path} {stamp : Text}

theorem fromPage_some (occupied : page.entries ≠ []) :
    ∃ state, fromPage canonicalRoot page recordsPath previous = .ok state ∧
      state.Unexplained ∧ state.root = page.root ∧ state.recordsPath = recordsPath ∧
        state.recordCount = wordOf page.entries.length := by
  rcases List.exists_cons_of_ne_nil occupied with ⟨first, rest, entries⟩
  simp only [fromPage]
  split
  case h_1 none =>
    simp [entries] at none
  case h_2 volume found =>
    refine ⟨_, rfl, ?_, rfl, rfl, rfl⟩
    constructor <;> rfl

theorem fromPage_empty (none : page.entries = []) :
    ∃ error, fromPage canonicalRoot page recordsPath previous = .error error := by
  simp [fromPage, none]

theorem ready_of_suspended {recordCount : Option U64} {plan : PersistentIndexPlan}
    (suspended : suspendedAdmissionPlanFromState root recordsPath statePath recordCount state =
      some plan) : plan.ready = true := by
  simp only [suspendedAdmissionPlanFromState, Option.ite_none_right_eq_some,
    Option.some.injEq] at suspended
  rw [← suspended.2]
  rfl

theorem suspendedFromState_isSome_iff {recordCount : Option U64} :
    (suspendedAdmissionPlanFromState root recordsPath statePath recordCount state).isSome ↔
      Belongs root recordsPath state ∧ state.isSuspendedAdmission = true := by
  simp [suspendedAdmissionPlanFromState, Belongs, and_assoc]

theorem suspended_isSome_iff {recordCount : Option U64} {content : Option Bytes} :
    (suspendedAdmissionPlan unicode root recordsPath statePath recordCount content).isSome ↔
      ∃ state, readableState unicode statePath content = some state ∧
        Belongs root recordsPath state ∧ state.isSuspendedAdmission = true := by
  cases content with
  | none => simp [suspendedAdmissionPlan, readableState]
  | some content =>
      cases found : readStateAt unicode statePath content with
      | error error => simp [suspendedAdmissionPlan, readableState, found, Except.toOption]
      | ok state =>
          simp [suspendedAdmissionPlan, readableState, found, Except.toOption,
            suspendedFromState_isSome_iff]

theorem plan_of_suspended {plan : PersistentIndexPlan}
    (suspended : suspendedAdmissionPlan unicode root recordsPath statePath none files.state =
      some plan) :
    (planPersistentIndexRecovery unicode utf8 root recordsPath statePath files).ready = true := by
  simp only [planPersistentIndexRecovery, suspended]
  simp only [suspendedAdmissionPlan] at suspended
  split at suspended
  · cases suspended
  · split at suspended
    · cases suspended
    · exact ready_of_suspended suspended

/-- What is planned for a readable state of a readable archive. -/
theorem planFromState_ready_iff :
    (planFromState root recordsPath statePath records state).ready = true ↔
      (Belongs root recordsPath state ∧ state.isSuspendedAdmission = true) ∨
        Describes root recordsPath state records := by
  rw [← @suspendedFromState_isSome_iff root recordsPath statePath state
    (some (wordOf records.length))]
  simp only [planFromState, Describes, Belongs]
  split
  case h_1 plan suspended =>
    simp [suspended, ready_of_suspended suspended]
  case h_2 suspended =>
    simp only [suspended, Option.isSome_none, Bool.false_eq_true, false_or]
    split
    · rename_i apart
      simp [stateRebuildPlan, PersistentIndexPlan.ready, apart]
    · split
      · rename_i apart
        simp [stateRebuildPlan, PersistentIndexPlan.ready, apart]
      · split
        · rename_i differs
          simp [stateRebuildPlan, PersistentIndexPlan.ready, differs]
        · rename_i one two three
          simp_all [PersistentIndexPlan.ready]

theorem planFromState_action :
    (planFromState root recordsPath statePath records state).ready = true ∨
      (planFromState root recordsPath statePath records state).action = .rebuildState := by
  simp only [planFromState]
  split
  case h_1 plan suspended => exact Or.inl (ready_of_suspended suspended)
  case h_2 => split_ifs <;> simp [stateRebuildPlan, PersistentIndexPlan.ready]

theorem planFromRecords_action (content : Option Bytes) :
    (planFromRecords unicode root recordsPath statePath records content).ready = true ∨
      (planFromRecords unicode root recordsPath statePath records content).action =
        .rebuildState ∨
      (planFromRecords unicode root recordsPath statePath records content).action =
        .migrateState := by
  cases content with
  | none => exact Or.inr (Or.inl rfl)
  | some content =>
      simp only [planFromRecords]
      cases readStateAt unicode statePath content with
      | ok state =>
          rcases @planFromState_action root recordsPath statePath records state with
            ready | rebuild
          · exact Or.inl ready
          · exact Or.inr (Or.inl rebuild)
      | error error =>
          right
          simp only
          split_ifs
          · exact Or.inr rfl
          · exact Or.inl rfl

theorem planFromRecords_ready_iff (content : Option Bytes) :
    (planFromRecords unicode root recordsPath statePath records content).ready = true ↔
      ∃ state, readableState unicode statePath content = some state ∧
        ((Belongs root recordsPath state ∧ state.isSuspendedAdmission = true) ∨
          Describes root recordsPath state records) := by
  cases content with
  | none => simp [planFromRecords, readableState, PersistentIndexPlan.ready]
  | some content =>
      cases found : readStateAt unicode statePath content with
      | ok state =>
          simp [planFromRecords, readableState, found, Except.toOption, planFromState_ready_iff]
      | error error =>
          simp only [planFromRecords, readableState, found, Except.toOption,
            PersistentIndexPlan.ready, Option.bind_some]
          split_ifs <;> simp

section Calm

variable (calm : suspendedAdmissionPlan unicode root recordsPath statePath none files.state = none)

include calm

theorem plan_missing (missing : files.records = none) :
    (planPersistentIndexRecovery unicode utf8 root recordsPath statePath files).action =
      .rebuildRecordsAndState := by
  simp only [planPersistentIndexRecovery, calm, missing]

theorem plan_unreadable {content : Bytes} {error : GfmError} (held : files.records = some content)
    (unreadable : readRecordsAt unicode utf8 recordsPath content = .error error) :
    (planPersistentIndexRecovery unicode utf8 root recordsPath statePath files).action =
      .quarantineRecordsAndRebuild := by
  simp only [planPersistentIndexRecovery, calm, held, unreadable]

theorem plan_readable {content : Bytes} (held : files.records = some content)
    (readable : readRecordsAt unicode utf8 recordsPath content = .ok records) :
    planPersistentIndexRecovery unicode utf8 root recordsPath statePath files =
      planFromRecords unicode root recordsPath statePath records files.state := by
  simp only [planPersistentIndexRecovery, calm, held, readable]

end Calm

/-- An archive and a state that was written for it need no repair. -/
theorem plan_written {content : Bytes} (held : files.records = some content)
    (readable : readRecordsAt unicode utf8 recordsPath content = .ok records)
    (written : files.state = some (writeState unicode state)) (unexplained : state.Unexplained)
    (describes : Describes root recordsPath state records) :
    (planPersistentIndexRecovery unicode utf8 root recordsPath statePath files).ready = true := by
  have read : readableState unicode statePath files.state = some state := by
    rw [written, readableState, Option.bind_some, readStateAt, readState_writeState unexplained]
    rfl
  cases calm : suspendedAdmissionPlan unicode root recordsPath statePath none files.state with
  | some plan => exact plan_of_suspended calm
  | none =>
      rw [plan_readable calm held readable, planFromRecords_ready_iff]
      exact ⟨state, read, Or.inr describes⟩

theorem samePath_self (path : Text) : samePath path path = true := by
  simp [samePath]

/-- A rebuild from a scan ends ready unless the state cannot be read. -/
theorem buildPersistent_ready (rooted : page.root = root) (scannable : page.entries ≠ [])
    (known : readPrevious unicode statePath files.state = .ok previous) :
    ∃ state after,
      buildPersistent unicode canonicalRoot recordsPath statePath (.ok page) files =
        (.ok state, after) ∧
      (planPersistentIndexRecovery unicode utf8 root recordsPath statePath after).ready = true := by
  rcases @fromPage_some recordsPath canonicalRoot page previous scannable with
    ⟨state, made, unexplained, sameRoot, samePlace, counted⟩
  refine ⟨state, { files with
    records := some (writeRecords page.entries), state := some (writeState unicode state) },
    by simp only [buildPersistent, known, made], ?_⟩
  apply plan_written rfl (readRecords_written unicode utf8 (shownPath recordsPath) page.entries)
    rfl unexplained
  refine ⟨⟨?_, ?_⟩, ?_⟩
  · rw [sameRoot, rooted]
    exact samePath_self root
  · rw [samePlace]
    exact samePath_self recordsPath
  · rw [counted, List.length_map]

theorem writeStateFromRecords_ready {content : Bytes} (held : files.records = some content)
    (readable : readRecordsAt unicode utf8 recordsPath content = .ok records)
    (occupied : records ≠ []) :
    ∃ after,
      writeStateFromRecords unicode utf8 canonicalRoot root recordsPath statePath files =
        (.ok (), after) ∧
      (planPersistentIndexRecovery unicode utf8 root recordsPath statePath after).ready = true := by
  rcases @fromPage_some recordsPath canonicalRoot ⟨root, records, 0⟩
      (match readPrevious unicode statePath files.state with
        | .ok previous => previous
        | .error _ => none) occupied with
    ⟨state, made, unexplained, sameRoot, samePlace, counted⟩
  refine ⟨{ files with state := some (writeState unicode state) },
    by simp only [writeStateFromRecords, held, readable, made], ?_⟩
  refine @plan_written unicode utf8 root recordsPath statePath records state _ content held readable
    rfl unexplained ⟨⟨?_, ?_⟩, counted⟩
  · rw [sameRoot]
    exact samePath_self root
  · rw [samePlace]
    exact samePath_self recordsPath

theorem writeStateFromRecords_fails {content : Bytes} (held : files.records = some content)
    (readable : readRecordsAt unicode utf8 recordsPath content = .ok []) :
    ∃ error,
      writeStateFromRecords unicode utf8 canonicalRoot root recordsPath statePath files =
        (.error error, files) := by
  rcases @fromPage_empty recordsPath canonicalRoot ⟨root, [], 0⟩
      (match readPrevious unicode statePath files.state with
        | .ok previous => previous
        | .error _ => none) rfl with ⟨error, failed⟩
  exact ⟨error, by simp only [writeStateFromRecords, held, readable, failed]⟩

theorem readPrevious_ok_iff (content : Option Bytes) :
    (∃ previous, readPrevious unicode statePath content = .ok previous) ↔
      content = none ∨ (readableState unicode statePath content).isSome := by
  cases content with
  | none => simp [readPrevious]
  | some content =>
      cases found : readStateAt unicode statePath content with
      | error error => simp [readPrevious, readableState, found, Except.map, Except.toOption]
      | ok state => simp [readPrevious, readableState, found, Except.map, Except.toOption]

/-- The recovery returns and nothing is left to repair. -/
def Converges (unicode : Unicode) (utf8 : Utf8Report)
    (canonicalRoot root recordsPath statePath : Text) (quarantineDir : Path) (stamp : Text)
    (scan : Except GfmError DirectoryPage) (files : IndexFiles) : Prop :=
  ∃ recovery after, recoverPersistent unicode utf8 canonicalRoot root recordsPath statePath
    quarantineDir stamp scan files = (.ok recovery, after) ∧ recovery.after.ready = true

theorem converges_of_repair (done : Bool × Bool × Option Path) {after : IndexFiles}
    {scan : Except GfmError DirectoryPage}
    (repaired : repair unicode utf8 canonicalRoot root recordsPath statePath quarantineDir stamp
      scan (planPersistentIndexRecovery unicode utf8 root recordsPath statePath files).action
      files = (.ok done, after))
    (ready : (planPersistentIndexRecovery unicode utf8 root recordsPath statePath after).ready =
      true) :
    Converges unicode utf8 canonicalRoot root recordsPath statePath quarantineDir stamp scan
      files := by
  rcases done with ⟨rebuiltRecords, rebuiltState, quarantinedRecordsPath⟩
  refine ⟨{
    before := planPersistentIndexRecovery unicode utf8 root recordsPath statePath files
    after := planPersistentIndexRecovery unicode utf8 root recordsPath statePath after
    rebuiltRecords
    rebuiltState
    quarantinedRecordsPath }, after, ?_, ready⟩
  simp only [recoverPersistent, repaired]

theorem not_converges_of_repair (error : GfmError) (after : IndexFiles)
    {scan : Except GfmError DirectoryPage}
    (failed : repair unicode utf8 canonicalRoot root recordsPath statePath quarantineDir stamp
      scan (planPersistentIndexRecovery unicode utf8 root recordsPath statePath files).action
      files = (.error error, after)) :
    ¬Converges unicode utf8 canonicalRoot root recordsPath statePath quarantineDir stamp scan
      files := by
  rintro ⟨recovery, reached, recovered, _⟩
  simp only [recoverPersistent, failed] at recovered
  cases recovered

/-- A repair that builds the index anew needs a state that it can read, or none. -/
theorem rebuilt_converges_iff {action : PersistentIndexAction} {emptied : IndexFiles}
    (rooted : page.root = root) (scannable : page.entries ≠ [])
    (planned : (planPersistentIndexRecovery unicode utf8 root recordsPath statePath files).action =
      action)
    (rebuilds : (action = .rebuildRecordsAndState ∧ emptied = files) ∨
      (action = .quarantineRecordsAndRebuild ∧
        emptied = quarantineRecords recordsPath quarantineDir stamp files)) :
    Converges unicode utf8 canonicalRoot root recordsPath statePath quarantineDir stamp
        (.ok page) files ↔
      files.state = none ∨ (readableState unicode statePath files.state).isSome := by
  have kept : emptied.state = files.state := by
    rcases rebuilds with ⟨_, rfl⟩ | ⟨_, rfl⟩ <;> rfl
  rw [← readPrevious_ok_iff, ← kept]
  constructor
  · intro converges
    cases known : readPrevious unicode statePath emptied.state with
    | ok previous => exact ⟨previous, rfl⟩
    | error error =>
        exfalso
        have failed : buildPersistent unicode canonicalRoot recordsPath statePath (.ok page)
            emptied = (.error error, emptied) := by
          simp only [buildPersistent, known]
        refine not_converges_of_repair error emptied ?_ converges
        rw [planned]
        rcases rebuilds with ⟨rfl, rfl⟩ | ⟨rfl, rfl⟩ <;> simp only [repair, failed]
  · rintro ⟨previous, known⟩
    rcases @buildPersistent_ready unicode utf8 root recordsPath statePath canonicalRoot page
        previous emptied rooted scannable known with ⟨state, after, built, ready⟩
    rcases rebuilds with ⟨rfl, rfl⟩ | ⟨rfl, rfl⟩
    · apply converges_of_repair (true, true, none) _ ready
      rw [planned]
      simp only [repair, built]
    · apply converges_of_repair
        (true, true, some (quarantinePath recordsPath quarantineDir stamp)) _ ready
      rw [planned]
      simp only [repair, built]

/-- A repair of the state needs a record, unless there is nothing to repair. -/
theorem readable_converges_iff {content : Bytes} {scan : Except GfmError DirectoryPage}
    (calm : suspendedAdmissionPlan unicode root recordsPath statePath none files.state = none)
    (held : files.records = some content)
    (readable : readRecordsAt unicode utf8 recordsPath content = .ok records) :
    Converges unicode utf8 canonicalRoot root recordsPath statePath quarantineDir stamp
        scan files ↔
      records ≠ [] ∨ ∃ state, readableState unicode statePath files.state = some state ∧
        Describes root recordsPath state records := by
  have planned := plan_readable calm held readable
  have unsuspended : ∀ state, readableState unicode statePath files.state = some state →
      ¬(Belongs root recordsPath state ∧ state.isSuspendedAdmission = true) := by
    intro state read suspended
    have found := (@suspended_isSome_iff unicode root recordsPath statePath none files.state).mpr
      ⟨state, read, suspended⟩
    rw [calm] at found
    cases found
  have described : (planFromRecords unicode root recordsPath statePath records files.state).ready =
        true ↔ ∃ state, readableState unicode statePath files.state = some state ∧
      Describes root recordsPath state records := by
    rw [planFromRecords_ready_iff]
    apply exists_congr
    intro state
    apply and_congr_right
    intro read
    simp [unsuspended state read]
  rw [← described]
  by_cases ready : (planFromRecords unicode root recordsPath statePath records files.state).ready =
      true
  · have action : (planPersistentIndexRecovery unicode utf8 root recordsPath statePath
        files).action = .ready := by
      rw [planned]
      exact of_decide_eq_true ready
    simp only [ready, or_true, iff_true]
    apply converges_of_repair (false, false, none)
    · rw [action]
      rfl
    · rw [planned]
      exact ready
  · simp only [ready, Bool.false_eq_true, or_false]
    have repairs : ∀ files', repair unicode utf8 canonicalRoot root recordsPath statePath
        quarantineDir stamp scan (planPersistentIndexRecovery unicode utf8 root recordsPath
          statePath files).action files' =
        repair unicode utf8 canonicalRoot root recordsPath statePath quarantineDir stamp scan
          .rebuildState files' := by
      intro files'
      rw [planned]
      rcases planFromRecords_action files.state with is | is | is
      · exact absurd is ready
      · rw [is]
      · rw [is]
        rfl
    constructor
    · rintro converges rfl
      rcases @writeStateFromRecords_fails unicode utf8 root recordsPath statePath canonicalRoot
        files content held readable with ⟨error, failed⟩
      refine not_converges_of_repair error files ?_ converges
      rw [repairs]
      simp only [repair, failed]
    · intro occupied
      rcases @writeStateFromRecords_ready unicode utf8 root recordsPath statePath canonicalRoot
        records files content held readable occupied with ⟨after, written, ready⟩
      apply converges_of_repair (false, true, none) _ ready
      rw [repairs]
      simp only [repair, written]

/-- A recovery converges exactly from the contents that its repairs do not depend on. -/
theorem recoverPersistent_converges_iff (unicode : Unicode) (utf8 : Utf8Report)
    (canonicalRoot root recordsPath statePath : Text) (quarantineDir : Path) (stamp : Text)
    (page : DirectoryPage) (files : IndexFiles) (rooted : page.root = root)
    (scannable : page.entries ≠ []) :
    Converges unicode utf8 canonicalRoot root recordsPath statePath quarantineDir stamp
        (.ok page) files ↔
      Recoverable unicode utf8 root recordsPath statePath files := by
  rw [Recoverable, ← @suspended_isSome_iff unicode root recordsPath statePath none]
  cases calm : suspendedAdmissionPlan unicode root recordsPath statePath none files.state with
  | some plan =>
      simp only [Option.isSome_some, true_or, iff_true]
      have ready := @plan_of_suspended unicode utf8 root recordsPath statePath files plan calm
      apply converges_of_repair (false, false, none) _ ready
      rw [show (planPersistentIndexRecovery unicode utf8 root recordsPath statePath files).action =
        .ready from of_decide_eq_true ready]
      rfl
  | none =>
      simp only [Option.isSome_none, Bool.false_eq_true, false_or]
      cases held : files.records with
      | none =>
          exact rebuilt_converges_iff rooted scannable (plan_missing calm held)
            (Or.inl ⟨rfl, rfl⟩)
      | some content =>
          cases readable : readRecordsAt unicode utf8 recordsPath content with
          | error error =>
              simp only [readableRecords, Option.bind_some, readable, Except.toOption]
              exact rebuilt_converges_iff rooted scannable (plan_unreadable calm held readable)
                (Or.inr ⟨rfl, rfl⟩)
          | ok records =>
              simp only [readableRecords, Option.bind_some, readable, Except.toOption]
              exact readable_converges_iff calm held readable

/-- A scan of an empty directory. -/
def emptyDirectoryPage : DirectoryPage where
  root := "/r".toList
  entries := [{
    id := fileId 1 2
    parent := none
    path := "/r".toList
    name := "r".toList
    kind := .directory
    len := 64
    mode := 493
    owner := 501
    group := 20
    xattrsDigest := 0
    created := none
    modified := none
    changed := none
    hidden := false
    tags := []
    finderComment := none }]
  inaccessible := 0

/-- The records are gone and the state is empty: the rebuild fails on the state. -/
theorem recoverPersistent_stuck :
    ¬Converges Unicode.ascii ⟨fun _ => "", fun _ => ""⟩ "/r".toList "/r".toList
      "/i/records".toList "/i/state".toList ["i"] "7".toList (.ok emptyDirectoryPage)
      ⟨none, some [], []⟩ := by
  intro converges
  have planned : (planPersistentIndexRecovery Unicode.ascii ⟨fun _ => "", fun _ => ""⟩ "/r".toList
      "/i/records".toList "/i/state".toList ⟨none, some [], []⟩).action =
        .rebuildRecordsAndState := rfl
  have some : emptyDirectoryPage.entries ≠ [] := by simp [emptyDirectoryPage]
  have rooted : emptyDirectoryPage.root = "/r".toList := rfl
  have readable := (rebuilt_converges_iff rooted some planned (Or.inl ⟨rfl, rfl⟩)).mp converges
  rcases readable with missing | read
  · cases missing
  · cases read

theorem recoverPersistent_converges_iff_missing :
    Converges Unicode.ascii ⟨fun _ => "", fun _ => ""⟩ "/r".toList "/r".toList
        "/i/records".toList "/i/state".toList ["i"] "7".toList (.ok emptyDirectoryPage)
        ⟨none, none, []⟩ ↔
      Recoverable Unicode.ascii ⟨fun _ => "", fun _ => ""⟩ "/r".toList "/i/records".toList
        "/i/state".toList ⟨none, none, []⟩ :=
  recoverPersistent_converges_iff Unicode.ascii ⟨fun _ => "", fun _ => ""⟩ "/r".toList "/r".toList
    "/i/records".toList "/i/state".toList ["i"] "7".toList emptyDirectoryPage ⟨none, none, []⟩ rfl
    (by simp [emptyDirectoryPage])

end Convergence

end Gfm.Index

import Gfm.Index.KeyedLines
import Gfm.Search.Columns
import Gfm.Store.Records

/-!
# The index state of a volume

A file of keys and values that says for which root and which record archive the index was built.
-/

namespace Gfm.Index

open LineLog Store

def indexStateSchemaVersion : U32 := 1

def indexStateMagic : Text := "gfm-index-state-v1".toList

structure IndexVolumeState where
  schemaVersion : U32
  root : Text
  recordsPath : Text
  volumeId : U64
  mountId : Text
  scanEpoch : U64
  recordCount : U64
  inaccessibleCount : U64
  indexAction : Option Text
  indexReason : Option Text
  nativeStatus : Option Text
  nativeReason : Option Text
  resourceStatus : Option Text
  resourceReason : Option Text
  mountStatus : Option Text
  mountReason : Option Text
  deriving DecidableEq

/-- The fields read so far. -/
structure StateFields where
  schemaVersion : Option U32 := none
  root : Option Text := none
  recordsPath : Option Text := none
  volumeId : Option U64 := none
  mountId : Option Text := none
  scanEpoch : Option U64 := none
  recordCount : Option U64 := none
  inaccessibleCount : Option U64 := none
  indexAction : Option Text := none
  indexReason : Option Text := none
  nativeStatus : Option Text := none
  nativeReason : Option Text := none
  resourceStatus : Option Text := none
  resourceReason : Option Text := none
  mountStatus : Option Text := none
  mountReason : Option Text := none

section Scan

/-- What a scan of a tree, or an archive of one, gives. -/
structure DirectoryPage where
  root : Text
  entries : List FileRecord
  inaccessible : Nat

/-- The length of a vector is a machine word. -/
def wordOf (number : Nat) : U64 := Fin.ofNat (2 ^ 64) number

def saturatingAdd (left right : U64) : U64 :=
  if sum : left.val + right.val < 2 ^ 64 then ⟨left.val + right.val, sum⟩
  else ⟨2 ^ 64 - 1, by omega⟩

def samePath (left right : Text) : Bool :=
  Search.pathComponents left = Search.pathComponents right

variable (canonicalRoot : Text)

def mountIdentity (volume : U64) : Text :=
  "dev:".toList ++ Tsv.decimal volume.val ++ ":root:".toList ++ canonicalRoot

def fromPage (page : DirectoryPage) (recordsPath : Text) (previous : Option IndexVolumeState) :
    Except GfmError IndexVolumeState :=
  let rootRecord := page.entries.find? fun record => samePath record.path page.root
  match (rootRecord.or page.entries.head?).map fun record => record.id.val.volume.value with
  | none => .error (.format ("cannot persist index state for empty scan rooted at " ++
      String.ofList page.root))
  | some volume =>
      let volumeId := wordOf volume
      let mountId := mountIdentity canonicalRoot volumeId
      let continued := previous.filter fun state =>
        state.schemaVersion = indexStateSchemaVersion && state.volumeId = volumeId &&
          state.mountId = mountId
      .ok {
        schemaVersion := indexStateSchemaVersion
        root := page.root
        recordsPath
        volumeId
        mountId
        scanEpoch := (continued.map fun state => saturatingAdd state.scanEpoch 1).getD 1
        recordCount := wordOf page.entries.length
        inaccessibleCount := wordOf page.inaccessible
        indexAction := none
        indexReason := none
        nativeStatus := none
        nativeReason := none
        resourceStatus := none
        resourceReason := none
        mountStatus := none
        mountReason := none }

end Scan

section Write

variable (unicode : Unicode)

def normalizeOptionalString (value : Option Text) : Option Text :=
  value.filter fun value => unicode.trim value ≠ []

def optionalField (value : Option Text) : Text :=
  match normalizeOptionalString unicode value with
  | some value => Tsv.escape value
  | none => ['-']

/-- The keys and values of a state, in the order of the file. -/
def stateLines (state : IndexVolumeState) : List (Text × Text) :=
  [("schema_version".toList, Tsv.decimal state.schemaVersion.val),
    ("root".toList, Tsv.escape state.root),
    ("records_path".toList, Tsv.escape state.recordsPath),
    ("volume_id".toList, Tsv.decimal state.volumeId.val),
    ("mount_id".toList, Tsv.escape state.mountId),
    ("scan_epoch".toList, Tsv.decimal state.scanEpoch.val),
    ("record_count".toList, Tsv.decimal state.recordCount.val),
    ("inaccessible_count".toList, Tsv.decimal state.inaccessibleCount.val),
    ("index_action".toList, optionalField unicode state.indexAction),
    ("index_reason".toList, optionalField unicode state.indexReason),
    ("native_status".toList, optionalField unicode state.nativeStatus),
    ("native_reason".toList, optionalField unicode state.nativeReason),
    ("resource_status".toList, optionalField unicode state.resourceStatus),
    ("resource_reason".toList, optionalField unicode state.resourceReason),
    ("mount_status".toList, optionalField unicode state.mountStatus),
    ("mount_reason".toList, optionalField unicode state.mountReason)]

end Write

section Read

variable (unicode : Unicode) (path : Path)

def stateLabel : String := "index state"

def parseOptionalString (value : Text) : Except GfmError (Option Text) :=
  if value = ['-'] then .ok none
  else (Tsv.unescapeAs stateLabel value).map fun value =>
    normalizeOptionalString unicode (some value)

def setField (fields : StateFields) (key value : Text) : Except GfmError StateFields :=
  let number (field : String) (set : U64 → StateFields) : Except GfmError StateFields :=
    (parseKeyed stateLabel path (2 ^ 64) value field).map set
  let text (set : Text → StateFields) : Except GfmError StateFields :=
    (Tsv.unescapeAs stateLabel value).map set
  let optional (set : Option Text → StateFields) : Except GfmError StateFields :=
    (parseOptionalString unicode value).map set
  if key = "schema_version".toList then
    (parseKeyed stateLabel path (2 ^ 32) value "schema_version").map fun version =>
      { fields with schemaVersion := some version }
  else if key = "root".toList then text fun root => { fields with root := some root }
  else if key = "records_path".toList then
    text fun recordsPath => { fields with recordsPath := some recordsPath }
  else if key = "volume_id".toList then
    number "volume_id" fun volumeId => { fields with volumeId := some volumeId }
  else if key = "mount_id".toList then
    text fun mountId => { fields with mountId := some mountId }
  else if key = "scan_epoch".toList then
    number "scan_epoch" fun scanEpoch => { fields with scanEpoch := some scanEpoch }
  else if key = "record_count".toList then
    number "record_count" fun recordCount => { fields with recordCount := some recordCount }
  else if key = "inaccessible_count".toList then
    number "inaccessible_count" fun count => { fields with inaccessibleCount := some count }
  else if key = "index_action".toList then
    optional fun indexAction => { fields with indexAction }
  else if key = "index_reason".toList then
    optional fun indexReason => { fields with indexReason }
  else if key = "native_status".toList then
    optional fun nativeStatus => { fields with nativeStatus }
  else if key = "native_reason".toList then
    optional fun nativeReason => { fields with nativeReason }
  else if key = "resource_status".toList then
    optional fun resourceStatus => { fields with resourceStatus }
  else if key = "resource_reason".toList then
    optional fun resourceReason => { fields with resourceReason }
  else if key = "mount_status".toList then
    optional fun mountStatus => { fields with mountStatus }
  else if key = "mount_reason".toList then
    optional fun mountReason => { fields with mountReason }
  else unknownKey stateLabel path key

def stateOf (fields : StateFields) : Except GfmError IndexVolumeState := do
  let schemaVersion ← requiredKeyed stateLabel path fields.schemaVersion "schema_version"
  let root ← requiredKeyed stateLabel path fields.root "root"
  let recordsPath ← requiredKeyed stateLabel path fields.recordsPath "records_path"
  let volumeId ← requiredKeyed stateLabel path fields.volumeId "volume_id"
  let mountId ← requiredKeyed stateLabel path fields.mountId "mount_id"
  let scanEpoch ← requiredKeyed stateLabel path fields.scanEpoch "scan_epoch"
  let recordCount ← requiredKeyed stateLabel path fields.recordCount "record_count"
  let inaccessibleCount ←
    requiredKeyed stateLabel path fields.inaccessibleCount "inaccessible_count"
  if schemaVersion ≠ indexStateSchemaVersion then
    .error (stateError path ("unsupported index state schema version " ++
      toString schemaVersion.val))
  else
    .ok { fields with
      schemaVersion, root, recordsPath, volumeId, mountId, scanEpoch, recordCount,
      inaccessibleCount }

/-- The one file of its kind in which no key may come again. -/
def stateFormat : KeyedFormat StateFields IndexVolumeState where
  label := stateLabel
  magic := indexStateMagic
  keysOnce := true
  start := {}
  setField := setField unicode
  finish := stateOf

def writeState (state : IndexVolumeState) : Bytes :=
  (stateFormat unicode).write (stateLines unicode state)

def readState (content : Bytes) : Except GfmError IndexVolumeState :=
  (stateFormat unicode).read path content

end Read

section RoundTrip

variable {unicode : Unicode} {path : Path}

/-- A reason that is a dash alone is taken for none. -/
theorem parseOptionalString_optionalField {value : Option Text} (undashed : value ≠ some ['-']) :
    parseOptionalString unicode (optionalField unicode value) =
      .ok (normalizeOptionalString unicode value) := by
  cases kept : normalizeOptionalString unicode value with
  | none =>
      rw [optionalField, kept]
      rfl
  | some text =>
      have given : value = some text ∧ unicode.trim text ≠ [] := by
        rw [normalizeOptionalString, Option.filter_eq_some_iff] at kept
        exact ⟨kept.1, of_decide_eq_true kept.2⟩
      have written : Tsv.escape text ≠ ['-'] := by
        intro same
        have back := Tsv.unescape_escape text
        rw [same] at back
        exact undashed (given.1.trans (congrArg some (Except.ok.inj back).symm))
      rw [optionalField, kept, parseOptionalString, if_neg written, Tsv.unescapeAs_escape]
      rw [given.1] at kept
      exact congrArg Except.ok kept

variable {state : IndexVolumeState}

/-- None of the reasons is a dash alone. -/
structure IndexVolumeState.Undashed (state : IndexVolumeState) : Prop where
  indexAction : state.indexAction ≠ some ['-']
  indexReason : state.indexReason ≠ some ['-']
  nativeStatus : state.nativeStatus ≠ some ['-']
  nativeReason : state.nativeReason ≠ some ['-']
  resourceStatus : state.resourceStatus ≠ some ['-']
  resourceReason : state.resourceReason ≠ some ['-']
  mountStatus : state.mountStatus ≠ some ['-']
  mountReason : state.mountReason ≠ some ['-']

/-- The state without its blank reasons. -/
def IndexVolumeState.normalized (unicode : Unicode) (state : IndexVolumeState) :
    IndexVolumeState :=
  { state with
    indexAction := normalizeOptionalString unicode state.indexAction
    indexReason := normalizeOptionalString unicode state.indexReason
    nativeStatus := normalizeOptionalString unicode state.nativeStatus
    nativeReason := normalizeOptionalString unicode state.nativeReason
    resourceStatus := normalizeOptionalString unicode state.resourceStatus
    resourceReason := normalizeOptionalString unicode state.resourceReason
    mountStatus := normalizeOptionalString unicode state.mountStatus
    mountReason := normalizeOptionalString unicode state.mountReason }

/-- A state of this schema that gives no reasons. -/
structure IndexVolumeState.Unexplained (state : IndexVolumeState) : Prop where
  current : state.schemaVersion = indexStateSchemaVersion
  indexAction : state.indexAction = none
  indexReason : state.indexReason = none
  nativeStatus : state.nativeStatus = none
  nativeReason : state.nativeReason = none
  resourceStatus : state.resourceStatus = none
  resourceReason : state.resourceReason = none
  mountStatus : state.mountStatus = none
  mountReason : state.mountReason = none

theorem plain_optionalField (value : Option Text) : Tsv.Plain (optionalField unicode value) := by
  rw [optionalField]
  split
  · apply Tsv.plain_escape
  · decide

theorem plain_keys : ∀ key ∈ (stateLines unicode state).map Prod.fst, Tsv.Plain key := by
  simp only [stateLines, List.map_cons, List.map_nil]
  decide

theorem nodup_keys : ((stateLines unicode state).map Prod.fst).Nodup := by
  simp only [stateLines, List.map_cons, List.map_nil]
  decide

theorem plain_values : ∀ value ∈ (stateLines unicode state).map Prod.snd, Tsv.Plain value := by
  simp only [stateLines, List.map_cons, List.map_nil, List.forall_mem_cons]
  simp [Tsv.plain_escape, Tsv.plain_decimal, plain_optionalField]

theorem foldlM_setField (undashed : state.Undashed) :
    (stateLines unicode state).foldlM
        (fun fields pair => setField unicode path fields pair.1 pair.2) {} =
      .ok {
        schemaVersion := state.schemaVersion
        root := state.root
        recordsPath := state.recordsPath
        volumeId := state.volumeId
        mountId := state.mountId
        scanEpoch := state.scanEpoch
        recordCount := state.recordCount
        inaccessibleCount := state.inaccessibleCount
        indexAction := normalizeOptionalString unicode state.indexAction
        indexReason := normalizeOptionalString unicode state.indexReason
        nativeStatus := normalizeOptionalString unicode state.nativeStatus
        nativeReason := normalizeOptionalString unicode state.nativeReason
        resourceStatus := normalizeOptionalString unicode state.resourceStatus
        resourceReason := normalizeOptionalString unicode state.resourceReason
        mountStatus := normalizeOptionalString unicode state.mountStatus
        mountReason := normalizeOptionalString unicode state.mountReason } := by
  rcases undashed with ⟨one, two, three, four, five, six, seven, eight⟩
  rw [stateLines]
  iterate 16 rw [foldlM_cons_ok (by
    simp [setField, Except.map, parseOptionalString_optionalField, *]; rfl)]
  rfl

/-- A written state is read without its blank reasons, if it is of this schema. -/
theorem readState_writeState_eq (undashed : state.Undashed) :
    readState unicode path (writeState unicode state) =
      if state.schemaVersion = indexStateSchemaVersion then .ok (state.normalized unicode)
      else .error (stateError path ("unsupported index state schema version " ++
        toString state.schemaVersion.val)) := by
  have header : '\n' ∉ indexStateMagic ∧ '\r' ∉ indexStateMagic := by decide
  rw [readState, writeState,
    (stateFormat unicode).read_write header plain_keys (fun _ => nodup_keys) plain_values
      (foldlM_setField undashed)]
  simp only [stateFormat, stateOf, requiredKeyed, bind, Except.bind, ite_not]
  rfl

/-- A written state that gives no reasons is read as it was. -/
theorem readState_writeState (unexplained : state.Unexplained) :
    readState unicode path (writeState unicode state) = .ok state := by
  rcases unexplained with ⟨current, one, two, three, four, five, six, seven, eight⟩
  have undashed : state.Undashed := by
    constructor <;> simp [*]
  rw [readState_writeState_eq undashed, if_pos current]
  rcases state
  simp_all [IndexVolumeState.normalized, normalizeOptionalString]

end RoundTrip

end Gfm.Index

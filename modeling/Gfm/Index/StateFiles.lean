import Gfm.Index.VolumeState

/-!
# State files and their round trips

The cursor of the events of a volume, the progress of a scan and the description of a content job,
each as it is written and read back.
-/

namespace Gfm.Index

open LineLog List Store Tsv

section Cursor

def fseventsCursorSchemaVersion : U32 := 1

inductive FseventsCursorHealth where
  | clean
  | repairRequired
  deriving DecidableEq, Repr

def FseventsCursorHealth.asStr : FseventsCursorHealth → Text
  | .clean => "clean".toList
  | .repairRequired => "repair-required".toList

def FseventsCursorHealth.parse (value : Text) : Except GfmError FseventsCursorHealth :=
  if value = "clean".toList ∨ value = "ok".toList then .ok .clean
  else if value = "repair-required".toList ∨ value = "repair".toList then .ok .repairRequired
  else .error (.format ("unsupported FSEvents cursor health \x60" ++ String.ofList value ++ "\x60"))

structure FseventsCursor where
  schemaVersion : U32
  volumeId : U64
  mountId : Text
  scanEpoch : U64
  lastEventId : U64
  health : FseventsCursorHealth
  deriving DecidableEq

structure CursorFields where
  schemaVersion : Option U32 := none
  volumeId : Option U64 := none
  mountId : Option Text := none
  scanEpoch : Option U64 := none
  lastEventId : Option U64 := none
  health : Option FseventsCursorHealth := none

def cursorLabel : String := "FSEvents cursor"

def setCursorField (path : Path) (fields : CursorFields) (key value : Text) :
    Except GfmError CursorFields :=
  let number (field : String) (set : U64 → CursorFields) : Except GfmError CursorFields :=
    (parseKeyed cursorLabel path (2 ^ 64) value field).map set
  if key = "schema_version".toList then
    (parseKeyed cursorLabel path (2 ^ 32) value "schema_version").map fun version =>
      { fields with schemaVersion := some version }
  else if key = "volume_id".toList then
    number "volume_id" fun volumeId => { fields with volumeId := some volumeId }
  else if key = "mount_id".toList then
    (unescapeAs cursorLabel value).map fun mountId => { fields with mountId := some mountId }
  else if key = "scan_epoch".toList then
    number "scan_epoch" fun scanEpoch => { fields with scanEpoch := some scanEpoch }
  else if key = "last_event_id".toList then
    number "last_event_id" fun lastEventId => { fields with lastEventId := some lastEventId }
  else if key = "health".toList then
    (FseventsCursorHealth.parse value).map fun health => { fields with health := some health }
  else unknownKey cursorLabel path key

def cursorOf (path : Path) (fields : CursorFields) : Except GfmError FseventsCursor := do
  let schemaVersion ← requiredKeyed cursorLabel path fields.schemaVersion "schema_version"
  let volumeId ← requiredKeyed cursorLabel path fields.volumeId "volume_id"
  let mountId ← requiredKeyed cursorLabel path fields.mountId "mount_id"
  let scanEpoch ← requiredKeyed cursorLabel path fields.scanEpoch "scan_epoch"
  let lastEventId ← requiredKeyed cursorLabel path fields.lastEventId "last_event_id"
  let health ← requiredKeyed cursorLabel path fields.health "health"
  if schemaVersion ≠ fseventsCursorSchemaVersion then
    .error (stateError path ("unsupported FSEvents cursor schema version " ++
      toString schemaVersion.val))
  else .ok { schemaVersion, volumeId, mountId, scanEpoch, lastEventId, health }

def cursorFormat : KeyedFormat CursorFields FseventsCursor where
  label := cursorLabel
  magic := "gfm-fsevents-cursor-v1".toList
  start := {}
  setField := setCursorField
  finish := cursorOf

def cursorLines (cursor : FseventsCursor) : List (Text × Text) :=
  [("schema_version".toList, decimal cursor.schemaVersion.val),
    ("volume_id".toList, decimal cursor.volumeId.val),
    ("mount_id".toList, Tsv.escape cursor.mountId),
    ("scan_epoch".toList, decimal cursor.scanEpoch.val),
    ("last_event_id".toList, decimal cursor.lastEventId.val),
    ("health".toList, cursor.health.asStr)]

def FseventsCursor.write (cursor : FseventsCursor) : Bytes :=
  cursorFormat.write (cursorLines cursor)

def FseventsCursor.read (path : Path) (content : Bytes) : Except GfmError FseventsCursor :=
  cursorFormat.read path content

end Cursor

section Progress

def scanProgressSchemaVersion : U32 := 1

structure ScanProgressCheckpoint where
  schemaVersion : U32
  root : Text
  recordsPath : Text
  startedAtNanos : Fin (2 ^ 128)
  updatedAtNanos : Fin (2 ^ 128)
  scannedRecords : U64
  inaccessibleRecords : U64
  publishedSegments : U64
  tombstones : U64
  lastPath : Option Text
  completed : Bool
  deriving DecidableEq

/-- The fields read so far; the last path may be read as none. -/
structure ProgressFields where
  schemaVersion : Option U32 := none
  root : Option Text := none
  recordsPath : Option Text := none
  startedAtNanos : Option (Fin (2 ^ 128)) := none
  updatedAtNanos : Option (Fin (2 ^ 128)) := none
  scannedRecords : Option U64 := none
  inaccessibleRecords : Option U64 := none
  publishedSegments : Option U64 := none
  tombstones : Option U64 := none
  lastPath : Option (Option Text) := none
  completed : Option Bool := none

def progressLabel : String := "scan progress"

def parseBool (path : Path) (value : Text) (field : String) : Except GfmError Bool :=
  if value = "true".toList then .ok true
  else if value = "false".toList then .ok false
  else .error (stateError path ("invalid scan progress " ++ field ++ " \x60" ++
    String.ofList value ++ "\x60"))

def setProgressField (path : Path) (fields : ProgressFields) (key value : Text) :
    Except GfmError ProgressFields :=
  let count (field : String) (set : U64 → ProgressFields) : Except GfmError ProgressFields :=
    (parseKeyed progressLabel path (2 ^ 64) value field).map set
  let nanos (field : String) (set : Fin (2 ^ 128) → ProgressFields) :
      Except GfmError ProgressFields :=
    (parseKeyed progressLabel path (2 ^ 128) value field).map set
  let text (set : Text → ProgressFields) : Except GfmError ProgressFields :=
    (unescapeAs progressLabel value).map set
  if key = "schema_version".toList then
    (parseKeyed progressLabel path (2 ^ 32) value "schema_version").map fun version =>
      { fields with schemaVersion := some version }
  else if key = "root".toList then text fun root => { fields with root := some root }
  else if key = "records_path".toList then
    text fun recordsPath => { fields with recordsPath := some recordsPath }
  else if key = "started_at_nanos".toList then
    nanos "started_at_nanos" fun started => { fields with startedAtNanos := some started }
  else if key = "updated_at_nanos".toList then
    nanos "updated_at_nanos" fun updated => { fields with updatedAtNanos := some updated }
  else if key = "scanned_records".toList then
    count "scanned_records" fun scanned => { fields with scannedRecords := some scanned }
  else if key = "inaccessible_records".toList then
    count "inaccessible_records" fun missed => { fields with inaccessibleRecords := some missed }
  else if key = "published_segments".toList then
    count "published_segments" fun published => { fields with publishedSegments := some published }
  else if key = "tombstones".toList then
    count "tombstones" fun tombstones => { fields with tombstones := some tombstones }
  else if key = "last_path".toList then
    if value = [] then .ok { fields with lastPath := some none }
    else text fun lastPath => { fields with lastPath := some (some lastPath) }
  else if key = "completed".toList then
    (parseBool path value "completed").map fun completed =>
      { fields with completed := some completed }
  else unknownKey progressLabel path key

def progressOf (path : Path) (fields : ProgressFields) :
    Except GfmError ScanProgressCheckpoint := do
  let schemaVersion ← requiredKeyed progressLabel path fields.schemaVersion "schema_version"
  let root ← requiredKeyed progressLabel path fields.root "root"
  let recordsPath ← requiredKeyed progressLabel path fields.recordsPath "records_path"
  let startedAtNanos ← requiredKeyed progressLabel path fields.startedAtNanos "started_at_nanos"
  let updatedAtNanos ← requiredKeyed progressLabel path fields.updatedAtNanos "updated_at_nanos"
  let scannedRecords ← requiredKeyed progressLabel path fields.scannedRecords "scanned_records"
  let inaccessibleRecords ←
    requiredKeyed progressLabel path fields.inaccessibleRecords "inaccessible_records"
  let publishedSegments ←
    requiredKeyed progressLabel path fields.publishedSegments "published_segments"
  let tombstones ← requiredKeyed progressLabel path fields.tombstones "tombstones"
  let lastPath ← requiredKeyed progressLabel path fields.lastPath "last_path"
  let completed ← requiredKeyed progressLabel path fields.completed "completed"
  if schemaVersion ≠ scanProgressSchemaVersion then
    .error (stateError path ("unsupported scan progress schema version " ++
      toString schemaVersion.val))
  else
    .ok { schemaVersion, root, recordsPath, startedAtNanos, updatedAtNanos, scannedRecords,
          inaccessibleRecords, publishedSegments, tombstones, lastPath, completed }

def progressFormat : KeyedFormat ProgressFields ScanProgressCheckpoint where
  label := progressLabel
  magic := "gfm-scan-progress-v1".toList
  start := {}
  setField := setProgressField
  finish := progressOf

def progressLines (progress : ScanProgressCheckpoint) : List (Text × Text) :=
  [("schema_version".toList, decimal progress.schemaVersion.val),
    ("root".toList, Tsv.escape progress.root),
    ("records_path".toList, Tsv.escape progress.recordsPath),
    ("started_at_nanos".toList, decimal progress.startedAtNanos.val),
    ("updated_at_nanos".toList, decimal progress.updatedAtNanos.val),
    ("scanned_records".toList, decimal progress.scannedRecords.val),
    ("inaccessible_records".toList, decimal progress.inaccessibleRecords.val),
    ("published_segments".toList, decimal progress.publishedSegments.val),
    ("tombstones".toList, decimal progress.tombstones.val),
    ("last_path".toList, (progress.lastPath.map Tsv.escape).getD []),
    ("completed".toList, if progress.completed then "true".toList else "false".toList)]

def ScanProgressCheckpoint.write (progress : ScanProgressCheckpoint) : Bytes :=
  progressFormat.write (progressLines progress)

def ScanProgressCheckpoint.read (path : Path) (content : Bytes) :
    Except GfmError ScanProgressCheckpoint :=
  progressFormat.read path content

end Progress

section ContentJob

structure ContentIndexJobSpec where
  root : Text
  segmentDir : Text
  recordsPath : Text
  contentPath : Text
  ocrQueuePath : Option Text
  ocrRecognitionCachePath : Option Text
  volume : Option U64
  batchSize : U64
  deriving DecidableEq

structure JobFields where
  root : Option Text := none
  segmentDir : Option Text := none
  recordsPath : Option Text := none
  contentPath : Option Text := none
  ocrQueuePath : Option Text := none
  ocrRecognitionCachePath : Option Text := none
  volume : Option U64 := none
  batchSize : Option U64 := none

def jobLabel : String := "content job"

/-- A number whose error does not name the file. -/
def parseJobNumber (value : Text) (field : String) : Except GfmError U64 :=
  match Tsv.parse (2 ^ 64) value with
  | .ok number => .ok number
  | .error reason => .error (.format ("invalid content job " ++ field ++ " \x60" ++
      String.ofList value ++ "\x60: " ++ reason))

def setJobField (path : Path) (fields : JobFields) (key value : Text) : Except GfmError JobFields :=
  let text (set : Text → JobFields) : Except GfmError JobFields :=
    (unescapeAs jobLabel value).map set
  if key = "root".toList then text fun root => { fields with root := some root }
  else if key = "segment_dir".toList then
    text fun segmentDir => { fields with segmentDir := some segmentDir }
  else if key = "records_path".toList then
    text fun recordsPath => { fields with recordsPath := some recordsPath }
  else if key = "content_path".toList then
    text fun contentPath => { fields with contentPath := some contentPath }
  else if key = "ocr_queue_path".toList then
    text fun queue => { fields with ocrQueuePath := some queue }
  else if key = "ocr_recognition_cache_path".toList then
    text fun cache => { fields with ocrRecognitionCachePath := some cache }
  else if key = "volume_id".toList then
    (parseJobNumber value "volume id").map fun volume => { fields with volume := some volume }
  else if key = "batch_size".toList then
    (parseJobNumber value "batch size").map fun batchSize =>
      { fields with batchSize := some batchSize }
  else unknownKey jobLabel path key

def jobOf (path : Path) (fields : JobFields) : Except GfmError ContentIndexJobSpec := do
  let root ← requiredKeyed jobLabel path fields.root "root"
  let segmentDir ← requiredKeyed jobLabel path fields.segmentDir "segment_dir"
  let recordsPath ← requiredKeyed jobLabel path fields.recordsPath "records_path"
  let contentPath ← requiredKeyed jobLabel path fields.contentPath "content_path"
  let batchSize ← requiredKeyed jobLabel path fields.batchSize "batch_size"
  .ok { fields with root, segmentDir, recordsPath, contentPath, batchSize }

def jobFormat : KeyedFormat JobFields ContentIndexJobSpec where
  label := jobLabel
  magic := "gfm-content-job-v1".toList
  start := {}
  setField := setJobField
  finish := jobOf

/-- What is not given has no line. -/
def jobLines (spec : ContentIndexJobSpec) : List (Text × Text) :=
  [("root".toList, Tsv.escape spec.root),
    ("segment_dir".toList, Tsv.escape spec.segmentDir),
    ("records_path".toList, Tsv.escape spec.recordsPath),
    ("content_path".toList, Tsv.escape spec.contentPath)] ++
  (spec.ocrQueuePath.map fun path => ("ocr_queue_path".toList, Tsv.escape path)).toList ++
  (spec.ocrRecognitionCachePath.map fun path =>
    ("ocr_recognition_cache_path".toList, Tsv.escape path)).toList ++
  (spec.volume.map fun volume => ("volume_id".toList, decimal volume.val)).toList ++
  [("batch_size".toList, decimal spec.batchSize.val)]

def ContentIndexJobSpec.write (spec : ContentIndexJobSpec) : Bytes :=
  jobFormat.write (jobLines spec)

def ContentIndexJobSpec.read (path : Path) (content : Bytes) :
    Except GfmError ContentIndexJobSpec :=
  jobFormat.read path content

end ContentJob

section RoundTrip

variable {path : Path}

@[simp]
theorem parse_asStr (health : FseventsCursorHealth) :
    FseventsCursorHealth.parse health.asStr = .ok health := by
  cases health <;> decide

theorem plain_asStr (health : FseventsCursorHealth) : Plain health.asStr := by
  cases health <;> decide

theorem read_write_cursor (cursor : FseventsCursor) :
    FseventsCursor.read path cursor.write =
      if cursor.schemaVersion = fseventsCursorSchemaVersion then .ok cursor
      else .error (stateError path ("unsupported FSEvents cursor schema version " ++
        toString cursor.schemaVersion.val)) := by
  have keys : ∀ key ∈ (cursorLines cursor).map Prod.fst, Plain key := by
    simp only [cursorLines, map_cons, map_nil]
    decide
  have values : ∀ value ∈ (cursorLines cursor).map Prod.snd, Plain value := by
    simp [cursorLines, Tsv.plain_escape, plain_decimal, plain_asStr]
  have set : (cursorLines cursor).foldlM
      (fun fields pair => cursorFormat.setField path fields pair.1 pair.2) cursorFormat.start = .ok
        ⟨cursor.schemaVersion, cursor.volumeId, cursor.mountId, cursor.scanEpoch,
          cursor.lastEventId, cursor.health⟩ := by
    rw [cursorLines]
    iterate 6 rw [foldlM_cons_ok (by simp [cursorFormat, setCursorField, Except.map]; rfl)]
    rfl
  rw [FseventsCursor.read, FseventsCursor.write,
    KeyedFormat.read_write (by decide) keys (absurd · Bool.false_ne_true) values set]
  simp only [cursorFormat, cursorOf, requiredKeyed, bind, Except.bind, ite_not]

/-- An empty last path is taken for none. -/
def ScanProgressCheckpoint.normalized (progress : ScanProgressCheckpoint) :
    ScanProgressCheckpoint :=
  { progress with lastPath := progress.lastPath.filter fun path => path ≠ [] }

theorem escape_eq_nil {text : Text} (empty : Tsv.escape text = []) : text = [] := by
  have back := Tsv.unescape_escape text
  rw [empty] at back
  exact (Except.ok.inj back).symm

theorem setProgressField_lastPath (path : Path) (fields : ProgressFields) (lastPath : Option Text) :
    setProgressField path fields "last_path".toList ((lastPath.map Tsv.escape).getD []) =
      .ok { fields with lastPath := some (lastPath.filter fun path => path ≠ []) } := by
  cases lastPath with
  | none => rfl
  | some lastPath =>
      by_cases empty : lastPath = []
      · subst empty
        rfl
      · rw [Option.filter_some, if_pos (decide_eq_true empty)]
        simp [setProgressField, Except.map, mt escape_eq_nil empty]

theorem setProgressField_completed (path : Path) (fields : ProgressFields) (completed : Bool) :
    setProgressField path fields "completed".toList
        (if completed then "true".toList else "false".toList) =
      .ok { fields with completed := some completed } := by
  cases completed <;> rfl

theorem read_write_progress (progress : ScanProgressCheckpoint) :
    ScanProgressCheckpoint.read path progress.write =
      if progress.schemaVersion = scanProgressSchemaVersion then .ok progress.normalized
      else .error (stateError path ("unsupported scan progress schema version " ++
        toString progress.schemaVersion.val)) := by
  have keys : ∀ key ∈ (progressLines progress).map Prod.fst, Plain key := by
    simp only [progressLines, map_cons, map_nil]
    decide
  have values : ∀ value ∈ (progressLines progress).map Prod.snd, Plain value := by
    have lastPath : Plain ((progress.lastPath.map Tsv.escape).getD []) := by
      cases progress.lastPath with
      | none => decide
      | some lastPath => exact Tsv.plain_escape lastPath
    have completed : Plain
        (if progress.completed then ['t', 'r', 'u', 'e'] else ['f', 'a', 'l', 's', 'e']) := by
      split <;> decide
    simp [progressLines, Tsv.plain_escape, plain_decimal, lastPath, completed]
  have set : (progressLines progress).foldlM
      (fun fields pair => progressFormat.setField path fields pair.1 pair.2)
        progressFormat.start = .ok
          ⟨progress.schemaVersion, progress.root, progress.recordsPath, progress.startedAtNanos,
            progress.updatedAtNanos, progress.scannedRecords, progress.inaccessibleRecords,
            progress.publishedSegments, progress.tombstones,
            some progress.normalized.lastPath, progress.completed⟩ := by
    rw [progressLines]
    iterate 9 rw [foldlM_cons_ok (by simp [progressFormat, setProgressField, Except.map]; rfl)]
    rw [foldlM_cons_ok (setProgressField_lastPath path _ _),
      foldlM_cons_ok (setProgressField_completed path _ _)]
    rfl
  rw [ScanProgressCheckpoint.read, ScanProgressCheckpoint.write,
    KeyedFormat.read_write (by decide) keys (absurd · Bool.false_ne_true) values set]
  simp only [progressFormat, progressOf, requiredKeyed, bind, Except.bind, ite_not]
  rfl

@[simp]
theorem parseJobNumber_decimal (number : U64) (field : String) :
    parseJobNumber (decimal number.val) field = .ok number := by
  simp only [parseJobNumber, Tsv.parse_decimal]

theorem read_write_job (spec : ContentIndexJobSpec) :
    ContentIndexJobSpec.read path spec.write = .ok spec := by
  have keys : ∀ key ∈ (jobLines spec).map Prod.fst, Plain key := by
    rw [jobLines]
    cases spec.ocrQueuePath <;> cases spec.ocrRecognitionCachePath <;> cases spec.volume
    all_goals
      simp only [Option.map_none, Option.map_some, Option.toList_none, Option.toList_some,
        append_nil, cons_append, nil_append, map_cons, map_nil]
      decide
  have values : ∀ value ∈ (jobLines spec).map Prod.snd, Plain value := by
    rw [jobLines]
    cases spec.ocrQueuePath <;> cases spec.ocrRecognitionCachePath <;> cases spec.volume <;>
      simp [Tsv.plain_escape, plain_decimal]
  have set : (jobLines spec).foldlM
      (fun fields pair => jobFormat.setField path fields pair.1 pair.2) jobFormat.start = .ok
        ⟨spec.root, spec.segmentDir, spec.recordsPath, spec.contentPath, spec.ocrQueuePath,
          spec.ocrRecognitionCachePath, spec.volume, spec.batchSize⟩ := by
    rw [jobLines]
    cases spec.ocrQueuePath <;> cases spec.ocrRecognitionCachePath <;> cases spec.volume
    all_goals
      simp only [Option.map_none, Option.map_some, Option.toList_none, Option.toList_some,
        append_nil, cons_append, nil_append]
      repeat rw [foldlM_cons_ok (by simp [jobFormat, setJobField, Except.map]; rfl)]
      rfl
  rw [ContentIndexJobSpec.read, ContentIndexJobSpec.write,
    KeyedFormat.read_write (by decide) keys (absurd · Bool.false_ne_true) values set]
  rfl

/-- Every file is read as it was written, but for blank reasons and an empty last path, which are
read as none, and for other schema versions, which are refused. A reason that is a dash alone is
left out. -/
theorem stateFiles_roundTrip :
    (∀ (unicode : Unicode) (path : Path) (state : IndexVolumeState), state.Undashed →
      readState unicode path (writeState unicode state) =
        if state.schemaVersion = indexStateSchemaVersion then .ok (state.normalized unicode)
        else .error (stateError path ("unsupported index state schema version " ++
          toString state.schemaVersion.val))) ∧
    (∀ (path : Path) (cursor : FseventsCursor),
      FseventsCursor.read path cursor.write =
        if cursor.schemaVersion = fseventsCursorSchemaVersion then .ok cursor
        else .error (stateError path ("unsupported FSEvents cursor schema version " ++
          toString cursor.schemaVersion.val))) ∧
    (∀ (path : Path) (progress : ScanProgressCheckpoint),
      ScanProgressCheckpoint.read path progress.write =
        if progress.schemaVersion = scanProgressSchemaVersion then .ok progress.normalized
        else .error (stateError path ("unsupported scan progress schema version " ++
          toString progress.schemaVersion.val))) ∧
    ∀ (path : Path) (spec : ContentIndexJobSpec),
      ContentIndexJobSpec.read path spec.write = .ok spec :=
  ⟨fun _ _ _ undashed => readState_writeState_eq undashed, fun _ => read_write_cursor,
    fun _ => read_write_progress, fun _ => read_write_job⟩

/-- A reason of blanks is lost, and the other values of the state come back. -/
theorem stateFiles_roundTrip_blank :
    let state : IndexVolumeState :=
      ⟨1, "/Volumes/Data".toList, "/tmp/data.gfmidx".toList, 7, "dev\t7".toList, 3, 20, 0,
        some "ready".toList, some "  ".toList, none, none, none, none, none, none⟩
    readState .ascii ["state"] (writeState .ascii state) =
      .ok { state with indexReason := none } := by
  refine (stateFiles_roundTrip.1 .ascii ["state"] _ ⟨?_, ?_, ?_, ?_, ?_, ?_, ?_, ?_⟩).trans ?_
  all_goals decide

/-- A state with a blank reason is not read as it was. -/
theorem readState_writeState_blank :
    let state : IndexVolumeState :=
      ⟨1, "/Volumes/Data".toList, "/tmp/data.gfmidx".toList, 7, "dev:7".toList, 3, 20, 0,
        some [], none, none, none, none, none, none, none⟩
    readState .ascii ["state"] (writeState .ascii state) ≠ .ok state := by
  intro state same
  rw [readState_writeState_eq (by constructor <;> decide)] at same
  revert same
  decide

end RoundTrip

end Gfm.Index

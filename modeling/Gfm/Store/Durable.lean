import Gfm.Lib.Programs
import Gfm.Types

/-!
# The checked atomic write

The bytes go to a temporary file beside the target, through a buffered writer, and a rename puts
them in place. The environment answers each call: a check of the control and a step of the file
system with an error or with success, and a write to the file also with the number of bytes that
it leaves. A write that a signal interrupts is made again, and only its last answer is seen.

A callback is the tree of its calls: after each answer it goes on as it likes, so it may pass an
error on or ignore it. A vectored write is a write of the joined parts.
-/

namespace Gfm.Store.Durable

open List Programs

abbrev Bytes := List UInt8

abbrev Disk := Path → Option Bytes

/-- The disk, the buffer of the writer, and the bytes that the writer took from its caller. -/
structure Writing where
  disk : Disk
  buffer : Bytes
  taken : Bytes

/-- The answer to a call: only one of the fields matters to each. -/
structure Choice where
  stop : Option GfmError
  fault : Option String
  /-- The number of bytes that a write to the file leaves. -/
  left : Nat

instance : Inhabited Choice := ⟨⟨none, none, 0⟩⟩

/-- A step whose error is the text of an I/O error. -/
abbrev Io := Program Choice Writing String

abbrev Task := Program Choice Writing GfmError

inductive Callback where
  | done
  | fail (error : GfmError)
  | write (bytes : Bytes) (next : Except String Nat → Callback)
  | writeAll (bytes : Bytes) (next : Except String Unit → Callback)
  | flush (next : Except String Unit → Callback)
  | check (next : Except GfmError Unit → Callback)

structure DurableCommit where
  path : Path
  temporary : Path
  bytes : Nat
  syncedFile : Bool
  syncedParent : Bool
  deriving DecidableEq

section Calls

variable {α : Type}

def orIo (path : Path) (step : Io α) : Task α :=
  step.handle .done fun message => .fail (.io path message)

def checkControl : Task Unit :=
  .ask fun choice =>
    match choice.stop with
    | some error => .fail error
    | none => .done ()

/-- A step of the file system: it fails, or changes the disk. -/
def step (change : Disk → Disk) : Io Unit :=
  .ask fun choice =>
    match choice.fault with
    | some message => .fail message
    | none => .observe fun writing =>
        .install { writing with disk := change writing.disk } (.done ())

def created (path : Path) (disk : Disk) : Disk := Function.update disk path (some [])

def appended (path : Path) (bytes : Bytes) (disk : Disk) : Disk :=
  Function.update disk path (some ((disk path).getD [] ++ bytes))

def renamed (source target : Path) (disk : Disk) : Disk :=
  Function.update (Function.update disk target (disk source)) source none

/-- One write to the file, and how many of the bytes it took. -/
def fileWrite (path : Path) (bytes : Bytes) : Io Nat :=
  .ask fun choice =>
    match choice.fault with
    | some message => .fail message
    | none => .observe fun writing =>
        let count := bytes.length - choice.left
        .install { writing with disk := appended path (bytes.take count) writing.disk }
          (.done count)

end Calls

section Writer

def capacity : Nat := 8 * 1024

/-- Every round that does not fail writes a byte. -/
def flushRounds (path : Path) : Nat → Io Unit
  | 0 => .done ()
  | rounds + 1 => .observe fun writing =>
      if writing.buffer = [] then .done ()
      else do
        let count ← fileWrite path writing.buffer
        if count = 0 then .fail "failed to write the buffered data"
        else .observe fun written =>
          .install { written with buffer := written.buffer.drop count } (flushRounds path rounds)

def flushBuf (path : Path) : Io Unit :=
  .observe fun writing => flushRounds path writing.buffer.length

def writeToBuffer (bytes : Bytes) : Io Unit :=
  .observe fun writing =>
    .install { writing with buffer := writing.buffer ++ bytes, taken := writing.taken ++ bytes }
      (.done ())

/-- A write past the buffer. -/
def writeThrough (path : Path) (bytes : Bytes) : Io Nat := do
  let count ← fileWrite path bytes
  .observe fun writing =>
    .install { writing with taken := writing.taken ++ bytes.take count } (.done count)

def writeThroughAll (path : Path) : Nat → Bytes → Io Unit
  | 0, _ => .done ()
  | rounds + 1, bytes =>
      if bytes = [] then .done ()
      else do
        let count ← writeThrough path bytes
        if count = 0 then .fail "failed to write whole buffer"
        else writeThroughAll path rounds (bytes.drop count)

/-- Where the bytes do not fit into the buffer, it is written out first. -/
def makeRoom (path : Path) (bytes : Bytes) : Io Unit :=
  .observe fun writing =>
    if capacity - writing.buffer.length < bytes.length then flushBuf path else .done ()

def bufWrite (path : Path) (bytes : Bytes) : Io Nat :=
  .observe fun writing =>
    if bytes.length < capacity - writing.buffer.length then do
      writeToBuffer bytes
      return bytes.length
    else do
      makeRoom path bytes
      if capacity ≤ bytes.length then writeThrough path bytes
      else do
        writeToBuffer bytes
        return bytes.length

def bufWriteAll (path : Path) (bytes : Bytes) : Io Unit :=
  .observe fun writing =>
    if bytes.length < capacity - writing.buffer.length then writeToBuffer bytes
    else do
      makeRoom path bytes
      if capacity ≤ bytes.length then writeThroughAll path bytes.length bytes
      else writeToBuffer bytes

/-- The writer writes its buffer out when it is dropped, and no one sees the error. -/
def dropWriter (path : Path) : Task Unit :=
  (flushBuf path).handle .done fun _ => .done ()

end Writer

section Write

/-- The name of the target, unless the path ends at the root or in `..`. -/
def fileName (path : Path) : Option Name := path.fileName.filter fun name => name ≠ ".."

def withFileName (path : Path) (name : Name) : Path :=
  if (fileName path).isSome then path.dropLast ++ [name] else path ++ [name]

/-- The extension of the name `.{file_name}.{process}.tmp` gives way to `{nonce}.tmp`. -/
def temporaryPath (process nonce : Nat) (path : Path) : Path :=
  withFileName path
    ("." ++ (fileName path).getD "store" ++ "." ++ toString process ++ "." ++ toString nonce ++
      ".tmp")

def runCallback (path : Path) : Callback → Task Unit
  | .done => .done ()
  | .fail error => .fail error
  | .write bytes next => (bufWrite path bytes).handle
      (fun count => runCallback path (next (.ok count)))
      (fun message => runCallback path (next (.error message)))
  | .writeAll bytes next => (bufWriteAll path bytes).handle
      (fun _ => runCallback path (next (.ok ())))
      (fun message => runCallback path (next (.error message)))
  | .flush next => (flushBuf path).handle
      (fun _ => runCallback path (next (.ok ())))
      (fun message => runCallback path (next (.error message)))
  | .check next => checkControl.handle
      (fun _ => runCallback path (next (.ok ())))
      (fun error => runCallback path (next (.error error)))

/-- The length that the metadata of the file give. -/
def fileLength (path : Path) : Io Nat := do
  step id
  .observe fun writing => .done ((writing.disk path).getD []).length

/-- Whether the directory could be opened and synchronised; it never fails. -/
def syncParent : Task Bool := (step id).handle (fun _ => .done true) fun _ => .done false

/-- The writer at work, from its creation to where it is dropped. -/
def fillTemporary (temporary : Path) (write : Callback) : Task Nat := do
  runCallback temporary write
  checkControl
  orIo temporary (flushBuf temporary)
  checkControl
  orIo temporary (step id)
  checkControl
  orIo temporary (fileLength temporary)

def writeAndRename (path temporary : Path) (write : Callback) : Task DurableCommit := do
  orIo temporary (step (created temporary))
  checkControl
  let filled ← (fillTemporary temporary write).attempt
  dropWriter temporary
  match filled with
  | .error error => .fail error
  | .ok bytes => do
      orIo path (step (renamed temporary path))
      let syncedParent ← syncParent
      return ⟨path, temporary, bytes, true, syncedParent⟩

def removeFile (path : Path) : Task Unit :=
  .observe fun writing =>
    .install { writing with disk := Function.update writing.disk path none } (.done ())

def atomicWriteChecked (process nonce : Nat) (path : Path) (write : Callback) :
    Task DurableCommit := do
  checkControl
  let temporary := temporaryPath process nonce path
  (writeAndRename path temporary write).handle .done fun error => do
    removeFile temporary
    .fail error

end Write

/-- Along some answers the callback succeeds, with these bytes taken from it. -/
inductive Callback.Writes : Callback → Bytes → Prop where
  | done : Writes .done []
  | write {bytes rest : Bytes} {next : Except String Nat → Callback} (count : Nat)
      (writes : Writes (next (.ok count)) rest) : Writes (.write bytes next)
        (bytes.take count ++ rest)
  | write_error {bytes rest : Bytes} {next : Except String Nat → Callback} (message : String)
      (writes : Writes (next (.error message)) rest) : Writes (.write bytes next) rest
  | writeAll {bytes rest : Bytes} {next : Except String Unit → Callback}
      (writes : Writes (next (.ok ())) rest) : Writes (.writeAll bytes next) (bytes ++ rest)
  | writeAll_error {bytes rest : Bytes} {next : Except String Unit → Callback} (message : String)
      (count : Nat) (writes : Writes (next (.error message)) rest) :
      Writes (.writeAll bytes next) (bytes.take count ++ rest)
  | flush {rest : Bytes} {next : Except String Unit → Callback} (answer : Except String Unit)
      (writes : Writes (next answer) rest) : Writes (.flush next) rest
  | check {rest : Bytes} {next : Except GfmError Unit → Callback} (answer : Except GfmError Unit)
      (writes : Writes (next answer) rest) : Writes (.check next) rest

section Atomicity

variable {α : Type} {temporary path : Path} {before : Disk} {writing : Writing}
  {taken bytes : Bytes}

/-- No run dies, and where one fails this is left. -/
def Halts {Error : Type} (Left : Writing → Prop) : Option Error → Writing → Prop
  | some _, writing => Left writing
  | none, _ => False

/-- The temporary file and the buffer hold what the writer took; every other file is as before. -/
structure Faithful (temporary : Path) (before : Disk) (taken : Bytes) (writing : Writing) :
    Prop where
  taken_eq : writing.taken = taken
  written : ∃ file, writing.disk temporary = some file ∧ file ++ writing.buffer = taken
  others : ∀ other, other ≠ temporary → writing.disk other = before other

/-- The writer has taken something, if not all. -/
def Underway (temporary : Path) (before : Disk) (writing : Writing) : Prop :=
  ∃ taken, Faithful temporary before taken writing

namespace Faithful

theorem underway (faithful : Faithful temporary before taken writing) :
    Underway temporary before writing :=
  ⟨taken, faithful⟩

/-- Nothing more was taken. -/
theorem nothing (faithful : Faithful temporary before taken writing) :
    ∃ count, Faithful temporary before (taken ++ bytes.take count) writing :=
  ⟨0, by simpa using faithful⟩

theorem others_appended (faithful : Faithful temporary before taken writing) (bytes : Bytes)
    {other : Path} (apart : other ≠ temporary) :
    appended temporary bytes writing.disk other = before other := by
  rw [appended, Function.update_of_ne apart]
  exact faithful.others other apart

/-- A write of the buffer moves bytes from the buffer to the file. -/
theorem flushed (faithful : Faithful temporary before taken writing) (count : Nat) :
    Faithful temporary before taken
      { writing with
        disk := appended temporary (writing.buffer.take count) writing.disk
        buffer := writing.buffer.drop count } where
  taken_eq := faithful.taken_eq
  written := by
    rcases faithful.written with ⟨file, stored, whole⟩
    refine ⟨file ++ writing.buffer.take count, ?_, ?_⟩
    · simp [appended, stored]
    · rw [append_assoc, take_append_drop, whole]
  others other apart := faithful.others_appended _ apart

theorem buffered (faithful : Faithful temporary before taken writing) (bytes : Bytes) :
    Faithful temporary before (taken ++ bytes)
      { writing with buffer := writing.buffer ++ bytes, taken := writing.taken ++ bytes } where
  taken_eq := by rw [faithful.taken_eq]
  written := by
    rcases faithful.written with ⟨file, stored, whole⟩
    exact ⟨file, stored, by rw [← append_assoc, whole]⟩
  others := faithful.others

/-- Past the empty buffer the bytes come after all that was taken. -/
theorem through (faithful : Faithful temporary before taken writing)
    (empty : writing.buffer = []) (bytes : Bytes) :
    Faithful temporary before (taken ++ bytes)
      { writing with
        disk := appended temporary bytes writing.disk
        taken := writing.taken ++ bytes } where
  taken_eq := by rw [faithful.taken_eq]
  written := by
    rcases faithful.written with ⟨file, stored, whole⟩
    rw [empty, append_nil] at whole
    refine ⟨file ++ bytes, ?_, ?_⟩
    · simp [appended, stored]
    · simp [empty, whole]
  others other apart := faithful.others_appended bytes apart

end Faithful

section Rules

variable {Done : α → Writing → Prop} {Finished : Unit → Writing → Prop} {Left : Writing → Prop}

/-- Every answer of the environment is possible. -/
abbrev Always {Error : Type} (program : Program Choice Writing Error α)
    (Done : α → Writing → Prop) (Left : Writing → Prop) (writing : Writing) : Prop :=
  Meets (fun _ => True) program Done (Halts Left) writing

theorem checkControl_meets (stopped : Left writing) (passed : Finished () writing) :
    Always checkControl Finished Left writing := by
  rintro ⟨stop, fault, left⟩ _
  cases stop with
  | some error => exact stopped
  | none => exact passed

theorem step_meets {change : Disk → Disk} (failed : Left writing)
    (changed : Finished () { writing with disk := change writing.disk }) :
    Always (step change) Finished Left writing := by
  rintro ⟨stop, fault, left⟩ _
  cases fault with
  | some message => exact failed
  | none => exact changed

theorem fileWrite_meets {Done : Nat → Writing → Prop} (failed : Left writing)
    (wrote : ∀ count, Done count
      { writing with disk := appended temporary (bytes.take count) writing.disk }) :
    Always (fileWrite temporary bytes) Done Left writing := by
  rintro ⟨stop, fault, left⟩ _
  cases fault with
  | some message => exact failed
  | none => exact wrote (bytes.length - left)

theorem orIo_meets {step : Io α} (meets : Always step Done Left writing) :
    Always (orIo path step) Done Left writing :=
  meets.handle (fun _ _ done => done) (fun _ _ left => left) fun _ died => died

end Rules

theorem flushRounds_meets {rounds : Nat} (faithful : Faithful temporary before taken writing)
    (enough : writing.buffer.length ≤ rounds) :
    Always (flushRounds temporary rounds)
      (fun _ after => Faithful temporary before taken after ∧ after.buffer = [])
      (Faithful temporary before taken) writing := by
  induction rounds generalizing writing with
  | zero => exact ⟨faithful, length_eq_zero_iff.mp (Nat.le_zero.mp enough)⟩
  | succ rounds ih =>
      change Meets _ (if writing.buffer = [] then _ else _) _ _ _
      split
      case isTrue empty => exact ⟨faithful, empty⟩
      case isFalse nonempty =>
        refine Meets.bind_iff.mpr (fileWrite_meets faithful fun count => ?_)
        split
        case isTrue nothing =>
          have same := faithful.flushed 0
          rw [drop_zero] at same
          rw [nothing]
          exact same
        case isFalse something =>
          apply ih (faithful.flushed count)
          simp only [length_drop]
          omega

theorem flushBuf_meets (faithful : Faithful temporary before taken writing) :
    Always (flushBuf temporary)
      (fun _ after => Faithful temporary before taken after ∧ after.buffer = [])
      (Faithful temporary before taken) writing :=
  flushRounds_meets faithful le_rfl

theorem makeRoom_meets (faithful : Faithful temporary before taken writing) :
    Always (makeRoom temporary bytes)
      (fun _ after => Faithful temporary before taken after ∧
        (capacity ≤ bytes.length → after.buffer = []))
      (Faithful temporary before taken) writing := by
  change Meets _ (if capacity - writing.buffer.length < bytes.length then _ else _) _ _ _
  split
  case isTrue short =>
    exact (flushBuf_meets faithful).mono (fun _ _ done => ⟨done.1, fun _ => done.2⟩)
      fun _ _ left => left
  case isFalse room =>
    -- a buffer with room for a full one is empty
    refine ⟨faithful, fun full => length_eq_zero_iff.mp ?_⟩
    have : 0 < capacity := by decide
    omega

theorem writeThrough_meets (faithful : Faithful temporary before taken writing)
    (empty : writing.buffer = []) :
    Always (writeThrough temporary bytes)
      (fun count after => Faithful temporary before (taken ++ bytes.take count) after ∧
        after.buffer = [])
      (Faithful temporary before taken) writing := by
  refine Meets.bind_iff.mpr (fileWrite_meets faithful fun count => ?_)
  exact ⟨faithful.through empty (bytes.take count), empty⟩

theorem writeThroughAll_meets {rounds : Nat} (faithful : Faithful temporary before taken writing)
    (empty : writing.buffer = []) (enough : bytes.length ≤ rounds) :
    Always (writeThroughAll temporary rounds bytes)
      (fun _ => Faithful temporary before (taken ++ bytes))
      (fun after => ∃ count, Faithful temporary before (taken ++ bytes.take count) after)
      writing := by
  induction rounds generalizing writing taken bytes with
  | zero =>
      have nothing : bytes = [] := length_eq_zero_iff.mp (Nat.le_zero.mp enough)
      rw [nothing, append_nil]
      exact faithful
  | succ rounds ih =>
      change Meets _ (if bytes = [] then _ else _) _ _ _
      split
      case isTrue nothing =>
        rw [nothing, append_nil]
        exact faithful
      case isFalse something =>
        refine (writeThrough_meets faithful empty).bind (fun count after wrote => ?_) ?_
        · split
          case isTrue nothing => exact ⟨count, wrote.1⟩
          case isFalse progress =>
            have shorter : (bytes.drop count).length ≤ rounds := by
              rw [length_drop]
              omega
            refine (ih wrote.1 wrote.2 shorter).mono (fun _ after done => ?_) ?_
            · rw [append_assoc, take_append_drop] at done
              exact done
            · intro error after left
              cases error with
              | none => exact left
              | some error =>
                  rcases left with ⟨more, faithful⟩
                  refine ⟨count + more, ?_⟩
                  rw [append_assoc, ← take_add] at faithful
                  exact faithful
        · intro error after left
          cases error with
          | none => exact left
          | some error => exact Faithful.nothing left

theorem bufWrite_meets (faithful : Faithful temporary before taken writing) :
    Always (bufWrite temporary bytes)
      (fun count => Faithful temporary before (taken ++ bytes.take count))
      (Faithful temporary before taken) writing := by
  have kept : ∀ {writing : Writing}, Faithful temporary before taken writing →
      Always (do writeToBuffer bytes; return bytes.length)
        (fun count => Faithful temporary before (taken ++ bytes.take count))
        (Faithful temporary before taken) writing := by
    intro writing faithful
    have whole : Faithful temporary before (taken ++ bytes.take bytes.length)
        { writing with buffer := writing.buffer ++ bytes, taken := writing.taken ++ bytes } := by
      rw [take_length]
      exact faithful.buffered bytes
    exact whole
  change Meets _ (if bytes.length < capacity - writing.buffer.length then _ else _) _ _ _
  split
  case isTrue fits => exact kept faithful
  case isFalse exceeds =>
    refine (makeRoom_meets faithful).bind (fun _ after room => ?_) fun _ _ left => left
    split
    case isTrue full =>
      exact (writeThrough_meets room.1 (room.2 full)).mono (fun _ _ done => done.1)
        fun _ _ left => left
    case isFalse small => exact kept room.1

theorem bufWriteAll_meets (faithful : Faithful temporary before taken writing) :
    Always (bufWriteAll temporary bytes)
      (fun _ => Faithful temporary before (taken ++ bytes))
      (fun after => ∃ count, Faithful temporary before (taken ++ bytes.take count) after)
      writing := by
  change Meets _ (if bytes.length < capacity - writing.buffer.length then _ else _) _ _ _
  split
  case isTrue fits => exact faithful.buffered bytes
  case isFalse exceeds =>
    refine (makeRoom_meets faithful).bind (fun _ after room => ?_) ?_
    · split
      case isTrue full => exact writeThroughAll_meets room.1 (room.2 full) le_rfl
      case isFalse small => exact room.1.buffered bytes
    · intro error after left
      cases error with
      | none => exact left
      | some error => exact Faithful.nothing left

/-- What a successful callback leaves is one of the texts that it writes. -/
theorem runCallback_meets (callback : Callback)
    (faithful : Faithful temporary before taken writing) :
    Always (runCallback temporary callback)
      (fun _ after => ∃ bytes, callback.Writes bytes ∧
        Faithful temporary before (taken ++ bytes) after)
      (Underway temporary before) writing := by
  induction callback generalizing writing taken with
  | done => exact ⟨[], .done, by simpa using faithful⟩
  | fail error => exact faithful.underway
  | write bytes next ih =>
      refine (bufWrite_meets faithful).handle (fun count after wrote => ?_)
        (fun message after left => ?_) fun _ died => died
      · refine (ih (.ok count) wrote).mono (fun _ after done => ?_) fun _ _ left => left
        rcases done with ⟨rest, writes, faithful⟩
        rw [append_assoc] at faithful
        exact ⟨_, .write count writes, faithful⟩
      · refine (ih (.error message) left).mono (fun _ after done => ?_) fun _ _ left => left
        rcases done with ⟨rest, writes, faithful⟩
        exact ⟨rest, .write_error message writes, faithful⟩
  | writeAll bytes next ih =>
      refine (bufWriteAll_meets faithful).handle (fun _ after wrote => ?_)
        (fun message after left => ?_) fun _ died => died
      · refine (ih (.ok ()) wrote).mono (fun _ after done => ?_) fun _ _ left => left
        rcases done with ⟨rest, writes, faithful⟩
        rw [append_assoc] at faithful
        exact ⟨_, .writeAll writes, faithful⟩
      · rcases left with ⟨count, left⟩
        refine (ih (.error message) left).mono (fun _ after done => ?_) fun _ _ left => left
        rcases done with ⟨rest, writes, faithful⟩
        rw [append_assoc] at faithful
        exact ⟨_, .writeAll_error message count writes, faithful⟩
  | flush next ih =>
      refine (flushBuf_meets faithful).handle (fun _ after flushed => ?_)
        (fun message after left => ?_) fun _ died => died
      · refine (ih (.ok ()) flushed.1).mono (fun _ after done => ?_) fun _ _ left => left
        rcases done with ⟨rest, writes, faithful⟩
        exact ⟨rest, .flush _ writes, faithful⟩
      · refine (ih (.error message) left).mono (fun _ after done => ?_) fun _ _ left => left
        rcases done with ⟨rest, writes, faithful⟩
        exact ⟨rest, .flush _ writes, faithful⟩
  | check next ih =>
      have unchanged : ∀ answer, Always (runCallback temporary (next answer))
          (fun _ after => ∃ bytes, (Callback.check next).Writes bytes ∧
            Faithful temporary before (taken ++ bytes) after)
          (Underway temporary before) writing := by
        intro answer
        refine (ih answer faithful).mono (fun _ after done => ?_) fun _ _ left => left
        rcases done with ⟨rest, writes, faithful⟩
        exact ⟨rest, .check answer writes, faithful⟩
      rintro ⟨stop, fault, left⟩ _
      cases stop with
      | some error => exact unchanged (.error error)
      | none => exact unchanged (.ok ())

/-- The whole of the callback's bytes is in the file, and its length is reported. -/
theorem fillTemporary_meets (write : Callback) (faithful : Faithful temporary before [] writing) :
    Always (fillTemporary temporary write)
      (fun count after => write.Writes after.taken ∧ after.buffer = [] ∧
        Faithful temporary before after.taken after ∧ count = after.taken.length)
      (Underway temporary before) writing := by
  refine (runCallback_meets write faithful).bind (fun _ filled wrote => ?_) fun _ _ left => left
  rcases wrote with ⟨bytes, writes, faithful⟩
  rw [nil_append] at faithful
  refine Meets.bind_iff.mpr (checkControl_meets faithful.underway ?_)
  refine (orIo_meets (flushBuf_meets faithful)).bind (fun _ after flushed => ?_) ?_
  · rcases flushed with ⟨faithful, empty⟩
    refine Meets.bind_iff.mpr (checkControl_meets faithful.underway ?_)
    refine Meets.bind_iff.mpr (orIo_meets (step_meets faithful.underway ?_))
    refine Meets.bind_iff.mpr (checkControl_meets faithful.underway ?_)
    refine orIo_meets (Meets.bind_iff.mpr (step_meets faithful.underway ?_))
    obtain rfl := faithful.taken_eq
    rcases faithful.written with ⟨file, stored, whole⟩
    rw [empty, append_nil] at whole
    refine ⟨writes, empty, faithful, ?_⟩
    simp [stored, whole]
  · intro error after left
    cases error with
    | none => exact left
    | some error => exact Faithful.underway left

theorem dropWriter_empty (empty : writing.buffer = []) :
    Always (dropWriter temporary) (fun _ after => after = writing) (fun _ => False) writing := by
  change Meets _ ((flushRounds temporary writing.buffer.length).handle _ _) _ _ _
  rw [empty]
  rfl

theorem dropWriter_underway (underway : Underway temporary before writing) :
    Always (dropWriter temporary) (fun _ => Underway temporary before) (fun _ => False)
      writing := by
  rcases underway with ⟨taken, faithful⟩
  exact (flushBuf_meets faithful).handle (fun _ _ done => done.1.underway)
    (fun _ _ left => left.underway) fun _ died => died

/-- The file under the target's name holds the callback's bytes, and nothing else has changed. -/
structure Committed (path temporary : Path) (before : Disk) (write : Callback)
    (commit : DurableCommit) (after : Writing) : Prop where
  writes : write.Writes after.taken
  target : after.disk path = some after.taken
  temporary_gone : after.disk temporary = none
  others : ∀ other, other ≠ path → other ≠ temporary → after.disk other = before other
  path_eq : commit.path = path
  temporary_eq : commit.temporary = temporary
  bytes_eq : commit.bytes = after.taken.length
  synced : commit.syncedFile = true

theorem committed_renamed {write : Callback} {after : Writing} {syncedParent : Bool}
    (apart : path ≠ temporary) (writes : write.Writes after.taken) (empty : after.buffer = [])
    (faithful : Faithful temporary before after.taken after) :
    Committed path temporary before write
      ⟨path, temporary, after.taken.length, true, syncedParent⟩
      { after with disk := renamed temporary path after.disk } where
  writes := writes
  target := by
    rcases faithful.written with ⟨file, stored, whole⟩
    rw [empty, append_nil] at whole
    simp [renamed, Function.update_of_ne apart, stored, whole]
  temporary_gone := by simp [renamed]
  others other notPath notTemporary := by
    change renamed temporary path after.disk other = before other
    rw [renamed, Function.update_of_ne notTemporary, Function.update_of_ne notPath]
    exact faithful.others other notTemporary
  path_eq := rfl
  temporary_eq := rfl
  bytes_eq := rfl
  synced := rfl

theorem faithful_created (disk : Disk) :
    Faithful temporary disk [] ⟨created temporary disk, [], []⟩ where
  taken_eq := rfl
  written := ⟨[], by simp [created], rfl⟩
  others other apart := by simp [created, Function.update_of_ne apart]

theorem writeAndRename_meets (apart : path ≠ temporary) (write : Callback) (disk : Disk) :
    Always (writeAndRename path temporary write) (Committed path temporary disk write)
      (fun after => ∀ other, other ≠ temporary → after.disk other = disk other)
      ⟨disk, [], []⟩ := by
  have left : ∀ {after : Writing}, Underway temporary disk after →
      ∀ other, other ≠ temporary → after.disk other = disk other := by
    intro after underway
    rcases underway with ⟨taken, faithful⟩
    exact faithful.others
  have empty : Faithful temporary disk [] ⟨created temporary disk, [], []⟩ := faithful_created disk
  refine Meets.bind_iff.mpr (orIo_meets (step_meets (fun _ _ => rfl) ?_))
  refine Meets.bind_iff.mpr (checkControl_meets empty.others ?_)
  refine Meets.bind_iff.mpr (Meets.attempt_iff.mpr ((fillTemporary_meets write empty).mono ?_ ?_))
  · intro count filled done
    rcases done with ⟨writes, flushed, faithful, length⟩
    refine (dropWriter_empty flushed).bind (fun _ after same => ?_) fun error after stopped => ?_
    · rw [same, length]
      refine Meets.bind_iff.mpr (orIo_meets (step_meets faithful.others ?_))
      refine Meets.bind_iff.mpr ?_
      rintro ⟨stop, fault, left⟩ _
      cases fault with
      | some message => exact committed_renamed apart writes flushed faithful
      | none => exact committed_renamed apart writes flushed faithful
    · cases error with
      | none => exact stopped
      | some error => exact stopped.elim
  · intro error filled stopped
    cases error with
    | none => exact stopped
    | some error =>
        refine (dropWriter_underway stopped).bind (fun _ after underway => left underway) ?_
        intro error after stopped
        cases error with
        | none => exact stopped
        | some error => exact stopped.elim

/-- The temporary path is a longer name than the target's, or a path below the target. -/
theorem temporaryPath_ne (process nonce : Nat) (path : Path) :
    path ≠ temporaryPath process nonce path := by
  intro same
  rw [temporaryPath, withFileName] at same
  split at same
  case isTrue named =>
    rcases Option.isSome_iff_exists.mp named with ⟨name, found⟩
    have last := congrArg List.getLast? same
    have ended : path.getLast? = some name := (Option.filter_eq_some_iff.mp found).1
    rw [ended, getLast?_concat, Option.some_inj, found, Option.getD_some] at last
    have longer := congrArg String.length last
    have dot : ".".length = 1 := rfl
    simp only [String.length_append, dot] at longer
    omega
  case isFalse =>
    have longer := congrArg List.length same
    simp at longer

/-- Nothing but the temporary path may have changed, and nothing is left there. -/
structure Unwritten (path temporary : Path) (before : Disk) (after : Writing) : Prop where
  target : after.disk path = before path
  others : ∀ other, other ≠ temporary → after.disk other = before other
  temporary_gone : after.disk temporary = none ∨ after.disk = before

theorem atomicWriteChecked_meets (process nonce : Nat) (path : Path) (write : Callback)
    (disk : Disk) :
    Always (atomicWriteChecked process nonce path write)
      (Committed path (temporaryPath process nonce path) disk write)
      (Unwritten path (temporaryPath process nonce path) disk) ⟨disk, [], []⟩ := by
  have apart := temporaryPath_ne process nonce path
  refine Meets.bind_iff.mpr (checkControl_meets ⟨rfl, fun _ _ => rfl, .inr rfl⟩ ?_)
  refine (writeAndRename_meets apart write disk).handle (fun _ _ done => done)
    (fun error after others => ?_) fun _ died => died
  refine ⟨?_, fun other apart => ?_, .inl ?_⟩
  · simp [Function.update_of_ne apart, others path apart]
  · simp [Function.update_of_ne apart, others other apart]
  · simp

/-- Every run ends in success, with the target holding the bytes that the callback wrote, or in
an error, with the target as it was and no temporary file. -/
theorem atomicWriteChecked_atomic (process nonce : Nat) (path : Path) (write : Callback)
    (disk : Disk) (script : List Choice) :
    ∃ after : Writing,
      (∃ commit, (atomicWriteChecked process nonce path write).run script ⟨disk, [], []⟩ =
        (.value commit, after) ∧
        Committed path (temporaryPath process nonce path) disk write commit after) ∨
      (∃ error, (atomicWriteChecked process nonce path write).run script ⟨disk, [], []⟩ =
        (.failed error, after) ∧
        Unwritten path (temporaryPath process nonce path) disk after) := by
  have meets := (atomicWriteChecked_meets process nonce path write disk).run trivial script
    fun _ _ => trivial
  rcases ran : (atomicWriteChecked process nonce path write).run script ⟨disk, [], []⟩
    with ⟨outcome, after⟩
  rw [ran] at meets
  cases outcome with
  | value commit => exact ⟨after, .inl ⟨commit, rfl, meets⟩⟩
  | failed error => exact ⟨after, .inr ⟨error, rfl, meets⟩⟩
  | died => exact meets.elim

end Atomicity

end Gfm.Store.Durable

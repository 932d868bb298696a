import Gfm.Jobs.Journal
import Gfm.Jobs.Stores
import Gfm.Lib.Commits

/-!
# The file of the job progress

An update of the progress store reads the file line by line, changes the snapshots and writes them
to a temporary file, which a rename puts in the place of the old one. The control is asked before
and after each of these steps. Here the state is the content of the file, the steps of the file
system succeed, and the text for the temporary file is kept until the rename.
-/

namespace Gfm.Jobs.ProgressFile

open Interruptible LineLog

section Names

def priorityName : Priority → Text
  | .background => "background".toList
  | .normal => "normal".toList
  | .visible => "visible".toList
  | .interactive => "interactive".toList

def className : JobClass → Text
  | .foreground => "foreground".toList
  | .visible => "visible".toList
  | .background => "background".toList
  | .maintenance => "maintenance".toList
  | .repair => "repair".toList

def stateName : JobProgressState → Text
  | .planned => "planned".toList
  | .running => "running".toList
  | .paused => "paused".toList
  | .completed => "completed".toList
  | .cancelled => "cancelled".toList
  | .failed => "failed".toList

def parsePriority (value : Text) : Option Priority :=
  [.background, .normal, .visible, .interactive].find? fun priority => priorityName priority = value

def parseClass (value : Text) : Option JobClass :=
  [.foreground, .visible, .background, .maintenance, .repair].find? fun jobClass =>
    className jobClass = value

def parseState (value : Text) : Option JobProgressState :=
  [.planned, .running, .paused, .completed, .cancelled, .failed].find? fun state =>
    stateName state = value

def restorable : JobProgressState → Bool
  | .planned | .running | .paused => true
  | .completed | .cancelled | .failed => false

end Names

section Lines

def magic : Text := "gfm-job-progress-v1".toList

def asTsv (snapshot : JobProgressSnapshot) : Text :=
  Tsv.join ["progress".toList, Tsv.decimal snapshot.id.value, className snapshot.jobClass,
    priorityName snapshot.priority, Tsv.escape snapshot.label.toList,
    (snapshot.volume.map fun volume => Tsv.decimal volume.value).getD ['-'],
    stateName snapshot.state, Tsv.decimal snapshot.completedUnits,
    Tsv.decimal snapshot.totalUnits, Tsv.escape snapshot.detail.toList,
    Tsv.decimal snapshot.updatedMs]

def orInvalid {α : Type} (label : String) (field : Text) : Option α → Except String α
  | some value => .ok value
  | none => .error ("invalid " ++ label ++ " " ++ Tsv.quoted field)

def parseVolume (field : Text) : Except String (Option VolumeId) :=
  if field = ['-'] then .ok none
  else (Tsv.parseNumber (2 ^ 64) "progress volume id" field).map fun value => some ⟨value⟩

def parseSnapshot (line : Text) : Except String JobProgressSnapshot :=
  match Tsv.fields line with
  | [kind, id, jobClass, priority, label, volume, state, completed, total, detail, updated] => do
      if kind ≠ "progress".toList then
        throw ("expected progress row, got " ++ Tsv.quoted kind)
      let id ← Tsv.parseNumber (2 ^ 64) "progress job id" id
      let jobClass ← orInvalid "job class" jobClass (parseClass jobClass)
      let priority ← orInvalid "priority" priority (parsePriority priority)
      let label ← Tsv.unescapeText label
      let volume ← parseVolume volume
      let state ← orInvalid "progress state" state (parseState state)
      let completed ← Tsv.parseNumber (2 ^ 64) "completed units" completed
      let total ← Tsv.parseNumber (2 ^ 64) "total units" total
      let detail ← Tsv.unescapeText detail
      let updated ← Tsv.parseNumber (2 ^ 64) "updated ms" updated
      return ⟨⟨id⟩, jobClass, priority, String.ofList label, volume, state, completed, total,
        String.ofList detail, updated⟩
  | parts => .error ("expected 11 fields, got " ++ toString parts.length)

def decodeLine (path : Path) (line : Bytes) : Except GfmError Text :=
  match decodeText line with
  | some text => .ok text
  | none => .error (.io path "stream did not contain valid UTF-8")

def parseRow (path : Path) (number : Nat) (line : Text) : Except GfmError JobProgressSnapshot :=
  (parseSnapshot line).mapError fun reason =>
    .format (path.display ++ " line " ++ toString number ++ ": " ++ reason)

def checkHeader (path : Path) (header : Text) : Except GfmError Unit :=
  if header = magic then .ok ()
  else .error (.format ("unsupported job progress header " ++ Tsv.quoted header ++ " in " ++
    path.display))

end Lines

section Store

variable (control : Control GfmError) (path : Path)

/-- A program of the store, over the content of its file. -/
abbrev Update := Checked GfmError (Option Bytes)

def readRowsChecked : Nat → List Bytes → Update (List JobProgressSnapshot)
  | _, [] => return []
  | number, line :: rest => do
      check control
      let text ← settle (decodeLine path line)
      check control
      let snapshot ← settle (parseRow path number text)
      let snapshots ← readRowsChecked (number + 1) rest
      return snapshot :: snapshots

/-- The lines of the file: the header, and a snapshot on each of the others. -/
def readLinesChecked : List Bytes → Update (List JobProgressSnapshot)
  | [] => settle (.error (.format ("empty job progress store " ++ path.display)))
  | header :: rows => do
      let header ← settle (decodeLine path header)
      check control
      settle (checkHeader path header)
      let snapshots ← readRowsChecked control path 2 rows
      check control
      return snapshots

def readChecked : Update (List JobProgressSnapshot) := do
  check control
  let content ← observe
  match content with
  | none => return []
  | some content => do
      check control
      check control
      readLinesChecked control path (lines content)

def line (text : Text) : Bytes := encodeText text ++ [newline]

def writeLinesChecked : List Text → Update Bytes
  | [] => return []
  | text :: rest => do
      check control
      check control
      let written ← writeLinesChecked rest
      return line text ++ written

def writeAllChecked (snapshots : List JobProgressSnapshot) : Update PUnit := do
  check control
  check control
  check control
  let written ← writeLinesChecked control (magic :: snapshots.map asTsv)
  check control
  check control
  check control
  install (some written)

def sortById (snapshots : List JobProgressSnapshot) : List JobProgressSnapshot :=
  snapshots.insertionSort fun left right => left.id.value ≤ right.id.value

def upsertChecked (snapshot : JobProgressSnapshot) : Update Bool := do
  let snapshots ← readChecked control path
  check control
  match upsertRecord JobProgressSnapshot.id sortById snapshots snapshot with
  | none => return false
  | some snapshots => do
      check control
      writeAllChecked control snapshots
      check control
      return true

inductive JobProgressCommand where
  | pause
  | resume
  | stop
  deriving DecidableEq, Repr

def JobProgressCommand.name : JobProgressCommand → String
  | .pause => "pause"
  | .resume => "resume"
  | .stop => "stop"

def commandError (snapshot : JobProgressSnapshot) (command : JobProgressCommand) : GfmError :=
  .format ("cannot " ++ command.name ++ " job " ++ toString snapshot.id.value ++ " from " ++
    String.ofList (stateName snapshot.state) ++ " progress state")

def commandDetail (label previous : String) : String :=
  if previous = "" then label else label ++ ":" ++ previous

/-- The snapshot that the command makes of the old one, if it changes it. -/
def applyProgressCommand (snapshot : JobProgressSnapshot) (command : JobProgressCommand)
    (updatedMs : Nat) : Except GfmError (Option JobProgressSnapshot) :=
  match command with
  | .pause =>
      if snapshot.state = .completed ∨ snapshot.state = .cancelled ∨
          snapshot.state = .failed then
        .error (commandError snapshot command)
      else if snapshot.state = .paused ∧
          "paused-by-user".toList.isPrefixOf snapshot.detail.toList then
        .ok none
      else .ok (some { snapshot with
        state := .paused
        detail := commandDetail "paused-by-user" snapshot.detail
        updatedMs })
  | .resume =>
      if snapshot.state ≠ .paused then .error (commandError snapshot command)
      else .ok (some { snapshot with
        state := .running
        detail := commandDetail "resumed-by-user" snapshot.detail
        updatedMs })
  | .stop =>
      if restorable snapshot.state then
        .ok (some { snapshot with
          state := .cancelled
          detail := commandDetail "cancelled-by-user" snapshot.detail
          updatedMs })
      else .error (commandError snapshot command)

def missingJob (id : JobId) : GfmError :=
  .format ("job progress store " ++ path.display ++ " does not contain job " ++ toString id.value)

/-- The first snapshot of the job, or the error of a store without it. -/
def findJob (id : JobId) (snapshots : List JobProgressSnapshot) :
    Except GfmError JobProgressSnapshot :=
  match recordOf JobProgressSnapshot.id snapshots id with
  | some snapshot => .ok snapshot
  | none => .error (missingJob path id)

def applyCommandChecked (id : JobId) (command : JobProgressCommand) (updatedMs : Nat) :
    Update JobProgressSnapshot := do
  let snapshots ← readChecked control path
  check control
  let snapshot ← settle (findJob path id snapshots)
  let updated ← settle (applyProgressCommand snapshot command updatedMs)
  match updated with
  | none => return snapshot
  | some updated => do
      check control
      writeAllChecked control (setFirst JobProgressSnapshot.id updated snapshots)
      check control
      return updated

end Store

section Checks

variable {control : Control GfmError} {path : Path} {content : Option Bytes}

def parseRows (path : Path) : Nat → List Bytes → Except GfmError (List JobProgressSnapshot)
  | _, [] => .ok []
  | number, line :: rest => do
      let text ← decodeLine path line
      let snapshot ← parseRow path number text
      let snapshots ← parseRows path (number + 1) rest
      return snapshot :: snapshots

def parseLines (path : Path) : List Bytes → Except GfmError (List JobProgressSnapshot)
  | [] => .error (.format ("empty job progress store " ++ path.display))
  | header :: rows => do
      let header ← decodeLine path header
      checkHeader path header
      parseRows path 2 rows

/-- The snapshots of the file, without the control. -/
def parse (path : Path) (content : Option Bytes) : Except GfmError (List JobProgressSnapshot) :=
  match content with
  | none => .ok []
  | some content => parseLines path (lines content)

/-- The checks of a read that goes through. -/
def readChecks : Option Bytes → Nat
  | none => 1
  | some content => 2 * (lines content).length + 3

def encode (snapshots : List JobProgressSnapshot) : Bytes :=
  (magic :: snapshots.map asTsv).flatMap line

/-- The checks of a write up to its rename. -/
def writeChecks (snapshots : List JobProgressSnapshot) : Nat := 2 * snapshots.length + 8

theorem readRowsChecked_follows (number : Nat) (rows : List Bytes) :
    FollowsAt control content (readRowsChecked control path number rows) (2 * rows.length)
      (parseRows path number rows) := by
  induction rows generalizing number with
  | nil => exact SteadyAt.pure
  | cons row rows ih =>
      rw [readRowsChecked, parseRows]
      have later : ∀ snapshot, FollowsAt control content
          (readRowsChecked control path (number + 1) rows >>= fun snapshots =>
            (return snapshot :: snapshots : Update _)) (2 * rows.length + 0)
          (parseRows path (number + 1) rows >>= fun snapshots => .ok (snapshot :: snapshots)) :=
        fun snapshot => (ih (number + 1)).bind fun _ _ => SteadyAt.pure
      have parsed : ∀ text, FollowsAt control content
          (settle (parseRow path number text) >>= fun snapshot =>
            readRowsChecked control path (number + 1) rows >>= fun snapshots =>
              (return snapshot :: snapshots : Update _)) (0 + (2 * rows.length + 0))
          (parseRow path number text >>= fun snapshot =>
            parseRows path (number + 1) rows >>= fun snapshots => .ok (snapshot :: snapshots)) :=
        fun text => (FollowsAt.settle _).bind fun snapshot _ => later snapshot
      refine FollowsAt.congr (FollowsAt.check_bind ((FollowsAt.settle _).bind fun text _ =>
        FollowsAt.check_bind (parsed text))) ?_
      rw [List.length_cons]
      omega

theorem readLinesChecked_follows (lines : List Bytes) :
    FollowsAt control content (readLinesChecked control path lines) (2 * lines.length)
      (parseLines path lines) := by
  cases lines with
  | nil => exact RefusesAt.throw
  | cons header rows =>
      have ended : FollowsAt control content
          (readRowsChecked control path 2 rows >>= fun snapshots =>
            check control >>= fun _ => (return snapshots : Update _))
          (2 * rows.length + 1) (parseRows path 2 rows) :=
        (readRowsChecked_follows 2 rows).check_after
      refine FollowsAt.congr ((FollowsAt.settle (decodeLine path header)).bind
        fun text _ => FollowsAt.check_bind
          ((FollowsAt.settle (checkHeader path text)).bind fun _ _ => ended)) ?_
      rw [List.length_cons]
      omega

theorem readChecked_follows (content : Option Bytes) :
    FollowsAt control content (readChecked control path) (readChecks content)
      (parse path content) := by
  cases content with
  | none =>
      have empty : SteadyAt control none (readChecked control path) (1 + 0) [] :=
        SteadyAt.check.bind fun _ => rfl
      exact empty
  | some content =>
      refine FollowsAt.congr (FollowsAt.check_bind (FollowsAt.observe_bind
        (FollowsAt.check_bind (FollowsAt.check_bind
          (readLinesChecked_follows (lines content)))))) ?_
      rw [readChecks]
      omega

theorem writeLinesChecked_steady (texts : List Text) :
    SteadyAt control content (writeLinesChecked control texts) (2 * texts.length)
      (texts.flatMap line) := by
  induction texts with
  | nil => exact SteadyAt.pure
  | cons text texts ih =>
      refine SteadyAt.congr (SteadyAt.check.bind (SteadyAt.check.bind (ih.bind SteadyAt.pure))) ?_
      rw [List.length_cons]
      omega

theorem writeAllChecked_commits (snapshots : List JobProgressSnapshot) :
    CommitsAt control content (writeAllChecked control snapshots) (writeChecks snapshots)
      (some (encode snapshots)) 0 ⟨⟩ := by
  have installs : CommitsAt control content (install (some (encode snapshots)) : Update PUnit) 0
      (some (encode snapshots)) 0 ⟨⟩ := CommitsAt.install
  refine CommitsAt.congr (.after .check (.after .check (.after .check
    (.after (writeLinesChecked_steady (magic :: snapshots.map asTsv))
      (.after .check (.after .check (.after .check installs))))))) ?_
  simp only [writeChecks, List.length_cons, List.length_map]
  omega

/-- Where the file reads and its snapshots change, the bytes that replace it. -/
def rewritePlan (path : Path) (content : Option Bytes)
    (change : List JobProgressSnapshot → Option (List JobProgressSnapshot)) :
    Option (Commit (Option Bytes)) :=
  match parse path content with
  | .error _ => none
  | .ok snapshots => (change snapshots).map fun after =>
      ⟨readChecks content + 2 + writeChecks after, some (encode after)⟩

def upsertPlan (path : Path) (snapshot : JobProgressSnapshot) (content : Option Bytes) :
    Option (Commit (Option Bytes)) :=
  rewritePlan path content fun snapshots =>
    upsertRecord JobProgressSnapshot.id sortById snapshots snapshot

/-- The snapshots after a command that finds its job and changes it. -/
def commanded (id : JobId) (command : JobProgressCommand) (updatedMs : Nat)
    (snapshots : List JobProgressSnapshot) : Option (List JobProgressSnapshot) :=
  match recordOf JobProgressSnapshot.id snapshots id with
  | none => none
  | some snapshot =>
      match applyProgressCommand snapshot command updatedMs with
      | .ok (some updated) => some (setFirst JobProgressSnapshot.id updated snapshots)
      | _ => none

def applyCommandPlan (path : Path) (id : JobId) (command : JobProgressCommand) (updatedMs : Nat)
    (content : Option Bytes) : Option (Commit (Option Bytes)) :=
  rewritePlan path content (commanded id command updatedMs)

theorem rewritePlan_ok {snapshots : List JobProgressSnapshot}
    {change : List JobProgressSnapshot → Option (List JobProgressSnapshot)}
    (parsed : parse path content = .ok snapshots) :
    rewritePlan path content change = (change snapshots).map fun after =>
      ⟨readChecks content + 2 + writeChecks after, some (encode after)⟩ := by
  rw [rewritePlan, parsed]

/-- An update that cannot read the file leaves it. -/
theorem planned_of_unread {α : Type} {rest : List JobProgressSnapshot → Update α}
    {change : List JobProgressSnapshot → Option (List JobProgressSnapshot)} {error : GfmError}
    (failed : parse path content = .error error) :
    PlannedAt control content (readChecked control path >>= rest)
      (rewritePlan path content change) := by
  have read : FollowsAt control content (readChecked control path) _ _ :=
    readChecked_follows content
  rw [failed] at read
  rw [rewritePlan, failed]
  exact fun checks => (RefusesAt.bind read).atomic checks

theorem readChecked_steady {snapshots : List JobProgressSnapshot}
    (parsed : parse path content = .ok snapshots) :
    SteadyAt control content (readChecked control path) (readChecks content) snapshots := by
  have read : FollowsAt control content (readChecked control path) _ _ :=
    readChecked_follows content
  rw [parsed] at read
  exact read

/-- The end of every update: a check, the write, and the check after the rename. -/
theorem written_commits {α : Type} (snapshots : List JobProgressSnapshot) (result : α) :
    CommitsAt control content
      (check control >>= fun _ => writeAllChecked control snapshots >>= fun _ =>
        check control >>= fun _ => (return result : Update α))
      (1 + writeChecks snapshots) (some (encode snapshots)) 1 result := by
  have ended : SteadyAt control (some (encode snapshots))
      (check control >>= fun _ => (return result : Update α)) (1 + 0) result :=
    SteadyAt.check.bind SteadyAt.pure
  have written : CommitsAt control content
      (writeAllChecked control snapshots >>= fun _ =>
        check control >>= fun _ => (return result : Update α))
      (writeChecks snapshots) (some (encode snapshots)) (0 + (1 + 0)) result :=
    (writeAllChecked_commits snapshots).bind ended
  exact .after .check written

theorem upsertChecked_planned (snapshot : JobProgressSnapshot) :
    PlannedAt control content (upsertChecked control path snapshot)
      (upsertPlan path snapshot content) := by
  cases parsed : parse path content with
  | error error => exact planned_of_unread parsed
  | ok snapshots =>
      have read : SteadyAt control content (readChecked control path) _ snapshots :=
        readChecked_steady parsed
      rw [upsertPlan, rewritePlan_ok parsed]
      cases placed : upsertRecord JobProgressSnapshot.id sortById snapshots snapshot with
      | none =>
          have unchanged : SteadyAt control content (upsertChecked control path snapshot)
              (readChecks content + (1 + 0)) false := by
            refine read.bind (SteadyAt.check.bind ?_)
            rw [placed]
            exact SteadyAt.pure
          exact unchanged.atomic
      | some after =>
          have rest : CommitsAt control content (upsertChecked control path snapshot)
              (readChecks content + (1 + (1 + writeChecks after))) (some (encode after)) 1
              true := by
            refine .after read (.after .check ?_)
            rw [placed]
            exact written_commits after true
          refine ⟨true, rest.congr ?_⟩
          change _ = readChecks content + 2 + writeChecks after
          omega

theorem applyCommandChecked_planned (id : JobId) (command : JobProgressCommand) (updatedMs : Nat) :
    PlannedAt control content (applyCommandChecked control path id command updatedMs)
      (applyCommandPlan path id command updatedMs content) := by
  cases parsed : parse path content with
  | error error => exact planned_of_unread parsed
  | ok snapshots =>
      have read : SteadyAt control content (readChecked control path) _ snapshots :=
        readChecked_steady parsed
      rw [applyCommandPlan, rewritePlan_ok parsed]
      cases found : recordOf JobProgressSnapshot.id snapshots id with
      | none =>
          have refuses : RefusesAt content
              (applyCommandChecked control path id command updatedMs) := by
            refine RefusesAt.after read (RefusesAt.after SteadyAt.check (RefusesAt.bind ?_))
            rw [findJob, found]
            exact RefusesAt.throw
          rw [show commanded id command updatedMs snapshots = none by simp [commanded, found]]
          exact refuses.atomic
      | some snapshot =>
          have job : SteadyAt control content (settle (findJob path id snapshots)) 0 snapshot := by
            rw [findJob, found]
            exact SteadyAt.settle_ok
          cases applied : applyProgressCommand snapshot command updatedMs with
          | error error =>
              have refuses : RefusesAt content
                  (applyCommandChecked control path id command updatedMs) := by
                refine RefusesAt.after read (RefusesAt.after SteadyAt.check
                  (RefusesAt.after job (RefusesAt.bind ?_)))
                rw [applied]
                exact RefusesAt.throw
              rw [show commanded id command updatedMs snapshots = none by
                simp [commanded, found, applied]]
              exact refuses.atomic
          | ok result =>
              have step : SteadyAt control content
                  (settle (applyProgressCommand snapshot command updatedMs)) 0 result := by
                rw [applied]
                exact SteadyAt.settle_ok
              cases result with
              | none =>
                  have unchanged : SteadyAt control content
                      (applyCommandChecked control path id command updatedMs)
                      (readChecks content + (1 + (0 + (0 + 0)))) snapshot :=
                    read.bind (SteadyAt.check.bind (job.bind (step.bind SteadyAt.pure)))
                  rw [show commanded id command updatedMs snapshots = none by
                    simp [commanded, found, applied]]
                  exact unchanged.atomic
              | some updated =>
                  let after := setFirst JobProgressSnapshot.id updated snapshots
                  have rest : CommitsAt control content
                      (applyCommandChecked control path id command updatedMs)
                      (readChecks content + (1 + (0 + (0 + (1 + writeChecks after)))))
                      (some (encode after)) 1 updated :=
                    .after read (.after .check (.after job (.after step
                      (written_commits after updated))))
                  rw [show commanded id command updatedMs snapshots = some after by
                    simp [commanded, found, applied, after]]
                  refine ⟨updated, rest.congr ?_⟩
                  change _ = readChecks content + 2 + writeChecks after
                  omega

end Checks

end Gfm.Jobs.ProgressFile

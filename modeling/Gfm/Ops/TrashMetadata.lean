import Gfm.Lib.Commits
import Gfm.Ops.Journal
import Gfm.Text

/-!
# The trash metadata

A file of the entries of the trash, one line for each name. An update reads it into a map from
names, changes the map and writes all of it to a temporary file, which a rename puts in the place
of the old one; the control is asked before each step and once after the rename. Here the state is
the content of the file, the steps of the file system succeed, and the text for the temporary file
is kept until the rename.
-/

namespace Gfm.Ops.TrashMetadata

open Interruptible LineLog

structure TrashRestoreMetadata where
  name : Text
  originalPath : Text
  deletedAtNanos : U128
  canRestore : Bool
  canDeletePermanently : Bool
  permissionIssue : Option Text
  deriving DecidableEq

/-- The entries in the order of their names. -/
abbrev Entries := Std.ExtTreeMap Text TrashRestoreMetadata

section Lines

def boolName : Bool → Text
  | true => "true".toList
  | false => "false".toList

def asTsv (entry : TrashRestoreMetadata) : Text :=
  Tsv.join [Tsv.escape entry.name, Tsv.escape entry.originalPath,
    Tsv.decimal entry.deletedAtNanos, boolName entry.canRestore,
    boolName entry.canDeletePermanently, Tsv.escape (entry.permissionIssue.getD [])]

def place (path : Path) (number : Nat) : String := path.display ++ ":" ++ toString number ++ " "

def parseText (field : Text) : Except GfmError Text := (Tsv.unescapeText field).mapError .format

def parseDeletedAt (path : Path) (number : Nat) (field : Text) : Except GfmError U128 :=
  (Tsv.parse (2 ^ 128) field).mapError fun reason =>
    .format (place path number ++ "invalid deleted_at_nanos " ++ Tsv.quoted field ++ ": " ++ reason)

def parseBoolField (field : Text) (name : String) (path : Path) (number : Nat) :
    Except GfmError Bool :=
  if field = "true".toList then .ok true
  else if field = "false".toList then .ok false
  else .error (.format (place path number ++ "invalid " ++ name ++ " " ++ Tsv.quoted field))

def parseEntry (path : Path) (number : Nat) (line : Text) : Except GfmError TrashRestoreMetadata :=
  match Tsv.fields line with
  | [name, originalPath, deletedAt, canRestore, canDelete, issue] => do
      let name ← parseText name
      let originalPath ← parseText originalPath
      let deletedAtNanos ← parseDeletedAt path number deletedAt
      let canRestore ← parseBoolField canRestore "can_restore" path number
      let canDeletePermanently ← parseBoolField canDelete "can_delete_permanently" path number
      let issue ← parseText issue
      let permissionIssue := if issue = [] then none else some issue
      return ⟨name, originalPath, deletedAtNanos, canRestore, canDeletePermanently,
        permissionIssue⟩
  | _ => .error (.format (place path number ++ "expected 6 tab-separated fields: name, " ++
      "original_path, deleted_at_nanos, can_restore, can_delete_permanently, permission_issue"))

def decodeLine (path : Path) (line : Bytes) : Except GfmError Text :=
  match decodeText line with
  | some text => .ok text
  | none => .error (.io path "stream did not contain valid UTF-8")

/-- A name that is not the root and not `..`. -/
def fileName (path : Path) : Option Text :=
  (path.fileName.filter fun name => name ≠ "..").map String.toList

def fromOriginalPath (path : Path) (now : U128) : Except GfmError TrashRestoreMetadata :=
  match (fileName path).filter fun name => name ≠ [] with
  | none => .error (.format ("could not derive trash metadata name for " ++ path.display))
  | some name => .ok ⟨name, path.display.toList, now, true, true, none⟩

end Lines

section Metadata

variable (unicode : Unicode) (control : Control GfmError) (path : Path)

/-- A program over the content of the metadata file. -/
abbrev Update := Checked GfmError (Option Bytes)

/-- A blank line, or a comment. -/
def skipped (line : Text) : Bool := unicode.trim line = [] ∨ line.head? = some '#'

def readRowsChecked : Nat → List Bytes → Entries → Update Entries
  | _, [], entries => return entries
  | number, line :: rest, entries => do
      check control
      let text ← settle (decodeLine path line)
      if skipped unicode text then readRowsChecked (number + 1) rest entries
      else do
        let entry ← settle (parseEntry path number text)
        check control
        readRowsChecked (number + 1) rest (entries.insert entry.name entry)

def readTrashMetadataChecked : Update Entries := do
  check control
  let content ← observe
  match content with
  | none => return ∅
  | some content => do
      check control
      check control
      let entries ← readRowsChecked unicode control path 1 (lines content) ∅
      check control
      return entries

def line (text : Text) : Bytes := encodeText text ++ [newline]

def writeLinesChecked : List TrashRestoreMetadata → Update Bytes
  | [] => return []
  | entry :: rest => do
      check control
      let written ← writeLinesChecked rest
      return line (asTsv entry) ++ written

def writeTrashMetadataChecked (entries : Entries) : Update PUnit := do
  check control
  check control
  check control
  let written ← writeLinesChecked control (entries.toList.map Prod.snd)
  check control
  check control
  check control
  install (some written)
  check control

def appendTrashMetadataEntryChecked (entry : TrashRestoreMetadata) : Update PUnit := do
  check control
  check control
  let entries ← readTrashMetadataChecked unicode control path
  check control
  check control
  writeTrashMetadataChecked control (entries.insert entry.name entry)

def appendTrashMetadataChecked (originalPath : Path) (now : U128) : Update PUnit := do
  check control
  let entry ← settle (fromOriginalPath originalPath now)
  appendTrashMetadataEntryChecked unicode control path entry

def removeTrashMetadataChecked (trashedPath : Path) : Update PUnit := do
  check control
  match fileName trashedPath with
  | none => return ⟨⟩
  | some name => do
      check control
      let entries ← readTrashMetadataChecked unicode control path
      check control
      check control
      writeTrashMetadataChecked control (entries.erase name)

end Metadata

section Checks

variable {unicode : Unicode} {control : Control GfmError} {path : Path} {content : Option Bytes}

def parseRows (unicode : Unicode) (path : Path) :
    Nat → List Bytes → Entries → Except GfmError Entries
  | _, [], entries => .ok entries
  | number, line :: rest, entries => do
      let text ← decodeLine path line
      if skipped unicode text then parseRows unicode path (number + 1) rest entries
      else do
        let entry ← parseEntry path number text
        parseRows unicode path (number + 1) rest (entries.insert entry.name entry)

/-- The entries of the file, without the control. -/
def parse (unicode : Unicode) (path : Path) (content : Option Bytes) : Except GfmError Entries :=
  match content with
  | none => .ok ∅
  | some content => parseRows unicode path 1 (lines content) ∅

/-- One check before a line, and one after an entry. -/
def rowChecks (unicode : Unicode) (line : Bytes) : Nat :=
  match decodeText line with
  | some text => if skipped unicode text then 1 else 2
  | none => 1

/-- The checks of a read that goes through. -/
def readChecks (unicode : Unicode) : Option Bytes → Nat
  | none => 1
  | some content => ((lines content).map (rowChecks unicode)).sum + 4

def encode (entries : Entries) : Bytes :=
  (entries.toList.map Prod.snd).flatMap fun entry => line (asTsv entry)

/-- The checks of a write up to its rename. -/
def writeChecks (entries : Entries) : Nat := entries.toList.length + 6

theorem readRowsChecked_follows (number : Nat) (rows : List Bytes) (entries : Entries) :
    FollowsAt control content (readRowsChecked unicode control path number rows entries)
      (rows.map (rowChecks unicode)).sum (parseRows unicode path number rows entries) := by
  induction rows generalizing number entries with
  | nil => exact SteadyAt.pure
  | cons row rows ih =>
      rw [readRowsChecked, parseRows, List.map_cons, List.sum_cons]
      cases decoded : decodeText row with
      | none =>
          have broken : decodeLine path row =
              .error (.io path "stream did not contain valid UTF-8") := by
            rw [decodeLine, decoded]
          rw [broken]
          exact RefusesAt.after SteadyAt.check (RefusesAt.bind RefusesAt.throw)
      | some text =>
          have whole : decodeLine path row = .ok text := by rw [decodeLine, decoded]
          have taken : ∀ next : Text → Except GfmError Entries,
              (Except.ok text >>= next) = next text := fun _ => rfl
          rw [whole, taken]
          cases skips : skipped unicode text with
          | true =>
              have once : rowChecks unicode row = 1 := by simp [rowChecks, decoded, skips]
              simp only [settle_ok_bind, once, skips, if_true]
              exact FollowsAt.check_bind (ih (number + 1) entries)
          | false =>
              have twice : rowChecks unicode row = 2 := by simp [rowChecks, decoded, skips]
              simp only [settle_ok_bind, twice, skips, Bool.false_eq_true, if_false]
              refine FollowsAt.congr (FollowsAt.check_bind
                ((FollowsAt.settle (parseEntry path number text)).bind fun entry _ =>
                  FollowsAt.check_bind
                    (ih (number + 1) (entries.insert entry.name entry)))) ?_
              omega

theorem readTrashMetadataChecked_follows (content : Option Bytes) :
    FollowsAt control content (readTrashMetadataChecked unicode control path)
      (readChecks unicode content) (parse unicode path content) := by
  cases content with
  | none =>
      have empty : SteadyAt control none (readTrashMetadataChecked unicode control path) (1 + 0)
          ∅ := SteadyAt.check.bind fun _ => rfl
      exact empty
  | some content =>
      have ended : FollowsAt control (some content)
          (readRowsChecked unicode control path 1 (lines content) ∅ >>= fun entries =>
            check control >>= fun _ => (return entries : Update _))
          (((lines content).map (rowChecks unicode)).sum + 1)
          (parseRows unicode path 1 (lines content) ∅) :=
        (readRowsChecked_follows 1 (lines content) ∅).check_after
      refine FollowsAt.congr (FollowsAt.check_bind (FollowsAt.observe_bind
        (FollowsAt.check_bind (FollowsAt.check_bind ended)))) ?_
      rw [readChecks]
      omega

theorem writeLinesChecked_steady (entries : List TrashRestoreMetadata) :
    SteadyAt control content (writeLinesChecked control entries) entries.length
      (entries.flatMap fun entry => line (asTsv entry)) := by
  induction entries with
  | nil => exact SteadyAt.pure
  | cons entry entries ih =>
      refine SteadyAt.congr (SteadyAt.check.bind (ih.bind SteadyAt.pure)) ?_
      rw [List.length_cons]
      omega

/-- The write of the whole file ends with a check after its rename. -/
theorem writeTrashMetadataChecked_commits (entries : Entries) :
    CommitsAt control content (writeTrashMetadataChecked control entries) (writeChecks entries)
      (some (encode entries)) 1 ⟨⟩ := by
  have installs : CommitsAt control content
      (install (some (encode entries)) >>= fun _ => (check control : Update PUnit)) 0
      (some (encode entries)) (0 + 1) ⟨⟩ := CommitsAt.install.bind SteadyAt.check
  refine CommitsAt.congr (.after .check (.after .check (.after .check
    (.after (writeLinesChecked_steady (entries.toList.map Prod.snd))
      (.after .check (.after .check (.after .check installs))))))) ?_
  simp only [writeChecks, List.length_map]
  omega

/-- After these checks and a read, the bytes that replace the file are those of the new entries. -/
def rewritePlan (unicode : Unicode) (path : Path) (content : Option Bytes) (checks : Nat)
    (change : Entries → Entries) : Option (Commit (Option Bytes)) :=
  match parse unicode path content with
  | .error _ => none
  | .ok entries =>
      some ⟨checks + readChecks unicode content + 2 + writeChecks (change entries),
        some (encode (change entries))⟩

theorem rewritePlan_delay (checks count : Nat) (change : Entries → Entries) :
    (rewritePlan unicode path content checks change).map (fun commit => commit.delay count) =
      rewritePlan unicode path content (count + checks) change := by
  rw [rewritePlan, rewritePlan]
  cases parse unicode path content with
  | error error => rfl
  | ok entries => simp [Commit.delay, Nat.add_assoc]

/-- The end of every update: the read, two checks, and the write. -/
theorem rewritten_planned (change : Entries → Entries) :
    PlannedAt control content
      (readTrashMetadataChecked unicode control path >>= fun entries =>
        check control >>= fun _ => check control >>= fun _ =>
          writeTrashMetadataChecked control (change entries))
      (rewritePlan unicode path content 0 change) := by
  have read : FollowsAt control content (readTrashMetadataChecked unicode control path) _ _ :=
    readTrashMetadataChecked_follows content
  rw [rewritePlan]
  cases parsed : parse unicode path content with
  | error error =>
      rw [parsed] at read
      exact (RefusesAt.bind read).atomic
  | ok entries =>
      rw [parsed] at read
      have rest : CommitsAt control content
          (readTrashMetadataChecked unicode control path >>= fun entries =>
            check control >>= fun _ => check control >>= fun _ =>
              writeTrashMetadataChecked control (change entries))
          (readChecks unicode content + (1 + (1 + writeChecks (change entries))))
          (some (encode (change entries))) 1 PUnit.unit :=
        .after read (.after .check (.after .check
          (writeTrashMetadataChecked_commits (change entries))))
      refine ⟨PUnit.unit, rest.congr ?_⟩
      change _ = 0 + readChecks unicode content + 2 + writeChecks (change entries)
      omega

def appendEntryPlan (unicode : Unicode) (path : Path) (entry : TrashRestoreMetadata)
    (content : Option Bytes) : Option (Commit (Option Bytes)) :=
  rewritePlan unicode path content 2 fun entries => entries.insert entry.name entry

def appendPlan (unicode : Unicode) (path originalPath : Path) (now : U128)
    (content : Option Bytes) : Option (Commit (Option Bytes)) :=
  match fromOriginalPath originalPath now with
  | .error _ => none
  | .ok entry => rewritePlan unicode path content 3 fun entries => entries.insert entry.name entry

def removePlan (unicode : Unicode) (path trashedPath : Path) (content : Option Bytes) :
    Option (Commit (Option Bytes)) :=
  match fileName trashedPath with
  | none => none
  | some name => rewritePlan unicode path content 2 fun entries => entries.erase name

theorem appendTrashMetadataEntryChecked_planned (entry : TrashRestoreMetadata) :
    PlannedAt control content (appendTrashMetadataEntryChecked unicode control path entry)
      (appendEntryPlan unicode path entry content) := by
  have planned : PlannedAt control content
      (appendTrashMetadataEntryChecked unicode control path entry) _ :=
    .after .check (.after .check (rewritten_planned fun entries => entries.insert entry.name entry))
  rw [rewritePlan_delay, rewritePlan_delay] at planned
  exact planned

theorem appendTrashMetadataChecked_planned (originalPath : Path) (now : U128) :
    PlannedAt control content (appendTrashMetadataChecked unicode control path originalPath now)
      (appendPlan unicode path originalPath now content) := by
  rw [appendPlan]
  cases derived : fromOriginalPath originalPath now with
  | error error =>
      have refuses : RefusesAt content
          (appendTrashMetadataChecked unicode control path originalPath now) := by
        refine RefusesAt.after SteadyAt.check (RefusesAt.bind ?_)
        rw [derived]
        exact RefusesAt.throw
      exact refuses.atomic
  | ok entry =>
      have planned : PlannedAt control content
          (check control >>= fun _ => appendTrashMetadataEntryChecked unicode control path entry)
          ((appendEntryPlan unicode path entry content).map fun commit => commit.delay 1) :=
        .after .check (appendTrashMetadataEntryChecked_planned entry)
      rw [appendEntryPlan, rewritePlan_delay] at planned
      rw [appendTrashMetadataChecked, derived]
      exact planned

theorem removeTrashMetadataChecked_planned (trashedPath : Path) :
    PlannedAt control content (removeTrashMetadataChecked unicode control path trashedPath)
      (removePlan unicode path trashedPath content) := by
  rw [removePlan, removeTrashMetadataChecked]
  cases fileName trashedPath with
  | none =>
      have unchanged : SteadyAt control content
          (check control >>= fun _ => (return ⟨⟩ : Update PUnit)) (1 + 0) ⟨⟩ :=
        SteadyAt.check.bind SteadyAt.pure
      exact unchanged.atomic
  | some name =>
      have planned : PlannedAt control content
          (check control >>= fun _ => check control >>= fun _ =>
            readTrashMetadataChecked unicode control path >>= fun entries =>
              check control >>= fun _ => check control >>= fun _ =>
                writeTrashMetadataChecked control (entries.erase name)) _ :=
        .after .check (.after .check (rewritten_planned fun entries => entries.erase name))
      rw [rewritePlan_delay, rewritePlan_delay] at planned
      exact planned

end Checks

end Gfm.Ops.TrashMetadata

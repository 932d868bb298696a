import Gfm.Tsv

/-!
# The operation journal

The operations that the engine journals, and the append-only file of their entries: seven
tab-separated fields a line. A path is journaled as text, so an operation is over any type of
location; in the journal the locations are texts.
-/

namespace Gfm.Ops

open Tsv

inductive Operation (Location : Type) where
  | copy (source destination : Location)
  | move (source destination : Location)
  | rename (source destination : Location)
  | delete (path : Location)
  | trash (path : Location)
  | emptyTrash (path : Location)
  | restore (source destination : Location)
  deriving DecidableEq, Repr

inductive OperationStatus where
  | started
  | completed
  | skipped
  | paused
  | cancelled
  | failed
  deriving DecidableEq, Repr

abbrev U128 := Fin (2 ^ 128)

structure JournalEntry where
  id : U128
  status : OperationStatus
  operation : Operation Text
  message : Option Text
  timestampNanos : U128
  deriving DecidableEq, Repr

def encodeOperation : Operation Text → Text × Text × Text
  | .copy source destination => ("copy".toList, source, destination)
  | .move source destination => ("move".toList, source, destination)
  | .rename source destination => ("rename".toList, source, destination)
  | .delete path => ("delete".toList, path, [])
  | .trash path => ("trash".toList, path, [])
  | .emptyTrash path => ("empty-trash".toList, path, [])
  | .restore source destination => ("restore".toList, source, destination)

def decodeOperation (kind source destination : Text) : Except String (Operation Text) :=
  if kind = "copy".toList then .ok (.copy source destination)
  else if kind = "move".toList then .ok (.move source destination)
  else if kind = "rename".toList then .ok (.rename source destination)
  else if kind = "delete".toList then .ok (.delete source)
  else if kind = "trash".toList then .ok (.trash source)
  else if kind = "empty-trash".toList then .ok (.emptyTrash source)
  else if kind = "restore".toList then .ok (.restore source destination)
  else .error ("unknown operation " ++ quoted kind)

def encodeStatus : OperationStatus → Text
  | .started => "started".toList
  | .completed => "completed".toList
  | .skipped => "skipped".toList
  | .paused => "paused".toList
  | .cancelled => "cancelled".toList
  | .failed => "failed".toList

def decodeStatus (value : Text) : Except String OperationStatus :=
  if value = "started".toList then .ok .started
  else if value = "completed".toList then .ok .completed
  else if value = "skipped".toList then .ok .skipped
  else if value = "paused".toList then .ok .paused
  else if value = "cancelled".toList then .ok .cancelled
  else if value = "failed".toList then .ok .failed
  else .error ("unknown status " ++ quoted value)

def encodeEntry (entry : JournalEntry) : Text :=
  let operation := encodeOperation entry.operation
  Tsv.join [decimal entry.id, encodeStatus entry.status, decimal entry.timestampNanos,
    operation.1, escape operation.2.1, escape operation.2.2,
    escape (entry.message.getD [])]

def parseEntry (line : Text) : Except String JournalEntry :=
  match Tsv.fields line with
  | [id, status, timestamp, kind, source, destination, message] => do
      let id ← parseNumber (2 ^ 128) "operation id" id
      let status ← decodeStatus status
      let timestampNanos ← parseNumber (2 ^ 128) "timestamp" timestamp
      let source ← unescapeText source
      let destination ← unescapeText destination
      let operation ← decodeOperation kind source destination
      let message ← unescapeText message
      let message := if message = [] then none else some message
      .ok { id, status, operation, message, timestampNanos }
  | parts => .error ("expected 7 fields, got " ++ toString parts.length)

/-- The file that an append of the entry leaves. -/
def appendJournal (content : LineLog.Bytes) (entry : JournalEntry) : LineLog.Bytes :=
  content ++ (LineLog.encodeText (encodeEntry entry) ++ [LineLog.newline])

def readJournal : Path → Option LineLog.Bytes → Except GfmError (List JournalEntry) :=
  Tsv.readJournal parseEntry

section RoundTrip

/-- An empty message is read back as no message. -/
def JournalEntry.kept (entry : JournalEntry) : JournalEntry :=
  { entry with message := if entry.message.getD [] = [] then none else entry.message }

theorem decodeStatus_encodeStatus (status : OperationStatus) :
    decodeStatus (encodeStatus status) = .ok status := by
  cases status <;> rfl

theorem decodeOperation_encodeOperation (operation : Operation Text) :
    decodeOperation (encodeOperation operation).1 (encodeOperation operation).2.1
      (encodeOperation operation).2.2 = .ok operation := by
  cases operation <;> rfl

theorem plain_encodeStatus (status : OperationStatus) : Plain (encodeStatus status) := by
  cases status <;> decide

theorem plain_encodeOperation (operation : Operation Text) :
    Plain (encodeOperation operation).1 := by
  have words : ∀ word ∈ ["copy", "move", "rename", "delete", "trash", "empty-trash", "restore"],
      Plain word.toList := by decide +kernel
  cases operation <;> exact words _ (by simp)

theorem plain_fields (entry : JournalEntry) : ∀ part ∈ [decimal entry.id,
    encodeStatus entry.status, decimal entry.timestampNanos,
    (encodeOperation entry.operation).1, escape (encodeOperation entry.operation).2.1,
    escape (encodeOperation entry.operation).2.2, escape (entry.message.getD [])],
    Plain part := by
  simp only [List.mem_cons, List.not_mem_nil, or_false, forall_eq_or_imp, forall_eq]
  exact ⟨plain_decimal _, plain_encodeStatus _, plain_decimal _,
    plain_encodeOperation _, plain_escape _, plain_escape _, plain_escape _⟩

theorem parseEntry_encodeEntry (entry : JournalEntry) :
    parseEntry (encodeEntry entry) = .ok entry.kept := by
  have parts := fields_join (plain_fields entry) (by simp)
  simp only [parseEntry, encodeEntry, parts, parseNumber_decimal, decodeStatus_encodeStatus,
    unescapeText_escape, decodeOperation_encodeOperation, bind, Except.bind]
  rcases entry with ⟨id, status, operation, message, timestampNanos⟩
  cases message with
  | none => rfl
  | some message => rfl

end RoundTrip

/-- The operation journal as a log of lines. -/
def journalFormat : LineLog.Format JournalEntry where
  encode := encodeEntry
  decode := parseEntry
  kept := JournalEntry.kept
  unbroken := fun entry => unbroken_join (plain_fields entry)
  decode_encode := parseEntry_encodeEntry

theorem appendJournal_written (entries : List JournalEntry) (entry : JournalEntry) :
    appendJournal (journalFormat.written entries) entry =
      journalFormat.written (entries ++ [entry]) := by
  simp [appendJournal, LineLog.Format.written, LineLog.Format.line, journalFormat]

/-- The file of a journal to which these entries were appended, one after the other. -/
def journalAfter (entries : List JournalEntry) : Option LineLog.Bytes :=
  entries.foldl (fun content entry => some (appendJournal (content.getD []) entry)) none

theorem journalAfter_append (entries : List JournalEntry) (entry : JournalEntry) :
    journalAfter (entries ++ [entry]) =
      some (appendJournal ((journalAfter entries).getD []) entry) := by
  simp [journalAfter]

theorem journalAfter_getD (entries : List JournalEntry) :
    (journalAfter entries).getD [] = journalFormat.written entries := by
  induction entries using List.reverseRecOn with
  | nil => rfl
  | append_singleton entries entry ih =>
      simp only [journalAfter_append, Option.getD_some, ih, appendJournal_written]

/-- What was appended is read back, an empty message as none. -/
theorem readJournal_journalAfter (path : Path) (entries : List JournalEntry) :
    readJournal path (journalAfter entries) = .ok (entries.map JournalEntry.kept) := by
  have written := journalAfter_getD entries
  have reads : LineLog.read parseEntry (journalFormat.written entries) =
      .ok (entries.map JournalEntry.kept) := journalFormat.read_written entries
  induction entries using List.reverseRecOn with
  | nil => rfl
  | append_singleton entries entry _ =>
      rw [journalAfter_append, Option.getD_some] at written
      simp only [journalAfter_append, readJournal, Tsv.readJournal, written, reads, Except.mapError]

end Gfm.Ops

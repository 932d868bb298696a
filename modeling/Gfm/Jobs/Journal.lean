import Gfm.Jobs.Scheduler
import Gfm.Tsv

/-!
# The job journal

The attempts of the jobs, four tab-separated fields a line. A failed attempt carries its message
inside the field of its status.
-/

namespace Gfm.Jobs

open Tsv

abbrev U64 := Fin (2 ^ 64)

/-- The id is the raw value of a `JobId`, the attempt a count of the machine's word size. -/
structure JournalEntry where
  id : U64
  label : Text
  attempt : U64
  status : TaskStatus
  deriving DecidableEq, Repr

def JournalEntry.jobId (entry : JournalEntry) : JobId := ⟨entry.id⟩

def encodeStatus : TaskStatus → Text
  | .started => "started".toList
  | .completed => "completed".toList
  | .cancelled => "cancelled".toList
  | .failed message => "failed:".toList ++ escape message.toList

def parseStatus (value : Text) : Except String TaskStatus :=
  if value = "started".toList then .ok .started
  else if value = "completed".toList then .ok .completed
  else if value = "cancelled".toList then .ok .cancelled
  else if "failed:".toList <+: value then
    (unescapeText (value.drop 7)).map fun message => .failed (String.ofList message)
  else .error ("invalid task status " ++ quoted value)

def encodeEntry (entry : JournalEntry) : Text :=
  Tsv.join [decimal entry.id, decimal entry.attempt, encodeStatus entry.status,
    escape entry.label]

def parseJournalEntry (line : Text) : Except String JournalEntry :=
  match Tsv.fields line with
  | [id, attempt, status, label] => do
      let id ← parseNumber (2 ^ 64) "job id" id
      let attempt ← parseNumber (2 ^ 64) "attempt" attempt
      let status ← parseStatus status
      let label ← unescapeText label
      .ok { id, label, attempt, status }
  | parts => .error ("expected 4 fields, got " ++ toString parts.length)

namespace JobJournal

/-- The file that an append of the entry leaves. -/
def append (content : LineLog.Bytes) (entry : JournalEntry) : LineLog.Bytes :=
  content ++ (LineLog.encodeText (encodeEntry entry) ++ [LineLog.newline])

def read : Path → Option LineLog.Bytes → Except GfmError (List JournalEntry) :=
  Tsv.readJournal parseJournalEntry

end JobJournal

section RoundTrip

theorem parseStatus_failed (message : Text) :
    parseStatus ("failed:".toList ++ escape message) =
      .ok (.failed (String.ofList message)) := by
  have tag : "failed:".toList = ['f', 'a', 'i', 'l', 'e', 'd', ':'] := by decide +kernel
  have started : "failed:".toList ++ escape message ≠ "started".toList := by
    rw [tag, show "started".toList = ['s', 't', 'a', 'r', 't', 'e', 'd'] by decide +kernel]
    simp
  have completed : "failed:".toList ++ escape message ≠ "completed".toList := by
    rw [tag, show "completed".toList = ['c', 'o', 'm', 'p', 'l', 'e', 't', 'e', 'd'] by
      decide +kernel]
    simp
  have cancelled : "failed:".toList ++ escape message ≠ "cancelled".toList := by
    rw [tag, show "cancelled".toList = ['c', 'a', 'n', 'c', 'e', 'l', 'l', 'e', 'd'] by
      decide +kernel]
    simp
  have starts : "failed:".toList <+: "failed:".toList ++ escape message :=
    List.prefix_append _ _
  have rest : ("failed:".toList ++ escape message).drop 7 = escape message := by
    rw [tag]
    rfl
  rw [parseStatus, if_neg started, if_neg completed, if_neg cancelled, if_pos starts, rest,
    unescapeText_escape]
  rfl

theorem parseStatus_encodeStatus (status : TaskStatus) :
    parseStatus (encodeStatus status) = .ok status := by
  cases status with
  | started => decide +kernel
  | completed => decide +kernel
  | cancelled => decide +kernel
  | failed message =>
      have written : encodeStatus (.failed message) =
          "failed:".toList ++ escape message.toList := rfl
      refine (congrArg parseStatus written).trans ?_
      rw [parseStatus_failed, String.ofList_toList]

theorem plain_encodeStatus (status : TaskStatus) : Plain (encodeStatus status) := by
  cases status with
  | started => decide
  | completed => decide
  | cancelled => decide
  | failed message => exact Plain.append (by decide) (plain_escape message.toList)

theorem plain_fields (entry : JournalEntry) : ∀ part ∈ [decimal entry.id,
    decimal entry.attempt, encodeStatus entry.status, escape entry.label],
    Plain part := by
  simp only [List.mem_cons, List.not_mem_nil, or_false, forall_eq_or_imp, forall_eq]
  exact ⟨plain_decimal _, plain_decimal _, plain_encodeStatus _, plain_escape _⟩

theorem parseJournalEntry_encodeEntry (entry : JournalEntry) :
    parseJournalEntry (encodeEntry entry) = .ok entry := by
  have parts := fields_join (plain_fields entry) (by simp)
  simp only [parseJournalEntry, encodeEntry, parts, parseNumber_decimal,
    parseStatus_encodeStatus, unescapeText_escape, bind, Except.bind]

end RoundTrip

/-- The job journal as a log of lines. -/
def journalFormat : LineLog.Format JournalEntry where
  encode := encodeEntry
  decode := parseJournalEntry
  kept := id
  unbroken := fun entry => unbroken_join (plain_fields entry)
  decode_encode := parseJournalEntry_encodeEntry

end Gfm.Jobs

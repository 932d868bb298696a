import Gfm.Ops.Journal
import Gfm.Jobs.Journal

/-!
# Torn appends

Both journals of the workspace are files to which one line is appended at a time. A crash in the
middle of an append leaves any number of bytes of the last line.
-/

namespace Gfm

open LineLog (Bytes Format)

variable {Entry : Type}

/-- After a crash that left `cut` bytes of the last append, the journal reads as its earlier
entries (or with the last one as well), and a further append adds its entry to these. -/
def LosesAtMostTorn (append : Bytes → Entry → Bytes)
    (read : Option Bytes → Except GfmError (List Entry)) (kept : Entry → Entry)
    (entries : List Entry) (last next : Entry) (cut : Nat) : Prop :=
  let crashed := entries.foldl append [] ++ (append [] last).take cut
  ∃ result, read (some crashed) = .ok result ∧
    (result = entries.map kept ∨ result = (entries ++ [last]).map kept) ∧
    read (some (append crashed next)) = .ok (result ++ [kept next])

theorem foldl_append_line {format : Format Entry} {append : Bytes → Entry → Bytes}
    (appends : ∀ content entry, append content entry = content ++ format.line entry)
    (entries : List Entry) (content : Bytes) :
    entries.foldl append content = content ++ format.written entries := by
  induction entries generalizing content with
  | nil => simp [Format.written]
  | cons entry entries ih =>
      rw [List.foldl_cons, ih, appends, List.append_assoc]
      rfl

/-- A journal that is a log of lines keeps the law exactly where the log does. -/
theorem losesAtMostTorn_iff_law (format : Format Entry) {append : Bytes → Entry → Bytes}
    {read : Option Bytes → Except GfmError (List Entry)} {report : LineLog.Fault → GfmError}
    (appends : ∀ content entry, append content entry = content ++ format.line entry)
    (reads : ∀ content, read (some content) = (LineLog.read format.decode content).mapError report)
    (entries : List Entry) (last next : Entry) (cut : Nat) :
    LosesAtMostTorn append read format.kept entries last next cut ↔
      format.TornAppendLaw entries last next cut := by
  have succeeds : ∀ content result, read (some content) = .ok result ↔
      LineLog.read format.decode content = .ok result := by
    intro content result
    rw [reads]
    cases LineLog.read format.decode content with
    | ok entries => simp [Except.mapError]
    | error fault => simp [Except.mapError]
  simp only [LosesAtMostTorn, Format.TornAppendLaw, foldl_append_line appends, succeeds, appends,
    List.nil_append]

/-- A torn append loses at most the torn entry exactly where the crash left nothing of the last
line, or all of it with its newline. -/
theorem losesAtMostTorn_iff (path : Path) (cut : Nat) (entries : List Ops.JournalEntry)
    (last next : Ops.JournalEntry) (jobEntries : List Jobs.JournalEntry)
    (lastJob nextJob : Jobs.JournalEntry) :
    (LosesAtMostTorn Ops.appendJournal (Ops.readJournal path) Ops.JournalEntry.kept entries last
        next cut ↔
      cut = 0 ∨ (Ops.appendJournal [] last).length ≤ cut) ∧
    (LosesAtMostTorn Jobs.JobJournal.append (Jobs.JobJournal.read path) id jobEntries lastJob
        nextJob cut ↔
      cut = 0 ∨ (Jobs.JobJournal.append [] lastJob).length ≤ cut) := by
  constructor
  · refine (losesAtMostTorn_iff_law Ops.journalFormat (fun _ _ => rfl) (fun _ => rfl)
      entries last next cut).trans ?_
    exact Format.tornAppendLaw_iff entries last next cut
  · refine (losesAtMostTorn_iff_law Jobs.journalFormat (fun _ _ => rfl) (fun _ => rfl)
      jobEntries lastJob nextJob cut).trans ?_
    exact Format.tornAppendLaw_iff jobEntries lastJob nextJob cut

/-- A crash after the first byte of the second entry: the journal does not read any more. -/
theorem tornAppend_fails :
    ¬∀ (path : Path) (entries : List Ops.JournalEntry) (last next : Ops.JournalEntry) (cut : Nat),
      LosesAtMostTorn Ops.appendJournal (Ops.readJournal path) Ops.JournalEntry.kept entries last
        next cut := by
  intro always
  let entry (id : Ops.U128) (status : Ops.OperationStatus) : Ops.JournalEntry :=
    { id, status, operation := .delete "/a".toList, message := none, timestampNanos := 7 }
  have law := (losesAtMostTorn_iff_law Ops.journalFormat (fun _ _ => rfl)
    (fun _ => rfl) _ _ _ _).mp
      (always [] [entry 12 .started] (entry 12 .completed) (entry 13 .started) 1)
  refine Format.not_tornAppendLaw_of_torn _ _ _ (by decide) ?_ law
  simp [Format.line]
  decide

end Gfm

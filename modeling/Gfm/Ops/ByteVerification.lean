import Gfm.Lib.Interruptible
import Gfm.Types

/-!
# Verification of a copy

A copy is verified by its size, or by its bytes: both files are read into buffers of one size, and
the buffers are compared read by read. A read may give fewer bytes than the buffer holds. The two
files are then taken to differ, so equal files pass where both are read in the same portions.
-/

namespace Gfm.Ops

open Interruptible

inductive VerificationPolicy where
  | none
  | size
  | bytes
  deriving DecidableEq, Repr

/-- A file from which bytes are read: what is left of it, and how many bytes the reads to come are
ready to give. -/
structure FileReader where
  rest : List UInt8
  portions : Nat → Nat

namespace FileReader

/-- A read gives at least one byte, no more than the buffer holds, and nothing only at the end. -/
def portion (reader : FileReader) (buffer : Nat) : Nat :=
  min (max (reader.portions 0) 1) (min buffer reader.rest.length)

def read (reader : FileReader) (buffer : Nat) : List UInt8 × FileReader :=
  (reader.rest.take (reader.portion buffer),
    { rest := reader.rest.drop (reader.portion buffer)
      portions := fun turn => reader.portions (turn + 1) })

end FileReader

def verifyBufferBytes : Nat := 128 * 1024

abbrev Verifying (α : Type) := Checked GfmError PUnit α

def verificationFailed (source target : Path) (reason : String) : GfmError :=
  .format ("copy verification failed for " ++ source.display ++ " -> " ++ target.display ++ ": " ++
    reason)

theorem FileReader.read_shorter {reader : FileReader}
    (some : (reader.read verifyBufferBytes).1 ≠ []) :
    (reader.read verifyBufferBytes).2.rest.length < reader.rest.length := by
  simp only [read, ne_eq, List.take_eq_nil_iff, not_or] at some ⊢
  have left : 0 < reader.rest.length := List.length_pos_iff.mpr some.2
  rw [List.length_drop]
  omega

section Verify

variable (control : Control GfmError) (source target : Path)

/-- The loop of the verification, from an offset. -/
def verifyLoop (offset : Nat) (original copied : FileReader) : Verifying PUnit := do
  check control
  -- The source is read here, and the copy after the next check.
  check control
  check control
  if (original.read verifyBufferBytes).1.length ≠ (copied.read verifyBufferBytes).1.length then
    throw (verificationFailed source target ("read length drift at byte " ++ toString offset))
  else if (original.read verifyBufferBytes).1 = [] then pure ⟨⟩
  else if (original.read verifyBufferBytes).1 ≠ (copied.read verifyBufferBytes).1 then
    throw (verificationFailed source target
      ("byte mismatch in block starting at " ++ toString offset))
  else
    verifyLoop (offset + (original.read verifyBufferBytes).1.length)
      (original.read verifyBufferBytes).2 (copied.read verifyBufferBytes).2
  termination_by original.rest.length
  decreasing_by exact FileReader.read_shorter ‹_›

def verifyCopyBytesChecked (original copied : FileReader) : Verifying PUnit := do
  check control
  check control
  verifyLoop control source target 0 original copied

def verifyCopySizeChecked (original copied : FileReader) : Verifying PUnit := do
  check control
  check control
  check control
  if original.rest.length = copied.rest.length then pure ⟨⟩
  else
    throw (verificationFailed source target ("source size " ++ toString original.rest.length ++
      " != destination size " ++ toString copied.rest.length))

/-- Both files can be opened and read. -/
def verifyCopyChecked (policy : VerificationPolicy) (original copied : FileReader) :
    Verifying PUnit := do
  check control
  match policy with
  | .none => pure ⟨⟩
  | .size => verifyCopySizeChecked control source target original copied
  | .bytes => do
      verifyCopySizeChecked control source target original copied
      verifyCopyBytesChecked control source target original copied

end Verify

/-- The numbers of bytes that the reads give, up to the end. -/
def FileReader.lengths (reader : FileReader) : List Nat :=
  if (reader.read verifyBufferBytes).1 = [] then []
  else (reader.read verifyBufferBytes).1.length ::
    FileReader.lengths (reader.read verifyBufferBytes).2
  termination_by reader.rest.length
  decreasing_by exact FileReader.read_shorter ‹_›

/-- The program ends without an error under a control that never stops it. -/
def Passes {α : Type} (program : Control GfmError → Verifying α) : Prop :=
  ∃ value clocked, program (fun _ => none) ⟨⟨⟩, 0⟩ = .ok value clocked

section Passing

variable {source target : Path} {original copied : FileReader}

theorem FileReader.read_append (reader : FileReader) :
    (reader.read verifyBufferBytes).1 ++ (reader.read verifyBufferBytes).2.rest = reader.rest :=
  List.take_append_drop _ _

theorem FileReader.read_eq_nil {reader : FileReader}
    (ended : (reader.read verifyBufferBytes).1 = []) : reader.rest = [] := by
  simp only [read, portion, verifyBufferBytes, List.take_eq_nil_iff] at ended
  rcases ended with none | ended
  · apply List.eq_nil_of_length_eq_zero
    omega
  · exact ended

theorem FileReader.lengths_of_nil {reader : FileReader}
    (ended : (reader.read verifyBufferBytes).1 = []) : reader.lengths = [] := by
  rw [lengths, if_pos ended]

theorem FileReader.lengths_of_some {reader : FileReader}
    (some : (reader.read verifyBufferBytes).1 ≠ []) :
    reader.lengths = (reader.read verifyBufferBytes).1.length ::
      (reader.read verifyBufferBytes).2.lengths := by
  rw [lengths, if_neg some]

theorem FileReader.head_lengths (reader : FileReader) :
    reader.lengths.headD 0 = (reader.read verifyBufferBytes).1.length := by
  by_cases ended : (reader.read verifyBufferBytes).1 = []
  · simp [lengths_of_nil ended, ended]
  · simp [lengths_of_some ended]

/-- What the loop does with its next two reads, when nothing stops it. -/
theorem verifyLoop_quiet (offset : Nat) (original copied : FileReader) (start : Clocked PUnit) :
    verifyLoop (fun _ => none) source target offset original copied start =
      if (original.read verifyBufferBytes).1.length ≠ (copied.read verifyBufferBytes).1.length then
        .error (verificationFailed source target
          ("read length drift at byte " ++ toString offset)) (start.advance 3)
      else if (original.read verifyBufferBytes).1 = [] then .ok ⟨⟩ (start.advance 3)
      else if (original.read verifyBufferBytes).1 ≠ (copied.read verifyBufferBytes).1 then
        .error (verificationFailed source target
          ("byte mismatch in block starting at " ++ toString offset)) (start.advance 3)
      else
        verifyLoop (fun _ => none) source target
          (offset + (original.read verifyBufferBytes).1.length)
          (original.read verifyBufferBytes).2 (copied.read verifyBufferBytes).2
          (start.advance 3) := by
  rw [verifyLoop]
  simp only [bind, EStateM.bind, check, Clocked.advance_advance]
  split
  case isTrue => rfl
  case isFalse =>
    split
    case isTrue => rfl
    case isFalse =>
      split
      case isTrue => rfl
      case isFalse => rfl

/-- The loop goes through exactly where both readers give the same bytes in the same portions. -/
theorem verifyLoop_ok_iff (offset : Nat) (original copied : FileReader) (start : Clocked PUnit) :
    (∃ clocked, verifyLoop (fun _ => none) source target offset original copied start =
        .ok ⟨⟩ clocked) ↔
      original.rest = copied.rest ∧ original.lengths = copied.lengths := by
  induction left : original.rest.length using Nat.strong_induction_on
    generalizing offset original copied start with
  | _ left ih =>
      rw [verifyLoop_quiet]
      have whole := original.read_append
      have wholeCopy := copied.read_append
      split
      case isTrue drift =>
        refine iff_of_false (by simp) fun same => drift ?_
        rw [← original.head_lengths, ← copied.head_lengths, same.2]
      case isFalse together =>
        have sameLength := not_not.mp together
        split
        case isTrue ended =>
          have endedCopy : (copied.read verifyBufferBytes).1 = [] :=
            List.eq_nil_of_length_eq_zero (by rw [← sameLength, ended, List.length_nil])
          refine iff_of_true ⟨_, rfl⟩ ⟨?_, ?_⟩
          · rw [FileReader.read_eq_nil ended, FileReader.read_eq_nil endedCopy]
          · rw [FileReader.lengths_of_nil ended, FileReader.lengths_of_nil endedCopy]
        case isFalse more =>
          split
          case isTrue mismatch =>
            refine iff_of_false (by simp) fun same => mismatch ?_
            rw [← whole, ← wholeCopy] at same
            exact (List.append_inj same.1 sameLength).1
          case isFalse equal =>
            have sameRead := not_not.mp equal
            have moreCopy : (copied.read verifyBufferBytes).1 ≠ [] := sameRead ▸ more
            have shorter := left ▸ FileReader.read_shorter more
            rw [ih _ shorter _ _ _ _ rfl, ← whole, ← wholeCopy, FileReader.lengths_of_some more,
              FileReader.lengths_of_some moreCopy, sameRead]
            simp

/-- The verification decides that two files have the same bytes exactly where they have. -/
def DecidesSameBytes (source target : Path) (original copied : FileReader) : Prop :=
  Passes (fun control => verifyCopyBytesChecked control source target original copied) ↔
    original.rest = copied.rest

theorem verifyCopyBytes_passes_iff : Passes (fun control =>
      verifyCopyBytesChecked control source target original copied) ↔
    original.rest = copied.rest ∧ original.lengths = copied.lengths := by
  rw [← verifyLoop_ok_iff 0 original copied ((⟨⟨⟩, 0⟩ : Clocked PUnit).advance 2)]
  exact ⟨fun ⟨_, clocked, ran⟩ => ⟨clocked, ran⟩, fun ⟨clocked, ran⟩ => ⟨⟨⟩, clocked, ran⟩⟩

theorem verifyCopy_passes_iff (policy : VerificationPolicy) : Passes (fun control =>
      verifyCopyChecked control source target policy original copied) ↔
    match policy with
    | .none => True
    | .size => original.rest.length = copied.rest.length
    | .bytes => original.rest = copied.rest ∧ original.lengths = copied.lengths := by
  cases policy with
  | none => exact iff_of_true ⟨⟨⟩, _, rfl⟩ trivial
  | size =>
      by_cases same : original.rest.length = copied.rest.length
      · simp [Passes, verifyCopyChecked, verifyCopySizeChecked, same, bind, EStateM.bind, check,
          pure, EStateM.pure]
      · simp [Passes, verifyCopyChecked, verifyCopySizeChecked, same, bind, EStateM.bind, check,
          throw, throwThe, MonadExceptOf.throw, EStateM.throw]
  | bytes =>
      by_cases same : original.rest.length = copied.rest.length
      · have ran : verifyCopyChecked (fun _ => none) source target .bytes original copied
              ⟨⟨⟩, 0⟩ =
            verifyLoop (fun _ => none) source target 0 original copied
              ((⟨⟨⟩, 0⟩ : Clocked PUnit).advance 6) := by
          simp [verifyCopyChecked, verifyCopySizeChecked, verifyCopyBytesChecked, same, bind,
            EStateM.bind, check, pure, EStateM.pure]
        rw [← verifyLoop_ok_iff 0 original copied ((⟨⟨⟩, 0⟩ : Clocked PUnit).advance 6)]
        simp only [Passes, ran]
        constructor
        · rintro ⟨⟨⟩, clocked, done⟩
          exact ⟨clocked, done⟩
        · rintro ⟨clocked, done⟩
          exact ⟨⟨⟩, clocked, done⟩
      · refine iff_of_false ?_ fun equal => same (congrArg List.length equal.1)
        simp [Passes, verifyCopyChecked, verifyCopySizeChecked, same, bind, EStateM.bind, check,
          throw, throwThe, MonadExceptOf.throw, EStateM.throw]

/-- The verdict is right exactly where the files differ or are read in the same portions. -/
theorem decidesSameBytes_iff (source target : Path) (original copied : FileReader) :
    DecidesSameBytes source target original copied ↔
      original.rest ≠ copied.rest ∨ original.lengths = copied.lengths := by
  rw [DecidesSameBytes, verifyCopyBytes_passes_iff]
  tauto

/-- Two equal files of two bytes, where one read of the copy gives only the first. -/
theorem shortRead_differs :
    ¬DecidesSameBytes [] [] ⟨[1, 2], fun _ => 2⟩ ⟨[1, 2], fun _ => 1⟩ := by
  rw [DecidesSameBytes, verifyCopyBytes_passes_iff]
  intro decides
  have lengths := congrArg (fun lengths => lengths.headD 0) (decides.mpr rfl).2
  simp only [FileReader.head_lengths] at lengths
  revert lengths
  decide

end Passing

end Gfm.Ops

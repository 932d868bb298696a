import Mathlib

/-!
# Files with holes

A file that is written at a position. The position may be moved past the end, which leaves a hole:
a byte that was never written reads as zero. The length of the file may be set, which cuts it or
leaves a hole at its end.
-/

/-- What was written where, the length of the file, and where it is written next. -/
structure SeekFile where
  cells : ℕ → Option UInt8
  length : ℕ
  position : ℕ

namespace SeekFile

open List

def fresh : SeekFile := ⟨fun _ => none, 0, 0⟩

def seekForward (file : SeekFile) (count : ℕ) : SeekFile :=
  { file with position := file.position + count }

/-- To write nothing leaves the length as it is, also past the end. -/
def writeAll (file : SeekFile) (bytes : List UInt8) : SeekFile where
  cells place :=
    if file.position ≤ place ∧ place < file.position + bytes.length then
      bytes[place - file.position]?
    else file.cells place
  length := if bytes = [] then file.length else max file.length (file.position + bytes.length)
  position := file.position + bytes.length

def setLen (file : SeekFile) (length : ℕ) : SeekFile :=
  { file with
    cells := fun place => if place < length then file.cells place else none
    length }

/-- The content as it is read. -/
def bytes (file : SeekFile) : List UInt8 :=
  (List.range file.length).map fun place => (file.cells place).getD 0

/-- The file was written from its start up to its position with these bytes, where zeros at the end
of them may be missing from its length. -/
structure Holds (file : SeekFile) (content : List UInt8) : Prop where
  position : file.position = content.length
  length : file.length ≤ content.length
  cells : ∀ place, (file.cells place).getD 0 = content[place]?.getD 0

variable {file : SeekFile} {content : List UInt8}

theorem holds_fresh : Holds fresh [] := ⟨rfl, le_rfl, fun _ => by simp [fresh]⟩

theorem Holds.seekForward (holds : file.Holds content) (count : ℕ) :
    (file.seekForward count).Holds (content ++ List.replicate count 0) where
  position := by simp [SeekFile.seekForward, holds.position]
  length := by
    have length := holds.length
    simp only [SeekFile.seekForward, length_append, length_replicate]
    omega
  cells place := by
    have cell := holds.cells place
    by_cases inside : place < content.length
    · simpa [SeekFile.seekForward, getElem?_append_left inside] using cell
    · have outside : content.length ≤ place := Nat.not_lt.mp inside
      rw [getElem?_eq_none outside] at cell
      rw [getElem?_append_right outside, getElem?_replicate]
      split
      case isTrue => simpa [SeekFile.seekForward] using cell
      case isFalse => simpa [SeekFile.seekForward] using cell

theorem Holds.writeAll (holds : file.Holds content) (bytes : List UInt8) :
    (file.writeAll bytes).Holds (content ++ bytes) where
  position := by simp [SeekFile.writeAll, holds.position]
  length := by
    have length := holds.length
    simp only [SeekFile.writeAll, holds.position, length_append]
    split
    case isTrue => omega
    case isFalse => omega
  cells place := by
    have cell := holds.cells place
    simp only [SeekFile.writeAll, holds.position]
    split
    case isTrue within => rw [getElem?_append_right within.1]
    case isFalse apart =>
      by_cases inside : place < content.length
      · rw [getElem?_append_left inside, cell]
      · have outside : content.length ≤ place := Nat.not_lt.mp inside
        have beyond : (content ++ bytes).length ≤ place := by
          rw [length_append]
          omega
        rw [cell, getElem?_eq_none outside, getElem?_eq_none beyond]

/-- Once its length is set, the file reads as what it was written with. -/
theorem Holds.bytes_setLen (holds : file.Holds content) :
    (file.setLen content.length).bytes = content := by
  apply ext_getElem
  · simp [bytes, setLen]
  · intro place _ inside
    have cell := holds.cells place
    simp only [bytes, setLen, getElem_map, getElem_range, if_pos inside]
    rw [cell, getElem?_eq_getElem inside, Option.getD_some]

end SeekFile

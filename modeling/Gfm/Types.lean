import Mathlib

/-!
# Shared value types

The values that every crate of the file manager passes around: identities of
volumes and files, the kinds of file-system objects, the content postings and
segments of the search archives, and the one error type of the workspace.

Paths are lists of components from the root of the file system, so that the
parent of a path, its file name and the order "at or below" are list
operations. A path that the source keeps as text (the search records) is kept
as text in the module that uses it.
-/

namespace Gfm

open Std

structure VolumeId where
  value : Nat
  deriving DecidableEq, Repr

structure FileId where
  volume : VolumeId
  node : Nat
  deriving DecidableEq, Repr

instance : Ord FileId :=
  ⟨compareLex (compareOn fun id : FileId => id.volume.value) (compareOn FileId.node)⟩

instance : TransOrd FileId :=
  inferInstanceAs (TransCmp
    (compareLex (compareOn fun id : FileId => id.volume.value) (compareOn FileId.node)))

instance : LawfulEqOrd FileId where
  eq_of_compare {left right} same := by
    rcases left with ⟨⟨leftVolume⟩, leftNode⟩
    rcases right with ⟨⟨rightVolume⟩, rightNode⟩
    have parts : compare leftVolume rightVolume = .eq ∧ compare leftNode rightNode = .eq :=
      Ordering.then_eq_eq.mp same
    simp only [Nat.compare_eq_eq] at parts
    simp [parts.1, parts.2]

inductive FileKind where
  | directory
  | file
  | symlink
  | other
  deriving DecidableEq, Repr

def FileKind.rank : FileKind → Nat
  | .directory => 0
  | .file => 1
  | .symlink => 2
  | .other => 3

instance : Ord FileKind := ⟨compareOn FileKind.rank⟩

instance : TransOrd FileKind := inferInstanceAs (TransCmp (compareOn FileKind.rank))

instance : LawfulEqOrd FileKind where
  eq_of_compare {left right} same := by
    have sameRank : left.rank = right.rank := Nat.compare_eq_eq.mp same
    cases left <;> cases right <;> simp_all [FileKind.rank]

abbrev Name := String

/-- An absolute path, as the components below the root. -/
abbrev Path := List Name

namespace Path

/-- The text of a path in an error message. -/
def display (path : Path) : String :=
  path.foldl (fun text component => text ++ "/" ++ component) ""

def parent : Path → Option Path
  | [] => none
  | component :: components => some ((component :: components).dropLast)

def fileName (path : Path) : Option Name := path.getLast?

end Path

inductive GfmError where
  | io (path : Path) (message : String)
  | format (message : String)
  | cancelled
  | paused
  | conflict (path : Path) (message : String)
  | permission (path : Path) (message : String)
  deriving DecidableEq, Repr

/-- The text that a journal or a report keeps of an error. -/
def GfmError.toText : GfmError → String
  | .io path message => path.display ++ ": " ++ message
  | .format message => message
  | .cancelled => "operation was cancelled"
  | .paused => "operation was paused"
  | .conflict path message => path.display ++ ": " ++ message
  | .permission path message => path.display ++ ": " ++ message

/-- Text of the search and content layers, character by character. -/
abbrev Text := List Char

instance lawfulBEqText : LawfulBEq Text := inferInstance

/-- The machine's words begin with zero. -/
instance neZeroWord32 : NeZero (2 ^ 32) := ⟨by decide⟩

instance neZeroWord64 : NeZero (2 ^ 64) := ⟨by decide⟩

instance neZeroWord128 : NeZero (2 ^ 128) := ⟨by decide⟩

structure ContentPositions where
  id : FileId
  positions : List Nat
  deriving DecidableEq, Repr

structure ContentPosting where
  term : Text
  ids : List FileId
  positions : List ContentPositions
  deriving DecidableEq, Repr

/-- An incremental content update: ids whose older postings are void, then new postings. -/
structure ContentSegment where
  tombstones : List FileId
  postings : List ContentPosting
  deriving DecidableEq, Repr

end Gfm

import Gfm.Jobs.ProgressFile
import Gfm.Ops.TrashMetadata

/-!
# The checked updates of the metadata files

The updates of the trash metadata and of the job progress, each over the content of its file. All
of them ask the control once more after the rename that puts the new content in place, so an
update that this check stops fails with its change made.
-/

namespace Gfm

open Interruptible LineLog

inductive MetadataUpdate where
  | append (originalPath : Path) (now : Ops.U128)
  | appendEntry (entry : Ops.TrashMetadata.TrashRestoreMetadata)
  | remove (trashedPath : Path)
  | upsert (snapshot : Jobs.JobProgressSnapshot)
  | applyCommand (id : Jobs.JobId) (command : Jobs.ProgressFile.JobProgressCommand)
      (updatedMs : Nat)

namespace MetadataUpdate

variable (unicode : Unicode) (control : Control GfmError) (path : Path) (content : Option Bytes)

/-- If the update of the file fails, the content is what it was. -/
def Atomic : MetadataUpdate → Prop
  | .append originalPath now => AtomicAt content 0
      (Ops.TrashMetadata.appendTrashMetadataChecked unicode control path originalPath now)
  | .appendEntry entry => AtomicAt content 0
      (Ops.TrashMetadata.appendTrashMetadataEntryChecked unicode control path entry)
  | .remove trashedPath => AtomicAt content 0
      (Ops.TrashMetadata.removeTrashMetadataChecked unicode control path trashedPath)
  | .upsert snapshot => AtomicAt content 0 (Jobs.ProgressFile.upsertChecked control path snapshot)
  | .applyCommand id command updatedMs => AtomicAt content 0
      (Jobs.ProgressFile.applyCommandChecked control path id command updatedMs)

/-- Where the content reads and there is something to write: the checks up to the rename, and the
new content. -/
def plan : MetadataUpdate → Option (Commit (Option Bytes))
  | .append originalPath now => Ops.TrashMetadata.appendPlan unicode path originalPath now content
  | .appendEntry entry => Ops.TrashMetadata.appendEntryPlan unicode path entry content
  | .remove trashedPath => Ops.TrashMetadata.removePlan unicode path trashedPath content
  | .upsert snapshot => Jobs.ProgressFile.upsertPlan path snapshot content
  | .applyCommand id command updatedMs =>
      Jobs.ProgressFile.applyCommandPlan path id command updatedMs content

/-- An update is atomic exactly where the check after the rename passes, if the rename is reached
and changes the content. -/
theorem updated_atomic_iff (update : MetadataUpdate) :
    update.Atomic unicode control path content ↔
      PassesAfter control content (update.plan unicode path content) := by
  cases update with
  | append originalPath now =>
      exact (Ops.TrashMetadata.appendTrashMetadataChecked_planned originalPath now).atomic_iff
  | appendEntry entry =>
      exact (Ops.TrashMetadata.appendTrashMetadataEntryChecked_planned entry).atomic_iff
  | remove trashedPath =>
      exact (Ops.TrashMetadata.removeTrashMetadataChecked_planned trashedPath).atomic_iff
  | upsert snapshot => exact (Jobs.ProgressFile.upsertChecked_planned snapshot).atomic_iff
  | applyCommand id command updatedMs =>
      exact (Jobs.ProgressFile.applyCommandChecked_planned id command updatedMs).atomic_iff

section Torn

def firstJob : Jobs.JobProgressSnapshot :=
  ⟨⟨1⟩, .foreground, .interactive, "", none, .running, 0, 1, "", 0⟩

/-- The answer to the fourteenth check is a cancellation. -/
def cancelledLast : Control GfmError := fun index => if index = 13 then some .cancelled else none

/-- The first progress of a job is cancelled after its rename: the update fails, and the job is in
the store. -/
theorem upsert_torn :
    ¬(upsert firstJob).Atomic Unicode.ascii cancelledLast ["progress"] none := by
  intro atomic
  have changed := atomic .cancelled
    ⟨some (Jobs.ProgressFile.encode [firstJob]), 14⟩ rfl
  cases changed

end Torn

end MetadataUpdate

end Gfm

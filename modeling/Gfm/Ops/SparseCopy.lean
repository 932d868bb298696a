import Gfm.Lib.SeekFile

/-!
# Sparse copies

The bytes of a copied file are written chunk by chunk. A sparse copy writes only the runs of bytes
that are not zero and moves past the others; in the end it sets the length of the file. The file
reads as its source, however the source was cut into chunks.
-/

namespace Gfm.Ops

open List

/-- Each turn of the loop takes the run of zeros, or of other bytes, at the front of what is left
of the chunk. -/
def writeSparseChunk (destination : SeekFile) : List UInt8 → SeekFile
  | [] => destination
  | byte :: rest =>
      if byte = 0 then
        writeSparseChunk (destination.seekForward (byte :: rest.takeWhile (· == 0)).length)
          (rest.dropWhile (· == 0))
      else
        writeSparseChunk (destination.writeAll (byte :: rest.takeWhile (· != 0)))
          (rest.dropWhile (· != 0))
  termination_by chunk => chunk.length
  decreasing_by
    · exact Nat.lt_succ_of_le (dropWhile_sublist _).length_le
    · exact Nat.lt_succ_of_le (dropWhile_sublist _).length_le

def writeCopyChunk (preserveSparseHoles : Bool) (destination : SeekFile) (chunk : List UInt8) :
    SeekFile :=
  if preserveSparseHoles then writeSparseChunk destination chunk else destination.writeAll chunk

/-- The loop of a copy, over the chunks that the source gives: it ends with the first empty one. -/
def copyLoop (preserveSparseHoles : Bool) (destination : SeekFile) (written : Nat) :
    List (List UInt8) → SeekFile × Nat
  | [] => (destination, written)
  | chunk :: chunks =>
      if chunk = [] then (destination, written)
      else copyLoop preserveSparseHoles (writeCopyChunk preserveSparseHoles destination chunk)
        (written + chunk.length) chunks

/-- A copy that is not cancelled, and that the file system does not fail. -/
def copyFileBytesTracked (preserveSparseHoles : Bool) (chunks : List (List UInt8)) :
    SeekFile × Nat :=
  let (destination, written) := copyLoop preserveSparseHoles .fresh 0 chunks
  (destination.setLen written, written)

variable {destination : SeekFile} {content : List UInt8}

theorem holds_writeSparseChunk (chunk : List UInt8) (holds : destination.Holds content) :
    (writeSparseChunk destination chunk).Holds (content ++ chunk) := by
  fun_induction writeSparseChunk destination chunk generalizing content with
  | case1 destination => simpa using holds
  | case2 destination rest ih =>
      have onlyZeros : rest.takeWhile (· == 0) =
          List.replicate (rest.takeWhile (· == 0)).length 0 :=
        eq_replicate_of_mem fun byte listed => by
          simpa using mem_takeWhile_imp listed
      have left := ih (holds.seekForward _)
      have split : List.replicate (0 :: rest.takeWhile (· == 0)).length 0 ++
          rest.dropWhile (· == 0) = 0 :: rest := by
        rw [length_cons, replicate_succ, ← onlyZeros, cons_append,
          takeWhile_append_dropWhile]
      simpa only [append_assoc, split] using left
  | case3 destination byte rest other ih =>
      have left := ih (holds.writeAll _)
      have split : (byte :: rest.takeWhile (· != 0)) ++ rest.dropWhile (· != 0) =
          byte :: rest := by
        rw [cons_append, takeWhile_append_dropWhile]
      simpa only [append_assoc, split] using left

theorem holds_writeCopyChunk (preserveSparseHoles : Bool) (chunk : List UInt8)
    (holds : destination.Holds content) :
    (writeCopyChunk preserveSparseHoles destination chunk).Holds (content ++ chunk) := by
  cases preserveSparseHoles with
  | true => exact holds_writeSparseChunk chunk holds
  | false => exact holds.writeAll chunk

theorem holds_chunks (chunks : List (List UInt8)) (holds : destination.Holds content) :
    (chunks.foldl writeSparseChunk destination).Holds (content ++ chunks.flatten) := by
  induction chunks generalizing destination content with
  | nil => simpa using holds
  | cons chunk chunks ih =>
      simpa [append_assoc] using ih (holds_writeSparseChunk chunk holds)

/-- However a content is cut into chunks, the chunks written to a new file read as the content once
the length of the file is set. -/
theorem bytes_sparseChunks (chunks : List (List UInt8)) :
    ((chunks.foldl writeSparseChunk .fresh).setLen chunks.flatten.length).bytes =
      chunks.flatten := by
  have holds := holds_chunks chunks SeekFile.holds_fresh
  simpa using holds.bytes_setLen

/-- A copy reads the chunks up to the first empty one, and leaves their bytes. -/
theorem copyFileBytesTracked_bytes (preserveSparseHoles : Bool) (chunks : List (List UInt8)) :
    (copyFileBytesTracked preserveSparseHoles chunks).1.bytes =
        (chunks.takeWhile (· ≠ [])).flatten ∧
      (copyFileBytesTracked preserveSparseHoles chunks).2 =
        (chunks.takeWhile (· ≠ [])).flatten.length := by
  have general : ∀ (chunks : List (List UInt8)) (destination : SeekFile) (content : List UInt8),
      destination.Holds content →
      (copyLoop preserveSparseHoles destination content.length chunks).1.Holds
          (content ++ (chunks.takeWhile (· ≠ [])).flatten) ∧
        (copyLoop preserveSparseHoles destination content.length chunks).2 =
          (content ++ (chunks.takeWhile (· ≠ [])).flatten).length := by
    intro chunks
    induction chunks with
    | nil => exact fun destination content holds => by simpa [copyLoop] using holds
    | cons chunk chunks ih =>
        intro destination content holds
        rw [copyLoop]
        split
        case isTrue ended => simpa [ended] using holds
        case isFalse more =>
          have later := ih _ _ (holds_writeCopyChunk preserveSparseHoles chunk holds)
          simpa [more, append_assoc] using later
  have all := general chunks .fresh [] SeekFile.holds_fresh
  rw [nil_append] at all
  have whole := all.1.bytes_setLen
  rw [← all.2] at whole
  exact ⟨whole, all.2⟩

end Gfm.Ops

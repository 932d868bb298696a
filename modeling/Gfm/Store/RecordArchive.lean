import Gfm.Store.Records

/-!
# The memory-mapped record archive

The archive over the mapped bytes: where each record's line lies, and a directory of the ids in
order. A record is parsed when it is asked for.
-/

namespace Gfm.Store

open Sorted Wire

structure Range where
  start : Nat
  stop : Nat
  deriving DecidableEq, Repr

def slice (bytes : Bytes) (range : Range) : Bytes := (bytes.take range.stop).drop range.start

/-- The line at an offset, and where the next one starts. -/
def nextLine (bytes : Bytes) (start : Nat) : Option (Range × Nat) :=
  if bytes.length ≤ start then none
  else
    let lineEnd := start + ((bytes.drop start).takeWhile (· ≠ LineLog.newline)).length
    let stop :=
      if start < lineEnd ∧ bytes[lineEnd - 1]? = some LineLog.carriageReturn then lineEnd - 1
      else lineEnd
    some (⟨start, stop⟩, if lineEnd < bytes.length then lineEnd + 1 else bytes.length)

theorem lt_of_nextLine {bytes : Bytes} {start next : Nat} {line : Range}
    (found : nextLine bytes start = some (line, next)) : start < next := by
  simp only [nextLine] at found
  split at found
  · cases found
  · cases found
    split <;> omega

def tab : UInt8 := 9

def parseU64Bytes (utf8 : Utf8Report) (value : Bytes) (field : String) : Except String U64 :=
  if value = [] then .error ("invalid " ++ field ++ " \x60\x60: empty integer")
  else
    value.foldlM (fun (parsed : U64) byte =>
      if byte.toNat < 48 ∨ 57 < byte.toNat then
        .error ("invalid " ++ field ++ " \x60" ++ utf8.lossy value ++ "\x60: expected digits")
      else if fits : 10 * parsed.val + (byte.toNat - 48) < 2 ^ 64 then .ok ⟨_, fits⟩
      else
        .error ("invalid " ++ field ++ " \x60" ++ utf8.lossy value ++ "\x60: integer overflow")) 0

def parseRecordId (utf8 : Utf8Report) (line : Bytes) : Except String FileId64 :=
  match line.splitOn tab with
  | [] => .error "missing volume field"
  | volume :: fields => do
      let volume ← parseU64Bytes utf8 volume "volume"
      match fields with
      | [] => .error "missing node field"
      | node :: _ => do
          let node ← parseU64Bytes utf8 node "node"
          .ok (fileId volume node)

structure RecordDirectoryEntry where
  id : FileId64
  index : Nat
  deriving DecidableEq

def RecordDirectoryEntry.key (entry : RecordDirectoryEntry) : FileId := entry.id.val

structure MmapRecordArchive where
  path : Path
  mmap : Bytes
  version : StoreVersion
  records : List Range
  directory : List RecordDirectoryEntry

structure MmapRecordBatch where
  records : List FileRecord
  missing : Nat
  deriving DecidableEq

/-- The lines with their ids, from an offset on; `index` counts the records before it. -/
def scanRecords (utf8 : Utf8Report) (path : Path) (mmap : Bytes) (limit index offset : Nat) :
    Except GfmError (List (Range × FileId64)) :=
  if _below : offset < limit then
    match found : nextLine mmap offset with
    | none => .ok []
    | some (line, next) =>
        have := lt_of_nextLine found
        if slice mmap line = [] then scanRecords utf8 path mmap limit index next
        else
          match parseRecordId utf8 (slice mmap line) with
          | .error reason => .error (lineError path (index + 2) reason)
          | .ok id => (scanRecords utf8 path mmap limit (index + 1) next).map ((line, id) :: ·)
  else .ok []
termination_by limit - offset

namespace MmapRecordArchive

def openArchive (utf8 : Utf8Report) (path : Path) (mmap : Bytes) :
    Except GfmError MmapRecordArchive := do
  verifyRecordChecksum path mmap
  match nextLine mmap 0 with
  | none => .error (.format ("empty store " ++ path.display))
  | some (header, offset) =>
      match LineLog.decodeText (slice mmap header) with
      | none =>
          .error (.format ("invalid store header in " ++ path.display ++ ": " ++
            utf8.error (slice mmap header)))
      | some header => do
          let version ← recordVersion path header
          let lines ← scanRecords utf8 path mmap (indexedLen recordChecksumFooter mmap) 0 offset
          .ok {
            path, mmap, version
            records := lines.map Prod.fst
            directory := sortByKey RecordDirectoryEntry.key
              (lines.zipIdx.map fun line => ⟨line.1.2, line.2⟩) }

variable (unicode : Unicode) (utf8 : Utf8Report) (archive : MmapRecordArchive)

def record (index : Nat) : Except GfmError FileRecord :=
  match archive.records[index]? with
  | none =>
      .error (.format (archive.path.display ++ " record index " ++ toString index ++
        " out of bounds"))
  | some range =>
      match LineLog.decodeText (slice archive.mmap range) with
      | none =>
          .error (.format (archive.path.display ++ " line " ++ toString (index + 2) ++
            " invalid UTF-8: " ++ utf8.error (slice archive.mmap range)))
      | some line =>
          (parseRecord unicode archive.version line).mapError (lineError archive.path (index + 2))

def len : Nat := archive.records.length

def allRecords : Except GfmError (List FileRecord) :=
  (List.range archive.len).mapM (archive.record unicode utf8)

def volumeOf (entry : RecordDirectoryEntry) : Nat := entry.id.val.volume.value

def containsVolume (volume : VolumeId) : Bool :=
  (binarySearchByKey archive.directory volume.value volumeOf).isSome

def recordsForVolume (volume : VolumeId) : Except GfmError (List FileRecord) :=
  let start := partitionPoint (fun entry => volumeOf entry < volume.value) archive.directory
  let stop := partitionPoint (fun entry => volumeOf entry ≤ volume.value) archive.directory
  if start = stop then .ok []
  else
    (sortByKey RecordDirectoryEntry.index ((archive.directory.take stop).drop start)).mapM
      fun entry => archive.record unicode utf8 entry.index

def find (id : FileId64) : Except GfmError (Option FileRecord) :=
  match (binarySearchByKey archive.directory id.val RecordDirectoryEntry.key).bind
      (archive.directory[·]?) with
  | none => .ok none
  | some entry => (archive.record unicode utf8 entry.index).map some

/-- The index after the entries with smaller ids. -/
def skipSmaller (id : FileId64) (directoryIndex : Nat) : Nat :=
  directoryIndex + partitionPoint (fun entry => (compare entry.key id.val).isLT)
    (archive.directory.drop directoryIndex)

/-- The walk over the ids and the directory side by side. -/
def sortedIdsFrom (previous : Option FileId64) (directoryIndex : Nat) (batch : MmapRecordBatch) :
    List FileId64 → Except GfmError MmapRecordBatch
  | [] => .ok batch
  | id :: ids =>
      if previous.any fun previous => (compare id.val previous.val).isLT then
        .error (.format (archive.path.display ++ " batch record lookup ids must be sorted"))
      else if previous = some id then sortedIdsFrom previous directoryIndex batch ids
      else
        let directoryIndex := archive.skipSmaller id directoryIndex
        match archive.directory[directoryIndex]? with
        | none =>
            sortedIdsFrom (some id) directoryIndex { batch with missing := batch.missing + 1 } ids
        | some entry =>
            if entry.id = id then do
              let record ← archive.record unicode utf8 entry.index
              sortedIdsFrom (some id) directoryIndex
                { batch with records := batch.records ++ [record] } ids
            else
              sortedIdsFrom (some id) directoryIndex
                { batch with missing := batch.missing + 1 } ids

def recordsForSortedIds (ids : List FileId64) : Except GfmError MmapRecordBatch :=
  archive.sortedIdsFrom unicode utf8 none 0 ⟨[], 0⟩ ids

end MmapRecordArchive

end Gfm.Store

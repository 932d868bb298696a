import Gfm.Lib.Sorted
import Gfm.Lib.Wire
import Gfm.Types

/-!
# Lists of file ids

Sorted ids as differences of numbers, plain or in blocks. A block holds the differences of its
ids, or runs of ids with consecutive nodes where these are shorter; a directory of the blocks
comes before them. A reader fails with an error, or panics where an allocation is larger than any
object may be. That a vector which grows by what is read from the bytes outgrows the memory is
not modelled; a run of ids is not read from the bytes, and the growth of its block is.
-/

namespace Gfm.Store

open Sorted Wire

inductive Fault where
  | error (error : GfmError)
  | panic
  deriving DecidableEq, Repr

/-- The size no object exceeds, and no allocation. -/
def isizeMax : Nat := 2 ^ 63 - 1

section Numbers

variable (path : Path)

def ended : Fault := .error (.io path "failed to fill whole buffer")

def overflowed : Fault := .error (.io path "varint overflow")

def readNumber : Reader Fault Nat := readVarint (ended path) (overflowed path)

def idFormatError (reason : String) : Fault :=
  .error (.format ("invalid id block store " ++ path.display ++ ": " ++ reason))

def contentFormatError (reason : String) : Fault :=
  .error (.format ("invalid content store " ++ path.display ++ ": " ++ reason))

def checkedAdd (fault : Fault) (left right : Nat) : Except Fault Nat :=
  if left + right < 2 ^ 64 then .ok (left + right) else .error fault

/-- A vector of zeros of this many bytes, filled from the reader. -/
def readBytes (count : Nat) : Reader Fault Bytes :=
  if isizeMax < count then fail .panic else readExact (ended path) count

end Numbers

section Deltas

def firstId : FileId := ⟨⟨0⟩, 0⟩

/-- An id after the one before it; the node is a difference only within a volume. -/
def writeIdAfter (previous id : FileId) : Bytes :=
  writeVarint (id.volume.value - previous.volume.value) ++
    writeVarint (if id.volume = previous.volume then id.node - previous.node else id.node)

def readIdAfter (path : Path) (volumeOverflow nodeOverflow : Fault) (previous : FileId) :
    Reader Fault FileId := do
  let volumeDelta ← readNumber path
  let volume ← checkedAdd volumeOverflow previous.volume.value volumeDelta
  let nodeDelta ← readNumber path
  let node ←
    if volume = previous.volume.value then checkedAdd nodeOverflow previous.node nodeDelta
    else pure nodeDelta
  pure ⟨⟨volume⟩, node⟩

def writeIdsFrom : FileId → List FileId → Bytes := writeChain writeIdAfter id

def writeFileIds (ids : List FileId) : Bytes :=
  let ids := sortByKey id ids
  writeVarint ids.length ++ writeIdsFrom firstId ids

def readFileIds (path : Path) : Reader Fault (List FileId) := do
  let idCount ← readNumber path
  readChain (readIdAfter path (contentFormatError path "volume id overflow")
    (contentFormatError path "file node id overflow")) id idCount firstId

def writeDeltaFileIds (ids : List FileId) : Bytes := writeIdsFrom firstId ids

def readBlockId (path : Path) : FileId → Reader Fault FileId :=
  readIdAfter path (idFormatError path "volume id overflow")
    (idFormatError path "file node id overflow")

def readDeltaFileIds (path : Path) (count : Nat) : Reader Fault (List FileId) :=
  readChain (readBlockId path) id count firstId

end Deltas

section Runs

structure IdRun where
  start : FileId
  entries : Nat
  deriving DecidableEq

def IdRun.last (run : IdRun) : FileId := ⟨run.start.volume, run.start.node + (run.entries - 1)⟩

def IdRun.ids (run : IdRun) : List FileId :=
  (List.range run.entries).map fun offset => ⟨run.start.volume, run.start.node + offset⟩

/-- The runs from the open one on. -/
def idRunsFrom (run : IdRun) (previous : FileId) : List FileId → List IdRun
  | [] => [run]
  | id :: ids =>
      if id.volume = previous.volume ∧ id.node = min (previous.node + 1) (2 ^ 64 - 1) then
        idRunsFrom { run with entries := run.entries + 1 } id ids
      else run :: idRunsFrom ⟨id, 1⟩ id ids

def idRuns : List FileId → List IdRun
  | [] => []
  | first :: rest => idRunsFrom ⟨first, 1⟩ first rest

def writeRunFileIds (ids : List FileId) : Bytes :=
  let runs := idRuns ids
  writeVarint runs.length ++
    writeChain (fun previous run => writeIdAfter previous run.start ++ writeVarint run.entries)
      IdRun.last firstId runs

/-- How many items of this size a vector can hold that grows by doubling. -/
def vecRoom (size : Nat) : Nat → Nat → Nat
  | 0, capacity => capacity
  | doublings + 1, capacity =>
      let grown := max 4 (2 * capacity)
      if grown * size ≤ isizeMax then vecRoom size doublings grown else capacity

def fileIdSize : Nat := 16

/-- The ids of the runs, after those that the vector already holds. -/
def readRuns (path : Path) (room : Nat) : Nat → FileId → List FileId → Reader Fault (List FileId)
  | 0, _, ids => pure ids
  | runs + 1, previous, ids => do
      let start ← readBlockId path previous
      let entries ← readNumber path
      if entries = 0 then fail (idFormatError path "empty id run")
      else if room < ids.length + min entries (2 ^ 64 - start.node) then fail .panic
      else if 2 ^ 64 < start.node + entries then fail (idFormatError path "file node id overflow")
      else readRuns path room runs (IdRun.last ⟨start, entries⟩) (ids ++ IdRun.ids ⟨start, entries⟩)

def readRunFileIds (path : Path) (count : Nat) : Reader Fault (List FileId) := do
  let runCount ← readNumber path
  let ids ← readRuns path (vecRoom fileIdSize 64 (min count 1000000)) runCount firstId []
  if ids.length ≠ count then fail (idFormatError path "id run count mismatch")
  else pure ids

end Runs

section Blocks

inductive IdBlockCodec where
  | delta
  | run
  deriving DecidableEq, Repr

def IdBlockCodec.asCode : IdBlockCodec → Nat
  | delta => 0
  | run => 1

def IdBlockCodec.fromCode (path : Path) (value : Nat) : Except Fault IdBlockCodec :=
  if value = 0 then .ok .delta
  else if value = 1 then .ok .run
  else .error (idFormatError path "unsupported id block codec")

structure IdBlock where
  first : FileId
  entries : Nat
  codec : IdBlockCodec
  len : Nat
  deriving DecidableEq

def defaultIdBlockSize : Nat := 128

def blockedIdsV2Marker : Nat := 0

def blockedIdsV2Version : Nat := 2

/-- The list in pieces of the size; the last one may be shorter. -/
def chunks (size : Nat) (ids : List FileId) : List (List FileId) :=
  if ids = [] ∨ size = 0 then []
  else ids.take size :: chunks size (ids.drop size)
termination_by ids.length
decreasing_by
  rename_i more
  rw [List.length_drop]
  have := List.length_pos_iff.mpr fun none => more (Or.inl none)
  omega

def encodeBestBlock (ids : List FileId) : IdBlockCodec × Bytes :=
  if (writeRunFileIds ids).length < (writeDeltaFileIds ids).length then
    (.run, writeRunFileIds ids)
  else (.delta, writeDeltaFileIds ids)

def idBlockOf (ids : List FileId) : IdBlock where
  first := ids.headD firstId
  entries := ids.length
  codec := (encodeBestBlock ids).1
  len := (encodeBestBlock ids).2.length

def writeIdBlock (block : IdBlock) : Bytes :=
  writeVarint block.first.volume.value ++ (writeVarint block.first.node ++
    (writeVarint block.entries ++ (writeVarint block.codec.asCode ++ writeVarint block.len)))

def writeBlockHeader (blocks : List (List FileId)) : Bytes :=
  writeVarint blockedIdsV2Marker ++ (writeVarint blockedIdsV2Version ++
    (writeVarint defaultIdBlockSize ++ (writeVarint blocks.length ++
      (blocks.map idBlockOf).flatMap writeIdBlock)))

def blockPayload (blocks : List (List FileId)) : Bytes :=
  blocks.flatMap fun block => (encodeBestBlock block).2

def writeBlockedFileIds (ids : List FileId) : Bytes :=
  let ids := sortDedup ids
  let blocks := chunks defaultIdBlockSize ids
  writeVarint ids.length ++ (writeBlockHeader blocks ++ blockPayload blocks)

def readIdBlockV1 (path : Path) : Reader Fault IdBlock := do
  let volume ← readNumber path
  let node ← readNumber path
  let entries ← readNumber path
  let len ← readNumber path
  pure { first := ⟨⟨volume⟩, node⟩, entries, codec := .delta, len }

def readIdBlockV2 (path : Path) : Reader Fault IdBlock := do
  let volume ← readNumber path
  let node ← readNumber path
  let entries ← readNumber path
  let code ← readNumber path
  let codec ← IdBlockCodec.fromCode path code
  let len ← readNumber path
  pure { first := ⟨⟨volume⟩, node⟩, entries, codec, len }

def readIdBlocks (readBlock : Reader Fault IdBlock) (path : Path) :
    Reader Fault (List IdBlock) := do
  let blockCount ← readNumber path
  readChain (fun _ : Unit => readBlock) (fun _ => ()) blockCount ()

def readBlockedHeader (path : Path) : Reader Fault (List IdBlock) := do
  let blockSize ← readNumber path
  if blockSize = blockedIdsV2Marker then
    let version ← readNumber path
    if version ≠ blockedIdsV2Version then fail (idFormatError path "unsupported blocked id version")
    else
      let blockSize ← readNumber path
      if blockSize = 0 then fail (idFormatError path "zero id block size")
      else readIdBlocks (readIdBlockV2 path) path
  else readIdBlocks (readIdBlockV1 path) path

def blockPayloadLen (path : Path) (blocks : List IdBlock) : Except Fault Nat :=
  blocks.foldlM (fun sum block => checkedAdd (idFormatError path "id block range overflow") sum
    block.len) 0

/-- The ids of one block, read from a slice of its own. -/
def readEncodedFileIds (path : Path) (block : IdBlock) (bytes : Bytes) :
    Except Fault (List FileId) :=
  let reader := match block.codec with
    | .delta => readDeltaFileIds path block.entries
    | .run => readRunFileIds path block.entries
  (reader.run bytes).map Prod.fst

/-- The bytes from `start` up to `stop`, if there are that many. -/
def getRange (fault : Fault) (bytes : Bytes) (start stop : Nat) : Except Fault Bytes :=
  if start ≤ stop ∧ stop ≤ bytes.length then .ok ((bytes.take stop).drop start)
  else .error fault

def readPayload (path : Path) (payload : Bytes) : Nat → List IdBlock → Except Fault (List FileId)
  | _, [] => .ok []
  | offset, block :: blocks => do
      let stop ← checkedAdd (idFormatError path "id block range overflow") offset block.len
      let bytes ← getRange (idFormatError path "id block out of bounds") payload offset stop
      let ids ← readEncodedFileIds path block bytes
      let others ← readPayload path payload stop blocks
      .ok (ids ++ others)

def readBlockedFileIds (path : Path) : Reader Fault (List FileId) := do
  let count ← readNumber path
  let blocks ← readBlockedHeader path
  let payloadLen ← blockPayloadLen path blocks
  let payload ← readBytes path payloadLen
  let ids ← readPayload path payload 0 blocks
  if ids.length ≠ count then fail (idFormatError path "id count mismatch")
  else pure ids

end Blocks

section Limited

structure BlockedFileIdsLimitedReport where
  ids : List FileId
  truncated : Bool
  encodedLen : Nat
  deriving DecidableEq

/-- What the two limited readers find before the ids: the count, the blocks, where the payload
starts and where it ends. -/
structure BlockedFrame where
  count : Nat
  blocks : List IdBlock
  payloadStart : Nat
  encodedLen : Nat

def readBlockedFrame (path : Path) (bytes : Bytes) : Except Fault BlockedFrame := do
  let (count, afterCount) ← (readNumber path).run bytes
  let (blocks, rest) ← (readBlockedHeader path).run afterCount
  let payloadStart := bytes.length - rest.length
  let payloadLen ← blockPayloadLen path blocks
  let encodedLen ← checkedAdd (idFormatError path "id block range overflow") payloadStart payloadLen
  if bytes.length < encodedLen then .error (idFormatError path "id block out of bounds")
  else .ok { count, blocks, payloadStart, encodedLen }

/-- The block at an offset of the payload. -/
def readBlockAt (path : Path) (bytes : Bytes) (payloadStart payloadOffset : Nat)
    (block : IdBlock) : Except Fault (List FileId) := do
  let start ← checkedAdd (idFormatError path "id block range overflow") payloadStart payloadOffset
  let stop ← checkedAdd (idFormatError path "id block range overflow") start block.len
  let blockBytes ← getRange (idFormatError path "id block out of bounds") bytes start stop
  readEncodedFileIds path block blockBytes

def limitedBlocks (path : Path) (bytes : Bytes) (frame : BlockedFrame) (limit : Nat) :
    Nat → List FileId → List IdBlock → Except Fault BlockedFileIdsLimitedReport
  | _, ids, [] => .ok ⟨ids, false, frame.encodedLen⟩
  | payloadOffset, ids, block :: blocks => do
      let decoded ← readBlockAt path bytes frame.payloadStart payloadOffset block
      if limit ≤ (ids ++ decoded).length then
        .ok ⟨(ids ++ decoded).take limit, limit < frame.count, frame.encodedLen⟩
      else
        let payloadOffset ← checkedAdd (idFormatError path "id block range overflow")
          payloadOffset block.len
        limitedBlocks path bytes frame limit payloadOffset (ids ++ decoded) blocks

def readBlockedFileIdsLimitedReport (path : Path) (bytes : Bytes) (limit : Nat) :
    Except Fault BlockedFileIdsLimitedReport := do
  let frame ← readBlockedFrame path bytes
  if limit = 0 then .ok ⟨[], 0 < frame.count, frame.encodedLen⟩
  else limitedBlocks path bytes frame limit 0 [] frame.blocks

/-- The scan of one block for ids of a volume; a result ends the whole scan. -/
def volumeIds (volume : VolumeId) (limit : Nat) (ids : List FileId) :
    List FileId → List FileId × Option Bool
  | [] => (ids, none)
  | id :: rest =>
      if id.volume.value < volume.value then volumeIds volume limit ids rest
      else if volume.value < id.volume.value then (ids, some false)
      else if limit < (ids ++ [id]).length then ((ids ++ [id]).take limit, some true)
      else volumeIds volume limit (ids ++ [id]) rest

def volumeBlocks (path : Path) (bytes : Bytes) (payloadStart : Nat) (volume : VolumeId)
    (limit : Nat) : Nat → List FileId → List IdBlock → Except Fault (List FileId × Bool)
  | _, ids, [] => .ok (ids, false)
  | payloadOffset, ids, block :: blocks => do
      let start ← checkedAdd (idFormatError path "id block range overflow") payloadStart
        payloadOffset
      let _stop ← checkedAdd (idFormatError path "id block range overflow") start block.len
      if volume.value < block.first.volume.value then .ok (ids, false)
      else
        let payloadEnd := checkedAdd (idFormatError path "id block range overflow") payloadOffset
          block.len
        if blocks.head?.any fun next => next.first.volume.value < volume.value then do
          let payloadOffset ← payloadEnd
          volumeBlocks path bytes payloadStart volume limit payloadOffset ids blocks
        else do
          let decoded ← readBlockAt path bytes payloadStart payloadOffset block
          match volumeIds volume limit ids decoded with
          | (ids, some truncated) => .ok (ids, truncated)
          | (ids, none) =>
              let payloadOffset ← payloadEnd
              volumeBlocks path bytes payloadStart volume limit payloadOffset ids blocks

def readBlockedFileIdsForVolumeLimited (path : Path) (bytes : Bytes) (volume : VolumeId)
    (limit : Nat) : Except Fault (List FileId × Bool) := do
  let frame ← readBlockedFrame path bytes
  if limit = 0 then .ok ([], false)
  else volumeBlocks path bytes frame.payloadStart volume limit 0 [] frame.blocks

/-- One block alone; the payload is not measured before its bytes are taken. -/
def readBlockedFileIdBlock (path : Path) (bytes : Bytes) (blockIndex : Nat) :
    Except Fault (List FileId) := do
  let (_, afterCount) ← (readNumber path).run bytes
  let (blocks, rest) ← (readBlockedHeader path).run afterCount
  match blocks[blockIndex]? with
  | none => .error (idFormatError path "id block index out of bounds")
  | some target =>
      let skipLen ← blockPayloadLen path (blocks.take blockIndex)
      readBlockAt path bytes (bytes.length - rest.length) skipLen target

end Limited

end Gfm.Store

import Gfm.Lib.LineLog
import Gfm.Store.FileIds
import Gfm.Store.Integrity
import Gfm.Text

/-!
# The posting codec

A posting is a term, its ids and, in the later versions of the format, positions for some of the
ids. The limited readers work on the bytes of one posting and stop after a number of ids, and
after the same number of position entries.
-/

namespace Gfm.Store

open Sorted Wire

inductive ContentStoreVersion where
  | legacy
  | indexedIds
  | indexedPositions
  | indexedBlockedPositions
  | indexedChecksummed
  deriving DecidableEq, Repr

namespace ContentStoreVersion

def usesPositions : ContentStoreVersion → Bool
  | indexedPositions | indexedBlockedPositions | indexedChecksummed => true
  | legacy | indexedIds => false

def usesBlockedIds : ContentStoreVersion → Bool
  | indexedBlockedPositions | indexedChecksummed => true
  | legacy | indexedIds | indexedPositions => false

def hasChecksum (version : ContentStoreVersion) : Bool := version = indexedChecksummed

end ContentStoreVersion

section Positions

/-- The offsets, each as the difference to the one before it. -/
def writeOffsets (offsets : List Nat) : Bytes :=
  writeVarint offsets.length ++
    writeChain (fun previous position => writeVarint (position - previous)) id 0 offsets

def writePositionsAfter (previous : FileId) (entry : ContentPositions) : Bytes :=
  writeIdAfter previous entry.id ++ writeOffsets (sortDedup entry.positions)

def writeContentPositions (positions : List ContentPositions) : Bytes :=
  let positions := sortByKey ContentPositions.id positions
  writeVarint positions.length ++
    writeChain writePositionsAfter ContentPositions.id firstId positions

variable (path : Path)

def readOffset (previousPosition : Nat) : Reader Fault Nat := do
  let delta ← readNumber path
  if 2 ^ 32 ≤ delta then fail (contentFormatError path "content position overflow")
  else if 2 ^ 32 ≤ previousPosition + delta then
    fail (contentFormatError path "content position overflow")
  else pure (previousPosition + delta)

def readOffsets (positionCount : Nat) : Reader Fault (List Nat) :=
  readChain (readOffset path) id positionCount 0

def readPositionId : FileId → Reader Fault FileId :=
  readIdAfter path (contentFormatError path "position volume id overflow")
    (contentFormatError path "position file node id overflow")

def readPositionsAfter (previous : FileId) : Reader Fault ContentPositions := do
  let id ← readPositionId path previous
  let positionCount ← readNumber path
  let positions ← readOffsets path positionCount
  pure ⟨id, positions⟩

def readContentPositions : Reader Fault (List ContentPositions) := do
  let entryCount ← readNumber path
  readChain (readPositionsAfter path) ContentPositions.id entryCount firstId

/-- The size of an entry: an id and a vector. -/
def contentPositionsSize : Nat := 40

def readContentPositionsLimited (limit : Nat) : Reader Fault (List ContentPositions × Bool) := do
  let entryCount ← readNumber path
  let readEntries := min entryCount limit
  if isizeMax < readEntries * contentPositionsSize then fail .panic
  else
    let entries ← readChain (readPositionsAfter path) ContentPositions.id readEntries firstId
    pure (entries, limit < entryCount)

/-- The entries of a volume, from an entry on; the reader goes no further than it must. -/
def readVolumePositions (volume : VolumeId) (limit : Nat) :
    Nat → FileId → List ContentPositions → Reader Fault (List ContentPositions × Bool)
  | 0, _, entries => pure (entries, false)
  | count + 1, previous, entries => do
      let id ← readPositionId path previous
      let positionCount ← readNumber path
      if volume.value < id.volume.value then pure (entries, false)
      else if id.volume = volume ∧ limit ≤ entries.length then pure (entries, true)
      else
        let positions ← readOffsets path positionCount
        readVolumePositions volume limit count id
          (if id.volume = volume then entries ++ [⟨id, positions⟩] else entries)

def readContentPositionsForVolumeLimited (volume : VolumeId) (limit : Nat) :
    Reader Fault (List ContentPositions × Bool) := do
  let entryCount ← readNumber path
  readVolumePositions path volume limit entryCount firstId []

end Positions

section Postings

/-- The error of a term that is not text. -/
def utf8Error (what : String) (path : Path) (report : Bytes → String) (bytes : Bytes) : Fault :=
  .error (.format ("invalid UTF-8 " ++ what ++ " in " ++ path.display ++ ": " ++ report bytes))

def writeTerm (term : Text) : Bytes :=
  writeVarint (LineLog.encodeText term).length ++ LineLog.encodeText term

def readTerm (what : String) (path : Path) (report : Bytes → String) : Reader Fault Text := do
  let termLen ← readNumber path
  let term ← readBytes path termLen
  match LineLog.decodeText term with
  | none => fail (utf8Error what path report term)
  | some term => pure term

def writeContentPosting (posting : ContentPosting) (version : ContentStoreVersion) : Bytes :=
  writeTerm posting.term ++
    ((if version.usesBlockedIds then writeBlockedFileIds posting.ids
      else writeFileIds posting.ids) ++
      if version.usesPositions then writeContentPositions posting.positions else [])

variable (path : Path) (report : Bytes → String) (version : ContentStoreVersion)

def readContentPostingTerm : Reader Fault Text := readTerm "term" path report

def readContentPosting : Reader Fault ContentPosting := do
  let term ← readContentPostingTerm path report
  let ids ← if version.usesBlockedIds then readBlockedFileIds path else readFileIds path
  let positions ← if version.usesPositions then readContentPositions path else pure []
  pure { term, ids, positions }

structure LimitedContentPosting where
  posting : ContentPosting
  truncated : Bool
  deriving DecidableEq

/-- The ids of a limited read, whether there are more, and how many bytes they took. -/
def readIdsLimited (idBytes : Bytes) (limit : Nat) :
    Except Fault BlockedFileIdsLimitedReport :=
  if version.usesBlockedIds then readBlockedFileIdsLimitedReport path idBytes limit
  else do
    let (ids, rest) ← (readFileIds path).run idBytes
    .ok ⟨ids.take limit, limit < ids.length, idBytes.length - rest.length⟩

def readIdsForVolumeLimited (idBytes : Bytes) (volume : VolumeId) (limit : Nat) :
    Except Fault BlockedFileIdsLimitedReport :=
  if version.usesBlockedIds then do
    let report ← readBlockedFileIdsLimitedReport path idBytes 0
    let (ids, truncated) ← readBlockedFileIdsForVolumeLimited path idBytes volume limit
    .ok ⟨ids, truncated, report.encodedLen⟩
  else do
    let (ids, rest) ← (readFileIds path).run idBytes
    let matching := ids.filter fun id => id.volume = volume
    .ok ⟨matching.take limit, limit < matching.length, idBytes.length - rest.length⟩

/-- A limited read of the bytes of a posting, by a reader for its ids and one for its
positions. -/
def readLimited (readIds : Bytes → Except Fault BlockedFileIdsLimitedReport)
    (readPositions : Reader Fault (List ContentPositions × Bool)) (bytes : Bytes) :
    Except Fault LimitedContentPosting := do
  let (term, idBytes) ← (readContentPostingTerm path report).run bytes
  let ids ← readIds idBytes
  let (positions, truncated) ←
    if version.usesPositions then
      if idBytes.length < ids.encodedLen then
        .error (contentFormatError path "content position range out of bounds")
      else (readPositions.run (idBytes.drop ids.encodedLen)).map Prod.fst
    else .ok ([], false)
  .ok ⟨{ term, ids := ids.ids, positions }, ids.truncated || truncated⟩

def readContentPostingLimited (limit : Nat) : Bytes → Except Fault LimitedContentPosting :=
  readLimited path report version (readIdsLimited path version · limit)
    (readContentPositionsLimited path limit)

def readContentPostingForVolumeLimited (volume : VolumeId) (limit : Nat) :
    Bytes → Except Fault LimitedContentPosting :=
  readLimited path report version (readIdsForVolumeLimited path version · volume limit)
    (readContentPositionsForVolumeLimited path volume limit)

end Postings

end Gfm.Store

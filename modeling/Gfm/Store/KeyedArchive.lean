import Gfm.Lib.IndexedArchive
import Gfm.Lib.SliceSearch
import Gfm.Lib.SortedWalk
import Gfm.Store.ContentCodec

/-!
# Archives of ids under keys

The postings in the order of their keys, then a directory, a footer that says where the directory
starts, and the checksum. A format says what the keys are and how they are written; the substring
archive and the metadata archive are two formats.
-/

namespace Gfm.Store

open IndexedArchive SliceSearch Sorted SortedWalk Wire

structure KeyedPosting (Key : Type) where
  key : Key
  ids : List FileId
  deriving DecidableEq

structure LimitedKeyedPosting (Key : Type) where
  posting : KeyedPosting Key
  truncated : Bool
  deriving DecidableEq

structure KeyedDirectoryEntry (Key : Type) where
  key : Key
  offset : Nat
  len : Nat
  deriving DecidableEq

/-- What one kind of archive has of its own: its magic bytes, how a key and an entry of the
directory are written and read, how the ids of a posting are read, and its errors. -/
structure KeyedFormat (Key : Type) where
  magic : Bytes
  indexFooter : Bytes
  checksumFooter : Bytes
  writeKey : Key → Bytes
  writeDirectoryEntry : KeyedDirectoryEntry Key → Bytes
  readKey : Path → Reader Fault Key
  readDirectoryEntry : Path → Reader Fault (KeyedDirectoryEntry Key)
  readIds : Path → Reader Fault (List FileId)
  readIdsLimited : Path → Bytes → Nat → Except Fault (List FileId)
  formatError : Path → String → Fault
  wrongPosting : String
  unsorted : String

structure MmapKeyedArchive (Key : Type) where
  path : Path
  mmap : Bytes
  directory : List (KeyedDirectoryEntry Key)

namespace KeyedFormat

variable {Key : Type} [Ord Key] (format : KeyedFormat Key)

section Write

variable (postings : List (KeyedPosting Key))

def postingBytes (posting : KeyedPosting Key) : Bytes :=
  format.writeKey posting.key ++ writeBlockedFileIds posting.ids

def directoryEntry (posting : KeyedPosting Key) (offset len : Nat) : KeyedDirectoryEntry Key :=
  ⟨posting.key, offset, len⟩

def directoryBytes (directory : List (KeyedDirectoryEntry Key)) : Bytes :=
  writeVarint directory.length ++ directory.flatMap format.writeDirectoryEntry

def head : Bytes := format.magic ++ writeVarint postings.length

def directory : List (KeyedDirectoryEntry Key) :=
  entriesFrom format.postingBytes directoryEntry (format.head postings).length
    (sortByKey KeyedPosting.key postings)

def front : Bytes :=
  format.head postings ++ (sortByKey KeyedPosting.key postings).flatMap format.postingBytes

/-- Everything before the checksum. -/
def body : Bytes :=
  archive (format.front postings) (format.directoryBytes (format.directory postings))
    format.indexFooter

def write : Bytes :=
  format.body postings ++ Store.checksumFooter format.checksumFooter (format.body postings)

end Write

section Read

variable (path : Path)

def readPosting : Reader Fault (KeyedPosting Key) := do
  let key ← format.readKey path
  let ids ← format.readIds path
  pure { key, ids }

def readDirectoryEntries : Reader Fault (List (KeyedDirectoryEntry Key)) := do
  let count ← readNumber path
  readChain (fun _ : Unit => format.readDirectoryEntry path) (fun _ => ()) count ()

end Read

section Lookup

variable [DecidableEq Key] (search : Search Key) (archive : MmapKeyedArchive Key)

/-- `posting_bytes`. -/
def bytesOf (entry : KeyedDirectoryEntry Key) : Except Fault Bytes := do
  let stop ← checkedAdd (format.formatError archive.path "posting range overflow") entry.offset
    entry.len
  getRange (format.formatError archive.path "posting range out of bounds") archive.mmap entry.offset
    stop

/-- The entry of a key in the directory. -/
def entryFor (key : Key) : Option (KeyedDirectoryEntry Key) :=
  (search.index (archive.directory.map KeyedDirectoryEntry.key) key).bind (archive.directory[·]?)

def postingFor (key : Key) : Except Fault (Option (KeyedPosting Key)) :=
  match entryFor search archive key with
  | none => .ok none
  | some entry => do
      let bytes ← format.bytesOf archive entry
      let (posting, _) ← (format.readPosting archive.path).run bytes
      if posting.key = key then .ok (some posting)
      else .error (format.formatError archive.path format.wrongPosting)

/-- The key of an entry's posting and the bytes of its ids. -/
def idsBytes (entry : KeyedDirectoryEntry Key) : Except Fault (Key × Bytes) := do
  let bytes ← format.bytesOf archive entry
  let (key, idsBytes) ← (format.readKey archive.path).run bytes
  if key = entry.key then .ok (key, idsBytes)
  else .error (format.formatError archive.path format.wrongPosting)

/-- One id more than the limit is read, to know whether there are more. -/
def limitedPostingForEntry (limit : Nat) (entry : KeyedDirectoryEntry Key) :
    Except Fault (LimitedKeyedPosting Key) := do
  let (key, bytes) ← format.idsBytes archive entry
  let ids ← format.readIdsLimited archive.path bytes (min (limit + 1) (2 ^ 64 - 1))
  .ok ⟨⟨key, ids.take limit⟩, limit < ids.length⟩

/-- A lookup of a text that is no key gives nothing. -/
def posting (key : Option Key) : Except Fault (Option (KeyedPosting Key)) :=
  match key with
  | none => .ok none
  | some key => format.postingFor search archive key

def idsFor (key : Option Key) : Except Fault (List FileId) :=
  (format.posting search archive key).map fun posting =>
    (posting.map KeyedPosting.ids).getD []

def idsForLimit (key : Option Key) (limit : Nat) : Except Fault (List FileId × Bool) :=
  match key with
  | none => .ok ([], false)
  | some key =>
      if limit = 0 then .ok ([], false)
      else
        match entryFor search archive key with
        | none => .ok ([], false)
        | some entry => do
            let found ← format.limitedPostingForEntry archive limit entry
            .ok (found.posting.ids, found.truncated)

def idsForVolumeLimit (key : Option Key) (volume : VolumeId) (limit : Nat) :
    Except Fault (List FileId × Bool) :=
  match key with
  | none => .ok ([], false)
  | some key =>
      if limit = 0 then .ok ([], false)
      else
        match entryFor search archive key with
        | none => .ok ([], false)
        | some entry => do
            let (_, bytes) ← format.idsBytes archive entry
            readBlockedFileIdsForVolumeLimited archive.path bytes volume limit

/-- The walk over the keys and the directory side by side. -/
def postingsForSortedLimit (keys : List Key) (limit : Nat) :
    Except Fault (List (LimitedKeyedPosting Key)) :=
  if limit = 0 then .ok []
  else walkFrom KeyedDirectoryEntry.key archive.directory
    (format.limitedPostingForEntry archive limit)
    (format.formatError archive.path format.unsorted) none 0 [] keys

variable (again : Key → Option Key)

/-- `postings_for`: the selected keys in order, each looked up by itself, as a text again. -/
def postingsFor (keys : List Key) : Except Fault (List (KeyedPosting Key)) := do
  let found ← (sortDedup keys).mapM fun key => format.posting search archive (again key)
  .ok (found.filterMap id)

/-- `postings_for_limit`: the walk over the selected keys, as texts again. -/
def postingsForLimit (keys : List Key) (limit : Nat) : Except Fault (List (KeyedPosting Key)) :=
  (format.postingsForSortedLimit archive ((sortDedup keys).filterMap again) limit).map fun found =>
    found.map LimitedKeyedPosting.posting

end Lookup

end KeyedFormat

end Gfm.Store

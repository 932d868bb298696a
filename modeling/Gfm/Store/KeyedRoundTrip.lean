import Gfm.Store.ContentReading
import Gfm.Store.KeyedArchive

/-!
# Reading a written archive of ids under keys

Every posting has an entry in the directory, every entry leads to the bytes of its posting, and the
footers lead to the directory. So the lookups of a key that the format reads back as it is give the
ids of its posting in order, each once: all of them, the first ones, those of a volume, and those of
each key of a batch.
-/

namespace Gfm.Store

open IndexedArchive KeyedFormat List SliceSearch Sorted SortedWalk Std Wire

variable {Key : Type} [Ord Key]

/-- What a format's readers make of what it writes: a key is read back in its written form. -/
structure KeyedFormat.Lawful (format : KeyedFormat Key) (written : Key → Key) : Prop where
  readKey : ∀ path key, (format.writeKey key).length ≤ isizeMax →
    Decodes (format.readKey path) (format.writeKey key) (written key)
  readDirectoryEntry : ∀ path entry, (format.writeDirectoryEntry entry).length ≤ isizeMax →
    entry.offset < 2 ^ 64 → entry.len < 2 ^ 64 →
      Decodes (format.readDirectoryEntry path) (format.writeDirectoryEntry entry) entry
  readIds : ∀ path ids, Writable ids →
    Decodes (format.readIds path) (writeBlockedFileIds ids) (sortDedup ids)
  readIdsLimited : ∀ path ids limit, Writable ids →
    format.readIdsLimited path (writeBlockedFileIds ids) limit = .ok ((sortDedup ids).take limit)

/-- Postings that a program can hold and write: the archive is an object. -/
structure KeyedObject (format : KeyedFormat Key) (postings : List (KeyedPosting Key)) : Prop where
  ids : ∀ posting ∈ postings, ∀ id ∈ posting.ids, Fits id
  short : ∀ posting ∈ postings, posting.ids.length < 2 ^ 64
  written : (format.write postings).length ≤ isizeMax

/-- One posting for each key. -/
structure KeyedFits (format : KeyedFormat Key) (postings : List (KeyedPosting Key)) : Prop
    extends KeyedObject format postings where
  distinct : (postings.map KeyedPosting.key).Nodup

/-- An entry of a directory is for a posting: it has the key and leads to the bytes. -/
structure KeyedFormat.Leads (format : KeyedFormat Key) (archive : MmapKeyedArchive Key)
    (entry : KeyedDirectoryEntry Key) (posting : KeyedPosting Key) : Prop where
  key : entry.key = posting.key
  bytes : format.bytesOf archive entry = .ok (format.postingBytes posting)

/-- The ids under a key, in order, each once. -/
def storedIds [DecidableEq Key] (postings : List (KeyedPosting Key)) (key : Key) : List FileId :=
  ((itemOf KeyedPosting.key postings key).map fun posting => sortDedup posting.ids).getD []

/-- The keys that have ids, in order, each once. -/
def keysFound [DecidableEq Key] (postings : List (KeyedPosting Key)) (keys : List Key) : List Key :=
  (sortDedup keys).filter fun key => storedIds postings key ≠ []

omit [Ord Key] in
/-- Where every posting lists an id, a key has a posting if it has ids. -/
theorem map_itemOf [DecidableEq Key] {postings : List (KeyedPosting Key)}
    (filled : ∀ posting ∈ postings, posting.ids ≠ []) {Value : Type} (value : Value) (key : Key) :
    (itemOf KeyedPosting.key postings key).map (fun _ => value) =
      if storedIds postings key ≠ [] then some value else none := by
  rw [storedIds]
  cases found : itemOf KeyedPosting.key postings key with
  | none => simp
  | some posting =>
      rcases exists_mem_of_ne_nil _ (filled posting (mem_of_find?_eq_some found)) with
        ⟨id, listed⟩
      rw [Option.map_some, Option.map_some, Option.getD_some,
        if_pos (ne_nil_of_mem (mem_sortDedup.mpr listed))]

theorem map_keysFound [DecidableEq Key] {postings : List (KeyedPosting Key)}
    (filled : ∀ posting ∈ postings, posting.ids ≠ []) {Value : Type} (value : Key → Value)
    (keys : List Key) : (keysFound postings keys).map value = (sortDedup keys).filterMap fun key =>
      (itemOf KeyedPosting.key postings key).map fun _ => value key := by
  rw [keysFound, ← filterMap_eq_map', filterMap_filter]
  refine filterMap_congr fun key _ => ?_
  rw [map_itemOf filled]
  simp

section Written

variable (format : KeyedFormat Key) (postings : List (KeyedPosting Key)) (path : Path)

/-- The archive as it opens. -/
def writtenArchive : MmapKeyedArchive Key where
  path := path
  mmap := format.write postings
  directory := format.directory postings

@[simp]
theorem path_writtenArchive : (writtenArchive format postings path).path = path := rfl

/-- Where the footer starts. -/
def KeyedFormat.footerStart : Nat :=
  (format.front postings).length + (format.directoryBytes (format.directory postings)).length

/-- What is written does not depend on how it is read. -/
theorem KeyedFormat.write_congr {other : KeyedFormat Key} (magic : format.magic = other.magic)
    (indexFooter : format.indexFooter = other.indexFooter)
    (checksumFooter : format.checksumFooter = other.checksumFooter)
    (writeKey : format.writeKey = other.writeKey)
    (writeDirectoryEntry : format.writeDirectoryEntry = other.writeDirectoryEntry) :
    format.write postings = other.write postings := by
  have bytes : format.postingBytes = other.postingBytes := by
    funext posting
    rw [postingBytes, postingBytes, writeKey]
  have heads : format.head postings = other.head postings := by rw [head, head, magic]
  have fronts : format.front postings = other.front postings := by rw [front, front, heads, bytes]
  have directories : format.directory postings = other.directory postings := by
    rw [directory, directory, heads, bytes]
  have bodies : format.body postings = other.body postings := by
    rw [body, body, fronts, directories, directoryBytes, directoryBytes, writeDirectoryEntry,
      indexFooter]
  rw [write, write, bodies, checksumFooter]

theorem KeyedFormat.length_body : (format.body postings).length =
    format.footerStart postings + (8 + format.indexFooter.length) := length_archive _ _ _

theorem KeyedFormat.length_write : (format.write postings).length =
    (format.body postings).length + (4 + format.checksumFooter.length) := by
  rw [write, length_append, length_checksumFooter]

theorem KeyedFormat.hasChecksumFooter_write :
    hasChecksumFooter format.checksumFooter (format.write postings) = true :=
  hasChecksumFooter_written _ _

theorem KeyedFormat.front_lt_footerStart :
    (format.front postings).length < format.footerStart postings := by
  have filled := length_pos_iff.mpr (writeVarint_ne_nil (format.directory postings).length)
  rw [footerStart, directoryBytes, length_append]
  omega

/-- The bytes that the footer leads to. -/
theorem KeyedFormat.directory_write :
    ((format.write postings).take (format.footerStart postings)).drop
      (format.front postings).length = format.directoryBytes (format.directory postings) := by
  have inside : format.footerStart postings ≤ (format.body postings).length := by
    rw [length_body]
    omega
  rw [write, take_append_of_le_length inside]
  exact directory_archive _ _ _

theorem KeyedFormat.take_write :
    (format.write postings).take (format.body postings).length = format.body postings := by
  rw [write, take_left]

theorem KeyedFormat.magic_body :
    (format.body postings).drop (format.footerStart postings + 8) = format.indexFooter :=
  magic_archive _ _ _

theorem KeyedFormat.directory_body :
    ((format.body postings).take (format.footerStart postings)).drop
      (format.front postings).length = format.directoryBytes (format.directory postings) :=
  directory_archive _ _ _

variable {format postings}

theorem mem_sortByKey {posting : KeyedPosting Key} :
    posting ∈ sortByKey KeyedPosting.key postings ↔ posting ∈ postings :=
  (sortByKey_perm _ _).mem_iff

/-- What an entry of the directory says of the posting that it is for. -/
theorem KeyedFormat.exists_posting_of_mem {entry : KeyedDirectoryEntry Key}
    (listed : entry ∈ format.directory postings) :
    ∃ index posting, (sortByKey KeyedPosting.key postings)[index]? = some posting ∧
      entry = directoryEntry posting ((format.head postings).length +
        (((sortByKey KeyedPosting.key postings).take index).flatMap format.postingBytes).length)
        (format.postingBytes posting).length :=
  exists_item_of_mem_entriesFrom _ _ listed

omit [Ord Key] in
theorem KeyedFormat.postingBytes_ne_nil (posting : KeyedPosting Key) :
    format.postingBytes posting ≠ [] := by
  rw [postingBytes, writeBlockedFileIds]
  exact append_ne_nil_of_right_ne_nil _
    (append_ne_nil_of_left_ne_nil (writeVarint_ne_nil _) _)

namespace KeyedObject

variable (fits : KeyedObject format postings)
include fits

/-- The parts of the archive are no longer than it is. -/
theorem length_le : format.footerStart postings +
    (8 + format.indexFooter.length) + (4 + format.checksumFooter.length) ≤ isizeMax := by
  have written := fits.written
  rwa [length_write, KeyedFormat.length_body] at written

theorem length_front_le : (format.front postings).length ≤ isizeMax := by
  have small := fits.length_le
  rw [KeyedFormat.footerStart] at small
  omega

theorem length_posting_le {posting : KeyedPosting Key} (listed : posting ∈ postings) :
    (format.postingBytes posting).length ≤ isizeMax := by
  have small := fits.length_front_le
  rcases getElem?_of_mem (mem_sortByKey.mpr listed) with ⟨index, known⟩
  have within := @offset_add_length_le _ format.postingBytes _ _ _ known
  rw [KeyedFormat.front, length_append] at small
  omega

theorem length_key_le {posting : KeyedPosting Key} (listed : posting ∈ postings) :
    (format.writeKey posting.key).length ≤ isizeMax := by
  have small := fits.length_posting_le listed
  rw [KeyedFormat.postingBytes, length_append] at small
  omega

theorem writable {posting : KeyedPosting Key} (listed : posting ∈ postings) :
    Writable posting.ids where
  fits := fits.ids posting listed
  short := fits.short posting listed
  written := by
    have small := fits.length_posting_le listed
    rw [KeyedFormat.postingBytes, length_append] at small
    omega

/-- Every posting takes a byte at least. -/
theorem length_directory_lt : (format.directory postings).length < 2 ^ 64 := by
  have bound : isizeMax < 2 ^ 64 := by decide
  have small := fits.length_front_le
  have each := length_le_length_flatMap (@postingBytes_ne_nil Key format)
    (sortByKey KeyedPosting.key postings)
  rw [KeyedFormat.front, length_append] at small
  rw [KeyedFormat.directory, length_entriesFrom]
  omega

theorem offset_write : ofLeBytes (((format.write postings).drop
    (format.footerStart postings)).take 8) = (format.front postings).length := by
  have bound : isizeMax < 256 ^ 8 := by decide
  have small := fits.length_front_le
  exact offset_archive _ _ format.indexFooter (by omega) _

theorem offset_body : ofLeBytes (((format.body postings).drop
    (format.footerStart postings)).take 8) = (format.front postings).length := by
  have bound : isizeMax < 256 ^ 8 := by decide
  have small := fits.length_front_le
  have offset := offset_archive (format.front postings)
    (format.directoryBytes (format.directory postings)) format.indexFooter (by omega) []
  rwa [append_nil] at offset

theorem leads_written {index : Nat} {posting : KeyedPosting Key}
    (known : (sortByKey KeyedPosting.key postings)[index]? = some posting) :
    format.Leads (writtenArchive format postings path) (KeyedFormat.directoryEntry posting
      ((format.head postings).length + (((sortByKey KeyedPosting.key postings).take index).flatMap
        format.postingBytes).length) (format.postingBytes posting).length) posting := by
  have bound : isizeMax < 2 ^ 64 := by decide
  have small := fits.length_front_le
  have within := @offset_add_length_le _ format.postingBytes _ _ _ known
  rw [KeyedFormat.front, length_append] at small
  refine ⟨rfl, ?_⟩
  generalize before : ((sortByKey KeyedPosting.key postings).take index).flatMap
    format.postingBytes = earlier at within ⊢
  have bytes : ∃ rest, format.write postings = format.head postings ++ earlier ++
      format.postingBytes posting ++ rest := by
    rw [KeyedFormat.write, KeyedFormat.body, archive, KeyedFormat.front,
      flatMap_eq_of_getElem? known, before]
    simp only [append_assoc, append_cancel_left_eq, exists_eq']
  rcases bytes with ⟨rest, bytes⟩
  have slice := getRange_written (format.formatError path "posting range out of bounds")
    (format.head postings ++ earlier) (format.postingBytes posting) rest
  rw [← bytes, length_append] at slice
  have stop : checkedAdd (format.formatError path "posting range overflow")
      ((format.head postings).length + earlier.length) (format.postingBytes posting).length =
        .ok ((format.head postings).length + earlier.length +
          (format.postingBytes posting).length) := if_pos (by omega)
  simp only [KeyedFormat.bytesOf, writtenArchive, KeyedFormat.directoryEntry, stop, bind,
    Except.bind, slice]

/-- Every entry is for a posting. -/
theorem exists_posting {entry : KeyedDirectoryEntry Key}
    (listed : entry ∈ format.directory postings) :
    ∃ posting ∈ postings, format.Leads (writtenArchive format postings path) entry posting := by
  rcases exists_posting_of_mem listed with ⟨index, posting, known, rfl⟩
  exact ⟨posting, mem_sortByKey.mp (mem_of_getElem? known), fits.leads_written path known⟩

/-- Every posting has an entry. -/
theorem exists_entry {posting : KeyedPosting Key} (listed : posting ∈ postings) :
    ∃ entry ∈ format.directory postings,
      format.Leads (writtenArchive format postings path) entry posting := by
  rcases getElem?_of_mem (mem_sortByKey.mpr listed) with ⟨index, known⟩
  refine ⟨_, mem_of_getElem? (i := index) ?_, fits.leads_written path known⟩
  rw [KeyedFormat.directory, getElem?_entriesFrom, known, Option.map_some]

variable {written : Key → Key} (lawful : format.Lawful written)
include lawful

theorem readDirectoryEntries_written :
    (format.readDirectoryEntries path).run (format.directoryBytes (format.directory postings)) =
      .ok (format.directory postings, []) := by
  have bound : isizeMax < 2 ^ 64 := by decide
  have front := fits.length_front_le
  have small := fits.length_le
  have each : ∀ entry ∈ format.directory postings, Decodes (format.readDirectoryEntry path)
      (format.writeDirectoryEntry entry) (id entry) := by
    intro entry listed
    have inside : (format.writeDirectoryEntry entry).length ≤
        ((format.directory postings).flatMap format.writeDirectoryEntry).length :=
      length_le_length_flatMap_of_mem listed
    rcases exists_posting_of_mem listed with ⟨index, posting, known, rfl⟩
    have within := @offset_add_length_le _ format.postingBytes _ _ _ known
    rw [KeyedFormat.front, length_append] at front
    rw [KeyedFormat.footerStart, KeyedFormat.directoryBytes, length_append] at small
    refine lawful.readDirectoryEntry path _ (by omega) ?_ ?_
    · change (format.head postings).length + _ < _
      omega
    · change (format.postingBytes posting).length < _
      omega
  have entries := decodes_readEach each
  rw [map_id] at entries
  have read : Decodes (format.readDirectoryEntries path)
      (format.directoryBytes (format.directory postings)) (format.directory postings) :=
    (decodes_readNumber path fits.length_directory_lt).bind entries
  have whole := read []
  rwa [append_nil] at whole

end KeyedObject

end Written

theorem map_key_directory (format : KeyedFormat Key) (postings : List (KeyedPosting Key)) :
    (format.directory postings).map KeyedDirectoryEntry.key =
      (sortByKey KeyedPosting.key postings).map KeyedPosting.key :=
  map_entriesFrom _ _ KeyedDirectoryEntry.key KeyedPosting.key (fun _ _ _ => rfl) _ _

theorem ascending_directory [TransOrd Key] (format : KeyedFormat Key)
    (postings : List (KeyedPosting Key)) :
    Ascending KeyedDirectoryEntry.key (format.directory postings) := by
  refine pairwise_map.mp (?_ : List.Pairwise (fun left right => (compare left right).isLE) _)
  rw [map_key_directory]
  exact pairwise_map.mpr (ascending_sortByKey _ _)

section Found

variable [DecidableEq Key] {format : KeyedFormat Key} {postings : List (KeyedPosting Key)}
  (path : Path) (search : Search Key)

namespace KeyedObject

variable (fits : KeyedObject format postings)
include fits

omit [DecidableEq Key] in
/-- The search finds an entry of a posting with the key, if there is one. -/
theorem entryFor_cases [TransOrd Key] (key : Key) :
    (entryFor search (writtenArchive format postings path) key = none ∧
        ∀ posting ∈ postings, posting.key ≠ key) ∨
      ∃ entry ∈ format.directory postings, ∃ posting ∈ postings,
        entryFor search (writtenArchive format postings path) key = some entry ∧
          entry.key = key ∧ format.Leads (writtenArchive format postings path) entry posting := by
  have ascending : Ascending id ((format.directory postings).map KeyedDirectoryEntry.key) :=
    pairwise_map.mpr (ascending_directory format postings)
  rw [entryFor, writtenArchive]
  cases index : search.index ((format.directory postings).map KeyedDirectoryEntry.key) key with
  | none =>
      refine Or.inl ⟨rfl, fun posting listed same => ?_⟩
      rcases fits.exists_entry path listed with ⟨entry, present, leads⟩
      exact search.missed ascending index (mem_map.mpr ⟨entry, present, leads.key.trans same⟩)
  | some place =>
      have known := search.found index
      rw [getElem?_map, Option.map_eq_some_iff] at known
      rcases known with ⟨entry, present, same⟩
      have listed := mem_of_getElem? present
      rcases fits.exists_posting path listed with ⟨posting, given, leads⟩
      exact Or.inr ⟨entry, listed, posting, given, present, same, leads⟩

variable {written : Key → Key} (lawful : format.Lawful written) {posting : KeyedPosting Key}
  (listed : posting ∈ postings)
include lawful listed

omit [DecidableEq Key] in
theorem readPosting_written :
    (format.readPosting path).run (format.postingBytes posting) =
      .ok (⟨written posting.key, sortDedup posting.ids⟩, []) := by
  have read : Decodes (format.readPosting path) (format.postingBytes posting)
      ⟨written posting.key, sortDedup posting.ids⟩ :=
    (lawful.readKey path _ (fits.length_key_le listed)).bind
      ((lawful.readIds path _ (fits.writable listed)).andThen (Decodes.pure _))
  have whole := read []
  rwa [append_nil] at whole

variable {entry : KeyedDirectoryEntry Key}
  (leads : format.Leads (writtenArchive format postings path) entry posting)
include leads

/-- The header of an entry's posting is its own, and the ids follow. -/
theorem idsBytes_found (settled : written posting.key = entry.key) :
    format.idsBytes (writtenArchive format postings path) entry =
      .ok (entry.key, writeBlockedFileIds posting.ids) := by
  have read := lawful.readKey path _ (fits.length_key_le listed) (writeBlockedFileIds posting.ids)
  rw [settled] at read
  rw [idsBytes, leads.bytes, KeyedFormat.postingBytes]
  simp only [bind, Except.bind, path_writtenArchive, read, if_true]

/-- The first ids of the posting of an entry. -/
theorem limitedPostingForEntry_found (settled : written posting.key = entry.key) {limit : Nat}
    (small : limit < 2 ^ 64) :
    format.limitedPostingForEntry (writtenArchive format postings path) limit entry =
      .ok ⟨⟨entry.key, (sortDedup posting.ids).take limit⟩,
        limit < (sortDedup posting.ids).length⟩ := by
  have writable := fits.writable listed
  have short : (sortDedup posting.ids).length < 2 ^ 64 :=
    Nat.lt_of_le_of_lt (length_sortDedup_le posting.ids) writable.short
  have first : ((sortDedup posting.ids).take (min (limit + 1) (2 ^ 64 - 1))).take limit =
      (sortDedup posting.ids).take limit := by
    rw [take_take, Nat.min_eq_left (by omega)]
  have more : limit < ((sortDedup posting.ids).take (min (limit + 1) (2 ^ 64 - 1))).length ↔
      limit < (sortDedup posting.ids).length := by
    rw [length_take]
    omega
  rw [limitedPostingForEntry, fits.idsBytes_found path lawful listed leads settled]
  simp only [bind, Except.bind, lawful.readIdsLimited _ _ _ writable, first, more]

variable {key : Key}
  (found : entryFor search (writtenArchive format postings path) key = some entry)
  (own : entry.key = key) (settled : written posting.key = key)
include found settled

/-- The posting of a key whose entry the search finds. -/
theorem posting_found :
    format.posting search (writtenArchive format postings path) (some key) =
      .ok (some ⟨key, sortDedup posting.ids⟩) := by
  have read := fits.readPosting_written path lawful listed
  rw [settled] at read
  rw [KeyedFormat.posting, KeyedFormat.postingFor, found]
  simp only [leads.bytes, bind, Except.bind, path_writtenArchive, read, if_true]

include own

/-- A limited lookup gives the first ids, and says if there are more. -/
theorem idsForLimit_found {limit : Nat} (small : limit < 2 ^ 64) :
    format.idsForLimit search (writtenArchive format postings path) (some key) limit =
      .ok ((sortDedup posting.ids).take limit,
        0 < limit ∧ limit < (sortDedup posting.ids).length) := by
  rw [KeyedFormat.idsForLimit]
  split
  case isTrue zero =>
    rw [zero, take_zero]
    rfl
  case isFalse positive =>
    rw [found]
    simp only [fits.limitedPostingForEntry_found path lawful listed leads (settled.trans own.symm)
      small, bind, Except.bind, Nat.pos_of_ne_zero positive, true_and]

/-- The same for the ids of one volume. -/
theorem idsForVolumeLimit_found (volume : VolumeId) (limit : Nat) :
    format.idsForVolumeLimit search (writtenArchive format postings path) (some key) volume limit =
      .ok ((onVolume volume (sortDedup posting.ids)).take limit,
        0 < limit ∧ limit < (onVolume volume (sortDedup posting.ids)).length) := by
  rw [KeyedFormat.idsForVolumeLimit]
  split
  case isTrue zero =>
    rw [zero, take_zero]
    rfl
  case isFalse positive =>
    have read := readBlockedFileIdsForVolumeLimited_written path (fits.writable listed) []
      volume (Nat.pos_of_ne_zero positive)
    rw [append_nil] at read
    rw [found]
    simp only [fits.idsBytes_found path lawful listed leads (settled.trans own.symm), bind,
      Except.bind, path_writtenArchive, read, Nat.pos_of_ne_zero positive, true_and]

end KeyedObject

/-- A limited lookup of a key without an entry gives nothing. -/
theorem KeyedFormat.idsForLimit_missed {archive : MmapKeyedArchive Key} {key : Key}
    (missed : entryFor search archive key = none) (limit : Nat) :
    format.idsForLimit search archive (some key) limit = .ok ([], false) := by
  rw [idsForLimit, missed]
  split <;> rfl

theorem KeyedFormat.idsForVolumeLimit_missed {archive : MmapKeyedArchive Key} {key : Key}
    (missed : entryFor search archive key = none) (volume : VolumeId) (limit : Nat) :
    format.idsForVolumeLimit search archive (some key) volume limit = .ok ([], false) := by
  rw [idsForVolumeLimit, missed]
  split <;> rfl

end Found

section Lookups

variable [TransOrd Key] [LawfulEqOrd Key] [DecidableEq Key] {format : KeyedFormat Key}
  {postings : List (KeyedPosting Key)} (path : Path) (search : Search Key)

namespace KeyedFits

variable (fits : KeyedFits format postings)
include fits

omit [DecidableEq Key] in
theorem strict_directory : Strict KeyedDirectoryEntry.key (format.directory postings) := by
  refine strict_of_ascending (ascending_directory format postings) ?_
  rw [map_key_directory]
  exact ((sortByKey_perm _ _).map _).nodup_iff.mpr fits.distinct

/-- The entry of a key is the entry of the posting of the key. -/
theorem itemOf_directory (key : Key) :
    (itemOf KeyedDirectoryEntry.key (format.directory postings) key = none ∧
        itemOf KeyedPosting.key postings key = none) ∨
      ∃ entry posting, itemOf KeyedDirectoryEntry.key (format.directory postings) key = some entry ∧
        itemOf KeyedPosting.key postings key = some posting ∧ entry.key = key ∧
          posting ∈ postings ∧ posting.key = key ∧
          format.Leads (writtenArchive format postings path) entry posting := by
  cases found : itemOf KeyedDirectoryEntry.key (format.directory postings) key with
  | none =>
      refine Or.inl ⟨rfl, itemOf_eq_none.mpr fun posting listed same => ?_⟩
      rcases fits.exists_entry path listed with ⟨entry, present, leads⟩
      exact itemOf_eq_none.mp found entry present (leads.key.trans same)
  | some entry =>
      rcases (itemOf_eq_some fits.strict_directory).mp found with ⟨listed, same⟩
      rcases fits.exists_posting path listed with ⟨posting, present, leads⟩
      refine Or.inr ⟨entry, posting, rfl, ?_, same, present, leads.key.symm.trans same, leads⟩
      rw [← same, leads.key]
      exact itemOf_of_mem fits.distinct present

theorem storedIds_eq_nil {key : Key}
    (missed : itemOf KeyedDirectoryEntry.key (format.directory postings) key = none) :
    storedIds postings key = [] := by
  rcases fits.itemOf_directory [] key with ⟨-, noPosting⟩ | ⟨entry, -, found, -⟩
  · rw [storedIds, noPosting]
    rfl
  · rw [missed] at found
    cases found

/-- Whichever search is used, it finds the entry of the key. -/
theorem entryFor_written (key : Key) :
    entryFor search (writtenArchive format postings path) key =
      itemOf KeyedDirectoryEntry.key (format.directory postings) key := by
  rcases fits.entryFor_cases path search key with
    ⟨missed, nowhere⟩ | ⟨entry, listed, -, -, found, same, -⟩
  · rw [missed]
    refine (itemOf_eq_none.mpr fun entry listed same => ?_).symm
    rcases fits.exists_posting path listed with ⟨posting, present, leads⟩
    exact nowhere posting present (leads.key.symm.trans same)
  · rw [found]
    exact ((itemOf_eq_some fits.strict_directory).mpr ⟨listed, same⟩).symm

variable {written : Key → Key} (lawful : format.Lawful written)
include lawful

variable {key : Key} (settled : written key = key)
include settled

/-- The posting of a key, as it was written. -/
theorem posting_written :
    format.posting search (writtenArchive format postings path) (some key) =
      .ok ((itemOf KeyedPosting.key postings key).map fun posting =>
        ⟨key, sortDedup posting.ids⟩) := by
  have entry := fits.entryFor_written path search key
  rcases fits.itemOf_directory path key with
    ⟨noEntry, noPosting⟩ | ⟨_, _, found, own, -, listed, same, leads⟩
  · rw [KeyedFormat.posting, KeyedFormat.postingFor, entry, noEntry, noPosting]
    rfl
  · rw [fits.posting_found path search lawful listed leads (entry.trans found)
      (same.symm ▸ settled), own, Option.map_some]

theorem idsFor_written :
    format.idsFor search (writtenArchive format postings path) (some key) =
      .ok (storedIds postings key) := by
  rw [KeyedFormat.idsFor, fits.posting_written path search lawful settled, storedIds]
  cases itemOf KeyedPosting.key postings key <;> rfl

/-- The first ids under a key that has an entry. -/
theorem limitedPostingForEntry_written {entry : KeyedDirectoryEntry Key}
    (found : itemOf KeyedDirectoryEntry.key (format.directory postings) key = some entry)
    {limit : Nat} (small : limit < 2 ^ 64) :
    format.limitedPostingForEntry (writtenArchive format postings path) limit entry =
      .ok ⟨⟨key, (storedIds postings key).take limit⟩,
        limit < (storedIds postings key).length⟩ := by
  rcases fits.itemOf_directory path key with
    ⟨noEntry, -⟩ | ⟨other, posting, known, posted, own, listed, same, leads⟩
  · rw [noEntry] at found
    cases found
  · cases Option.some.inj (found.symm.trans known)
    rw [fits.limitedPostingForEntry_found path lawful listed leads
      (by rw [same, settled, own]) small, own, storedIds, posted]
    rfl

/-- A limited lookup gives the first ids, and says if there are more. -/
theorem idsForLimit_written {limit : Nat} (small : limit < 2 ^ 64) :
    format.idsForLimit search (writtenArchive format postings path) (some key) limit =
      .ok ((storedIds postings key).take limit,
        0 < limit ∧ limit < (storedIds postings key).length) := by
  have entry := fits.entryFor_written path search key
  rcases fits.itemOf_directory path key with
    ⟨noEntry, -⟩ | ⟨_, _, found, posted, own, listed, same, leads⟩
  · rw [idsForLimit_missed search (entry.trans noEntry), fits.storedIds_eq_nil noEntry]
    simp
  · rw [fits.idsForLimit_found path search lawful listed leads (entry.trans found) own
      (same.symm ▸ settled) small, storedIds, posted]
    rfl

/-- The same for the ids of one volume. -/
theorem idsForVolumeLimit_written (volume : VolumeId) (limit : Nat) :
    format.idsForVolumeLimit search (writtenArchive format postings path) (some key) volume limit =
      .ok ((onVolume volume (storedIds postings key)).take limit,
        0 < limit ∧ limit < (onVolume volume (storedIds postings key)).length) := by
  have entry := fits.entryFor_written path search key
  rcases fits.itemOf_directory path key with
    ⟨noEntry, -⟩ | ⟨_, _, found, posted, own, listed, same, leads⟩
  · rw [idsForVolumeLimit_missed search (entry.trans noEntry),
      fits.storedIds_eq_nil noEntry]
    simp [onVolume]
  · rw [fits.idsForVolumeLimit_found path search lawful listed leads (entry.trans found) own
      (same.symm ▸ settled) volume limit, storedIds, posted]
    rfl

omit settled

/-- A batch over ascending keys gives the first ids of each key that has ids. -/
theorem postingsForSortedLimit_written (filled : ∀ posting ∈ postings, posting.ids ≠ [])
    {keys : List Key} (settled : ∀ key ∈ keys, written key = key) (ordered : Ascending id keys)
    {limit : Nat} (small : limit < 2 ^ 64) :
    format.postingsForSortedLimit (writtenArchive format postings path) keys limit =
      .ok (if limit = 0 then [] else (keysFound postings keys).map fun key =>
        ⟨⟨key, (storedIds postings key).take limit⟩, limit < (storedIds postings key).length⟩) := by
  rw [postingsForSortedLimit]
  split
  case isTrue => rfl
  case isFalse =>
    let first (key : Key) : LimitedKeyedPosting Key :=
      ⟨⟨key, (storedIds postings key).take limit⟩, limit < (storedIds postings key).length⟩
    have reads : ∀ key ∈ keys, ∀ entry,
        itemOf KeyedDirectoryEntry.key (format.directory postings) key = some entry →
          format.limitedPostingForEntry (writtenArchive format postings path) limit entry =
            .ok (first entry.key) := by
      intro key listed entry found
      rw [((itemOf_eq_some fits.strict_directory).mp found).2]
      exact fits.limitedPostingForEntry_written path lawful (settled key listed) found small
    have walked := walk_eq (format.formatError path format.unsorted)
      fits.strict_directory reads ordered
    rw [path_writtenArchive, show (writtenArchive format postings path).directory =
      format.directory postings from rfl, walked, map_keysFound filled]
    refine congrArg Except.ok (filterMap_congr fun key _ => ?_)
    rcases fits.itemOf_directory path key with
      ⟨noEntry, noPosting⟩ | ⟨entry, posting, found, own, same, -⟩
    · rw [noEntry, noPosting, Option.map_none, Option.map_none]
    · rw [found, own, Option.map_some, Option.map_some, same]

variable {again : Key → Option Key}

/-- The keys of a set, each looked up by itself. -/
theorem postingsFor_written (filled : ∀ posting ∈ postings, posting.ids ≠ []) {keys : List Key}
    (settled : ∀ key ∈ keys, written key = key) (same : ∀ key ∈ keys, again key = some key) :
    format.postingsFor search (writtenArchive format postings path) again keys =
      .ok ((keysFound postings keys).map fun key => ⟨key, storedIds postings key⟩) := by
  have each : ∀ keys : List Key, (∀ key ∈ keys, written key = key) →
      (∀ key ∈ keys, again key = some key) →
      (keys.mapM fun key =>
        format.posting search (writtenArchive format postings path) (again key)) =
          .ok (keys.map fun key => (itemOf KeyedPosting.key postings key).map fun _ =>
            ⟨key, storedIds postings key⟩) := by
    intro keys settled same
    induction keys with
    | nil => rfl
    | cons key keys ih =>
        have stored : (itemOf KeyedPosting.key postings key).map (fun posting =>
            (⟨key, sortDedup posting.ids⟩ : KeyedPosting Key)) =
              (itemOf KeyedPosting.key postings key).map fun _ =>
                ⟨key, storedIds postings key⟩ := by
          rw [storedIds]
          cases itemOf KeyedPosting.key postings key <;> rfl
        rw [mapM_cons, same key mem_cons_self,
          fits.posting_written path search lawful (settled key mem_cons_self), stored,
          ih (fun other listed => settled other (mem_cons_of_mem _ listed))
            (fun other listed => same other (mem_cons_of_mem _ listed))]
        rfl
  rw [KeyedFormat.postingsFor, each _ (fun key listed => settled key (mem_sortDedup.mp listed))
    (fun key listed => same key (mem_sortDedup.mp listed)), map_keysFound filled]
  simp only [bind, Except.bind, filterMap_map]
  rfl

/-- The keys of a set in one walk, with the first ids of each. -/
theorem postingsForLimit_written (filled : ∀ posting ∈ postings, posting.ids ≠ [])
    {keys : List Key} (settled : ∀ key ∈ keys, written key = key)
    (same : ∀ key ∈ keys, again key = some key) {limit : Nat} (small : limit < 2 ^ 64) :
    format.postingsForLimit (writtenArchive format postings path) again keys limit =
      .ok (if limit = 0 then [] else (keysFound postings keys).map fun key =>
        ⟨key, (storedIds postings key).take limit⟩) := by
  have selected : (sortDedup keys).filterMap again = sortDedup keys := by
    conv_rhs => rw [← filterMap_some (l := sortDedup keys)]
    exact filterMap_congr fun key listed => same key (mem_sortDedup.mp listed)
  have twice : sortDedup (sortDedup keys) = sortDedup keys :=
    sortDedup_congr fun key => mem_sortDedup
  rw [KeyedFormat.postingsForLimit, selected, fits.postingsForSortedLimit_written path lawful filled
    (fun key listed => settled key (mem_sortDedup.mp listed)) (strict_sortDedup keys).ascending
    small, Except.map, keysFound, keysFound, twice]
  split
  · rfl
  · rw [map_map]
    rfl

end KeyedFits

end Lookups

section Answers

variable [DecidableEq Key] (format : KeyedFormat Key) (archive : MmapKeyedArchive Key)
  (search : Search Key) (asks : Text → Option Key) (again : Key → Option Key)
  (ids : Key → List FileId)

/-- The keys that texts ask for and that have ids, in order, each once. -/
def keysAsked (texts : List Text) : List Key :=
  (sortDedup (texts.filterMap asks)).filter fun key => ids key ≠ []

/-- The lookups of texts give these ids of the keys that the texts ask for. -/
structure KeyedFormat.Answers : Prop where
  whole : ∀ text key, asks text = some key →
    format.idsFor search archive (asks text) = .ok (ids key)
  limited : ∀ text key, asks text = some key → ∀ limit < 2 ^ 64,
    format.idsForLimit search archive (asks text) limit =
      .ok ((ids key).take limit, 0 < limit ∧ limit < (ids key).length)
  onVolume : ∀ text key, asks text = some key → ∀ volume limit,
    format.idsForVolumeLimit search archive (asks text) volume limit =
      .ok ((Store.onVolume volume (ids key)).take limit,
        0 < limit ∧ limit < (Store.onVolume volume (ids key)).length)
  sortedBatch : ∀ texts, Ascending id (texts.filterMap asks) → ∀ limit < 2 ^ 64,
    format.postingsForSortedLimit archive (texts.filterMap asks) limit =
      .ok (if limit = 0 then [] else (keysAsked asks ids texts).map fun key =>
        ⟨⟨key, (ids key).take limit⟩, limit < (ids key).length⟩)
  batch : ∀ texts, format.postingsFor search archive again (texts.filterMap asks) =
    .ok ((keysAsked asks ids texts).map fun key => ⟨key, ids key⟩)
  limitedBatch : ∀ texts, ∀ limit < 2 ^ 64,
    format.postingsForLimit archive again (texts.filterMap asks) limit =
      .ok (if limit = 0 then [] else (keysAsked asks ids texts).map fun key =>
        ⟨key, (ids key).take limit⟩)

variable {format search asks again ids} [TransOrd Key] [LawfulEqOrd Key]
  {postings : List (KeyedPosting Key)} (path : Path)

omit [TransOrd Key] [LawfulEqOrd Key] in
theorem map_keysAsked (stored : ∀ text key, asks text = some key → storedIds postings key = ids key)
    {Value : Type} (value : List FileId → Key → Value) (texts : List Text) :
    ((keysFound postings (texts.filterMap asks)).map fun key =>
        value (storedIds postings key) key) =
      (keysAsked asks ids texts).map fun key => value (ids key) key := by
  have same : ∀ key ∈ sortDedup (texts.filterMap asks), storedIds postings key = ids key := by
    intro key listed
    rcases mem_filterMap.mp (mem_sortDedup.mp listed) with ⟨text, -, asked⟩
    exact stored text key asked
  have kept : keysFound postings (texts.filterMap asks) = keysAsked asks ids texts :=
    filter_congr fun key listed => by rw [same key listed]
  rw [kept]
  exact map_congr_left fun key listed => by rw [same key (mem_of_mem_filter listed)]

/-- A written archive answers with the ids that the postings have under the keys. -/
theorem KeyedFits.answers (fits : KeyedFits format postings) {written : Key → Key}
    (lawful : format.Lawful written) (filled : ∀ posting ∈ postings, posting.ids ≠ [])
    (settled : ∀ text key, asks text = some key → written key = key ∧ again key = some key)
    (stored : ∀ text key, asks text = some key → storedIds postings key = ids key) :
    format.Answers (writtenArchive format postings path) search asks again ids := by
  have each : ∀ texts : List Text, ∀ key ∈ texts.filterMap asks,
      written key = key ∧ again key = some key := by
    intro texts key listed
    rcases mem_filterMap.mp listed with ⟨text, -, asked⟩
    exact settled text key asked
  constructor
  · intro text key asked
    rw [asked, fits.idsFor_written path search lawful (settled text key asked).1,
      stored text key asked]
  · intro text key asked limit small
    rw [asked, fits.idsForLimit_written path search lawful (settled text key asked).1 small,
      stored text key asked]
  · intro text key asked volume limit
    rw [asked, fits.idsForVolumeLimit_written path search lawful (settled text key asked).1,
      stored text key asked]
  · intro texts ordered limit small
    rw [fits.postingsForSortedLimit_written path lawful filled
        (fun key listed => (each texts key listed).1) ordered small,
      map_keysAsked stored fun ids key =>
        (⟨⟨key, ids.take limit⟩, limit < ids.length⟩ : LimitedKeyedPosting Key)]
  · intro texts
    rw [fits.postingsFor_written path search lawful filled
        (fun key listed => (each texts key listed).1) (fun key listed => (each texts key listed).2),
      map_keysAsked stored fun ids key => (⟨key, ids⟩ : KeyedPosting Key)]
  · intro texts limit small
    rw [fits.postingsForLimit_written path lawful filled
        (fun key listed => (each texts key listed).1) (fun key listed => (each texts key listed).2)
        small,
      map_keysAsked stored fun ids key => (⟨key, ids.take limit⟩ : KeyedPosting Key)]

end Answers

end Gfm.Store

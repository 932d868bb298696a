import Gfm.Store.ContentArchive
import Gfm.Store.BlockedIds

/-!
# Reading postings

What is written for a posting decodes to the posting in its stored form; the limited readers give
the first ids of it and the first position entries.
-/

namespace Gfm.Store

open List Sorted Wire

section Stored

/-- Position entries as they are stored: the offsets in order, each once. -/
def storedEntry (entry : ContentPositions) : ContentPositions :=
  { entry with positions := sortDedup entry.positions }

def storedPositions (positions : List ContentPositions) : List ContentPositions :=
  (sortByKey ContentPositions.id positions).map storedEntry

/-- A posting as it is stored. -/
def storedPosting (posting : ContentPosting) : ContentPosting where
  term := posting.term
  ids := sortDedup posting.ids
  positions := storedPositions posting.positions

/-- An entry whose numbers have the widths of the source, and whose vector is an object. -/
structure EntryFits (entry : ContentPositions) : Prop where
  id : Fits entry.id
  offsets : ∀ offset ∈ entry.positions, offset < 2 ^ 32
  short : entry.positions.length ≤ isizeMax

/-- A posting whose parts have the widths of the source, and whose vectors are objects. -/
structure PostingFits (posting : ContentPosting) : Prop where
  term : (LineLog.encodeText posting.term).length ≤ isizeMax
  ids : Writable posting.ids
  entries : ∀ entry ∈ posting.positions, EntryFits entry
  positions : posting.positions.length * contentPositionsSize ≤ isizeMax

theorem length_storedPositions (positions : List ContentPositions) :
    (storedPositions positions).length = positions.length := by
  rw [storedPositions, length_map, (sortByKey_perm _ positions).length_eq]

end Stored

section Positions

variable (path : Path)

theorem decodes_readOffset {previous position : Nat} (lower : previous ≤ position)
    (small : position < 2 ^ 32) :
    Decodes (readOffset path previous) (writeVarint (position - previous)) position := by
  have sum : previous + (position - previous) = position := by omega
  have delta : ¬2 ^ 32 ≤ position - previous := by omega
  refine (decodes_readNumber path (by omega)).andThen ?_
  rw [sum, if_neg delta, if_neg (by omega)]
  exact Decodes.pure _

theorem linked_offsets {offsets : List Nat} {state : Nat} (ascending : Ascending id offsets)
    (small : ∀ offset ∈ offsets, offset < 2 ^ 32) (lower : ∀ offset ∈ offsets, state ≤ offset) :
    Linked (fun previous position => previous ≤ position ∧ position < 2 ^ 32) id state
      offsets := by
  induction offsets generalizing state with
  | nil => exact trivial
  | cons first offsets ih =>
      have later := pairwise_cons.mp ascending
      exact ⟨⟨lower first mem_cons_self, small first mem_cons_self⟩,
        ih later.2 (fun offset listed => small offset (mem_cons_of_mem first listed))
          fun offset listed => Nat.isLE_compare.mp (later.1 offset listed)⟩

theorem decodes_readOffsets {entry : ContentPositions} (fits : EntryFits entry) :
    (sortDedup entry.positions).length < 2 ^ 64 ∧
      Decodes (readOffsets path (sortDedup entry.positions).length)
        (writeChain (fun previous position => writeVarint (position - previous)) id 0
          (sortDedup entry.positions)) (sortDedup entry.positions) := by
  have small : ∀ offset ∈ sortDedup entry.positions, offset < 2 ^ 32 := fun offset listed =>
    fits.offsets offset (mem_sortDedup.mp listed)
  have linked := linked_offsets (strict_sortDedup entry.positions).ascending small
    fun offset _ => Nat.zero_le offset
  have each : ∀ previous position : Nat, previous ≤ position ∧ position < 2 ^ 32 →
      Decodes (readOffset path previous) (writeVarint (position - previous)) (id position) :=
    fun _ _ follows => decodes_readOffset path follows.1 follows.2
  have offsets := decodes_readChain each (fun _ => rfl) linked
  rw [map_id] at offsets
  have length : (sortDedup entry.positions).length ≤ entry.positions.length :=
    ((destutter_sublist _ _).length_le).trans (sortByKey_perm id _).length_eq.le
  have bound : isizeMax < 2 ^ 64 := by decide
  have short := fits.short
  exact ⟨by omega, offsets⟩

theorem decodes_readPositionsAfter {previous : FileId} {entry : ContentPositions}
    (lower : (compare previous entry.id).isLE) (fits : EntryFits entry) :
    Decodes (readPositionsAfter path previous) (writePositionsAfter previous entry)
      (storedEntry entry) := by
  have offsets := decodes_readOffsets path fits
  refine (decodes_readIdAfter path lower fits.id).bind ?_
  refine (decodes_readNumber path offsets.1).bind ?_
  exact offsets.2.andThen (Decodes.pure _)

theorem linked_entries {entries : List ContentPositions} {state : FileId}
    (ascending : Ascending ContentPositions.id entries)
    (fits : ∀ entry ∈ entries, EntryFits entry)
    (lower : ∀ entry ∈ entries, (compare state entry.id).isLE) :
    Linked (fun previous entry => (compare previous entry.id).isLE ∧ EntryFits entry)
      ContentPositions.id state entries := by
  induction entries generalizing state with
  | nil => exact trivial
  | cons first entries ih =>
      have later := pairwise_cons.mp ascending
      exact ⟨⟨lower first mem_cons_self, fits first mem_cons_self⟩,
        ih later.2 (fun entry listed => fits entry (mem_cons_of_mem first listed)) later.1⟩

/-- The entries in order decode to their stored forms. -/
theorem decodes_entries {entries : List ContentPositions}
    (ascending : Ascending ContentPositions.id entries)
    (fits : ∀ entry ∈ entries, EntryFits entry) :
    Decodes (readChain (readPositionsAfter path) ContentPositions.id entries.length firstId)
      (writeChain writePositionsAfter ContentPositions.id firstId entries)
      (entries.map storedEntry) := by
  have linked := linked_entries ascending fits fun entry _ => firstId_isLE entry.id
  have each : ∀ (previous : FileId) (entry : ContentPositions),
      (compare previous entry.id).isLE ∧ EntryFits entry →
        Decodes (readPositionsAfter path previous) (writePositionsAfter previous entry)
          (storedEntry entry) :=
    fun _ _ follows => decodes_readPositionsAfter path follows.1 follows.2
  exact decodes_readChain each (fun _ => rfl) linked

variable {posting : ContentPosting}

theorem PostingFits.sorted (fits : PostingFits posting) :
    (∀ entry ∈ sortByKey ContentPositions.id posting.positions, EntryFits entry) ∧
      (sortByKey ContentPositions.id posting.positions).length < 2 ^ 64 := by
  have perm := sortByKey_perm ContentPositions.id posting.positions
  refine ⟨fun entry listed => fits.entries entry (perm.mem_iff.mp listed), ?_⟩
  have bound := fits.positions
  have allowed : isizeMax < 2 ^ 64 := by decide
  rw [perm.length_eq]
  simp only [contentPositionsSize] at bound
  omega

theorem decodes_readContentPositions (fits : PostingFits posting) :
    Decodes (readContentPositions path) (writeContentPositions posting.positions)
      (storedPositions posting.positions) := by
  refine (decodes_readNumber path fits.sorted.2).bind ?_
  exact decodes_entries path (ascending_sortByKey _ _) fits.sorted.1

end Positions

section LimitedPositions

variable (path : Path) {posting : ContentPosting}

/-- The limited reader gives the first entries, and says whether there are more. -/
theorem readContentPositionsLimited_written (fits : PostingFits posting) (limit : Nat)
    (rest : Bytes) :
    ∃ left, (readContentPositionsLimited path limit).run
      (writeContentPositions posting.positions ++ rest) =
        .ok (((storedPositions posting.positions).take limit,
          limit < (storedPositions posting.positions).length), left) := by
  have length := (sortByKey_perm ContentPositions.id posting.positions).length_eq
  generalize order : sortByKey ContentPositions.id posting.positions = entries at length
  have sorted := fits.sorted
  have ascending := ascending_sortByKey ContentPositions.id posting.positions
  rw [order] at sorted ascending
  have bound := fits.positions
  rw [← length] at bound
  have stored : storedPositions posting.positions = entries.map storedEntry := by
    rw [storedPositions, order]
  rcases exists_writeChain_append writePositionsAfter ContentPositions.id (entries.take limit)
    (entries.drop limit) firstId with ⟨tail, split⟩
  rw [take_append_drop] at split
  have taken := @decodes_entries path (entries.take limit)
    (ascending.sublist (take_sublist limit entries))
    fun entry listed => sorted.1 entry (mem_of_mem_take listed)
  have count := decodes_readNumber path sorted.2
    (writeChain writePositionsAfter ContentPositions.id firstId entries ++ rest)
  have shape : writeContentPositions posting.positions ++ rest = writeVarint entries.length ++
      (writeChain writePositionsAfter ContentPositions.id firstId entries ++ rest) := by
    simp only [writeContentPositions, order, append_assoc]
  have allowed : ¬isizeMax < min entries.length limit * contentPositionsSize := by
    have fewer := Nat.mul_le_mul_right contentPositionsSize (Nat.min_le_left entries.length limit)
    omega
  have read := taken (tail ++ rest)
  rw [← append_assoc, ← split, length_take, Nat.min_comm] at read
  refine ⟨tail ++ rest, ?_⟩
  rw [shape, readContentPositionsLimited, StateT.run_bind, count]
  change StateT.run (if isizeMax < min entries.length limit * contentPositionsSize then _ else
    _) _ = _
  rw [if_neg allowed, StateT.run_bind, read, stored, map_take, length_map]
  rfl

/-- The entries of a volume. -/
def entriesOn (volume : VolumeId) (entries : List ContentPositions) : List ContentPositions :=
  entries.filter fun entry => entry.id.volume = volume

theorem entriesOn_eq_nil {volume : VolumeId} {entries : List ContentPositions}
    (above : ∀ entry ∈ entries, volume.value < entry.id.volume.value) :
    entriesOn volume entries = [] := by
  refine filter_eq_nil_iff.mpr fun entry listed same => ?_
  have bound := above entry listed
  rw [of_decide_eq_true same] at bound
  exact Nat.lt_irrefl _ bound

theorem entriesOn_map_stored (volume : VolumeId) (entries : List ContentPositions) :
    entriesOn volume (entries.map storedEntry) = (entriesOn volume entries).map storedEntry := by
  rw [entriesOn, filter_map]
  rfl

/-- The reader of a volume at an entry: it stops, or goes on with the entry taken or passed. -/
theorem readVolumePositions_step (volume : VolumeId) (limit count : Nat) {state : FileId}
    {entry : ContentPositions} (taken : List ContentPositions) (rest : Bytes)
    (lower : (compare state entry.id).isLE) (fits : EntryFits entry) :
    ∃ left, (readVolumePositions path volume limit (count + 1) state taken).run
      (writePositionsAfter state entry ++ rest) =
        if volume.value < entry.id.volume.value then .ok ((taken, false), left)
        else if entry.id.volume = volume ∧ limit ≤ taken.length then .ok ((taken, true), left)
        else (readVolumePositions path volume limit count entry.id
          (if entry.id.volume = volume then taken ++ [storedEntry entry] else taken)).run rest := by
  have offsets := decodes_readOffsets path fits
  have idRead := @decodes_readIdAfter path (contentFormatError path "position volume id overflow")
    (contentFormatError path "position file node id overflow") _ _ lower fits.id
  have countRead := decodes_readNumber path offsets.1
  refine ⟨writeChain (fun previous position => writeVarint (position - previous)) id 0
    (sortDedup entry.positions) ++ rest, ?_⟩
  rw [readVolumePositions, writePositionsAfter, append_assoc, readPositionId,
    idRead.run_bind, writeOffsets, append_assoc, countRead.run_bind]
  split
  case isTrue => rfl
  case isFalse =>
    split
    case isTrue => rfl
    case isFalse =>
      rw [offsets.2.run_bind]
      rfl

/-- The reader of a volume from an entry on, with those of the entries before it taken. -/
theorem readVolumePositions_written (volume : VolumeId) (limit : Nat) (rest : Bytes)
    {entries : List ContentPositions} :
    ∀ (state : FileId) (taken : List ContentPositions),
      Ascending ContentPositions.id entries →
      Linked (fun previous entry => (compare previous entry.id).isLE ∧ EntryFits entry)
        ContentPositions.id state entries → taken.length ≤ limit →
      ∃ left, (readVolumePositions path volume limit entries.length state taken).run
        (writeChain writePositionsAfter ContentPositions.id state entries ++ rest) =
          .ok (((taken ++ (entriesOn volume entries).map storedEntry).take limit,
            limit < (taken ++ (entriesOn volume entries).map storedEntry).length), left) := by
  induction entries with
  | nil =>
      intro state taken _ _ room
      have empty : (entriesOn volume []).map storedEntry = [] := rfl
      refine ⟨rest, ?_⟩
      rw [empty, append_nil, take_of_length_le room,
        decide_eq_false (Nat.not_lt.mpr room)]
      rfl
  | cons entry entries ih =>
      intro state taken ascending linked room
      have later := pairwise_cons.mp ascending
      rcases linked with ⟨⟨lower, fits⟩, linkedLater⟩
      rcases readVolumePositions_step path volume limit entries.length taken
        (writeChain writePositionsAfter ContentPositions.id entry.id entries ++ rest) lower fits
        with ⟨left, step⟩
      rw [writeChain, append_assoc, length_cons, step]
      clear step
      by_cases passed : volume.value < entry.id.volume.value
      · have none : entriesOn volume (entry :: entries) = [] := by
          refine entriesOn_eq_nil fun other listed => ?_
          rcases mem_cons.mp listed with rfl | member
          · exact passed
          · exact Nat.lt_of_lt_of_le passed (volume_le_of_isLE (later.1 other member))
        refine ⟨left, ?_⟩
        rw [if_pos passed, none, map_nil, append_nil, take_of_length_le room,
          decide_eq_false (Nat.not_lt.mpr room)]
      by_cases same : entry.id.volume = volume
      · have kept : entriesOn volume (entry :: entries) = entry :: entriesOn volume entries :=
          filter_cons_of_pos (decide_eq_true same)
        by_cases full : limit ≤ taken.length
        · have whole : taken.length = limit := Nat.le_antisymm room full
          have more : limit <
              (taken ++ (entriesOn volume (entry :: entries)).map storedEntry).length := by
            rw [kept, length_append, map_cons, length_cons]
            omega
          refine ⟨left, ?_⟩
          rw [if_neg passed, if_pos ⟨same, full⟩, decide_eq_true more, ← whole, take_left]
        · have space : (taken ++ [storedEntry entry]).length ≤ limit := by
            rw [length_append, length_singleton]
            omega
          have next := ih entry.id (taken ++ [storedEntry entry]) later.2 linkedLater space
          rw [if_neg passed, if_neg fun stop => full stop.2, if_pos same, kept, map_cons,
            append_cons taken _ ((entriesOn volume entries).map storedEntry)]
          exact next
      · have skipped : entriesOn volume (entry :: entries) = entriesOn volume entries :=
          filter_cons_of_neg fun equal => same (of_decide_eq_true equal)
        rw [if_neg passed, if_neg fun stop => same stop.1, if_neg same, skipped]
        exact ih entry.id taken later.2 linkedLater room

theorem readContentPositionsForVolumeLimited_written (fits : PostingFits posting)
    (volume : VolumeId) (limit : Nat) (rest : Bytes) :
    ∃ left, (readContentPositionsForVolumeLimited path volume limit).run
      (writeContentPositions posting.positions ++ rest) =
        .ok (((entriesOn volume (storedPositions posting.positions)).take limit,
          limit < (entriesOn volume (storedPositions posting.positions)).length), left) := by
  have sorted := fits.sorted
  have ascending := ascending_sortByKey ContentPositions.id posting.positions
  have linked := linked_entries ascending sorted.1 fun entry _ => firstId_isLE entry.id
  rcases readVolumePositions_written path volume limit rest firstId [] ascending linked
    (Nat.zero_le limit) with ⟨left, read⟩
  have count := decodes_readNumber path sorted.2
    (writeChain writePositionsAfter ContentPositions.id firstId
      (sortByKey ContentPositions.id posting.positions) ++ rest)
  refine ⟨left, ?_⟩
  rw [writeContentPositions, append_assoc, readContentPositionsForVolumeLimited,
    StateT.run_bind, count, storedPositions, entriesOn_map_stored]
  rw [nil_append] at read
  exact read

end LimitedPositions

section Postings

variable (path : Path) (report : Bytes → String) {posting : ContentPosting}

theorem decodes_readTerm (what : String) {term : Text}
    (short : (LineLog.encodeText term).length ≤ isizeMax) :
    Decodes (readTerm what path report) (writeTerm term) term := by
  refine (decodes_readNumber path (Nat.lt_of_le_of_lt short (by decide))).bind ?_
  refine (decodes_readBytes path short).andThen ?_
  rw [LineLog.decodeText_encodeText]
  exact Decodes.pure term

section Versions

variable (version : ContentStoreVersion)

/-- The ids of a posting as an archive of a version writes them. -/
def idBytes (ids : List FileId) : Bytes :=
  if version.usesBlockedIds then writeBlockedFileIds ids else writeFileIds ids

/-- A posting as an archive of a version stores it. -/
def storedAs (posting : ContentPosting) : ContentPosting where
  term := posting.term
  ids := if version.usesBlockedIds then sortDedup posting.ids else sortByKey id posting.ids
  positions := if version.usesPositions then storedPositions posting.positions else []

theorem readIdsLimited_written (fits : PostingFits posting) (limit : Nat) (rest : Bytes) :
    readIdsLimited path version (idBytes version posting.ids ++ rest) limit =
      .ok ⟨(storedAs version posting).ids.take limit,
        limit < (storedAs version posting).ids.length, (idBytes version posting.ids).length⟩ := by
  by_cases blocked : version.usesBlockedIds
  · simp only [readIdsLimited, idBytes, storedAs, if_pos blocked]
    exact readBlockedFileIdsLimitedReport_written path fits.ids rest limit
  · have read := decodes_readFileIds path fits.ids.fits fits.ids.short rest
    simp only [readIdsLimited, idBytes, storedAs, if_neg blocked, read, bind, Except.bind,
      length_append, Nat.add_sub_cancel]

theorem readIdsForVolumeLimited_written (fits : PostingFits posting) (volume : VolumeId)
    {limit : Nat} (positive : 0 < limit) (rest : Bytes) :
    readIdsForVolumeLimited path version (idBytes version posting.ids ++ rest) volume limit =
      .ok ⟨(onVolume volume (storedAs version posting).ids).take limit,
        limit < (onVolume volume (storedAs version posting).ids).length,
        (idBytes version posting.ids).length⟩ := by
  by_cases blocked : version.usesBlockedIds
  · simp only [readIdsForVolumeLimited, idBytes, storedAs, if_pos blocked,
      readBlockedFileIdsLimitedReport_written path fits.ids,
      readBlockedFileIdsForVolumeLimited_written path fits.ids rest volume positive, bind,
      Except.bind]
  · have read := decodes_readFileIds path fits.ids.fits fits.ids.short rest
    simp only [readIdsForVolumeLimited, idBytes, storedAs, if_neg blocked, read, bind,
      Except.bind, length_append, Nat.add_sub_cancel]
    rfl

theorem readContentPosting_eq :
    readContentPosting path report version =
      readContentPostingTerm path report >>= fun term =>
        (if version.usesBlockedIds then readBlockedFileIds path else
          readFileIds path) >>= fun ids =>
          (if version.usesPositions then readContentPositions path else pure []) >>=
            fun positions => pure { term, ids, positions } := by
  cases version <;> rfl

/-- The sequential reader on a posting. -/
theorem decodes_readContentPosting (fits : PostingFits posting) :
    Decodes (readContentPosting path report version) (writeContentPosting posting version)
      (storedAs version posting) := by
  have ids : Decodes (if version.usesBlockedIds then readBlockedFileIds path else readFileIds path)
      (idBytes version posting.ids) (storedAs version posting).ids := by
    by_cases blocked : version.usesBlockedIds
    · simp only [idBytes, storedAs, if_pos blocked]
      exact decodes_readBlockedFileIds path fits.ids
    · simp only [idBytes, storedAs, if_neg blocked]
      exact decodes_readFileIds path fits.ids.fits fits.ids.short
  have positions : Decodes
      (if version.usesPositions then readContentPositions path else pure [])
      (if version.usesPositions then writeContentPositions posting.positions else [])
      (storedAs version posting).positions := by
    by_cases listed : version.usesPositions
    · simp only [storedAs, if_pos listed]
      exact decodes_readContentPositions path fits
    · simp only [storedAs, if_neg listed]
      exact Decodes.pure []
  rw [readContentPosting_eq]
  refine (decodes_readTerm path report "term" fits.term).bind ?_
  refine ids.bind ?_
  exact positions.andThen (Decodes.pure _)

/-- The limited reader on the bytes of a posting, by what its readers of ids and positions give. -/
theorem readLimited_written (fits : PostingFits posting)
    {readIds : Bytes → Except Fault BlockedFileIdsLimitedReport}
    {readPositions : Reader Fault (List ContentPositions × Bool)} {ids : List FileId}
    {positions : List ContentPositions} {moreIds morePositions : Bool}
    (idsRead : ∀ rest, readIds (idBytes version posting.ids ++ rest) =
      .ok ⟨ids, moreIds, (idBytes version posting.ids).length⟩)
    (positionsRead : version.usesPositions = true →
      ∃ left, readPositions.run (writeContentPositions posting.positions) =
        .ok ((positions, morePositions), left))
    (noPositions : version.usesPositions = false → positions = [] ∧ morePositions = false) :
    readLimited path report version readIds readPositions (writeContentPosting posting version) =
      .ok ⟨{ term := posting.term, ids, positions }, moreIds || morePositions⟩ := by
  have term := decodes_readTerm path report "term" fits.term
  change readLimited path report version readIds readPositions (writeTerm posting.term ++
    (idBytes version posting.ids ++
      if version.usesPositions then writeContentPositions posting.positions else [])) = _
  by_cases listed : version.usesPositions
  · rcases positionsRead listed with ⟨left, read⟩
    have inside : ¬(idBytes version posting.ids ++ writeContentPositions posting.positions).length <
        (idBytes version posting.ids).length := by
      rw [length_append]
      omega
    simp only [readLimited, readContentPostingTerm, term _, idsRead, bind, Except.bind,
      if_pos listed,
      if_neg inside, drop_left, read]
    rfl
  · rcases noPositions (Bool.eq_false_iff.mpr listed) with ⟨rfl, rfl⟩
    simp only [readLimited, readContentPostingTerm, term _, idsRead, bind, Except.bind,
      if_neg listed]

/-- A limited read of a posting. -/
def limited (limit : Nat) (posting : ContentPosting) : LimitedContentPosting where
  posting := {
    term := posting.term
    ids := posting.ids.take limit
    positions := posting.positions.take limit }
  truncated := decide (limit < posting.ids.length) || decide (limit < posting.positions.length)

/-- A limited read of a posting gives its first ids and its first position entries. -/
theorem readContentPostingLimited_written (fits : PostingFits posting) (limit : Nat) :
    readContentPostingLimited path report version limit (writeContentPosting posting version) =
      .ok (limited limit (storedAs version posting)) := by
  refine readLimited_written path report version fits
    (readIdsLimited_written path version fits limit) (fun listed => ?_) fun unlisted => ?_
  · have read := readContentPositionsLimited_written path fits limit []
    rw [append_nil] at read
    simp only [storedAs, if_pos listed]
    exact read
  · simp [storedAs, unlisted]

/-- The part of a posting that is on a volume. -/
def ContentPosting.onVolume (volume : VolumeId) (posting : ContentPosting) : ContentPosting where
  term := posting.term
  ids := Store.onVolume volume posting.ids
  positions := entriesOn volume posting.positions

/-- A limited read of a posting for a volume is a limited read of its part on the volume. -/
theorem readContentPostingForVolumeLimited_written (fits : PostingFits posting)
    (volume : VolumeId) {limit : Nat} (positive : 0 < limit) :
    readContentPostingForVolumeLimited path report version volume limit
      (writeContentPosting posting version) =
        .ok (limited limit (ContentPosting.onVolume volume (storedAs version posting))) := by
  refine readLimited_written path report version fits
    (readIdsForVolumeLimited_written path version fits volume positive) (fun listed => ?_)
    fun unlisted => ?_
  · have read := readContentPositionsForVolumeLimited_written path fits volume limit []
    rw [append_nil] at read
    simp only [ContentPosting.onVolume, storedAs, if_pos listed]
    exact read
  · simp [ContentPosting.onVolume, storedAs, unlisted, entriesOn]

end Versions

end Postings

end Gfm.Store

import Gfm.Store.FileIdsReading

/-!
# Reading ids in blocks

The current version of the store names the codec of each block, the first one knows differences
only. In both, and with any choice of codecs, what is written for a list of ids decodes to the list
in order and each block to its piece; the limited readers give the first ids, or the first ids of a
volume.
-/

namespace Gfm.Store

open List Sorted SparseIndex Wire

section Versions

def encodeBlock : IdBlockCodec → List FileId → Bytes
  | .delta, ids => writeDeltaFileIds ids
  | .run, ids => writeRunFileIds ids

/-- The codec that the writer picks for a block. -/
def bestCodec (ids : List FileId) : IdBlockCodec := (encodeBestBlock ids).1

section Chosen

variable (choose : List FileId → IdBlockCodec)

/-- The entry of a block in the directory, with the chosen codec. -/
def idBlockAs (ids : List FileId) : IdBlock where
  first := ids.headD firstId
  entries := ids.length
  codec := choose ids
  len := (encodeBlock (choose ids) ids).length

def payloadAs (blocks : List (List FileId)) : Bytes :=
  blocks.flatMap fun block => encodeBlock (choose block) block

end Chosen

/-- A version of the store, with the codec of each block where the version has a choice. -/
inductive StoredVersion where
  | v1
  | v2 (choose : List FileId → IdBlockCodec)

namespace StoredVersion

def choose : StoredVersion → List FileId → IdBlockCodec
  | v1 => fun _ => .delta
  | v2 choose => choose

/-- An entry of the directory in the first version. -/
def writeIdBlockV1 (block : IdBlock) : Bytes :=
  writeVarint block.first.volume.value ++ (writeVarint block.first.node ++
    (writeVarint block.entries ++ writeVarint block.len))

def writeIdBlock : StoredVersion → IdBlock → Bytes
  | v1 => writeIdBlockV1
  | v2 _ => Store.writeIdBlock

/-- What comes before the number of blocks. -/
def mark : StoredVersion → Bytes
  | v1 => writeVarint defaultIdBlockSize
  | v2 _ => writeVarint blockedIdsV2Marker ++
      (writeVarint blockedIdsV2Version ++ writeVarint defaultIdBlockSize)

def header (version : StoredVersion) (blocks : List (List FileId)) : Bytes :=
  version.mark ++ (writeVarint blocks.length ++
    (blocks.map (idBlockAs version.choose)).flatMap version.writeIdBlock)

/-- What a writer of this version writes for the ids. -/
def write (version : StoredVersion) (ids : List FileId) : Bytes :=
  let ids := sortDedup ids
  let blocks := chunks defaultIdBlockSize ids
  writeVarint ids.length ++ (version.header blocks ++ payloadAs version.choose blocks)

end StoredVersion

theorem encodeBestBlock_eq (ids : List FileId) :
    encodeBestBlock ids = (bestCodec ids, encodeBlock (bestCodec ids) ids) := by
  rw [bestCodec, encodeBestBlock]
  split
  case isTrue => rfl
  case isFalse => rfl

/-- The writer writes the current version with the shorter codec of each block. -/
theorem writeBlockedFileIds_eq (ids : List FileId) :
    writeBlockedFileIds ids = (StoredVersion.v2 bestCodec).write ids := by
  have block : idBlockOf = idBlockAs bestCodec := by
    funext block
    rw [idBlockOf, idBlockAs, encodeBestBlock_eq]
  have payload : blockPayload = payloadAs bestCodec := by
    funext blocks
    simp only [blockPayload, payloadAs, encodeBestBlock_eq]
  simp only [writeBlockedFileIds, writeBlockHeader, block, payload, StoredVersion.write,
    StoredVersion.header, StoredVersion.mark, StoredVersion.choose, StoredVersion.writeIdBlock,
    append_assoc]

end Versions

variable (path : Path)

section Blocks

variable {choose : List FileId → IdBlockCodec}

/-- A block as the writer makes it: ids in strict order, not too many. -/
structure WellFormedBlock (choose : List FileId → IdBlockCodec) (block : List FileId) :
    Prop where
  strict : Strict id block
  fits : ∀ id ∈ block, Fits id
  short : block.length ≤ defaultIdBlockSize
  encoded : (encodeBlock (choose block) block).length < 2 ^ 64

theorem readEncodedFileIds_written {block : List FileId} (well : WellFormedBlock choose block) :
    readEncodedFileIds path (idBlockAs choose block) (encodeBlock (choose block) block) =
      .ok block := by
  have short : block.length ≤ 1000000 := Nat.le_trans well.short (by decide)
  have delta : Decodes (readDeltaFileIds path block.length) (writeDeltaFileIds block) block :=
    decodes_readIds path well.strict.ascending well.fits
  have run := decodes_readRunFileIds path well.strict well.fits short
  have alone {reader : Reader Fault (List FileId)} {bytes : Bytes}
      (read : Decodes reader bytes block) : (reader.run bytes).map Prod.fst = .ok block := by
    have ended := read []
    rw [append_nil] at ended
    rw [ended]
    rfl
  rw [readEncodedFileIds, idBlockAs]
  cases choose block with
  | delta => exact alone delta
  | run => exact alone run

theorem decodes_readIdBlockV1 {block : IdBlock} (first : Fits block.first)
    (entries : block.entries < 2 ^ 64) (len : block.len < 2 ^ 64) (delta : block.codec = .delta) :
    Decodes (readIdBlockV1 path) (StoredVersion.writeIdBlockV1 block) block := by
  rcases block with ⟨start, count, codec, size⟩
  cases delta
  refine (decodes_readNumber path first.1).bind ?_
  refine (decodes_readNumber path first.2).bind ?_
  refine (decodes_readNumber path entries).bind ?_
  exact (decodes_readNumber path len).andThen (Decodes.pure _)

theorem decodes_readIdBlockV2 {block : IdBlock} (first : Fits block.first)
    (entries : block.entries < 2 ^ 64) (len : block.len < 2 ^ 64) :
    Decodes (readIdBlockV2 path) (writeIdBlock block) block := by
  have code : IdBlockCodec.fromCode path block.codec.asCode = .ok block.codec := by
    cases block.codec <;> rfl
  have small : block.codec.asCode < 2 ^ 64 := by
    cases block.codec <;> decide
  refine (decodes_readNumber path first.1).bind ?_
  refine (decodes_readNumber path first.2).bind ?_
  refine (decodes_readNumber path entries).bind ?_
  refine (decodes_readNumber path small).bind ?_
  refine (decodes_lift code).before ?_
  exact (decodes_readNumber path len).andThen (Decodes.pure _)

theorem fits_idBlockAs {block : List FileId} (well : WellFormedBlock choose block) :
    Fits (idBlockAs choose block).first ∧ (idBlockAs choose block).entries < 2 ^ 64 ∧
      (idBlockAs choose block).len < 2 ^ 64 := by
  refine ⟨?_, ?_, well.encoded⟩
  · cases block with
    | nil =>
        have small : Fits firstId := by decide
        exact small
    | cons first block => exact well.fits first mem_cons_self
  · have short := well.short
    have bound : defaultIdBlockSize < 2 ^ 64 := by decide
    exact Nat.lt_of_le_of_lt short bound

theorem decodes_readBlockedHeader (version : StoredVersion) {blocks : List (List FileId)}
    (well : ∀ block ∈ blocks, WellFormedBlock version.choose block)
    (count : blocks.length < 2 ^ 64) :
    Decodes (readBlockedHeader path) (version.header blocks)
      (blocks.map (idBlockAs version.choose)) := by
  have small : ∀ block ∈ blocks.map (idBlockAs version.choose),
      Fits block.first ∧ block.entries < 2 ^ 64 ∧ block.len < 2 ^ 64 := by
    intro block listed
    rcases mem_map.mp listed with ⟨ids, member, rfl⟩
    exact fits_idBlockAs (well ids member)
  have positive : ¬defaultIdBlockSize = 0 := by decide
  cases version with
  | v1 =>
      have each : ∀ block ∈ blocks.map (idBlockAs StoredVersion.v1.choose),
          Decodes (readIdBlockV1 path) (StoredVersion.writeIdBlockV1 block) (id block) := by
        intro block listed
        have bounds := small block listed
        refine decodes_readIdBlockV1 path bounds.1 bounds.2.1 bounds.2.2 ?_
        rcases mem_map.mp listed with ⟨ids, -, rfl⟩
        rfl
      have headers := decodes_readEach each
      rw [map_id, length_map] at headers
      refine (decodes_readNumber path (by decide)).bind ?_
      have marked : ¬defaultIdBlockSize = blockedIdsV2Marker := by decide
      simp only [marked, if_false]
      exact (decodes_readNumber path count).bind headers
  | v2 choose =>
      have each : ∀ block ∈ blocks.map (idBlockAs choose),
          Decodes (readIdBlockV2 path) (writeIdBlock block) (id block) := by
        intro block listed
        have bounds := small block listed
        exact decodes_readIdBlockV2 path bounds.1 bounds.2.1 bounds.2.2
      have headers := decodes_readEach each
      rw [map_id, length_map] at headers
      simp only [StoredVersion.header, StoredVersion.mark, append_assoc]
      refine (decodes_readNumber path (by decide)).bind ?_
      simp only [if_true]
      refine (decodes_readNumber path (by decide)).bind ?_
      simp only [ne_eq, not_true_eq_false, if_false]
      refine (decodes_readNumber path (by decide)).bind ?_
      simp only [positive, if_false]
      exact (decodes_readNumber path count).bind headers

theorem length_payloadAs_cons (block : List FileId) (blocks : List (List FileId)) :
    (payloadAs choose (block :: blocks)).length =
      (idBlockAs choose block).len + (payloadAs choose blocks).length := by
  rw [payloadAs, flatMap_cons, length_append]
  rfl

theorem blockPayloadLen_written {blocks : List (List FileId)}
    (small : (payloadAs choose blocks).length < 2 ^ 64) :
    blockPayloadLen path (blocks.map (idBlockAs choose)) =
      .ok (payloadAs choose blocks).length := by
  have folded : ∀ (blocks : List (List FileId)) (sum : Nat),
      sum + (payloadAs choose blocks).length < 2 ^ 64 →
        (blocks.map (idBlockAs choose)).foldlM (fun sum block =>
          checkedAdd (idFormatError path "id block range overflow") sum block.len) sum =
            .ok (sum + (payloadAs choose blocks).length) := by
    intro blocks
    induction blocks with
    | nil => exact fun sum _ => rfl
    | cons block blocks ih =>
        intro sum fits
        rw [length_payloadAs_cons] at fits ⊢
        have step : checkedAdd (idFormatError path "id block range overflow") sum
            (idBlockAs choose block).len = .ok (sum + (idBlockAs choose block).len) :=
          if_pos (by omega)
        rw [map_cons, foldlM_cons, step]
        have rest := ih (sum + (idBlockAs choose block).len) (by omega)
        rw [Nat.add_assoc] at rest
        exact rest
  have whole := folded blocks 0 (by omega)
  rwa [Nat.zero_add] at whole

theorem getRange_written (fault : Fault) (before bytes after : Bytes) :
    getRange fault (before ++ bytes ++ after) before.length (before.length + bytes.length) =
      .ok bytes := by
  rw [getRange, if_pos, ← length_append, take_left, drop_left]
  refine ⟨Nat.le_add_right _ _, ?_⟩
  rw [length_append, length_append]
  exact Nat.le_add_right _ _

theorem readPayload_written {blocks : List (List FileId)}
    (well : ∀ block ∈ blocks, WellFormedBlock choose block) (before after : Bytes)
    (small : before.length + (payloadAs choose blocks).length < 2 ^ 64) :
    readPayload path (before ++ payloadAs choose blocks ++ after) before.length
      (blocks.map (idBlockAs choose)) = .ok blocks.flatten := by
  induction blocks generalizing before with
  | nil => rfl
  | cons block blocks ih =>
      have blockWell := well block mem_cons_self
      rw [length_payloadAs_cons] at small
      have step : checkedAdd (idFormatError path "id block range overflow") before.length
          (idBlockAs choose block).len = .ok (before.length + (idBlockAs choose block).len) :=
        if_pos (by omega)
      have shape : before ++ payloadAs choose (block :: blocks) ++ after =
          before ++ encodeBlock (choose block) block ++ (payloadAs choose blocks ++ after) := by
        simp only [payloadAs, flatMap_cons, append_assoc]
      have next : before ++ encodeBlock (choose block) block ++ (payloadAs choose blocks ++ after) =
          before ++ encodeBlock (choose block) block ++ payloadAs choose blocks ++ after := by
        simp only [append_assoc]
      have rest := ih (fun other listed => well other (mem_cons_of_mem block listed))
        (before ++ encodeBlock (choose block) block) (by
          rw [length_append]
          exact Nat.lt_of_le_of_lt (Nat.le_of_eq (Nat.add_assoc _ _ _)) small)
      have found := getRange_written (idFormatError path "id block out of bounds") before
        (encodeBlock (choose block) block) (payloadAs choose blocks ++ after)
      rw [length_append] at rest
      rw [shape, map_cons, readPayload, step]
      simp only [bind, Except.bind, idBlockAs] at found ⊢
      rw [found]
      have decoded := readEncodedFileIds_written path blockWell
      simp only [idBlockAs] at decoded
      simp only [decoded]
      rw [next, rest]
      rfl

end Blocks

section Whole

/-- What the writer of a list of ids can rely on: the numbers are of 64 bits, and so are the
length of the list and of what is written. -/
structure Writable (ids : List FileId) : Prop where
  fits : ∀ id ∈ ids, Fits id
  short : ids.length < 2 ^ 64
  written : (writeBlockedFileIds ids).length ≤ isizeMax

/-- The same for the writer of a version. -/
structure StoredVersion.Writable (version : StoredVersion) (ids : List FileId) : Prop where
  fits : ∀ id ∈ ids, Fits id
  short : ids.length < 2 ^ 64
  written : (version.write ids).length ≤ isizeMax

variable {version : StoredVersion} {ids : List FileId}

theorem Writable.best (writable : Writable ids) :
    (StoredVersion.v2 bestCodec).Writable ids where
  fits := writable.fits
  short := writable.short
  written := by
    rw [← writeBlockedFileIds_eq]
    exact writable.written

theorem length_sortDedup_le (ids : List FileId) : (sortDedup ids).length ≤ ids.length :=
  ((destutter_sublist _ _).length_le).trans (sortByKey_perm id ids).length_eq.le

theorem length_encoded_le {choose : List FileId → IdBlockCodec} {blocks : List (List FileId)}
    {block : List FileId} (listed : block ∈ blocks) :
    (encodeBlock (choose block) block).length ≤ (payloadAs choose blocks).length := by
  induction blocks with
  | nil => cases listed
  | cons first blocks ih =>
      rw [length_payloadAs_cons]
      rcases mem_cons.mp listed with rfl | later
      · exact Nat.le_add_right _ _
      · exact Nat.le_trans (ih later) (Nat.le_add_left _ _)

namespace StoredVersion.Writable

theorem payload (writable : version.Writable ids) :
    (payloadAs version.choose (chunks defaultIdBlockSize (sortDedup ids))).length ≤ isizeMax := by
  refine Nat.le_trans ?_ writable.written
  simp only [StoredVersion.write, length_append]
  omega

theorem wellFormed (writable : version.Writable ids) :
    ∀ block ∈ chunks defaultIdBlockSize (sortDedup ids), WellFormedBlock version.choose block := by
  intro block listed
  have piece := listed
  rw [chunks_eq_pieces] at piece
  have part := sublist_of_mem_pieces piece
  refine ⟨(strict_sortDedup ids).sublist part, fun id member => ?_,
    length_le_of_mem_pieces piece, ?_⟩
  · exact writable.fits id (mem_sortDedup.mp (part.subset member))
  · have bound := Nat.le_trans (length_encoded_le listed) writable.payload
    exact Nat.lt_of_le_of_lt bound (by decide)

theorem count (writable : version.Writable ids) :
    (sortDedup ids).length < 2 ^ 64 ∧
      (chunks defaultIdBlockSize (sortDedup ids)).length < 2 ^ 64 := by
  have all := Nat.lt_of_le_of_lt (length_sortDedup_le ids) writable.short
  rw [chunks_eq_pieces]
  exact ⟨all, Nat.lt_of_le_of_lt (length_pieces_le _ _) all⟩

end StoredVersion.Writable

/-- The written ids decode to the ids in order, each once. -/
theorem decodes_version (writable : version.Writable ids) :
    Decodes (readBlockedFileIds path) (version.write ids) (sortDedup ids) := by
  have payloadBound :
      (payloadAs version.choose (chunks defaultIdBlockSize (sortDedup ids))).length < 2 ^ 64 :=
    Nat.lt_of_le_of_lt writable.payload (by decide)
  have payload := readPayload_written path writable.wellFormed [] [] (by
    rw [length_nil]
    omega)
  rw [nil_append, append_nil, length_nil, flatten_chunks (by decide)] at payload
  refine (decodes_readNumber path writable.count.1).bind ?_
  refine (decodes_readBlockedHeader path version writable.wellFormed writable.count.2).bind ?_
  refine (decodes_lift (blockPayloadLen_written path payloadBound)).before ?_
  refine (decodes_readBytes path writable.payload).andThen ((decodes_lift payload).before ?_)
  simp only [ne_eq, not_true_eq_false, if_false]
  exact Decodes.pure _

theorem decodes_readBlockedFileIds (writable : Writable ids) :
    Decodes (readBlockedFileIds path) (writeBlockedFileIds ids) (sortDedup ids) := by
  rw [writeBlockedFileIds_eq]
  exact decodes_version path writable.best

end Whole

section Limited

variable {ids : List FileId}

variable {version : StoredVersion}

/-- What comes before the blocks. -/
def blockedHead (version : StoredVersion) (ids : List FileId) : Bytes :=
  writeVarint (sortDedup ids).length ++
    version.header (chunks defaultIdBlockSize (sortDedup ids))

/-- The ids of the blocks, as the version writes them. -/
def blockedPayload (version : StoredVersion) (ids : List FileId) : Bytes :=
  payloadAs version.choose (chunks defaultIdBlockSize (sortDedup ids))

theorem write_eq (version : StoredVersion) (ids : List FileId) :
    version.write ids = blockedHead version ids ++ blockedPayload version ids := by
  rw [blockedHead, append_assoc]
  rfl

def blockedFrame (version : StoredVersion) (ids : List FileId) : BlockedFrame where
  count := (sortDedup ids).length
  blocks := (chunks defaultIdBlockSize (sortDedup ids)).map (idBlockAs version.choose)
  payloadStart := (blockedHead version ids).length
  encodedLen := (version.write ids).length

/-- What every reader from a slice finds first: the count, the blocks, and the payload behind
them. -/
theorem readHead_written (writable : version.Writable ids) (rest : Bytes) :
    (readNumber path).run (version.write ids ++ rest) = .ok ((sortDedup ids).length,
        version.header (chunks defaultIdBlockSize (sortDedup ids)) ++
          (blockedPayload version ids ++ rest)) ∧
      (readBlockedHeader path).run (version.header (chunks defaultIdBlockSize (sortDedup ids)) ++
        (blockedPayload version ids ++ rest)) =
          .ok ((blockedFrame version ids).blocks, blockedPayload version ids ++ rest) ∧
      (version.write ids ++ rest).length - (blockedPayload version ids ++ rest).length =
        (blockedHead version ids).length := by
  have whole : version.write ids ++ rest = writeVarint (sortDedup ids).length ++
      (version.header (chunks defaultIdBlockSize (sortDedup ids)) ++
        (blockedPayload version ids ++ rest)) := by
    rw [write_eq, blockedHead]
    simp only [append_assoc]
  refine ⟨?_, ?_, ?_⟩
  · rw [whole]
    exact decodes_readNumber path writable.count.1 _
  · exact decodes_readBlockedHeader path version writable.wellFormed writable.count.2 _
  · rw [write_eq]
    simp only [length_append]
    omega

theorem readBlockedFrame_written (writable : version.Writable ids) (rest : Bytes) :
    readBlockedFrame path (version.write ids ++ rest) = .ok (blockedFrame version ids) := by
  rcases readHead_written path writable rest with ⟨count, header, start⟩
  have total : (version.write ids).length = (blockedHead version ids).length +
      (blockedPayload version ids).length := by
    rw [write_eq, length_append]
  have bound : isizeMax < 2 ^ 64 := by decide
  have written := writable.written
  have payload : blockPayloadLen path (blockedFrame version ids).blocks =
      .ok (blockedPayload version ids).length :=
    blockPayloadLen_written path (Nat.lt_of_le_of_lt writable.payload (by decide))
  have sum : checkedAdd (idFormatError path "id block range overflow")
      (blockedHead version ids).length (blockedPayload version ids).length =
        .ok (version.write ids).length := by
    rw [total, checkedAdd, if_pos]
    omega
  have inside : ¬(version.write ids ++ rest).length < (version.write ids).length := by
    rw [length_append]
    omega
  simp only [readBlockedFrame, count, header, start, payload, sum, if_neg inside, bind, Except.bind]
  rfl

theorem readBlockAt_written {choose : List FileId → IdBlockCodec} {block : List FileId}
    (well : WellFormedBlock choose block) {before after : Bytes} {start offset : Nat}
    (place : before.length = start + offset)
    (small : before.length + (idBlockAs choose block).len < 2 ^ 64) :
    readBlockAt path (before ++ encodeBlock (choose block) block ++ after) start offset
      (idBlockAs choose block) = .ok block := by
  have first : checkedAdd (idFormatError path "id block range overflow") start offset =
      .ok before.length := by
    rw [checkedAdd, ← place, if_pos (by omega)]
  have second : checkedAdd (idFormatError path "id block range overflow") before.length
      (idBlockAs choose block).len = .ok (before.length + (idBlockAs choose block).len) :=
    if_pos small
  have found := getRange_written (idFormatError path "id block out of bounds") before
    (encodeBlock (choose block) block) after
  have decoded := readEncodedFileIds_written path well
  simp only [readBlockAt, first, second, bind, Except.bind]
  simp only [idBlockAs] at found decoded ⊢
  rw [found]
  exact decoded

/-- The next block of a payload: where it lies, what it decodes to, and where the others begin. -/
structure NextBlock (choose : List FileId → IdBlockCodec) (block : List FileId)
    (blocks : List (List FileId)) (before after : Bytes) (start offset : Nat) : Prop where
  from_start : checkedAdd (idFormatError path "id block range overflow") start offset =
    .ok before.length
  stop : checkedAdd (idFormatError path "id block range overflow") before.length
    (idBlockAs choose block).len = .ok (before.length + (idBlockAs choose block).len)
  step : checkedAdd (idFormatError path "id block range overflow") offset
    (idBlockAs choose block).len = .ok (offset + (idBlockAs choose block).len)
  decoded : readBlockAt path (before ++ payloadAs choose (block :: blocks) ++ after) start offset
    (idBlockAs choose block) = .ok block
  shape : before ++ encodeBlock (choose block) block ++ payloadAs choose blocks ++ after =
    before ++ payloadAs choose (block :: blocks) ++ after
  place : (before ++ encodeBlock (choose block) block).length =
    start + (offset + (idBlockAs choose block).len)
  small : (before ++ encodeBlock (choose block) block).length +
    (payloadAs choose blocks).length < 2 ^ 64

theorem nextBlock_written {choose : List FileId → IdBlockCodec} {block : List FileId}
    {blocks : List (List FileId)} (well : WellFormedBlock choose block) {before : Bytes}
    {start offset : Nat} (place : before.length = start + offset)
    (small : before.length + (payloadAs choose (block :: blocks)).length < 2 ^ 64)
    (after : Bytes) : NextBlock path choose block blocks before after start offset := by
  rw [length_payloadAs_cons] at small
  have shape : before ++ encodeBlock (choose block) block ++ payloadAs choose blocks ++ after =
      before ++ payloadAs choose (block :: blocks) ++ after := by
    simp only [payloadAs, flatMap_cons, append_assoc]
  have next : (before ++ encodeBlock (choose block) block).length =
      start + (offset + (idBlockAs choose block).len) := by
    rw [length_append, place]
    exact Nat.add_assoc _ _ _
  have decoded := @readBlockAt_written path choose block well before
    (payloadAs choose blocks ++ after) start offset place (by omega)
  rw [← append_assoc, shape] at decoded
  exact {
    from_start := by rw [checkedAdd, ← place, if_pos (by omega)]
    stop := if_pos (by omega)
    step := if_pos (by omega)
    decoded
    shape
    place := next
    small := by rw [next]; omega }

/-- The blocks from one on, with the ids of those before it already taken. -/
theorem limitedBlocks_written {choose : List FileId → IdBlockCodec}
    {blocks : List (List FileId)} (frame : BlockedFrame) (limit : Nat)
    (well : ∀ block ∈ blocks, WellFormedBlock choose block) (after : Bytes) :
    ∀ (before : Bytes) (offset : Nat) (taken : List FileId),
      before.length = frame.payloadStart + offset →
      before.length + (payloadAs choose blocks).length < 2 ^ 64 →
      frame.count = (taken ++ blocks.flatten).length → taken.length < limit →
      limitedBlocks path (before ++ payloadAs choose blocks ++ after) frame limit offset taken
        (blocks.map (idBlockAs choose)) =
        .ok ⟨(taken ++ blocks.flatten).take limit, limit < frame.count, frame.encodedLen⟩ := by
  induction blocks with
  | nil =>
      intro before offset taken _ _ count room
      rw [flatten_nil, append_nil] at count
      rw [flatten_nil, append_nil, take_of_length_le (Nat.le_of_lt room), count,
        decide_eq_false (by omega)]
      rfl
  | cons block blocks ih =>
      intro before offset taken place small count room
      have next := nextBlock_written path (well block mem_cons_self) place small after
      simp only [map_cons, limitedBlocks, next.decoded, bind, Except.bind]
      rw [flatten_cons, ← append_assoc] at count ⊢
      by_cases full : limit ≤ (taken ++ block).length
      · rw [if_pos full, take_append_of_le_length full]
      · have rest := ih (fun other listed => well other (mem_cons_of_mem block listed))
          (before ++ encodeBlock (choose block) block) (offset + (idBlockAs choose block).len)
          (taken ++ block) next.place next.small count (by omega)
        rw [next.shape] at rest
        rw [if_neg full, next.step]
        exact rest

/-- The limited reader gives the first ids, and says whether there are more. -/
theorem readLimited_version (writable : version.Writable ids) (rest : Bytes) (limit : Nat) :
    readBlockedFileIdsLimitedReport path (version.write ids ++ rest) limit =
      .ok ⟨(sortDedup ids).take limit, limit < (sortDedup ids).length,
        (version.write ids).length⟩ := by
  simp only [readBlockedFileIdsLimitedReport, readBlockedFrame_written path writable, bind,
    Except.bind]
  by_cases none : limit = 0
  · rw [if_pos none, none]
    rfl
  · have total : (version.write ids).length = (blockedHead version ids).length +
        (blockedPayload version ids).length := by
      rw [write_eq, length_append]
    have written := writable.written
    have bound : isizeMax < 2 ^ 64 := by decide
    have flat := flatten_chunks (show 0 < defaultIdBlockSize by decide) (sortDedup ids)
    have scanned := limitedBlocks_written path (blockedFrame version ids) limit
      writable.wellFormed rest (blockedHead version ids) 0 [] rfl
      (by rw [blockedPayload] at total; omega) (by rw [flat]; rfl) (Nat.pos_of_ne_zero none)
    rw [flat, nil_append, ← blockedPayload, ← write_eq] at scanned
    rw [if_neg none]
    exact scanned

theorem readBlockedFileIdsLimitedReport_written (writable : Writable ids) (rest : Bytes)
    (limit : Nat) :
    readBlockedFileIdsLimitedReport path (writeBlockedFileIds ids ++ rest) limit =
      .ok ⟨(sortDedup ids).take limit, limit < (sortDedup ids).length,
        (writeBlockedFileIds ids).length⟩ := by
  rw [writeBlockedFileIds_eq]
  exact readLimited_version path writable.best rest limit

end Limited

section Volume

variable {ids : List FileId}

def onVolume (volume : VolumeId) (ids : List FileId) : List FileId :=
  ids.filter fun id => id.volume = volume

theorem volume_le_of_isLE {left right : FileId} (lower : (compare left right).isLE) :
    left.volume.value ≤ right.volume.value := by
  rw [isLE_iff] at lower
  omega

theorem onVolume_eq_nil {volume : VolumeId} {ids : List FileId}
    (above : ∀ id ∈ ids, volume.value < id.volume.value) : onVolume volume ids = [] := by
  refine filter_eq_nil_iff.mpr fun id listed same => ?_
  have bound := above id listed
  rw [of_decide_eq_true same] at bound
  exact Nat.lt_irrefl _ bound

/-- The scan of a block: it goes on with what it found, or it is over. -/
theorem volumeIds_spec {volume : VolumeId} {limit : Nat} {block : List FileId}
    (ascending : Ascending id block) :
    ∀ taken : List FileId, taken.length ≤ limit →
      (limit < (taken ++ onVolume volume block).length ∧
          volumeIds volume limit taken block =
            ((taken ++ onVolume volume block).take limit, some true)) ∨
        ((taken ++ onVolume volume block).length ≤ limit ∧
          (volumeIds volume limit taken block = (taken ++ onVolume volume block, none) ∨
            (volumeIds volume limit taken block = (taken ++ onVolume volume block, some false) ∧
              ∃ id ∈ block, volume.value < id.volume.value))) := by
  induction block with
  | nil =>
      intro taken room
      have empty : onVolume volume [] = [] := rfl
      rw [empty, append_nil]
      exact Or.inr ⟨room, Or.inl rfl⟩
  | cons first block ih =>
      intro taken room
      have later := pairwise_cons.mp ascending
      rw [volumeIds]
      rcases Nat.lt_trichotomy first.volume.value volume.value with lower | same | higher
      · have other : ¬first.volume = volume := fun same => by
          rw [same] at lower
          exact Nat.lt_irrefl _ lower
        have skipped : onVolume volume (first :: block) = onVolume volume block :=
          filter_cons_of_neg (by simpa using other)
        rw [if_pos lower, skipped]
        rcases ih later.2 taken room with more | ⟨fits, going | ⟨stopped, id, listed, above⟩⟩
        · exact Or.inl more
        · exact Or.inr ⟨fits, Or.inl going⟩
        · exact Or.inr ⟨fits, Or.inr ⟨stopped, id, mem_cons_of_mem first listed, above⟩⟩
      · have equal : first.volume = volume := by
          rcases first with ⟨⟨own⟩, node⟩
          rcases volume with ⟨value⟩
          exact congrArg VolumeId.mk same
        have kept : onVolume volume (first :: block) = first :: onVolume volume block :=
          filter_cons_of_pos (by simpa using equal)
        have reordered : taken ++ first :: onVolume volume block =
            taken ++ [first] ++ onVolume volume block := append_cons _ _ _
        rw [if_neg (by omega), if_neg (by omega), kept, reordered]
        by_cases full : limit < (taken ++ [first]).length
        · rw [if_pos full, take_append_of_le_length (Nat.le_of_lt full)]
          refine Or.inl ⟨?_, rfl⟩
          rw [length_append]
          omega
        · rw [if_neg full]
          rcases ih later.2 (taken ++ [first]) (Nat.not_lt.mp full) with
            more | ⟨fits, going | ⟨stopped, id, listed, above⟩⟩
          · exact Or.inl more
          · exact Or.inr ⟨fits, Or.inl going⟩
          · exact Or.inr ⟨fits, Or.inr ⟨stopped, id, mem_cons_of_mem first listed, above⟩⟩
      · have none : onVolume volume (first :: block) = [] := by
          refine onVolume_eq_nil fun id listed => ?_
          rcases mem_cons.mp listed with rfl | member
          · exact higher
          · exact Nat.lt_of_lt_of_le higher (volume_le_of_isLE (later.1 id member))
        rw [if_neg (by omega), if_pos higher, none, append_nil]
        exact Or.inr ⟨room, Or.inr ⟨rfl, first, mem_cons_self, higher⟩⟩

theorem onVolume_append (volume : VolumeId) (left right : List FileId) :
    onVolume volume (left ++ right) = onVolume volume left ++ onVolume volume right :=
  filter_append ..

/-- No id of a later part is of the volume when one before it is of a later volume. -/
theorem onVolume_eq_nil_behind {volume : VolumeId} {left right : List FileId} {passed : FileId}
    (ascending : Ascending id (left ++ right)) (listed : passed ∈ left)
    (above : volume.value < passed.volume.value) : onVolume volume right = [] :=
  onVolume_eq_nil fun other member => Nat.lt_of_lt_of_le above
    (volume_le_of_isLE ((pairwise_append.mp ascending).2.2 passed listed other member))

/-- A block lies in earlier volumes when the next one starts in an earlier volume. -/
theorem onVolume_eq_nil_before {choose : List FileId → IdBlockCodec} {volume : VolumeId}
    {block : List FileId} {blocks : List (List FileId)} (filled : ∀ block ∈ blocks, block ≠ [])
    (ascending : Ascending id (block ++ blocks.flatten))
    (early : ((blocks.map (idBlockAs choose)).head?.any fun next =>
      next.first.volume.value < volume.value) = true) : onVolume volume block = [] := by
  cases blocks with
  | nil => cases early
  | cons nextBlock blocks =>
      rcases exists_cons_of_ne_nil (filled nextBlock mem_cons_self) with
        ⟨nextHead, nextTail, rfl⟩
      have bound : nextHead.volume.value < volume.value := of_decide_eq_true early
      refine filter_eq_nil_iff.mpr fun id listed same => ?_
      have lower := (pairwise_append.mp ascending).2.2 id listed nextHead (by simp)
      have below : id.volume.value ≤ nextHead.volume.value := volume_le_of_isLE lower
      rw [of_decide_eq_true same] at below
      omega

/-- The blocks from one on, with the ids of the volume in those before it already taken. -/
theorem volumeBlocks_written {choose : List FileId → IdBlockCodec}
    {blocks : List (List FileId)} {payloadStart : Nat}
    (volume : VolumeId) (limit : Nat) (well : ∀ block ∈ blocks, WellFormedBlock choose block)
    (filled : ∀ block ∈ blocks, block ≠ []) (ascending : Ascending id blocks.flatten)
    (after : Bytes) :
    ∀ (before : Bytes) (offset : Nat) (taken : List FileId),
      before.length = payloadStart + offset →
      before.length + (payloadAs choose blocks).length < 2 ^ 64 → taken.length ≤ limit →
      volumeBlocks path (before ++ payloadAs choose blocks ++ after) payloadStart volume limit
        offset taken (blocks.map (idBlockAs choose)) =
        .ok ((taken ++ onVolume volume blocks.flatten).take limit,
          limit < (taken ++ onVolume volume blocks.flatten).length) := by
  induction blocks with
  | nil =>
      intro before offset taken _ _ room
      have empty : onVolume volume ([] : List (List FileId)).flatten = [] := rfl
      rw [empty, append_nil, take_of_length_le room, decide_eq_false (by omega)]
      rfl
  | cons block blocks ih =>
      intro before offset taken place small room
      have next := nextBlock_written path (well block mem_cons_self) place small after
      have laterFilled := fun other listed => filled other (mem_cons_of_mem block listed)
      rw [flatten_cons] at ascending
      have parts := pairwise_append.mp ascending
      have rest := fun taken room =>
        ih (fun other listed => well other (mem_cons_of_mem block listed)) laterFilled
          parts.2.1 (before ++ encodeBlock (choose block) block)
          (offset + (idBlockAs choose block).len) taken next.place next.small room
      rw [next.shape] at rest
      rw [map_cons, volumeBlocks, next.from_start, flatten_cons, onVolume_append]
      simp only [bind, Except.bind, next.stop]
      by_cases passed : volume.value < (idBlockAs choose block).first.volume.value
      · -- every id from here on is of a later volume
        rcases exists_cons_of_ne_nil (filled block mem_cons_self) with
          ⟨head, tail, rfl⟩
        have none : onVolume volume (head :: tail) ++ onVolume volume blocks.flatten = [] := by
          rw [← onVolume_append]
          refine onVolume_eq_nil fun id listed => ?_
          rcases mem_cons.mp listed with rfl | member
          · exact passed
          · exact Nat.lt_of_lt_of_le passed
              (volume_le_of_isLE ((pairwise_cons.mp ascending).1 id member))
        rw [if_pos passed, none, append_nil, take_of_length_le room,
          decide_eq_false (Nat.not_lt.mpr room)]
      rw [if_neg passed]
      by_cases early : ((blocks.map (idBlockAs choose)).head?.any fun next =>
          next.first.volume.value < volume.value) = true
      · rw [if_pos early, next.step, onVolume_eq_nil_before laterFilled ascending early,
          nil_append]
        exact rest taken room
      rw [if_neg early, next.decoded, ← append_assoc]
      dsimp only
      rcases volumeIds_spec parts.1 taken room with
        ⟨more, found⟩ | ⟨fits, found | ⟨found, id, listed, above⟩⟩
      · have all : limit < (taken ++ onVolume volume block ++
            onVolume volume blocks.flatten).length := by
          rw [length_append]
          exact Nat.lt_of_lt_of_le more (Nat.le_add_right _ _)
        rw [found, decide_eq_true all, take_append_of_le_length (Nat.le_of_lt more)]
      · rw [found]
        simp only [next.step]
        exact rest _ fits
      · rw [found, onVolume_eq_nil_behind ascending listed above, append_nil,
          take_of_length_le fits, decide_eq_false (Nat.not_lt.mpr fits)]

variable {version : StoredVersion}

/-- The limited reader of a volume gives the first ids of the volume, and says whether there are
more; with no room it says that there are none. -/
theorem readVolume_version (writable : version.Writable ids) (rest : Bytes) (volume : VolumeId)
    (limit : Nat) :
    readBlockedFileIdsForVolumeLimited path (version.write ids ++ rest) volume limit =
      .ok ((onVolume volume (sortDedup ids)).take limit,
        0 < limit ∧ limit < (onVolume volume (sortDedup ids)).length) := by
  simp only [readBlockedFileIdsForVolumeLimited, readBlockedFrame_written path writable, bind,
    Except.bind]
  by_cases none : limit = 0
  · rw [if_pos none, none]
    rfl
  have total : (version.write ids).length = (blockedHead version ids).length +
      (blockedPayload version ids).length := by
    rw [write_eq, length_append]
  have written := writable.written
  have bound : isizeMax < 2 ^ 64 := by decide
  have flat := flatten_chunks (show 0 < defaultIdBlockSize by decide) (sortDedup ids)
  have ascending : Ascending id (chunks defaultIdBlockSize (sortDedup ids)).flatten := by
    rw [flat]
    exact (strict_sortDedup ids).ascending
  have scanned := volumeBlocks_written path volume limit writable.wellFormed
    (fun _ listed => ne_nil_of_mem_pieces (chunks_eq_pieces .. ▸ listed)) ascending rest
    (blockedHead version ids) 0 [] rfl
    (by rw [blockedPayload] at total; omega) (Nat.zero_le limit)
  rw [flat, nil_append, ← blockedPayload, ← write_eq] at scanned
  rw [if_neg none]
  simp only [Nat.pos_of_ne_zero none, true_and]
  exact scanned

theorem readBlockedFileIdsForVolumeLimited_written (writable : Writable ids) (rest : Bytes)
    (volume : VolumeId) {limit : Nat} (positive : 0 < limit) :
    readBlockedFileIdsForVolumeLimited path (writeBlockedFileIds ids ++ rest) volume limit =
      .ok ((onVolume volume (sortDedup ids)).take limit,
        limit < (onVolume volume (sortDedup ids)).length) := by
  rw [writeBlockedFileIds_eq, readVolume_version path writable.best]
  simp only [positive, true_and]

end Volume

section Index

variable {version : StoredVersion} {ids : List FileId}

theorem payloadAs_append (choose : List FileId → IdBlockCodec) (left right : List (List FileId)) :
    payloadAs choose (left ++ right) = payloadAs choose left ++ payloadAs choose right :=
  flatMap_append

theorem payloadAs_cons (choose : List FileId → IdBlockCodec) (block : List FileId)
    (blocks : List (List FileId)) :
    payloadAs choose (block :: blocks) =
      encodeBlock (choose block) block ++ payloadAs choose blocks := flatMap_cons

/-- Each block decodes to its piece of the list. -/
theorem readBlock_version (writable : version.Writable ids) (rest : Bytes) (blockIndex : Nat) :
    readBlockedFileIdBlock path (version.write ids ++ rest) blockIndex =
      ((chunks defaultIdBlockSize (sortDedup ids))[blockIndex]?).elim
        (.error (idFormatError path "id block index out of bounds")) .ok := by
  rcases readHead_written path writable rest with ⟨count, header, start⟩
  have blocks : (blockedFrame version ids).blocks =
      (chunks defaultIdBlockSize (sortDedup ids)).map (idBlockAs version.choose) := rfl
  simp only [readBlockedFileIdBlock, count, header, start, blocks, getElem?_map, bind,
    Except.bind]
  cases place : (chunks defaultIdBlockSize (sortDedup ids))[blockIndex]? with
  | none => rfl
  | some block =>
      have listed := mem_of_getElem? place
      rcases List.getElem?_eq_some_iff.mp place with ⟨inside, same⟩
      have cut : chunks defaultIdBlockSize (sortDedup ids) =
          (chunks defaultIdBlockSize (sortDedup ids)).take blockIndex ++
            block :: (chunks defaultIdBlockSize (sortDedup ids)).drop (blockIndex + 1) := by
        rw [← same, getElem_cons_drop, take_append_drop]
      have well := writable.wellFormed block listed
      have size : isizeMax < 2 ^ 64 := by decide
      have total := writable.written
      have layout : version.write ids = blockedHead version ids ++
          payloadAs version.choose ((chunks defaultIdBlockSize (sortDedup ids)).take blockIndex) ++
            encodeBlock (version.choose block) block ++
              payloadAs version.choose
                ((chunks defaultIdBlockSize (sortDedup ids)).drop (blockIndex + 1)) := by
        rw [write_eq, blockedPayload]
        conv_lhs => rw [cut]
        rw [payloadAs_append, payloadAs_cons]
        simp only [append_assoc]
      have len : (idBlockAs version.choose block).len =
          (encodeBlock (version.choose block) block).length := rfl
      have bound := congrArg List.length layout
      simp only [length_append] at bound
      have skipped := @blockPayloadLen_written path version.choose
        ((chunks defaultIdBlockSize (sortDedup ids)).take blockIndex) (by omega)
      have decoded := @readBlockAt_written path version.choose block well
        (blockedHead version ids ++
          payloadAs version.choose ((chunks defaultIdBlockSize (sortDedup ids)).take blockIndex))
        (payloadAs version.choose
          ((chunks defaultIdBlockSize (sortDedup ids)).drop (blockIndex + 1)) ++ rest)
        (blockedHead version ids).length _ (length_append)
        (by rw [length_append, len]; omega)
      rw [← append_assoc, ← layout] at decoded
      rw [Option.map_some, ← map_take, skipped]
      exact decoded

end Index

section Codec

/-- What the readers are to find in ids stored in some version: the whole list, one block, the
first ids, and the first ids of a volume with the truth on whether there are more. -/
structure ReadersAgree (version : StoredVersion) (ids : List FileId) (rest : Bytes)
    (blockIndex limit : Nat) (volume : VolumeId) : Prop where
  whole : (readBlockedFileIds path).run (version.write ids ++ rest) = .ok (sortDedup ids, rest)
  block : readBlockedFileIdBlock path (version.write ids ++ rest) blockIndex =
    if blockIndex * defaultIdBlockSize < (sortDedup ids).length then
      .ok (((sortDedup ids).drop (blockIndex * defaultIdBlockSize)).take defaultIdBlockSize)
    else .error (idFormatError path "id block index out of bounds")
  limited : readBlockedFileIdsLimitedReport path (version.write ids ++ rest) limit =
    .ok ⟨(sortDedup ids).take limit, limit < (sortDedup ids).length, (version.write ids).length⟩
  onVolume : readBlockedFileIdsForVolumeLimited path (version.write ids ++ rest) volume limit =
    .ok ((onVolume volume (sortDedup ids)).take limit,
      limit < (Store.onVolume volume (sortDedup ids)).length)

variable {version : StoredVersion} {ids : List FileId}

theorem onVolume_sortDedup_eq_nil {volume : VolumeId} :
    onVolume volume (sortDedup ids) = [] ↔ ∀ id ∈ ids, id.volume ≠ volume := by
  rw [onVolume, filter_eq_nil_iff]
  constructor
  · intro none id listed same
    exact none id (mem_sortDedup.mpr listed) (decide_eq_true same)
  · intro none id listed same
    exact none id (mem_sortDedup.mp listed) (of_decide_eq_true same)

/-- The codec keeps its promise with both versions and any codecs of the blocks, unless the reader
of a volume has no room and the volume has ids. -/
theorem readersAgree_iff (writable : version.Writable ids) (rest : Bytes)
    (blockIndex limit : Nat) (volume : VolumeId) :
    ReadersAgree path version ids rest blockIndex limit volume ↔
      0 < limit ∨ ∀ id ∈ ids, id.volume ≠ volume := by
  rw [← onVolume_sortDedup_eq_nil]
  have read := readVolume_version path writable rest volume limit
  constructor
  · intro agree
    rcases Nat.eq_zero_or_pos limit with rfl | positive
    · have told := agree.onVolume
      rw [read] at told
      simp only [Except.ok.injEq, Prod.mk.injEq, decide_eq_decide] at told
      refine Or.inr (length_eq_zero_iff.mp (Nat.eq_zero_of_not_pos fun more => ?_))
      exact Nat.lt_irrefl 0 (told.2.mpr more).1
    · exact Or.inl positive
  · intro condition
    refine ⟨decodes_version path writable rest, ?_,
      readLimited_version path writable rest limit, ?_⟩
    · rw [readBlock_version path writable, chunks_eq_pieces, getElem?_pieces (by decide)]
      split
      case isTrue => rfl
      case isFalse => rfl
    · rw [read]
      congr 2
      rw [decide_eq_decide]
      rcases condition with positive | none
      · exact and_iff_right positive
      · rw [none]
        exact iff_of_false (fun absurd => Nat.not_lt_zero _ absurd.2) (Nat.not_lt_zero _)

theorem chunks_of_length_le {size : Nat} {ids : List FileId} (some : ids ≠ [])
    (short : ids.length ≤ size) : chunks size ids = [ids] := by
  have positive : 0 < ids.length := length_pos_of_ne_nil some
  rw [chunks, if_neg (by simp only [some, false_or]; omega), take_of_length_le short,
    drop_of_length_le short, chunks, if_pos (Or.inl rfl)]

theorem writeVarint_of_lt {value : Nat} (small : value < 128) :
    writeVarint value = [UInt8.ofNat value] := by
  rw [writeVarint, if_pos small]

/-- Ids of two volumes out of order, one of them twice. -/
def severalIds : List FileId := [⟨⟨2⟩, 9⟩, ⟨⟨1⟩, 8⟩, ⟨⟨1⟩, 7⟩, ⟨⟨1⟩, 8⟩]

theorem writable_several (version : StoredVersion) : version.Writable severalIds where
  fits := by decide
  short := by decide
  written := by
    have sorted : sortDedup severalIds = [⟨⟨1⟩, 7⟩, ⟨⟨1⟩, 8⟩, ⟨⟨2⟩, 9⟩] := by decide
    have delta : (encodeBlock .delta [⟨⟨1⟩, 7⟩, ⟨⟨1⟩, 8⟩, ⟨⟨2⟩, 9⟩]).length < 128 := by
      simp [encodeBlock, writeDeltaFileIds, writeIdsFrom, writeChain, writeIdAfter, firstId,
        writeVarint_of_lt]
    have run : (encodeBlock .run [⟨⟨1⟩, 7⟩, ⟨⟨1⟩, 8⟩, ⟨⟨2⟩, 9⟩]).length < 128 := by
      simp [encodeBlock, writeRunFileIds, writeChain, writeIdAfter, idRuns, idRunsFrom, firstId,
        IdRun.last, writeVarint_of_lt]
    have size : writeVarint 128 = [128, 1] := by
      rw [writeVarint, if_neg (by decide), writeVarint_of_lt (by decide)]
      rfl
    rw [StoredVersion.write, sorted, chunks_of_length_le (by decide) (by decide)]
    cases version with
    | v1 =>
        simp [StoredVersion.header, StoredVersion.mark, StoredVersion.choose, payloadAs, idBlockAs,
          StoredVersion.writeIdBlock, StoredVersion.writeIdBlockV1, defaultIdBlockSize, delta, size,
          writeVarint_of_lt, isizeMax]
        omega
    | v2 choose =>
        cases picked : choose [⟨⟨1⟩, 7⟩, ⟨⟨1⟩, 8⟩, ⟨⟨2⟩, 9⟩] <;>
          simp [StoredVersion.header, StoredVersion.mark, StoredVersion.choose, payloadAs,
            idBlockAs, StoredVersion.writeIdBlock, Store.writeIdBlock, defaultIdBlockSize, delta,
            run, size, picked, IdBlockCodec.asCode, blockedIdsV2Marker, blockedIdsV2Version,
            writeVarint_of_lt, isizeMax] <;> omega

/-- The limit cuts the ids of the volume. -/
theorem readersAgree_several :
    ReadersAgree [] (.v2 bestCodec) severalIds [] 0 1 ⟨1⟩ :=
  (readersAgree_iff [] (writable_several _) [] 0 1 ⟨1⟩).mpr (Or.inl Nat.one_pos)

/-- With no room the reader of a volume says that there is no more, of a volume with an id. -/
theorem volume_noRoom : ¬∀ (path : Path) (version : StoredVersion) (ids : List FileId),
    version.Writable ids → ∀ (rest : Bytes) (blockIndex limit : Nat) (volume : VolumeId),
      ReadersAgree path version ids rest blockIndex limit volume := by
  intro all
  have several := writable_several (.v2 bestCodec)
  have told := (all [] _ _ several [] 0 0 ⟨1⟩).onVolume
  rw [readVolume_version [] several] at told
  revert told
  decide

end Codec

end Gfm.Store

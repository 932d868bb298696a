import Gfm.Store.ContentQuery
import Gfm.Store.ContentSegments

/-!
# What the readers allocate on the word of the bytes

A reader panics exactly where it asks for more bytes than any object may have: for a term, for the
entries of a limited read of positions, or for the ids of a run. All other counts are bounded
before they are used, and all sums are checked.
-/

namespace Gfm.Store

open Sorted Wire

variable (path : Path) (report : Bytes → String)

section Safe

theorem error_ne_panic (error : GfmError) : Fault.error error ≠ .panic := nofun

theorem never_readNumber : Never .panic (readNumber path) :=
  Never.varint (error_ne_panic _) (error_ne_panic _)

theorem checkedAdd_ne_panic {fault : Fault} (other : fault ≠ .panic) (left right : Nat) :
    checkedAdd fault left right ≠ .error .panic := by
  intro same
  rw [checkedAdd] at same
  split at same
  · cases same
  · exact other (Except.error.inj same)

theorem checkedAdd_bind_panics_iff {Value : Type} {fault : Fault} (other : fault ≠ .panic)
    {left right : Nat} {next : Nat → Except Fault Value} :
    (checkedAdd fault left right >>= next) = .error .panic ↔
      left + right < 2 ^ 64 ∧ next (left + right) = .error .panic := by
  rw [except_bind_eq_error_iff, or_iff_right (checkedAdd_ne_panic other left right)]
  by_cases inside : left + right < 2 ^ 64
  · have sum : checkedAdd fault left right = .ok (left + right) := if_pos inside
    simp only [sum, Except.ok.injEq, exists_eq_left', inside, true_and]
  · have sum : checkedAdd fault left right = .error fault := if_neg inside
    refine iff_of_false ?_ fun both => inside both.1
    rintro ⟨total, same, -⟩
    rw [sum] at same
    cases same

theorem getRange_ne_panic {fault : Fault} (other : fault ≠ .panic) (bytes : Bytes)
    (start stop : Nat) : getRange fault bytes start stop ≠ .error .panic := by
  intro same
  rw [getRange] at same
  split at same
  · cases same
  · exact other (Except.error.inj same)

theorem never_readIdAfter {volumeOverflow nodeOverflow : Fault} (volume : volumeOverflow ≠ .panic)
    (node : nodeOverflow ≠ .panic) (previous : FileId) :
    Never .panic (readIdAfter path volumeOverflow nodeOverflow previous) := by
  apply (never_readNumber path).bind
  intro volumeDelta
  apply (Never.lift (checkedAdd_ne_panic volume _ _)).bind
  intro found
  apply (never_readNumber path).bind
  intro nodeDelta
  dsimp only
  split
  · apply (Never.lift (checkedAdd_ne_panic node _ _)).bind
    intro place
    exact Never.pure _
  · exact Never.pure _

theorem never_readFileIds : Never .panic (readFileIds path) := by
  apply (never_readNumber path).bind
  intro count
  exact Never.chain (never_readIdAfter path (error_ne_panic _) (error_ne_panic _)) count firstId

theorem never_readDeltaFileIds (count : Nat) : Never .panic (readDeltaFileIds path count) :=
  Never.chain (never_readIdAfter path (error_ne_panic _) (error_ne_panic _)) count firstId

theorem never_readOffset (previous : Nat) : Never .panic (readOffset path previous) := by
  apply (never_readNumber path).bind
  intro delta
  split
  · exact Never.fail (error_ne_panic _)
  · split
    · exact Never.fail (error_ne_panic _)
    · exact Never.pure _

theorem never_readPositionsAfter (previous : FileId) :
    Never .panic (readPositionsAfter path previous) := by
  apply (never_readIdAfter path (error_ne_panic _) (error_ne_panic _) previous).bind
  intro id
  apply (never_readNumber path).bind
  intro count
  apply (Never.chain (never_readOffset path) count 0).bind
  intro positions
  exact Never.pure _

theorem never_readContentPositions : Never .panic (readContentPositions path) := by
  apply (never_readNumber path).bind
  intro count
  exact Never.chain (never_readPositionsAfter path) count firstId

theorem never_readVolumePositions (volume : VolumeId) (limit count : Nat) :
    ∀ (previous : FileId) (entries : List ContentPositions),
      Never .panic (readVolumePositions path volume limit count previous entries) := by
  induction count with
  | zero => exact fun previous entries => Never.pure _
  | succ count ih =>
      intro previous entries
      apply (never_readIdAfter path (error_ne_panic _) (error_ne_panic _) previous).bind
      intro id
      apply (never_readNumber path).bind
      intro positionCount
      split
      · exact Never.pure _
      · split
        · exact Never.pure _
        · apply (Never.chain (never_readOffset path) positionCount 0).bind
          intro positions
          exact ih id _

theorem never_readContentPositionsForVolumeLimited (volume : VolumeId) (limit : Nat) :
    Never .panic (readContentPositionsForVolumeLimited path volume limit) := by
  apply (never_readNumber path).bind
  intro count
  exact never_readVolumePositions path volume limit count firstId []

theorem never_readIdBlocks {readBlock : Reader Fault IdBlock} (each : Never .panic readBlock) :
    Never .panic (readIdBlocks readBlock path) := by
  apply (never_readNumber path).bind
  intro count
  exact Never.chain (fun _ => each) count ()

theorem never_readIdBlockV1 : Never .panic (readIdBlockV1 path) := by
  apply (never_readNumber path).bind
  intro volume
  apply (never_readNumber path).bind
  intro node
  apply (never_readNumber path).bind
  intro entries
  apply (never_readNumber path).bind
  intro len
  exact Never.pure _

theorem fromCode_ne_panic (value : Nat) : IdBlockCodec.fromCode path value ≠ .error .panic := by
  intro same
  rw [IdBlockCodec.fromCode] at same
  split at same
  · cases same
  · split at same
    · cases same
    · cases same

theorem never_readIdBlockV2 : Never .panic (readIdBlockV2 path) := by
  apply (never_readNumber path).bind
  intro volume
  apply (never_readNumber path).bind
  intro node
  apply (never_readNumber path).bind
  intro entries
  apply (never_readNumber path).bind
  intro code
  apply (Never.lift (fromCode_ne_panic path code)).bind
  intro codec
  apply (never_readNumber path).bind
  intro len
  exact Never.pure _

theorem never_readBlockedHeader : Never .panic (readBlockedHeader path) := by
  apply (never_readNumber path).bind
  intro blockSize
  split
  · apply (never_readNumber path).bind
    intro version
    split
    · exact Never.fail (error_ne_panic _)
    · apply (never_readNumber path).bind
      intro size
      split
      · exact Never.fail (error_ne_panic _)
      · exact never_readIdBlocks path (never_readIdBlockV2 path)
  · exact never_readIdBlocks path (never_readIdBlockV1 path)

theorem blockPayloadLen_ne_panic (blocks : List IdBlock) :
    blockPayloadLen path blocks ≠ .error .panic := by
  have sums : ∀ sum, blocks.foldlM (fun sum (block : IdBlock) =>
      checkedAdd (idFormatError path "id block range overflow") sum block.len) sum ≠
        .error .panic := by
    induction blocks with
    | nil => exact fun sum same => by cases same
    | cons block blocks ih =>
        intro sum same
        rw [List.foldlM_cons] at same
        rcases except_bind_eq_error_iff.mp same with failed | ⟨total, -, failed⟩
        · exact checkedAdd_ne_panic (error_ne_panic _) _ _ failed
        · exact ih total failed
  exact sums 0

theorem readBlockedFrame_ne_panic (bytes : Bytes) :
    readBlockedFrame path bytes ≠ .error .panic := by
  intro same
  rcases except_bind_eq_error_iff.mp same with failed | ⟨⟨count, afterCount⟩, -, same⟩
  · exact never_readNumber path bytes failed
  rcases except_bind_eq_error_iff.mp same with failed | ⟨⟨blocks, rest⟩, -, same⟩
  · exact never_readBlockedHeader path afterCount failed
  rcases except_bind_eq_error_iff.mp same with failed | ⟨payloadLen, -, same⟩
  · exact blockPayloadLen_ne_panic path blocks failed
  rcases except_bind_eq_error_iff.mp same with failed | ⟨encodedLen, -, same⟩
  · exact checkedAdd_ne_panic (error_ne_panic _) _ _ failed
  split at same <;> cases same

end Safe

section Blocks

/-- The runs from here on stay within the room of the vector. -/
def RunsFit (room : Nat) : Nat → FileId → Nat → Bytes → Prop
  | 0, _, _, _ => True
  | runs + 1, previous, taken, bytes =>
      ∀ start left entries rest, (readBlockId path previous).run bytes = .ok (start, left) →
        (readNumber path).run left = .ok (entries, rest) → entries ≠ 0 →
          taken + min entries (2 ^ 64 - start.node) ≤ room ∧
            (start.node + entries ≤ 2 ^ 64 →
              RunsFit room runs (IdRun.last ⟨start, entries⟩) (taken + entries) rest)

/-- The ids of a block stay within the room of their vector. -/
def BlockFits (block : IdBlock) (bytes : Bytes) : Prop :=
  block.codec = .run → ∀ runs rest, (readNumber path).run bytes = .ok (runs, rest) →
    RunsFit path (vecRoom fileIdSize 64 (min block.entries 1000000)) runs firstId 0 rest

theorem never_readBlockId (previous : FileId) : Never .panic (readBlockId path previous) :=
  never_readIdAfter path (error_ne_panic _) (error_ne_panic _) previous

theorem readRuns_panics_iff {room runs : Nat} :
    ∀ {previous : FileId} {ids : List FileId} {bytes : Bytes},
      (readRuns path room runs previous ids).run bytes = .error .panic ↔
        ¬RunsFit path room runs previous ids.length bytes := by
  induction runs with
  | zero =>
      intro previous ids bytes
      exact iff_of_false (fun same => by cases same) (not_not_intro trivial)
  | succ runs ih =>
      intro previous ids bytes
      simp only [readRuns, RunsFit]
      rw [run_bind_never (never_readBlockId path previous)]
      push Not
      refine exists_congr fun start => exists_congr fun left => ?_
      refine Iff.trans (and_congr_right fun _ => run_bind_never (never_readNumber path)) ?_
      rw [← exists_and_left]
      refine exists_congr fun entries => ?_
      rw [← exists_and_left]
      refine exists_congr fun rest => and_congr_right fun _ => and_congr_right fun _ => ?_
      by_cases none : entries = 0
      · rw [if_pos none]
        exact iff_of_false (Never.fail (error_ne_panic _) rest) fun unfit => unfit.1 none
      by_cases grown : room < ids.length + min entries (2 ^ 64 - start.node)
      · rw [if_neg none, if_pos grown]
        exact iff_of_true rfl ⟨none, fun fits => absurd grown (Nat.not_lt.mpr fits)⟩
      by_cases far : 2 ^ 64 < start.node + entries
      · rw [if_neg none, if_neg grown, if_pos far]
        refine iff_of_false (Never.fail (error_ne_panic _) rest) fun unfit => ?_
        exact absurd far (Nat.not_lt.mpr (unfit.2 (Nat.not_lt.mp grown)).1)
      · have length : (ids ++ IdRun.ids ⟨start, entries⟩).length = ids.length + entries := by
          rw [List.length_append, IdRun.ids, List.length_map, List.length_range]
        rw [if_neg none, if_neg grown, if_neg far, ih, length]
        exact ⟨fun unfit => ⟨none, fun _ => ⟨Nat.not_lt.mp far, unfit⟩⟩,
          fun unfit => (unfit.2 (Nat.not_lt.mp grown)).2⟩

theorem readEncodedFileIds_panics_iff {block : IdBlock} {bytes : Bytes} :
    readEncodedFileIds path block bytes = .error .panic ↔ ¬BlockFits path block bytes := by
  have mapped : ∀ reader : Reader Fault (List FileId),
      (reader.run bytes).map Prod.fst = .error .panic ↔ reader.run bytes = .error .panic := by
    intro reader
    cases reader.run bytes with
    | error fault => simp [Except.map]
    | ok pair => simp [Except.map]
  rw [readEncodedFileIds]
  cases codec : block.codec with
  | delta =>
      rw [mapped]
      exact iff_of_false (never_readDeltaFileIds path block.entries bytes)
        (not_not_intro fun run => by rw [codec] at run; cases run)
  | run =>
      rw [mapped, readRunFileIds, run_bind_never (never_readNumber path)]
      simp only [BlockFits, codec, true_implies]
      push Not
      refine exists_congr fun runs => exists_congr fun rest => and_congr_right fun _ => ?_
      rw [run_bind_eq_error_iff, readRuns_panics_iff]
      refine or_iff_left ?_
      rintro ⟨ids, left, -, failed⟩
      revert failed
      split
      · exact Never.fail (error_ne_panic _) left
      · exact Never.pure _ left

/-- The bytes of the block at an offset of the payload. -/
def blockSlice (bytes : Bytes) (payloadStart payloadOffset : Nat) (block : IdBlock) :
    Except Fault Bytes := do
  let start ← checkedAdd (idFormatError path "id block range overflow") payloadStart payloadOffset
  let stop ← checkedAdd (idFormatError path "id block range overflow") start block.len
  getRange (idFormatError path "id block out of bounds") bytes start stop

theorem readBlockAt_eq (bytes : Bytes) (payloadStart payloadOffset : Nat) (block : IdBlock) :
    readBlockAt path bytes payloadStart payloadOffset block =
      blockSlice path bytes payloadStart payloadOffset block >>= readEncodedFileIds path block := by
  rw [readBlockAt, blockSlice]
  cases checkedAdd (idFormatError path "id block range overflow") payloadStart payloadOffset with
  | error fault => rfl
  | ok start =>
      cases stopped : checkedAdd (idFormatError path "id block range overflow") start block.len with
      | error fault => simp only [bind, Except.bind, stopped]
      | ok stop => simp only [bind, Except.bind, stopped]

theorem blockSlice_ne_panic (bytes : Bytes) (payloadStart payloadOffset : Nat) (block : IdBlock) :
    blockSlice path bytes payloadStart payloadOffset block ≠ .error .panic := by
  intro same
  rcases except_bind_eq_error_iff.mp same with failed | ⟨start, -, same⟩
  · exact checkedAdd_ne_panic (error_ne_panic _) _ _ failed
  rcases except_bind_eq_error_iff.mp same with failed | ⟨stop, -, same⟩
  · exact checkedAdd_ne_panic (error_ne_panic _) _ _ failed
  · exact getRange_ne_panic (error_ne_panic _) _ _ _ same

theorem readBlockAt_panics_iff {bytes : Bytes} {payloadStart payloadOffset : Nat}
    {block : IdBlock} :
    readBlockAt path bytes payloadStart payloadOffset block = .error .panic ↔
      ∃ slice, blockSlice path bytes payloadStart payloadOffset block = .ok slice ∧
        ¬BlockFits path block slice := by
  rw [readBlockAt_eq, except_bind_eq_error_iff, or_iff_right (blockSlice_ne_panic path _ _ _ _)]
  simp only [readEncodedFileIds_panics_iff]

/-- The blocks that a limited read comes to fit, after a number of ids. -/
def LimitedBlocksFit (bytes : Bytes) (payloadStart limit : Nat) : Nat → Nat → List IdBlock → Prop
  | _, _, [] => True
  | payloadOffset, taken, block :: blocks =>
      ∀ slice, blockSlice path bytes payloadStart payloadOffset block = .ok slice →
        BlockFits path block slice ∧
          ∀ ids, readEncodedFileIds path block slice = .ok ids → taken + ids.length < limit →
            payloadOffset + block.len < 2 ^ 64 →
              LimitedBlocksFit bytes payloadStart limit (payloadOffset + block.len)
                (taken + ids.length) blocks

theorem limitedBlocks_panics_iff {bytes : Bytes} {frame : BlockedFrame} {limit : Nat}
    {blocks : List IdBlock} :
    ∀ {payloadOffset : Nat} {ids : List FileId},
      limitedBlocks path bytes frame limit payloadOffset ids blocks = .error .panic ↔
        ¬LimitedBlocksFit path bytes frame.payloadStart limit payloadOffset ids.length blocks := by
  induction blocks with
  | nil =>
      intro payloadOffset ids
      exact iff_of_false (fun same => by cases same) (not_not_intro trivial)
  | cons block blocks ih =>
      intro payloadOffset ids
      rw [limitedBlocks, except_bind_eq_error_iff, readBlockAt_panics_iff, readBlockAt_eq]
      simp only [LimitedBlocksFit]
      push Not
      have overflow : idFormatError path "id block range overflow" ≠ .panic := by
        intro same
        cases same
      have step : ∀ decoded : List FileId,
          ((if limit ≤ (ids ++ decoded).length then
            .ok ⟨(ids ++ decoded).take limit, limit < frame.count, frame.encodedLen⟩
          else do
            let payloadOffset ← checkedAdd (idFormatError path "id block range overflow")
              payloadOffset block.len
            limitedBlocks path bytes frame limit payloadOffset (ids ++ decoded) blocks :
              Except Fault BlockedFileIdsLimitedReport) = .error .panic) ↔
            ids.length + decoded.length < limit ∧ payloadOffset + block.len < 2 ^ 64 ∧
              ¬LimitedBlocksFit path bytes frame.payloadStart limit (payloadOffset + block.len)
                (ids.length + decoded.length) blocks := by
        intro decoded
        by_cases enough : limit ≤ (ids ++ decoded).length
        · rw [if_pos enough]
          rw [List.length_append] at enough
          exact iff_of_false (fun same => by cases same) fun more =>
            absurd more.1 (Nat.not_lt.mpr enough)
        · rw [if_neg enough, checkedAdd_bind_panics_iff overflow, ih, List.length_append]
          rw [List.length_append] at enough
          exact (and_iff_right (Nat.not_le.mp enough)).symm
      constructor
      · rintro (⟨slice, sliced, unfit⟩ | ⟨decoded, read, failed⟩)
        · exact ⟨slice, sliced, fun fits => absurd fits unfit⟩
        · cases sliced : blockSlice path bytes frame.payloadStart payloadOffset block with
          | error fault =>
              rw [sliced] at read
              cases read
          | ok slice =>
              rw [sliced] at read
              exact ⟨slice, rfl, fun _ => ⟨decoded, read, (step decoded).mp failed⟩⟩
      · rintro ⟨slice, sliced, rest⟩
        by_cases fits : BlockFits path block slice
        · rcases rest fits with ⟨decoded, read, more⟩
          refine Or.inr ⟨decoded, ?_, (step decoded).mpr more⟩
          rw [sliced]
          exact read
        · exact Or.inl ⟨slice, sliced, fits⟩

/-- The blocks that a read for a volume comes to fit, after some ids of the volume. -/
def VolumeBlocksFit (bytes : Bytes) (payloadStart : Nat) (volume : VolumeId) (limit : Nat) :
    Nat → List FileId → List IdBlock → Prop
  | _, _, [] => True
  | payloadOffset, taken, block :: blocks =>
      payloadStart + payloadOffset < 2 ^ 64 → payloadStart + payloadOffset + block.len < 2 ^ 64 →
        ¬volume.value < block.first.volume.value → payloadOffset + block.len < 2 ^ 64 →
          if blocks.head?.any fun next => next.first.volume.value < volume.value then
            VolumeBlocksFit bytes payloadStart volume limit (payloadOffset + block.len) taken blocks
          else
            ∀ slice, blockSlice path bytes payloadStart payloadOffset block = .ok slice →
              BlockFits path block slice ∧
                ∀ ids, readEncodedFileIds path block slice = .ok ids →
                  (volumeIds volume limit taken ids).2 = none →
                    VolumeBlocksFit bytes payloadStart volume limit (payloadOffset + block.len)
                      (volumeIds volume limit taken ids).1 blocks

theorem volumeBlocks_panics_iff {bytes : Bytes} {payloadStart : Nat} {volume : VolumeId}
    {limit : Nat} {blocks : List IdBlock} :
    ∀ {payloadOffset : Nat} {taken : List FileId},
      volumeBlocks path bytes payloadStart volume limit payloadOffset taken blocks =
          .error .panic ↔
        ¬VolumeBlocksFit path bytes payloadStart volume limit payloadOffset taken blocks := by
  have overflow : idFormatError path "id block range overflow" ≠ .panic := nofun
  induction blocks with
  | nil =>
      intro payloadOffset taken
      exact iff_of_false (fun same => by cases same) (not_not_intro trivial)
  | cons block blocks ih =>
      intro payloadOffset taken
      rw [volumeBlocks, checkedAdd_bind_panics_iff overflow, checkedAdd_bind_panics_iff overflow,
        VolumeBlocksFit]
      simp only [Classical.not_imp]
      refine and_congr_right fun started => and_congr_right fun stopped => ?_
      have inside : payloadOffset + block.len < 2 ^ 64 := by omega
      have sum : checkedAdd (idFormatError path "id block range overflow") payloadOffset
          block.len = .ok (payloadOffset + block.len) := if_pos inside
      by_cases passed : volume.value < block.first.volume.value
      · rw [if_pos passed]
        exact iff_of_false (fun same => by cases same) fun unfit => unfit.1 passed
      rw [if_neg passed, and_iff_right passed, and_iff_right inside]
      by_cases skipped : (blocks.head?.any fun next =>
        next.first.volume.value < volume.value) = true
      · rw [if_pos skipped, if_pos skipped, sum]
        exact ih
      rw [if_neg skipped, if_neg skipped, except_bind_eq_error_iff, readBlockAt_panics_iff,
        readBlockAt_eq]
      push Not
      constructor
      · rintro (⟨slice, sliced, unfit⟩ | ⟨decoded, read, failed⟩)
        · exact ⟨slice, sliced, fun fits => absurd fits unfit⟩
        · cases sliced : blockSlice path bytes payloadStart payloadOffset block with
          | error fault =>
              rw [sliced] at read
              cases read
          | ok slice =>
              rw [sliced] at read
              refine ⟨slice, rfl, fun _ => ⟨decoded, read, ?_⟩⟩
              rw [sum] at failed
              rcases scanned : volumeIds volume limit taken decoded with ⟨ids, _ | truncated⟩
              · rw [scanned] at failed
                exact ⟨rfl, ih.mp failed⟩
              · rw [scanned] at failed
                cases failed
      · rintro ⟨slice, sliced, rest⟩
        by_cases fits : BlockFits path block slice
        · rcases rest fits with ⟨decoded, read, more, unfit⟩
          refine Or.inr ⟨decoded, ?_, ?_⟩
          · rw [sliced]
            exact read
          · rw [sum]
            rcases scanned : volumeIds volume limit taken decoded with ⟨ids, _ | truncated⟩
            · rw [scanned] at unfit
              exact ih.mpr unfit
            · rw [scanned] at more
              cases more
        · exact Or.inl ⟨slice, sliced, fits⟩

end Blocks

section Postings

variable (version : ContentStoreVersion)

/-- The ids that a limited read comes to. -/
def IdsFit (limit : Nat) (idBytes : Bytes) : Prop :=
  version.usesBlockedIds = true → limit ≠ 0 →
    ∀ frame, readBlockedFrame path idBytes = .ok frame →
      LimitedBlocksFit path idBytes frame.payloadStart limit 0 0 frame.blocks

/-- The ids that a read for a volume comes to. -/
def VolumeIdsFit (volume : VolumeId) (limit : Nat) (idBytes : Bytes) : Prop :=
  version.usesBlockedIds = true → limit ≠ 0 →
    ∀ frame, readBlockedFrame path idBytes = .ok frame →
      VolumeBlocksFit path idBytes frame.payloadStart volume limit 0 [] frame.blocks

/-- The position entries that a limited read makes room for. -/
def EntriesFit (limit : Nat) (bytes : Bytes) : Prop :=
  ∀ count rest, (readNumber path).run bytes = .ok (count, rest) →
    min count limit * contentPositionsSize ≤ isizeMax

/-- The term that is announced. -/
def TermFits (bytes : Bytes) : Prop :=
  ∀ len rest, (readNumber path).run bytes = .ok (len, rest) → len ≤ isizeMax

theorem readTerm_panics_iff {what : String} {bytes : Bytes} :
    (readTerm what path report).run bytes = .error .panic ↔ ¬TermFits path bytes := by
  rw [readTerm, run_bind_never (never_readNumber path), TermFits]
  push Not
  refine exists_congr fun len => exists_congr fun rest => and_congr_right fun _ => ?_
  by_cases large : isizeMax < len
  · have panics : (readBytes path len).run rest = .error .panic := by
      rw [readBytes, if_pos large]
      rfl
    exact iff_of_true (run_bind_eq_error_iff.mpr (Or.inl panics)) large
  · refine iff_of_false (fun failed => ?_) large
    have never : Never .panic (readBytes path len) := by
      rw [readBytes, if_neg large]
      intro left same
      change readExact (ended path) len left = .error .panic at same
      rw [readExact] at same
      split at same <;> cases same
    rcases (run_bind_never never).mp failed with ⟨term, left, -, failed⟩
    revert failed
    split
    · exact Never.fail (error_ne_panic _) left
    · exact Never.pure _ left

theorem readIdsLimited_panics_iff {limit : Nat} {idBytes : Bytes} :
    readIdsLimited path version idBytes limit = .error .panic ↔
      ¬IdsFit path version limit idBytes := by
  rw [readIdsLimited, IdsFit]
  by_cases blocked : version.usesBlockedIds = true
  · rw [if_pos blocked, readBlockedFileIdsLimitedReport, except_bind_eq_error_iff,
      or_iff_right (readBlockedFrame_ne_panic path idBytes)]
    simp only [blocked, true_implies]
    push Not
    by_cases none : limit = 0
    · simp only [none, if_true, ne_eq, not_true_eq_false, false_and]
      apply iff_of_false
      · rintro ⟨frame, _, same⟩
        cases same
      · exact id
    · simp only [none, if_false, limitedBlocks_panics_iff, ne_eq, not_false_eq_true, true_and]
      exact Iff.rfl
  · rw [if_neg blocked]
    refine iff_of_false (fun same => ?_) (not_not_intro fun also => absurd also blocked)
    rcases except_bind_eq_error_iff.mp same with failed | ⟨found, -, failed⟩
    · exact never_readFileIds path idBytes failed
    · cases failed

theorem readIdsForVolumeLimited_panics_iff {volume : VolumeId} {limit : Nat} {idBytes : Bytes} :
    readIdsForVolumeLimited path version idBytes volume limit = .error .panic ↔
      ¬VolumeIdsFit path version volume limit idBytes := by
  rw [readIdsForVolumeLimited, VolumeIdsFit]
  by_cases blocked : version.usesBlockedIds = true
  · have frameFirst : readBlockedFileIdsLimitedReport path idBytes 0 =
        (readBlockedFrame path idBytes).map fun frame =>
          ⟨[], 0 < frame.count, frame.encodedLen⟩ := by
      rw [readBlockedFileIdsLimitedReport]
      cases readBlockedFrame path idBytes <;> rfl
    rw [if_pos blocked, frameFirst, readBlockedFileIdsForVolumeLimited]
    simp only [blocked, true_implies]
    cases framed : readBlockedFrame path idBytes with
    | error fault =>
        refine iff_of_false (fun same => ?_) (not_not_intro fun _ frame absurd => by cases absurd)
        cases same
        exact readBlockedFrame_ne_panic path idBytes framed
    | ok frame =>
        by_cases none : limit = 0
        · refine iff_of_false (fun same => ?_) (not_not_intro fun some => absurd none some)
          simp only [Except.map, bind, Except.bind, if_pos none] at same
          cases same
        · simp only [Except.map, bind, Except.bind, none, if_false, ne_eq, not_false_eq_true,
            true_implies, Except.ok.injEq, forall_eq']
          rw [← volumeBlocks_panics_iff]
          cases volumeBlocks path idBytes frame.payloadStart volume limit 0 [] frame.blocks with
          | error fault => simp only [Except.error.injEq]
          | ok found => exact iff_of_false (fun same => by cases same) fun same => by cases same
  · rw [if_neg blocked]
    refine iff_of_false (fun same => ?_) (not_not_intro fun also => absurd also blocked)
    rcases except_bind_eq_error_iff.mp same with failed | ⟨found, -, failed⟩
    · exact never_readFileIds path idBytes failed
    · cases failed

theorem readContentPositionsLimited_panics_iff {limit : Nat} {bytes : Bytes} :
    (readContentPositionsLimited path limit).run bytes = .error .panic ↔
      ¬EntriesFit path limit bytes := by
  rw [readContentPositionsLimited, run_bind_never (never_readNumber path), EntriesFit]
  push Not
  refine exists_congr fun count => exists_congr fun rest => and_congr_right fun _ => ?_
  dsimp only
  by_cases large : isizeMax < min count limit * contentPositionsSize
  · rw [if_pos large]
    exact iff_of_true rfl large
  · rw [if_neg large]
    refine iff_of_false ?_ large
    apply Never.bind (Never.chain (never_readPositionsAfter path) _ _)
    intro entries
    exact Never.pure _

/-- What a limited read of a posting asks for stays within the size of an object. -/
structure ReadFits (idsFit entriesFit : Bytes → Prop)
    (readIds : Bytes → Except Fault BlockedFileIdsLimitedReport) (bytes : Bytes) : Prop where
  term : TermFits path bytes
  ids : ∀ term idBytes, (readContentPostingTerm path report).run bytes = .ok (term, idBytes) →
    idsFit idBytes
  entries : ∀ term idBytes ids,
    (readContentPostingTerm path report).run bytes = .ok (term, idBytes) →
      readIds idBytes = .ok ids → version.usesPositions = true →
        ¬idBytes.length < ids.encodedLen → entriesFit (idBytes.drop ids.encodedLen)

/-- The positions after the ids. -/
def positionsAfter (readPositions : Reader Fault (List ContentPositions × Bool)) (idBytes : Bytes)
    (ids : BlockedFileIdsLimitedReport) : Except Fault (List ContentPositions × Bool) :=
  if version.usesPositions then
    if idBytes.length < ids.encodedLen then
      .error (contentFormatError path "content position range out of bounds")
    else (readPositions.run (idBytes.drop ids.encodedLen)).map Prod.fst
  else .ok ([], false)

theorem readLimited_eq (readIds : Bytes → Except Fault BlockedFileIdsLimitedReport)
    (readPositions : Reader Fault (List ContentPositions × Bool)) (bytes : Bytes) :
    readLimited path report version readIds readPositions bytes =
      (readContentPostingTerm path report).run bytes >>= fun read =>
        readIds read.2 >>= fun ids =>
          positionsAfter path version readPositions read.2 ids >>= fun found =>
            .ok ⟨{ term := read.1, ids := ids.ids, positions := found.1 },
              ids.truncated || found.2⟩ := by
  rw [readLimited]
  refine congrArg (Bind.bind _) (funext fun read => ?_)
  refine congrArg (Bind.bind _) (funext fun ids => ?_)
  rw [positionsAfter]
  split
  · split <;> rfl
  · rfl

theorem positionsAfter_panics_iff {entriesFit : Bytes → Prop}
    {readPositions : Reader Fault (List ContentPositions × Bool)}
    (entries : ∀ left, readPositions.run left = .error .panic ↔ ¬entriesFit left)
    {idBytes : Bytes} {ids : BlockedFileIdsLimitedReport} :
    positionsAfter path version readPositions idBytes ids = .error .panic ↔
      version.usesPositions = true ∧ ¬idBytes.length < ids.encodedLen ∧
        ¬entriesFit (idBytes.drop ids.encodedLen) := by
  rw [positionsAfter]
  by_cases listed : version.usesPositions = true
  · rw [if_pos listed, and_iff_right listed]
    by_cases short : idBytes.length < ids.encodedLen
    · rw [if_pos short]
      exact iff_of_false (fun same => by cases same) fun unfit => unfit.1 short
    · rw [if_neg short, and_iff_right short, ← entries]
      cases readPositions.run (idBytes.drop ids.encodedLen) with
      | error fault => simp [Except.map]
      | ok pair => simp [Except.map]
  · rw [if_neg listed]
    exact iff_of_false (fun same => by cases same) fun unfit => listed unfit.1

theorem readLimited_panics_iff {idsFit entriesFit : Bytes → Prop}
    {readIds : Bytes → Except Fault BlockedFileIdsLimitedReport}
    {readPositions : Reader Fault (List ContentPositions × Bool)} {bytes : Bytes}
    (ids : ∀ idBytes, readIds idBytes = .error .panic ↔ ¬idsFit idBytes)
    (entries : ∀ left, readPositions.run left = .error .panic ↔ ¬entriesFit left) :
    readLimited path report version readIds readPositions bytes = .error .panic ↔
      ¬ReadFits path report version idsFit entriesFit readIds bytes := by
  rw [readLimited_eq, except_bind_eq_error_iff]
  constructor
  · rintro (failed | ⟨⟨term, idBytes⟩, termRead, failed⟩) fits
    · exact (readTerm_panics_iff path report).mp failed fits.term
    rcases except_bind_eq_error_iff.mp failed with failed | ⟨found, idsRead, failed⟩
    · exact (ids idBytes).mp failed (fits.ids term idBytes termRead)
    rcases except_bind_eq_error_iff.mp failed with failed | ⟨pair, -, failed⟩
    · rcases (positionsAfter_panics_iff path version entries).mp failed with ⟨listed, long, unfit⟩
      exact unfit (fits.entries term idBytes found termRead idsRead listed long)
    · cases failed
  · intro unfit
    by_contra calm
    rw [not_or] at calm
    refine unfit ⟨?_, ?_, ?_⟩
    · by_contra large
      exact calm.1 ((readTerm_panics_iff path report).mpr large)
    · intro term idBytes termRead
      by_contra large
      exact calm.2 ⟨(term, idBytes), termRead,
        except_bind_eq_error_iff.mpr (Or.inl ((ids idBytes).mpr large))⟩
    · intro term idBytes found termRead idsRead listed long
      by_contra large
      refine calm.2 ⟨(term, idBytes), termRead,
        except_bind_eq_error_iff.mpr (Or.inr ⟨found, idsRead, ?_⟩)⟩
      exact except_bind_eq_error_iff.mpr (Or.inl
        ((positionsAfter_panics_iff path version entries).mpr ⟨listed, long, large⟩))

/-- A limited read of the bytes of a posting asks for no more than an object may have. -/
def LimitedReadFits (limit : Nat) : Bytes → Prop :=
  ReadFits path report version (IdsFit path version limit) (EntriesFit path limit)
    (readIdsLimited path version · limit)

/-- The same of a read for a volume, which makes no room for the entries beforehand. -/
def VolumeReadFits (volume : VolumeId) (limit : Nat) : Bytes → Prop :=
  ReadFits path report version (VolumeIdsFit path version volume limit) (fun _ => True)
    (readIdsForVolumeLimited path version · volume limit)

theorem readContentPostingLimited_panics_iff {limit : Nat} {bytes : Bytes} :
    readContentPostingLimited path report version limit bytes = .error .panic ↔
      ¬LimitedReadFits path report version limit bytes := by
  apply readLimited_panics_iff
  · exact fun idBytes => readIdsLimited_panics_iff path version
  · exact fun left => readContentPositionsLimited_panics_iff path

theorem readContentPostingForVolumeLimited_panics_iff {volume : VolumeId} {limit : Nat}
    {bytes : Bytes} :
    readContentPostingForVolumeLimited path report version volume limit bytes = .error .panic ↔
      ¬VolumeReadFits path report version volume limit bytes := by
  apply readLimited_panics_iff
  · exact fun idBytes => readIdsForVolumeLimited_panics_iff path version
  · exact fun left =>
      iff_of_false (never_readContentPositionsForVolumeLimited path volume limit left)
      (not_not_intro trivial)

end Postings

namespace MmapContentArchive

variable (unicode : Unicode) (archive : MmapContentArchive)

/-- The bytes of an entry are fit for a reader. -/
def EntryFits (fits : Bytes → Prop) (entry : ContentDirectoryEntry) : Prop :=
  ∀ bytes, archive.postingSlice entry = .ok bytes → fits bytes

theorem postingSlice_ne_panic (entry : ContentDirectoryEntry) :
    archive.postingSlice entry ≠ .error .panic := by
  intro same
  have overflow : contentFormatError archive.path "posting range overflow" ≠ .panic := nofun
  rcases (checkedAdd_bind_panics_iff overflow).mp same with ⟨-, failed⟩
  exact getRange_ne_panic (error_ne_panic _) _ _ _ failed

theorem postingAt_panics_iff {read : Bytes → Except Fault LimitedContentPosting}
    {fits : Bytes → Prop} (panics : ∀ bytes, read bytes = .error .panic ↔ ¬fits bytes)
    {term : Text} {entry : ContentDirectoryEntry} :
    archive.postingAt unicode read term entry = .error .panic ↔ ¬archive.EntryFits fits entry := by
  rw [postingAt, except_bind_eq_error_iff, or_iff_right (archive.postingSlice_ne_panic entry),
    EntryFits]
  push Not
  refine exists_congr fun bytes => and_congr_right fun _ => ?_
  rw [except_bind_eq_error_iff, panics]
  refine or_iff_left ?_
  rintro ⟨found, -, failed⟩
  split at failed <;> cases failed

/-- The entry that a lookup of a term comes to. -/
def entryOf (term : Text) : Option ContentDirectoryEntry :=
  if unicode.normalize term = [] then none
  else (binarySearchByKey archive.directory (unicode.normalize term)
    ContentDirectoryEntry.term).bind (archive.directory[·]?)

theorem postingForTermLimit_panics_iff {term : Text} {limit : Nat} :
    archive.postingForTermLimit unicode report term limit = .error .panic ↔
      ∃ entry, archive.entryOf unicode term = some entry ∧
        ¬archive.EntryFits (LimitedReadFits archive.path report archive.version limit) entry := by
  rw [postingForTermLimit, entryOf]
  by_cases empty : unicode.normalize term = []
  · simp only [empty, if_true]
    refine iff_of_false (fun same => by cases same) ?_
    rintro ⟨entry, same, _⟩
    cases same
  simp only [empty, if_false]
  cases (binarySearchByKey archive.directory (unicode.normalize term)
      ContentDirectoryEntry.term).bind (archive.directory[·]?) with
  | none =>
      refine iff_of_false (fun same => by cases same) ?_
      rintro ⟨entry, same, _⟩
      cases same
  | some entry =>
      simp only [Option.some.injEq, exists_eq_left']
      rw [except_bind_eq_error_iff, archive.postingAt_panics_iff unicode
        fun bytes => readContentPostingLimited_panics_iff archive.path report archive.version]
      refine or_iff_left ?_
      rintro ⟨found, -, failed⟩
      cases failed

theorem postingForTerm_panics_iff {term : Text} :
    archive.postingForTerm unicode report term = .error .panic ↔
      ∃ entry, archive.entryOf unicode term = some entry ∧
        ¬archive.EntryFits
          (LimitedReadFits archive.path report archive.version usizeMax) entry := by
  rw [← postingForTermLimit_panics_iff, postingForTerm]
  cases archive.postingForTermLimit unicode report term usizeMax with
  | error fault => simp only [Except.map, Except.error.injEq]
  | ok found => exact iff_of_false (fun same => by cases same) fun same => by cases same

/-- The entries that a walk over sorted terms reads, up to the first that cannot be read. -/
def walked (read : Bytes → Except Fault LimitedContentPosting) (previous : Option Text)
    (directoryIndex : Nat) : List Text → List ContentDirectoryEntry
  | [] => []
  | term :: terms =>
      let term := unicode.normalize term
      if term = [] then walked read previous directoryIndex terms
      else if previous.any fun previous => (compare term previous).isLT then []
      else if previous = some term then walked read previous directoryIndex terms
      else
        let directoryIndex := archive.skipSmaller term directoryIndex
        match archive.directory[directoryIndex]? with
        | none => walked read (some term) directoryIndex terms
        | some entry =>
            if entry.term = term then
              entry :: match archive.postingAt unicode read term entry with
                | .error _ => []
                | .ok _ => walked read (some term) directoryIndex terms
            else walked read (some term) directoryIndex terms

theorem sortedTermsFrom_panics_iff {read : Bytes → Except Fault LimitedContentPosting}
    {fits : Bytes → Prop} (panics : ∀ bytes, read bytes = .error .panic ↔ ¬fits bytes)
    (keep : LimitedContentPosting → Bool) (unsorted : String) (terms : List Text) :
    ∀ (previous : Option Text) (index : Nat) (found : List LimitedContentPosting),
      archive.sortedTermsFrom unicode read keep unsorted previous index found terms =
          .error .panic ↔
        ∃ entry ∈ archive.walked unicode read previous index terms,
          ¬archive.EntryFits fits entry := by
  induction terms with
  | nil =>
      intro previous index found
      refine iff_of_false (fun same => by cases same) ?_
      rintro ⟨entry, listed, _⟩
      cases listed
  | cons term terms ih =>
      intro previous index found
      simp only [sortedTermsFrom, walked]
      by_cases empty : unicode.normalize term = []
      · rw [if_pos empty, if_pos empty]
        exact ih previous index found
      rw [if_neg empty, if_neg empty]
      by_cases lower : (previous.any fun known =>
          (compare (unicode.normalize term) known).isLT) = true
      · rw [if_pos lower, if_pos lower]
        refine iff_of_false (fun same => by cases same) ?_
        rintro ⟨entry, listed, _⟩
        cases listed
      rw [if_neg lower, if_neg lower]
      by_cases repeated : previous = some (unicode.normalize term)
      · rw [if_pos repeated, if_pos repeated]
        exact ih previous index found
      rw [if_neg repeated, if_neg repeated]
      cases archive.directory[archive.skipSmaller (unicode.normalize term) index]? with
      | none => exact ih _ _ found
      | some entry =>
          by_cases same : entry.term = unicode.normalize term
          · simp only [if_pos same]
            rw [except_bind_eq_error_iff, archive.postingAt_panics_iff unicode panics]
            simp only [List.mem_cons, exists_eq_or_imp]
            refine or_congr_right ?_
            cases archive.postingAt unicode read (unicode.normalize term) entry with
            | error fault =>
                apply iff_of_false
                · rintro ⟨posting, absurd, _⟩
                  cases absurd
                · rintro ⟨other, listed, _⟩
                  cases listed
            | ok posting => simp only [Except.ok.injEq, exists_eq_left', ih]
          · simp only [if_neg same]
            exact ih _ _ found

/-- The entries that the lookup of sorted terms reads. -/
def walkedLimit (terms : List Text) (limit : Nat) : List ContentDirectoryEntry :=
  if limit = 0 then []
  else archive.walked unicode (readContentPostingLimited archive.path report archive.version limit)
    none 0 terms

/-- The entries that the lookup for a volume reads. -/
def walkedVolume (terms : List Text) (volume : VolumeId) (limit : Nat) :
    List ContentDirectoryEntry :=
  if limit = 0 then []
  else archive.walked unicode
    (readContentPostingForVolumeLimited archive.path report archive.version volume limit) none 0
    terms

theorem postingsForSortedTermsLimit_panics_iff {terms : List Text} {limit : Nat} :
    archive.postingsForSortedTermsLimit unicode report terms limit = .error .panic ↔
      ∃ entry ∈ archive.walkedLimit report unicode terms limit,
        ¬archive.EntryFits (LimitedReadFits archive.path report archive.version limit) entry := by
  rw [postingsForSortedTermsLimit, walkedLimit]
  by_cases none : limit = 0
  · rw [if_pos none, if_pos none]
    refine iff_of_false (fun same => by cases same) ?_
    rintro ⟨entry, listed, _⟩
    cases listed
  rw [if_neg none, if_neg none]
  exact archive.sortedTermsFrom_panics_iff unicode
    (fun bytes => readContentPostingLimited_panics_iff archive.path report archive.version)
    _ _ terms Option.none 0 []

theorem postingsForSortedTermsVolumeLimit_panics_iff {terms : List Text} {volume : VolumeId}
    {limit : Nat} :
    archive.postingsForSortedTermsVolumeLimit unicode report terms volume limit =
        .error .panic ↔
      ∃ entry ∈ archive.walkedVolume report unicode terms volume limit,
        ¬archive.EntryFits (VolumeReadFits archive.path report archive.version volume limit)
          entry := by
  rw [postingsForSortedTermsVolumeLimit, walkedVolume]
  by_cases none : limit = 0
  · rw [if_pos none, if_pos none]
    refine iff_of_false (fun same => by cases same) ?_
    rintro ⟨entry, listed, _⟩
    cases listed
  rw [if_neg none, if_neg none]
  exact archive.sortedTermsFrom_panics_iff unicode
    (fun bytes => readContentPostingForVolumeLimited_panics_iff archive.path report archive.version)
    _ _ terms Option.none 0 []

end MmapContentArchive

section Segments

theorem readContentPosting_panics_iff {version : ContentStoreVersion}
    (plain : version.usesBlockedIds = false) {bytes : Bytes} :
    (readContentPosting path report version).run bytes = .error .panic ↔ ¬TermFits path bytes := by
  rw [readContentPosting_eq, run_bind_eq_error_iff]
  refine (or_iff_left ?_).trans (readTerm_panics_iff path report)
  rintro ⟨term, rest, -, failed⟩
  rw [plain, if_neg Bool.false_ne_true] at failed
  rcases (run_bind_never (never_readFileIds path)).mp failed with ⟨ids, left, -, failed⟩
  by_cases listed : version.usesPositions = true
  · rw [if_pos listed] at failed
    rcases (run_bind_never (never_readContentPositions path)).mp failed
      with ⟨positions, _, -, failed⟩
    exact Never.pure _ _ failed
  · rw [if_neg listed] at failed
    rcases (run_bind_never (Never.pure _)).mp failed with ⟨positions, _, -, failed⟩
    exact Never.pure _ _ failed

/-- The terms of a segment that the reader comes to are no larger than an object may be. -/
def SegmentFits (bytes : Bytes) : Prop :=
  ∀ magic rest version tombstones afterIds count afterCount done postings left,
    (readExact (ended path) contentSegmentMagic.length).run bytes = .ok (magic, rest) →
      segmentVersion path magic = .ok version →
        (readFileIds path).run rest = .ok (tombstones, afterIds) →
          (readNumber path).run afterIds = .ok (count, afterCount) → done < count →
            (readChain (fun _ : Unit => readContentPosting path report version) (fun _ => ()) done
              ()).run afterCount = .ok (postings, left) → TermFits path left

theorem plain_of_segmentVersion {magic : Bytes} {version : ContentStoreVersion}
    (known : segmentVersion path magic = .ok version) : version.usesBlockedIds = false := by
  rw [segmentVersion] at known
  split at known
  · cases known
    rfl
  · split at known
    · cases known
      rfl
    · cases known

theorem readContentSegment_panics_iff {bytes : Bytes} :
    readContentSegment path report bytes = .error .panic ↔ ¬SegmentFits path report bytes := by
  have exactly : ∀ count left, (readExact (ended path) count).run left ≠ .error .panic := by
    intro count left same
    change readExact (ended path) count left = .error .panic at same
    rw [readExact] at same
    split at same <;> cases same
  rw [readContentSegment, except_bind_eq_error_iff, or_iff_right (exactly _ _)]
  constructor
  · rintro ⟨⟨magic, rest⟩, magicRead, failed⟩ fits
    rcases except_bind_eq_error_iff.mp failed with failed | ⟨version, known, failed⟩
    · rw [segmentVersion] at failed
      split at failed
      · cases failed
      · split at failed <;> cases failed
    rcases except_bind_eq_error_iff.mp failed with failed | ⟨⟨ids, afterIds⟩, idsRead, failed⟩
    · exact never_readFileIds path rest failed
    rcases except_bind_eq_error_iff.mp failed with failed | ⟨⟨postings, _⟩, -, failed⟩
    · rcases (run_bind_never (never_readNumber path)).mp failed with
        ⟨count, afterCount, counted, failed⟩
      rcases readEach_fails_iff.mp failed with ⟨done, postings, left, inside, before, failed⟩
      have plain := plain_of_segmentVersion path known
      exact (readContentPosting_panics_iff path report plain).mp failed
        (fits magic rest version ids afterIds count afterCount done postings left magicRead known
          idsRead counted inside before)
    · cases failed
  · intro unfit
    rw [SegmentFits] at unfit
    push Not at unfit
    rcases unfit with ⟨magic, rest, version, ids, afterIds, count, afterCount, done, postings, left,
      magicRead, known, idsRead, counted, inside, before, large⟩
    have plain := plain_of_segmentVersion path known
    have failed := (readContentPosting_panics_iff path report plain).mpr large
    refine ⟨(magic, rest), magicRead, except_bind_eq_error_iff.mpr (Or.inr ⟨version, known, ?_⟩)⟩
    refine except_bind_eq_error_iff.mpr (Or.inr ⟨(ids, afterIds), idsRead, ?_⟩)
    refine except_bind_eq_error_iff.mpr (Or.inl ?_)
    refine run_bind_eq_error_iff.mpr (Or.inr ⟨count, afterCount, counted, ?_⟩)
    exact readEach_fails_iff.mpr ⟨done, postings, left, inside, before, failed⟩

end Segments

/-- No lookup in a mapped archive panics exactly if the entries that it reads ask for no more than
an object may have; no segment makes its reader panic exactly if its terms do not. -/
theorem contentReaders_panicFree_iff (unicode : Unicode) (report : Bytes → String) :
    (∀ archive : MmapContentArchive,
      (∀ term, archive.postingForTerm unicode report term ≠ .error .panic ↔
        ∀ entry, archive.entryOf unicode term = some entry → archive.EntryFits
          (LimitedReadFits archive.path report archive.version MmapContentArchive.usizeMax) entry) ∧
      (∀ term limit, archive.postingForTermLimit unicode report term limit ≠ .error .panic ↔
        ∀ entry, archive.entryOf unicode term = some entry → archive.EntryFits
          (LimitedReadFits archive.path report archive.version limit) entry) ∧
      (∀ terms limit, archive.postingsForSortedTermsLimit unicode report terms limit ≠
          .error .panic ↔
        ∀ entry ∈ archive.walkedLimit report unicode terms limit, archive.EntryFits
          (LimitedReadFits archive.path report archive.version limit) entry) ∧
      ∀ terms volume limit,
        archive.postingsForSortedTermsVolumeLimit unicode report terms volume limit ≠
            .error .panic ↔
          ∀ entry ∈ archive.walkedVolume report unicode terms volume limit, archive.EntryFits
            (VolumeReadFits archive.path report archive.version volume limit) entry) ∧
    ∀ path bytes, readContentSegment path report bytes ≠ .error .panic ↔
      SegmentFits path report bytes := by
  refine ⟨fun archive => ⟨fun term => ?_, fun term limit => ?_, fun terms limit => ?_,
    fun terms volume limit => ?_⟩, fun path bytes => ?_⟩
  · rw [ne_eq, archive.postingForTerm_panics_iff]
    push Not
    rfl
  · rw [ne_eq, archive.postingForTermLimit_panics_iff]
    push Not
    rfl
  · rw [ne_eq, archive.postingsForSortedTermsLimit_panics_iff]
    push Not
    rfl
  · rw [ne_eq, archive.postingsForSortedTermsVolumeLimit_panics_iff]
    push Not
    rfl
  · rw [ne_eq, readContentSegment_panics_iff, not_not]

deriving instance DecidableEq for MmapContentArchive

/-- An archive without a checksum whose one posting announces a term of `2 ^ 63` bytes. -/
def oversizedTerm : Bytes :=
  contentMagicV2 ++ [0x80, 0x80, 0x80, 0x80, 0x80, 0x80, 0x80, 0x80, 0x80, 0x01] ++
    [0x01, 0x01, 0x61, 0x0f, 0x0a] ++ leBytes 8 25 ++ contentIndexFooter

/-- The archive opens, and the lookup of its term panics. -/
theorem lookup_oversizedTerm_panics :
    ∃ archive, MmapContentArchive.openArchive [] (fun _ => "") oversizedTerm = .ok archive ∧
      archive.postingForTermLimit Unicode.ascii (fun _ => "") "a".toList 1 = .error .panic :=
  ⟨⟨[], oversizedTerm, [⟨"a".toList, 15, 10⟩], .indexedIds⟩, by decide +kernel, by decide +kernel⟩

end Gfm.Store

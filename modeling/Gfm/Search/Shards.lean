import Gfm.Search.Listing
import Gfm.Store.ContentView

/-!
# The sharded index

One index for every volume. A record that is inserted takes the place of the record at its path,
whatever volume that is on.
-/

namespace Gfm

open List Std

instance : Ord VolumeId := ⟨compareOn VolumeId.value⟩

instance : TransOrd VolumeId := inferInstanceAs (TransCmp (compareOn VolumeId.value))

instance : LawfulEqOrd VolumeId where
  eq_of_compare {left right} same := by
    rcases left with ⟨left⟩
    rcases right with ⟨right⟩
    have value : compare left right = .eq := same
    rw [Nat.compare_eq_eq.mp value]

namespace Search

namespace SearchIndex

def contentPostings (index : SearchIndex) : List ContentPosting :=
  index.contentTerms.toList.map fun (term, positions) =>
    { term
      ids := positions.keys
      positions := (positions.toList.filter fun (_, positions) => !positions.isEmpty).map
        fun (id, positions) => ⟨id, positions⟩ }

end SearchIndex

structure ShardedSearchIndex where
  shards : ExtTreeMap VolumeId SearchIndex

namespace ShardedSearchIndex

variable (unicode : Unicode)

def new : ShardedSearchIndex := ⟨∅⟩

variable (index : ShardedSearchIndex)

def pruneEmptyShards : ShardedSearchIndex :=
  ⟨index.shards.filter fun _ shard => !shard.records.isEmpty⟩

/-- The first shard that has the path loses the record there. -/
def removePathFrom (path : Text) :
    List (VolumeId × SearchIndex) → Option FileRecord × List (VolumeId × SearchIndex)
  | [] => (none, [])
  | (volume, shard) :: shards =>
      match shard.removePath unicode path with
      | (some record, shard) => (some record, (volume, shard) :: shards)
      | (none, shard) =>
          let (removed, shards) := removePathFrom path shards
          (removed, (volume, shard) :: shards)

def removePath (path : Text) : Option FileRecord × ShardedSearchIndex :=
  let (removed, shards) := removePathFrom unicode path index.shards.toList
  (removed, pruneEmptyShards ⟨ExtTreeMap.ofList shards⟩)

def insert (record : FileRecord) : ShardedSearchIndex :=
  let freed := (index.removePath unicode record.path).2
  let shard := (freed.shards[record.id.volume]?).getD .new
  pruneEmptyShards ⟨freed.shards.insert record.id.volume (shard.insert unicode record)⟩

def records : List FileRecord :=
  index.shards.toList.flatMap fun (_, shard) => shard.records.toList.map Prod.snd

def insertContent (id : FileId) (text : Text) : ShardedSearchIndex :=
  match index.shards[id.volume]? with
  | none => index
  | some shard => ⟨index.shards.insert id.volume (shard.insertContent unicode id text)⟩

def contentPostings : List ContentPosting :=
  index.shards.toList.flatMap fun (_, shard) => shard.contentPostings

end ShardedSearchIndex

open Store (Lists PostsId)

section Content

variable {unicode : Unicode} {index : SearchIndex} {listed id : FileId} {token other : Text}
  {position : Option Nat}

/-- The content map lists the id under the token, at the position if one is asked for. -/
def ContentFinds (contentTerms : ContentTerms) (token : Text) (id : FileId)
    (position : Option Nat) : Prop :=
  ∃ ids positions, contentTerms[token]? = some ids ∧ ids[id]? = some positions ∧
    ∀ found, position = some found → found ∈ positions

/-- The text has the token, at the position if one is asked for. -/
def TextFinds (unicode : Unicode) (text token : Text) (position : Option Nat) : Prop :=
  ∃ place, (token, place) ∈ (unicode.tokenize (unicode.normalize text)).zipIdx ∧
    ∀ found, position = some found → found = place % 2 ^ 32

theorem exists_contentPostings :
    (∃ posting ∈ index.contentPostings, posting.term = token ∧ PostsId posting id position) ↔
      ContentFinds index.contentTerms token id position := by
  simp only [SearchIndex.contentPostings, mem_map, Prod.exists, ContentFinds,
    ExtTreeMap.mem_toList_iff_getElem?_eq_some]
  constructor
  · rintro ⟨_, ⟨term, ids, found, rfl⟩, rfl, posts⟩
    cases position with
    | none =>
        rcases posts with known | ⟨_, member, rfl⟩
        · have present : id ∈ ids := ExtTreeMap.mem_keys.mp known
          exact ⟨ids, ids[id], found, ExtTreeMap.getElem?_eq_some_getElem present, nofun⟩
        · rcases mem_map.mp member with ⟨⟨known, positions⟩, pair, rfl⟩
          exact ⟨ids, positions, found,
            ExtTreeMap.mem_toList_iff_getElem?_eq_some.mp (mem_filter.mp pair).1, nofun⟩
    | some position =>
        rcases posts with ⟨_, member, rfl, here⟩
        rcases mem_map.mp member with ⟨⟨known, positions⟩, pair, rfl⟩
        refine ⟨ids, positions, found,
          ExtTreeMap.mem_toList_iff_getElem?_eq_some.mp (mem_filter.mp pair).1, ?_⟩
        intro wanted same
        rw [← Option.some.inj same]
        exact here
  · rintro ⟨ids, positions, found, known, has⟩
    refine ⟨_, ⟨token, ids, found, rfl⟩, rfl, ?_⟩
    cases position with
    | none =>
        refine Or.inl (ExtTreeMap.mem_keys.mpr ?_)
        exact ExtTreeMap.mem_iff_isSome_getElem?.mpr (by simp [known])
    | some position =>
        refine ⟨⟨id, positions⟩, ?_, rfl, has position rfl⟩
        refine mem_map.mpr ⟨(id, positions), mem_filter.mpr ⟨?_, ?_⟩, rfl⟩
        · exact ExtTreeMap.mem_toList_iff_getElem?_eq_some.mpr known
        · simpa using ne_nil_of_mem (has position rfl)

theorem contentFinds_listContent {place : Nat} :
    ContentFinds (index.listContent listed other
        fun positions => positions.getD [] ++ [place]).contentTerms token id position ↔
      ContentFinds index.contentTerms token id position ∨
        (token = other ∧ id = listed ∧ ∀ found, position = some found → found = place) := by
  simp only [ContentFinds, SearchIndex.listContent, ExtTreeMap.getElem?_alter,
    Std.compare_eq_iff_eq]
  by_cases sameToken : other = token
  · subst sameToken
    simp only [if_true, Option.some.injEq, exists_and_left, exists_eq_left',
      ExtTreeMap.getElem?_alter, Std.compare_eq_iff_eq, true_and]
    by_cases sameId : listed = id
    · subst sameId
      simp only [if_true, Option.some.injEq, exists_eq_left', mem_append, mem_singleton,
        true_and]
      cases found : index.contentTerms[other]? with
      | none => cases position <;> simp
      | some ids =>
          cases known : ids[listed]? with
          | none => cases position <;> simp [known]
          | some positions => cases position <;> simp [known]
    · simp only [sameId, if_false, Ne.symm sameId, false_and, or_false]
      cases found : index.contentTerms[other]? with
      | none => simp
      | some ids => simp
  · simp [sameToken, Ne.symm sameToken]

theorem contentFinds_removeContent (fresh : index.contentRecordTerms[listed]? = none) :
    ContentFinds (index.removeContent listed).contentTerms token id position ↔
      ContentFinds index.contentTerms token id position ∧ id ≠ listed := by
  rw [SearchIndex.removeContent, fresh]
  simp only [ContentFinds, ExtTreeMap.getElem?_filter', ExtTreeMap.getElem?_map]
  cases found : index.contentTerms[token]? with
  | none => simp
  | some ids =>
      simp only [Option.map_some, Option.filter_some, Option.some.injEq]
      by_cases same : listed = id
      · subst same
        simp only [ne_eq, not_true_eq_false, and_false, iff_false]
        rintro ⟨kept, positions, keeps, known, -⟩
        split at keeps
        · rw [← Option.some.inj keeps] at known
          simp at known
        · cases keeps
      · have different : ¬compare listed id = .eq := by simpa using same
        have erased : (ids.erase listed)[id]? = ids[id]? := by
          rw [ExtTreeMap.getElem?_erase, if_neg different]
        constructor
        · rintro ⟨kept, positions, keeps, known, has⟩
          split at keeps
          · rw [← Option.some.inj keeps, erased] at known
            exact ⟨⟨ids, positions, rfl, known, has⟩, Ne.symm same⟩
          · cases keeps
        · rintro ⟨⟨_, positions, rfl, known, has⟩, -⟩
          have nonempty : (ids.erase listed).isEmpty = false := by
            refine Bool.eq_false_iff.mpr fun empty => ?_
            rw [ExtTreeMap.isEmpty_iff.mp empty] at erased
            rw [← erased] at known
            simp at known
          exact ⟨ids.erase listed, positions, by simp [nonempty], erased.trans known, has⟩

theorem contentFinds_foldl_listContent (pairs : List (Text × Nat)) (index : SearchIndex) :
    ContentFinds (pairs.foldl (fun index (token, place) => index.listContent listed token
        fun positions => positions.getD [] ++ [place % 2 ^ 32]) index).contentTerms
          token id position ↔
      ContentFinds index.contentTerms token id position ∨
        (id = listed ∧ ∃ place, (token, place) ∈ pairs ∧
          ∀ found, position = some found → found = place % 2 ^ 32) := by
  induction pairs generalizing index with
  | nil => simp
  | cons pair pairs ih =>
      rcases pair with ⟨first, start⟩
      rw [foldl_cons, ih, contentFinds_listContent, or_assoc]
      refine or_congr_right ?_
      constructor
      · rintro (⟨rfl, rfl, has⟩ | ⟨rfl, place, member, has⟩)
        · exact ⟨rfl, start, mem_cons_self, has⟩
        · exact ⟨rfl, place, mem_cons_of_mem _ member, has⟩
      · rintro ⟨rfl, place, member, has⟩
        rcases mem_cons.mp member with same | member
        · rw [Prod.mk.injEq] at same
          rw [same.2] at has
          exact Or.inl ⟨same.1, rfl, has⟩
        · exact Or.inr ⟨rfl, place, member, has⟩

/-- What a record without content has once its text is listed. -/
theorem contentFinds_insertContent {text : Text} (live : listed ∈ index.records)
    (fresh : index.contentRecordTerms[listed]? = none) :
    ContentFinds (index.insertContent unicode listed text).contentTerms token id position ↔
      (ContentFinds index.contentTerms token id position ∧ id ≠ listed) ∨
        (id = listed ∧ TextFinds unicode text token position) := by
  rw [SearchIndex.insertContent, if_pos (ExtTreeMap.contains_iff_mem.mpr live),
    contentFinds_foldl_listContent, contentFinds_removeContent fresh]
  rfl

theorem foldl_listContent_frame (pairs : List (Text × Nat)) (index : SearchIndex) :
    let after := pairs.foldl (fun index (token, place) => index.listContent listed token
      fun positions => positions.getD [] ++ [place % 2 ^ 32]) index
    after.records = index.records ∧
      ∀ id, id ≠ listed → after.contentRecordTerms[id]? = index.contentRecordTerms[id]? := by
  dsimp only
  induction pairs generalizing index with
  | nil => exact ⟨rfl, fun _ _ => rfl⟩
  | cons pair pairs ih =>
      rw [foldl_cons]
      rcases ih (index.listContent listed pair.1 fun positions =>
        positions.getD [] ++ [pair.2 % 2 ^ 32]) with ⟨records, terms⟩
      refine ⟨records, fun id different => ?_⟩
      rw [terms id different]
      simp only [SearchIndex.listContent, Postings.add, ExtTreeMap.getElem?_alter,
        Std.compare_eq_iff_eq, Ne.symm different, if_false]

theorem insertContent_frame {text : Text} :
    (index.insertContent unicode listed text).records = index.records ∧
      ∀ id, id ≠ listed →
        (index.insertContent unicode listed text).contentRecordTerms[id]? =
          index.contentRecordTerms[id]? := by
  rw [SearchIndex.insertContent]
  split
  · rcases @foldl_listContent_frame listed
      (unicode.tokenize (unicode.normalize text)).zipIdx (index.removeContent listed) with
        ⟨records, terms⟩
    refine ⟨records.trans (index.removeContent_frame listed).1, fun id different => ?_⟩
    refine (terms id different).trans ?_
    rw [SearchIndex.removeContent]
    cases found : index.contentRecordTerms[listed]? with
    | none => rfl
    | some noted =>
        have other : ¬compare listed id = .eq := by simpa using Ne.symm different
        rw [ExtTreeMap.getElem?_erase, if_neg other]
  · exact ⟨rfl, fun _ _ => rfl⟩

/-- Every token of the map lists an id. -/
def ContentFilled (contentTerms : ContentTerms) : Prop :=
  ∀ (token : Text) (ids : ExtTreeMap FileId (List Nat)),
    contentTerms[token]? = some ids → ids ≠ ∅

theorem ContentFilled.listContent {place : Nat} (filled : ContentFilled index.contentTerms) :
    ContentFilled (index.listContent listed other
      fun positions => positions.getD [] ++ [place]).contentTerms := by
  intro token ids found
  simp only [SearchIndex.listContent, ExtTreeMap.getElem?_alter, Std.compare_eq_iff_eq] at found
  split at found
  · rw [← Option.some.inj found]
    intro empty
    have known := congrArg (fun ids : ExtTreeMap FileId (List Nat) => ids[listed]?) empty
    simp at known
  · exact filled token ids found

theorem ContentFilled.removeContent (fresh : index.contentRecordTerms[listed]? = none) :
    ContentFilled (index.removeContent listed).contentTerms := by
  intro token ids found
  rw [SearchIndex.removeContent, fresh] at found
  simp only [ExtTreeMap.getElem?_filter', Option.filter_eq_some_iff] at found
  rintro rfl
  simp at found

/-- Listing the text of a record without content leaves no token without an id. -/
theorem contentFilled_insertContent {text : Text} (filled : ContentFilled index.contentTerms)
    (fresh : index.contentRecordTerms[listed]? = none) :
    ContentFilled (index.insertContent unicode listed text).contentTerms := by
  rw [SearchIndex.insertContent]
  split
  · have start := ContentFilled.removeContent fresh
    generalize index.removeContent listed = cleared at start
    generalize (unicode.tokenize (unicode.normalize text)).zipIdx = pairs
    induction pairs generalizing cleared with
    | nil => exact start
    | cons pair pairs ih => exact ih _ start.listContent
  · exact filled

theorem ids_of_contentPostings (filled : ContentFilled index.contentTerms)
    {posting : ContentPosting} (member : posting ∈ index.contentPostings) : posting.ids ≠ [] := by
  rw [SearchIndex.contentPostings, mem_map] at member
  rcases member with ⟨⟨term, ids⟩, listed, rfl⟩
  have nonempty := filled term ids (ExtTreeMap.mem_toList_iff_getElem?_eq_some.mp listed)
  intro none
  have keys : ids.keys = [] := none
  refine nonempty (ExtTreeMap.isEmpty_iff.mp ?_)
  rw [ExtTreeMap.isEmpty_eq_size_beq_zero, ← ExtTreeMap.length_keys, keys]
  rfl

end Content

namespace ShardedSearchIndex

variable {unicode : Unicode} {index : ShardedSearchIndex} {token : Text} {id : FileId}
  {position : Option Nat}

/-- A shard lists the id under the token, at the position if one is asked for. -/
def Finds (index : ShardedSearchIndex) (token : Text) (id : FileId) (position : Option Nat) :
    Prop :=
  ∃ (volume : VolumeId) (shard : SearchIndex), index.shards[volume]? = some shard ∧
    ContentFinds shard.contentTerms token id position

theorem exists_contentPostings :
    (∃ posting ∈ index.contentPostings, posting.term = token ∧ PostsId posting id position) ↔
      index.Finds token id position := by
  simp only [contentPostings, mem_flatMap, Prod.exists,
    ExtTreeMap.mem_toList_iff_getElem?_eq_some, Finds, ← Search.exists_contentPostings]
  constructor
  · rintro ⟨posting, ⟨volume, shard, found, member⟩, posts⟩
    exact ⟨volume, shard, found, posting, member, posts⟩
  · rintro ⟨volume, shard, found, posting, member, posts⟩
    exact ⟨posting, ⟨volume, shard, found, member⟩, posts⟩

/-- What a shard of the volume holds is among these records, and it holds no content. -/
structure HeldBy (records : List FileRecord) (volume : VolumeId) (shard : SearchIndex) : Prop where
  terms : shard.contentTerms = ∅ ∧ shard.contentRecordTerms = ∅
  listed : ∀ (id : FileId) (record : FileRecord), shard.records[id]? = some record →
    record ∈ records ∧ record.id = id ∧ id.volume = volume
  paths : ∀ (path : Text) (id : FileId), shard.paths[path]? = some id →
    ∃ record ∈ records, record.path = path

/-- The index holds these records and no content. -/
structure HoldsRecords (index : ShardedSearchIndex) (records : List FileRecord) : Prop where
  shards : ∀ (volume : VolumeId) (shard : SearchIndex), index.shards[volume]? = some shard →
    HeldBy records volume shard
  present : ∀ record ∈ records, ∃ shard : SearchIndex,
    index.shards[record.id.volume]? = some shard ∧
    shard.records[record.id]? = some record

theorem holdsRecords_new : HoldsRecords new [] := by
  refine ⟨?_, nofun⟩
  intro volume shard found
  simp [new] at found

theorem removePathFrom_absent {path : Text} {shards : List (VolumeId × SearchIndex)}
    (absent : ∀ shard ∈ shards, shard.2.paths[path]? = none) :
    removePathFrom unicode path shards = (none, shards) := by
  induction shards with
  | nil => rfl
  | cons first shards ih =>
      rcases first with ⟨volume, shard⟩
      have untouched : shard.removePath unicode path = (none, shard) := by
        rw [SearchIndex.removePath, absent (volume, shard) mem_cons_self]
      rw [removePathFrom, untouched]
      dsimp only
      rw [ih fun other member => absent other (mem_cons_of_mem _ member)]

theorem ofList_toList (shards : ExtTreeMap VolumeId SearchIndex) :
    ExtTreeMap.ofList shards.toList = shards := by
  apply ExtTreeMap.ext_getElem?
  intro volume
  cases found : shards[volume]? with
  | none =>
      refine ExtTreeMap.getElem?_ofList_of_contains_eq_false ?_
      rw [ExtTreeMap.map_fst_toList_eq_keys, Bool.eq_false_iff]
      intro listed
      have known : volume ∈ shards := by
        rw [← ExtTreeMap.mem_keys]
        simpa using listed
      rw [ExtTreeMap.mem_iff_isSome_getElem?, found] at known
      cases known
  | some shard =>
      exact ExtTreeMap.getElem?_ofList_of_mem
        (Std.compare_self) ExtTreeMap.distinct_keys_toList
        (ExtTreeMap.mem_toList_iff_getElem?_eq_some.mpr found)

theorem isEmpty_eq_false_of_getElem? {records : ExtTreeMap FileId FileRecord}
    {record : FileRecord} (known : records[id]? = some record) : records.isEmpty = false := by
  refine Bool.eq_false_iff.mpr fun empty => ?_
  rw [ExtTreeMap.isEmpty_iff.mp empty] at known
  simp at known

theorem getElem?_pruneEmptyShards {volume : VolumeId} {shard : SearchIndex} :
    (pruneEmptyShards index).shards[volume]? = some shard ↔
      index.shards[volume]? = some shard ∧ shard.records.isEmpty = false := by
  simp [pruneEmptyShards, Option.filter_eq_some_iff]

/-- A path that no record has: nothing is removed. -/
theorem removePath_absent {path : Text}
    (absent : ∀ (volume : VolumeId) (shard : SearchIndex), index.shards[volume]? = some shard →
      shard.paths[path]? = none) :
    index.removePath unicode path = (none, pruneEmptyShards index) := by
  have same : removePathFrom unicode path index.shards.toList = (none, index.shards.toList) := by
    refine removePathFrom_absent ?_
    rintro ⟨volume, shard⟩ member
    exact absent volume shard (ExtTreeMap.mem_toList_iff_getElem?_eq_some.mp member)
  rw [removePath, same]
  dsimp only
  rw [ofList_toList]

theorem insert_fresh {shard : SearchIndex} {record : FileRecord}
    (fresh : shard.records[record.id]? = none) :
    (shard.insert unicode record).contentTerms = shard.contentTerms ∧
      (shard.insert unicode record).contentRecordTerms = shard.contentRecordTerms ∧
      (shard.insert unicode record).records = shard.records.insert record.id record ∧
      (shard.insert unicode record).paths = shard.paths.insert record.path record.id := by
  have old : shard.replaceOld unicode record.id = shard := by
    rw [SearchIndex.replaceOld, fresh]
  rcases SearchIndex.addTerms_frame unicode record (RecordColumns.fromRecord unicode record) true
    true true true shard with ⟨records, -, paths, contentTerms, contentRecordTerms⟩
  rw [SearchIndex.insert, old]
  refine ⟨contentTerms, contentRecordTerms, ?_, ?_⟩
  · exact congrArg (fun map => map.insert record.id record) records
  · exact congrArg (fun map => map.insert record.path record.id) paths

theorem heldBy_new (records : List FileRecord) (volume : VolumeId) :
    HeldBy records volume .new := by
  refine ⟨⟨rfl, rfl⟩, ?_, ?_⟩ <;> intro key value known <;> simp [SearchIndex.new] at known

theorem HeldBy.more {records : List FileRecord} {volume : VolumeId} {shard : SearchIndex}
    (held : HeldBy records volume shard) (record : FileRecord) :
    HeldBy (records ++ [record]) volume shard where
  terms := held.terms
  listed := fun id other known =>
    (held.listed id other known).imp_left (mem_append_left [record])
  paths := fun path id known => by
    rcases held.paths path id known with ⟨other, member, same⟩
    exact ⟨other, mem_append_left _ member, same⟩

theorem HeldBy.fresh {records : List FileRecord} {volume : VolumeId} {shard : SearchIndex}
    (held : HeldBy records volume shard) (newId : ∀ other ∈ records, other.id ≠ id) :
    shard.records[id]? = none := by
  cases known : shard.records[id]? with
  | none => rfl
  | some other =>
      rcases held.listed _ other known with ⟨member, same, -⟩
      exact absurd same (newId other member)

/-- The shard that a record is inserted into holds it too. -/
theorem HeldBy.insert {records : List FileRecord} {record : FileRecord} {shard : SearchIndex}
    (held : HeldBy records record.id.volume shard)
    (newId : ∀ other ∈ records, other.id ≠ record.id) :
    HeldBy (records ++ [record]) record.id.volume (shard.insert unicode record) := by
  rcases @insert_fresh unicode shard record (held.fresh newId) with
    ⟨terms, recordTerms, allRecords, allPaths⟩
  refine ⟨⟨terms.trans held.terms.1, recordTerms.trans held.terms.2⟩, ?_, ?_⟩
  · intro id other known
    rw [allRecords, ExtTreeMap.getElem?_insert] at known
    split at known
    case isTrue same =>
      rw [← Option.some.inj known]
      have same := Std.compare_eq_iff_eq.mp same
      exact ⟨by simp, same, congrArg FileId.volume same.symm⟩
    case isFalse _ => exact (held.more record).listed id other known
  · intro path id known
    rw [allPaths, ExtTreeMap.getElem?_insert] at known
    split at known
    case isTrue same => exact ⟨record, by simp, Std.compare_eq_iff_eq.mp same⟩
    case isFalse _ => exact (held.more record).paths path id known

/-- The shard of a volume, which is new where the index has none. -/
def shardAt (index : ShardedSearchIndex) (volume : VolumeId) : SearchIndex :=
  (index.shards[volume]?).getD .new

theorem HoldsRecords.shardAt {records : List FileRecord} (holds : index.HoldsRecords records)
    (volume : VolumeId) : HeldBy records volume ((pruneEmptyShards index).shardAt volume) := by
  rw [ShardedSearchIndex.shardAt]
  cases found : (pruneEmptyShards index).shards[volume]? with
  | none => exact heldBy_new _ _
  | some shard => exact holds.shards _ shard (getElem?_pruneEmptyShards.mp found).1

/-- Where no record has the path, an insertion changes the shard of its volume only. -/
theorem getElem?_insert {record : FileRecord} {volume : VolumeId} {found : SearchIndex}
    (absent : ∀ (volume : VolumeId) (shard : SearchIndex), index.shards[volume]? = some shard →
      shard.paths[record.path]? = none)
    (fresh : ((pruneEmptyShards index).shardAt record.id.volume).records[record.id]? = none) :
    (index.insert unicode record).shards[volume]? = some found ↔
      (volume = record.id.volume ∧
          found = ((pruneEmptyShards index).shardAt volume).insert unicode record) ∨
        (volume ≠ record.id.volume ∧ index.shards[volume]? = some found ∧
          found.records.isEmpty = false) := by
  have full : (((pruneEmptyShards index).shardAt record.id.volume).insert unicode
      record).records.isEmpty = false := by
    rw [(insert_fresh fresh).2.2.1]
    simp
  rw [ShardedSearchIndex.insert, removePath_absent absent]
  dsimp only
  rw [← shardAt, getElem?_pruneEmptyShards, ExtTreeMap.getElem?_insert]
  by_cases same : record.id.volume = volume
  · subst same
    simp only [Std.compare_self, if_true, Option.some.injEq, true_and, ne_eq, not_true_eq_false,
      false_and, or_false]
    constructor
    · rintro ⟨rfl, -⟩
      rfl
    · rintro rfl
      exact ⟨rfl, full⟩
  · have different : ¬compare record.id.volume volume = .eq := by simpa using same
    simp only [different, if_false, getElem?_pruneEmptyShards, Ne.symm same, false_and, ne_eq,
      not_false_eq_true, true_and, false_or]
    tauto

/-- A record with an id and a path of its own is added. -/
theorem HoldsRecords.insert {records : List FileRecord} (holds : index.HoldsRecords records)
    {record : FileRecord} (newId : ∀ other ∈ records, other.id ≠ record.id)
    (newPath : ∀ other ∈ records, other.path ≠ record.path) :
    (index.insert unicode record).HoldsRecords (records ++ [record]) := by
  have absent : ∀ (volume : VolumeId) (shard : SearchIndex), index.shards[volume]? = some shard →
      shard.paths[record.path]? = none := by
    intro volume shard found
    cases known : shard.paths[record.path]? with
    | none => rfl
    | some id =>
        rcases (holds.shards volume shard found).paths record.path id known with
          ⟨other, member, same⟩
        exact absurd same (newPath other member)
  have held := holds.shardAt record.id.volume
  have fresh := held.fresh newId
  have after (volume : VolumeId) (found : SearchIndex) :=
    @getElem?_insert unicode index record volume found absent fresh
  have allRecords := (@insert_fresh unicode _ record fresh).2.2.1
  refine ⟨?_, ?_⟩
  · intro volume found place
    rcases (after volume found).mp place with ⟨rfl, rfl⟩ | ⟨-, place, -⟩
    · exact held.insert newId
    · exact (holds.shards volume found place).more record
  · intro other member
    rcases mem_append.mp member with old | new
    · rcases holds.present other old with ⟨found, place, known⟩
      have full : found.records.isEmpty = false := isEmpty_eq_false_of_getElem? known
      by_cases same : other.id.volume = record.id.volume
      · refine ⟨_, (after _ _).mpr (Or.inl ⟨same, rfl⟩), ?_⟩
        have ownShard : (pruneEmptyShards index).shardAt record.id.volume = found := by
          rw [ShardedSearchIndex.shardAt, ← same, getElem?_pruneEmptyShards.mpr ⟨place, full⟩]
          rfl
        have different : ¬compare record.id other.id = .eq := by
          simpa using (newId other old).symm
        rw [same, allRecords, ExtTreeMap.getElem?_insert, if_neg different, ownShard]
        exact known
      · exact ⟨found, (after _ _).mpr (Or.inr ⟨same, place, full⟩), known⟩
    · rw [mem_singleton.mp new]
      refine ⟨_, (after _ _).mpr (Or.inl ⟨rfl, rfl⟩), ?_⟩
      rw [allRecords, ExtTreeMap.getElem?_insert_self]

theorem HoldsRecords.foldl_insert {done rest : List FileRecord} (holds : index.HoldsRecords done)
    (ids : ((done ++ rest).map FileRecord.id).Nodup)
    (paths : ((done ++ rest).map FileRecord.path).Nodup) :
    HoldsRecords (rest.foldl (ShardedSearchIndex.insert unicode) index) (done ++ rest) := by
  induction rest generalizing index done with
  | nil => simpa using holds
  | cons record rest ih =>
      rw [append_cons] at ids paths ⊢
      refine ih (holds.insert ?_ ?_) ids paths
      · intro other member
        have apart := (nodup_append.mp (map_append ▸ ids)).1
        rw [map_append, nodup_append] at apart
        exact apart.2.2 _ (mem_map_of_mem member) _ (by simp)
      · intro other member
        have apart := (nodup_append.mp (map_append ▸ paths)).1
        rw [map_append, nodup_append] at apart
        exact apart.2.2 _ (mem_map_of_mem member) _ (by simp)

theorem HoldsRecords.mem_records {records : List FileRecord} (holds : index.HoldsRecords records)
    {record : FileRecord} : record ∈ index.records ↔ record ∈ records := by
  simp only [ShardedSearchIndex.records, mem_flatMap, Prod.exists, mem_map,
    ExtTreeMap.mem_toList_iff_getElem?_eq_some, exists_eq_right]
  constructor
  · rintro ⟨volume, shard, found, id, known⟩
    exact ((holds.shards volume shard found).listed id record known).1
  · intro member
    rcases holds.present record member with ⟨shard, found, known⟩
    exact ⟨_, shard, found, _, known⟩

/-- The records come with distinct ids. -/
theorem HoldsRecords.pairwise_records {records : List FileRecord}
    (holds : index.HoldsRecords records) :
    index.records.Pairwise fun left right => left.id ≠ right.id := by
  rw [ShardedSearchIndex.records, pairwise_flatMap]
  constructor
  · rintro ⟨volume, shard⟩ member
    have found := ExtTreeMap.mem_toList_iff_getElem?_eq_some.mp member
    rw [pairwise_map]
    refine ExtTreeMap.distinct_keys_toList.imp_of_mem ?_
    intro left right leftMem rightMem different same
    refine different ?_
    rw [Std.compare_eq_iff_eq]
    have leftId := ((holds.shards volume shard found).listed _ _
      (ExtTreeMap.mem_toList_iff_getElem?_eq_some.mp leftMem)).2.1
    have rightId := ((holds.shards volume shard found).listed _ _
      (ExtTreeMap.mem_toList_iff_getElem?_eq_some.mp rightMem)).2.1
    exact leftId.symm.trans (same.trans rightId)
  · refine ExtTreeMap.distinct_keys_toList.imp_of_mem ?_
    rintro ⟨volume, shard⟩ ⟨otherVolume,
      other⟩ leftMem rightMem different left leftIn right rightIn same
    refine different ?_
    rw [Std.compare_eq_iff_eq]
    rcases mem_map.mp leftIn with ⟨leftPair, leftPairMem, rfl⟩
    rcases mem_map.mp rightIn with ⟨rightPair, rightPairMem, rfl⟩
    have leftShard := holds.shards volume shard
      (ExtTreeMap.mem_toList_iff_getElem?_eq_some.mp leftMem)
    have rightShard := holds.shards otherVolume other
      (ExtTreeMap.mem_toList_iff_getElem?_eq_some.mp rightMem)
    rcases leftShard.listed _ _ (ExtTreeMap.mem_toList_iff_getElem?_eq_some.mp leftPairMem)
      with ⟨-, leftId, leftVolume⟩
    rcases rightShard.listed _ _ (ExtTreeMap.mem_toList_iff_getElem?_eq_some.mp rightPairMem)
      with ⟨-, rightId, rightVolume⟩
    rw [← leftVolume, ← rightVolume, ← leftId, ← rightId, same]

/-- Listing the text of a record that has no content yet. -/
theorem finds_insertContent {listed : FileId} {text : Text} {shard : SearchIndex}
    (found : index.shards[listed.volume]? = some shard) (live : listed ∈ shard.records)
    (fresh : shard.contentRecordTerms[listed]? = none)
    (none : ∀ token position, ¬index.Finds token listed position) :
    (index.insertContent unicode listed text).Finds token id position ↔
      index.Finds token id position ∨ (id = listed ∧ TextFinds unicode text token position) := by
  rw [insertContent, found]
  simp only [Finds, ExtTreeMap.getElem?_insert, Std.compare_eq_iff_eq]
  constructor
  · rintro ⟨volume, after, place, finds⟩
    split at place
    case isTrue same =>
      rw [← Option.some.inj place, contentFinds_insertContent live fresh] at finds
      rcases finds with ⟨finds, -⟩ | own
      · exact Or.inl ⟨_, shard, found, finds⟩
      · exact Or.inr own
    case isFalse _ => exact Or.inl ⟨volume, after, place, finds⟩
  · rintro (⟨volume, before, place, finds⟩ | own)
    · by_cases same : listed.volume = volume
      · subst same
        rw [found, Option.some.injEq] at place
        subst place
        refine ⟨_, _, if_pos rfl, (contentFinds_insertContent live fresh).mpr (Or.inl ⟨finds, ?_⟩)⟩
        rintro rfl
        exact none token position ⟨_, shard, found, finds⟩
      · exact ⟨volume, before, (if_neg same).trans place, finds⟩
    · exact ⟨_, _, if_pos rfl, (contentFinds_insertContent live fresh).mpr (Or.inr own)⟩

end ShardedSearchIndex

end Search

end Gfm

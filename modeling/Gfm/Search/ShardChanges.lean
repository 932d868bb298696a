import Gfm.Search.Entries
import Gfm.Search.Shards

/-!
# Changes to the sharded index

The operations of the sharded index beside inserting a record and its content, what holds of the
index after any run of them, and what they do to the entries of a volume.
-/

namespace Gfm.Search

open List Postings RecordColumns SearchIndex Shelves Std

namespace ShardedSearchIndex

variable (unicode : Unicode) (index : ShardedSearchIndex)

def remove (id : FileId) : Option FileRecord × ShardedSearchIndex :=
  match index.shards[id.volume]? with
  | none => (none, index)
  | some shard =>
      let (removed, shard) := shard.remove unicode id
      (removed, pruneEmptyShards ⟨index.shards.insert id.volume shard⟩)

def removeSubtree (root : Text) : List FileRecord × ShardedSearchIndex :=
  (index.shards.toList.flatMap fun (_, shard) => (shard.removeSubtree unicode root).1,
    pruneEmptyShards ⟨index.shards.map fun _ shard => (shard.removeSubtree unicode root).2⟩)

def getPath (path : Text) : Option FileRecord :=
  index.shards.toList.findSome? fun (_, shard) =>
    (shard.paths[path]?).bind fun id => shard.records[id]?

/-- The postings of a volume, those that have any. -/
def idsOn (volume : VolumeId) (ids : List FileId) : List FileId :=
  ids.filter fun id => id.volume = volume

def insertWithColumnsInner (record : FileRecord) (columns : SearchRecordColumns)
    (buildPrefixes buildSubstrings buildFuzzy buildMetadata : Bool) : Bool × ShardedSearchIndex :=
  let freed := (index.removePath unicode record.path).2
  let (inserted, shard) := ((freed.shards[record.id.volume]?).getD .new).insertWithColumnsInner
    unicode record columns buildPrefixes buildSubstrings buildFuzzy buildMetadata
  (inserted, pruneEmptyShards ⟨freed.shards.insert record.id.volume shard⟩)

def importFuzzyPostings (postings : List SearchFuzzyPosting) : ShardedSearchIndex :=
  ⟨index.shards.map fun _ shard => shard.importFuzzyPostings unicode postings⟩

def importPrefixPostings (postings : List SearchPrefixPosting) : ShardedSearchIndex :=
  ⟨index.shards.map fun volume shard => shard.importPrefixPostings unicode
    ((postings.map fun posting => { posting with ids := idsOn volume posting.ids }).filter
      fun posting => !posting.ids.isEmpty)⟩

def importSubstringPostings (postings : List SearchSubstringPosting) : ShardedSearchIndex :=
  ⟨index.shards.map fun volume shard => shard.importSubstringPostings unicode
    ((postings.map fun posting => { posting with ids := idsOn volume posting.ids }).filter
      fun posting => !posting.ids.isEmpty)⟩

def importMetadataPostings (postings : List SearchMetadataPosting) : ShardedSearchIndex :=
  ⟨index.shards.map fun volume shard => shard.importMetadataPostings unicode
    ((postings.map fun posting => { posting with ids := idsOn volume posting.ids }).filter
      fun posting => !posting.ids.isEmpty)⟩

def importContentPostings (postings : List ContentPosting) : ShardedSearchIndex :=
  ⟨index.shards.map fun volume shard => shard.importContentPostings unicode
    ((postings.map fun posting =>
      { posting with
        ids := idsOn volume posting.ids
        positions := posting.positions.filter fun positions => positions.id.volume = volume
        }).filter fun posting => !posting.ids.isEmpty || !posting.positions.isEmpty)⟩

def applyRecordColumns (columns : SearchRecordColumns) : Bool × ShardedSearchIndex :=
  match index.shards[columns.id.volume]? with
  | none => (false, index)
  | some shard =>
      let (applied, shard) := shard.applyRecordColumns unicode columns
      (applied, ⟨index.shards.insert columns.id.volume shard⟩)

end ShardedSearchIndex

namespace SearchIndex

variable {unicode : Unicode} {index : SearchIndex}

theorem shelf_new : SearchIndex.new.shelf = Shelf.bare := by
  apply Shelf.ext
  · intro id
    change SearchIndex.new.entry id = none
    simp [entry, new]
  · rintro ⟨column, key⟩ id
    refine iff_of_false ?_ False.elim
    rintro ⟨lists, -⟩
    cases column <;> exact not_lists_empty lists
  · intro mark
    exact iff_of_false not_lists_empty False.elim

theorem steady_new : SearchIndex.new.Steady :=
  ⟨wellIndexed_new, fun key contains => by simp [new] at contains⟩

theorem pathsInverse_new : SearchIndex.new.PathsInverse := sound_new.inverse

theorem vacant_iff (well : index.WellIndexed) :
    index.shelf.Vacant ↔ index.records.isEmpty = true := by
  have same (id : FileId) : index.shelf.entry id = none ↔ index.records[id]? = none := by
    rw [← Option.not_isSome_iff_eq_none, ← Option.not_isSome_iff_eq_none, ← entry_isSome well id]
    rfl
  rw [ExtTreeMap.isEmpty_iff]
  constructor
  · intro vacant
    apply ExtTreeMap.ext_getElem?
    intro id
    rw [(same id).mp (vacant id), ExtTreeMap.getElem?_empty]
  · intro empty id
    rw [same, empty, ExtTreeMap.getElem?_empty]

/-- A shard without records is as good as none. -/
theorem prune_shelf (well : index.WellIndexed) :
    index.shelf.prune = if index.records.isEmpty then Shelf.bare else index.shelf := by
  classical
  exact if_congr (vacant_iff well) rfl rfl

theorem records_eq (well : index.WellIndexed) (id : FileId) :
    index.records[id]? = (index.entry id).map Entry.record := by
  have isSome := entry_isSome well id
  cases found : index.entry id with
  | none =>
      rw [found] at isSome
      exact Option.not_isSome_iff_eq_none.mp (by simp [← isSome])
  | some entry => exact (entry_some_iff.mp found).1

theorem exists_entry (well : index.WellIndexed) {id : FileId} {record : FileRecord}
    (live : index.records[id]? = some record) :
    ∃ entry, index.entry id = some entry ∧ entry.record = record := by
  rw [records_eq well] at live
  exact Option.map_eq_some_iff.mp live

theorem columns_eq (well : index.WellIndexed) (id : FileId) :
    index.columns[id]? = (index.entry id).map Entry.columns := by
  have isSome := entry_isSome well id
  rw [← well.stored] at isSome
  cases found : index.entry id with
  | none =>
      rw [found] at isSome
      exact Option.not_isSome_iff_eq_none.mp (by simp [← isSome])
  | some entry => exact (entry_some_iff.mp found).2.1

theorem lists_iff (well : index.WellIndexed) {column : Column} {key : Text} {id : FileId} :
    Lists (index.listing column) key id ↔
      (∃ entry, index.entry id = some entry ∧ entry.listed (column, key)) ∨
        index.shelf.stale (column, key) id := by
  constructor
  · intro lists
    by_cases implied : index.Implies column key id
    · rcases implied with ⟨columns, stored, member⟩
      rw [columns_eq well] at stored
      rcases Option.map_eq_some_iff.mp stored with ⟨entry, found, rfl⟩
      exact Or.inl ⟨entry, found,
        ((entry_some_iff.mp found).2.2.1 column key).mpr ⟨lists, member⟩⟩
    · exact Or.inr ⟨lists, implied⟩
  · rintro (⟨entry, found, listed⟩ | ⟨lists, -⟩)
    · exact ((entry_some_iff.mp found).2.2.1 column key).mp listed |>.1
    · exact lists

theorem positions_eq (well : index.WellIndexed) (term : Text) (id : FileId) :
    positionsIn index.contentTerms term id =
      (index.entry id).bind fun entry => entry.positions term := by
  cases found : index.entry id with
  | none =>
      have isSome := entry_isSome well id
      rw [found] at isSome
      refine Option.not_isSome_iff_eq_none.mp ?_
      rw [← contentLists_iff_positionsIn]
      intro lists
      have live := well.contentLive lists
      rw [ExtTreeMap.mem_iff_isSome_getElem?, ← isSome] at live
      cases live
  | some entry => exact ((entry_some_iff.mp found).2.2.2.1 term).symm

theorem notes_iff (well : index.WellIndexed) (term : Text) (id : FileId) :
    Lists index.contentRecordTerms id term ↔
      ∃ entry, index.entry id = some entry ∧ entry.noted term := by
  cases found : index.entry id with
  | none =>
      have isSome := entry_isSome well id
      rw [found] at isSome
      refine iff_of_false ?_ (by simp)
      intro lists
      have live := well.notedLive lists
      rw [ExtTreeMap.mem_iff_isSome_getElem?, ← isSome] at live
      cases live
  | some entry => simp [(entry_some_iff.mp found).2.2.2.2 term]

theorem Withdrawn.live {ids : List FileId} {after : SearchIndex}
    (withdrawn : Withdrawn index ids after) {id : FileId} {record : FileRecord}
    (left : after.records[id]? = some record) :
    index.records[id]? = some record := by
  rw [withdrawn.records] at left
  split at left
  · cases left
  · exact left

theorem PathsInverse.same (inverse : index.PathsInverse) {after : SearchIndex}
    (records : after.records = index.records) (paths : after.paths = index.paths) :
    after.PathsInverse := by
  intro path id
  rw [records, paths]
  exact inverse path id

theorem Imported.steady {after : SearchIndex} (isImported : Imported index after)
    (steady : index.Steady) : after.Steady := by
  have names : after.nameTerms = index.nameTerms := isImported.own .nameTerms rfl
  exact ⟨isImported.wellIndexed steady.well, names ▸ steady.names⟩

theorem ContentChanged.steady {after : SearchIndex} (changed : ContentChanged index after)
    (steady : index.Steady) : after.Steady := by
  have names : after.nameTerms = index.nameTerms := changed.listing .nameTerms
  exact ⟨changed.wellIndexed steady.well, names ▸ steady.names⟩

theorem Steady.applyRecordColumns (unicode : Unicode) (steady : index.Steady)
    (columns : SearchRecordColumns) :
    (index.applyRecordColumns unicode columns).2.Steady ∧
      (index.applyRecordColumns unicode columns).2.records = index.records ∧
      (index.applyRecordColumns unicode columns).2.paths = index.paths := by
  have well := steady.well.step unicode (.applyRecordColumns columns)
  change (index.applyRecordColumns unicode columns).2.WellIndexed at well
  rw [SearchIndex.applyRecordColumns] at well ⊢
  cases found : index.records[columns.id]? with
  | none => exact ⟨steady, rfl, rfl⟩
  | some record =>
      rw [found] at well
      rcases addTerms_frame unicode record (fromSearchColumns unicode columns) true
        true true true (index.removeTerms unicode record) with ⟨records, -, paths, -⟩
      refine ⟨⟨well, ?_⟩, records.trans removeTerms_frame.1, paths.trans removeTerms_frame.2.2⟩
      have names : ((index.removeTerms unicode record).addTerms unicode record
          (fromSearchColumns unicode columns)).nameTerms =
          addEach (removeEach index.nameTerms (index.columnsOf unicode record).nameTokens record.id)
            (fromSearchColumns unicode columns).nameTokens record.id := by
        rw [addTerms_names, removeTerms_names]
      change NamesFilled ((index.removeTerms unicode record).addTerms unicode record
        (fromSearchColumns unicode columns)).nameTerms
      rw [names]
      exact (steady.names.removeEach _).addEach _

theorem Steady.insertWithColumnsInner (unicode : Unicode) (steady : index.Steady)
    (record : FileRecord) (columns : SearchRecordColumns)
    (buildPrefixes buildSubstrings buildFuzzy buildMetadata : Bool) :
    (index.insertWithColumnsInner unicode record columns buildPrefixes buildSubstrings buildFuzzy
      buildMetadata).2.Steady := by
  rcases insertWithColumnsInner_listed unicode steady.well record columns buildPrefixes
    buildSubstrings buildFuzzy buildMetadata with ⟨entry, built, -, whole, isListed⟩
  refine ⟨isListed.wellIndexed whole steady.well, ?_⟩
  rw [SearchIndex.insertWithColumnsInner]
  split
  · exact (steady.insert unicode record).names
  · rcases addTerms_eq unicode record (fromSearchColumns unicode columns)
      buildPrefixes buildSubstrings buildFuzzy buildMetadata
      (index.replaceOld unicode record.id) with ⟨fuzzyTerms, same⟩
    dsimp only [register]
    rw [same]
    exact (steady.replaceOld unicode record.id).names.addEach _

/-- A path of the shard is that of a record. -/
theorem removePath_of_mapped (inverse : index.PathsInverse) {path : Text} {id : FileId}
    (mapped : index.paths[path]? = some id) :
    ∃ record, index.records[id]? = some record ∧ record.path = path ∧
      (index.removePath unicode path).1 = some record := by
  rcases (inverse path id).mp mapped with ⟨record, live, here⟩
  refine ⟨record, live, here, ?_⟩
  rw [removePath, mapped]
  dsimp only
  rw [remove_fst]
  exact live

theorem removePath_of_unmapped {path : Text} (unmapped : index.paths[path]? = none) :
    index.removePath unicode path = (none, index) := by
  rw [removePath, unmapped]

theorem Steady.removePath (unicode : Unicode) (steady : index.Steady) (path : Text) :
    (index.removePath unicode path).2.Steady := by
  rw [SearchIndex.removePath]
  cases index.paths[path]? with
  | none => exact steady
  | some id => exact (steady.setPaths _).remove unicode id

/-- Removing a path, as an operation of the shelf. -/
theorem shelf_removePath (unicode : Unicode) (steady : index.Steady)
    (inverse : index.PathsInverse) (volume : VolumeId) (path : Text) :
    (index.removePath unicode path).2.shelf =
      index.shelf.remove (catalogue unicode volume) fun _ found => found.record.path = path := by
  have here (id : FileId) (found : Entry) (live : index.shelf.entry id = some found) :
      index.paths[path]? = some id ↔ found.record.path = path := by
    have record := (entry_some_iff.mp live).1
    rw [inverse path id, record]
    simp
  rw [SearchIndex.removePath]
  cases mapped : index.paths[path]? with
  | none =>
      refine (remove_nothing fun id found live same => ?_).symm
      rw [(here id found live).mpr same] at mapped
      cases mapped
  | some id =>
      have bookkeeping := shelf_bookkeeping index (index.paths.erase path) index.pinned
      have steadyErased := steady.setPaths (index.paths.erase path)
      have removed := shelf_remove unicode steadyErased volume id
      refine removed.trans ?_
      have sameShelf : ({ index with paths := index.paths.erase path } : SearchIndex).shelf =
          index.shelf := bookkeeping
      rw [sameShelf]
      refine remove_congr fun other found live => ?_
      rw [mem_singleton, ← here other found live, mapped, Option.some.injEq, eq_comm]

end SearchIndex

namespace ShardedSearchIndex

variable {unicode : Unicode} {index after : ShardedSearchIndex} {volume : VolumeId}
  {shard : SearchIndex}

def shelfAt (index : ShardedSearchIndex) (volume : VolumeId) : ShardShelf :=
  (index.shardAt volume).shelf

/-- What holds of the index at any time. -/
structure Coherent (index : ShardedSearchIndex) : Prop where
  steady : ∀ (volume : VolumeId) (shard : SearchIndex),
    index.shards[volume]? = some shard → shard.Steady
  inverse : ∀ (volume : VolumeId) (shard : SearchIndex),
    index.shards[volume]? = some shard → shard.PathsInverse
  own : ∀ (volume : VolumeId) (shard : SearchIndex), index.shards[volume]? = some shard →
    ∀ (id : FileId) (record : FileRecord), shard.records[id]? = some record → id.volume = volume
  apart : ∀ (volume other : VolumeId) (shard otherShard : SearchIndex),
    index.shards[volume]? = some shard → index.shards[other]? = some otherShard →
    ∀ (id otherId : FileId) (record otherRecord : FileRecord),
      shard.records[id]? = some record → otherShard.records[otherId]? = some otherRecord →
      record.path = otherRecord.path → volume = other
  full : ∀ (volume : VolumeId) (shard : SearchIndex),
    index.shards[volume]? = some shard → shard.records.isEmpty = false

theorem coherent_new : new.Coherent := by
  constructor <;> intros <;> simp_all [new]

theorem Coherent.steadyAt (coherent : index.Coherent) (volume : VolumeId) :
    (index.shardAt volume).Steady := by
  rw [shardAt]
  cases found : index.shards[volume]? with
  | none => exact SearchIndex.steady_new
  | some shard => exact coherent.steady volume shard found

theorem Coherent.inverseAt (coherent : index.Coherent) (volume : VolumeId) :
    (index.shardAt volume).PathsInverse := by
  rw [shardAt]
  cases found : index.shards[volume]? with
  | none => exact SearchIndex.pathsInverse_new
  | some shard => exact coherent.inverse volume shard found

theorem getElem?_of_records {id : FileId} {record : FileRecord}
    (live : (index.shardAt volume).records[id]? = some record) :
    index.shards[volume]? = some (index.shardAt volume) := by
  rw [shardAt] at live ⊢
  cases found : index.shards[volume]? with
  | none =>
      rw [found] at live
      simp [SearchIndex.new] at live
  | some shard => rfl

theorem shardAt_of_getElem? (found : index.shards[volume]? = some shard) :
    index.shardAt volume = shard := by
  rw [shardAt, found]
  rfl

theorem shelfAt_absent (absent : index.shards[volume]? = none) :
    index.shelfAt volume = Shelf.bare := by
  rw [shelfAt, shardAt, absent]
  exact SearchIndex.shelf_new

/-- Records of the shards: no id belongs to two of them, if none does in any shard. -/
theorem nodup_shards {records : VolumeId × SearchIndex → List FileRecord}
    (each : ∀ (volume : VolumeId) (shard : SearchIndex), index.shards[volume]? = some shard →
      ((records (volume, shard)).map FileRecord.id).Nodup ∧
        ∀ record ∈ records (volume, shard), record.id.volume = volume) :
    ((index.shards.toList.flatMap records).map FileRecord.id).Nodup := by
  rw [List.Nodup, pairwise_map, pairwise_flatMap]
  constructor
  · rintro ⟨volume, shard⟩ member
    have found := ExtTreeMap.mem_toList_iff_getElem?_eq_some.mp member
    exact pairwise_map.mp (each volume shard found).1
  · refine ExtTreeMap.distinct_keys_toList.imp_of_mem ?_
    rintro ⟨volume, shard⟩ ⟨other, otherShard⟩ member otherMem differs left leftMem right rightMem
      same
    have found := ExtTreeMap.mem_toList_iff_getElem?_eq_some.mp member
    have otherFound := ExtTreeMap.mem_toList_iff_getElem?_eq_some.mp otherMem
    have leftOwn := (each volume shard found).2 left leftMem
    have rightOwn := (each other otherShard otherFound).2 right rightMem
    rw [same] at leftOwn
    exact differs (Std.compare_eq_iff_eq.mpr (leftOwn.symm.trans rightOwn))

theorem Coherent.shelfAt_pruned (coherent : index.Coherent) (volume : VolumeId) :
    (index.shelfAt volume).prune = index.shelfAt volume := by
  cases found : index.shards[volume]? with
  | none =>
      rw [shelfAt_absent found]
      exact ite_self _
  | some shard =>
      rw [shelfAt, shardAt_of_getElem? found,
        SearchIndex.prune_shelf (coherent.steady volume shard found).well,
        coherent.full volume shard found]
      rfl

/-- Changing every shard and dropping those without records. -/
theorem shelfAt_prune_map {change : VolumeId → SearchIndex → SearchIndex}
    (well : ∀ shard, index.shards[volume]? = some shard → (change volume shard).WellIndexed) :
    (pruneEmptyShards ⟨index.shards.map change⟩).shelfAt volume =
      match index.shards[volume]? with
      | none => Shelf.bare
      | some shard => (change volume shard).shelf.prune := by
  have pruned : (pruneEmptyShards ⟨index.shards.map change⟩).shards[volume]? =
      ((index.shards[volume]?).map (change volume)).filter
        fun shard => !shard.records.isEmpty := by
    simp [pruneEmptyShards, ExtTreeMap.getElem?_map]
  rw [shelfAt, shardAt, pruned]
  cases found : index.shards[volume]? with
  | none => exact SearchIndex.shelf_new
  | some shard =>
      simp only [SearchIndex.prune_shelf (well shard found), Option.map_some, Option.filter_some]
      cases (change volume shard).records.isEmpty with
      | true => exact SearchIndex.shelf_new
      | false => rfl

/-- A change that takes records out of the shards. -/
theorem Coherent.shrink (coherent : index.Coherent)
    (shrunk : ∀ (volume : VolumeId) (shard : SearchIndex), after.shards[volume]? = some shard →
      shard.Steady ∧ shard.PathsInverse ∧ shard.records.isEmpty = false ∧
        ∃ before, index.shards[volume]? = some before ∧
          ∀ (id : FileId) (record : FileRecord), shard.records[id]? = some record →
            before.records[id]? = some record) : after.Coherent := by
  constructor
  · exact fun volume shard found => (shrunk volume shard found).1
  · exact fun volume shard found => (shrunk volume shard found).2.1
  · intro volume shard found id record live
    rcases (shrunk volume shard found).2.2.2 with ⟨before, present, kept⟩
    exact coherent.own volume before present id record (kept id record live)
  · intro volume other shard otherShard found otherFound id otherId record otherRecord live
      otherLive same
    rcases (shrunk volume shard found).2.2.2 with ⟨before, present, kept⟩
    rcases (shrunk other otherShard otherFound).2.2.2 with ⟨otherBefore, otherPresent, otherKept⟩
    exact coherent.apart volume other before otherBefore present otherPresent id otherId record
      otherRecord (kept id record live) (otherKept otherId otherRecord otherLive) same
  · exact fun volume shard found => (shrunk volume shard found).2.2.1

theorem getElem?_prune_map {change : VolumeId → SearchIndex → SearchIndex} :
    (pruneEmptyShards ⟨index.shards.map change⟩).shards[volume]? = some shard ↔
      ∃ before, index.shards[volume]? = some before ∧ shard = change volume before ∧
        shard.records.isEmpty = false := by
  rw [getElem?_pruneEmptyShards, ExtTreeMap.getElem?_map, Option.map_eq_some_iff]
  constructor
  · rintro ⟨⟨before, found, rfl⟩, full⟩
    exact ⟨before, found, rfl, full⟩
  · rintro ⟨before, found, rfl, full⟩
    exact ⟨⟨before, found, rfl⟩, full⟩

section RemovePath

variable {path : Text}

theorem removePathFrom_eq {shards : List (VolumeId × SearchIndex)}
    (inverse : ∀ shard ∈ shards, shard.2.PathsInverse)
    (apart : shards.Pairwise fun left right =>
      left.2.paths[path]? = none ∨ right.2.paths[path]? = none) :
    (removePathFrom unicode path shards).2 =
        shards.map (fun shard => (shard.1, (shard.2.removePath unicode path).2)) ∧
      ((removePathFrom unicode path shards).1 = none →
        ∀ shard ∈ shards, shard.2.paths[path]? = none) ∧
      ∀ record, (removePathFrom unicode path shards).1 = some record →
        ∃ shard ∈ shards, ∃ id : FileId,
          shard.2.records[id]? = some record ∧ record.path = path := by
  induction shards with
  | nil =>
      refine ⟨rfl, ?_, ?_⟩
      · intro _ shard member
        cases member
      · intro record found
        cases found
  | cons first shards ih =>
      rcases first with ⟨volume, shard⟩
      rw [pairwise_cons] at apart
      have later := ih (fun other member => inverse other (mem_cons_of_mem _ member)) apart.2
      rw [removePathFrom]
      cases mapped : shard.paths[path]? with
      | none =>
          rw [SearchIndex.removePath_of_unmapped mapped]
          refine ⟨?_, ?_, ?_⟩
          · rw [map_cons, SearchIndex.removePath_of_unmapped mapped]
            exact congrArg _ later.1
          · intro none other member
            rcases mem_cons.mp member with rfl | member
            · exact mapped
            · exact later.2.1 none other member
          · intro record found
            rcases later.2.2 record found with ⟨other, member, rest⟩
            exact ⟨other, mem_cons_of_mem _ member, rest⟩
      | some id =>
          rcases SearchIndex.removePath_of_mapped
            (inverse (volume, shard) mem_cons_self) mapped with ⟨record, live, here, removed⟩
          have pair : shard.removePath unicode path =
              (some record, (shard.removePath unicode path).2) := Prod.ext removed rfl
          have others : ∀ other ∈ shards, other.2.paths[path]? = none := by
            intro other member
            refine (apart.1 other member).resolve_left fun unmapped => ?_
            rw [mapped] at unmapped
            cases unmapped
          have unchanged : shards.map
              (fun shard => (shard.1, (shard.2.removePath unicode path).2)) = shards := by
            conv_rhs => rw [← map_id shards]
            refine map_congr_left fun other member => ?_
            rw [SearchIndex.removePath_of_unmapped (others other member)]
            rfl
          rw [pair]
          refine ⟨?_, ?_, ?_⟩
          · rw [map_cons, unchanged]
          · intro none
            cases none
          · intro found same
            rw [← Option.some.inj same]
            exact ⟨(volume, shard), mem_cons_self, id, live, here⟩

theorem Coherent.apart_paths (coherent : index.Coherent) (path : Text) :
    index.shards.toList.Pairwise fun left right =>
      left.2.paths[path]? = none ∨ right.2.paths[path]? = none := by
  refine ExtTreeMap.distinct_keys_toList.imp_of_mem ?_
  rintro ⟨volume, shard⟩ ⟨other, otherShard⟩ member otherMem differs
  have found := ExtTreeMap.mem_toList_iff_getElem?_eq_some.mp member
  have otherFound := ExtTreeMap.mem_toList_iff_getElem?_eq_some.mp otherMem
  by_contra both
  rw [not_or, ← ne_eq, ← ne_eq, Option.ne_none_iff_exists', Option.ne_none_iff_exists'] at both
  rcases both with ⟨⟨id, mapped⟩, otherId, otherMapped⟩
  rcases (coherent.inverse volume shard found path id).mp mapped with ⟨record, live, here⟩
  rcases (coherent.inverse other otherShard otherFound path otherId).mp otherMapped with
    ⟨otherRecord, otherLive, otherHere⟩
  have same := coherent.apart volume other shard otherShard found otherFound id otherId record
    otherRecord live otherLive (here.trans otherHere.symm)
  exact differs (by rw [same]; exact Std.compare_self)

theorem removePath_eq (unicode : Unicode) (coherent : index.Coherent) (path : Text) :
    (index.removePath unicode path).2 =
        pruneEmptyShards ⟨index.shards.map fun _ shard => (shard.removePath unicode path).2⟩ ∧
      ((index.removePath unicode path).1 = none → ∀ volume,
        (index.shardAt volume).paths[path]? = none) ∧
      ∀ record, (index.removePath unicode path).1 = some record →
        (index.shardAt record.id.volume).records[record.id]? = some record ∧
          record.path = path := by
  have inverse : ∀ shard ∈ index.shards.toList, shard.2.PathsInverse := by
    rintro ⟨volume, shard⟩ member
    exact coherent.inverse volume shard
      (ExtTreeMap.mem_toList_iff_getElem?_eq_some.mp member)
  rcases @removePathFrom_eq unicode path _ inverse (coherent.apart_paths path) with
    ⟨shards, none, some⟩
  refine ⟨?_, ?_, ?_⟩
  · rw [removePath]
    dsimp only
    rw [shards, ← ofList_toList (index.shards.map fun _ shard => (shard.removePath unicode path).2),
      ExtTreeMap.toList_map]
  · intro nothing volume
    rw [shardAt]
    cases found : index.shards[volume]? with
    | none => simp [SearchIndex.new]
    | some shard =>
        exact none nothing (volume, shard)
          (ExtTreeMap.mem_toList_iff_getElem?_eq_some.mpr found)
  · intro record removed
    rcases some record removed with ⟨⟨volume, shard⟩, member, id, live, here⟩
    have found := ExtTreeMap.mem_toList_iff_getElem?_eq_some.mp member
    have sameId : record.id = id := (coherent.steady volume shard found).well.recordId live
    have own := coherent.own volume shard found id record live
    rw [sameId, own, shardAt, found]
    exact ⟨live, here⟩

theorem Coherent.removePath (unicode : Unicode) (coherent : index.Coherent) (path : Text) :
    (index.removePath unicode path).2.Coherent := by
  rw [(removePath_eq unicode coherent path).1]
  refine coherent.shrink fun volume shard found => ?_
  rcases getElem?_prune_map.mp found with ⟨before, present, rfl, full⟩
  have steady := coherent.steady volume before present
  have inverse := coherent.inverse volume before present
  refine ⟨steady.removePath unicode path,
    SearchIndex.PathsInverse.removePath unicode steady.well inverse path, full, before, present, ?_⟩
  exact fun id record => (removePath_withdrawn unicode steady.well path).live

theorem shelfAt_removePath (unicode : Unicode) (coherent : index.Coherent) (path : Text)
    (volume : VolumeId) : (index.removePath unicode path).2.shelfAt volume =
      (index.shelfAt volume).clear (catalogue unicode volume) path := by
  rw [(removePath_eq unicode coherent path).1, shelfAt_prune_map]
  · cases found : index.shards[volume]? with
    | none =>
        rw [shelfAt_absent found, clear_nothing]
        · exact ite_self _
        · intro id entry live
          cases live
    | some shard =>
        have same : index.shardAt volume = shard := shardAt_of_getElem? found
        dsimp only
        rw [SearchIndex.shelf_removePath unicode (coherent.steady volume shard found)
          (coherent.inverse volume shard found) volume path, shelfAt, same]
        rfl
  · intro shard found
    exact ((coherent.steady volume shard found).removePath unicode path).well

end RemovePath

section Remove

theorem remove_eq (unicode : Unicode) (index : ShardedSearchIndex) (id : FileId) :
    (index.remove unicode id).1 = (index.shardAt id.volume).records[id]? ∧
      ((index.shards[id.volume]? = none ∧ (index.remove unicode id).2 = index) ∨
        ∃ shard, index.shards[id.volume]? = some shard ∧ (index.remove unicode id).2 =
          pruneEmptyShards ⟨index.shards.insert id.volume (shard.remove unicode id).2⟩) := by
  rw [remove, shardAt]
  cases found : index.shards[id.volume]? with
  | none => exact ⟨by simp [SearchIndex.new], Or.inl ⟨rfl, rfl⟩⟩
  | some shard => exact ⟨SearchIndex.remove_fst unicode id, Or.inr ⟨shard, rfl, rfl⟩⟩

theorem getElem?_prune_insert {own : VolumeId} {changed : SearchIndex} :
    (pruneEmptyShards ⟨index.shards.insert own changed⟩).shards[volume]? = some shard ↔
      shard.records.isEmpty = false ∧ ((volume = own ∧ shard = changed) ∨
        (volume ≠ own ∧ index.shards[volume]? = some shard)) := by
  rw [getElem?_pruneEmptyShards, ExtTreeMap.getElem?_insert, and_comm]
  refine and_congr_right fun _ => ?_
  by_cases same : own = volume
  · subst same
    simp [eq_comm]
  · have differs : ¬compare own volume = .eq := by simpa using same
    rw [if_neg differs]
    simp [Ne.symm same]

/-- Changing one shard, which goes if it has no records left. -/
theorem Coherent.shelfAt_prune_insert (coherent : index.Coherent) {own : VolumeId}
    {changed : SearchIndex} (well : changed.WellIndexed) (volume : VolumeId) :
    (pruneEmptyShards ⟨index.shards.insert own changed⟩).shelfAt volume =
      if volume = own then changed.shelf.prune else index.shelfAt volume := by
  split
  next same =>
    subst same
    rw [SearchIndex.prune_shelf well]
    cases empty : changed.records.isEmpty with
    | true =>
        apply shelfAt_absent
        refine Option.eq_none_iff_forall_ne_some.mpr fun left placed => ?_
        rcases getElem?_prune_insert.mp placed with ⟨full, ⟨-, rfl⟩ | ⟨differs, -⟩⟩
        · rw [empty] at full
          cases full
        · exact differs rfl
    | false =>
        have placed : (pruneEmptyShards ⟨index.shards.insert volume changed⟩).shards[volume]? =
            some changed := getElem?_prune_insert.mpr ⟨empty, Or.inl ⟨rfl, rfl⟩⟩
        exact congrArg SearchIndex.shelf (shardAt_of_getElem? placed)
  next differs =>
    have unchanged : (pruneEmptyShards ⟨index.shards.insert own changed⟩).shards[volume]? =
        index.shards[volume]? := by
      refine Option.ext fun other => ?_
      rw [getElem?_prune_insert]
      constructor
      · rintro ⟨-, ⟨same, -⟩ | ⟨-, present⟩⟩
        · exact absurd same differs
        · exact present
      · exact fun present => ⟨coherent.full volume other present, Or.inr ⟨differs, present⟩⟩
    rw [shelfAt, shelfAt, shardAt, shardAt, unchanged]

theorem Coherent.remove (unicode : Unicode) (coherent : index.Coherent) (id : FileId) :
    (index.remove unicode id).2.Coherent := by
  rcases (remove_eq unicode index id).2 with ⟨-, same⟩ | ⟨shard, found, same⟩
  · rw [same]
    exact coherent
  · rw [same]
    refine coherent.shrink fun volume after placed => ?_
    rcases getElem?_prune_insert.mp placed with ⟨full, ⟨rfl, rfl⟩ | ⟨-, present⟩⟩
    · have steady := coherent.steady _ shard found
      refine ⟨steady.remove unicode id, SearchIndex.PathsInverse.remove unicode steady.well
        (coherent.inverse _ shard found) id, full, shard, found, ?_⟩
      exact fun other record => (remove_withdrawn unicode steady.well id).live
    · exact ⟨coherent.steady volume after present, coherent.inverse volume after present, full,
        after, present, fun _ _ live => live⟩

theorem Coherent.entry_volume (coherent : index.Coherent) {id : FileId} {entry : Entry}
    (live : (index.shelfAt volume).entry id = some entry) : id.volume = volume := by
  have record := (SearchIndex.entry_some_iff.mp live).1
  exact coherent.own volume _ (getElem?_of_records record) id _ record

theorem shelfAt_remove (unicode : Unicode) (coherent : index.Coherent) (id : FileId)
    (volume : VolumeId) : (index.remove unicode id).2.shelfAt volume =
      (index.shelfAt volume).takeOut (catalogue unicode volume) [id] := by
  have elsewhere : (∀ entry, (index.shelfAt volume).entry id ≠ some entry) →
      (index.shelfAt volume).takeOut (catalogue unicode volume) [id] = index.shelfAt volume := by
    intro none
    rw [Shelf.takeOut, remove_nothing, coherent.shelfAt_pruned volume]
    rintro other entry live member
    rw [mem_singleton.mp member] at live
    exact none entry live
  rcases (remove_eq unicode index id).2 with ⟨absent, same⟩ | ⟨shard, found, same⟩
  · rw [same, elsewhere]
    intro entry live
    have own := coherent.entry_volume live
    rw [own] at absent
    rw [shelfAt_absent absent] at live
    cases live
  · have steady := coherent.steady _ shard found
    rw [same, coherent.shelfAt_prune_insert (steady.remove unicode id).well]
    split
    next own =>
      subst own
      rw [shelfAt, shardAt_of_getElem? found, Shelf.takeOut,
        ← SearchIndex.shelf_remove unicode steady id.volume id]
    next other => rw [elsewhere fun entry live => other (coherent.entry_volume live).symm]

end Remove

section RemoveSubtree

variable {root : Text}

theorem removeSubtree_shard (unicode : Unicode) (steady : shard.Steady) (volume : VolumeId)
    (root : Text) :
    (shard.removeSubtree unicode root).2.Steady ∧ (shard.removeSubtree unicode root).2.shelf =
      shard.shelf.remove (catalogue unicode volume) fun other _ =>
        other ∈ shard.subtreeIds root :=
  ⟨steady.removeEachId unicode _, shelf_removeEachId unicode steady volume _⟩

theorem mem_removeSubtree (unicode : Unicode) (coherent : index.Coherent) {record : FileRecord} :
    record ∈ (index.removeSubtree unicode root).1 ↔
      (index.shardAt record.id.volume).records[record.id]? = some record ∧
        record.id ∈ (index.shardAt record.id.volume).subtreeIds root := by
  simp only [removeSubtree, mem_flatMap, Prod.exists,
    ExtTreeMap.mem_toList_iff_getElem?_eq_some]
  constructor
  · rintro ⟨volume, shard, found, member⟩
    have well := (coherent.steady volume shard found).well
    have distinct := (coherent.inverse volume shard found).named.nodup_subtreeIds root
    rcases (mem_removeEachId unicode well distinct).mp member with ⟨id, known, live⟩
    have sameId : record.id = id := well.recordId live
    have own := coherent.own volume shard found id record live
    rw [sameId, own, shardAt, found]
    exact ⟨live, known⟩
  · rintro ⟨live, known⟩
    have found := getElem?_of_records live
    have well := (coherent.steady _ _ found).well
    have distinct := (coherent.inverse _ _ found).named.nodup_subtreeIds root
    exact ⟨_, _, found, (mem_removeEachId unicode well distinct).mpr
      ⟨record.id, known, live⟩⟩

theorem nodup_removeSubtree (unicode : Unicode) (coherent : index.Coherent) :
    ((index.removeSubtree unicode root).1.map FileRecord.id).Nodup := by
  rw [removeSubtree]
  refine nodup_shards fun volume shard found => ?_
  have well := (coherent.steady volume shard found).well
  have distinct := (coherent.inverse volume shard found).named.nodup_subtreeIds root
  refine ⟨nodup_removeEachId unicode well distinct, fun record member => ?_⟩
  rcases (mem_removeEachId unicode well distinct).mp member with ⟨id, -, live⟩
  rw [well.recordId live]
  exact coherent.own volume shard found id record live

theorem Coherent.removeSubtree (unicode : Unicode) (coherent : index.Coherent) (root : Text) :
    (index.removeSubtree unicode root).2.Coherent := by
  refine coherent.shrink fun volume after placed => ?_
  rcases getElem?_prune_map.mp placed with ⟨before, present, rfl, full⟩
  have steady := coherent.steady volume before present
  refine ⟨(removeSubtree_shard unicode steady volume root).1,
    SearchIndex.PathsInverse.removeEachId unicode steady.well
      (coherent.inverse volume before present) _, full, before, present, ?_⟩
  exact fun id record =>
    (removeEachId_withdrawn unicode steady.well (before.subtreeIds root)).live

theorem shelfAt_removeSubtree (unicode : Unicode) (coherent : index.Coherent) (root : Text)
    (volume : VolumeId) : (index.removeSubtree unicode root).2.shelfAt volume =
      (index.shelfAt volume).takeOut (catalogue unicode volume)
        ((index.removeSubtree unicode root).1.map FileRecord.id) := by
  have steps : (index.removeSubtree unicode root).2.shelfAt volume =
      match index.shards[volume]? with
      | none => Shelf.bare
      | some shard => (shard.removeSubtree unicode root).2.shelf.prune := by
    refine shelfAt_prune_map fun shard found => ?_
    exact (removeSubtree_shard unicode (coherent.steady volume shard found) volume root).1.well
  rw [steps]
  cases found : index.shards[volume]? with
  | none =>
      rw [shelfAt_absent found, Shelf.takeOut, remove_nothing]
      · exact (ite_self _).symm
      · intro id entry live
        cases live
  | some shard =>
      have same : index.shardAt volume = shard := shardAt_of_getElem? found
      have steady := coherent.steady volume shard found
      dsimp only
      rw [(removeSubtree_shard unicode steady volume root).2, Shelf.takeOut, shelfAt, same]
      refine congrArg Shelf.prune (remove_congr fun id entry live => ?_)
      have record := (SearchIndex.entry_some_iff.mp live).1
      have sameId := steady.well.recordId record
      have own := coherent.own volume shard found id entry.record record
      have member : entry.record ∈ (index.removeSubtree unicode root).1 ↔ _ :=
        mem_removeSubtree unicode coherent
      rw [sameId, own, same] at member
      rw [mem_map]
      constructor
      · exact fun known => ⟨entry.record, member.mpr ⟨record, known⟩, sameId⟩
      · rintro ⟨other, otherMem, rfl⟩
        rw [mem_removeSubtree unicode coherent, own, same] at otherMem
        exact otherMem.2

end RemoveSubtree

section Insert

variable {record : FileRecord}

theorem insert_eq (unicode : Unicode) (index : ShardedSearchIndex) (record : FileRecord) :
    index.insert unicode record = pruneEmptyShards
      ⟨(index.removePath unicode record.path).2.shards.insert record.id.volume
        (((index.removePath unicode record.path).2.shardAt record.id.volume).insert unicode
          record)⟩ := rfl

/-- After its path is removed, no record is in the way of the new one. -/
theorem pathFree_removePath (unicode : Unicode) (coherent : index.Coherent) (record : FileRecord)
    (volume : VolumeId) (id : FileId) (other : FileRecord)
    (live : ((index.removePath unicode record.path).2.shardAt volume).records[id]? = some other) :
    other.path ≠ record.path := by
  have freed := coherent.removePath unicode record.path
  rcases SearchIndex.exists_entry (freed.steadyAt volume).well live with ⟨entry, found, rfl⟩
  have cleared : ((index.removePath unicode record.path).2.shelfAt volume).entry id =
      some entry := found
  rw [shelfAt_removePath unicode coherent, clear_entry] at cleared
  exact cleared.2

theorem Coherent.replaceShard (coherent : index.Coherent) {own : VolumeId} {changed : SearchIndex}
    (steady : changed.Steady) (inverse : changed.PathsInverse)
    (known : ∀ (id : FileId) (other : FileRecord), changed.records[id]? = some other →
      (index.shardAt own).records[id]? = some other ∨ (id.volume = own ∧
        ∀ (volume : VolumeId) (otherId : FileId) (otherRecord : FileRecord),
          (index.shardAt volume).records[otherId]? = some otherRecord →
            otherRecord.path ≠ other.path)) :
    (pruneEmptyShards ⟨index.shards.insert own changed⟩).Coherent := by
  have at_ (volume : VolumeId) (shard : SearchIndex) (found : index.shards[volume]? = some shard) :
      index.shardAt volume = shard := by
    rw [shardAt, found]
    rfl
  constructor
  · intro volume shard placed
    rcases getElem?_prune_insert.mp placed with ⟨-, ⟨rfl, rfl⟩ | ⟨-, present⟩⟩
    · exact steady
    · exact coherent.steady volume shard present
  · intro volume shard placed
    rcases getElem?_prune_insert.mp placed with ⟨-, ⟨rfl, rfl⟩ | ⟨-, present⟩⟩
    · exact inverse
    · exact coherent.inverse volume shard present
  · intro volume shard placed id other live
    rcases getElem?_prune_insert.mp placed with ⟨-, ⟨rfl, rfl⟩ | ⟨-, present⟩⟩
    · rcases known id other live with old | ⟨mine, -⟩
      · exact coherent.own _ _ (getElem?_of_records old) id other old
      · exact mine
    · exact coherent.own volume shard present id other live
  · intro volume other shard otherShard placed otherPlaced id otherId first second live otherLive
      same
    rcases getElem?_prune_insert.mp placed with ⟨-, ⟨rfl, rfl⟩ | ⟨-, present⟩⟩ <;>
      rcases getElem?_prune_insert.mp otherPlaced with ⟨-, ⟨rfl, rfl⟩ | ⟨-, otherPresent⟩⟩
    · rfl
    · have otherOld := at_ other otherShard otherPresent ▸ otherLive
      rcases known id first live with old | ⟨-, apart⟩
      · exact coherent.apart _ other _ otherShard (getElem?_of_records old) otherPresent id otherId
          first second old otherLive same
      · exact absurd same.symm (apart other otherId second otherOld)
    · have old := at_ volume shard present ▸ live
      rcases known otherId second otherLive with otherOld | ⟨-, apart⟩
      · exact coherent.apart volume _ shard _ present (getElem?_of_records otherOld) id otherId
          first second live otherOld same
      · exact absurd same (apart volume id first old)
    · exact coherent.apart volume other shard otherShard present otherPresent id otherId first
        second live otherLive same
  · intro volume shard placed
    exact (getElem?_prune_insert.mp placed).1

/-- The shard of a record with it entered, where its path is free. -/
theorem Coherent.enterRecord (unicode : Unicode) (coherent : index.Coherent)
    {record : FileRecord} {changed : SearchIndex} {entry : RecordColumns} {built : Column → Bool}
    (steady : changed.Steady)
    (isListed : SearchIndex.Listed (index.shardAt record.id.volume) record entry built changed)
    (paths : changed.paths =
      ((index.shardAt record.id.volume).replaceOld unicode record.id).paths.insert record.path
        record.id)
    (free : ∀ (volume : VolumeId) (id : FileId) (other : FileRecord),
      (index.shardAt volume).records[id]? = some other → other.path ≠ record.path) :
    (pruneEmptyShards ⟨index.shards.insert record.id.volume changed⟩).Coherent := by
  refine coherent.replaceShard steady ?_ ?_
  · refine (isListed.inverse_iff unicode (coherent.inverseAt record.id.volume) paths).mpr ?_
    exact fun id other live same => absurd same (free record.id.volume id other live)
  · intro id other live
    rw [isListed.records] at live
    split at live
    case isTrue same =>
      rw [← Option.some.inj live, same]
      exact Or.inr ⟨rfl, free⟩
    case isFalse _ => exact Or.inl live

theorem Coherent.insert (unicode : Unicode) (coherent : index.Coherent) (record : FileRecord) :
    (index.insert unicode record).Coherent := by
  have freed := coherent.removePath unicode record.path
  have steady := freed.steadyAt record.id.volume
  rw [insert_eq]
  exact freed.enterRecord unicode (steady.insert unicode record)
    (insert_listed unicode steady.well record)
    (insert_paths unicode _ record) (pathFree_removePath unicode coherent record)

theorem shelfAt_insert (unicode : Unicode) (coherent : index.Coherent) (record : FileRecord)
    (volume : VolumeId) : (index.insert unicode record).shelfAt volume =
      (index.shelfAt volume).place (catalogue unicode volume) record := by
  have freed := coherent.removePath unicode record.path
  have cleared : (index.removePath unicode record.path).2.shelfAt volume =
      (index.shelfAt volume).clear (catalogue unicode volume)
        ((catalogue unicode volume).path ((catalogue unicode volume).fresh record)) :=
    shelfAt_removePath unicode coherent record.path volume
  rw [insert_eq, Shelf.place, ← cleared]
  generalize (index.removePath unicode record.path).2 = before at freed
  have steady := freed.steadyAt record.id.volume
  have isListed := insert_listed unicode steady.well record
  have inserted : ((before.shardAt record.id.volume).insert unicode record).records[record.id]? =
      some record := by
    rw [isListed.records, if_pos rfl]
  have well := (steady.insert unicode record).well
  rw [freed.shelfAt_prune_insert well]
  split
  next own =>
    subst own
    rw [SearchIndex.prune_shelf well, isEmpty_eq_false_of_getElem? inserted,
      shelf_insert unicode steady record.id.volume record]
    exact (if_pos rfl : _).symm
  next other =>
    have foreign : ¬(catalogue unicode volume).owns record := fun owns => other owns.symm
    rw [if_neg foreign]

end Insert

section Folds

theorem Coherent.foldl_insert (unicode : Unicode) (records : List FileRecord)
    (coherent : index.Coherent) :
    Coherent (records.foldl (ShardedSearchIndex.insert unicode) index) ∧
      ∀ volume, shelfAt (records.foldl (ShardedSearchIndex.insert unicode) index) volume =
        records.foldl (fun shelf record => shelf.place (catalogue unicode volume) record)
          (index.shelfAt volume) := by
  induction records generalizing index with
  | nil => exact ⟨coherent, fun _ => rfl⟩
  | cons record records ih =>
      rcases ih (coherent.insert unicode record) with ⟨later, shelves⟩
      refine ⟨later, fun volume => ?_⟩
      rw [foldl_cons, shelves, shelfAt_insert unicode coherent]
      rfl

theorem Coherent.foldl_removePath (unicode : Unicode) (paths : List Text)
    (coherent : index.Coherent) :
    Coherent (paths.foldl (fun index path => (index.removePath unicode path).2) index) ∧
      ∀ volume, shelfAt (paths.foldl (fun index path => (index.removePath unicode path).2) index)
          volume = paths.foldl (fun shelf path => shelf.clear (catalogue unicode volume) path)
            (index.shelfAt volume) := by
  induction paths generalizing index with
  | nil => exact ⟨coherent, fun _ => rfl⟩
  | cons path paths ih =>
      rcases ih (coherent.removePath unicode path) with ⟨later, shelves⟩
      refine ⟨later, fun volume => ?_⟩
      rw [foldl_cons, shelves, shelfAt_removePath unicode coherent]
      rfl

end Folds

section Unchanged

/-- The records, their columns, the path entries and all postings are as they were. -/
structure Unchanged (index after : ShardedSearchIndex) : Prop where
  records : ∀ (volume : VolumeId) (id : FileId),
    (after.shardAt volume).records[id]? = (index.shardAt volume).records[id]?
  columns : ∀ (volume : VolumeId) (id : FileId),
    (after.shardAt volume).columns[id]? = (index.shardAt volume).columns[id]?
  paths : ∀ (volume : VolumeId) (path : Text),
    (after.shardAt volume).paths[path]? = (index.shardAt volume).paths[path]?
  listing : ∀ (volume : VolumeId) (column : Column) (key : Text) (id : FileId),
    Lists ((after.shardAt volume).listing column) key id ↔
      Lists ((index.shardAt volume).listing column) key id
  kinds : ∀ (volume : VolumeId) (kind : FileKind) (id : FileId),
    Lists (after.shardAt volume).kind kind id ↔ Lists (index.shardAt volume).kind kind id
  fuzzyTerms : ∀ (volume : VolumeId) (key term : Text),
    Lists (after.shardAt volume).fuzzyTerms key term ↔
      Lists (index.shardAt volume).fuzzyTerms key term
  content : ∀ (volume : VolumeId) (term : Text) (id : FileId),
    positionsIn (after.shardAt volume).contentTerms term id =
      positionsIn (index.shardAt volume).contentTerms term id
  contentNotes : ∀ (volume : VolumeId) (id : FileId) (term : Text),
    Lists (after.shardAt volume).contentRecordTerms id term ↔
      Lists (index.shardAt volume).contentRecordTerms id term

theorem unchanged_refl : Unchanged index index := by
  constructor <;> simp

/-- Nothing has changed exactly when the shelves are the same. -/
theorem unchanged_iff (coherent : index.Coherent) (coherentAfter : after.Coherent) :
    Unchanged index after ↔ ∀ volume, after.shelfAt volume = index.shelfAt volume := by
  constructor
  · intro unchanged volume
    apply Shelf.ext
    · intro id
      apply entry_congr
      · exact unchanged.records volume id
      · exact unchanged.columns volume id
      · exact fun column key => unchanged.listing volume column key id
      · exact fun term => unchanged.content volume term id
      · exact unchanged.contentNotes volume id
    · rintro ⟨column, key⟩ id
      change Lists _ _ _ ∧ ¬_ ↔ Lists _ _ _ ∧ ¬_
      rw [unchanged.listing, Implies, Implies, unchanged.columns]
    · exact fun mark => unchanged.fuzzyTerms volume mark.1 mark.2
  · intro same
    have entries (volume : VolumeId) (id : FileId) :
        (after.shardAt volume).entry id = (index.shardAt volume).entry id :=
      congrFun (congrArg Shelf.entry (same volume)) id
    have records (volume : VolumeId) (id : FileId) :
        (after.shardAt volume).records[id]? = (index.shardAt volume).records[id]? := by
      rw [SearchIndex.records_eq (coherentAfter.steadyAt volume).well,
        SearchIndex.records_eq (coherent.steadyAt volume).well, entries]
    have columns (volume : VolumeId) (id : FileId) :
        (after.shardAt volume).columns[id]? = (index.shardAt volume).columns[id]? := by
      rw [SearchIndex.columns_eq (coherentAfter.steadyAt volume).well,
        SearchIndex.columns_eq (coherent.steadyAt volume).well, entries]
    refine ⟨records, columns, ?_, ?_, ?_, ?_, ?_, ?_⟩
    · intro volume path
      refine Option.ext fun id => ?_
      rw [coherentAfter.inverseAt volume path id, coherent.inverseAt volume path id]
      simp only [records]
    · intro volume column key id
      have stale : (after.shardAt volume).shelf.stale = (index.shardAt volume).shelf.stale :=
        congrArg Shelf.stale (same volume)
      rw [SearchIndex.lists_iff (coherentAfter.steadyAt volume).well,
        SearchIndex.lists_iff (coherent.steadyAt volume).well, entries, stale]
    · intro volume kind id
      rw [(coherentAfter.steadyAt volume).well.kinds, (coherent.steadyAt volume).well.kinds]
      simp only [records]
    · intro volume key term
      exact iff_of_eq (congrFun (congrArg Shelf.words (same volume)) (key, term))
    · intro volume term id
      rw [SearchIndex.positions_eq (coherentAfter.steadyAt volume).well,
        SearchIndex.positions_eq (coherent.steadyAt volume).well, entries]
    · intro volume id term
      rw [SearchIndex.notes_iff (coherentAfter.steadyAt volume).well,
        SearchIndex.notes_iff (coherent.steadyAt volume).well, entries]

end Unchanged

section Records

variable {record : FileRecord} {records : List FileRecord}

theorem Coherent.mem_records (coherent : index.Coherent) : record ∈ index.records ↔
    (index.shardAt record.id.volume).records[record.id]? = some record := by
  simp only [records, mem_flatMap, Prod.exists, mem_map,
    ExtTreeMap.mem_toList_iff_getElem?_eq_some, exists_eq_right]
  constructor
  · rintro ⟨volume, shard, found, id, live⟩
    have sameId : record.id = id := (coherent.steady volume shard found).well.recordId live
    rw [sameId, coherent.own volume shard found id record live, shardAt, found]
    exact live
  · intro live
    exact ⟨_, _, getElem?_of_records live, _, live⟩

/-- No id belongs to two records. -/
theorem nodup_records (coherent : index.Coherent) : (index.records.map FileRecord.id).Nodup := by
  rw [ShardedSearchIndex.records]
  refine nodup_shards fun volume shard found => ?_
  have well := (coherent.steady volume shard found).well
  constructor
  · rw [List.Nodup, pairwise_map, pairwise_map]
    refine ExtTreeMap.distinct_keys_toList.imp_of_mem ?_
    rintro ⟨id, left⟩ ⟨other, right⟩ leftMem rightMem differs same
    have leftLive := ExtTreeMap.mem_toList_iff_getElem?_eq_some.mp leftMem
    have rightLive := ExtTreeMap.mem_toList_iff_getElem?_eq_some.mp rightMem
    have sameId : id = other := by
      rw [← well.recordId leftLive, ← well.recordId rightLive]
      exact same
    exact differs (Std.compare_eq_iff_eq.mpr sameId)
  · intro record member
    rcases mem_map.mp member with ⟨⟨id, known⟩, idMem, rfl⟩
    have live := ExtTreeMap.mem_toList_iff_getElem?_eq_some.mp idMem
    rw [well.recordId live]
    exact coherent.own volume shard found id known live

theorem Coherent.entry_of_mem (coherent : index.Coherent) (member : record ∈ index.records) :
    ∃ entry, (index.shelfAt record.id.volume).entry record.id = some entry ∧
      entry.record = record :=
  SearchIndex.exists_entry (coherent.steadyAt _).well (coherent.mem_records.mp member)

theorem Coherent.entry_mem (coherent : index.Coherent) {id : FileId} {entry : Entry}
    (found : (index.shelfAt volume).entry id = some entry) :
    entry.record ∈ index.records ∧ entry.record.id = id ∧ id.volume = volume := by
  have live := (SearchIndex.entry_some_iff.mp found).1
  have sameId := (coherent.steadyAt volume).well.recordId live
  have own := coherent.entry_volume found
  refine ⟨?_, sameId, own⟩
  rw [coherent.mem_records, sameId, own]
  exact live

/-- A path is that of one record at most. -/
theorem Coherent.eq_of_path (coherent : index.Coherent) {other : FileRecord}
    (member : record ∈ index.records) (otherMem : other ∈ index.records)
    (same : record.path = other.path) : record = other := by
  have live := coherent.mem_records.mp member
  have otherLive := coherent.mem_records.mp otherMem
  have volumes := coherent.apart _ _ _ _ (getElem?_of_records live)
    (getElem?_of_records otherLive) _ _ _ _ live otherLive same
  have mapped := (coherent.inverseAt record.id.volume record.path record.id).mpr
    ⟨record, live, rfl⟩
  have otherMapped := (coherent.inverseAt other.id.volume other.path other.id).mpr
    ⟨other, otherLive, rfl⟩
  rw [← volumes, ← same, mapped, Option.some.injEq] at otherMapped
  rw [← otherMapped, live, Option.some.injEq] at otherLive
  exact otherLive

theorem Coherent.removable (unicode : Unicode) (coherent : index.Coherent)
    (live : ∀ record ∈ records, record ∈ index.records)
    (distinct : (records.map FileRecord.id).Nodup) (volume : VolumeId) :
    Removable (catalogue unicode volume) (index.shelfAt volume) records := by
  refine ⟨coherent.shelfAt_pruned volume, ?_, ?_, ?_, ?_⟩
  · rw [List.Nodup, pairwise_map] at distinct
    refine distinct.imp_of_mem fun {left right} leftMem rightMem differs => ⟨differs, ?_⟩
    intro samePath
    have same := coherent.eq_of_path (live left leftMem) (live right rightMem) samePath
    exact differs (congrArg FileRecord.id same)
  · intro record _ entry found
    exact (coherent.entry_mem found).2.2
  · intro record member id entry found samePath
    rcases coherent.entry_mem found with ⟨entryMem, sameId, -⟩
    have same := coherent.eq_of_path entryMem (live record member) samePath
    rw [← sameId, same]
    rfl
  · intro key id entry found stale keys
    exact stale.2 ⟨entry.columns, (SearchIndex.entry_some_iff.mp found).2.1, keys⟩

theorem Coherent.mem_ids (coherent : index.Coherent)
    (live : ∀ record ∈ records, record ∈ index.records) {id : FileId} {entry : Entry}
    (found : (index.shelfAt volume).entry id = some entry) :
    id ∈ records.map FileRecord.id ↔ entry.record ∈ records := by
  rcases coherent.entry_mem found with ⟨entryMem, rfl, -⟩
  refine ⟨fun known => ?_, mem_map_of_mem⟩
  rcases mem_map.mp known with ⟨other, member, same⟩
  have otherLive := coherent.mem_records.mp (live other member)
  rw [same, coherent.mem_records.mp entryMem, Option.some.injEq] at otherLive
  exact otherLive ▸ member

theorem Coherent.mem_records_iff (coherent : index.Coherent) : record ∈ index.records ↔
    ∃ entry, (index.shelfAt record.id.volume).entry record.id = some entry ∧
      entry.record = record := by
  refine ⟨coherent.entry_of_mem, ?_⟩
  rintro ⟨entry, found, rfl⟩
  exact (coherent.entry_mem found).1

theorem mem_removePath (unicode : Unicode) (coherent : index.Coherent) {path : Text} :
    record ∈ (index.removePath unicode path).1.toList ↔
      record ∈ index.records ∧ record.path = path := by
  rcases removePath_eq unicode coherent path with ⟨-, absent, present⟩
  rw [Option.mem_toList]
  constructor
  · intro removed
    exact ⟨coherent.mem_records.mpr (present record removed).1, (present record removed).2⟩
  · rintro ⟨member, here⟩
    cases removed : (index.removePath unicode path).1 with
    | none =>
        have unmapped := absent removed record.id.volume
        have mapped := (coherent.inverseAt record.id.volume path record.id).mpr
          ⟨record, coherent.mem_records.mp member, here⟩
        rw [unmapped] at mapped
        cases mapped
    | some other =>
        rcases present other removed with ⟨otherLive, otherHere⟩
        have same := coherent.eq_of_path member (coherent.mem_records.mpr otherLive)
          (here.trans otherHere.symm)
        rw [same]

theorem takeOut_removePath (unicode : Unicode) (coherent : index.Coherent) (path : Text)
    (volume : VolumeId) : (index.removePath unicode path).2.shelfAt volume =
      (index.shelfAt volume).takeOut (catalogue unicode volume)
        ((index.removePath unicode path).1.toList.map FileRecord.id) := by
  rw [shelfAt_removePath unicode coherent]
  refine congrArg Shelf.prune (remove_congr fun id entry found => ?_)
  have live : ∀ record ∈ (index.removePath unicode path).1.toList, record ∈ index.records :=
    fun record member => ((mem_removePath unicode coherent).mp member).1
  rw [coherent.mem_ids live found, mem_removePath unicode coherent]
  exact (and_iff_right (coherent.entry_mem found).1).symm

theorem mem_records_removePath (unicode : Unicode) (coherent : index.Coherent) {path : Text} :
    record ∈ (index.removePath unicode path).2.records ↔
      record ∈ index.records ∧ record.path ≠ path := by
  rw [(coherent.removePath unicode path).mem_records_iff, coherent.mem_records_iff]
  simp only [shelfAt_removePath unicode coherent, clear_entry]
  constructor
  · rintro ⟨entry, ⟨found, elsewhere⟩, rfl⟩
    exact ⟨⟨entry, found, rfl⟩, elsewhere⟩
  · rintro ⟨⟨entry, found, rfl⟩, elsewhere⟩
    exact ⟨entry, ⟨found, elsewhere⟩, rfl⟩

theorem mem_records_insert (unicode : Unicode) (coherent : index.Coherent) {fresh : FileRecord} :
    record ∈ (index.insert unicode fresh).records ↔
      record = fresh ∨
        (record ∈ index.records ∧ record.path ≠ fresh.path ∧ record.id ≠ fresh.id) := by
  rw [(coherent.insert unicode fresh).mem_records_iff, coherent.mem_records_iff]
  simp only [shelfAt_insert unicode coherent, Shelf.place]
  split
  case isTrue owns =>
    simp only [put_entry, clear_entry]
    constructor
    · rintro ⟨entry, ⟨-, isFresh⟩ | ⟨otherId, found, elsewhere⟩, isRecord⟩
      · rw [isFresh] at isRecord
        exact Or.inl isRecord.symm
      · subst isRecord
        exact Or.inr ⟨⟨entry, found, rfl⟩, elsewhere, otherId⟩
    · rintro (rfl | ⟨⟨entry, found, rfl⟩, elsewhere, otherId⟩)
      · exact ⟨_, Or.inl ⟨rfl, rfl⟩, rfl⟩
      · exact ⟨entry, Or.inr ⟨otherId, found, elsewhere⟩, rfl⟩
  case isFalse foreign =>
    have otherVolume : fresh.id.volume ≠ record.id.volume := foreign
    simp only [clear_entry]
    constructor
    · rintro ⟨entry, ⟨found, elsewhere⟩, rfl⟩
      exact Or.inr ⟨⟨entry, found, rfl⟩, elsewhere, fun same => otherVolume (by rw [same])⟩
    · rintro (rfl | ⟨⟨entry, found, rfl⟩, elsewhere, -⟩)
      · exact absurd rfl otherVolume
      · exact ⟨entry, ⟨found, elsewhere⟩, rfl⟩

/-- Whatever is there after inserting was there, or was inserted. -/
theorem mem_records_of_foldl_insert (unicode : Unicode) {fresh : List FileRecord}
    (coherent : index.Coherent)
    (member : record ∈ (fresh.foldl (ShardedSearchIndex.insert unicode) index).records) :
    record ∈ fresh ∨ (record ∈ index.records ∧
      ∀ other ∈ fresh, record.path ≠ other.path ∧ record.id ≠ other.id) := by
  induction fresh generalizing index with
  | nil => exact Or.inr ⟨member, nofun⟩
  | cons first fresh ih =>
      rcases ih (coherent.insert unicode first) member with later | ⟨kept, spared⟩
      · exact Or.inl (mem_cons_of_mem _ later)
      · rcases (mem_records_insert unicode coherent).mp kept with rfl | ⟨old, first⟩
        · exact Or.inl mem_cons_self
        · refine Or.inr ⟨old, fun other member => ?_⟩
          rcases mem_cons.mp member with rfl | member
          · exact first
          · exact spared other member

/-- A record is there after inserting others when it is one of them, or none of them displaces
it. -/
theorem mem_records_foldl_insert (unicode : Unicode) {fresh : List FileRecord}
    (coherent : index.Coherent)
    (apart : fresh.Pairwise fun left right => left.path ≠ right.path ∧ left.id ≠ right.id) :
    record ∈ (fresh.foldl (ShardedSearchIndex.insert unicode) index).records ↔
      record ∈ fresh ∨ (record ∈ index.records ∧
        ∀ other ∈ fresh, record.path ≠ other.path ∧ record.id ≠ other.id) := by
  refine ⟨mem_records_of_foldl_insert unicode coherent, ?_⟩
  induction fresh generalizing index with
  | nil => simp
  | cons first fresh ih =>
      rcases pairwise_cons.mp apart with ⟨firstApart, restApart⟩
      have inserted := coherent.insert unicode first
      rintro (member | ⟨old, spared⟩)
      · rcases mem_cons.mp member with rfl | member
        · exact ih inserted restApart (Or.inr
            ⟨(mem_records_insert unicode coherent).mpr (Or.inl rfl), firstApart⟩)
        · exact ih inserted restApart (Or.inl member)
      · have kept := (mem_records_insert unicode coherent).mpr
          (Or.inr ⟨old, spared first mem_cons_self⟩)
        exact ih inserted restApart (Or.inr ⟨kept, fun other member =>
          spared other (mem_cons_of_mem _ member)⟩)

theorem mem_remove (unicode : Unicode) (coherent : index.Coherent) {id : FileId} :
    record ∈ (index.remove unicode id).1.toList ↔ record ∈ index.records ∧ record.id = id := by
  rw [(remove_eq unicode index id).1, Option.mem_toList, coherent.mem_records]
  constructor
  · intro live
    have sameId := (coherent.steadyAt id.volume).well.recordId live
    rw [sameId]
    exact ⟨live, rfl⟩
  · rintro ⟨live, rfl⟩
    exact live

end Records

section CallingOff

variable {cleared : ShardedSearchIndex} {removed inserted : List FileRecord}

/-- Records taken out, others put in and everything undone: whether the index shows it. -/
theorem unchanged_calledOff_iff (unicode : Unicode) (coherent : index.Coherent)
    (coherentCleared : cleared.Coherent) (live : ∀ record ∈ removed, record ∈ index.records)
    (distinct : (removed.map FileRecord.id).Nodup)
    (takenOut : ∀ volume, cleared.shelfAt volume =
      (index.shelfAt volume).takeOut (catalogue unicode volume) (removed.map FileRecord.id)) :
    Unchanged index (removed.foldl (ShardedSearchIndex.insert unicode)
        ((inserted.map FileRecord.path).foldl
          (fun index path => (index.removePath unicode path).2)
          (inserted.foldl (ShardedSearchIndex.insert unicode) cleared))) ↔
      ∀ volume, Undone (catalogue unicode volume) (index.shelfAt volume) removed inserted := by
  rcases coherentCleared.foldl_insert unicode inserted with ⟨coherentIn, shelvesIn⟩
  rcases coherentIn.foldl_removePath unicode (inserted.map FileRecord.path) with
    ⟨coherentOut, shelvesOut⟩
  rcases coherentOut.foldl_insert unicode removed with ⟨coherentBack, shelvesBack⟩
  rw [unchanged_iff coherent coherentBack]
  refine forall_congr' fun volume => ?_
  rw [← rolledBack_eq_iff (coherent.removable unicode live distinct volume), shelvesBack,
    shelvesOut, shelvesIn, takenOut]
  rfl

end CallingOff

section Enriching

/-- A change of the shards that leaves the records and paths alone. -/
theorem Coherent.mapShards (coherent : index.Coherent)
    {change : VolumeId → SearchIndex → SearchIndex}
    (keeps : ∀ (volume : VolumeId) (shard : SearchIndex), index.shards[volume]? = some shard →
      (change volume shard).Steady ∧ (change volume shard).records = shard.records ∧
        (change volume shard).paths = shard.paths) :
    Coherent ⟨index.shards.map change⟩ := by
  refine coherent.shrink fun volume after placed => ?_
  rw [ExtTreeMap.getElem?_map, Option.map_eq_some_iff] at placed
  rcases placed with ⟨before, present, rfl⟩
  rcases keeps volume before present with ⟨steady, records, paths⟩
  refine ⟨steady, (coherent.inverse volume before present).same records paths, ?_, before, present,
    ?_⟩
  · rw [records]
    exact coherent.full volume before present
  · intro id record live
    rw [records] at live
    exact live

theorem Coherent.imported (coherent : index.Coherent)
    {change : VolumeId → SearchIndex → SearchIndex}
    (imports : ∀ (volume : VolumeId) (shard : SearchIndex),
      SearchIndex.Imported shard (change volume shard)) :
    Coherent ⟨index.shards.map change⟩ := by
  refine coherent.mapShards fun volume shard found => ?_
  have isImported := imports volume shard
  exact ⟨isImported.steady (coherent.steady volume shard found), isImported.records,
    isImported.paths⟩

theorem Coherent.importContentPostings (unicode : Unicode) (coherent : index.Coherent)
    (postings : List ContentPosting) : (index.importContentPostings unicode postings).Coherent := by
  refine coherent.mapShards fun volume shard found => ?_
  have changes (postings : List ContentPosting) :
      SearchIndex.ContentChanged shard (shard.importContentPostings unicode postings) :=
    contentChanged_importContentPostings postings
  exact ⟨(changes _).steady (coherent.steady volume shard found), (changes _).records,
    (changes _).paths⟩

/-- A change of one shard that leaves its records and paths alone. -/
theorem Coherent.setShard (coherent : index.Coherent) {changed : SearchIndex}
    (found : index.shards[volume]? = some shard) (steady : changed.Steady)
    (records : changed.records = shard.records) (paths : changed.paths = shard.paths) :
    Coherent ⟨index.shards.insert volume changed⟩ := by
  refine coherent.shrink fun other after placed => ?_
  rw [ExtTreeMap.getElem?_insert] at placed
  split at placed
  case isTrue same =>
    rw [← Std.compare_eq_iff_eq.mp same, ← Option.some.inj placed]
    refine ⟨steady, (coherent.inverse volume shard found).same records paths, ?_, shard, found, ?_⟩
    · rw [records]
      exact coherent.full volume shard found
    · intro id record live
      rw [records] at live
      exact live
  case isFalse _ =>
    exact ⟨coherent.steady other after placed, coherent.inverse other after placed,
      coherent.full other after placed, after, placed, fun _ _ live => live⟩

theorem Coherent.applyRecordColumns (unicode : Unicode) (coherent : index.Coherent)
    (columns : SearchRecordColumns) : (index.applyRecordColumns unicode columns).2.Coherent := by
  rw [ShardedSearchIndex.applyRecordColumns]
  cases found : index.shards[columns.id.volume]? with
  | none => exact coherent
  | some shard =>
      rcases (coherent.steady _ shard found).applyRecordColumns unicode columns with
        ⟨steady, records, paths⟩
      exact coherent.setShard found steady records paths

theorem Coherent.insertContent (unicode : Unicode) (coherent : index.Coherent) (id : FileId)
    (text : Text) : (index.insertContent unicode id text).Coherent := by
  rw [ShardedSearchIndex.insertContent]
  cases found : index.shards[id.volume]? with
  | none => exact coherent
  | some shard =>
      have changed : SearchIndex.ContentChanged shard (shard.insertContent unicode id text) :=
        contentChanged_insertContent text
      exact coherent.setShard found (changed.steady (coherent.steady _ shard found))
        changed.records changed.paths

theorem Coherent.insertWithColumnsInner (unicode : Unicode) (coherent : index.Coherent)
    (record : FileRecord) (columns : SearchRecordColumns)
    (buildPrefixes buildSubstrings buildFuzzy buildMetadata : Bool) :
    (index.insertWithColumnsInner unicode record columns buildPrefixes buildSubstrings buildFuzzy
      buildMetadata).2.Coherent := by
  have freed := coherent.removePath unicode record.path
  have steady := freed.steadyAt record.id.volume
  rcases SearchIndex.insertWithColumnsInner_listed unicode steady.well record columns buildPrefixes
    buildSubstrings buildFuzzy buildMetadata with ⟨entry, built, -, -, isListed⟩
  rw [ShardedSearchIndex.insertWithColumnsInner]
  exact freed.enterRecord unicode (steady.insertWithColumnsInner unicode record columns _ _ _ _)
    isListed (insertWithColumnsInner_paths unicode _ record columns _ _ _ _)
    (pathFree_removePath unicode coherent record)

end Enriching

end ShardedSearchIndex

end Gfm.Search

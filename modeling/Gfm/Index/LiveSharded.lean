import Gfm.Index.LiveRescan

/-!
# The sharded index of a live run

What the sharded index keeps of the records of a live run. An event does to its records what it
does to those of the run, so in every state of a run of changes that fit the index holds what it
would keep of a scan.
-/

namespace Gfm.Index

open Search

/-- What the index keeps of a record. -/
def indexed (record : Store.FileRecord) : FileRecord where
  id := record.id
  path := record.path
  name := record.name
  kind := record.kind
  len := record.len
  created := record.created.map Subtype.val
  modified := record.modified.map Subtype.val
  changed := record.changed.map Subtype.val
  tags := record.tags
  finderComment := record.finderComment

def indexedFiles (files : RecordFiles) : Files := fun path => (files path).map indexed

/-- The index keeps these records and no others. -/
structure Mirrors (index : ShardedSearchIndex) (records : List Store.FileRecord) : Prop where
  coherent : index.Coherent
  same : ∀ kept, kept ∈ index.records ↔ ∃ record ∈ records, indexed record = kept
  once : ∀ left ∈ records, ∀ right ∈ records, left.id = right.id → left = right

/-- The file system calls a file by its path. -/
def CalledByPath (files : RecordFiles) : Prop :=
  ∀ path found, files path = some found → found.path = path ∧ found.name = nameOf path

/-- A rename moves no two records to one path. -/
def MovesApart (records : List Store.FileRecord) (event : FileEvent) : Prop :=
  match event.kind with
  | .rename source target => ∀ left ∈ records, ∀ right ∈ records, Below source left.path →
      Below source right.path →
      renamedPath left.path source target = renamedPath right.path source target →
      left.path = right.path
  | _ => True

section Events

variable {unicode : Unicode} {files : RecordFiles} {index next : ShardedSearchIndex}
  {records fresh after : List Store.FileRecord}

theorem Mirrors.eq_of_path (mirrors : Mirrors index records) {left right : Store.FileRecord}
    (leftMem : left ∈ records) (rightMem : right ∈ records) (same : left.path = right.path) :
    left = right := by
  have kept := mirrors.coherent.eq_of_path ((mirrors.same _).mpr ⟨left, leftMem, rfl⟩)
    ((mirrors.same _).mpr ⟨right, rightMem, rfl⟩) same
  exact mirrors.once left leftMem right rightMem (Subtype.ext (congrArg FileRecord.id kept))

theorem Mirrors.congr (mirrors : Mirrors index records) (same : Same records after) :
    Mirrors index after := by
  refine ⟨mirrors.coherent, fun kept => ?_, fun left leftMem right rightMem => ?_⟩
  · simp only [mirrors.same, same _]
  · exact mirrors.once left ((same left).mpr leftMem) right ((same right).mpr rightMem)

/-- Every event takes records out by their paths and puts fresh ones in their places. -/
theorem Mirrors.edited {Gone : Text → Prop} (mirrors : Mirrors index records)
    (coherent : next.Coherent)
    (kept : ∀ kept, kept ∈ next.records ↔ (∃ record ∈ fresh, indexed record = kept) ∨
      ((kept ∈ index.records ∧ ¬Gone kept.path) ∧
        ∀ other ∈ fresh, kept.path ≠ other.path ∧ kept.id ≠ other.id))
    (mem : ∀ record, record ∈ after ↔ record ∈ fresh ∨ ((record ∈ records ∧ ¬Gone record.path) ∧
      ∀ other ∈ fresh, record.path ≠ other.path ∧ record.id ≠ other.id))
    (once : ∀ left ∈ fresh, ∀ right ∈ fresh, left.id = right.id → left = right) :
    Mirrors next after := by
  have apart (record other : Store.FileRecord) :
      (indexed record).path ≠ other.path ∧ (indexed record).id ≠ other.id ↔
        record.path ≠ other.path ∧ record.id ≠ other.id :=
    and_congr_right fun _ => Subtype.coe_ne_coe
  refine ⟨coherent, fun held => ?_, fun left leftMem right rightMem same => ?_⟩
  · rw [kept, mirrors.same]
    simp only [mem, or_and_right, exists_or]
    refine or_congr_right ⟨?_, ?_⟩
    · rintro ⟨⟨⟨record, member, rfl⟩, spared⟩, others⟩
      exact ⟨record, ⟨⟨member, spared⟩, fun other listed =>
        (apart record other).mp (others other listed)⟩, rfl⟩
    · rintro ⟨record, ⟨⟨member, spared⟩, others⟩, rfl⟩
      exact ⟨⟨⟨record, member, rfl⟩, spared⟩, fun other listed =>
        (apart record other).mpr (others other listed)⟩
  · rcases (mem left).mp leftMem with leftFresh | ⟨leftOld, leftApart⟩ <;>
      rcases (mem right).mp rightMem with rightFresh | ⟨rightOld, rightApart⟩
    · exact once left leftFresh right rightFresh same
    · exact absurd same.symm (rightApart left leftFresh).2
    · exact absurd same (leftApart right rightFresh).2
    · exact mirrors.once left leftOld.1 right rightOld.1 same

theorem recordAt_indexed (called : CalledByPath files) {path : Text} {found : Store.FileRecord}
    (held : files path = some found) (parent : Option Store.FileId64) :
    recordAt path (indexed found) = indexed { found with parent } := by
  rcases called path found held with ⟨rfl, name⟩
  rw [recordAt, ← nameOf, ← name]
  rfl

theorem mirrors_upsert (mirrors : Mirrors index records) (called : CalledByPath files)
    {event : FileEvent} (upserts : event.kind = .create ∨ event.kind = .other ∨
      event.kind = .metadata ∨ event.kind = .modify) (parent : Option Store.FileId64) :
    match (recordFor files event.path parent).map (insertLive records) with
    | .ok after => Mirrors (applyEvent unicode (indexedFiles files) index event) after
    | .error _ => Mirrors (applyEvent unicode (indexedFiles files) index event) records := by
  rw [state_upsert event upserts]
  simp only [indexedFiles, recordFor]
  cases held : files event.path with
  | none => exact mirrors
  | some found =>
      simp only [Option.map_some, recordAt_indexed called held parent, Except.map]
      refine @Mirrors.edited _ _ _ [{ found with parent }] _ (fun _ => False) mirrors
        ((replaced_spec unicode mirrors.coherent _).1.insert unicode _) (fun kept => ?_)
        (fun record => ?_) (by simp)
      · rw [mem_records_replaced mirrors.coherent]
        simp [indexed, eq_comm]
      · rw [mem_insertLive]
        simp
        tauto

theorem Mirrors.insert (mirrors : Mirrors index records) (record : Store.FileRecord) :
    Mirrors (index.insert unicode (indexed record)) (insertLive records record) := by
  refine @Mirrors.edited _ _ _ [record] _ (fun _ => False) mirrors
    (mirrors.coherent.insert unicode _) (fun kept => ?_) (fun other => ?_) (by simp)
  · rw [ShardedSearchIndex.mem_records_insert unicode mirrors.coherent]
    simp [indexed, eq_comm]
  · rw [mem_insertLive]
    simp
    tauto

theorem mirrors_removeSubtree (mirrors : Mirrors index records) (source : Text) :
    Mirrors (index.removeSubtree unicode source).2
      (records.filter fun old => ¬Below source old.path) := by
  refine @Mirrors.edited _ _ _ [] _ (Below source) mirrors
    (mirrors.coherent.removeSubtree unicode source) (fun kept => ?_) (fun record => ?_) (by simp)
  · simp [mem_records_removeSubtree mirrors.coherent]
  · simp

theorem movedRecord_indexed (old freshRoot : Store.FileRecord) (source target : Text) :
    movedRecord (indexed old) source target (indexed freshRoot) =
      (movedLive old source target freshRoot).map indexed := by
  rw [movedRecord, movedLive, Option.map_map]
  refine congrArg (Option.map · _) (funext fun moved => ?_)
  rw [Function.comp_apply, apply_ite indexed]
  rfl

theorem movedLive_eq_some {old freshRoot record : Store.FileRecord} {source target : Text}
    (called : freshRoot.path = target)
    (moved : movedLive old source target freshRoot = some record) :
    record.id = old.id ∧ renamedPath old.path source target = some record.path := by
  rcases Option.map_eq_some_iff.mp moved with ⟨path, renamed, rfl⟩
  split
  case isTrue same =>
    rw [renamedPath, if_pos same]
    exact ⟨rfl, congrArg some called.symm⟩
  case isFalse => exact ⟨rfl, renamed⟩

/-- What a rename moves within the live records. -/
def movedOf (records : List Store.FileRecord) (source target : Text)
    (freshRoot : Store.FileRecord) : List Store.FileRecord :=
  (records.filter fun old => Below source old.path).filterMap fun old =>
    movedLive old source target freshRoot

theorem mem_movedOf {source target : Text} {freshRoot record : Store.FileRecord} :
    record ∈ movedOf records source target freshRoot ↔ ∃ old ∈ records,
      Below source old.path ∧ movedLive old source target freshRoot = some record := by
  simp only [movedOf, List.mem_filterMap, List.mem_filter, decide_eq_true_eq, and_assoc]

theorem mem_movedRecords_iff (mirrors : Mirrors index records) {source target : Text}
    {freshRoot : Store.FileRecord} {found kept : FileRecord}
    (same : recordAt target found = indexed freshRoot) :
    kept ∈ movedRecords unicode index source target found ↔
      ∃ record ∈ movedOf records source target freshRoot, indexed record = kept := by
  simp only [mem_movedRecords mirrors.coherent, same, mem_movedOf]
  constructor
  · rintro ⟨old, member, below, moved⟩
    rcases (mirrors.same old).mp member with ⟨before, listed, rfl⟩
    rw [movedRecord_indexed] at moved
    rcases Option.map_eq_some_iff.mp moved with ⟨record, isMoved, rfl⟩
    exact ⟨record, ⟨before, listed, below, isMoved⟩, rfl⟩
  · rintro ⟨record, ⟨before, listed, below, moved⟩, rfl⟩
    refine ⟨indexed before, (mirrors.same _).mpr ⟨before, listed, rfl⟩, below, ?_⟩
    rw [movedRecord_indexed, moved]
    rfl

theorem mirrors_moved (mirrors : Mirrors index records) {source target path : Text}
    {freshRoot : Store.FileRecord} {found : FileRecord}
    (apart : MovesApart records ⟨path, .rename source target⟩) (called : freshRoot.path = target)
    (same : recordAt target found = indexed freshRoot) :
    Mirrors (restoreRecords unicode (movedRecords unicode index source target found)
        (index.removeSubtree unicode source).2)
      ((movedOf records source target freshRoot).foldl insertLive
        (records.filter fun old => ¬Below source old.path)) := by
  have cleared := @mirrors_removeSubtree unicode _ _ mirrors source
  have injective : ∀ left ∈ index.records, ∀ right ∈ index.records, Below source left.path →
      Below source right.path →
      renamedPath left.path source target = renamedPath right.path source target →
      left.path = right.path := by
    intro left leftMem right rightMem
    rcases (mirrors.same left).mp leftMem with ⟨first, firstMem, rfl⟩
    rcases (mirrors.same right).mp rightMem with ⟨second, secondMem, rfl⟩
    exact apart first firstMem second secondMem
  have once : ∀ first ∈ movedOf records source target freshRoot,
      ∀ second ∈ movedOf records source target freshRoot,
      first.path = second.path ∨ first.id = second.id → first = second := by
    intro first firstIn second secondIn clash
    rcases mem_movedOf.mp firstIn with ⟨old, oldMem, below, moved⟩
    rcases mem_movedOf.mp secondIn with ⟨other, otherMem, otherBelow, otherMoved⟩
    have firstSpec := movedLive_eq_some called moved
    have secondSpec := movedLive_eq_some called otherMoved
    have sameOld : old = other := by
      rcases clash with paths | ids
      · refine mirrors.eq_of_path oldMem otherMem
          (apart old oldMem other otherMem below otherBelow ?_)
        rw [firstSpec.2, secondSpec.2, paths]
      · exact mirrors.once old oldMem other otherMem
          (firstSpec.1.symm.trans (ids.trans secondSpec.1))
    rw [sameOld, otherMoved] at moved
    exact (Option.some.inj moved).symm
  refine @Mirrors.edited _ _ _ (movedOf records source target freshRoot) _ (fun _ => False)
    cleared (coherent_restoreRecords _ _ cleared.coherent) (fun kept => ?_) (fun record => ?_)
    fun left leftIn right rightIn ids => once left leftIn right rightIn (Or.inr ids)
  · rw [restoreRecords, ShardedSearchIndex.mem_records_foldl_insert unicode cleared.coherent
      (apart_movedRecords mirrors.coherent injective)]
    simp only [mem_movedRecords_iff mirrors same, not_false_eq_true, and_true,
      forall_exists_index, and_imp, forall_apply_eq_imp_iff₂]
    rfl
  · rw [mem_foldl_insertLive once]
    simp

theorem mirrors_rename (mirrors : Mirrors index records) (called : CalledByPath files)
    {source target path : Text} (apart : MovesApart records ⟨path, .rename source target⟩) :
    match correlateLive files records source target with
    | .ok after => Mirrors (applyEvent unicode (indexedFiles files) index
        ⟨path, .rename source target⟩) after
    | .error _ => Mirrors (applyEvent unicode (indexedFiles files) index
        ⟨path, .rename source target⟩) records := by
  have cleared := @mirrors_removeSubtree unicode _ _ mirrors source
  have none_removed : (index.removeSubtree unicode source).1 = [] ↔
      (records.filter fun old => Below source old.path) = [] := by
    simp only [List.eq_nil_iff_forall_not_mem, mem_removed mirrors.coherent, mirrors.same,
      List.mem_filter, decide_eq_true_eq]
    constructor
    · rintro absent record ⟨listed, below⟩
      exact absent (indexed record) ⟨⟨record, listed, rfl⟩, below⟩
    · rintro absent _ ⟨⟨record, listed, rfl⟩, below⟩
      exact absent record ⟨listed, below⟩
  rw [state_rename, correlateLive]
  by_cases nothing : (records.filter fun old => Below source old.path) = []
  · simp only [if_pos nothing, if_pos (none_removed.mpr nothing), indexedFiles, recordFor]
    cases held : files target with
    | none =>
        refine cleared.congr fun record => ?_
        have outside := List.eq_nil_iff_forall_not_mem.mp nothing record
        simp only [List.mem_filter, decide_eq_true_eq] at outside ⊢
        tauto
    | some found =>
        simp only [Option.map_some, recordAt_indexed called held none, Except.map]
        exact cleared.insert _
  · simp only [if_neg nothing, if_neg (mt none_removed.mp nothing), indexedFiles, recordFor]
    cases held : files target with
    | none => exact cleared
    | some found =>
        exact mirrors_moved mirrors apart (called target found held).1
          (recordAt_indexed called held _)

/-- The index follows the records: an event does to what it keeps what it does to them. -/
theorem mirrors_applyEvent (mirrors : Mirrors index records) (called : CalledByPath files)
    {event : FileEvent} (apart : MovesApart records event) :
    match applyLive files records event with
    | .ok after => Mirrors (applyEvent unicode (indexedFiles files) index event) after
    | .error _ => Mirrors (applyEvent unicode (indexedFiles files) index event) records := by
  rcases event with ⟨path, kind⟩
  cases kind with
  | create | other | metadata | modify =>
      exact mirrors_upsert mirrors called (by simp) _
  | remove =>
      rw [state_remove]
      exact mirrors_removeSubtree mirrors path
  | rename source target => exact mirrors_rename mirrors called apart
  | rescan => exact mirrors

theorem mirrors_foldl_insert (mirrors : Mirrors index records) :
    Mirrors (restoreRecords unicode (fresh.map indexed) index)
      (fresh.foldl insertLive records) := by
  induction fresh generalizing index records with
  | nil => exact mirrors
  | cons record fresh ih => exact ih (mirrors.insert record)

end Events

section Runs

variable {unicode : Unicode} {root : Text} {start tree next : FileTree} {step : TreeStep}
  {index : ShardedSearchIndex}

theorem name_of_mem {forest : Forest} : ∀ {dir : Text} {id : Store.FileId64}
    {record : Store.FileRecord}, record ∈ forest.records dir id →
      record.name = nameOf record.path := by
  induction forest with
  | nil =>
      intro dir id record member
      cases member
  | cons name info below rest ihBelow ihRest =>
      intro dir id record member
      rw [Forest.records] at member
      rcases List.mem_cons.mp member with rfl | member
      · rfl
      · rcases List.mem_append.mp member with inner | later
        · split at inner
          · exact ihBelow inner
          · cases inner
        · exact ihRest later

theorem calledByPath_tree : CalledByPath (tree.files root) := by
  intro path found held
  have same := List.find?_some held
  rw [decide_eq_true_eq] at same
  refine ⟨same, same ▸ ?_⟩
  rcases mem_records_tree.mp (List.mem_of_find?_eq_some held) with rfl | member
  · rfl
  · exact name_of_mem member

theorem movesApart_of_fits (fits : Fits root tree step next) :
    MovesApart (tree.records root) (step.change.event root) := by
  rcases step with ⟨change, rootInfo, touched⟩
  have forest := fits.forest
  cases change with
  | create | remove => trivial
  | modify location name info metadata => cases metadata <;> trivial
  | rename location name targetLocation targetName info =>
      simp only [TreeChange.forest] at forest
      split at forest
      case h_1 => cases forest
      case h_2 path id sub found =>
        split at forest
        case h_1 => cases forest
        case h_2 old below file =>
          intro left leftMem right rightMem leftBelow rightBelow moved
          rw [filePath_eq found] at leftBelow rightBelow moved
          exact (spoken_of_find found file leftMem leftBelow).eq_of_renamed childPath_ne_nil
            (spoken_of_find found file rightMem rightBelow) moved

/-- The states of an index that begins with the records of a scan and applies, after every change
that is allowed, the event that describes it. -/
inductive IndexedRun (unicode : Unicode) (root : Text) (start : FileTree)
    (allowed : FileTree → TreeStep → FileTree → Prop) : FileTree → ShardedSearchIndex → Prop
  | scanned : IndexedRun unicode root start allowed start
      (restoreRecords unicode ((scanTree root start).entries.map indexed) .new)
  | applied {tree next : FileTree} {step : TreeStep} {index : ShardedSearchIndex} :
      IndexedRun unicode root start allowed tree index → Changed root tree step next →
        allowed tree step next →
        IndexedRun unicode root start allowed next
          (applyEvent unicode (indexedFiles (next.files root)) index (step.change.event root))

theorem mirrors_new : Mirrors .new [] := by
  refine ⟨ShardedSearchIndex.coherent_new, fun kept => ?_, by simp⟩
  simp [ShardedSearchIndex.records, ShardedSearchIndex.new]

theorem mirrors_scanned :
    Mirrors (restoreRecords unicode ((scanTree root tree).entries.map indexed) .new)
      (tree.records root) := by
  refine (mirrors_foldl_insert mirrors_new).congr fun record => ?_
  rw [mem_foldl_insertLive]
  · simp [scanTree_perm.mem_iff]
  · intro first firstIn second secondIn clash
    rw [scanTree_perm.mem_iff] at firstIn secondIn
    rcases clash with path | id
    · exact eq_of_path_tree firstIn secondIn path
    · exact eq_of_id_tree firstIn secondIn id

/-- In every run of changes that fit, the index keeps what it would keep of a scan. -/
theorem indexedRun_rescan (run : IndexedRun unicode root start (Fits root) tree index)
    (kept : FileRecord) :
    kept ∈ index.records ↔ ∃ record ∈ (scanTree root tree).entries, indexed record = kept := by
  have mirrors : Mirrors index (tree.records root) := by
    induction run with
    | scanned => exact mirrors_scanned
    | @applied tree next _ _ _ _ fits ih =>
        rcases applyLive_same (fun _ => Iff.rfl) fits with ⟨after, applies, same⟩
        have called : CalledByPath (next.files root) := calledByPath_tree
        have followed := @mirrors_applyEvent unicode _ _ _ ih called _ (movesApart_of_fits fits)
        rw [applies] at followed
        exact followed.congr same
  simp only [mirrors.same, scanTree_perm.mem_iff]

end Runs

end Gfm.Index

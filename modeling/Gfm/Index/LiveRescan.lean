import Gfm.Index.LiveScan

/-!
# Runs of the live index

A rename within a directory moves the records of a subtree to their new paths, and these are the
records of a scan. From this and from the other steps that keep the parents of the records, the
records of the live index are those of a scan in every state of a run of such steps.
-/

namespace Gfm.Index

open List Search

section Inserted

variable {record : Store.FileRecord}

/-- Records of distinct files are all there after their insertion, with the others that have
neither the path nor the id of one of them. -/
theorem mem_foldl_insertLive {fresh : List Store.FileRecord} :
    ∀ {records : List Store.FileRecord},
      (∀ first ∈ fresh, ∀ second ∈ fresh,
        first.path = second.path ∨ first.id = second.id → first = second) →
      (record ∈ fresh.foldl insertLive records ↔ record ∈ fresh ∨
        record ∈ records ∧ ∀ moved ∈ fresh, record.path ≠ moved.path ∧ record.id ≠ moved.id) := by
  induction fresh with
  | nil =>
      intro records distinct
      simp
  | cons first fresh ih =>
      intro records distinct
      have inner : ∀ left ∈ fresh, ∀ right ∈ fresh,
          left.path = right.path ∨ left.id = right.id → left = right := fun left leftMem right
            rightMem => distinct left (mem_cons_of_mem first leftMem) right
              (mem_cons_of_mem first rightMem)
      rw [foldl_cons, ih inner, mem_insertLive, mem_cons, forall_mem_cons]
      constructor
      · rintro (later | ⟨⟨held, apart⟩ | rfl, others⟩)
        · exact Or.inl (Or.inr later)
        · exact Or.inr ⟨held, apart, others⟩
        · exact Or.inl (Or.inl rfl)
      · rintro ((rfl | later) | ⟨held, apart, others⟩)
        · by_cases again : record ∈ fresh
          · exact Or.inl again
          · refine Or.inr ⟨Or.inr rfl, ?_⟩
            intro moved member
            have same := distinct record mem_cons_self moved
              (mem_cons_of_mem record member)
            refine ⟨fun path => again ?_, fun id => again ?_⟩
            · exact same (Or.inl path) ▸ member
            · exact same (Or.inr id) ▸ member
        · exact Or.inl later
        · exact Or.inr ⟨Or.inl ⟨held, apart⟩, others⟩

end Inserted

section Spelling

variable {dir name : Text} {id : Store.FileId64} {record : Store.FileRecord}

theorem ValidName.spoken (valid : ValidName name) : voidPiece name = false := by
  rcases valid with ⟨nonempty, notDot, _, _⟩
  simp [voidPiece, nonempty, notDot]

theorem getLast_childPath (valid : ValidName name) : (childPath dir name).getLast? ≠ some '/' := by
  rcases exists_cons_of_ne_nil valid.1 with ⟨first, others, rfl⟩
  intro ends
  rw [childPath, getLast?_append_of_ne_nil _ (cons_ne_nil _ _),
    getLast?_cons_cons] at ends
  exact valid.2.2.2 (mem_of_getLast? ends)

theorem childPath_ne_nil : childPath dir name ≠ [] := by
  simp [childPath]

/-- The path of a record is spelled as its components are, below its directory. -/
theorem spelled_records {forest : Forest} : ∀ {dir : Text} {id : Store.FileId64}, forest.Named →
    record ∈ forest.records dir id → ∃ rest, record.path = dir ++ '/' :: rest ∧
      ∀ piece ∈ rest.splitOn '/', voidPiece piece = false := by
  induction forest with
  | nil =>
      intro dir id named member
      cases member
  | cons name info below rest ihBelow ihRest =>
      intro dir id named member
      have spoken : ∀ piece ∈ name.splitOn '/', voidPiece piece = false := by
        rw [splitOn_plain named.1.1.2.2.2]
        intro piece only
        rw [mem_singleton.mp only]
        exact named.1.1.spoken
      rw [Forest.records] at member
      rcases mem_cons.mp member with rfl | member
      · exact ⟨name, rfl, spoken⟩
      · rcases mem_append.mp member with inner | later
        · split at inner
          · rcases ihBelow named.2.1 inner with ⟨deeper, spelled, pieces⟩
            refine ⟨name ++ '/' :: deeper, ?_, ?_⟩
            · rw [spelled, childPath, append_assoc]
              rfl
            · rw [splitOn_below]
              intro piece among
              rcases mem_append.mp among with front | back
              · exact spoken piece front
              · exact pieces piece back
          · cases inner
        · exact ihRest named.2.2 later

theorem joins_records {target : Text} {forest : Forest} (named : forest.Named)
    (target_ne : target ≠ []) (ends : target.getLast? ≠ some '/') (dir_ne : dir ≠ [])
    (member : record ∈ forest.records dir id) : Joins dir target record.path := by
  rcases spelled_records named member with ⟨rest, spelled, pieces⟩
  exact Or.inr ⟨rest, spelled, Spoken.spelled pieces, dir_ne, target_ne, ends⟩

/-- A record has the name that its path ends with, below any directory. -/
theorem fileName_rerooted {source target : Text} (source_ne : source ≠ []) (target_ne : target ≠ [])
    {forest : Forest} : ∀ {rest : Text} {id : Store.FileId64}, forest.Named →
      record ∈ forest.records (source ++ rest) id →
        pathFileName (reRooted source target record.path) = some record.name := by
  induction forest with
  | nil =>
      intro rest id named member
      cases member
  | cons name info below others ihBelow ihOthers =>
      intro rest id named member
      rw [Forest.records] at member
      rcases mem_cons.mp member with rfl | member
      · have path : reRooted source target (childPath (source ++ rest) name) =
            childPath (target ++ rest) name := by
          rw [childPath, append_assoc, reRooted_append, ← append_assoc]
          rfl
        simp only [recordForPath]
        rw [path, pathFileName_childPath (by simp [target_ne]) named.1.1,
          nameOf_childPath (by simp [source_ne]) named.1.1]
      · rcases mem_append.mp member with inner | later
        · split at inner
          · rw [childPath, append_assoc] at inner
            exact ihBelow named.2.1 inner
          · cases inner
        · exact ihOthers named.2.2 later

end Spelling

section Renamed

variable {root path name target : Text} {tree next : FileTree} {id : Store.FileId64}
  {location : List Text} {records : List Store.FileRecord} {sub below : Forest}
  {old info : FileInfo}

/-- The moved records of a file are those of a scan of the file where it now lies. -/
theorem mem_movedLive {source : Text} (source_ne : source ≠ []) (target_ne : target ≠ [])
    (ends : target.getLast? ≠ some '/') (differs : source ≠ target) (named : below.Named)
    (sameId : old.id = info.id) (sameKind : old.kind = info.kind) (record : Store.FileRecord) :
    record ∈ subtree ⟨target, some id, info, below⟩ ↔
      ∃ before ∈ subtree ⟨source, some id, old, below⟩,
        movedLive before source target (recordForPath target (some id) info) = some record := by
  have atRoot : movedLive (recordForPath source (some id) old) source target
      (recordForPath target (some id) info) = some (recordForPath target (some id) info) := by
    simp [movedLive, renamedPath, recordForPath, sameId]
  have inner (before : Store.FileRecord) (member : before ∈ below.records source info.id) :
      movedLive before source target (recordForPath target (some id) info) =
        some (rerooted source target before) := by
    have under : Under source before.path := under_of_mem named member
    have elsewhere : before.path ≠ source := fun same => not_under_self (same ▸ under)
    have joins := joins_records named target_ne ends source_ne member
    have name : pathFileName (reRooted source target before.path) = some before.name :=
      @fileName_rerooted before source target source_ne target_ne below [] info.id named
        (by rwa [append_nil])
    have moved := (renamedPath_eq_reRooted differs (below_of_under under)).mpr joins
    rw [movedLive, moved, Option.map_some, if_neg (components_differ joins elsewhere), name]
    rfl
  have lower : below.records target info.id =
      (below.records source info.id).map (rerooted source target) := by
    have whole := @records_rerooted source target source_ne target_ne below [] info.id named
    rwa [append_nil, append_nil] at whole
  rw [subtree, subtree, mem_cons, exists_mem_cons_iff, atRoot, Option.some.injEq,
    sameId, sameKind]
  refine or_congr eq_comm ?_
  split
  · rw [lower, mem_map]
    refine exists_congr fun before => and_congr_right fun member => ?_
    rw [inner before member, Option.some.injEq]
  · simp

theorem correlateLive_eq {files : RecordFiles} {source : Text} {first fresh : Store.FileRecord}
    (held : first ∈ records) (at' : first.path = source)
    (alone : ∀ record ∈ records, Below source record.path →
      pathComponents record.path = pathComponents source → record = first)
    (found : recordFor files target first.parent = .ok fresh) :
    correlateLive files records source target =
      .ok (((records.filter fun old => Below source old.path).filterMap fun old =>
        movedLive old source target fresh).foldl insertLive
          (records.filter fun old => ¬Below source old.path)) := by
  have member : first ∈ records.filter fun old => Below source old.path := by
    rw [mem_filter, decide_eq_true_eq]
    exact ⟨held, Or.inl at'⟩
  have nonempty : (records.filter fun old => Below source old.path) ≠ [] :=
    ne_nil_of_mem member
  have parent : ((records.filter fun old => Below source old.path).find? fun old =>
      pathComponents old.path = pathComponents source) = some first := by
    cases search : (records.filter fun old => Below source old.path).find? fun old =>
        pathComponents old.path = pathComponents source with
    | none =>
        have absent := find?_eq_none.mp search first member
        simp [at'] at absent
    | some other =>
        have sameComponents := find?_some search
        have otherMem := mem_filter.mp (mem_of_find?_eq_some search)
        rw [decide_eq_true_eq] at sameComponents otherMem
        rw [alone other otherMem.1 otherMem.2 sameComponents]
  simp only [correlateLive, if_neg nonempty, parent, Option.bind_some, found]

theorem named_of_find {forest : Forest} (named : forest.Named)
    (found : forest.find name = some (info, below)) : below.Named := by
  induction forest with
  | nil => cases found
  | cons other first inner rest _ ih =>
      rw [Forest.find] at found
      split at found
      · cases found
        exact named.2.1
      · exact ih named.2.2 found

theorem eq_nil_of_names {forest : Forest} (empty : forest.names = []) : forest = .nil := by
  cases forest with
  | nil => rfl
  | cons => cases empty

/-- The records of the changed tree: those away from both paths, and those of the moved file. -/
theorem mem_records_renamed
    (found : tree.forest.directoryAt (childBase root) tree.info.id location = some (path, id, sub))
    (valid : ValidName name) (validTarget : ValidName target) (rootInfo : next.info = tree.info)
    (forest : next.forest = tree.forest.editAt
      (fun files => ((files.erase name).erase target).snoc target info below) location)
    (record : Store.FileRecord) :
    record ∈ next.records root ↔
      (record ∈ tree.records root ∧ ¬Below (childPath path name) record.path ∧
        ¬Below (childPath path target) record.path) ∨
      record ∈ subtree ⟨childPath path target, some id, info, below⟩ := by
  have named := (directoryAt_spec (Forest.erase name) tree.named found).1
  have under : Below (childPath path name) record.path → Under path record.path :=
    under_of_below valid.1
  have underTarget : Below (childPath path target) record.path → Under path record.path :=
    under_of_below validTarget.1
  rw [mem_records_edited found rootInfo forest, mem_records_snoc,
    mem_records_erase (named.erase name) validTarget.2.2.2, mem_records_erase named valid.2.2.2,
    mem_records_under found]
  tauto

/-- The records of a file are spelled as their components are, below its path. -/
theorem spoken_of_find {record : Store.FileRecord}
    (found : tree.forest.directoryAt (childBase root) tree.info.id location = some (path, id, sub))
    (file : sub.find name = some (old, below)) (member : record ∈ tree.records root)
    (inside : Below (childPath path name) record.path) :
    SpokenBelow (childPath path name) record.path := by
  have named := (directoryAt_spec (Forest.erase name) tree.named found).1
  have isOfFile := (mem_subtree_tree found file record).mpr ⟨member, inside⟩
  rw [subtree] at isOfFile
  rcases mem_cons.mp isOfFile with rfl | deeper
  · exact Or.inl rfl
  · split at deeper
    · exact Or.inr (spelled_records (named_of_find named file) deeper)
    · cases deeper

theorem joins_of_find {record : Store.FileRecord}
    (found : tree.forest.directoryAt (childBase root) tree.info.id location = some (path, id, sub))
    (file : sub.find name = some (old, below)) (target_ne : target ≠ [])
    (ends : target.getLast? ≠ some '/') (member : record ∈ tree.records root)
    (inside : Below (childPath path name) record.path) :
    Joins (childPath path name) target record.path := by
  refine (spoken_of_find found file member inside).imp_right ?_
  rintro ⟨rest, spelled, spoken⟩
  exact ⟨rest, spelled, spoken.spelled, childPath_ne_nil, target_ne, ends⟩

theorem renamed_same (same : Same records (tree.records root))
    (found : tree.forest.directoryAt (childBase root) tree.info.id location = some (path, id, sub))
    (file : sub.find name = some (old, below)) (sameId : old.id = info.id)
    (sameKind : old.kind = info.kind)
    (differs : filePath root location name ≠ filePath root location target)
    (emptied : ((sub.erase name).find target).all fun replaced => replaced.2.names = [])
    (rootInfo : next.info = tree.info)
    (forest : next.forest = tree.forest.editAt
      (fun files => ((files.erase name).erase target).snoc target info below) location) :
    ∃ after, correlateLive (next.files root) records (filePath root location name)
        (filePath root location target) = .ok after ∧ Same after (next.records root) := by
  have named := (directoryAt_spec (Forest.erase name) tree.named found).1
  rw [filePath_eq found, filePath_eq found] at differs ⊢
  have otherName : name ≠ target := fun equal => differs (equal ▸ rfl)
  -- The names of the changed tree are valid, so the target's is.
  have foundNext : next.forest.directoryAt (childBase root) next.info.id location =
      some (path, id, ((sub.erase name).erase target).snoc target info below) := by
    rw [rootInfo, forest]
    exact directoryAt_editAt found
  have namedNext := (directoryAt_spec (Forest.erase name) next.named foundNext).1
  have validTarget : ValidName target := namedNext.valid mem_names_snoc
  have validName : ValidName name := named.valid (mem_names_of_find file)
  have belowNamed : below.Named := named_of_find named file
  -- The old record of the file, and the new one.
  have subtreeIff := @mem_subtree_tree root path tree location name id sub old below found file
  have firstMem : recordForPath (childPath path name) (some id) old ∈ tree.records root :=
    ((subtreeIff _).mp mem_cons_self).1
  have renamed := @mem_records_renamed root path name target tree next id location sub below info
    found validName validTarget rootInfo forest
  have freshMem : recordForPath (childPath path target) (some id) info ∈ next.records root :=
    (renamed _).mpr (Or.inr mem_cons_self)
  have ends : (childPath path target).getLast? ≠ some '/' := getLast_childPath validTarget
  have alone : ∀ record ∈ records, Below (childPath path name) record.path →
      pathComponents record.path = pathComponents (childPath path name) →
        record = recordForPath (childPath path name) (some id) old := by
    intro record member inside components
    have held := (same record).mp member
    have joins := joins_of_find found file childPath_ne_nil ends held inside
    apply eq_of_path_tree held firstMem
    by_contra elsewhere
    exact components_differ joins elsewhere components
  refine ⟨_, correlateLive_eq ((same _).mpr firstMem) rfl alone (recordFor_file freshMem), ?_⟩
  -- The moved records are those of the file at the target.
  have moved (record : Store.FileRecord) :
      record ∈ (records.filter fun old => Below (childPath path name) old.path).filterMap
        (fun old => movedLive old (childPath path name) (childPath path target)
          (recordForPath (childPath path target) (some id) info)) ↔
        record ∈ subtree ⟨childPath path target, some id, info, below⟩ := by
    rw [mem_movedLive childPath_ne_nil childPath_ne_nil ends differs belowNamed sameId sameKind,
      mem_filterMap]
    refine exists_congr fun before => and_congr_left fun _ => ?_
    rw [mem_filter, same before, subtreeIff, decide_eq_true_eq]
  have distinct (first second : Store.FileRecord) (firstIn : first ∈ next.records root)
      (secondIn : second ∈ next.records root)
      (clash : first.path = second.path ∨ first.id = second.id) : first = second := by
    rcases clash with path | id
    · exact eq_of_path_tree firstIn secondIn path
    · exact eq_of_id_tree firstIn secondIn id
  intro record
  rw [mem_foldl_insertLive, moved, renamed, mem_filter, same, decide_eq_true_eq]
  · constructor
    · rintro (isMoved | ⟨⟨held, outside⟩, apart⟩)
      · exact Or.inr isMoved
      · refine Or.inl ⟨held, outside, ?_⟩
        intro replaced
        -- A replaced file has one record, at the path of the moved one.
        have own := (mem_records_under found record).mpr
          ⟨held, under_of_below validTarget.1 replaced⟩
        rcases exists_find_of_below named validTarget.2.2.2 own replaced with
          ⟨taken, inner, isFile, isTaken⟩
        rw [find_erase otherName, isFile] at emptied
        have noFiles : inner = .nil := eq_nil_of_names (by simpa using emptied)
        have at' : record.path = childPath path target := by
          rw [noFiles, subtree] at isTaken
          rcases mem_cons.mp isTaken with rfl | nothing
          · rfl
          · split at nothing <;> cases nothing
        have fresh := (moved (recordForPath (childPath path target) (some id) info)).mpr
          mem_cons_self
        exact absurd at' (apart _ fresh).1
    · rintro (⟨held, outside, outsideTarget⟩ | isMoved)
      · refine Or.inr ⟨⟨held, outside⟩, ?_⟩
        intro other isMoved
        rw [moved] at isMoved
        have inside : Below (childPath path target) other.path := below_of_mem_subtree isMoved
        refine ⟨fun same => outsideTarget (same ▸ inside), fun sameId => outsideTarget ?_⟩
        have isNext := (renamed record).mpr (Or.inl ⟨held, outside, outsideTarget⟩)
        have own := distinct record other isNext ((renamed other).mpr (Or.inr isMoved))
          (Or.inr sameId)
        exact own ▸ inside
      · exact Or.inl isMoved
  · intro first firstIn second secondIn clash
    rw [moved] at firstIn secondIn
    exact distinct first second ((renamed first).mpr (Or.inr firstIn))
      ((renamed second).mpr (Or.inr secondIn)) clash

end Renamed

section Runs

variable {root : Text} {start tree next : FileTree} {records : List Store.FileRecord}
  {step : TreeStep} {change : TreeChange}

/-- The change leaves every file in its directory. -/
def TreeChange.KeepsParents : TreeChange → Prop
  | .create .. => False
  | .rename location _ targetLocation _ _ => location = targetLocation
  | .modify .. | .remove .. => True

/-- Files stay in their directories, and nothing changes but what the event describes. -/
structure Fits (root : Text) (tree : FileTree) (step : TreeStep) (next : FileTree) : Prop where
  parents : step.change.KeepsParents
  info : next.info = tree.info
  forest : step.change.forest root tree = some next.forest

theorem modify_same {location : List Text} {name : Text} {info : FileInfo} {metadata : Bool}
    (same : Same records (tree.records root)) (rootInfo : next.info = tree.info)
    (forest : (TreeChange.modify location name info metadata).forest root tree =
      some next.forest) :
    ∃ after, applyLive (next.files root) records
        ((TreeChange.modify location name info metadata).event root) = .ok after ∧
      Same after (next.records root) := by
  rw [TreeChange.forest] at forest
  split at forest
  case h_1 => cases forest
  case h_2 path id sub found =>
    split at forest
    case h_1 => cases forest
    case h_2 old below file =>
      split at forest
      case isFalse => cases forest
      case isTrue kept =>
        rcases modified_same same found file kept.1 kept.2 rootInfo
          (Option.some.inj forest).symm with ⟨fresh, made, sameAfter⟩
        refine ⟨insertLive records fresh, ?_, sameAfter⟩
        have applied : (recordFor (next.files root) (filePath root location name)
            ((records.find? fun old => old.path = filePath root location name).bind
              Store.FileRecord.parent)).map (insertLive records) =
              .ok (insertLive records fresh) := by
          rw [made]
          rfl
        cases metadata <;> exact applied

theorem remove_same {location : List Text} {name : Text}
    (same : Same records (tree.records root)) (rootInfo : next.info = tree.info)
    (forest : (TreeChange.remove location name).forest root tree = some next.forest) :
    ∃ after, applyLive (next.files root) records ((TreeChange.remove location name).event root) =
        .ok after ∧ Same after (next.records root) := by
  rw [TreeChange.forest] at forest
  split at forest
  case h_1 => cases forest
  case h_2 path id sub found =>
    split at forest
    case isFalse => cases forest
    case isTrue listed =>
      exact ⟨_, rfl, removed_same same found listed rootInfo (Option.some.inj forest).symm⟩

theorem rename_same {location : List Text} {name target : Text} {info : FileInfo}
    (same : Same records (tree.records root)) (rootInfo : next.info = tree.info)
    (forest : (TreeChange.rename location name location target info).forest root tree =
      some next.forest) :
    ∃ after, applyLive (next.files root) records
        ((TreeChange.rename location name location target info).event root) = .ok after ∧
      Same after (next.records root) := by
  rw [TreeChange.forest] at forest
  split at forest
  case h_1 => cases forest
  case h_2 path id sub found =>
    split at forest
    case h_1 => cases forest
    case h_2 old below file =>
      simp only [directoryAt_editAt found, editAt_editAt] at forest
      split at forest
      case isFalse => cases forest
      case isTrue allowed =>
        rcases allowed with ⟨sameId, sameKind, differs, emptied⟩
        exact renamed_same same found file sameId sameKind differs emptied rootInfo
          (Option.some.inj forest).symm

/-- One step: the event of a change that fits is applied, and the records are those of the
changed tree. -/
theorem applyLive_same (same : Same records (tree.records root)) (fits : Fits root tree step next) :
    ∃ after, applyLive (next.files root) records (step.change.event root) = .ok after ∧
      Same after (next.records root) := by
  rcases step with ⟨change, rootInfo, touched⟩
  rcases fits with ⟨parents, info, forest⟩
  cases change with
  | create => exact parents.elim
  | modify => exact modify_same same info forest
  | remove => exact remove_same same info forest
  | rename =>
      cases parents
      exact rename_same same info forest

/-- The states of a live index that begins with the records of a scan: after every change of the
tree, one that is allowed, it applies the event that describes the change. -/
inductive LiveRun (root : Text) (start : FileTree)
    (allowed : FileTree → TreeStep → FileTree → Prop) :
    FileTree → List Store.FileRecord → Prop
  | scanned {records : List Store.FileRecord} :
      Same records (scanTree root start).entries → LiveRun root start allowed start records
  | applied {tree next : FileTree} {step : TreeStep} {records after : List Store.FileRecord} :
      LiveRun root start allowed tree records → Changed root tree step next →
        allowed tree step next →
        applyLive (next.files root) records (step.change.event root) = .ok after →
        LiveRun root start allowed next after

theorem same_scanTree : Same records (scanTree root tree).entries ↔
    Same records (tree.records root) :=
  forall_congr' fun record => by rw [scanTree_perm.mem_iff]

/-- In every run of changes that fit, the records are those of a scan in every state. -/
theorem liveRun_rescan (run : LiveRun root start (Fits root) tree records) :
    Same records (scanTree root tree).entries := by
  induction run with
  | scanned same => exact same
  | @applied tree next step records after _ _ fits applied ih =>
      rcases applyLive_same (same_scanTree.mp ih) fits with ⟨others, applies, same⟩
      rw [applied] at applies
      cases applies
      exact same_scanTree.mpr same

def plainInfo (id : Store.FileId64) (kind : FileKind) (len : Store.U64) : FileInfo where
  id
  kind
  len
  mode := 493
  owner := 501
  group := 20
  xattrsDigest := 0
  created := none
  modified := none
  changed := none
  tags := []
  finderComment := none

/-- A directory without files. -/
def emptyTree : FileTree where
  info := plainInfo (Store.fileId 1 2) .directory 64
  forest := .nil
  directory := rfl
  named := trivial
  distinct := by decide

/-- The directory with a file in it. -/
def fileTree (name : Text) (valid : ValidName name) (len : Store.U64) : FileTree where
  info := plainInfo (Store.fileId 1 2) .directory 64
  forest := .cons name (plainInfo (Store.fileId 1 3) .file len) .nil .nil
  directory := rfl
  named := ⟨⟨valid, not_mem_nil, fun _ => rfl⟩, trivial, trivial⟩
  distinct := by
    simp [Forest.ids, plainInfo, Store.fileId]

/-- A file that is written to and renamed within its directory. -/
theorem liveRun_rescan_renamed :
    Same [rootRecord "/r".toList (fileTree "b".toList (by decide) 7),
        recordForPath "/r/b".toList (some (Store.fileId 1 2))
          (plainInfo (Store.fileId 1 3) .file 7)]
      (scanTree "/r".toList (fileTree "b".toList (by decide) 7)).entries := by
  have scanned : LiveRun "/r".toList (fileTree "a".toList (by decide) 5)
      (Fits "/r".toList) (fileTree "a".toList (by decide) 5)
      ((fileTree "a".toList (by decide) 5).records "/r".toList) :=
    .scanned (same_scanTree.mpr fun _ => Iff.rfl)
  have written : LiveRun "/r".toList (fileTree "a".toList (by decide) 5)
      (Fits "/r".toList) (fileTree "a".toList (by decide) 7)
      ((fileTree "a".toList (by decide) 7).records "/r".toList) :=
    @LiveRun.applied _ _ _ _ (fileTree "a".toList (by decide) 7)
      ⟨.modify [] "a".toList (plainInfo (Store.fileId 1 3) .file 7) false, none, []⟩ _ _
      scanned ⟨rfl, rfl⟩ ⟨trivial, rfl, rfl⟩ rfl
  exact liveRun_rescan (@LiveRun.applied _ _ _ _ (fileTree "b".toList (by decide) 7)
    ⟨.rename [] "a".toList [] "b".toList (plainInfo (Store.fileId 1 3) .file 7), none, []⟩ _ _
    written ⟨rfl, rfl⟩ ⟨rfl, rfl, rfl⟩ rfl)

/-- A file that is created has no parent in the index, and its directory for one in a scan. -/
theorem created_differs : ∃ records, LiveRun "/r".toList emptyTree (fun _ _ _ => True)
    (fileTree "a".toList (by decide) 5) records ∧
      ¬Same records (scanTree "/r".toList (fileTree "a".toList (by decide) 5)).entries := by
  have scanned : LiveRun "/r".toList emptyTree (fun _ _ _ => True) emptyTree
      (emptyTree.records "/r".toList) :=
    .scanned (same_scanTree.mpr fun _ => Iff.rfl)
  have change : Changed "/r".toList emptyTree
      ⟨.create [] "a".toList (plainInfo (Store.fileId 1 3) .file 5), none, []⟩
      (fileTree "a".toList (by decide) 5) :=
    ⟨rfl, rfl⟩
  refine ⟨_, .applied scanned change trivial rfl, ?_⟩
  intro same
  have orphan := (same_scanTree.mp same (recordForPath "/r/a".toList none
    (plainInfo (Store.fileId 1 3) .file 5))).mp (by decide)
  exact absurd orphan (by decide)

end Runs

end Gfm.Index

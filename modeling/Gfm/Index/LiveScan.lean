import Gfm.Index.FileScan

/-!
# The live index and a rescan

Changes of a file tree, the events that describe them and what the live index does with its
records at each. After a change the records are those of a scan of the changed tree where the
event keeps the parents of the records: a file that is modified or removed, and a file that is
renamed within its directory.
-/

namespace Gfm.Index

open List Search

/-- What the file system has at a path. -/
abbrev RecordFiles := Text → Option Store.FileRecord

section Live

variable (files : RecordFiles)

def recordFor (path : Text) (parent : Option Store.FileId64) :
    Except GfmError Store.FileRecord :=
  match files path with
  | some found => .ok { found with parent }
  | none => .error (.io [] "No such file or directory")

def insertLive (records : List Store.FileRecord) (record : Store.FileRecord) :
    List Store.FileRecord :=
  records.filter (fun old => old.path ≠ record.path ∧ old.id ≠ record.id) ++ [record]

instance (root path : Text) : Decidable (Below root path) := inferInstanceAs (Decidable (_ ∨ _))

def movedLive (old : Store.FileRecord) (source target : Text) (freshRoot : Store.FileRecord) :
    Option Store.FileRecord :=
  (renamedPath old.path source target).map fun movedPath =>
    if pathComponents old.path = pathComponents source then
      { freshRoot with id := old.id, parent := old.parent }
    else { old with path := movedPath, name := (pathFileName movedPath).getD [] }

def correlateLive (records : List Store.FileRecord) (source target : Text) :
    Except GfmError (List Store.FileRecord) :=
  let removed := records.filter fun old => Below source old.path
  let left := records.filter fun old => ¬Below source old.path
  let rootParent :=
    (removed.find? fun old => pathComponents old.path = pathComponents source).bind
      Store.FileRecord.parent
  if removed = [] then (recordFor files target none).map (insertLive left)
  else
    match recordFor files target rootParent with
    | .error _ => .ok left
    | .ok freshRoot =>
        .ok ((removed.filterMap fun old => movedLive old source target freshRoot).foldl insertLive
          left)

/-- What the live index does with its records at an event that nothing interrupts. -/
def applyLive (records : List Store.FileRecord) (event : FileEvent) :
    Except GfmError (List Store.FileRecord) :=
  match event.kind with
  | .create | .other => (recordFor files event.path none).map (insertLive records)
  | .metadata | .modify =>
      let previous := records.find? fun old => old.path = event.path
      (recordFor files event.path (previous.bind Store.FileRecord.parent)).map (insertLive records)
  | .remove => .ok (records.filter fun old => ¬Below event.path old.path)
  | .rename source target => correlateLive files records source target
  | .rescan => .ok records

end Live

section Changes

/-- A change of a file tree below its root. -/
inductive TreeChange where
  | create (location : List Text) (name : Text) (info : FileInfo)
  | modify (location : List Text) (name : Text) (info : FileInfo) (metadata : Bool)
  | remove (location : List Text) (name : Text)
  | rename (location : List Text) (name : Text) (targetLocation : List Text) (targetName : Text)
      (info : FileInfo)

/-- A change, with the new metadata of the root and of other directories that it touches. -/
structure TreeStep where
  change : TreeChange
  rootInfo : Option FileInfo
  touched : List (List Text × Text × FileInfo)

variable (root : Text)

def filePath (location : List Text) (name : Text) : Text :=
  childPath (location.foldl childPath (childBase root)) name

/-- The files of the root after a change; none where the tree does not allow it. -/
def TreeChange.forest (tree : FileTree) : TreeChange → Option Forest
  | .create location name info =>
      match tree.forest.directoryAt (childBase root) tree.info.id location with
      | none => none
      | some (_, _, sub) =>
          if name ∈ sub.names then none
          else some (tree.forest.editAt (fun files => files.snoc name info .nil) location)
  | .modify location name info _ =>
      match tree.forest.directoryAt (childBase root) tree.info.id location with
      | none => none
      | some (_, _, sub) =>
          match sub.find name with
          | none => none
          | some (old, _) =>
              if old.id = info.id ∧ old.kind = info.kind then
                some (tree.forest.editAt (Forest.setInfo name info) location)
              else none
  | .remove location name =>
      match tree.forest.directoryAt (childBase root) tree.info.id location with
      | none => none
      | some (_, _, sub) =>
          if name ∈ sub.names then some (tree.forest.editAt (Forest.erase name) location) else none
  | .rename location name targetLocation targetName info =>
      match tree.forest.directoryAt (childBase root) tree.info.id location with
      | none => none
      | some (_, _, sub) =>
          match sub.find name with
          | none => none
          | some (old, below) =>
              let left := tree.forest.editAt (Forest.erase name) location
              match left.directoryAt (childBase root) tree.info.id targetLocation with
              | none => none
              | some (_, _, targetSub) =>
                  -- A file that the renamed one replaces holds no others.
                  if old.id = info.id ∧ old.kind = info.kind ∧
                      filePath root location name ≠ filePath root targetLocation targetName ∧
                      ((targetSub.find targetName).all fun replaced => replaced.2.names = []) then
                    some (left.editAt (fun files =>
                      (files.erase targetName).snoc targetName info below) targetLocation)
                  else none

/-- The change takes one tree to the other. -/
structure Changed (tree : FileTree) (step : TreeStep) (next : FileTree) : Prop where
  info : next.info = step.rootInfo.getD tree.info
  forest : (step.change.forest root tree).map (fun forest => step.touched.foldl
    (fun forest (location, name, info) => forest.editAt (Forest.setInfo name info) location)
      forest) = some next.forest

/-- The event that describes a change. -/
def TreeChange.event : TreeChange → FileEvent
  | .create location name _ => ⟨filePath root location name, .create⟩
  | .modify location name _ metadata =>
      ⟨filePath root location name, if metadata then .metadata else .modify⟩
  | .remove location name => ⟨filePath root location name, .remove⟩
  | .rename location name targetLocation targetName _ =>
      ⟨filePath root targetLocation targetName,
        .rename (filePath root location name) (filePath root targetLocation targetName)⟩

def FileTree.files (tree : FileTree) : RecordFiles := fun path =>
  (tree.records root).find? fun record => record.path = path

end Changes

section Rerooting

variable {dir name source target : Text}

/-- A file has the name that its directory gives it. -/
theorem pathFileName_childPath (present : dir ≠ []) (valid : ValidName name) :
    pathFileName (childPath dir name) = some name := by
  rcases valid with ⟨nonempty, notDot, notDots, plain⟩
  rcases pathComponents_cons present with ⟨first, _, extended⟩
  have spoken : voidPiece name = false := by
    simp [voidPiece, nonempty, notDot]
  have notSlash : name ≠ ['/'] := by
    rintro rfl
    exact plain mem_cons_self
  rw [childPath, pathFileName, extended, splitOn_plain plain]
  simp [spoken, notDot, notDots, notSlash]

theorem nameOf_childPath (present : dir ≠ []) (valid : ValidName name) :
    nameOf (childPath dir name) = name := by
  rw [nameOf, pathFileName_childPath present valid]
  rfl

def rerooted (source target : Text) (old : Store.FileRecord) : Store.FileRecord :=
  { old with path := reRooted source target old.path }

theorem reRooted_append (rest : Text) :
    reRooted source target (source ++ rest) = target ++ rest := by
  simp [reRooted]

theorem recordForPath_rerooted {rest : Text} {parent : Option Store.FileId64} {info : FileInfo}
    (source_ne : source ≠ []) (target_ne : target ≠ []) (valid : ValidName name) :
    recordForPath (childPath (target ++ rest) name) parent info =
      rerooted source target (recordForPath (childPath (source ++ rest) name) parent info) := by
  have left : nameOf (childPath (target ++ rest) name) = name :=
    nameOf_childPath (by simp [target_ne]) valid
  have right : nameOf (childPath (source ++ rest) name) = name :=
    nameOf_childPath (by simp [source_ne]) valid
  have path : reRooted source target (childPath (source ++ rest) name) =
      childPath (target ++ rest) name := by
    rw [childPath, append_assoc, reRooted_append, ← append_assoc]
    rfl
  simp only [recordForPath, rerooted, left, right, path]

/-- The records of a directory under another path. -/
theorem records_rerooted (source_ne : source ≠ []) (target_ne : target ≠ []) {forest : Forest} :
    ∀ {rest : Text} {id : Store.FileId64}, forest.Named →
      forest.records (target ++ rest) id =
        (forest.records (source ++ rest) id).map (rerooted source target) := by
  induction forest with
  | nil => intros; rfl
  | cons name info below others ihBelow ihOthers =>
      intro rest id named
      have inner : childPath (target ++ rest) name = target ++ (rest ++ '/' :: name) := by
        simp [childPath]
      have innerSource : childPath (source ++ rest) name = source ++ (rest ++ '/' :: name) := by
        simp [childPath]
      rw [Forest.records, Forest.records, map_cons, map_append,
        ← recordForPath_rerooted source_ne target_ne named.1.1, ihOthers named.2.2]
      split
      · rw [inner, innerSource, ihBelow named.2.1]
      · rfl

end Rerooting

section Distinct

variable {root dir : Text} {id : Store.FileId64} {record other : Store.FileRecord}

theorem map_id_records {forest : Forest} : ∀ {dir : Text} {id : Store.FileId64}, forest.Named →
    (forest.records dir id).map Store.FileRecord.id = forest.ids := by
  induction forest with
  | nil => intros; rfl
  | cons name info below rest ihBelow ihRest =>
      intro dir id named
      rw [Forest.records, map_cons, map_append, ihRest named.2.2, Forest.ids]
      split
      case isTrue => rw [ihBelow named.2.1]; rfl
      case isFalse other =>
        rw [named.1.2.2 other]
        rfl

theorem eq_of_path_forest {forest : Forest} : ∀ {dir : Text} {id : Store.FileId64},
    forest.Named → record ∈ forest.records dir id → other ∈ forest.records dir id →
      record.path = other.path → record = other := by
  induction forest with
  | nil =>
      intro dir id named member
      cases member
  | cons name info below rest ihBelow ihRest =>
      intro dir id named member otherMem same
      have first (found : Store.FileRecord) :=
        (@mem_subtree_iff dir name id info below rest found named).1
      have later (found : Store.FileRecord) :=
        (@mem_subtree_iff dir name id info below rest found named).2
      by_cases inside : Below (childPath dir name) record.path
      · have left := (first record).mpr ⟨member, inside⟩
        have right := (first other).mpr ⟨otherMem, same ▸ inside⟩
        rw [subtree] at left right
        by_cases isDirectory : info.kind = .directory
        · simp only [if_pos isDirectory, mem_cons] at left right
          rcases left with rfl | left <;> rcases right with rfl | right
          · rfl
          · exact absurd (same ▸ under_of_mem named.2.1 right) not_under_self
          · exact absurd (same ▸ under_of_mem named.2.1 left) not_under_self
          · exact ihBelow named.2.1 left right same
        · simp only [if_neg isDirectory, mem_singleton] at left right
          rw [left, right]
      · exact ihRest named.2.2 ((later record).mpr ⟨member, inside⟩)
          ((later other).mpr ⟨otherMem, same ▸ inside⟩) same

variable {tree : FileTree}

def rootRecord (root : Text) (tree : FileTree) : Store.FileRecord :=
  recordForPath root none tree.info

theorem mem_records_tree : record ∈ tree.records root ↔
    record = rootRecord root tree ∨
      record ∈ tree.forest.records (childBase root) tree.info.id := by
  rw [FileTree.records, mem_cons]
  rfl

theorem eq_of_path_tree (member : record ∈ tree.records root) (otherMem : other ∈ tree.records root)
    (same : record.path = other.path) : record = other := by
  rcases mem_records_tree.mp member with rfl | member <;>
    rcases mem_records_tree.mp otherMem with rfl | otherMem
  · rfl
  · exact absurd (same ▸ under_of_mem tree.named otherMem) (not_under_root (Or.inl rfl))
  · exact absurd (same ▸ under_of_mem tree.named member) (not_under_root (Or.inl rfl))
  · exact eq_of_path_forest tree.named member otherMem same

theorem nodup_ids_tree : ((tree.records root).map Store.FileRecord.id).Nodup := by
  have ids : (tree.records root).map Store.FileRecord.id = tree.info.id :: tree.forest.ids := by
    rw [FileTree.records, map_cons, map_id_records tree.named]
    rfl
  exact ids ▸ tree.distinct

theorem eq_of_id_tree (member : record ∈ tree.records root) (otherMem : other ∈ tree.records root)
    (same : record.id = other.id) : record = other :=
  inj_on_of_nodup_map nodup_ids_tree member otherMem same

theorem files_eq_some (member : record ∈ tree.records root) :
    tree.files root record.path = some record := by
  rw [FileTree.files]
  cases found : (tree.records root).find? fun held => held.path = record.path with
  | none =>
      have absent := find?_eq_none.mp found record member
      simp at absent
  | some held =>
      have path := find?_some found
      rw [decide_eq_true_eq] at path
      rw [eq_of_path_tree (mem_of_find?_eq_some found) member path]

end Distinct

section Steps

variable {root path : Text} {tree next : FileTree} {records after : List Store.FileRecord}
  {location : List Text} {name : Text} {id : Store.FileId64} {sub : Forest}

/-- The same records, in any order. -/
def Same (records others : List Store.FileRecord) : Prop :=
  ∀ record, record ∈ records ↔ record ∈ others

/-- The records under a directory are those of its files. -/
theorem mem_records_under
    (found : tree.forest.directoryAt (childBase root) tree.info.id location = some (path, id, sub))
    (record : Store.FileRecord) : record ∈ sub.records path id ↔
      record ∈ tree.records root ∧ Under path record.path := by
  rcases directoryAt_spec (Forest.erase []) tree.named found with ⟨-, spec⟩
  have inside : Below (childBase root) path := by
    rw [path_directoryAt found]
    exact below_foldl_childPath location (childBase root)
  have outside : record = rootRecord root tree → ¬Under path record.path := by
    rintro rfl
    exact not_under_root inside
  rw [mem_records_tree, (spec record).1]
  tauto

/-- The records of a file are those at or below its path. -/
theorem mem_subtree_tree {old : FileInfo} {below : Forest}
    (found : tree.forest.directoryAt (childBase root) tree.info.id location = some (path, id, sub))
    (file : sub.find name = some (old, below)) (record : Store.FileRecord) :
    record ∈ subtree ⟨childPath path name, some id, old, below⟩ ↔
      record ∈ tree.records root ∧ Below (childPath path name) record.path := by
  have named := (directoryAt_spec (Forest.erase name) tree.named found).1
  have under : Below (childPath path name) record.path → Under path record.path :=
    under_of_below (named.valid (mem_names_of_find file)).1
  rw [mem_subtree_find named file, mem_records_under found]
  tauto

/-- What a change to the files of one directory does to the records. -/
theorem mem_records_edited {change : Forest → Forest}
    (found : tree.forest.directoryAt (childBase root) tree.info.id location = some (path, id, sub))
    (info : next.info = tree.info) (forest : next.forest = tree.forest.editAt change location)
    (record : Store.FileRecord) :
    record ∈ next.records root ↔ (record ∈ tree.records root ∧ ¬Under path record.path) ∨
      record ∈ (change sub).records path id := by
  have edited := ((directoryAt_spec change tree.named found).2 record).2
  have inside : Below (childBase root) path := by
    rw [path_directoryAt found]
    exact below_foldl_childPath location (childBase root)
  have outside : record = rootRecord root tree → ¬Under path record.path := by
    rintro rfl
    exact not_under_root inside
  have sameRoot : rootRecord root next = rootRecord root tree := by
    rw [rootRecord, info, rootRecord]
  rw [mem_records_tree, mem_records_tree, sameRoot, info, forest, edited]
  tauto

theorem filePath_eq (found : tree.forest.directoryAt (childBase root) tree.info.id location =
    some (path, id, sub)) : filePath root location name = childPath path name := by
  rw [filePath, ← path_directoryAt found]

theorem mem_insertLive {record fresh : Store.FileRecord} : record ∈ insertLive records fresh ↔
    (record ∈ records ∧ record.path ≠ fresh.path ∧ record.id ≠ fresh.id) ∨ record = fresh := by
  simp [insertLive]

theorem removed_same (same : Same records (tree.records root))
    (found : tree.forest.directoryAt (childBase root) tree.info.id location = some (path, id, sub))
    (listed : name ∈ sub.names) (info : next.info = tree.info)
    (forest : next.forest = tree.forest.editAt (Forest.erase name) location) :
    Same (records.filter fun old => ¬Below (filePath root location name) old.path)
      (next.records root) := by
  intro record
  have named := (directoryAt_spec (Forest.erase name) tree.named found).1
  rw [mem_filter, same record, mem_records_edited found info forest,
    mem_records_erase named (named.plain listed), mem_records_under found, filePath_eq found,
    decide_eq_true_eq]
  have under : Below (childPath path name) record.path → Under path record.path :=
    under_of_below (named.valid listed).1
  grind

theorem recordFor_file {record : Store.FileRecord} (member : record ∈ next.records root) :
    recordFor (next.files root) record.path record.parent = .ok record := by
  simp only [recordFor, files_eq_some member]

theorem find?_same (same : Same records (tree.records root)) {record : Store.FileRecord}
    (member : record ∈ tree.records root) :
    (records.find? fun old => old.path = record.path) = some record := by
  cases found : records.find? fun old => old.path = record.path with
  | none =>
      have absent := find?_eq_none.mp found record ((same record).mpr member)
      simp at absent
  | some held =>
      have path := find?_some found
      rw [decide_eq_true_eq] at path
      have heldMem := (same held).mp (mem_of_find?_eq_some found)
      rw [eq_of_path_tree heldMem member path]

theorem modified_same {old info : FileInfo} {below : Forest}
    (same : Same records (tree.records root))
    (found : tree.forest.directoryAt (childBase root) tree.info.id location = some (path, id, sub))
    (file : sub.find name = some (old, below)) (sameId : old.id = info.id)
    (sameKind : old.kind = info.kind) (rootInfo : next.info = tree.info)
    (forest : next.forest = tree.forest.editAt (Forest.setInfo name info) location) :
    ∃ fresh, recordFor (next.files root) (filePath root location name)
        ((records.find? fun old => old.path = filePath root location name).bind
          Store.FileRecord.parent) = .ok fresh ∧
      Same (insertLive records fresh) (next.records root) := by
  have named := (directoryAt_spec (Forest.setInfo name info) tree.named found).1
  have beforeMem : recordForPath (childPath path name) (some id) old ∈ tree.records root :=
    ((mem_subtree_tree found file _).mp mem_cons_self).1
  have edited (record : Store.FileRecord) := mem_records_edited found rootInfo forest record
  have set (record : Store.FileRecord) :=
    @mem_records_setInfo path name id sub record old info below named file sameId sameKind
  have freshMem : recordForPath (childPath path name) (some id) info ∈ next.records root :=
    (edited _).mpr (Or.inr ((set _).mpr (Or.inr rfl)))
  refine ⟨recordForPath (childPath path name) (some id) info, ?_, ?_⟩
  · rw [filePath_eq found]
    have previous : (records.find? fun old => old.path = childPath path name) =
        some (recordForPath (childPath path name) (some id) old) := find?_same same beforeMem
    rw [previous]
    exact recordFor_file freshMem
  · intro record
    rw [mem_insertLive, same record, edited record, set record, mem_records_under found]
    have apart : record ∈ tree.records root → record.path ≠ childPath path name →
        record.id ≠ info.id := by
      intro member elsewhere sameAsNew
      have own := eq_of_id_tree member beforeMem (sameAsNew.trans sameId.symm)
      exact elsewhere (own ▸ rfl)
    have under : record.path = childPath path name → Under path record.path :=
      fun at' => ⟨name, (named.valid (mem_names_of_find file)).1, at'⟩
    change ((_ ∧ record.path ≠ childPath path name ∧ record.id ≠ info.id) ∨ _) ↔ _
    grind

end Steps

end Gfm.Index

import Gfm.Index.EventEdits
import Gfm.Index.VolumeState

/-!
# Scanning a file tree

A directory holds a forest of named files, each with what the file system says of it. A scan goes
through the tree breadth first and gives every file the id of its directory; its records are those
of the subtrees, one after the other.
-/

namespace Gfm.Index

open List Search Store

/-- What the file system says of a file, wherever it lies. -/
structure FileInfo where
  id : FileId64
  kind : FileKind
  len : U64
  mode : U32
  owner : U32
  group : U32
  xattrsDigest : U64
  created : Option SystemTime
  modified : Option SystemTime
  changed : Option SystemTime
  tags : List Text
  finderComment : Option Text
  deriving DecidableEq

def nameOf (path : Text) : Text := (pathFileName path).getD path

def recordForPath (path : Text) (parent : Option FileId64) (info : FileInfo) :
    Store.FileRecord where
  id := info.id
  parent
  path
  name := nameOf path
  kind := info.kind
  len := info.len
  mode := info.mode
  owner := info.owner
  group := info.group
  xattrsDigest := info.xattrsDigest
  created := info.created
  modified := info.modified
  changed := info.changed
  hidden := (nameOf path).head? = some '.'
  tags := info.tags
  finderComment := info.finderComment

/-- The files of a directory: the first one, what is below it, and the others. -/
inductive Forest where
  | nil
  | cons (name : Text) (info : FileInfo) (below rest : Forest)

def childPath (dir name : Text) : Text := dir ++ '/' :: name

/-- A path that waits to be scanned. -/
structure Queued where
  path : Text
  parent : Option FileId64
  info : FileInfo
  below : Forest

namespace Forest

def size : Forest → Nat
  | nil => 0
  | cons _ _ below rest => 1 + below.size + rest.size

def names : Forest → List Text
  | nil => []
  | cons name _ _ rest => name :: rest.names

def ids : Forest → List FileId64
  | nil => []
  | cons _ info below rest => info.id :: (below.ids ++ rest.ids)

/-- What a directory with this path and this id reads as. -/
def readDir (dir : Text) (parent : FileId64) : Forest → List Queued
  | nil => []
  | cons name info below rest =>
      ⟨childPath dir name, some parent, info, below⟩ :: rest.readDir dir parent

def records (dir : Text) (parent : FileId64) : Forest → List Store.FileRecord
  | nil => []
  | cons name info below rest =>
      recordForPath (childPath dir name) (some parent) info ::
        ((if info.kind = .directory then below.records (childPath dir name) info.id else []) ++
          rest.records dir parent)

theorem sum_readDir (dir : Text) (parent : FileId64) (forest : Forest) :
    ((forest.readDir dir parent).map fun queued => 1 + queued.below.size).sum = forest.size := by
  induction forest with
  | nil => rfl
  | cons name info below rest _ ih => simp [readDir, size, ih]

end Forest

section Scan

def descend (queued : Queued) : List Queued :=
  if queued.info.kind = .directory then queued.below.readDir queued.path queued.info.id else []

def scanLoop : List Queued → List Store.FileRecord
  | [] => []
  | queued :: queue =>
      recordForPath queued.path queued.parent queued.info :: scanLoop (queue ++ descend queued)
  termination_by queue => (queue.map fun queued => 1 + queued.below.size).sum
  decreasing_by
    simp only [map_append, sum_append, map_cons, sum_cons, descend]
    split
    · rw [Forest.sum_readDir]
      omega
    · simp only [map_nil, sum_nil]
      omega

/-- The records of a path and of what lies below it. -/
def subtree (queued : Queued) : List Store.FileRecord :=
  recordForPath queued.path queued.parent queued.info ::
    if queued.info.kind = .directory then queued.below.records queued.path queued.info.id else []

theorem records_eq (dir : Text) (parent : FileId64) (forest : Forest) :
    forest.records dir parent = (forest.readDir dir parent).flatMap subtree := by
  induction forest with
  | nil => rfl
  | cons name info below rest _ ih =>
      rw [Forest.records, Forest.readDir, flatMap_cons, ← ih]
      rfl

theorem scanLoop_perm (queue : List Queued) : (scanLoop queue).Perm (queue.flatMap subtree) := by
  induction queue using scanLoop.induct with
  | case1 =>
      rw [scanLoop]
      exact List.Perm.nil
  | case2 queued queue ih =>
      rw [scanLoop, flatMap_cons, subtree, cons_append]
      apply List.Perm.cons
      have below : (descend queued).flatMap subtree = if queued.info.kind = .directory then
          queued.below.records queued.path queued.info.id else [] := by
        rw [descend]
        split
        · rw [← records_eq]
        · rfl
      rw [flatMap_append, below] at ih
      exact ih.trans perm_append_comm

def ValidName (name : Text) : Prop :=
  name ≠ [] ∧ name ≠ ['.'] ∧ name ≠ ['.', '.'] ∧ '/' ∉ name

instance (name : Text) : Decidable (ValidName name) := inferInstanceAs (Decidable (_ ∧ _ ∧ _ ∧ _))

/-- Names are valid and distinct in each directory, and only a directory holds files. -/
def Forest.Named : Forest → Prop
  | .nil => True
  | .cons name info below rest =>
      (ValidName name ∧ name ∉ rest.names ∧ (info.kind ≠ .directory → below = .nil)) ∧
        below.Named ∧ rest.Named

structure FileTree where
  info : FileInfo
  forest : Forest
  directory : info.kind = .directory
  named : forest.Named
  distinct : (info.id :: forest.ids).Nodup

/-- What the names below a root go after, with a slash between; a root may end in one. -/
def childBase (root : Text) : Text := if root.getLast? = some '/' then root.dropLast else root

def FileTree.records (root : Text) (tree : FileTree) : List Store.FileRecord :=
  recordForPath root none tree.info :: tree.forest.records (childBase root) tree.info.id

/-- A path comes before another as its components do. -/
def pathLE (left right : Text) : Bool := decide (pathComponents left ≤ pathComponents right)

/-- A scan that excludes nothing and reaches everything. -/
def scanTree (root : Text) (tree : FileTree) : DirectoryPage where
  root
  -- The loop begins with the root, a directory.
  entries := (recordForPath root none tree.info ::
    scanLoop (tree.forest.readDir (childBase root) tree.info.id)).mergeSort
      fun left right => pathLE left.path right.path
  inaccessible := 0

theorem scanTree_perm {root : Text} {tree : FileTree} :
    (scanTree root tree).entries.Perm (tree.records root) := by
  have perm := scanLoop_perm (tree.forest.readDir (childBase root) tree.info.id)
  rw [← records_eq] at perm
  exact (mergeSort_perm _ _).trans (perm.cons _)

end Scan

section Paths

variable {dir name other path : Text} {parent : FileId64} {forest : Forest}

/-- A path below a directory, which is not the directory itself. -/
def Under (dir path : Text) : Prop := ∃ rest, rest ≠ [] ∧ path = dir ++ '/' :: rest

theorem under_of_below (nonempty : name ≠ []) (below : Below (childPath dir name) path) :
    Under dir path := by
  rcases below_iff.mp below with rfl | ⟨rest, rfl⟩
  · exact ⟨name, nonempty, rfl⟩
  · exact ⟨name ++ '/' :: rest, by simp, by simp [childPath]⟩

theorem below_of_under (under : Under dir path) : Below dir path := by
  rcases under with ⟨rest, _, spelled⟩
  exact below_iff.mpr (Or.inr ⟨rest, spelled⟩)

theorem below_of_childPath (below : Below (childPath dir name) path) : Below dir path := by
  rcases below_iff.mp below with rfl | ⟨rest, rfl⟩
  · exact below_iff.mpr (Or.inr ⟨name, rfl⟩)
  · exact below_iff.mpr (Or.inr ⟨name ++ '/' :: rest, by simp [childPath]⟩)

theorem not_under_self : ¬Under dir dir := by
  rintro ⟨rest, _, same⟩
  simp at same

/-- A root is not below the directories that it holds, whether or not it ends in a slash. -/
theorem not_under_root {root : Text} (below : Below (childBase root) dir) : ¬Under dir root := by
  rintro ⟨rest, nonempty, same⟩
  have filled := length_pos_iff.mpr nonempty
  have lengths := congrArg List.length same
  simp only [length_append, length_cons] at lengths
  have base : root.length ≤ (childBase root).length + 1 := by
    rw [childBase]
    split
    · rw [length_dropLast]
      omega
    · omega
  rcases below_iff.mp below with rfl | ⟨other, rfl⟩
  · omega
  · simp only [length_append, length_cons] at lengths
    omega

theorem childPath_injective (same : childPath dir name = childPath dir other) : name = other := by
  simpa [childPath] using same

theorem not_below_childPath (plain : '/' ∉ other) (differs : name ≠ other) :
    ¬Below (childPath dir name) (childPath dir other) := by
  intro below
  rcases below_iff.mp below with same | ⟨rest, same⟩
  · exact differs (childPath_injective same).symm
  · simp only [childPath, append_assoc, cons_append, append_cancel_left_eq,
      List.cons.injEq, true_and] at same
    exact plain (same ▸ mem_append_right _ mem_cons_self)

theorem apart_childPath (plain : '/' ∉ name) (plainOther : '/' ∉ other) (differs : name ≠ other)
    (below : Below (childPath dir name) path) : ¬Below (childPath dir other) path :=
  below_apart (not_below_childPath plainOther differs)
    (not_below_childPath plain differs.symm) below

theorem Forest.Named.valid (named : forest.Named) (listed : name ∈ forest.names) :
    ValidName name := by
  induction forest with
  | nil => cases listed
  | cons first info below rest _ ih =>
      rcases mem_cons.mp listed with rfl | listed
      · exact named.1.1
      · exact ih named.2.2 listed

theorem Forest.Named.plain (named : forest.Named) (listed : name ∈ forest.names) : '/' ∉ name :=
  (named.valid listed).2.2.2

/-- Every record of a directory is of one of its files or below it. -/
theorem exists_name_of_mem {record : Store.FileRecord} {forest : Forest} :
    ∀ {dir : Text} {parent : FileId64}, record ∈ forest.records dir parent →
      ∃ name ∈ forest.names, Below (childPath dir name) record.path := by
  induction forest with
  | nil =>
      intro dir parent member
      cases member
  | cons first info below rest ihBelow ihRest =>
      intro dir parent member
      rw [Forest.records] at member
      rcases mem_cons.mp member with rfl | member
      · exact ⟨first, mem_cons_self, Or.inl rfl⟩
      · rcases mem_append.mp member with inner | later
        · refine ⟨first, mem_cons_self, ?_⟩
          split at inner
          · rcases ihBelow inner with ⟨name, _, belowName⟩
            exact below_of_childPath belowName
          · cases inner
        · rcases ihRest later with ⟨name, listed, belowName⟩
          exact ⟨name, mem_cons_of_mem first listed, belowName⟩

theorem below_of_mem {record : Store.FileRecord} (member : record ∈ forest.records dir parent) :
    Below dir record.path := by
  rcases exists_name_of_mem member with ⟨name, _, below⟩
  exact below_of_childPath below

theorem under_of_mem {record : Store.FileRecord} (named : forest.Named)
    (member : record ∈ forest.records dir parent) : Under dir record.path := by
  rcases exists_name_of_mem member with ⟨name, listed, below⟩
  exact under_of_below (named.valid listed).1 below

theorem below_of_mem_subtree {record : Store.FileRecord} {queued : Queued}
    (member : record ∈ subtree queued) : Below queued.path record.path := by
  rw [subtree] at member
  rcases mem_cons.mp member with rfl | inner
  · exact Or.inl rfl
  · split at inner
    · exact below_of_mem inner
    · cases inner

theorem Forest.records_cons (info : FileInfo) (below rest : Forest) :
    (Forest.cons name info below rest).records dir parent =
      subtree ⟨childPath dir name, some parent, info, below⟩ ++ rest.records dir parent := by
  rw [Forest.records]
  rfl

/-- The records of a file are those at or below its path. -/
theorem mem_subtree_iff {info : FileInfo} {below rest : Forest} {record : Store.FileRecord}
    (named : (Forest.cons name info below rest).Named) :
    (record ∈ subtree ⟨childPath dir name, some parent, info, below⟩ ↔
        record ∈ (Forest.cons name info below rest).records dir parent ∧
          Below (childPath dir name) record.path) ∧
      (record ∈ rest.records dir parent ↔
        record ∈ (Forest.cons name info below rest).records dir parent ∧
          ¬Below (childPath dir name) record.path) := by
  have first : record ∈ subtree ⟨childPath dir name, some parent, info, below⟩ →
      Below (childPath dir name) record.path := below_of_mem_subtree
  have later : record ∈ rest.records dir parent → ¬Below (childPath dir name) record.path := by
    intro member
    rcases exists_name_of_mem member with ⟨other, listed, belowOther⟩
    refine apart_childPath (named.2.2.plain listed) named.1.1.2.2.2 ?_ belowOther
    rintro rfl
    exact named.1.2.1 listed
  rw [Forest.records_cons, mem_append]
  tauto

end Paths

section Directories

open Forest

variable {dir path : Text} {parent id : FileId64} {sub : Forest}

/-- The forest with a change to the files of the directory at a location. -/
def Forest.editAt (change : Forest → Forest) : List Text → Forest → Forest
  | [], forest => change forest
  | _ :: _, .nil => .nil
  | name :: location, .cons other info below rest =>
      if other = name then .cons other info (below.editAt change location) rest
      else .cons other info below (rest.editAt change (name :: location))

/-- The path, the id and the files of the directory at a location. -/
def Forest.directoryAt (dir : Text) (parent : FileId64) :
    List Text → Forest → Option (Text × FileId64 × Forest)
  | [], forest => some (dir, parent, forest)
  | _ :: _, .nil => none
  | name :: location, .cons other info below rest =>
      if other = name then
        if info.kind = .directory then
          below.directoryAt (childPath dir name) info.id location
        else none
      else rest.directoryAt dir parent (name :: location)

@[simp]
theorem editAt_here (change : Forest → Forest) (forest : Forest) :
    forest.editAt change [] = change forest := by
  cases forest <;> rfl

@[simp]
theorem directoryAt_here (forest : Forest) :
    forest.directoryAt dir parent [] = some (dir, parent, forest) := by
  cases forest <;> rfl

theorem path_directoryAt {forest : Forest} :
    ∀ {location : List Text} {dir : Text} {parent : FileId64},
      forest.directoryAt dir parent location = some (path, id, sub) →
        path = location.foldl childPath dir := by
  induction forest with
  | nil =>
      intro location dir parent found
      cases location with
      | nil =>
          cases found
          rfl
      | cons name location => cases found
  | cons other info below rest ihBelow ihRest =>
      intro location dir parent found
      cases location with
      | nil =>
          cases found
          rfl
      | cons name location =>
          rw [directoryAt] at found
          split at found
          · split at found
            · have inner := ihBelow found
              exact inner
            · cases found
          · exact ihRest found

theorem mem_names_of_directoryAt {name : Text} {location : List Text} {forest : Forest}
    (found : forest.directoryAt dir parent (name :: location) = some (path, id, sub)) :
    name ∈ forest.names := by
  induction forest with
  | nil => cases found
  | cons other info below rest _ ih =>
      rw [directoryAt] at found
      split at found
      case isTrue same =>
        rw [same]
        exact mem_cons_self
      case isFalse => exact mem_cons_of_mem other (ih found)

theorem below_foldl_childPath (location : List Text) : ∀ dir : Text,
    Below dir (location.foldl childPath dir) := by
  induction location with
  | nil => exact fun dir => Or.inl rfl
  | cons name location ih =>
      intro dir
      have inner := ih (childPath dir name)
      exact below_of_childPath inner

theorem below_trans {first second third : Text} (below : Below first second)
    (inner : Below second third) : Below first third := by
  rcases below_iff.mp inner with rfl | ⟨rest, rfl⟩
  · exact below
  · rcases below_iff.mp below with rfl | ⟨other, rfl⟩
    · exact inner
    · exact below_iff.mpr (Or.inr ⟨other ++ '/' :: rest, by simp⟩)

theorem not_under_of_below {first second : Text} (below : Below first second) :
    ¬Under second first := by
  rintro ⟨rest, _, same⟩
  rcases below_iff.mp below with rfl | ⟨other, rfl⟩
  · simp at same
  · have lengths := congrArg List.length same
    simp only [length_append, length_cons] at lengths
    omega

theorem directoryAt_editAt {change : Forest → Forest} {forest : Forest} :
    ∀ {location : List Text} {dir : Text} {parent : FileId64},
      forest.directoryAt dir parent location = some (path, id, sub) →
        (forest.editAt change location).directoryAt dir parent location =
          some (path, id, change sub) := by
  induction forest with
  | nil =>
      intro location dir parent found
      cases location with
      | nil =>
          cases found
          rw [editAt_here, directoryAt_here]
      | cons name location => cases found
  | cons other info below rest ihBelow ihRest =>
      intro location dir parent found
      cases location with
      | nil =>
          cases found
          rw [editAt_here, directoryAt_here]
      | cons name location =>
          rw [directoryAt] at found
          rw [editAt]
          by_cases same : other = name
          · simp only [same, if_true, directoryAt] at found ⊢
            split at found
            case isTrue isDirectory =>
              rw [if_pos isDirectory]
              exact ihBelow found
            case isFalse => cases found
          · simp only [same, if_false, directoryAt] at found ⊢
            exact ihRest found

theorem editAt_editAt {change second : Forest → Forest} {forest : Forest} :
    ∀ {location : List Text}, (forest.editAt change location).editAt second location =
      forest.editAt (fun files => second (change files)) location := by
  induction forest with
  | nil =>
      intro location
      cases location with
      | nil => simp
      | cons name location => rfl
  | cons other info below rest ihBelow ihRest =>
      intro location
      cases location with
      | nil => simp
      | cons name location =>
          rw [editAt, editAt]
          by_cases same : other = name
          · simp only [same, if_true, editAt, ihBelow]
          · simp only [same, if_false, editAt, ihRest]

/-- The records under a directory are those of its files, and a change to them leaves the other
records as they are. -/
theorem directoryAt_spec (change : Forest → Forest) {forest : Forest} :
    ∀ {location : List Text} {dir : Text} {parent : FileId64}, forest.Named →
      forest.directoryAt dir parent location = some (path, id, sub) →
        sub.Named ∧ ∀ record,
          (record ∈ sub.records path id ↔
            record ∈ forest.records dir parent ∧ Under path record.path) ∧
          (record ∈ (forest.editAt change location).records dir parent ↔
            (record ∈ forest.records dir parent ∧ ¬Under path record.path) ∨
              record ∈ (change sub).records path id) := by
  have whole : ∀ {forest : Forest} {dir : Text} {parent : FileId64}, forest.Named →
      forest.directoryAt dir parent [] = some (path, id, sub) →
        sub.Named ∧ ∀ record,
          (record ∈ sub.records path id ↔
            record ∈ forest.records dir parent ∧ Under path record.path) ∧
          (record ∈ (forest.editAt change []).records dir parent ↔
            (record ∈ forest.records dir parent ∧ ¬Under path record.path) ∨
              record ∈ (change sub).records path id) := by
    intro forest dir parent named found
    rw [directoryAt_here] at found
    cases found
    refine ⟨named, ?_⟩
    intro record
    have under : record ∈ sub.records path id → Under path record.path := under_of_mem named
    rw [editAt_here]
    refine ⟨⟨fun member => ⟨member, under member⟩, And.left⟩, Or.inr, ?_⟩
    rintro (⟨member, outside⟩ | changed)
    · exact absurd (under member) outside
    · exact changed
  induction forest with
  | nil =>
      intro location dir parent named found
      cases location with
      | nil => exact whole named found
      | cons name location => cases found
  | cons other info below rest ihBelow ihRest =>
      intro location dir parent named found
      cases location with
      | nil => exact whole named found
      | cons name location =>
          have place := path_directoryAt found
          have inside : Below (childPath dir name) path := by
            rw [place]
            exact below_foldl_childPath location (childPath dir name)
          rw [directoryAt] at found
          rw [editAt]
          by_cases same : other = name
          · subst same
            simp only [if_true] at found ⊢
            split at found
            case isFalse => cases found
            case isTrue isDirectory =>
              rcases ihBelow named.2.1 found with ⟨subNamed, inner⟩
              refine ⟨subNamed, ?_⟩
              intro record
              rcases inner record with ⟨held, edited⟩
              have self : record = recordForPath (childPath dir other) (some parent) info →
                  ¬Under path record.path := by
                rintro rfl
                exact not_under_of_below inside
              have later : record ∈ rest.records dir parent → ¬Under path record.path := by
                intro member under
                exact ((mem_subtree_iff named).2.mp member).2
                  (below_trans inside (below_of_under under))
              simp only [Forest.records, if_pos isDirectory, mem_cons, mem_append]
              rw [held, edited]
              grind
          · simp only [same, if_false] at found ⊢
            rcases ihRest named.2.2 found with ⟨subNamed, inner⟩
            refine ⟨subNamed, ?_⟩
            intro record
            rcases inner record with ⟨held, edited⟩
            have first : record ∈ subtree ⟨childPath dir other, some parent, info, below⟩ →
                ¬Under path record.path := by
              intro member under
              have listed : name ∈ rest.names := mem_names_of_directoryAt found
              exact apart_childPath named.1.1.2.2.2 (named.2.2.plain listed) same
                (below_of_mem_subtree member) (below_trans inside (below_of_under under))
            rw [records_cons, records_cons, mem_append, mem_append, held,
              edited]
            grind

end Directories

section Files

open Forest

variable {dir name path : Text} {id : FileId64} {forest : Forest} {record : Store.FileRecord}

namespace Forest

/-- A file of a directory, with what is below it. -/
def find (name : Text) : Forest → Option (FileInfo × Forest)
  | nil => none
  | cons other info below rest => if other = name then some (info, below) else rest.find name

def erase (name : Text) : Forest → Forest
  | nil => nil
  | cons other info below rest =>
      if other = name then rest else cons other info below (rest.erase name)

def setInfo (name : Text) (info : FileInfo) : Forest → Forest
  | nil => nil
  | cons other old below rest =>
      if other = name then cons other info below rest
      else cons other old below (rest.setInfo name info)

def snoc (forest : Forest) (name : Text) (info : FileInfo) (below : Forest) : Forest :=
  match forest with
  | nil => cons name info below nil
  | cons other old inner rest => cons other old inner (rest.snoc name info below)

end Forest

theorem find_erase {other : Text} (differs : name ≠ other) :
    (forest.erase name).find other = forest.find other := by
  induction forest with
  | nil => rfl
  | cons first info below rest _ ih =>
      rw [Forest.erase]
      split
      case isTrue same => rw [Forest.find, if_neg (same ▸ differs)]
      case isFalse =>
        rw [Forest.find, Forest.find, ih]

theorem names_erase_subset {other : Text} (listed : other ∈ (forest.erase name).names) :
    other ∈ forest.names := by
  induction forest with
  | nil => exact listed
  | cons first info below rest _ ih =>
      rw [Forest.erase] at listed
      split at listed
      · exact mem_cons_of_mem first listed
      · rcases mem_cons.mp listed with rfl | listed
        · exact mem_cons_self
        · exact mem_cons_of_mem first (ih listed)

theorem Forest.Named.erase (named : forest.Named) (name : Text) : (forest.erase name).Named := by
  induction forest with
  | nil => exact named
  | cons first info below rest _ ih =>
      rw [Forest.erase]
      split
      · exact named.2.2
      · refine ⟨⟨named.1.1, fun listed => named.1.2.1 (names_erase_subset listed), named.1.2.2⟩,
          named.2.1, ih named.2.2⟩

theorem mem_names_snoc {info : FileInfo} {below : Forest} :
    name ∈ (forest.snoc name info below).names := by
  induction forest with
  | nil => exact mem_cons_self
  | cons first _ _ rest _ ih => exact mem_cons_of_mem first ih

theorem mem_names_of_find {info : FileInfo} {below : Forest}
    (found : forest.find name = some (info, below)) : name ∈ forest.names := by
  induction forest with
  | nil => cases found
  | cons other old inner rest _ ih =>
      rw [Forest.find] at found
      split at found
      case isTrue same =>
        rw [same]
        exact mem_cons_self
      case isFalse => exact mem_cons_of_mem other (ih found)

theorem not_below_of_mem_rest {other : Text} {info : FileInfo} {below rest : Forest}
    (named : (Forest.cons other info below rest).Named)
    (member : record ∈ rest.records dir id) : ¬Below (childPath dir other) record.path :=
  ((mem_subtree_iff named).2.mp member).2

/-- The records of a file are those of its directory at or below its path. -/
theorem mem_subtree_find {info : FileInfo} {below : Forest} (named : forest.Named)
    (found : forest.find name = some (info, below)) :
    record ∈ subtree ⟨childPath dir name, some id, info, below⟩ ↔
      record ∈ forest.records dir id ∧ Below (childPath dir name) record.path := by
  induction forest with
  | nil => cases found
  | cons other old inner rest _ ih =>
      have listed := mem_names_of_find found
      rw [Forest.find] at found
      split at found
      case isTrue same =>
        cases found
        subst same
        exact (mem_subtree_iff named).1
      case isFalse differs =>
        rw [ih named.2.2 found, records_cons, mem_append]
        constructor
        · exact fun both => ⟨Or.inr both.1, both.2⟩
        · rintro ⟨first | later, below⟩
          · have plain := named.plain listed
            exact absurd below (apart_childPath named.1.1.2.2.2 plain differs
              (below_of_mem_subtree first))
          · exact ⟨later, below⟩

/-- A record at or below the path of a file is of that file. -/
theorem exists_find_of_below (named : forest.Named) (plain : '/' ∉ name)
    (member : record ∈ forest.records dir id) (below : Below (childPath dir name) record.path) :
    ∃ info inner, forest.find name = some (info, inner) ∧
      record ∈ subtree ⟨childPath dir name, some id, info, inner⟩ := by
  induction forest with
  | nil => cases member
  | cons other info inner rest _ ih =>
      rw [Forest.find]
      by_cases same : other = name
      · subst same
        exact ⟨info, inner, if_pos rfl, (mem_subtree_iff named).1.mpr ⟨member, below⟩⟩
      · rw [if_neg same]
        rw [records_cons] at member
        rcases mem_append.mp member with first | later
        · exact absurd below (apart_childPath named.1.1.2.2.2 plain same
            (below_of_mem_subtree first))
        · exact ih named.2.2 later

theorem mem_records_erase (named : forest.Named) (plain : '/' ∉ name) :
    record ∈ (forest.erase name).records dir id ↔
      record ∈ forest.records dir id ∧ ¬Below (childPath dir name) record.path := by
  induction forest with
  | nil => exact iff_of_false not_mem_nil fun both => not_mem_nil both.1
  | cons other old inner rest _ ih =>
      rw [Forest.erase]
      split
      case isTrue same =>
        subst same
        exact (mem_subtree_iff named).2
      case isFalse differs =>
        rw [records_cons, records_cons, mem_append, mem_append,
          ih named.2.2]
        have first : record ∈ subtree ⟨childPath dir other, some id, old, inner⟩ →
            ¬Below (childPath dir name) record.path := fun member =>
          apart_childPath named.1.1.2.2.2 plain differs (below_of_mem_subtree member)
        tauto

theorem mem_records_snoc {info : FileInfo} {below : Forest} :
    record ∈ (forest.snoc name info below).records dir id ↔
      record ∈ forest.records dir id ∨
        record ∈ subtree ⟨childPath dir name, some id, info, below⟩ := by
  induction forest with
  | nil => simp [Forest.snoc, records_cons, Forest.records]
  | cons other old inner rest _ ih =>
      rw [Forest.snoc, records_cons, records_cons, mem_append, mem_append,
        ih]
      exact or_assoc.symm

/-- New metadata for a file changes its own record only. -/
theorem mem_records_setInfo {old info : FileInfo} {below : Forest} (named : forest.Named)
    (found : forest.find name = some (old, below)) (sameId : old.id = info.id)
    (sameKind : old.kind = info.kind) :
    record ∈ (forest.setInfo name info).records dir id ↔
      (record ∈ forest.records dir id ∧ record.path ≠ childPath dir name) ∨
        record = recordForPath (childPath dir name) (some id) info := by
  induction forest with
  | nil => cases found
  | cons other first inner rest _ ih =>
      have listed := mem_names_of_find found
      rw [Forest.find] at found
      rw [Forest.setInfo]
      by_cases same : other = name
      · subst same
        simp only [if_true, Option.some.injEq, Prod.mk.injEq] at found ⊢
        rcases found with ⟨rfl, rfl⟩
        have later : record ∈ rest.records dir id → record.path ≠ childPath dir other :=
          fun member at' => not_below_of_mem_rest named member (Or.inl at')
        have deeper : record ∈ (if first.kind = .directory then
            inner.records (childPath dir other) first.id else []) →
              record.path ≠ childPath dir other := by
          intro member at'
          split at member
          · exact not_under_self (at' ▸ under_of_mem named.2.1 member)
          · cases member
        simp only [Forest.records, ← sameId, ← sameKind, mem_cons, mem_append]
        constructor
        · rintro (isNew | inner | inRest)
          · exact Or.inr isNew
          · exact Or.inl ⟨Or.inr (Or.inl inner), deeper inner⟩
          · exact Or.inl ⟨Or.inr (Or.inr inRest), later inRest⟩
        · rintro (⟨self | kept, elsewhere⟩ | isNew)
          · exact absurd (congrArg Store.FileRecord.path self) elsewhere
          · exact Or.inr kept
          · exact Or.inl isNew
      · simp only [same, if_false] at found ⊢
        rw [records_cons, records_cons, mem_append, mem_append,
          ih named.2.2 found]
        have plain := named.plain listed
        have before : record ∈ subtree ⟨childPath dir other, some id, first, inner⟩ →
            record.path ≠ childPath dir name := fun member at' =>
          apart_childPath named.1.1.2.2.2 plain same (below_of_mem_subtree member) (Or.inl at')
        constructor
        · rintro (first | ⟨kept, elsewhere⟩ | isNew)
          · exact Or.inl ⟨Or.inl first, before first⟩
          · exact Or.inl ⟨Or.inr kept, elsewhere⟩
          · exact Or.inr isNew
        · rintro (⟨first | kept, elsewhere⟩ | isNew)
          · exact Or.inl first
          · exact Or.inr (Or.inl ⟨kept, elsewhere⟩)
          · exact Or.inr (Or.inr isNew)

end Files

end Gfm.Index

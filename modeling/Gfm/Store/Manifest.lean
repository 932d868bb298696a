import Gfm.Lib.Sorted
import Gfm.Search.Columns
import Gfm.Store.ContentMerge

/-!
# Content manifests

A manifest lists archives by paths, absolute ones or ones that count from the directory of the
manifest. The promotion, the cleanup and the recovery share it: the first two know a path by its
components, the recovery by its text too.
-/

namespace Gfm.Store

open List

inductive ArchivePath where
  | absolute (components : Path)
  | relative (components : Path)
  deriving DecidableEq, Repr

namespace ArchivePath

/-- The components that a path orders by: the root, then `.`, `..` and the names. -/
def sortKey : ArchivePath → List (List Nat)
  | .absolute components => [0] :: components.map component
  | .relative components => components.map component
where
  component (name : Name) : List Nat :=
    if name = "." then [1] else if name = ".." then [2] else 3 :: name.toList.map Char.toNat

theorem component_injective : Function.Injective sortKey.component := by
  intro left right same
  unfold sortKey.component at same
  split at same
  case isTrue leftDot =>
    split at same
    case isTrue rightDot => exact leftDot.trans rightDot.symm
    case isFalse _ => split at same <;> simp at same
  case isFalse _ =>
    split at same
    case isTrue leftDots =>
      split at same
      case isTrue _ => simp at same
      case isFalse _ =>
        split at same
        case isTrue rightDots => exact leftDots.trans rightDots.symm
        case isFalse _ => simp at same
    case isFalse _ =>
      split at same
      case isTrue _ => simp at same
      case isFalse _ =>
        split at same
        case isTrue _ => simp at same
        case isFalse _ =>
          have chars : left.toList.map Char.toNat = right.toList.map Char.toNat :=
            (List.cons.inj same).2
          have injective : Function.Injective Char.toNat := fun _ _ same => Char.toNat_inj.mp same
          exact String.toList_injective (map_injective_iff.mpr injective chars)

theorem sortKey_injective : Function.Injective sortKey := by
  have root : ∀ name, sortKey.component name ≠ [0] := by
    intro name
    unfold sortKey.component
    split
    · simp
    · split <;> simp
  intro left right same
  cases left with
  | absolute left =>
      cases right with
      | absolute right =>
          have rest := (List.cons.inj same).2
          rw [map_injective_iff.mpr component_injective rest]
      | relative right =>
          cases right with
          | nil => cases same
          | cons name right => exact absurd (List.cons.inj same).1.symm (root name)
  | relative left =>
      cases right with
      | absolute right =>
          cases left with
          | nil => cases same
          | cons name left => exact absurd (List.cons.inj same).1 (root name)
      | relative right => rw [map_injective_iff.mpr component_injective same]

instance : Ord ArchivePath := ⟨compareOn sortKey⟩

instance : Std.TransOrd ArchivePath := inferInstanceAs (Std.TransCmp (compareOn sortKey))

instance : Std.LawfulEqOrd ArchivePath where
  eq_of_compare same := sortKey_injective (Std.LawfulEqOrd.eq_of_compare same)

def isAbsolute : ArchivePath → Bool
  | .absolute _ => true
  | .relative _ => false

def parent : ArchivePath → Option ArchivePath
  | .absolute components => (Path.parent components).map .absolute
  | .relative components => (Path.parent components).map .relative

/-- `.` stays a component at the front of a relative path only. -/
def join (base path : ArchivePath) : ArchivePath :=
  match base, path with
  | _, .absolute components => .absolute components
  | .absolute base, .relative components =>
      .absolute (base ++ components.dropWhile fun name => name = ".")
  | .relative [], .relative components => .relative components
  | .relative (name :: base), .relative components =>
      .relative (name :: base ++ components.dropWhile fun name => name = ".")

def components : ArchivePath → Path
  | .absolute components => components
  | .relative components => components

def fileName (path : ArchivePath) : Option Name :=
  path.components.getLast?.filter fun name => name ≠ "." ∧ name ≠ ".."

theorem fileName_join {base : ArchivePath} {name : Name} (here : name ≠ ".") (up : name ≠ "..") :
    (base.join (.relative [name])).fileName = some name := by
  have kept : ([name] : Path).dropWhile (fun name => name = ".") = [name] := by simp [here]
  have last (names : Path) : (names ++ [name]).getLast? = some name := getLast?_concat
  rcases base with base | base
  · simp [join, fileName, components, kept, here, up]
  · cases base with
    | nil => simp [join, fileName, components, here, up]
    | cons first base =>
        simp only [join, fileName, components, kept, last]
        simp [here, up]

/-- The text of a path in an error message. -/
def display : ArchivePath → String
  | .absolute components => Path.display components
  | .relative components => "/".intercalate components

/-- The components that a path is compared by. -/
def ofText (text : Text) : ArchivePath :=
  match Search.pathComponents text with
  | ['/'] :: names => .absolute (names.map String.ofList)
  | names => .relative (names.map String.ofList)

end ArchivePath

/-- A relative path counts from the directory of the manifest. -/
def resolveManifestPath (manifestPath path : ArchivePath) : ArchivePath :=
  if path.isAbsolute then path
  else
    match manifestPath.parent with
    | some parent => parent.join path
    | none => path

/-- An archive of a manifest, by a spelling of its path. -/
structure ManifestEntry (Spelling : Type) where
  tier : ContentMergeTier
  path : Spelling
  deriving DecidableEq, Repr

structure Manifest (Spelling : Type) where
  archives : List (ManifestEntry Spelling)
  deriving DecidableEq, Repr

abbrev ContentArchiveManifestEntry := ManifestEntry ArchivePath

abbrev ContentArchiveManifest := Manifest ArchivePath

section Repeats

variable {Item Key : Type} [DecidableEq Key] (key : Item → Key) (items : List Item)

/-- The first item whose key an earlier one has, and its place. -/
def firstRepeat : Option (Item × Nat) :=
  items.zipIdx.find? fun (item, place) => key item ∈ (items.take place).map key

theorem firstRepeat_eq_none : firstRepeat key items = none ↔ (items.map key).Nodup := by
  simp only [firstRepeat, find?_eq_none, decide_eq_true_eq, Prod.forall,
    mem_zipIdx_iff_getElem?]
  rw [nodup_iff_getElem?_ne_getElem?]
  constructor
  · intro fresh left right lower inside same
    rw [length_map] at inside
    refine fresh items[right] right (getElem?_eq_getElem inside) ?_
    rw [getElem?_map, getElem?_map, getElem?_eq_getElem inside,
      getElem?_eq_getElem (lower.trans inside), Option.map_some, Option.map_some] at same
    rw [← Option.some.inj same, map_take]
    exact mem_take_iff_getElem.mpr ⟨left, by simp; omega, by simp⟩
  · intro distinct item place known repeated
    rw [map_take] at repeated
    rcases mem_take_iff_getElem.mp repeated with ⟨earlier, inside, same⟩
    have listed : place < items.length := (List.getElem?_eq_some_iff.mp known).1
    refine distinct earlier place (by omega) (by rwa [length_map]) ?_
    rw [getElem?_eq_getElem (by rw [length_map]; omega), same, getElem?_map, known,
      Option.map_some]

end Repeats

namespace Manifest

variable {Spelling : Type} (compared : Spelling → ArchivePath) (shown : Spelling → String)
  (archives : List (ManifestEntry Spelling))

def new : Except GfmError (Manifest Spelling) :=
  if archives = [] then .error (.format "content manifest requires at least one archive")
  else
    match firstRepeat (fun entry => compared entry.path) archives with
    | some (entry, _) => .error (.format ("content manifest has duplicate archive path \x60" ++
        shown entry.path ++ "\x60"))
    | none => .ok ⟨archives⟩

variable {compared shown archives}

theorem new_eq_ok {manifest : Manifest Spelling} :
    new compared shown archives = .ok manifest ↔ archives ≠ [] ∧
      (archives.map fun entry => compared entry.path).Nodup ∧ manifest = ⟨archives⟩ := by
  rw [new, ← firstRepeat_eq_none fun entry : ManifestEntry Spelling => compared entry.path]
  by_cases none : archives = []
  · simp [none]
  · rw [if_neg none]
    cases firstRepeat (fun entry => compared entry.path) archives with
    | some repeated => simp
    | none => simp [none, eq_comm]

end Manifest

end Gfm.Store

import Gfm.Search.Columns
import Gfm.Store.FileIds
import Gfm.Lib.Selection

/-!
# Hits and their order

Hits come in the order of their scores, the highest first; equal scores are told apart by the
name, the path and the id. The merge lets up to twice as many hits gather as are wanted before it
cuts back. Whatever is cut off that way, and in whatever order the hits arrive, the best remain.
-/

namespace Gfm.Search

open Selection Sorted Std Store

inductive MatchReason where
  | exactName
  | prefixName
  | substringName
  | extension
  | pathComponent
  | tag
  | content
  | fuzzyName
  deriving DecidableEq

/-- A hit of the index has no snippet. -/
structure SearchHit where
  record : FileRecord
  score : Int
  reason : MatchReason
  deriving DecidableEq

/-- The score is negated, so that the highest comes first. -/
structure SearchHitSortKey where
  score : Int
  name : Text
  path : Text
  id : FileId

instance : Ord SearchHitSortKey :=
  ⟨compareLex (compareOn SearchHitSortKey.score) (compareLex (compareOn SearchHitSortKey.name)
    (compareLex (compareOn SearchHitSortKey.path) (compareOn SearchHitSortKey.id)))⟩

instance : TransOrd SearchHitSortKey :=
  inferInstanceAs (TransCmp (compareLex (compareOn SearchHitSortKey.score)
    (compareLex (compareOn SearchHitSortKey.name)
      (compareLex (compareOn SearchHitSortKey.path) (compareOn SearchHitSortKey.id)))))

instance : LawfulEqOrd SearchHitSortKey where
  eq_of_compare {left right} same := by
    rcases left with ⟨leftScore, leftName, leftPath, leftId⟩
    rcases right with ⟨rightScore, rightName, rightPath, rightId⟩
    rcases Ordering.then_eq_eq.mp same with ⟨score, later⟩
    rcases Ordering.then_eq_eq.mp later with ⟨name, rest⟩
    rcases Ordering.then_eq_eq.mp rest with ⟨path, id⟩
    rw [SearchHitSortKey.mk.injEq]
    exact ⟨LawfulEqOrd.eq_of_compare score, LawfulEqOrd.eq_of_compare name,
      LawfulEqOrd.eq_of_compare path, LawfulEqOrd.eq_of_compare id⟩

variable (unicode : Unicode)

def SearchHitSortKey.fromHit (hit : SearchHit) : SearchHitSortKey :=
  ⟨-hit.score, unicode.toLowercase hit.record.name, hit.record.path, hit.record.id⟩

structure BoundedHitMerge where
  limit : Nat
  hits : List SearchHit

namespace BoundedHitMerge

variable (merge : BoundedHitMerge)

def empty (limit : Nat) : BoundedHitMerge := ⟨limit, []⟩

/-- A merge takes a buffer for all hits that are wanted, and panics if its bytes are more than an
allocation can have. How many bytes a hit with its key has is left open. -/
def new (hitSize limit : Nat) : Option BoundedHitMerge :=
  if isizeMax < limit * hitSize then none else some (empty limit)

def trim : BoundedHitMerge :=
  { merge with hits := (sortByKey (SearchHitSortKey.fromHit unicode) merge.hits).take merge.limit }

/-- The bound saturates at the largest `usize`. -/
def push (hit : SearchHit) : BoundedHitMerge :=
  if merge.limit = 0 then merge
  else
    let pushed := { merge with hits := merge.hits ++ [hit] }
    if min (merge.limit * 2) (2 ^ 64 - 1) < pushed.hits.length then pushed.trim unicode
    else pushed

def extend (hits : List SearchHit) : BoundedHitMerge := hits.foldl (push unicode) merge

def intoSortedHits : List SearchHit := (merge.trim unicode).hits

end BoundedHitMerge

/-- The hits of a merge that got its buffer. -/
def topHits (hits : List SearchHit) (limit : Nat) : List SearchHit :=
  ((BoundedHitMerge.empty limit).extend unicode hits).intoSortedHits unicode

section Order

open SearchHitSortKey

variable {unicode : Unicode} {hits : List SearchHit}

/-- Hits of different records have different keys. -/
theorem nodup_keys (distinct : (hits.map fun hit => hit.record.id).Nodup) :
    (hits.map (fromHit unicode)).Nodup := by
  refine List.Nodup.of_map SearchHitSortKey.id ?_
  rw [List.map_map]
  exact distinct

namespace BoundedHitMerge

theorem limit_push (merge : BoundedHitMerge) (hit : SearchHit) :
    (merge.push unicode hit).limit = merge.limit := by
  rw [push]
  split
  case isTrue => rfl
  case isFalse =>
    dsimp only
    split
    case isTrue => rfl
    case isFalse => rfl

/-- Whether a push cuts back or not, the best hits are kept. -/
theorem keeps_push {merge : BoundedHitMerge} {seen : List SearchHit} {hit : SearchHit}
    (keeps : Keeps (fromHit unicode) merge.limit seen merge.hits)
    (new : ((seen ++ [hit]).map (fromHit unicode)).Nodup) :
    Keeps (fromHit unicode) merge.limit (seen ++ [hit])
      (merge.push unicode hit).hits := by
  have pushed := keeps.push new
  rw [push]
  split
  case isTrue zero =>
    refine ⟨new, keeps.distinct, fun other listed => ?_, fun other early => ?_⟩
    · exact List.mem_append_left _ (keeps.inside other listed)
    · rw [zero, List.take_zero] at early
      cases early
  case isFalse =>
    dsimp only
    split
    case isTrue => exact pushed.trim
    case isFalse => exact pushed

theorem keeps_extend {merge : BoundedHitMerge} {seen : List SearchHit}
    (keeps : Keeps (fromHit unicode) merge.limit seen merge.hits)
    (new : ((seen ++ hits).map (fromHit unicode)).Nodup) :
    Keeps (fromHit unicode) merge.limit (seen ++ hits)
      (merge.extend unicode hits).hits := by
  induction hits generalizing merge seen with
  | nil =>
      rw [List.append_nil]
      exact keeps
  | cons hit hits ih =>
      have split : seen ++ hit :: hits = (seen ++ [hit]) ++ hits := by
        rw [List.append_assoc, List.singleton_append]
      rw [split] at new ⊢
      have first : ((seen ++ [hit]).map (fromHit unicode)).Nodup := by
        rw [List.map_append] at new
        exact (List.nodup_append.mp new).1
      have pushed := keeps_push keeps first
      rw [← limit_push merge hit] at pushed ⊢
      exact ih pushed new

theorem limit_extend (merge : BoundedHitMerge) :
    (merge.extend unicode hits).limit = merge.limit := by
  induction hits generalizing merge with
  | nil => rfl
  | cons hit hits ih => exact (ih (merge.push unicode hit)).trans (limit_push merge hit)

end BoundedHitMerge

/-- The merge gives the best hits. -/
theorem topHits_eq (distinct : (hits.map fun hit => hit.record.id).Nodup) (limit : Nat) :
    topHits unicode hits limit =
      (sortByKey (fromHit unicode) hits).take limit := by
  have keeps := @BoundedHitMerge.keeps_extend unicode hits (BoundedHitMerge.empty limit) []
    Keeps.nil (nodup_keys distinct)
  have kept := keeps.take_sortByKey
  rw [List.nil_append] at kept
  rw [topHits, BoundedHitMerge.intoSortedHits, BoundedHitMerge.trim,
    BoundedHitMerge.limit_extend]
  exact kept

/-- Fewer hits of the same are the first of more. -/
theorem topHits_take (distinct : (hits.map fun hit => hit.record.id).Nodup) {fewer more : Nat}
    (within : fewer ≤ more) :
    topHits unicode hits fewer = (topHits unicode hits more).take fewer := by
  rw [topHits_eq distinct, topHits_eq distinct, List.take_take, Nat.min_eq_left within]

/-- The order in which the hits arrive does not matter. -/
theorem topHits_perm {others : List SearchHit}
    (distinct : (hits.map fun hit => hit.record.id).Nodup) (perm : hits.Perm others)
    (limit : Nat) : topHits unicode hits limit = topHits unicode others limit := by
  rw [topHits_eq distinct, topHits_eq ((perm.map _).nodup_iff.mp distinct),
    sortByKey_eq_of_perm (nodup_keys distinct) perm]

/-- A merge that was pushed hits of different records has the first hits of their full sorted
list, whatever the order of the pushes, if it gets its buffer. -/
theorem intoSortedHits_pushes_iff {pushed : List SearchHit}
    (distinct : (hits.map fun hit => hit.record.id).Nodup) (perm : pushed.Perm hits)
    (hitSize limit : Nat) :
    (BoundedHitMerge.new hitSize limit).map
          (fun merge =>
            (pushed.foldl (BoundedHitMerge.push unicode) merge).intoSortedHits unicode) =
        some ((sortByKey (fromHit unicode) hits).take limit) ↔
      limit * hitSize ≤ isizeMax := by
  rw [BoundedHitMerge.new]
  split
  case isTrue large => exact iff_of_false nofun large.not_ge
  case isFalse fits =>
    have best := @topHits_eq unicode hits distinct limit
    have same := @topHits_perm unicode hits pushed distinct perm.symm limit
    exact iff_of_true (congrArg some (same.symm.trans best)) (Nat.not_lt.mp fits)

end Order

/-- A hit of the file of this number, which is named `a`. -/
def plainHit (node : Nat) (score : Int) : SearchHit where
  record := ⟨⟨⟨1⟩, node⟩, ['a'], ['a'], .file, 0, none, none, none, [], none⟩
  score := score
  reason := .exactName

theorem intoSortedHits_threePushes :
    (BoundedHitMerge.new 352 2).map (fun merge =>
        ([plainHit 2 3, plainHit 3 4, plainHit 1 5].foldl (BoundedHitMerge.push Unicode.ascii)
          merge).intoSortedHits Unicode.ascii) =
      some ((sortByKey (SearchHitSortKey.fromHit Unicode.ascii)
        [plainHit 1 5, plainHit 2 3, plainHit 3 4]).take 2) :=
  (intoSortedHits_pushes_iff (by decide) (by decide) 352 2).mpr (by decide)

/-- No buffer for as many hits as a `usize` can ask for. -/
theorem intoSortedHits_unbounded :
    (BoundedHitMerge.new 352 (2 ^ 64 - 1)).map (fun merge =>
        ([plainHit 2 3].foldl (BoundedHitMerge.push Unicode.ascii) merge).intoSortedHits
          Unicode.ascii) ≠
      some ((sortByKey (SearchHitSortKey.fromHit Unicode.ascii) [plainHit 2 3]).take
        (2 ^ 64 - 1)) := by
  rw [BoundedHitMerge.new, if_pos (by decide)]
  exact nofun

end Gfm.Search

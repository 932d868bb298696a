import Gfm.Search.QueryPrefix

/-!
# Tallies

Adding points id by id comes down to a list of points for each id. The order in which a record
gets its points matters for the reason only, and a fuzzy match is the weakest reason there is.
-/

namespace Gfm.Search

open Postings

/-- The points that a record gets, one after the other. -/
abbrev Tally := List (Int × MatchReason)

namespace RankAccumulator

def tally (rank : RankAccumulator) (points : Tally) : RankAccumulator :=
  points.foldl (fun rank share => rank.add share.1 share.2) rank

/-- A record that has no points yet. -/
def start : RankAccumulator := .new 0 .pathComponent

theorem new_eq_add {points : Int} (positive : 0 < points) (reason : MatchReason) :
    new points reason = start.add points reason := by
  have larger : start.reasonWeight < points := positive
  rw [add, if_pos larger]
  simp [start, new]

theorem tally_append (rank : RankAccumulator) (first later : Tally) :
    rank.tally (first ++ later) = (rank.tally first).tally later :=
  List.foldl_append

/-- A weaker share may be counted later. -/
theorem add_comm_of_lt (rank : RankAccumulator) {weak strong : Int} (weaker : weak < strong)
    (first second : MatchReason) :
    (rank.add weak first).add strong second = (rank.add strong second).add weak first := by
  simp only [add]
  split_ifs <;> simp_all <;> omega

/-- A share that is weaker than all others may be counted last. -/
theorem tally_weakest {weak : Int} {reason : MatchReason} {points : Tally}
    (weakest : ∀ share ∈ points, weak < share.1) (rank : RankAccumulator) :
    rank.tally ((weak, reason) :: points) = rank.tally (points ++ [(weak, reason)]) := by
  induction points generalizing rank with
  | nil => rfl
  | cons share points ih =>
      rcases share with ⟨strong, second⟩
      have weaker := weakest (strong, second) List.mem_cons_self
      have swapped : rank.tally ((weak, reason) :: (strong, second) :: points) =
          (rank.add strong second).tally ((weak, reason) :: points) := by
        change ((rank.add weak reason).add strong second).tally points = _
        rw [add_comm_of_lt rank weaker]
        rfl
      rw [swapped, ih (fun other listed => weakest other (List.mem_cons_of_mem _ listed))]
      rfl

theorem score_add (rank : RankAccumulator) (points : Int) (reason : MatchReason) :
    (rank.add points reason).score = rank.score + points := by
  rw [add]
  split
  case isTrue => rfl
  case isFalse => rfl

end RankAccumulator

/-- The entry of a record, if it has points. -/
def rankOf : Tally → Option RankAccumulator
  | [] => none
  | share :: points => some (RankAccumulator.start.tally (share :: points))

theorem rankOf_eq {points : Tally} (some : points ≠ []) :
    rankOf points = .some (RankAccumulator.start.tally points) := by
  cases points with
  | nil => exact absurd rfl some
  | cons share points => rfl

theorem rankOf_snoc (points : Tally) {share : Int} (positive : 0 < share) (reason : MatchReason) :
    rankOf (points ++ [(share, reason)]) = some (match rankOf points with
      | some rank => rank.add share reason
      | none => .new share reason) := by
  cases points with
  | nil => exact congrArg some (RankAccumulator.new_eq_add positive reason).symm
  | cons first points =>
      exact congrArg some (RankAccumulator.tally_append _ (first :: points) _)

/-- The scores are made of these tallies. -/
def Tallied (scores : Scores) (points : FileId → Tally) : Prop :=
  ∀ id, scores[id]? = rankOf (points id)

/-- The share of the ids of a list. -/
def shareOf (listed : Bool) (points : Int) (reason : MatchReason) : Tally :=
  if listed then [(points, reason)] else []

namespace Tallied

variable {scores : Scores} {points : FileId → Tally}

theorem empty : Tallied ∅ fun _ => [] := fun _ => Std.ExtTreeMap.getElem?_empty

theorem addScore (tallied : Tallied scores points) {share : Int} (positive : 0 < share)
    (reason : MatchReason) (id : FileId) :
    Tallied (addScore share reason scores id) fun other =>
      points other ++ shareOf (decide (other = id)) share reason := by
  intro other
  dsimp only
  by_cases same : other = id
  · subst same
    have listed : shareOf (decide (other = other)) share reason = [(share, reason)] :=
      if_pos (decide_eq_true rfl)
    rw [listed, rankOf_snoc _ positive, ← tallied other]
    exact Std.ExtTreeMap.getElem?_insert_self
  · have unlisted : shareOf (decide (other = id)) share reason = [] :=
      if_neg (by rwa [decide_eq_true_eq])
    rw [unlisted, List.append_nil, ← tallied other, Search.addScore,
      Std.ExtTreeMap.getElem?_insert]
    exact if_neg fun equal => same (Std.compare_eq_iff_eq.mp equal).symm

theorem addScores {ids : List FileId} (tallied : Tallied scores points)
    (distinct : ids.Nodup) {share : Int} (positive : 0 < share) (reason : MatchReason) :
    Tallied (Search.addScores scores ids share reason) fun other =>
      points other ++ shareOf (decide (other ∈ ids)) share reason := by
  induction ids generalizing scores points with
  | nil =>
      intro other
      simp only [List.not_mem_nil, decide_false, shareOf, Bool.false_eq_true, if_false,
        List.append_nil]
      exact tallied other
  | cons id ids ih =>
      have later := List.nodup_cons.mp distinct
      have whole := ih (tallied.addScore positive reason id) later.2
      intro other
      dsimp only
      have same : points other ++ shareOf (decide (other ∈ id :: ids)) share reason =
          points other ++ shareOf (decide (other = id)) share reason ++
            shareOf (decide (other ∈ ids)) share reason := by
        rw [List.append_assoc]
        refine congrArg (points other ++ ·) ?_
        by_cases first : other = id
        · subst first
          simp [shareOf, later.1]
        · simp [shareOf, first]
      rw [same]
      exact whole other

theorem of_eq {others : FileId → Tally} (tallied : Tallied scores points)
    (same : ∀ id, points id = others id) : Tallied scores others := fun id => by
  rw [← same id]
  exact tallied id

end Tallied

end Gfm.Search

import Gfm.Search.FastPath

/-!
# The exact condition of the short way

For a query of plain terms, the short way gives what the general pass gives, for every limit, just
if no live record is found by a part of its name, the candidates of the term with the fewest are
the records that anything finds, and no live record has the empty name that is asked for.
-/

namespace Gfm.Search

open List Postings

namespace RankAccumulator

theorem score_tally (rank : RankAccumulator) (points : Tally) :
    (rank.tally points).score = rank.score + (points.map Prod.fst).sum := by
  induction points generalizing rank with
  | nil => simp [tally]
  | cons share points ih =>
      have step : rank.tally (share :: points) = (rank.add share.1 share.2).tally points := rfl
      rw [step, ih, score_add, map_cons, sum_cons]
      omega

end RankAccumulator

namespace SearchIndex

variable {unicode : Unicode} {elapsed : FileRecord → Option Nat} {index : SearchIndex}
  {lookup : SearchLookup} {budget : QueryBudget} {query : SearchQuery} {pass : SearchPass}

section Agreement

variable {hits : List SearchHit} {ranks otherRanks : FileId → Option RankAccumulator}

theorem score_hitFor_eq {id : FileId} {record : FileRecord} {rank other : RankAccumulator}
    (live : index.records[id]? = some record) (ranked : ranks id = some rank)
    (alsoRanked : otherRanks id = some other)
    (same : index.hitFor unicode elapsed query pass ranks id =
      index.hitFor unicode elapsed query pass otherRanks id) : rank.score = other.score := by
  rw [hitFor, hitFor, live, Option.bind_some, Option.bind_some, ranked, alsoRanked,
    Option.map_some, Option.map_some] at same
  have scores : rank.score + index.compositeBoosts unicode elapsed record query pass =
      other.score + index.compositeBoosts unicode elapsed record query pass :=
    congrArg SearchHit.score (Option.some.inj same)
  omega

theorem isSome_hitFor_iff {id : FileId} {record : FileRecord}
    (live : index.records[id]? = some record)
    (same : index.hitFor unicode elapsed query pass ranks id =
      index.hitFor unicode elapsed query pass otherRanks id) :
    (ranks id).isSome = (otherRanks id).isSome := by
  have shape := congrArg Option.isSome same
  rwa [hitFor, hitFor, live, Option.bind_some, Option.bind_some, Option.isSome_map,
    Option.isSome_map] at shape

theorem hitFor_eq (same : ∀ id record, index.records[id]? = some record →
    ranks id = otherRanks id) (id : FileId) :
    index.hitFor unicode elapsed query pass ranks id =
      index.hitFor unicode elapsed query pass otherRanks id := by
  rw [hitFor, hitFor]
  cases live : index.records[id]? with
  | none => rfl
  | some record => rw [same id record live]

theorem isSome_rankOf (points : Tally) : (rankOf points).isSome = true ↔ points ≠ [] := by
  cases points with
  | nil => simp [rankOf]
  | cons share points => simp [rankOf]

theorem live_of_namePart {id : FileId} (listed : id ∈ index.namePartIds lookup budget query) :
    (∃ record, index.records[id]? = some record) ∧ (queryText query).isEmpty = false := by
  rcases mem_filter.mp listed with ⟨-, found⟩
  cases live : index.records[id]? with
  | none =>
      rw [live] at found
      cases found
  | some record =>
      rw [live, Option.any_some, Bool.and_eq_true, Bool.not_eq_true'] at found
      exact ⟨⟨record, rfl⟩, found.1⟩

theorem plainTally_eq (text : (queryText query).isEmpty = false) (id : FileId) :
    index.plainTally unicode lookup budget query pass id =
      index.generalTally unicode lookup budget query pass id := by
  rw [plainTally, generalTally, text]
  rfl

/-- Two rankings of plain terms, of which the general one looks for parts of names. -/
theorem agree_iff (well : index.WellIndexed) (answers : lookup.Answers) (plain : PlainQuery query)
    (listed : index.ListsHits unicode elapsed query pass hits ranks)
    (scored : ∀ id rank, ranks id = some rank → rank = RankAccumulator.start.tally
      (index.plainTally unicode lookup budget query pass id)) :
    (∀ limit, .ok (topHits unicode hits limit) =
        index.queryGeneralPass unicode elapsed lookup budget query pass limit) ↔
      index.namePartIds lookup budget query = [] ∧
        ∀ id, index.hitFor unicode elapsed query pass ranks id =
          index.hitFor unicode elapsed query pass
            (fun id => rankOf (index.generalTally unicode lookup budget query pass id)) id := by
  rcases @queryGeneralPass_plain unicode elapsed index lookup budget query pass answers plain with
    ⟨scores, tallied, general⟩
  simp only [general, Except.ok.injEq]
  constructor
  case mp =>
    intro same
    let expanded := addScores scores (index.namePartIds lookup budget query) Points.substringName
      .substringName
    have found := (@listsHits_ranked unicode elapsed index query pass well plain expanded).of_eq
      (tallied_nameParts tallied)
    -- A limit beyond all hits shows all of them, and the parts of names are looked for.
    let limit := scores.size + 1 + hits.length +
      (expanded.toList.filterMap (index.rankedHit unicode elapsed query pass)).length
    have large := same limit
    rw [if_pos (by omega)] at large
    have perm := perm_of_topHits listed.distinct found.distinct (by omega) (by omega) large
    have equal := (listed.perm_iff well found).mp perm
    have noPart : index.namePartIds lookup budget query = [] := by
      refine eq_nil_iff_forall_not_mem.mpr fun id part => ?_
      rcases live_of_namePart part with ⟨⟨record, live⟩, text⟩
      have more : rankOf (index.generalTally unicode lookup budget query pass id ++
          shareOf (decide (id ∈ index.namePartIds lookup budget query)) Points.substringName
            .substringName) = some (RankAccumulator.start.tally
          (index.generalTally unicode lookup budget query pass id ++
            [(Points.substringName, .substringName)])) := by
        rw [decide_eq_true part]
        refine rankOf_eq ?_
        simp [shareOf]
      have shape := isSome_hitFor_iff live (equal id)
      rw [more] at shape
      rcases Option.isSome_iff_exists.mp shape with ⟨rank, ranked⟩
      have equalScores := score_hitFor_eq live ranked more (equal id)
      rw [scored id rank ranked, plainTally_eq text, RankAccumulator.score_tally,
        RankAccumulator.score_tally, map_append, sum_append] at equalScores
      simp only [Points.substringName, map_cons, map_nil, sum_cons,
        sum_nil] at equalScores
      omega
    refine ⟨noPart, fun id => (equal id).trans (hitFor_eq (fun id _ _ => ?_) id)⟩
    rw [noPart]
    exact congrArg rankOf (append_nil _)
  case mpr =>
    rintro ⟨noPart, equal⟩ limit
    have unexpanded : (if scores.size < limit then
          addScores scores (index.namePartIds lookup budget query) Points.substringName
            .substringName
        else scores) = scores := by
      rw [noPart]
      exact ite_self _
    rw [unexpanded]
    have found := (@listsHits_ranked unicode elapsed index query pass well plain scores).of_eq
      tallied
    exact topHits_perm listed.distinct ((listed.perm_iff well found).mpr equal) limit

end Agreement

section Condition

variable (unicode) (index) (lookup) (budget) (query) (pass)

/-- A record with a term in one of its lists. -/
def hasTerm (term : Text) (id : FileId) : Bool :=
  listedUnder index.nameTerms term id || listedUnder index.pathTerms term id ||
    listedUnder index.metadataTerms term id || listedUnder index.extension term id ||
    listedUnder index.tags term id

/-- A record that the texts of the query find in some way, but for the parts of names. -/
def isFound (id : FileId) : Bool :=
  (!(queryText query).isEmpty && listedUnder index.nameExact (queryText query) id) ||
    (idsIn (index.namePrefixIds lookup budget (queryText query))).contains id ||
    query.terms.any fun term => index.hasTerm term id ||
      (pass.includesDeep && index.contentHas id term) ||
      index.fuzzyFound unicode lookup budget pass term id

/-- Nothing is found that only one of the two ways looks for. -/
structure FastPathFits : Prop where
  noNamePart : index.namePartIds lookup budget query = []
  candidates : query.terms.length ≠ 1 → ∀ id record, index.records[id]? = some record →
    index.isCandidate unicode lookup budget query pass id =
      index.isFound unicode lookup budget query pass id
  named : queryText query = [] → ∀ id record, index.records[id]? = some record →
    listedUnder index.nameExact [] id = false

/-- What the short way makes of a record. -/
def plainRank (id : FileId) : Option RankAccumulator :=
  if query.terms.length = 1 then rankOf (index.plainTally unicode lookup budget query pass id)
  else if index.isCandidate unicode lookup budget query pass id then
    some (RankAccumulator.start.tally (index.plainTally unicode lookup budget query pass id))
  else none

variable {unicode} {index} {lookup} {budget} {query} {pass}

theorem shareOf_eq_nil_iff {listed : Bool} {points : Int} {reason : MatchReason} :
    shareOf listed points reason = [] ↔ listed = false := by
  cases listed with
  | false => simp [shareOf]
  | true => simp [shareOf]

theorem isFound_iff (id : FileId) :
    index.isFound unicode lookup budget query pass id = true ↔
      index.generalTally unicode lookup budget query pass id ≠ [] := by
  rw [Ne, ← Bool.not_eq_false, not_iff_not]
  simp only [isFound, hasTerm, generalTally, termsTally, leadingTally, termTally, contentTally,
    fuzzyTally, append_eq_nil_iff, flatMap_eq_nil_iff, shareOf_eq_nil_iff,
    Bool.or_eq_false_iff, any_eq_false, Bool.not_eq_true]
  constructor
  case mp =>
    rintro ⟨⟨named, leading⟩, terms⟩
    exact ⟨named, ⟨leading, fun term listed => ⟨(terms term listed).1.1, (terms term listed).1.2⟩⟩,
      fun term listed => (terms term listed).2⟩
  case mpr =>
    rintro ⟨named, ⟨leading, terms⟩, close⟩
    exact ⟨⟨named, leading⟩, fun term listed => ⟨⟨(terms term listed).1, (terms term listed).2⟩,
      close term listed⟩⟩

/-- Several terms make a text with a blank. -/
theorem queryText_several (several : query.terms.length ≠ 1) (terms : query.terms ≠ []) :
    (queryText query).isEmpty = false := by
  rw [queryText]
  rcases listed : query.terms with _ | ⟨first, _ | ⟨second, rest⟩⟩
  · exact absurd listed terms
  · rw [listed] at several
    exact absurd rfl several
  · rw [intercalate_cons_cons]
    simp

theorem queryPass_plain (well : index.WellIndexed) (answers : lookup.Answers)
    (plain : isPlain query = true) (terms : query.terms ≠ []) :
    ∃ hits, (∀ limit, index.queryPass unicode elapsed lookup budget query pass limit =
        .ok (topHits unicode hits limit)) ∧
      index.ListsHits unicode elapsed query pass hits
        (index.plainRank unicode lookup budget query pass) := by
  have nonempty : query.isEmpty = false := by
    rw [SearchQuery.isEmpty]
    cases listed : query.terms with
    | nil => exact absurd listed terms
    | cons term rest => rfl
  have taken : ∀ {hits : List SearchHit} {simple : Nat → Except GfmError (List SearchHit)},
      (∀ limit, simple limit = .ok (topHits unicode hits limit)) → Distinct hits →
      ∀ limit, (if query.isEmpty = true ∨ limit = 0 then .ok [] else simple limit) =
        .ok (topHits unicode hits limit) := by
    intro hits simple found distinct limit
    rw [nonempty]
    split
    case isTrue zero =>
      rw [zero.resolve_left Bool.false_ne_true, topHits_eq distinct, take_zero]
    case isFalse => exact found limit
  have plainQuery := plainQuery_of_isPlain plain
  rcases listed : query.terms with _ | ⟨first, _ | ⟨second, rest⟩⟩
  · exact absurd listed terms
  · rcases @querySimpleSingleTermPass_plain unicode elapsed index lookup budget query pass well
      answers plainQuery first listed with ⟨hits, found, ranked⟩
    refine ⟨hits, fun limit => ?_, ranked.of_eq fun id => ?_⟩
    · rw [queryPass, if_pos plain, listed]
      exact taken found ranked.distinct limit
    · rw [plainRank, listed]
      exact (if_pos rfl).symm
  · rcases @querySimpleMultiTermPass_plain unicode elapsed index lookup budget query pass well
      answers plainQuery with ⟨hits, found, ranked⟩
    have several : query.terms.length ≠ 1 := by
      rw [listed]
      simp
    refine ⟨hits, fun limit => ?_, ranked.of_eq fun id => ?_⟩
    · rw [queryPass, if_pos plain, listed]
      exact taken found ranked.distinct limit
    · rw [plainRank, if_neg several]

theorem tally_of_plainRank {id : FileId} {rank : RankAccumulator}
    (ranked : index.plainRank unicode lookup budget query pass id = some rank) :
    rank = RankAccumulator.start.tally
      (index.plainTally unicode lookup budget query pass id) := by
  rw [plainRank] at ranked
  split at ranked
  case isTrue =>
    cases points : index.plainTally unicode lookup budget query pass id with
    | nil =>
        rw [points] at ranked
        cases ranked
    | cons share rest =>
        rw [points] at ranked
        exact (Option.some.inj ranked).symm
  case isFalse =>
    split at ranked
    case isTrue => exact (Option.some.inj ranked).symm
    case isFalse => cases ranked

/-- An empty name that is listed counts in the short way only. -/
theorem named_iff (single : query.terms.length = 1) :
    (∀ id, index.hitFor unicode elapsed query pass
        (index.plainRank unicode lookup budget query pass) id =
      index.hitFor unicode elapsed query pass
        (fun id => rankOf (index.generalTally unicode lookup budget query pass id)) id) ↔
      (queryText query = [] → ∀ id record, index.records[id]? = some record →
        listedUnder index.nameExact [] id = false) := by
  constructor
  case mp =>
    intro same text id record live
    refine Bool.not_eq_true _ |>.mp fun listed => ?_
    have extra : index.plainTally unicode lookup budget query pass id =
        (Points.exactName, .exactName) ::
          index.generalTally unicode lookup budget query pass id := by
      rw [plainTally, generalTally, text, listed]
      rfl
    have ranked : index.plainRank unicode lookup budget query pass id =
        some (RankAccumulator.start.tally ((Points.exactName, .exactName) ::
          index.generalTally unicode lookup budget query pass id)) := by
      rw [plainRank, if_pos single, extra]
      rfl
    have shape := isSome_hitFor_iff live (same id)
    rw [ranked] at shape
    rcases Option.isSome_iff_exists.mp shape.symm with ⟨other, alsoRanked⟩
    have nonempty := (isSome_rankOf _).mp shape.symm
    have whole := alsoRanked
    rw [rankOf_eq nonempty] at whole
    have scores := score_hitFor_eq live ranked alsoRanked (same id)
    rw [← Option.some.inj whole, RankAccumulator.score_tally, RankAccumulator.score_tally,
      map_cons, sum_cons] at scores
    simp only [Points.exactName] at scores
    omega
  case mpr =>
    intro named
    refine hitFor_eq fun id record live => ?_
    rw [plainRank, if_pos single]
    refine congrArg rankOf ?_
    cases text : (queryText query).isEmpty with
    | false => exact plainTally_eq text id
    | true =>
        have empty := List.isEmpty_iff.mp text
        rw [plainTally, generalTally, empty, named empty id record live]
        rfl

theorem candidates_iff (several : query.terms.length ≠ 1) (terms : query.terms ≠ []) :
    (∀ id, index.hitFor unicode elapsed query pass
        (index.plainRank unicode lookup budget query pass) id =
      index.hitFor unicode elapsed query pass
        (fun id => rankOf (index.generalTally unicode lookup budget query pass id)) id) ↔
      ∀ id record, index.records[id]? = some record →
        index.isCandidate unicode lookup budget query pass id =
          index.isFound unicode lookup budget query pass id := by
  have text := queryText_several several terms
  have shape : ∀ id, (index.plainRank unicode lookup budget query pass id).isSome =
      index.isCandidate unicode lookup budget query pass id := by
    intro id
    rw [plainRank, if_neg several]
    cases index.isCandidate unicode lookup budget query pass id with
    | false => rfl
    | true => rfl
  have found : ∀ id, (rankOf (index.generalTally unicode lookup budget query pass id)).isSome =
      index.isFound unicode lookup budget query pass id := by
    intro id
    rw [Bool.eq_iff_iff, isSome_rankOf, isFound_iff]
  constructor
  case mp =>
    intro same id record live
    rw [← shape, ← found]
    exact isSome_hitFor_iff live (same id)
  case mpr =>
    intro same
    refine hitFor_eq fun id record live => ?_
    rw [plainRank, if_neg several, same id record live, plainTally_eq text]
    split
    case isTrue listed => exact (rankOf_eq ((isFound_iff id).mp listed)).symm
    case isFalse unlisted =>
      cases points : index.generalTally unicode lookup budget query pass id with
      | nil => rfl
      | cons share rest =>
          refine absurd ((isFound_iff id).mpr ?_) unlisted
          rw [points]
          exact cons_ne_nil _ _

/-- The short way gives the hits of the general pass for every limit just if nothing is found that
only one of them looks for. -/
theorem queryPass_general_iff (unicode : Unicode) (elapsed : FileRecord → Option Nat)
    (operations : List IndexOp) (lookup : SearchLookup) (answers : lookup.Answers)
    (budget : QueryBudget) (query : SearchQuery) (pass : SearchPass)
    (plain : isPlain query = true) (terms : query.terms ≠ []) :
    (∀ limit,
      (new.run unicode operations).queryPass unicode elapsed lookup budget query pass limit =
        (new.run unicode operations).queryGeneralPass unicode elapsed lookup budget query pass
          limit) ↔
      (new.run unicode operations).FastPathFits unicode lookup budget query pass := by
  have well := wellIndexed_run unicode operations
  rcases @queryPass_plain unicode elapsed _ lookup budget query pass well answers plain terms with
    ⟨hits, found, ranked⟩
  simp only [found]
  rw [agree_iff well answers (plainQuery_of_isPlain plain) ranked fun _ _ => tally_of_plainRank]
  by_cases single : query.terms.length = 1
  · rw [named_iff single]
    exact ⟨fun fits => ⟨fits.1, fun several => absurd single several, fits.2⟩,
      fun fits => ⟨fits.noNamePart, fits.named⟩⟩
  · rw [candidates_iff single terms]
    refine ⟨fun fits => ⟨fits.1, fun _ => fits.2, fun blank => ?_⟩,
      fun fits => ⟨fits.noNamePart, fits.candidates single⟩⟩
    have text := queryText_several single terms
    rw [blank] at text
    cases text

end Condition

section Runs

def infixIndex : SearchIndex :=
  new.run Unicode.ascii [.insert (namedRecord 2 "report".toList)]

def infixQuery : SearchQuery := ⟨["por".toList], [], [], [], [], none⟩

theorem queryPass_general_iff_infix :
    (∀ limit, infixIndex.queryPass Unicode.ascii (fun _ => none) emptySearchLookup .default
        infixQuery .full limit =
      infixIndex.queryGeneralPass Unicode.ascii (fun _ => none) emptySearchLookup .default
        infixQuery .full limit) ↔
      infixIndex.FastPathFits Unicode.ascii emptySearchLookup .default infixQuery .full :=
  queryPass_general_iff Unicode.ascii (fun _ => none) [.insert (namedRecord 2 "report".toList)]
    emptySearchLookup answers_emptySearchLookup .default infixQuery .full (by decide +kernel)
    (by decide)

/-- The general pass finds the text inside a name; the short way does not look for it. -/
theorem queryPass_infix :
    idsOf (hitsOf (infixIndex.queryPass Unicode.ascii (fun _ => none) emptySearchLookup .default
        infixQuery .full 5)) = [] ∧
      idsOf (hitsOf (infixIndex.queryGeneralPass Unicode.ascii (fun _ => none) emptySearchLookup
        .default infixQuery .full 5)) = [2] ∧
      infixIndex.queryPass Unicode.ascii (fun _ => none) emptySearchLookup .default infixQuery
          .full 5 ≠
        infixIndex.queryGeneralPass Unicode.ascii (fun _ => none) emptySearchLookup .default
          infixQuery .full 5 := by
  have short : idsOf (hitsOf (infixIndex.queryPass Unicode.ascii (fun _ => none)
      emptySearchLookup .default infixQuery .full 5)) = [] := by
    decide +kernel
  have general : idsOf (hitsOf (infixIndex.queryGeneralPass Unicode.ascii (fun _ => none)
      emptySearchLookup .default infixQuery .full 5)) = [2] := by
    have holds : (infixIndex.scoreTexts Unicode.ascii emptySearchLookup .default infixQuery
        .full).isOk = true := by
      decide +kernel
    have scored := ok_of_isOk holds
    have text : (queryText infixQuery).length = 3 := by decide
    rw [queryGeneralPass_eq scored, expandNames, nameSubstringIds_gram text (by decide)]
    decide +kernel
  refine ⟨short, general, fun same => ?_⟩
  rw [same, general] at short
  cases short

end Runs

end SearchIndex

end Gfm.Search

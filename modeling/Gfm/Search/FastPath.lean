import Gfm.Search.SimpleAgreement

/-!
# Where the short way and the general one agree

Both ways rank a list of hits that is known by the points of each record. So they agree for every
limit just if they give each record the same points.
-/

namespace Gfm.Search

open List Postings RankAccumulator Sorted Std

section Hits

variable {unicode : Unicode} {hits others : List SearchHit}

theorem nodup_of_distinct (distinct : Distinct hits) : hits.Nodup := List.Nodup.of_map _ distinct

/-- Rankings that agree for a large limit are of the same hits. -/
theorem perm_of_topHits (distinct : Distinct hits) (alsoDistinct : Distinct others) {limit : Nat}
    (enough : hits.length ≤ limit) (alsoEnough : others.length ≤ limit)
    (same : topHits unicode hits limit = topHits unicode others limit) : hits.Perm others := by
  have whole : ∀ {listed : List SearchHit}, Distinct listed → listed.length ≤ limit →
      topHits unicode listed limit = sortByKey (SearchHitSortKey.fromHit unicode) listed := by
    intro listed once few
    rw [topHits_eq once, take_of_length_le]
    rw [(sortByKey_perm _ listed).length_eq]
    exact few
  rw [whole distinct enough, whole alsoDistinct alsoEnough] at same
  have first := sortByKey_perm (SearchHitSortKey.fromHit unicode) hits
  have second := sortByKey_perm (SearchHitSortKey.fromHit unicode) others
  rw [same] at first
  exact first.symm.trans second

end Hits

namespace SearchIndex

variable {unicode : Unicode} {elapsed : FileRecord → Option Nat} {index : SearchIndex}
  {lookup : SearchLookup} {budget : QueryBudget} {query : SearchQuery} {pass : SearchPass}

section Ranks

variable (unicode) (elapsed) (index) (query) (pass)

def hitOf (record : FileRecord) (rank : RankAccumulator) : SearchHit :=
  let boosted := rank.boost (index.compositeBoosts unicode elapsed record query pass)
  ⟨record, boosted.finish.1, boosted.finish.2⟩

/-- The hit of a live record with points. -/
def hitFor (ranks : FileId → Option RankAccumulator) (id : FileId) : Option SearchHit :=
  (index.records[id]?).bind fun record =>
    (ranks id).map (index.hitOf unicode elapsed query pass record)

/-- The hits of the live records with points, each once. -/
structure ListsHits (hits : List SearchHit) (ranks : FileId → Option RankAccumulator) : Prop where
  distinct : Distinct hits
  mem_iff : ∀ hit, hit ∈ hits ↔ ∃ id, index.hitFor unicode elapsed query pass ranks id = some hit

variable {unicode} {elapsed} {index} {query} {pass}
variable {hits others : List SearchHit} {ranks otherRanks : FileId → Option RankAccumulator}

theorem id_hitFor (well : index.WellIndexed) {id : FileId} {hit : SearchHit}
    (found : index.hitFor unicode elapsed query pass ranks id = some hit) :
    hit.record.id = id := by
  rcases Option.bind_eq_some_iff.mp found with ⟨record, live, ranked⟩
  rcases Option.map_eq_some_iff.mp ranked with ⟨rank, -, rfl⟩
  exact well.recordId live

/-- Two lists have the same hits just if each record has the same in both. -/
theorem ListsHits.perm_iff (well : index.WellIndexed)
    (listed : index.ListsHits unicode elapsed query pass hits ranks)
    (alsoListed : index.ListsHits unicode elapsed query pass others otherRanks) :
    hits.Perm others ↔ ∀ id, index.hitFor unicode elapsed query pass ranks id =
      index.hitFor unicode elapsed query pass otherRanks id := by
  rw [perm_ext_iff_of_nodup (nodup_of_distinct listed.distinct)
    (nodup_of_distinct alsoListed.distinct)]
  constructor
  case mp =>
    intro same id
    refine Option.ext fun hit => ⟨fun found => ?_, fun found => ?_⟩
    · rcases (alsoListed.mem_iff hit).mp ((same hit).mp ((listed.mem_iff hit).mpr ⟨id, found⟩)) with
        ⟨other, also⟩
      rwa [← id_hitFor well found, id_hitFor well also]
    · rcases (listed.mem_iff hit).mp ((same hit).mpr ((alsoListed.mem_iff hit).mpr ⟨id, found⟩))
        with ⟨other, also⟩
      rwa [← id_hitFor well found, id_hitFor well also]
  case mpr =>
    intro same hit
    rw [listed.mem_iff, alsoListed.mem_iff]
    exact exists_congr fun id => by rw [same id]

theorem ListsHits.of_eq (listed : index.ListsHits unicode elapsed query pass hits ranks)
    (same : ∀ id, ranks id = otherRanks id) :
    index.ListsHits unicode elapsed query pass hits otherRanks := by
  have equal : ranks = otherRanks := funext same
  rwa [← equal]

/-- A record needs no more to match a query of plain terms. -/
theorem recordMatchesQuery_plain (plain : PlainQuery query) (record : FileRecord) :
    index.recordMatchesQuery unicode elapsed pass record query = true := by
  rw [recordMatchesQuery, plain.expression, plain.excludedTerms, plain.phrases, plain.proximities,
    plain.filters]
  cases pass.includesDeep with
  | true => rfl
  | false => rfl

theorem rankedHit_plain (plain : PlainQuery query) (id : FileId) (rank : RankAccumulator) :
    index.rankedHit unicode elapsed query pass (id, rank) =
      (index.records[id]?).map fun record =>
        index.hitOf unicode elapsed query pass record rank := by
  rw [rankedHit]
  cases index.records[id]? with
  | none => rfl
  | some record => exact if_pos (recordMatchesQuery_plain plain record)

theorem mem_ranked_iff (plain : PlainQuery query) (scores : Scores) (hit : SearchHit) :
    hit ∈ scores.toList.filterMap (index.rankedHit unicode elapsed query pass) ↔
      ∃ id, index.hitFor unicode elapsed query pass (fun id => scores[id]?) id = some hit := by
  rw [mem_filterMap]
  constructor
  case mp =>
    rintro ⟨⟨id, rank⟩, stored, found⟩
    rw [rankedHit_plain plain] at found
    rcases Option.map_eq_some_iff.mp found with ⟨record, live, rfl⟩
    refine ⟨id, ?_⟩
    rw [hitFor, live, ExtTreeMap.mem_toList_iff_getElem?_eq_some.mp stored]
    rfl
  case mpr =>
    rintro ⟨id, found⟩
    rcases Option.bind_eq_some_iff.mp found with ⟨record, live, ranked⟩
    rcases Option.map_eq_some_iff.mp ranked with ⟨rank, stored, rfl⟩
    refine ⟨(id, rank), ExtTreeMap.mem_toList_iff_getElem?_eq_some.mpr stored, ?_⟩
    rw [rankedHit_plain plain, live]
    rfl

theorem listsHits_ranked (well : index.WellIndexed) (plain : PlainQuery query) (scores : Scores) :
    index.ListsHits unicode elapsed query pass
      (scores.toList.filterMap (index.rankedHit unicode elapsed query pass))
      fun id => scores[id]? :=
  ⟨distinct_ranked well scores, mem_ranked_iff plain scores⟩

end Ranks

section General

variable (index) (lookup) (budget) (query)

/-- The live records that have the text as a part of the name and are found by its grams. -/
def namePartIds : List FileId :=
  (idsIn (index.nameSubstringIds lookup budget (queryText query))).toList.filter fun id =>
    (index.records[id]?).any fun record => !(queryText query).isEmpty &&
      (index.columns[record.id]?).any fun columns =>
        RecordColumns.contains columns.name (queryText query)

variable {index} {lookup} {budget} {query}

theorem scoredHits_plain (plain : PlainQuery query) (scores : Scores) :
    index.scoredHits unicode elapsed query pass scores =
      scores.toList.filterMap (index.rankedHit unicode elapsed query pass) := by
  have few : wantsUniverse query none scores = false := by
    simp only [wantsUniverse, plain.expression, plain.filters, Option.any_none, Bool.false_or,
      isEmpty_nil, Bool.not_true, Bool.and_false, Bool.false_and]
  simp only [scoredHits, plain.expression, Option.bind_none, plain.intent, if_true, seedScores,
    Option.getD_none]
  have unlisted : (∅ : IdSet).toList = [] := rfl
  rw [unlisted, foldl_nil, few]
  rfl

/-- The general pass, with the parts of names while few records are scored. -/
theorem queryGeneralPass_plain (answers : lookup.Answers) (plain : PlainQuery query) :
    ∃ scores, Tallied scores (index.generalTally unicode lookup budget query pass) ∧
      ∀ limit, index.queryGeneralPass unicode elapsed lookup budget query pass limit =
        .ok (topHits unicode ((if scores.size < limit then
            addScores scores (index.namePartIds lookup budget query) Points.substringName
              .substringName
          else scores).toList.filterMap (index.rankedHit unicode elapsed query pass)) limit) := by
  rcases @scoreTexts_plain unicode index lookup budget query pass answers plain with
    ⟨scores, scored, tallied⟩
  refine ⟨scores, tallied, fun limit => ?_⟩
  have expanded : index.expandNames lookup budget query scores =
      .ok (addScores scores (index.namePartIds lookup budget query) Points.substringName
        .substringName) := by
    rw [expandNames, nameSubstringIds_ok answers]
    rfl
  have ranked : ∀ scores, Except.map (fun scores =>
        topHits unicode (index.scoredHits unicode elapsed query pass scores) limit) (.ok scores) =
      (.ok (topHits unicode (scores.toList.filterMap
        (index.rankedHit unicode elapsed query pass)) limit) : Except GfmError _) := fun scores =>
    congrArg (fun hits => Except.ok (topHits unicode hits limit)) (scoredHits_plain plain scores)
  rw [queryGeneralPass_eq scored, expanded]
  split
  case isTrue => exact ranked _
  case isFalse => exact ranked _

theorem tallied_nameParts {scores : Scores} {points : FileId → Tally}
    (tallied : Tallied scores points) :
    Tallied (addScores scores (index.namePartIds lookup budget query) Points.substringName
        .substringName) fun id =>
      points id ++ shareOf (decide (id ∈ index.namePartIds lookup budget query))
        Points.substringName .substringName := by
  have positive : 0 < Points.substringName := by decide
  exact tallied.addScores ((nodup_toList _).filter _) positive .substringName

end General

section Single

/-- A close name is the weakest find, so it may be counted before the content. -/
theorem rankOf_fuzzy (points : Tally) (content close : Bool) :
    rankOf (points ++ shareOf close Points.fuzzyName .fuzzyName ++
        shareOf content Points.content .content) =
      rankOf (points ++ shareOf content Points.content .content ++
        shareOf close Points.fuzzyName .fuzzyName) := by
  cases close with
  | false => simp [shareOf]
  | true =>
      cases content with
      | false => simp [shareOf]
      | true =>
          have weaker : Points.fuzzyName < Points.content := by decide
          have first : ∀ last : Tally, points ++ last ++ [(Points.content, .content)] ≠ [] := by
            simp
          have other : points ++ [(Points.content, MatchReason.content)] ++
              [(Points.fuzzyName, .fuzzyName)] ≠ [] := by
            simp
          simp only [shareOf, if_true]
          rw [rankOf_eq (first _), rankOf_eq other, tally_append,
            tally_append, tally_append,
            tally_append]
          exact congrArg Option.some (add_comm_of_lt _ weaker _ _)

theorem queryText_single (term : Text) (terms : query.terms = [term]) : queryText query = term := by
  rw [queryText, terms]
  exact intercalate_singleton

theorem contentHit_eq (id : FileId) :
    index.contentHit unicode elapsed query pass id =
      index.hitFor unicode elapsed query pass
        (fun _ => some (.new Points.content .content)) id := by
  rw [contentHit, hitFor]
  cases index.records[id]? with
  | none => rfl
  | some record => rfl

/-- The records with the content alone and the others together. -/
theorem listsHits_content (well : index.WellIndexed) (plain : PlainQuery query) {scores : Scores}
    {points : FileId → Tally} (tallied : Tallied scores points) (term : Text) :
    index.ListsHits unicode elapsed query pass
      (((index.contentIds term).filter fun id => !scores.contains id).filterMap
          (index.contentHit unicode elapsed query pass) ++
        (addScores scores ((index.contentIds term).filter fun id => scores.contains id)
          Points.content .content).toList.filterMap
            (index.rankedHit unicode elapsed query pass))
      fun id => rankOf (points id ++
        shareOf (index.contentHas id term) Points.content .content) := by
  refine ⟨distinct_contentHits well scores term, fun hit => ?_⟩
  have distinct : ((index.contentIds term).filter fun id => scores.contains id).Nodup :=
    ExtTreeMap.nodup_keys.filter _
  have positive : 0 < Points.content := by decide
  have scored := tallied.addScores distinct positive .content
  have each : ∀ id, (id ∈ index.contentIds term ∧ scores.contains id = false ∧
        index.contentHit unicode elapsed query pass id = some hit) ∨
      index.hitFor unicode elapsed query pass (fun id => (addScores scores
        ((index.contentIds term).filter fun id => scores.contains id) Points.content
          .content)[id]?) id = some hit ↔
      index.hitFor unicode elapsed query pass (fun id => rankOf (points id ++
        shareOf (index.contentHas id term) Points.content .content)) id = some hit := by
    intro id
    rw [contentHit_eq]
    simp only [hitFor, scored id]
    cases known : scores.contains id with
    | true =>
        have share : decide (id ∈ (index.contentIds term).filter fun id => scores.contains id) =
            index.contentHas id term := by
          rw [Bool.eq_iff_iff, decide_eq_true_eq, mem_filter, mem_contentIds, known]
          exact and_iff_left rfl
        rw [share]
        exact or_iff_right fun wrong => by cases wrong.2.1
    | false =>
        have none : points id = [] := by
          have unscored := tallied id
          rw [ExtTreeMap.getElem?_eq_none (fun listed => by
            rw [ExtTreeMap.mem_iff_contains, known] at listed
            cases listed)] at unscored
          cases tally : points id with
          | nil => rfl
          | cons share rest =>
              rw [tally] at unscored
              cases unscored
        have share : decide (id ∈ (index.contentIds term).filter fun id =>
            scores.contains id) = false := by
          refine decide_eq_false fun listed => ?_
          rw [mem_filter, known] at listed
          cases listed.2
        have nothing : rankOf ([] ++ shareOf false Points.content .content) = .none := rfl
        rw [none, share, nothing, mem_contentIds]
        cases has : index.contentHas id term with
        | false => simp [shareOf, rankOf]
        | true =>
            have alone : rankOf ([] ++ shareOf true Points.content .content) =
                some (.new Points.content .content) := rfl
            rw [alone]
            simp
  rw [mem_append, mem_ranked_iff plain, mem_filterMap]
  constructor
  case mp =>
    rintro (⟨id, listed, found⟩ | ⟨id, found⟩)
    · rcases mem_filter.mp listed with ⟨content, unscored⟩
      exact ⟨id, (each id).mp (Or.inl ⟨content, Bool.not_eq_true' _ |>.mp unscored, found⟩)⟩
    · exact ⟨id, (each id).mp (Or.inr found)⟩
  case mpr =>
    rintro ⟨id, found⟩
    rcases (each id).mpr found with ⟨content, unscored, alone⟩ | ranked
    · refine Or.inl ⟨id, mem_filter.mpr ⟨content, ?_⟩, alone⟩
      rw [unscored]
      rfl
    · exact Or.inr ⟨id, ranked⟩

/-- The pass for one term gives the points for it. -/
theorem querySimpleSingleTermPass_plain (well : index.WellIndexed) (answers : lookup.Answers)
    (plain : PlainQuery query) {term : Text} (terms : query.terms = [term]) :
    ∃ hits, (∀ limit, index.querySimpleSingleTermPass unicode elapsed lookup budget query pass limit
        term = .ok (topHits unicode hits limit)) ∧
      index.ListsHits unicode elapsed query pass hits fun id =>
        rankOf (index.plainTally unicode lookup budget query pass id) := by
  have positive : 0 < Points.exactName := by decide
  have alsoPositive : 0 < Points.prefixName := by decide
  have named := tallied_listed Tallied.empty index.nameExact term positive .exactName
  have leading := tallied_ids named (idsIn (index.namePrefixIds lookup budget term)) alsoPositive
    .prefixName
  have listed := @tallied_terms index _ _ leading term
  by_cases deep : pass.includesDeep = true
  · rcases @tallied_fuzzy unicode index lookup budget pass _ _ answers deep listed term with
      ⟨scores, found, close⟩
    refine ⟨_, fun limit => ?_, (listsHits_content well plain close term).of_eq fun id => ?_⟩
    · rw [querySimpleSingleTermPass, namePrefixIds_ok answers]
      simp only [deep, if_true, found, bind, Except.bind]
      rfl
    · rw [fuzzyTally, rankOf_fuzzy, plainTally, termsTally, leadingTally,
        queryText_single term terms, terms]
      simp only [flatMap_cons, flatMap_nil, contentTally, deep, Bool.true_and, fuzzyTally,
        append_assoc, append_nil, nil_append]
  · refine ⟨_, fun limit => ?_, (listsHits_ranked well plain _).of_eq fun id =>
      (listed id).trans ?_⟩
    · rw [querySimpleSingleTermPass, namePrefixIds_ok answers]
      simp only [deep, bind, Except.bind]
      rfl
    · have hot := @fuzzyTally_hot unicode index lookup budget pass deep term id
      dsimp only
      rw [plainTally, termsTally, leadingTally, queryText_single term terms, terms]
      simp only [flatMap_cons, flatMap_nil, contentTally, deep, Bool.false_and, hot,
        shareOf, append_assoc, append_nil, nil_append, Bool.false_eq_true, if_false]

end Single

section Multi

variable (unicode) (index) (lookup) (budget) (query) (pass)

/-- The ids of close names that a simple pass looks up. -/
def closeIds (term : Text) : IdSet :=
  if pass.includesDeep then idsIn (index.fuzzyIdSet unicode lookup budget term) else ∅

def plainCandidateIds (term : Text) : IdSet :=
  (index.closeIds unicode lookup budget pass term).toList.foldl (fun ids id => ids.insert id)
    (index.termCandidateIds pass term)

/-- The term with the fewest candidates, the first of several. -/
def anchorTerm : Option Text :=
  query.terms.argmin fun term => (index.plainCandidateIds unicode lookup budget pass term).size

def isCandidate (id : FileId) : Bool :=
  (index.anchorTerm unicode lookup budget query pass).any fun term =>
    (index.plainCandidateIds unicode lookup budget pass term).contains id

variable {unicode} {index} {lookup} {budget} {query} {pass}

theorem argmin_map {Item Other : Type} (f : Item → Other) (size : Other → Nat)
    (items : List Item) :
    (items.map f).argmin size = (items.argmin fun item => size (f item)).map f := by
  induction items with
  | nil => rfl
  | cons item items ih =>
      rw [map_cons, argmin_cons, argmin_cons, ih]
      cases items.argmin fun item => size (f item) with
      | none => rfl
      | some least =>
          dsimp only [Option.map_some]
          split
          case isTrue => rfl
          case isFalse => rfl

theorem simpleCandidates_ok (answers : lookup.Answers) (terms : List Text) :
    index.simpleCandidates unicode lookup budget pass terms =
      .ok (if terms.any fun term =>
          (index.plainCandidateIds unicode lookup budget pass term).isEmpty then none
        else some (terms.map fun term => (index.closeIds unicode lookup budget pass term,
          index.plainCandidateIds unicode lookup budget pass term))) := by
  induction terms with
  | nil => rfl
  | cons term terms ih =>
      have step : index.simpleCandidates unicode lookup budget pass (term :: terms) =
          if (index.plainCandidateIds unicode lookup budget pass term).isEmpty then .ok none
          else (index.simpleCandidates unicode lookup budget pass terms).map
            (Option.map ((index.closeIds unicode lookup budget pass term,
              index.plainCandidateIds unicode lookup budget pass term) :: ·)) := by
        rw [simpleCandidates, plainCandidateIds, closeIds]
        by_cases deep : pass.includesDeep = true
        · rw [if_pos deep, if_pos deep, fuzzyIdSet_ok answers]
          rfl
        · rw [if_neg deep, if_neg deep]
          rfl
      rw [step, ih, any_cons, map_cons]
      cases (index.plainCandidateIds unicode lookup budget pass term).isEmpty with
      | true => rfl
      | false =>
          rw [if_neg Bool.false_ne_true, Bool.false_or]
          split
          case isTrue => rfl
          case isFalse => rfl

/-- A term without candidates leaves no record to be one. -/
theorem isCandidate_of_empty
    (none : (query.terms.any fun term =>
      (index.plainCandidateIds unicode lookup budget pass term).isEmpty) = true) (id : FileId) :
    index.isCandidate unicode lookup budget query pass id = false := by
  rcases any_eq_true.mp none with ⟨term, listed, empty⟩
  rw [isCandidate]
  cases anchor : index.anchorTerm unicode lookup budget query pass with
  | none => rfl
  | some least =>
      have fewest : (index.plainCandidateIds unicode lookup budget pass least).size ≤
          (index.plainCandidateIds unicode lookup budget pass term).size :=
        @le_of_mem_argmin _ _ _ (fun term =>
          (index.plainCandidateIds unicode lookup budget pass term).size) _ _ _ listed anchor
      rw [ExtTreeSet.isEmpty_iff.mp empty] at fewest
      have zero : (∅ : IdSet).size = 0 := rfl
      rw [zero] at fewest
      have nothing : index.plainCandidateIds unicode lookup budget pass least = ∅ := by
        rw [← ExtTreeSet.isEmpty_iff, ExtTreeSet.isEmpty_eq_size_beq_zero,
          Nat.le_zero.mp fewest]
        rfl
      rw [Option.any_some, nothing]
      rfl

theorem addIf_eq (condition : Bool) (points : Int) (reason : MatchReason)
    (rank : RankAccumulator) :
    addIf condition points reason rank = rank.tally (shareOf condition points reason) := by
  cases condition with
  | false => rfl
  | true => rfl

theorem scorePlainTerm_eq {record : FileRecord} (live : index.records[record.id]? = some record)
    (rank : RankAccumulator) (term : Text) :
    index.scorePlainTerm pass record rank
        (term, index.closeIds unicode lookup budget pass term) =
      rank.tally (index.termTally term record.id ++ index.contentTally pass term record.id ++
        index.fuzzyTally unicode lookup budget pass term record.id) := by
  have close : (pass.includesDeep &&
        (index.closeIds unicode lookup budget pass term).contains record.id &&
        !index.recordContainsTerm record term && index.recordFuzzyMatchesTerm record term) =
      index.fuzzyFound unicode lookup budget pass term record.id := by
    rw [fuzzyFound, live, closeIds, Option.any_some]
    cases pass.includesDeep with
    | false => rfl
    | true => exact Bool.and_assoc _ _ _
  simp only [scorePlainTerm, addIf_eq, close, ← tally_append]
  simp only [termTally, contentTally, fuzzyTally, append_assoc]

/-- Close names may be counted after the rest, the terms one by one. -/
theorem tally_interleaved (rank : RankAccumulator) (terms : List Text) (id : FileId) :
    rank.tally (terms.flatMap fun term => index.termTally term id ++
        index.contentTally pass term id ++ index.fuzzyTally unicode lookup budget pass term id) =
      rank.tally ((terms.flatMap fun term => index.termTally term id ++
        index.contentTally pass term id) ++
          terms.flatMap fun term => index.fuzzyTally unicode lookup budget pass term id) := by
  induction terms generalizing rank with
  | nil => rfl
  | cons term terms ih =>
      have stronger : ∀ share ∈ terms.flatMap fun term => index.termTally term id ++
          index.contentTally pass term id, Points.fuzzyName < share.1 := by
        intro share listed
        rcases mem_flatMap.mp listed with ⟨other, -, listed⟩
        have weights : ∀ {listed : Bool} {points : Int} {reason : MatchReason},
            share ∈ shareOf listed points reason → share.1 = points := by
          intro listed points reason member
          cases listed with
          | false => cases member
          | true => rw [mem_singleton.mp member]
        simp only [termTally, contentTally, mem_append] at listed
        rcases listed with ((((name | path) | metadata) | extension) | tag) | content
        · rw [weights name]
          decide
        · rw [weights path]
          decide
        · rw [weights metadata]
          decide
        · rw [weights extension]
          decide
        · rw [weights tag]
          decide
        · rw [weights content]
          decide
      rw [flatMap_cons, flatMap_cons, flatMap_cons, tally_append,
        ih, ← tally_append, append_assoc, tally_append,
        append_assoc, tally_append rank
          (index.termTally term id ++ index.contentTally pass term id)]
      generalize rank.tally (index.termTally term id ++ index.contentTally pass term id) = later
      rw [fuzzyTally, shareOf]
      split
      case isFalse => rfl
      case isTrue =>
        rw [singleton_append, singleton_append, ← cons_append,
          tally_append, tally_weakest stronger,
          ← tally_append, append_assoc]
        rfl

theorem scorePlainMultiTermRecord_eq {record : FileRecord}
    (live : index.records[record.id]? = some record) :
    index.scorePlainMultiTermRecord query pass record
        (idsIn (index.namePrefixIds lookup budget (queryText query)))
        (query.terms.map (index.closeIds unicode lookup budget pass)) =
      RankAccumulator.start.tally
        (index.plainTally unicode lookup budget query pass record.id) := by
  have folded : ∀ (terms : List Text) (rank : RankAccumulator),
      (terms.zip (terms.map (index.closeIds unicode lookup budget pass))).foldl
          (index.scorePlainTerm pass record) rank =
        rank.tally (terms.flatMap fun term => index.termTally term record.id ++
          index.contentTally pass term record.id ++
            index.fuzzyTally unicode lookup budget pass term record.id) := by
    intro terms
    induction terms with
    | nil => exact fun _ => rfl
    | cons term terms ih =>
        intro rank
        rw [map_cons, zip_cons_cons, foldl_cons, ih, scorePlainTerm_eq live,
          ← tally_append, flatMap_cons]
  simp only [scorePlainMultiTermRecord, addIf_eq]
  rw [folded, tally_interleaved, plainTally, termsTally, leadingTally,
    tally_append _ (shareOf _ Points.exactName _), append_assoc,
    tally_append _ (shareOf _ Points.prefixName _)]
  rfl

theorem listsHits_filterMap (well : index.WellIndexed) {ids : List FileId} (distinct : ids.Nodup)
    (ranks : FileId → Option RankAccumulator) :
    index.ListsHits unicode elapsed query pass
      (ids.filterMap (index.hitFor unicode elapsed query pass ranks))
      fun id => if id ∈ ids then ranks id else none := by
  refine ⟨?_, fun hit => ?_⟩
  · refine List.Nodup.sublist (sublist_filterMap (fun id hit => id_hitFor well) ids) ?_
    rw [map_id']
    exact distinct
  · rw [mem_filterMap]
    refine exists_congr fun id => ?_
    simp only [hitFor]
    by_cases listed : id ∈ ids
    · rw [if_pos listed]
      exact and_iff_right listed
    · rw [if_neg listed]
      simp [listed]

/-- The pass for several terms gives the points to the candidates of one of them. -/
theorem querySimpleMultiTermPass_plain (well : index.WellIndexed) (answers : lookup.Answers)
    (plain : PlainQuery query) :
    ∃ hits, (∀ limit, index.querySimpleMultiTermPass unicode elapsed lookup budget query pass
        limit = .ok (topHits unicode hits limit)) ∧
      index.ListsHits unicode elapsed query pass hits fun id =>
        if index.isCandidate unicode lookup budget query pass id then
          some (RankAccumulator.start.tally
            (index.plainTally unicode lookup budget query pass id))
        else none := by
  have nothing : (∀ id, index.isCandidate unicode lookup budget query pass id = false) →
      index.ListsHits unicode elapsed query pass [] fun id =>
        if index.isCandidate unicode lookup budget query pass id then
          some (RankAccumulator.start.tally
            (index.plainTally unicode lookup budget query pass id))
        else none := by
    intro never
    refine (listsHits_filterMap well nodup_nil fun _ => none).of_eq fun id => ?_
    rw [never id]
    rfl
  by_cases blank : (query.terms.any fun term =>
      (index.plainCandidateIds unicode lookup budget pass term).isEmpty) = true
  · refine ⟨[], fun limit => ?_, nothing (isCandidate_of_empty blank)⟩
    rw [querySimpleMultiTermPass, namePrefixIds_ok answers, simpleCandidates_ok answers,
      if_pos blank, topHits_nil]
    rfl
  · have least : (query.terms.map fun term => (index.closeIds unicode lookup budget pass term,
          index.plainCandidateIds unicode lookup budget pass term)).argmin
            (fun item => item.2.size) =
        (index.anchorTerm unicode lookup budget query pass).map fun term =>
          (index.closeIds unicode lookup budget pass term,
            index.plainCandidateIds unicode lookup budget pass term) :=
      argmin_map _ _ _
    cases anchor : index.anchorTerm unicode lookup budget query pass with
    | none =>
        refine ⟨[], fun limit => ?_, nothing fun id => ?_⟩
        · rw [querySimpleMultiTermPass, namePrefixIds_ok answers, simpleCandidates_ok answers,
            if_neg blank, topHits_nil]
          simp only [bind, Except.bind]
          rw [least, anchor]
          rfl
        · rw [isCandidate, anchor]
          rfl
    | some term =>
        have scored : ∀ id, ((index.records[id]?).bind fun record =>
            index.rankedHit unicode elapsed query pass
              (id, index.scorePlainMultiTermRecord query pass record
                (idsIn (index.namePrefixIds lookup budget (queryText query)))
                (query.terms.map (index.closeIds unicode lookup budget pass)))) =
            index.hitFor unicode elapsed query pass (fun id => some (RankAccumulator.start.tally
              (index.plainTally unicode lookup budget query pass id))) id := by
          intro id
          rw [hitFor]
          cases live : index.records[id]? with
          | none => rfl
          | some record =>
              have own := well.recordId live
              have still := live
              rw [← own] at still
              rw [Option.bind_some, rankedHit_plain plain, live, scorePlainMultiTermRecord_eq still,
                own]
              rfl
        have fuzzy : (query.terms.map fun term => (index.closeIds unicode lookup budget pass term,
              index.plainCandidateIds unicode lookup budget pass term)).map Prod.fst =
            query.terms.map (index.closeIds unicode lookup budget pass) :=
          map_map
        refine ⟨(index.plainCandidateIds unicode lookup budget pass term).toList.filterMap
          (index.hitFor unicode elapsed query pass (fun id => some (RankAccumulator.start.tally
            (index.plainTally unicode lookup budget query pass id)))), fun limit => ?_,
          (listsHits_filterMap well (nodup_toList _) _).of_eq fun id => ?_⟩
        · rw [querySimpleMultiTermPass, namePrefixIds_ok answers, simpleCandidates_ok answers,
            if_neg blank]
          simp only [bind, Except.bind]
          rw [least, anchor]
          simp only [Option.map_some, fuzzy, scored]
          rfl
        · rw [isCandidate, anchor, Option.any_some]
          simp only [ExtTreeSet.mem_toList, ExtTreeSet.mem_iff_contains]

end Multi

end SearchIndex

end Gfm.Search

import Gfm.Search.DeepGate

/-!
# When a closed gate hides nothing

Behind a closed gate both passes score the same records alike. They differ just if a scored record
matches the expression by a close name alone, or has an excluded term in its content alone.
-/

namespace Gfm.Search

open List Postings Std

namespace SearchIndex

variable {unicode : Unicode} {elapsed : FileRecord → Option Nat} {index : SearchIndex}
  {query : SearchQuery}

section Seeded

variable (unicode) (elapsed) (index) (query)

/-- The scores with the entries of the candidates, of the intent and of every record. -/
def seededScores (pass : SearchPass) (scores : Scores) : Scores :=
  let candidates := query.expression.bind (index.expressionCandidateIds unicode pass)
  let scores := seedScores scores (candidates.getD ∅).toList
  let intent := QueryIntent.fromQuery query
  let records := index.records.toList.map Prod.snd
  let scores := if intent.isEmpty then scores
    else records.foldl (addIntentScore unicode elapsed intent) scores
  if wantsUniverse query candidates scores then seedScores scores (records.map FileRecord.id)
  else scores

theorem scoredHits_eq (pass : SearchPass) (scores : Scores) :
    index.scoredHits unicode elapsed query pass scores =
      (index.seededScores unicode elapsed query pass scores).toList.filterMap
        (index.rankedHit unicode elapsed query pass) := rfl

variable {unicode} {elapsed} {index} {query} {scores : Scores} {id : FileId}

theorem seededScores_of_closed (closed : Closed unicode index query) (scores : Scores) :
    index.seededScores unicode elapsed query .full scores =
      index.seededScores unicode elapsed query .hot scores := by
  have candidates : query.expression.bind (index.expressionCandidateIds unicode .full) =
      query.expression.bind (index.expressionCandidateIds unicode .hot) := by
    cases given : query.expression with
    | none => rfl
    | some expression => exact candidateIds_of_closed expression (closed.expression _ given)
  rw [seededScores, candidates]
  rfl

theorem mem_seedScores {ids : List FileId} :
    id ∈ seedScores scores ids ↔ id ∈ scores ∨ id ∈ ids := by
  induction ids generalizing scores with
  | nil => simp [seedScores]
  | cons first ids ih =>
      have step : seedScores scores (first :: ids) =
          seedScores (scores.insertIfNew first (.new 0 .pathComponent)) ids := rfl
      rw [step, ih, ExtTreeMap.mem_insertIfNew, Std.compare_eq_iff_eq, mem_cons]
      tauto

theorem mem_addIntentScores {intent : QueryIntent} {records : List FileRecord} :
    id ∈ records.foldl (addIntentScore unicode elapsed intent) scores ↔ id ∈ scores ∨
      ∃ record ∈ records, 0 < intent.score unicode elapsed record ∧ record.id = id := by
  induction records generalizing scores with
  | nil => simp
  | cons record records ih =>
      rw [foldl_cons, ih, addIntentScore]
      split
      case isTrue positive =>
        rw [ExtTreeMap.mem_insert, Std.compare_eq_iff_eq]
        simp only [mem_cons, exists_eq_or_imp, positive, true_and]
        tauto
      case isFalse zero =>
        simp only [mem_cons, exists_eq_or_imp, zero, false_and, false_or]

/-- More scored records leave no record out. -/
theorem mem_seededScores_mono {more : Scores} {pass : SearchPass}
    (within : ∀ id, id ∈ scores → id ∈ more)
    (terms : query.terms ≠ [])
    (member : id ∈ index.seededScores unicode elapsed query pass scores) :
    id ∈ index.seededScores unicode elapsed query pass more := by
  have universe_ : ∀ candidates (scores : Scores), wantsUniverse query candidates scores =
      query.expression.any fun expression =>
        expressionNeedsUniverse expression && candidates.isNone := by
    intro candidates scores
    have some : query.terms.isEmpty = false := by
      cases listed : query.terms with
      | nil => exact absurd listed terms
      | cons term rest => rfl
    rw [wantsUniverse, some]
    simp
  simp only [seededScores, universe_] at member ⊢
  generalize (query.expression.bind (index.expressionCandidateIds unicode pass)) = candidates
    at member ⊢
  have seeded : ∀ id, id ∈ seedScores scores (candidates.getD ∅).toList →
      id ∈ seedScores more (candidates.getD ∅).toList := by
    intro id listed
    exact mem_seedScores.mpr ((mem_seedScores.mp listed).imp_left (within id))
  have after : ∀ id,
      id ∈ (if (QueryIntent.fromQuery query).isEmpty then
          seedScores scores (candidates.getD ∅).toList
        else (index.records.toList.map Prod.snd).foldl
          (addIntentScore unicode elapsed (QueryIntent.fromQuery query))
          (seedScores scores (candidates.getD ∅).toList)) →
      id ∈ (if (QueryIntent.fromQuery query).isEmpty then
          seedScores more (candidates.getD ∅).toList
        else (index.records.toList.map Prod.snd).foldl
          (addIntentScore unicode elapsed (QueryIntent.fromQuery query))
          (seedScores more (candidates.getD ∅).toList)) := by
    intro id listed
    split
    case isTrue empty =>
      rw [if_pos empty] at listed
      exact seeded id listed
    case isFalse some =>
      rw [if_neg some] at listed
      exact mem_addIntentScores.mpr ((mem_addIntentScores.mp listed).imp_left (seeded id))
  split
  case isTrue every =>
    rw [if_pos every] at member
    exact mem_seedScores.mpr ((mem_seedScores.mp member).imp_left (after id))
  case isFalse few =>
    rw [if_neg few] at member
    exact after id member

end Seeded

section Condition

variable (unicode) (elapsed) (index) (query)

/-- The record has an entry once the texts, the parts of names and the candidates are through. -/
def proposes (id : FileId) : Prop :=
  ∃ scores expanded,
    index.scoreTexts unicode emptySearchLookup .default query .hot = .ok scores ∧
    index.expandNames emptySearchLookup .default query scores = .ok expanded ∧
    id ∈ index.seededScores unicode elapsed query .hot expanded

/-- Neither close names nor the content decide about a proposed record. -/
structure DeepNeutral : Prop where
  closeNames : ∀ expression, query.expression = some expression → ∀ id record,
    index.proposes unicode elapsed query id → index.records[id]? = some record →
    index.recordMatchesExpression unicode .hot (index.closeMatchesTerm unicode elapsed) record
        expression =
      index.recordMatchesExpression unicode .hot (index.recordMatchesTerm unicode elapsed .hot)
        record expression
  excluded : query.expression = none → ∀ id record,
    index.proposes unicode elapsed query id → index.records[id]? = some record →
    index.recordMatchesQuery unicode elapsed .hot record query = true →
    ∀ term ∈ query.excludedTerms, index.contentHas id term = false

variable {unicode} {elapsed} {index} {query}

theorem matchesQuery_expression (closed : Closed unicode index query) {expression : QueryExpr}
    (given : query.expression = some expression) (record : FileRecord) :
    index.recordMatchesQuery unicode elapsed .full record query =
      index.recordMatchesExpression unicode .hot (index.closeMatchesTerm unicode elapsed) record
        expression := by
  rw [recordMatchesQuery, given]
  exact matchesExpression_of_closed record expression (closed.expression expression given)

/-- Without an expression the full pass leaves out the records with an excluded term in the
content. -/
theorem matchesQuery_excluded (closed : Closed unicode index query)
    (none : query.expression = none) (record : FileRecord) :
    index.recordMatchesQuery unicode elapsed .full record query =
      (index.recordMatchesQuery unicode elapsed .hot record query &&
        query.excludedTerms.all fun term => !index.contentHas record.id term) := by
  have phrases : (query.phrases.all fun phrase => index.recordMatchesPhrase record phrase ||
      (SearchPass.full.includesDeep && index.contentMatchesPhrase unicode record.id phrase)) =
      query.phrases.all fun phrase => index.recordMatchesPhrase record phrase ||
        (SearchPass.hot.includesDeep && index.contentMatchesPhrase unicode record.id phrase) := by
    rw [Bool.eq_iff_iff, all_eq_true, all_eq_true]
    refine forall₂_congr fun phrase listed => ?_
    rw [contentMatchesPhrase_of_closed (closed.phrases phrase listed), Bool.and_false,
      Bool.and_false]
  have terms : (query.excludedTerms.all fun term => !(index.recordContainsTerm record term ||
      (SearchPass.full.includesDeep && index.contentHas record.id term))) =
      ((query.excludedTerms.all fun term => !(index.recordContainsTerm record term ||
        (SearchPass.hot.includesDeep && index.contentHas record.id term))) &&
        query.excludedTerms.all fun term => !index.contentHas record.id term) := by
    rw [Bool.eq_iff_iff, Bool.and_eq_true, all_eq_true, all_eq_true, all_eq_true]
    have full : SearchPass.full.includesDeep = true := rfl
    have hot : SearchPass.hot.includesDeep = false := rfl
    simp only [full, hot, Bool.true_and, Bool.false_and, Bool.or_false, Bool.not_or,
      Bool.and_eq_true]
    exact ⟨fun all => ⟨fun term listed => (all term listed).1, fun term listed =>
      (all term listed).2⟩, fun both term listed => ⟨both.1 term listed, both.2 term listed⟩⟩
  have proximities : (if SearchPass.full.includesDeep = true then query.proximities.all
      fun proximity => index.contentMatchesProximity record.id proximity
      else query.proximities.isEmpty) = true := by
    rw [closed.proximities]
    rfl
  have alsoProximities : (if SearchPass.hot.includesDeep = true then query.proximities.all
      fun proximity => index.contentMatchesProximity record.id proximity
      else query.proximities.isEmpty) = true := by
    rw [closed.proximities]
    rfl
  rw [recordMatchesQuery, recordMatchesQuery, none]
  dsimp only
  rw [phrases, terms, proximities, alsoProximities]
  generalize (query.excludedTerms.all fun term => !index.contentHas record.id term) = content
  cases content with
  | true => simp only [Bool.and_true]
  | false => rw [Bool.and_false, Bool.and_false, Bool.false_and, Bool.false_and, Bool.false_and]

/-- The condition is that both passes match the same proposed records. -/
theorem deepNeutral_iff (well : index.WellIndexed) (closed : Closed unicode index query) :
    index.DeepNeutral unicode elapsed query ↔ ∀ id record,
      index.proposes unicode elapsed query id → index.records[id]? = some record →
      index.recordMatchesQuery unicode elapsed .full record query =
        index.recordMatchesQuery unicode elapsed .hot record query := by
  constructor
  case mp =>
    intro neutral id record proposed live
    cases given : query.expression with
    | some expression =>
        rw [matchesQuery_expression closed given]
        have hot : index.recordMatchesQuery unicode elapsed .hot record query =
            index.recordMatchesExpression unicode .hot (index.recordMatchesTerm unicode elapsed
              .hot) record expression := by
          rw [recordMatchesQuery, given]
        rw [hot]
        exact neutral.closeNames expression given id record proposed live
    | none =>
        rw [matchesQuery_excluded closed given]
        cases hot : index.recordMatchesQuery unicode elapsed .hot record query with
        | false => rfl
        | true =>
            rw [Bool.true_and, all_eq_true]
            intro term listed
            rw [well.recordId live, neutral.excluded given id record proposed live hot term listed]
            rfl
  case mpr =>
    intro same
    refine ⟨fun expression given id record proposed live => ?_,
      fun given id record proposed live hot term listed => ?_⟩
    · rw [← matchesQuery_expression closed given, same id record proposed live, recordMatchesQuery,
        given]
    · have full := same id record proposed live
      rw [matchesQuery_excluded closed given, hot, Bool.true_and, all_eq_true] at full
      have absent := full term listed
      rwa [well.recordId live, Bool.not_eq_true'] at absent

end Condition

section General

variable {scores : Scores} {id : FileId} {pass : SearchPass}

/-- A live record with an entry has a hit just if it matches. -/
theorem mem_hits_iff (well : index.WellIndexed) {record : FileRecord}
    (live : index.records[id]? = some record) (entered : id ∈ scores) :
    (∃ hit ∈ scores.toList.filterMap (index.rankedHit unicode elapsed query pass),
        hit.record.id = id) ↔
      index.recordMatchesQuery unicode elapsed pass record query = true := by
  constructor
  case mp =>
    rintro ⟨hit, listed, own⟩
    rcases mem_filterMap.mp listed with ⟨entry, -, found⟩
    have key := id_rankedHit well found
    rw [own] at key
    rw [rankedHit, ← key, live, Option.bind_some] at found
    split at found
    case isTrue matched => exact matched
    case isFalse => cases found
  case mpr =>
    intro matched
    rcases Option.isSome_iff_exists.mp (ExtTreeMap.mem_iff_isSome_getElem?.mp entered) with
      ⟨rank, stored⟩
    have found : index.rankedHit unicode elapsed query pass (id, rank) =
        some ⟨record, (rank.boost (index.compositeBoosts unicode elapsed record query
          pass)).finish.1, (rank.boost (index.compositeBoosts unicode elapsed record query
            pass)).finish.2⟩ := by
      rw [rankedHit, live, Option.bind_some]
      exact if_pos matched
    refine ⟨_, mem_filterMap.mpr ⟨(id, rank), ?_, found⟩, well.recordId live⟩
    exact ExtTreeMap.mem_toList_iff_getElem?_eq_some.mpr stored

/-- Where the matches are the same, so are the hits. -/
theorem hits_of_closed (closed : Closed unicode index query)
    (same : ∀ id ∈ scores, ∀ record, index.records[id]? = some record →
      index.recordMatchesQuery unicode elapsed .full record query =
        index.recordMatchesQuery unicode elapsed .hot record query) :
    scores.toList.filterMap (index.rankedHit unicode elapsed query .full) =
      scores.toList.filterMap (index.rankedHit unicode elapsed query .hot) := by
  refine filterMap_congr fun entry listed => ?_
  have entered : entry.1 ∈ scores := by
    refine ExtTreeMap.mem_iff_isSome_getElem?.mpr ?_
    rw [ExtTreeMap.mem_toList_iff_getElem?_eq_some.mp listed]
    rfl
  rw [rankedHit, rankedHit]
  cases live : index.records[entry.1]? with
  | none => rfl
  | some record =>
      rw [Option.bind_some, Option.bind_some, same entry.1 entered record live,
        compositeBoosts_of_closed closed]

/-- The general pass for any query behind a closed gate, by the same scores. -/
theorem queryGeneralPass_of_closed (well : index.WellIndexed)
    (derived : index.ColumnsDerived unicode) (closed : Closed unicode index query) :
    ∃ scores expanded,
      index.scoreTexts unicode emptySearchLookup .default query .hot = .ok scores ∧
      index.expandNames emptySearchLookup .default query scores = .ok expanded ∧
      (∀ id, id ∈ index.seededScores unicode elapsed query .hot scores →
        id ∈ index.seededScores unicode elapsed query .hot expanded) ∧
      ∀ pass limit,
        index.queryGeneralPass unicode elapsed emptySearchLookup .default query pass limit =
          .ok (topHits unicode ((index.seededScores unicode elapsed query .hot
            (if scores.size < limit then expanded else scores)).toList.filterMap
              (index.rankedHit unicode elapsed query pass)) limit) := by
  have leading : index.leadingIds emptySearchLookup .default query =
      .ok (idsIn (index.leadingIds emptySearchLookup .default query)) := by
    rw [leadingIds]
    split
    case isTrue => rfl
    case isFalse => exact namePrefixIds_ok answers_emptySearchLookup _
  have texts : ∃ scores, index.scoreTexts unicode emptySearchLookup .default query .hot =
      .ok scores := by
    rw [scoreTexts, leading]
    exact ⟨_, rfl⟩
  rcases texts with ⟨scores, scored⟩
  have parts : index.expandNames emptySearchLookup .default query scores =
      .ok (addScores scores (index.namePartIds emptySearchLookup .default query)
        Points.substringName .substringName) := by
    rw [expandNames, nameSubstringIds_ok answers_emptySearchLookup]
    rfl
  refine ⟨scores, _, scored, parts, fun id member => ?_, fun pass limit => ?_⟩
  · cases listed : index.namePartIds emptySearchLookup .default query with
    | nil => exact member
    | cons first rest =>
        have part : first ∈ index.namePartIds emptySearchLookup .default query := by
          rw [listed]
          exact mem_cons_self
        have terms : query.terms ≠ [] := by
          intro empty
          have text := (live_of_namePart part).2
          rw [queryText, empty] at text
          cases text
        exact mem_seededScores_mono (fun id known => contains_addScores.mpr (Or.inl known)) terms
          member
  · have own : index.scoreTexts unicode emptySearchLookup .default query pass = .ok scores := by
      cases pass with
      | hot => exact scored
      | full => exact (scoreTexts_of_closed well derived closed).trans scored
    have seeded : ∀ scores, index.seededScores unicode elapsed query pass scores =
        index.seededScores unicode elapsed query .hot scores := by
      cases pass with
      | hot => exact fun _ => rfl
      | full => exact seededScores_of_closed closed
    rw [queryGeneralPass_eq own, parts]
    split
    case isTrue => exact congrArg (fun scores => Except.ok (topHits unicode
      (scores.toList.filterMap (index.rankedHit unicode elapsed query pass)) limit)) (seeded _)
    case isFalse => exact congrArg (fun scores => Except.ok (topHits unicode
      (scores.toList.filterMap (index.rankedHit unicode elapsed query pass)) limit)) (seeded _)

/-- The general passes agree just if both match the same proposed records. -/
theorem general_agree_iff (well : index.WellIndexed) (derived : index.ColumnsDerived unicode)
    (closed : Closed unicode index query) :
    (∀ limit, limit ≠ 0 →
      index.queryGeneralPass unicode elapsed emptySearchLookup .default query .hot limit =
        index.queryGeneralPass unicode elapsed emptySearchLookup .default query .full limit) ↔
      index.DeepNeutral unicode elapsed query := by
  rw [deepNeutral_iff well closed]
  rcases @queryGeneralPass_of_closed unicode elapsed index query well derived closed with
    ⟨scores, expanded, scored, parts, within, general⟩
  simp only [general, Except.ok.injEq]
  constructor
  case mp =>
    rintro same id record ⟨ownScores, ownExpanded, ownScored, ownParts, entered⟩ live
    rw [scored] at ownScored
    rw [← Except.ok.inj ownScored, parts] at ownParts
    rw [← Except.ok.inj ownParts] at entered
    let limit := scores.size + 1 +
      ((index.seededScores unicode elapsed query .hot expanded).toList.filterMap
        (index.rankedHit unicode elapsed query .hot)).length +
      ((index.seededScores unicode elapsed query .hot expanded).toList.filterMap
        (index.rankedHit unicode elapsed query .full)).length
    have large := same limit (by omega)
    rw [if_pos (by omega)] at large
    have perm := perm_of_topHits (distinct_ranked well _) (distinct_ranked well _) (by omega)
      (by omega) large
    have hot := @mem_hits_iff unicode elapsed index query _ _ .hot well _ live entered
    have full := @mem_hits_iff unicode elapsed index query _ _ .full well _ live entered
    rw [Bool.eq_iff_iff, ← hot, ← full]
    exact exists_congr fun hit => and_congr_left fun _ => perm.mem_iff.symm
  case mpr =>
    intro same limit _
    have agree : ∀ id ∈ index.seededScores unicode elapsed query .hot
        (if scores.size < limit then expanded else scores), ∀ record,
        index.records[id]? = some record →
        index.recordMatchesQuery unicode elapsed .full record query =
          index.recordMatchesQuery unicode elapsed .hot record query := by
      intro id entered record live
      refine same id record ⟨scores, expanded, scored, parts, ?_⟩ live
      split at entered
      case isTrue => exact entered
      case isFalse => exact within id entered
    rw [hits_of_closed closed agree]

end General

section Plain

theorem plainTally_of_closed (well : index.WellIndexed) (derived : index.ColumnsDerived unicode)
    (closed : Closed unicode index query) (id : FileId) :
    index.plainTally unicode emptySearchLookup .default query .full id =
      index.plainTally unicode emptySearchLookup .default query .hot id := by
  have fuzzy : ∀ pass, (query.terms.flatMap fun term =>
      index.fuzzyTally unicode emptySearchLookup .default pass term id) = [] := by
    refine fun pass => flatMap_eq_nil_iff.mpr fun term listed => ?_
    rw [fuzzyTally, fuzzyFound_of_closed well derived (closed.terms term listed)]
    rfl
  have content : (query.terms.flatMap fun term => index.termTally term id ++
        index.contentTally .full term id) =
      query.terms.flatMap fun term => index.termTally term id ++
        index.contentTally .hot term id := by
    rw [flatMap_def, flatMap_def]
    refine congrArg List.flatten (map_congr_left fun term listed => ?_)
    rw [contentTally, contentTally,
      contentHas_of_absent (absent_of_closed (closed.terms term listed)), Bool.and_false,
      Bool.and_false]
  rw [plainTally, plainTally, termsTally, termsTally, fuzzy, fuzzy, content]

theorem mem_termCandidateIds {term : Text} {id : FileId}
    (listed : Lists index.nameTerms term id) : id ∈ index.termCandidateIds .hot term := by
  rw [termCandidateIds, if_neg (by decide), ExtTreeSet.mem_ofList]
  refine contains_iff_mem.mpr (mem_flatMap.mpr ⟨index.nameTerms[term]?,
    mem_cons_self, ?_⟩)
  rw [ExtTreeSet.mem_toList]
  exact mem_getD_iff_lists.mpr listed

theorem plainCandidateIds_of_closed {term : Text}
    (closed : index.termMayHaveDeepDelta unicode term = false) :
    index.plainCandidateIds unicode emptySearchLookup .default .full term =
      index.plainCandidateIds unicode emptySearchLookup .default .hot term := by
  refine ExtTreeSet.ext_mem fun id => ?_
  have none : index.closeIds unicode emptySearchLookup .default .hot term = ∅ := rfl
  rw [plainCandidateIds, plainCandidateIds, mem_foldl_insert, mem_foldl_insert,
    termCandidateIds_of_closed closed, none]
  constructor
  case mp =>
    rintro (near | candidate)
    · rw [ExtTreeSet.mem_toList, ExtTreeSet.mem_iff_contains] at near
      exact Or.inr (mem_termCandidateIds (fuzzyIds_of_closed closed near))
    · exact Or.inr candidate
  case mpr =>
    rintro (impossible | candidate)
    · cases impossible
    · exact Or.inr candidate

theorem argmin_congr {Item : Type} {size other : Item → Nat} {items : List Item}
    (same : ∀ item ∈ items, size item = other item) : items.argmin size = items.argmin other := by
  induction items with
  | nil => rfl
  | cons item items ih =>
      rw [forall_mem_cons] at same
      rw [argmin_cons, argmin_cons, ih same.2]
      cases least : items.argmin other with
      | none => rfl
      | some least =>
          dsimp only
          rw [same.1, same.2 _ (argmin_mem least)]

theorem isCandidate_of_closed (closed : Closed unicode index query) (id : FileId) :
    index.isCandidate unicode emptySearchLookup .default query .full id =
      index.isCandidate unicode emptySearchLookup .default query .hot id := by
  have anchor : index.anchorTerm unicode emptySearchLookup .default query .full =
      index.anchorTerm unicode emptySearchLookup .default query .hot := by
    refine argmin_congr fun term listed => ?_
    rw [plainCandidateIds_of_closed (closed.terms term listed)]
  rw [isCandidate, isCandidate, anchor]
  cases least : index.anchorTerm unicode emptySearchLookup .default query .hot with
  | none => rfl
  | some term =>
      rw [Option.any_some, Option.any_some,
        plainCandidateIds_of_closed (closed.terms term (argmin_mem least))]

/-- Plain terms behind a closed gate have the same hits in both passes. -/
theorem plain_agree (well : index.WellIndexed) (derived : index.ColumnsDerived unicode)
    (closed : Closed unicode index query) (plain : isPlain query = true)
    (terms : query.terms ≠ []) (limit : Nat) :
    index.queryPass unicode elapsed emptySearchLookup .default query .hot limit =
      index.queryPass unicode elapsed emptySearchLookup .default query .full limit := by
  rcases @queryPass_plain unicode elapsed index emptySearchLookup .default query .hot well
    answers_emptySearchLookup plain terms with ⟨hot, hotFound, hotListed⟩
  rcases @queryPass_plain unicode elapsed index emptySearchLookup .default query .full well
    answers_emptySearchLookup plain terms with ⟨full, fullFound, fullListed⟩
  have ranks : ∀ id, index.plainRank unicode emptySearchLookup .default query .full id =
      index.plainRank unicode emptySearchLookup .default query .hot id := by
    intro id
    rw [plainRank, plainRank, plainTally_of_closed well derived closed,
      isCandidate_of_closed closed]
  have same : ∀ id, index.hitFor unicode elapsed query .full
        (index.plainRank unicode emptySearchLookup .default query .full) id =
      index.hitFor unicode elapsed query .hot
        (index.plainRank unicode emptySearchLookup .default query .hot) id := by
    intro id
    have boosts : index.hitOf unicode elapsed query .full =
        index.hitOf unicode elapsed query .hot := by
      funext record rank
      rw [hitOf, hitOf, compositeBoosts_of_closed closed]
    rw [hitFor, hitFor, ranks, boosts]
  have perm : hot.Perm full := by
    rw [perm_ext_iff_of_nodup (nodup_of_distinct hotListed.distinct)
      (nodup_of_distinct fullListed.distinct)]
    intro hit
    rw [hotListed.mem_iff, fullListed.mem_iff]
    exact exists_congr fun id => by rw [same id]
  rw [hotFound, fullFound, topHits_perm hotListed.distinct perm]

end Plain

section Runs

/-- Where the gate lets no full pass run, the hot pass has its hits for every limit just if neither
close names nor the content decide about a proposed record. -/
theorem closedGate_agrees_iff (unicode : Unicode) (elapsed : FileRecord → Option Nat)
    (operations : List IndexOp) (query : SearchQuery)
    (gate : (new.run unicode operations).queryMayHaveDeepDelta unicode query = false) :
    (∀ limit, (new.run unicode operations).queryPass unicode elapsed emptySearchLookup .default
        query .hot limit =
      (new.run unicode operations).queryPass unicode elapsed emptySearchLookup .default query .full
        limit) ↔
      (new.run unicode operations).DeepNeutral unicode elapsed query := by
  have well := wellIndexed_run unicode operations
  have derived := columnsDerived_run unicode operations
  have closed := closed_of_gate gate
  by_cases plain : isPlain query = true
  · have simple := plainQuery_of_isPlain plain
    have neutral : (new.run unicode operations).DeepNeutral unicode elapsed query := by
      refine ⟨fun expression given => ?_, fun _ id record _ _ _ term listed => ?_⟩
      · rw [simple.expression] at given
        cases given
      · rw [simple.excludedTerms] at listed
        cases listed
    refine iff_of_true (fun limit => ?_) neutral
    by_cases terms : query.terms = []
    · -- A plain query without terms is empty.
      have empty : query.isEmpty = true := by
        simp only [SearchQuery.isEmpty, terms, simple.expression, simple.excludedTerms,
          simple.phrases, simple.proximities, simple.filters, isEmpty_nil,
          Option.isNone_none, Bool.and_self]
      rw [queryPass, queryPass, if_pos (Or.inl empty), if_pos (Or.inl empty)]
    · exact plain_agree well derived closed plain terms limit
  · by_cases empty : query.isEmpty = true
    · refine absurd ?_ plain
      simp only [SearchQuery.isEmpty, Bool.and_eq_true] at empty
      have intent : (QueryIntent.fromQuery query).isEmpty = true := by
        rw [QueryIntent.fromQuery, if_pos (by simp [empty])]
        rfl
      simp only [isPlain, empty, intent, Bool.and_self]
    · rw [← general_agree_iff well derived closed]
      have passes : ∀ pass limit, limit ≠ 0 →
          (new.run unicode operations).queryPass unicode elapsed emptySearchLookup .default query
              pass limit =
            (new.run unicode operations).queryGeneralPass unicode elapsed emptySearchLookup
              .default query pass limit := by
        intro pass limit positive
        rw [queryPass, if_neg (not_or.mpr ⟨empty, positive⟩), if_neg plain]
      constructor
      case mp =>
        intro same limit positive
        rw [← passes .hot limit positive, ← passes .full limit positive]
        exact same limit
      case mpr =>
        intro same limit
        by_cases zero : limit = 0
        · rw [queryPass, queryPass, if_pos (Or.inr zero), if_pos (Or.inr zero)]
        · rw [passes .hot limit zero, passes .full limit zero]
          exact same limit zero

def closeIndex : SearchIndex :=
  new.run Unicode.ascii [.insert (namedRecord 2 "xy report".toList)]

/-- What the text "q report" is parsed to. -/
def closeQuery : SearchQuery where
  terms := ["q".toList, "report".toList]
  excludedTerms := []
  phrases := []
  proximities := []
  filters := []
  expression := some (.and [.term "q".toList, .term "report".toList])

theorem closedGate_agrees_iff_close :
    (∀ limit, closeIndex.queryPass Unicode.ascii (fun _ => none) emptySearchLookup .default
        closeQuery .hot limit =
      closeIndex.queryPass Unicode.ascii (fun _ => none) emptySearchLookup .default closeQuery .full
        limit) ↔
      closeIndex.DeepNeutral Unicode.ascii (fun _ => none) closeQuery :=
  closedGate_agrees_iff Unicode.ascii (fun _ => none) [.insert (namedRecord 2 "xy report".toList)]
    closeQuery (by decide +kernel)

/-- The gate is closed, but two edits make the token "xy" of "q". -/
theorem closedGate_close :
    closeIndex.queryMayHaveDeepDelta Unicode.ascii closeQuery = false ∧
      idsOf (hitsOf (closeIndex.queryPass Unicode.ascii (fun _ => none) emptySearchLookup .default
        closeQuery .hot 1)) = [] ∧
      idsOf (hitsOf (closeIndex.queryPass Unicode.ascii (fun _ => none) emptySearchLookup .default
        closeQuery .full 1)) = [2] := by
  have general : ∀ pass, closeIndex.queryPass Unicode.ascii (fun _ => none) emptySearchLookup
      .default closeQuery pass 1 = closeIndex.queryGeneralPass Unicode.ascii (fun _ => none)
        emptySearchLookup .default closeQuery pass 1 := by
    intro pass
    rw [queryPass, if_neg (by decide), if_neg (by decide +kernel)]
  have candidates : ∀ pass, closeQuery.expression.bind
      (closeIndex.expressionCandidateIds Unicode.ascii pass) =
        closeIndex.smallestCandidates Unicode.ascii pass none
          [.term "q".toList, .term "report".toList] := by
    intro pass
    have nothing : intersectCandidateSets [] = none := by
      rw [intersectCandidateSets, mergeSort_nil]
    have exact : [QueryExpr.term "q".toList, .term "report".toList].filterMap
        (closeIndex.exactExpressionCandidateIds Unicode.ascii pass) = [] := rfl
    rw [closeQuery, Option.bind_some, expressionCandidateIds, exact, nothing]
  refine ⟨by decide +kernel, ?_, ?_⟩
  · have holds : (closeIndex.scoreTexts Unicode.ascii emptySearchLookup .default closeQuery
        .hot).isOk = true := by
      decide +kernel
    rw [general, queryGeneralPass_eq (ok_of_isOk holds), if_neg (by decide +kernel), Except.map,
      scoredHits_eq, seededScores, candidates]
    decide +kernel
  · have holds : (closeIndex.scoreTexts Unicode.ascii emptySearchLookup .default closeQuery
        .full).isOk = true := by
      decide +kernel
    rw [general, queryGeneralPass_eq (ok_of_isOk holds), if_neg (by decide +kernel), Except.map,
      scoredHits_eq, seededScores, candidates]
    decide +kernel

end Runs

end SearchIndex

end Gfm.Search

import Gfm.Search.FastPathExact

/-!
# The gate of the full pass

A streamed query runs the full pass only if the gate lets it. The gate looks at the terms, phrases
and expressions of the query one by one: whether the content has them, and whether the index lists
another name token close to them. Where it says no, both passes score alike.
-/

namespace Gfm.Search

open Folds List Postings Std

/-- A token is a part of its text. -/
theorem infix_of_splitOnP {drop : Char → Bool} (text : Text) :
    (∀ part ∈ text.splitOnP drop, part <:+: text) ∧
      ∀ head ∈ (text.splitOnP drop).head?, head <+: text := by
  induction text with
  | nil =>
      rw [splitOnP_nil]
      exact ⟨fun part listed => mem_singleton.mp listed ▸ infix_refl _,
        fun head first => Option.some.inj first ▸ prefix_refl _⟩
  | cons char text ih =>
      rw [splitOnP_cons_eq_if_modifyHead]
      split
      case isTrue =>
        refine ⟨fun part listed => ?_, fun head first =>
          Option.some.inj first ▸ nil_prefix⟩
        rcases mem_cons.mp listed with rfl | later
        · exact nil_infix
        · exact (ih.1 part later).trans (suffix_cons char text).isInfix
      case isFalse =>
        cases parts : text.splitOnP drop with
        | nil => exact absurd parts (splitOnP_ne_nil _ _)
        | cons head rest =>
            have front : char :: head <+: char :: text :=
              (prefix_cons_inj char).mpr (ih.2 head (by rw [parts]; rfl))
            refine ⟨fun part listed => ?_, fun other first => Option.some.inj first ▸ front⟩
            rcases mem_cons.mp listed with rfl | later
            · exact front.isInfix
            · refine (ih.1 part ?_).trans (suffix_cons char text).isInfix
              rw [parts]
              exact mem_cons_of_mem _ later

theorem infix_of_tokenize {unicode : Unicode} {token text : Text}
    (listed : token ∈ unicode.tokenize text) : token <:+: text :=
  (infix_of_splitOnP text).1 token (mem_filter.mp listed).1

namespace SearchIndex

variable (unicode : Unicode) (index : SearchIndex)

section Gate

def mayHaveFuzzyTermDelta (term : Text) : Bool :=
  isFuzzyTerm unicode term && (deletionKeys unicode term 2).any fun key =>
    (index.fuzzyTerms[key]?).any fun terms => terms.toList.any fun candidate => candidate ≠ term

/-- The test of a term is the same in a query and in an expression. -/
def termMayHaveDeepDelta (term : Text) : Bool :=
  (index.contentTerms[term]?).isSome || index.mayHaveFuzzyTermDelta unicode term

def phraseMayHaveDeepDelta (phrase : Text) : Bool :=
  (rarestContentPostings (unicode.tokenize (unicode.normalize phrase)) index.contentTerms).isSome

mutual

def expressionMayHaveDeepDelta : QueryExpr → Bool
  | .term term => index.termMayHaveDeepDelta unicode term
  | .phrase phrase => index.phraseMayHaveDeepDelta unicode phrase
  | .proximity _ | .not _ => true
  | .filter _ => false
  | .and expressions | .or expressions => someMayHaveDeepDelta expressions

def someMayHaveDeepDelta : List QueryExpr → Bool
  | [] => false
  | expression :: expressions =>
      expressionMayHaveDeepDelta expression || someMayHaveDeepDelta expressions

end

def queryMayHaveDeepDelta (query : SearchQuery) : Bool :=
  !query.proximities.isEmpty || query.terms.any (index.termMayHaveDeepDelta unicode) ||
    query.phrases.any (index.phraseMayHaveDeepDelta unicode) ||
    query.expression.any (index.expressionMayHaveDeepDelta unicode)

end Gate

variable {unicode} {index} {query : SearchQuery} {term phrase : Text}

section Content

theorem contentIds_of_absent (absent : index.contentTerms[term]? = none) :
    index.contentIds term = [] := by
  rw [contentIds, absent]
  rfl

theorem contentHas_of_absent (absent : index.contentTerms[term]? = none) (id : FileId) :
    index.contentHas id term = false := by
  rw [contentHas, absent]
  rfl

theorem contentPhraseIds_of_closed (closed : index.phraseMayHaveDeepDelta unicode phrase = false) :
    index.contentPhraseIds unicode phrase = [] := by
  rw [phraseMayHaveDeepDelta, Option.isSome_eq_false_iff, Option.isNone_iff_eq_none] at closed
  rw [contentPhraseIds, closed]

theorem contentMatchesPhrase_of_closed
    (closed : index.phraseMayHaveDeepDelta unicode phrase = false) (id : FileId) :
    index.contentMatchesPhrase unicode id phrase = false := by
  refine Bool.not_eq_true _ |>.mp fun found => ?_
  have listed := mem_contentPhraseIds.mpr found
  rw [contentPhraseIds_of_closed closed] at listed
  cases listed

end Content

section Fuzzy

theorem absent_of_closed (closed : index.termMayHaveDeepDelta unicode term = false) :
    index.contentTerms[term]? = none := by
  rw [termMayHaveDeepDelta, Bool.or_eq_false_iff] at closed
  rw [← Option.isNone_iff_eq_none, ← Option.isSome_eq_false_iff]
  exact closed.1

/-- Without archives, the candidates of a key are those that the index lists. -/
theorem keyCandidates_listed {budget : SearchLookupBudget} {cancelled : FuzzyPoll → Bool}
    {item : Text × Nat} {candidates : List Text}
    (near : index.keyCandidates unicode emptySearchLookup.fuzzyTermsBounded budget cancelled item =
      .ok candidates) :
    ∀ candidate ∈ candidates, candidate ∈ ((index.fuzzyTerms[item.1]?).getD ∅).toList := by
  intro candidate among
  rw [keyCandidates] at near
  split at near
  case isTrue =>
    rcases bind_eq_ok near with ⟨-, -, later⟩
    rcases bind_eq_ok later with ⟨answer, answered, last⟩
    rcases bind_eq_ok last with ⟨-, -, result⟩
    rw [← Except.ok.inj result, mem_sortedTexts, ← Except.ok.inj answered] at among
    rcases mem_append.mp among with listed | answered
    · exact mem_of_mem_take listed
    · cases answered
  case isFalse =>
    rw [← Except.ok.inj near] at among
    exact mem_of_mem_take among

/-- Behind a closed gate, the only token near the term that is listed is the term itself. -/
theorem fuzzyIds_of_closed (closed : index.termMayHaveDeepDelta unicode term = false)
    {budget : QueryBudget} {id : FileId}
    (listed : (idsIn (index.fuzzyIdSet unicode emptySearchLookup budget term)).contains id) :
    Lists index.nameTerms term id := by
  rw [fuzzyIdSet] at listed
  cases found : index.fuzzyIds unicode emptySearchLookup.fuzzyTermsBounded
    budget.toSearchLookupBudget (fun _ => false) term with
  | error fault =>
      rw [found] at listed
      cases listed
  | ok pass =>
      rw [found] at listed
      have member : id ∈ pass.ids := by
        have inside : id ∈ ExtTreeSet.ofList pass.ids :=
          ExtTreeSet.mem_iff_contains.mpr listed
        rw [ExtTreeSet.mem_ofList] at inside
        exact contains_iff_mem.mp inside
      rw [fuzzyIds] at found
      rcases bind_eq_ok found with ⟨-, -, rest⟩
      by_cases fuzzy : isFuzzyTerm unicode term = true
      · rw [if_neg (not_not.mpr fuzzy)] at rest
        rw [termMayHaveDeepDelta, Bool.or_eq_false_iff, mayHaveFuzzyTermDelta, fuzzy,
          Bool.true_and, any_eq_false] at closed
        refine foldlM_keeps (fun pass : FuzzyPass => ∀ id ∈ pass.ids, Lists index.nameTerms term id)
          (fun {state next item} entered stepped holds => ?_) rest
          (fun _ impossible => by cases impossible) id member
        have key := mem_of_mem_take (fst_mem_of_mem_zipIdx entered)
        rw [considerKey] at stepped
        rcases bind_eq_ok stepped with ⟨-, -, later⟩
        rcases bind_eq_ok later with ⟨candidates, near, considered⟩
        have same : ∀ candidate ∈ candidates, candidate = term := by
          intro candidate among
          have named := keyCandidates_listed near candidate among
          refine by_contra fun other => closed.2 item.1 key ?_
          cases stored : index.fuzzyTerms[item.1]? with
          | none =>
              rw [stored] at named
              cases named
          | some terms =>
              rw [stored] at named
              rw [Option.any_some, any_eq_true]
              exact ⟨candidate, named, decide_eq_true other⟩
        refine foldlM_keeps (fun pass : FuzzyPass => ∀ id ∈ pass.ids,
          Lists index.nameTerms term id) (fun {state next item} entered stepped holds => ?_)
          considered holds
        rw [considerCandidate] at stepped
        rcases bind_eq_ok stepped with ⟨-, -, last⟩
        rw [← Except.ok.inj last]
        dsimp only
        split
        case isTrue =>
          intro id listed
          rcases mem_append.mp listed with before | new
          · exact holds id before
          · rw [same item.1 (fst_mem_of_mem_zipIdx entered), ExtTreeSet.mem_toList] at new
            exact mem_getD_iff_lists.mp new
        case isFalse => exact holds
      · rw [if_pos fuzzy] at rest
        rw [← Except.ok.inj rest] at member
        cases member

theorem containsTerm_of_lists (well : index.WellIndexed) (derived : index.ColumnsDerived unicode)
    {id : FileId} {record : FileRecord} (live : index.records[id]? = some record)
    (listed : Lists index.nameTerms term id) : index.recordContainsTerm record term = true := by
  have own : Lists (index.listing .nameTerms) term id ↔ index.Implies .nameTerms term id :=
    well.own rfl
  rcases own.mp listed with ⟨columns, stored, key⟩
  have token : term ∈ columns.nameTokens := key
  have named : columns.nameTokens = unicode.tokenize columns.name := by
    rcases derived id columns stored with ⟨source, rfl⟩ | ⟨given, rfl⟩
    · rfl
    · rfl
  rw [named] at token
  have inside : RecordColumns.contains columns.name term = true :=
    decide_eq_true (infix_of_tokenize token)
  rw [recordContainsTerm, well.recordId live, stored, Option.any_some, RecordColumns.containsTerm,
    inside]
  rfl

theorem fuzzyFound_of_closed (well : index.WellIndexed) (derived : index.ColumnsDerived unicode)
    (closed : index.termMayHaveDeepDelta unicode term = false) (budget : QueryBudget)
    (pass : SearchPass) (id : FileId) :
    index.fuzzyFound unicode emptySearchLookup budget pass term id = false := by
  rw [fuzzyFound, Bool.and_assoc, Bool.and_eq_false_iff]
  refine Or.inr ?_
  cases near : (idsIn (index.fuzzyIdSet unicode emptySearchLookup budget term)).contains id with
  | false => rfl
  | true =>
      cases live : index.records[id]? with
      | none => rfl
      | some record =>
          rw [Option.any_some,
            containsTerm_of_lists well derived live (fuzzyIds_of_closed closed near)]
          rfl

theorem addFuzzyScores_of_closed (well : index.WellIndexed)
    (derived : index.ColumnsDerived unicode)
    (closed : index.termMayHaveDeepDelta unicode term = false) (budget : QueryBudget)
    (scores : Scores) :
    index.addFuzzyScores unicode emptySearchLookup budget scores term = .ok scores := by
  rw [addFuzzyScores, fuzzyIdSet_ok answers_emptySearchLookup]
  have nothing : ((idsIn (index.fuzzyIdSet unicode emptySearchLookup budget term)).toList.filter
      fun id => (index.records[id]?).any fun record => !index.recordContainsTerm record term &&
        index.recordFuzzyMatchesTerm record term) = [] := by
    refine eq_nil_iff_forall_not_mem.mpr fun id listed => ?_
    rcases mem_filter.mp listed with ⟨near, close⟩
    have found := fuzzyFound_of_closed well derived closed budget .full id
    rw [ExtTreeSet.mem_toList, ExtTreeSet.mem_iff_contains] at near
    rw [fuzzyFound, near, close] at found
    cases found
  rw [Except.map, nothing]
  rfl

end Fuzzy

section Query

/-- What a closed gate says about the parts of a query. -/
structure Closed (unicode : Unicode) (index : SearchIndex) (query : SearchQuery) : Prop where
  proximities : query.proximities = []
  terms : ∀ term ∈ query.terms, index.termMayHaveDeepDelta unicode term = false
  phrases : ∀ phrase ∈ query.phrases, index.phraseMayHaveDeepDelta unicode phrase = false
  expression : ∀ expression, query.expression = some expression →
    index.expressionMayHaveDeepDelta unicode expression = false

theorem closed_of_gate (gate : index.queryMayHaveDeepDelta unicode query = false) :
    Closed unicode index query := by
  simp only [queryMayHaveDeepDelta, Bool.or_eq_false_iff, Bool.not_eq_false',
    List.isEmpty_iff, any_eq_false, Bool.not_eq_true] at gate
  rcases gate with ⟨⟨⟨proximities, terms⟩, phrases⟩, whole⟩
  refine ⟨proximities, terms, phrases, fun expression given => ?_⟩
  rw [given] at whole
  exact whole

variable {budget : QueryBudget} {scores : Scores}

theorem addQueryTerms_of_closed (closed : Closed unicode index query) :
    index.addQueryTerms query .full scores = index.addQueryTerms query .hot scores := by
  refine foldl_ext _ _ _ fun scores term listed => ?_
  rw [contentIds_of_absent (absent_of_closed (closed.terms term listed))]
  rfl

theorem addFuzzyTerms_of_closed (well : index.WellIndexed) (derived : index.ColumnsDerived unicode)
    {terms : List Text} (closed : ∀ term ∈ terms, index.termMayHaveDeepDelta unicode term = false) :
    index.addFuzzyTerms unicode emptySearchLookup budget scores terms = .ok scores := by
  induction terms with
  | nil => rfl
  | cons term terms ih =>
      rw [forall_mem_cons] at closed
      rw [addFuzzyTerms, addFuzzyScores_of_closed well derived closed.1]
      exact ih closed.2

theorem addPhraseScores_of_closed (closed : index.phraseMayHaveDeepDelta unicode phrase = false) :
    index.addPhraseScores unicode .full scores phrase =
      index.addPhraseScores unicode .hot scores phrase := by
  have content : (if SearchPass.full.includesDeep = true then
      index.contentPhraseIds unicode phrase else []) = [] := by
    rw [contentPhraseIds_of_closed closed]
    rfl
  rw [addPhraseScores, content]
  rfl

/-- Behind a closed gate, both passes give the same points. -/
theorem scoreTexts_of_closed (well : index.WellIndexed) (derived : index.ColumnsDerived unicode)
    (closed : Closed unicode index query) :
    index.scoreTexts unicode emptySearchLookup budget query .full =
      index.scoreTexts unicode emptySearchLookup budget query .hot := by
  have phrases : ∀ scores, query.phrases.foldl (index.addPhraseScores unicode .full) scores =
      query.phrases.foldl (index.addPhraseScores unicode .hot) scores := fun scores =>
    foldl_ext _ _ _ fun scores phrase listed =>
      addPhraseScores_of_closed (closed.phrases phrase listed)
  have fuzzy : ∀ scores, index.addQueryFuzzyTerms unicode emptySearchLookup budget query .full
      scores = index.addQueryFuzzyTerms unicode emptySearchLookup budget query .hot scores :=
    fun scores => addFuzzyTerms_of_closed well derived closed.terms
  have proximities : ∀ scores, index.addProximities query .full scores =
      index.addProximities query .hot scores := by
    intro scores
    simp only [addProximities, closed.proximities, foldl_nil, ite_self]
  simp only [scoreTexts, addQueryTerms_of_closed closed, fuzzy, phrases, proximities]

end Query

section Candidates

theorem termCandidateIds_of_closed (closed : index.termMayHaveDeepDelta unicode term = false) :
    index.termCandidateIds .full term = index.termCandidateIds .hot term := by
  have content : ((index.contentTerms[term]?).getD ∅).keys = [] := by
    rw [absent_of_closed closed]
    rfl
  rw [termCandidateIds, content, append_nil, ite_self]
  rfl

theorem phraseCandidateIds_of_closed
    (closed : index.phraseMayHaveDeepDelta unicode phrase = false) :
    index.phraseCandidateIds unicode .full phrase =
      index.phraseCandidateIds unicode .hot phrase := by
  rw [phraseCandidateIds, contentPhraseIds_of_closed closed]
  rfl

theorem some_cons_closed {expression : QueryExpr} {expressions : List QueryExpr}
    (closed : index.someMayHaveDeepDelta unicode (expression :: expressions) = false) :
    index.expressionMayHaveDeepDelta unicode expression = false ∧
      index.someMayHaveDeepDelta unicode expressions = false := by
  rwa [someMayHaveDeepDelta, Bool.or_eq_false_iff] at closed

theorem all_closed {expressions : List QueryExpr}
    (closed : index.someMayHaveDeepDelta unicode expressions = false) :
    ∀ expression ∈ expressions, index.expressionMayHaveDeepDelta unicode expression = false := by
  induction expressions with
  | nil => exact fun _ listed => by cases listed
  | cons expression expressions ih =>
      rcases some_cons_closed closed with ⟨first, rest⟩
      exact forall_mem_cons.mpr ⟨first, ih rest⟩

mutual

theorem exactCandidateIds_of_closed (expression : QueryExpr)
    (closed : index.expressionMayHaveDeepDelta unicode expression = false) :
    index.exactExpressionCandidateIds unicode .full expression =
      index.exactExpressionCandidateIds unicode .hot expression := by
  cases expression with
  | term term => rfl
  | phrase phrase =>
      rw [expressionMayHaveDeepDelta] at closed
      rw [exactExpressionCandidateIds, exactExpressionCandidateIds,
        phraseCandidateIds_of_closed closed]
  | proximity proximity => cases closed
  | filter filter => rfl
  | not expression => cases closed
  | and expressions =>
      rw [expressionMayHaveDeepDelta] at closed
      rw [exactExpressionCandidateIds, exactExpressionCandidateIds,
        exactCandidateSets_of_closed expressions closed]
  | or expressions =>
      rw [expressionMayHaveDeepDelta] at closed
      rw [exactExpressionCandidateIds, exactExpressionCandidateIds,
        exactCandidateSets_of_closed expressions closed]

theorem exactCandidateSets_of_closed (expressions : List QueryExpr)
    (closed : index.someMayHaveDeepDelta unicode expressions = false) :
    index.exactCandidateSets unicode .full expressions =
      index.exactCandidateSets unicode .hot expressions := by
  cases expressions with
  | nil => rfl
  | cons expression expressions =>
      rcases some_cons_closed closed with ⟨first, rest⟩
      rw [exactCandidateSets, exactCandidateSets, exactCandidateIds_of_closed expression first,
        exactCandidateSets_of_closed expressions rest]

end

mutual

/-- Behind a closed gate, both passes have the same candidates. -/
theorem candidateIds_of_closed (expression : QueryExpr)
    (closed : index.expressionMayHaveDeepDelta unicode expression = false) :
    index.expressionCandidateIds unicode .full expression =
      index.expressionCandidateIds unicode .hot expression := by
  cases expression with
  | term term =>
      rw [expressionMayHaveDeepDelta] at closed
      rw [expressionCandidateIds, expressionCandidateIds, termCandidateIds_of_closed closed]
  | phrase phrase =>
      rw [expressionMayHaveDeepDelta] at closed
      rw [expressionCandidateIds, expressionCandidateIds, phraseCandidateIds_of_closed closed]
  | proximity proximity => cases closed
  | filter filter => rfl
  | not expression => cases closed
  | and expressions =>
      rw [expressionMayHaveDeepDelta] at closed
      have exact : expressions.filterMap (index.exactExpressionCandidateIds unicode .full) =
          expressions.filterMap (index.exactExpressionCandidateIds unicode .hot) :=
        filterMap_congr fun expression listed =>
          exactCandidateIds_of_closed expression (all_closed closed expression listed)
      rw [expressionCandidateIds, expressionCandidateIds, exact,
        smallestCandidates_of_closed none expressions closed]
  | or expressions =>
      rw [expressionMayHaveDeepDelta] at closed
      rw [expressionCandidateIds, expressionCandidateIds,
        unionCandidates_of_closed ∅ expressions closed]

theorem smallestCandidates_of_closed (smallest : Option IdSet) (expressions : List QueryExpr)
    (closed : index.someMayHaveDeepDelta unicode expressions = false) :
    index.smallestCandidates unicode .full smallest expressions =
      index.smallestCandidates unicode .hot smallest expressions := by
  cases expressions with
  | nil => rfl
  | cons expression expressions =>
      rcases some_cons_closed closed with ⟨first, rest⟩
      rw [smallestCandidates, smallestCandidates, candidateIds_of_closed expression first,
        smallestCandidates_of_closed _ expressions rest]

theorem unionCandidates_of_closed (ids : IdSet) (expressions : List QueryExpr)
    (closed : index.someMayHaveDeepDelta unicode expressions = false) :
    index.unionCandidates unicode .full ids expressions =
      index.unionCandidates unicode .hot ids expressions := by
  cases expressions with
  | nil => rfl
  | cons expression expressions =>
      rcases some_cons_closed closed with ⟨first, rest⟩
      rw [unionCandidates, unionCandidates, candidateIds_of_closed expression first]
      cases index.expressionCandidateIds unicode .hot expression with
      | none => rfl
      | some candidates => exact unionCandidates_of_closed _ expressions rest

end

end Candidates

section Matching

variable {elapsed : FileRecord → Option Nat}

theorem compositeBoosts_of_closed (closed : Closed unicode index query) (record : FileRecord) :
    index.compositeBoosts unicode elapsed record query .full =
      index.compositeBoosts unicode elapsed record query .hot := by
  have each : ∀ columns, query.terms.map (index.termBoost record columns .full) =
      query.terms.map (index.termBoost record columns .hot) := by
    refine fun columns => map_congr_left fun term listed => ?_
    have absent := absent_of_closed (closed.terms term listed)
    have never : index.contentFrequency record.id term = 0 := by
      rw [contentFrequency, absent]
      rfl
    rw [termBoost, never]
    rfl
  simp only [compositeBoosts, each]

variable (unicode) (index) (elapsed)

/-- What a term means to a record if close names count but no content. -/
def closeMatchesTerm (record : FileRecord) (term : Text) : Bool :=
  index.recordContainsTerm record term || index.recordFuzzyMatchesTerm record term ||
    termMatchesIntent unicode elapsed term record

variable {unicode} {index} {elapsed}

theorem recordMatchesTerm_of_closed (closed : index.termMayHaveDeepDelta unicode term = false)
    (record : FileRecord) :
    index.recordMatchesTerm unicode elapsed .full record term =
      index.closeMatchesTerm unicode elapsed record term := by
  rw [recordMatchesTerm, contentHas_of_absent (absent_of_closed closed), Bool.and_false,
    Bool.or_false]
  rfl

mutual

/-- Behind a closed gate, the full pass differs by the close names only. -/
theorem matchesExpression_of_closed (record : FileRecord) (expression : QueryExpr)
    (closed : index.expressionMayHaveDeepDelta unicode expression = false) :
    index.recordMatchesExpression unicode .full (index.recordMatchesTerm unicode elapsed .full)
        record expression =
      index.recordMatchesExpression unicode .hot (index.closeMatchesTerm unicode elapsed) record
        expression := by
  cases expression with
  | term term =>
      rw [expressionMayHaveDeepDelta] at closed
      exact recordMatchesTerm_of_closed closed record
  | phrase phrase =>
      rw [expressionMayHaveDeepDelta] at closed
      rw [recordMatchesExpression, recordMatchesExpression, contentMatchesPhrase_of_closed closed,
        Bool.and_false, Bool.and_false]
  | proximity proximity => cases closed
  | filter filter => rfl
  | not expression => cases closed
  | and expressions =>
      rw [expressionMayHaveDeepDelta] at closed
      exact matchesAll_of_closed record expressions closed
  | or expressions =>
      rw [expressionMayHaveDeepDelta] at closed
      exact matchesAny_of_closed record expressions closed

theorem matchesAll_of_closed (record : FileRecord) (expressions : List QueryExpr)
    (closed : index.someMayHaveDeepDelta unicode expressions = false) :
    index.recordMatchesAll unicode .full (index.recordMatchesTerm unicode elapsed .full) record
        expressions =
      index.recordMatchesAll unicode .hot (index.closeMatchesTerm unicode elapsed) record
        expressions := by
  cases expressions with
  | nil => rfl
  | cons expression expressions =>
      rcases some_cons_closed closed with ⟨first, rest⟩
      rw [recordMatchesAll, recordMatchesAll, matchesExpression_of_closed record expression first,
        matchesAll_of_closed record expressions rest]

theorem matchesAny_of_closed (record : FileRecord) (expressions : List QueryExpr)
    (closed : index.someMayHaveDeepDelta unicode expressions = false) :
    index.recordMatchesAny unicode .full (index.recordMatchesTerm unicode elapsed .full) record
        expressions =
      index.recordMatchesAny unicode .hot (index.closeMatchesTerm unicode elapsed) record
        expressions := by
  cases expressions with
  | nil => rfl
  | cons expression expressions =>
      rcases some_cons_closed closed with ⟨first, rest⟩
      rw [recordMatchesAny, recordMatchesAny, matchesExpression_of_closed record expression first,
        matchesAny_of_closed record expressions rest]

end

end Matching

end SearchIndex

end Gfm.Search

import Gfm.Search.Tallies

/-!
# The short way and the general one

For a query of plain terms both ways give a record its points from the same texts, up to an order
that does not matter. They differ by the parts of names, which only the general pass looks for, by
the records that are no candidates of the term with the fewest, and by the empty name.
-/

namespace Gfm.Search

open List Postings Std

section Answers

/-- The archives never fail. -/
structure SearchLookup.Answers (lookup : SearchLookup) : Prop where
  prefixIds : ∀ key limit, ∃ ids, lookup.prefixIdsBounded key limit = .ok ids
  substringIds : ∀ key limit, ∃ ids, lookup.substringIdsBounded key limit = .ok ids
  fuzzyTerms : ∀ key limit, ∃ terms, lookup.fuzzyTermsBounded key limit = .ok terms

theorem answers_emptySearchLookup : emptySearchLookup.Answers :=
  ⟨fun _ _ => ⟨[], rfl⟩, fun _ _ => ⟨[], rfl⟩, fun _ _ => ⟨[], rfl⟩⟩

def idsIn : Except GfmError IdSet → IdSet
  | .error _ => ∅
  | .ok ids => ids

namespace SearchIndex

variable {unicode : Unicode} {index : SearchIndex} {lookup : SearchLookup} {budget : QueryBudget}

theorem boundedIds_ok {postings : PostingMap Text FileId} {maxIds : Nat} {enough : Bool}
    {answer : Text → Nat → Except GfmError (List FileId)}
    (answers : ∀ key limit, ∃ ids, answer key limit = .ok ids) (key : Text) :
    ∃ ids, index.boundedIds postings maxIds enough answer key = .ok ids := by
  rw [boundedIds]
  split
  case isTrue => exact ⟨_, rfl⟩
  case isFalse =>
    rcases answers key (maxIds - (((postings[key]?).getD ∅).toList.take maxIds).length) with
      ⟨ids, found⟩
    rw [found]
    exact ⟨_, rfl⟩

theorem namePrefixIds_ok (answers : lookup.Answers) (text : Text) :
    index.namePrefixIds lookup budget text =
      .ok (idsIn (index.namePrefixIds lookup budget text)) := by
  have found : ∃ ids, index.namePrefixIds lookup budget text = .ok ids := by
    rw [namePrefixIds]
    split
    case isTrue => exact ⟨∅, rfl⟩
    case isFalse => exact boundedIds_ok answers.prefixIds text
  rcases found with ⟨ids, same⟩
  rw [same]
  rfl

theorem gramSets_ok (answers : lookup.Answers) (grams : List Text) :
    ∃ sets, index.gramSets lookup budget grams = .ok sets := by
  induction grams with
  | nil => exact ⟨_, rfl⟩
  | cons gram grams ih =>
      rcases @boundedIds_ok index index.nameSubstrings budget.maxSubstringIdsPerGram false _
        answers.substringIds gram with ⟨ids, found⟩
      rcases ih with ⟨sets, rest⟩
      simp only [gramSets, bind, Except.bind]
      rw [found]
      dsimp only
      split
      case isTrue => exact ⟨_, rfl⟩
      case isFalse =>
        rw [rest]
        exact ⟨_, rfl⟩

theorem nameSubstringIds_ok (answers : lookup.Answers) (text : Text) :
    index.nameSubstringIds lookup budget text =
      .ok (idsIn (index.nameSubstringIds lookup budget text)) := by
  have found : ∃ ids, index.nameSubstringIds lookup budget text = .ok ids := by
    rw [nameSubstringIds]
    split
    case isTrue => exact ⟨∅, rfl⟩
    case isFalse =>
      rcases @gramSets_ok index lookup budget answers
        ((substringGrams text).take budget.maxSubstringGramsPerTerm) with ⟨sets, found⟩
      rw [found]
      exact ⟨_, rfl⟩
  rcases found with ⟨ids, same⟩
  rw [same]
  rfl

theorem fuzzyIdSet_ok (answers : lookup.Answers) (term : Text) :
    index.fuzzyIdSet unicode lookup budget term =
      .ok (idsIn (index.fuzzyIdSet unicode lookup budget term)) := by
  have polled : ∀ position, pollAt position false = .ok () := by
    intro position
    rw [pollAt]
    split
    case isTrue => rfl
    case isFalse => rfl
  have key : ∀ (state : FuzzyPass) (item : Text × Nat), ∃ after,
      index.considerKey unicode lookup.fuzzyTermsBounded budget.toSearchLookupBudget
        (fun _ => false) term state item = .ok after := by
    intro state item
    have candidates : ∃ terms, index.keyCandidates unicode lookup.fuzzyTermsBounded
        budget.toSearchLookupBudget (fun _ => false) item = .ok terms := by
      rw [keyCandidates]
      split
      case isTrue =>
        rcases answers.fuzzyTerms item.1 (min budget.maxFuzzyTermsPerKey
          (budget.maxFuzzyCandidatesPerTerm -
            (((index.fuzzyTerms[item.1]?).getD ∅).toList.take
              budget.maxFuzzyCandidatesPerTerm).length)) with ⟨terms, found⟩
        rw [found]
        exact ⟨_, rfl⟩
      case isFalse => exact ⟨_, rfl⟩
    rcases candidates with ⟨terms, found⟩
    rw [considerKey, polled, found]
    refine Folds.exists_foldlM_ok (fun state item => ?_) _ _
    rw [considerCandidate, polled]
    exact ⟨_, rfl⟩
  have found : ∃ ids, index.fuzzyIdSet unicode lookup budget term = .ok ids := by
    rw [fuzzyIdSet, fuzzyIds]
    by_cases fuzzy : ¬isFuzzyTerm unicode term
    · rw [if_pos fuzzy]
      exact ⟨_, rfl⟩
    · rw [if_neg fuzzy]
      rcases Folds.exists_foldlM_ok key ((deletionKeys unicode term 2).take
        budget.maxFuzzyKeysPerTerm).zipIdx ⟨[], []⟩ with ⟨after, found⟩
      rw [found]
      exact ⟨_, rfl⟩
  rcases found with ⟨ids, same⟩
  rw [same]
  rfl

end SearchIndex

end Answers

namespace SearchIndex

variable (unicode : Unicode) (index : SearchIndex) (lookup : SearchLookup) (budget : QueryBudget)
  (query : SearchQuery) (pass : SearchPass)

/-- The share of the lists of a term. -/
def termTally (term : Text) (id : FileId) : Tally :=
  shareOf (listedUnder index.nameTerms term id) Points.nameToken .substringName ++
    shareOf (listedUnder index.pathTerms term id) Points.pathComponent .pathComponent ++
    shareOf (listedUnder index.metadataTerms term id) Points.tag .tag ++
    shareOf (listedUnder index.extension term id) Points.extension .extension ++
    shareOf (listedUnder index.tags term id) Points.tag .tag

def contentTally (term : Text) (id : FileId) : Tally :=
  shareOf (pass.includesDeep && index.contentHas id term) Points.content .content

/-- A live record that is close to a term without having it. -/
def fuzzyFound (term : Text) (id : FileId) : Bool :=
  pass.includesDeep && (idsIn (index.fuzzyIdSet unicode lookup budget term)).contains id &&
    (index.records[id]?).any fun record =>
      !index.recordContainsTerm record term && index.recordFuzzyMatchesTerm record term

def fuzzyTally (term : Text) (id : FileId) : Tally :=
  shareOf (index.fuzzyFound unicode lookup budget pass term id) Points.fuzzyName .fuzzyName

def leadingTally (id : FileId) : Tally :=
  shareOf ((idsIn (index.namePrefixIds lookup budget (queryText query))).contains id)
    Points.prefixName .prefixName

/-- The points for the tokens, the content and close names, in the order of the general pass. -/
def termsTally (id : FileId) : Tally :=
  index.leadingTally lookup budget query id ++
    (query.terms.flatMap fun term => index.termTally term id ++ index.contentTally pass term id) ++
      query.terms.flatMap fun term => index.fuzzyTally unicode lookup budget pass term id

/-- The simple passes ask for the name of an empty text, too. -/
def plainTally (id : FileId) : Tally :=
  shareOf (listedUnder index.nameExact (queryText query) id) Points.exactName .exactName ++
    index.termsTally unicode lookup budget query pass id

def generalTally (id : FileId) : Tally :=
  shareOf (!(queryText query).isEmpty && listedUnder index.nameExact (queryText query) id)
    Points.exactName .exactName ++ index.termsTally unicode lookup budget query pass id

section Scores

variable {unicode} {index} {lookup} {budget} {query} {pass} {scores : Scores}
  {points : FileId → Tally}

/-- The share of a set of ids. -/
theorem tallied_ids (tallied : Tallied scores points) (ids : IdSet) {share : Int}
    (positive : 0 < share) (reason : MatchReason) :
    Tallied (addScores scores ids.toList share reason) fun id =>
      points id ++ shareOf (ids.contains id) share reason := by
  have shares : ∀ id, decide (id ∈ ids.toList) = ids.contains id := by
    intro id
    rw [Bool.eq_iff_iff, decide_eq_true_eq, ExtTreeSet.mem_toList,
      ExtTreeSet.mem_iff_contains]
  exact (tallied.addScores (nodup_toList ids) positive reason).of_eq fun id => by rw [shares]

theorem listedUnder_eq (postings : PostingMap Text FileId) (key : Text) (id : FileId) :
    ((postings[key]?).getD ∅).contains id = listedUnder postings key id := by
  rw [listedUnder]
  cases postings[key]? with
  | none => exact ExtTreeSet.contains_empty
  | some ids => rfl

theorem tallied_listed (tallied : Tallied scores points) (postings : PostingMap Text FileId)
    (key : Text) {share : Int} (positive : 0 < share) (reason : MatchReason) :
    Tallied (addScores scores ((postings[key]?).getD ∅).toList share reason) fun id =>
      points id ++ shareOf (listedUnder postings key id) share reason :=
  (tallied_ids tallied _ positive reason).of_eq fun id => by rw [listedUnder_eq]

theorem tallied_terms (tallied : Tallied scores points) (term : Text) :
    Tallied (index.addTermScores scores term) fun id => points id ++ index.termTally term id := by
  have token : 0 < Points.nameToken := by decide
  have component : 0 < Points.pathComponent := by decide
  have tag : 0 < Points.tag := by decide
  have suffix : 0 < Points.extension := by decide
  have named := tallied_listed tallied index.nameTerms term token .substringName
  have placed := tallied_listed named index.pathTerms term component .pathComponent
  have noted := tallied_listed placed index.metadataTerms term tag .tag
  have extended := tallied_listed noted index.extension term suffix .extension
  have tagged := tallied_listed extended index.tags term tag .tag
  intro id
  refine (tagged id).trans (congrArg rankOf ?_)
  simp only [termTally, append_assoc]

theorem mem_contentIds (id : FileId) (term : Text) :
    id ∈ index.contentIds term ↔ index.contentHas id term = true := by
  rw [contentHas, contentIds]
  cases index.contentTerms[term]? with
  | none =>
      rw [Option.getD_none, ExtTreeMap.mem_keys]
      simp
  | some ids =>
      rw [Option.getD_some, ExtTreeMap.mem_keys, Option.any_some,
        ExtTreeMap.mem_iff_contains]

theorem tallied_content (tallied : Tallied scores points) (term : Text) :
    Tallied (addScores scores (index.contentIds term) Points.content .content) fun id =>
      points id ++ shareOf (index.contentHas id term) Points.content .content := by
  have distinct : (index.contentIds term).Nodup := ExtTreeMap.nodup_keys
  have positive : 0 < Points.content := by decide
  have listed : ∀ id, decide (id ∈ index.contentIds term) = index.contentHas id term := by
    intro id
    rw [Bool.eq_iff_iff, decide_eq_true_eq, mem_contentIds]
  exact (tallied.addScores distinct positive .content).of_eq fun id => by rw [listed]

theorem tallied_fuzzy (answers : lookup.Answers) (deep : pass.includesDeep = true)
    (tallied : Tallied scores points) (term : Text) :
    ∃ after, index.addFuzzyScores unicode lookup budget scores term = .ok after ∧
      Tallied after fun id => points id ++ index.fuzzyTally unicode lookup budget pass term id := by
  rw [addFuzzyScores, fuzzyIdSet_ok answers]
  refine ⟨_, rfl, fun id => ?_⟩
  have distinct : ((idsIn (index.fuzzyIdSet unicode lookup budget term)).toList.filter fun id =>
      (index.records[id]?).any fun record => !index.recordContainsTerm record term &&
        index.recordFuzzyMatchesTerm record term).Nodup := (nodup_toList _).filter _
  have positive : 0 < Points.fuzzyName := by decide
  have added := tallied.addScores distinct positive .fuzzyName
  refine (added id).trans (congrArg (fun listed =>
    rankOf (points id ++ shareOf listed Points.fuzzyName .fuzzyName)) ?_)
  rw [fuzzyFound, deep, Bool.true_and, Bool.eq_iff_iff, decide_eq_true_eq, mem_filter,
    Bool.and_eq_true, ExtTreeSet.mem_toList, ExtTreeSet.mem_iff_contains]

theorem tallied_fold (tallied : Tallied scores points) (terms : List Text) :
    Tallied (terms.foldl (fun scores term =>
        if pass.includesDeep then
          addScores (index.addTermScores scores term) (index.contentIds term) Points.content
            .content
        else index.addTermScores scores term) scores) fun id =>
      points id ++ terms.flatMap fun term => index.termTally term id ++
        index.contentTally pass term id := by
  induction terms generalizing scores points with
  | nil => exact tallied.of_eq fun id => by rw [flatMap_nil, append_nil]
  | cons term terms ih =>
      have step : Tallied (if pass.includesDeep then
            addScores (index.addTermScores scores term) (index.contentIds term) Points.content
              .content
          else index.addTermScores scores term) fun id =>
          points id ++ (index.termTally term id ++ index.contentTally pass term id) := by
        have listed := @tallied_terms index _ _ tallied term
        cases deep : pass.includesDeep with
        | true =>
            refine (tallied_content listed term).of_eq fun id => ?_
            rw [contentTally, deep, Bool.true_and, append_assoc]
        | false =>
            refine listed.of_eq fun id => ?_
            rw [contentTally, deep, Bool.false_and]
            exact congrArg (points id ++ ·) (append_nil _).symm
      exact (ih step).of_eq fun id => by rw [flatMap_cons, append_assoc]

theorem tallied_fuzzyTerms (answers : lookup.Answers) (deep : pass.includesDeep = true)
    (tallied : Tallied scores points) (terms : List Text) :
    ∃ after, index.addFuzzyTerms unicode lookup budget scores terms = .ok after ∧
      Tallied after fun id => points id ++ terms.flatMap fun term =>
        index.fuzzyTally unicode lookup budget pass term id := by
  induction terms generalizing scores points with
  | nil =>
      refine ⟨scores, rfl, tallied.of_eq fun id => ?_⟩
      rw [flatMap_nil, append_nil]
  | cons term terms ih =>
      rcases tallied_fuzzy answers deep tallied term with ⟨middle, found, step⟩
      rcases ih step with ⟨after, rest, whole⟩
      refine ⟨after, ?_, whole.of_eq fun id => ?_⟩
      · rw [addFuzzyTerms, found]
        exact rest
      · rw [flatMap_cons, append_assoc]

/-- What a query of plain terms is. -/
structure PlainQuery (query : SearchQuery) : Prop where
  expression : query.expression = none
  excludedTerms : query.excludedTerms = []
  phrases : query.phrases = []
  proximities : query.proximities = []
  filters : query.filters = []
  intent : (QueryIntent.fromQuery query).isEmpty = true

theorem plainQuery_of_isPlain (plain : isPlain query = true) : PlainQuery query := by
  simp only [isPlain, Bool.and_eq_true, Option.isNone_iff_eq_none, List.isEmpty_iff] at plain
  rcases plain with ⟨⟨⟨⟨⟨expression, excluded⟩, phrases⟩, proximities⟩, filters⟩, intent⟩
  exact ⟨expression, excluded, phrases, proximities, filters, intent⟩

theorem fuzzyTally_hot (shallow : ¬pass.includesDeep = true) (term : Text) (id : FileId) :
    index.fuzzyTally unicode lookup budget pass term id = [] := by
  rw [fuzzyTally, fuzzyFound, Bool.not_eq_true _ |>.mp shallow]
  rfl

theorem tallied_named :
    Tallied (index.exactScores query) fun id =>
      shareOf (!(queryText query).isEmpty && listedUnder index.nameExact (queryText query) id)
        Points.exactName .exactName := by
  have positive : 0 < Points.exactName := by decide
  have listed := tallied_listed Tallied.empty index.nameExact (queryText query) positive .exactName
  rw [exactScores]
  cases blank : (queryText query).isEmpty with
  | true => exact fun id => Tallied.empty id
  | false => exact listed

/-- The points of the texts in the general pass. -/
theorem scoreTexts_plain (answers : lookup.Answers) (plain : PlainQuery query) :
    ∃ scores, index.scoreTexts unicode lookup budget query pass = .ok scores ∧
      Tallied scores (index.generalTally unicode lookup budget query pass) := by
  have leading : index.leadingIds lookup budget query =
      .ok (idsIn (index.namePrefixIds lookup budget (queryText query))) := by
    rw [leadingIds]
    split
    case isTrue empty =>
      rw [List.isEmpty_iff.mp empty]
      rfl
    case isFalse => exact namePrefixIds_ok answers _
  have positive : 0 < Points.prefixName := by decide
  have lead := tallied_ids (@tallied_named index query)
    (idsIn (index.namePrefixIds lookup budget (queryText query))) positive .prefixName
  have listed : Tallied (index.addQueryTerms query pass (addScores (index.exactScores query)
      (idsIn (index.namePrefixIds lookup budget (queryText query))).toList Points.prefixName
        .prefixName)) _ := @tallied_fold index pass _ _ lead query.terms
  have found : ∃ after, index.addQueryFuzzyTerms unicode lookup budget query pass
      (index.addQueryTerms query pass (addScores (index.exactScores query)
        (idsIn (index.namePrefixIds lookup budget (queryText query))).toList Points.prefixName
          .prefixName)) = .ok after ∧
      Tallied after (index.generalTally unicode lookup budget query pass) := by
    rw [addQueryFuzzyTerms]
    by_cases deep : pass.includesDeep = true
    · rcases tallied_fuzzyTerms answers deep listed query.terms with ⟨after, found, whole⟩
      rw [if_pos deep, found]
      refine ⟨after, rfl, whole.of_eq fun id => ?_⟩
      rw [generalTally, termsTally, leadingTally]
      simp only [append_assoc]
    · rw [if_neg deep]
      refine ⟨_, rfl, listed.of_eq fun id => ?_⟩
      have hot : (query.terms.flatMap fun term =>
          index.fuzzyTally unicode lookup budget pass term id) = [] :=
        flatMap_eq_nil_iff.mpr fun term _ => fuzzyTally_hot deep term id
      rw [generalTally, termsTally, leadingTally, hot]
      simp only [append_assoc, append_nil]
  rcases found with ⟨after, found, whole⟩
  refine ⟨after, ?_, whole⟩
  simp only [scoreTexts, leading, found, plain.phrases, addProximities, plain.proximities,
    foldl_nil, ite_self, bind, Except.bind]
  rfl

end Scores

end SearchIndex

end Gfm.Search

import Gfm.Search.Fuzzy
import Gfm.Search.Ranking

/-!
# A pass of a query

Queries of plain terms take a short way. All others are scored in general: text by text, record by
record, and, while there are fewer scored records than hits are wanted, by parts of names. A
cancelled query is not modelled, and neither are the counters of a lookup. A pass is modelled for
limits whose buffer can be taken; what happens at others is said where a whole query is answered.
-/

namespace Gfm.Search

open Postings Std Store

/-- The rest of the budget of a lookup. -/
structure QueryBudget extends SearchLookupBudget where
  maxPrefixIdsPerTerm : Nat
  minArchivePrefixChars : Nat
  maxSubstringGramsPerTerm : Nat
  maxSubstringIdsPerGram : Nat

def QueryBudget.default : QueryBudget where
  maxPrefixIdsPerTerm := 4096
  minArchivePrefixChars := 2
  maxSubstringGramsPerTerm := 16
  maxSubstringIdsPerGram := 4096
  maxFuzzyKeysPerTerm := 96
  maxFuzzyTermsPerKey := 512
  maxFuzzyCandidatesPerTerm := 4096

/-- What the archives answer, up to a limit. -/
structure SearchLookup where
  prefixIdsBounded : Text → Nat → Except GfmError (List FileId)
  substringIdsBounded : Text → Nat → Except GfmError (List FileId)
  fuzzyTermsBounded : Text → Nat → Except GfmError (List Text)

def emptySearchLookup : SearchLookup where
  prefixIdsBounded := fun _ _ => .ok []
  substringIdsBounded := fun _ _ => .ok []
  fuzzyTermsBounded := fun _ _ => .ok []

def RecordColumns.containsTerm (columns : RecordColumns) (term : Text) : Bool :=
  contains columns.name term || contains columns.path term ||
    (columns.tags.any fun tag => contains tag term) ||
    columns.comment.any fun comment => contains comment term

namespace SearchIndex

variable (unicode : Unicode) (index : SearchIndex) (lookup : SearchLookup) (budget : QueryBudget)

section Lookups

variable (term : Text)

/-- The first of the listed ids, and among the answers the ids of live records. -/
def boundedIds (postings : PostingMap Text FileId) (maxIds : Nat) (enough : Bool)
    (answer : Text → Nat → Except GfmError (List FileId)) (key : Text) : Except GfmError IdSet :=
  let ids := ((postings[key]?).getD ∅).toList.take maxIds
  let remaining := maxIds - ids.length
  if remaining = 0 ∨ enough then .ok (ExtTreeSet.ofList ids)
  else (answer key remaining).map fun found =>
    ExtTreeSet.ofList (ids ++ index.liveIds found)

def namePrefixIds : Except GfmError IdSet :=
  if ¬isPrefixTerm term then .ok ∅
  else index.boundedIds index.namePrefixes budget.maxPrefixIdsPerTerm
    (decide (term.length < budget.minArchivePrefixChars)) lookup.prefixIdsBounded term

/-- The ids of every gram, unless a gram has none. -/
def gramSets : List Text → Except GfmError (Option (List IdSet))
  | [] => .ok (some [])
  | gram :: grams => do
      let ids ← index.boundedIds index.nameSubstrings budget.maxSubstringIdsPerGram false
        lookup.substringIdsBounded gram
      if ids.isEmpty then .ok none
      else (gramSets grams).map (Option.map (ids :: ·))

def nameSubstringIds : Except GfmError IdSet :=
  if term.length < 3 then .ok ∅
  else
    (index.gramSets lookup budget
      ((substringGrams term).take budget.maxSubstringGramsPerTerm)).map fun sets =>
        (sets.bind intersectCandidateSets).getD ∅

def fuzzyIdSet : Except GfmError IdSet :=
  (index.fuzzyIds unicode lookup.fuzzyTermsBounded budget.toSearchLookupBudget (fun _ => false)
    term).map fun pass => ExtTreeSet.ofList pass.ids

end Lookups

section Matching

variable (elapsed : FileRecord → Option Nat) (pass : SearchPass) (record : FileRecord)

def recordContainsTerm (term : Text) : Bool :=
  (index.columns[record.id]?).any fun columns => columns.containsTerm term

def recordFuzzyMatchesTerm (term : Text) : Bool :=
  (index.columns[record.id]?).any fun columns => columns.fuzzyTerms.any fun candidate =>
    (boundedLevenshtein candidate term 2).isSome

/-- What a term of an expression means to a record. -/
def recordMatchesTerm (term : Text) : Bool :=
  index.recordContainsTerm record term ||
    (pass.includesDeep && index.contentHas record.id term) ||
    (pass.includesDeep && index.recordFuzzyMatchesTerm record term) ||
    termMatchesIntent unicode elapsed term record

def recordMatchesQuery (query : SearchQuery) : Bool :=
  match query.expression with
  | some expression =>
      index.recordMatchesExpression unicode pass
        (index.recordMatchesTerm unicode elapsed pass) record expression
  | none =>
      (query.excludedTerms.all fun term =>
        !(index.recordContainsTerm record term ||
          (pass.includesDeep && index.contentHas record.id term))) &&
      (query.phrases.all fun phrase => index.recordMatchesPhrase record phrase ||
        (pass.includesDeep && index.contentMatchesPhrase unicode record.id phrase)) &&
      (if pass.includesDeep then
        query.proximities.all fun proximity => index.contentMatchesProximity record.id proximity
      else query.proximities.isEmpty) &&
      query.filters.all fun filter => index.filterMatches unicode record filter

end Matching

section Candidates

variable (pass : SearchPass)

def termCandidateIds (term : Text) : IdSet :=
  let listed := [index.nameTerms[term]?, index.pathTerms[term]?, index.metadataTerms[term]?,
    index.extension[term]?, index.tags[term]?].flatMap fun ids => (ids.getD ∅).toList
  let content := ((index.contentTerms[term]?).getD ∅).keys
  ExtTreeSet.ofList (if pass.includesDeep then listed ++ content else listed)

/-- The smaller set, the first of equals. -/
def smaller (smallest : Option IdSet) (ids : IdSet) : Option IdSet :=
  if smallest.all fun current => ids.size < current.size then some ids else smallest

mutual

def expressionCandidateIds : QueryExpr → Option IdSet
  | .term term => some (index.termCandidateIds pass term)
  | .phrase phrase => some (index.phraseCandidateIds unicode pass phrase)
  | .proximity proximity =>
      if pass.includesDeep then
        some (ExtTreeSet.ofList (index.contentProximityIds proximity))
      else none
  | .filter filter => index.filterCandidateIds unicode filter
  | .not _ => none
  | .and expressions =>
      match intersectCandidateSets
        (expressions.filterMap (index.exactExpressionCandidateIds unicode pass)) with
      | some ids => some ids
      | none => smallestCandidates none expressions
  | .or expressions => unionCandidates ∅ expressions

/-- The smallest candidate set of an expression that has one. -/
def smallestCandidates (smallest : Option IdSet) : List QueryExpr → Option IdSet
  | [] => smallest
  | expression :: expressions =>
      smallestCandidates (match expressionCandidateIds expression with
        | none => smallest
        | some ids => smaller smallest ids) expressions

/-- The candidates of all expressions, if each has some. -/
def unionCandidates (ids : IdSet) : List QueryExpr → Option IdSet
  | [] => some ids
  | expression :: expressions =>
      match expressionCandidateIds expression with
      | none => none
      | some candidates =>
          unionCandidates (candidates.toList.foldl (fun ids id => ids.insert id) ids) expressions

end

end Candidates

end SearchIndex

mutual

def expressionHasPositiveAnchor : QueryExpr → Bool
  | .term _ | .phrase _ | .proximity _ => true
  | .filter _ | .not _ => false
  | .and expressions => someHasPositiveAnchor expressions
  | .or expressions => !expressions.isEmpty && allHavePositiveAnchor expressions

def someHasPositiveAnchor : List QueryExpr → Bool
  | [] => false
  | expression :: expressions =>
      expressionHasPositiveAnchor expression || someHasPositiveAnchor expressions

def allHavePositiveAnchor : List QueryExpr → Bool
  | [] => true
  | expression :: expressions =>
      expressionHasPositiveAnchor expression && allHavePositiveAnchor expressions

end

mutual

def expressionNeedsUniverse : QueryExpr → Bool
  | .filter _ | .not _ => true
  | .and expressions =>
      !expressionHasPositiveAnchor (.and expressions) || allNeedUniverse expressions
  | .or expressions => someNeedsUniverse expressions
  | .term _ | .phrase _ | .proximity _ => false

def allNeedUniverse : List QueryExpr → Bool
  | [] => true
  | expression :: expressions => expressionNeedsUniverse expression && allNeedUniverse expressions

def someNeedsUniverse : List QueryExpr → Bool
  | [] => false
  | expression :: expressions =>
      expressionNeedsUniverse expression || someNeedsUniverse expressions

end

namespace SearchIndex

variable (unicode : Unicode) (elapsed : FileRecord → Option Nat) (index : SearchIndex)
  (lookup : SearchLookup) (budget : QueryBudget) (query : SearchQuery) (pass : SearchPass)

def queryText : Text := List.intercalate [' '] query.terms

/-- The hit of a live record with its points and boosts, if it matches. -/
def rankedHit (entry : FileId × RankAccumulator) : Option SearchHit :=
  (index.records[entry.1]?).bind fun record =>
    if index.recordMatchesQuery unicode elapsed pass record query then
      let rank := entry.2.boost (index.compositeBoosts unicode elapsed record query pass)
      some ⟨record, rank.finish.1, rank.finish.2⟩
    else none

/-- The points for the tokens, the comments, the extension and the tags that are a term. -/
def addTermScores (scores : Scores) (term : Text) : Scores :=
  [(index.nameTerms[term]?, Points.nameToken, MatchReason.substringName),
    (index.pathTerms[term]?, Points.pathComponent, MatchReason.pathComponent),
    (index.metadataTerms[term]?, Points.tag, MatchReason.tag),
    (index.extension[term]?, Points.extension, MatchReason.extension),
    (index.tags[term]?, Points.tag, MatchReason.tag)].foldl
      (fun scores postings =>
        addScores scores (postings.1.getD ∅).toList postings.2.1 postings.2.2) scores

def contentIds (term : Text) : List FileId := ((index.contentTerms[term]?).getD ∅).keys

/-- The points for a name that is close to a term that the record does not have. -/
def addFuzzyScores (scores : Scores) (term : Text) : Except GfmError Scores :=
  (index.fuzzyIdSet unicode lookup budget term).map fun ids =>
    addScores scores (ids.toList.filter fun id => (index.records[id]?).any fun record =>
      !index.recordContainsTerm record term && index.recordFuzzyMatchesTerm record term)
        Points.fuzzyName .fuzzyName

/-- Plain terms only, and no sign of what they are after. -/
def isPlain : Bool :=
  query.expression.isNone && query.excludedTerms.isEmpty && query.phrases.isEmpty &&
    query.proximities.isEmpty && query.filters.isEmpty && (QueryIntent.fromQuery query).isEmpty

section Simple

/-- A record with nothing but the content needs no check: a plain query has none. -/
def contentHit (id : FileId) : Option SearchHit :=
  (index.records[id]?).map fun record =>
    let rank := (RankAccumulator.new Points.content .content).boost
      (index.compositeBoosts unicode elapsed record query pass)
    ⟨record, rank.finish.1, rank.finish.2⟩

def querySimpleSingleTermPass (limit : Nat) (term : Text) : Except GfmError (List SearchHit) := do
  let named := addScores ∅ ((index.nameExact[term]?).getD ∅).toList Points.exactName .exactName
  let leading ← index.namePrefixIds lookup budget term
  let scores := addScores named leading.toList Points.prefixName .prefixName
  let scores := index.addTermScores scores term
  if pass.includesDeep then
    let scores ← index.addFuzzyScores unicode lookup budget scores term
    let content := index.contentIds term
    let alone := content.filter fun id => !scores.contains id
    let scores := addScores scores (content.filter fun id => scores.contains id) Points.content
      .content
    return topHits unicode (alone.filterMap (index.contentHit unicode elapsed query pass) ++
      scores.toList.filterMap (index.rankedHit unicode elapsed query pass)) limit
  else
    return topHits unicode
      (scores.toList.filterMap (index.rankedHit unicode elapsed query pass)) limit

/-- The candidates of every term with its fuzzy ids, unless a term has no candidates. -/
def simpleCandidates : List Text → Except GfmError (Option (List (IdSet × IdSet)))
  | [] => .ok (some [])
  | term :: terms => do
      let fuzzyIds ←
        if pass.includesDeep then index.fuzzyIdSet unicode lookup budget term else .ok ∅
      let candidates := fuzzyIds.toList.foldl (fun ids id => ids.insert id)
        (index.termCandidateIds pass term)
      if candidates.isEmpty then .ok none
      else (simpleCandidates terms).map (Option.map ((fuzzyIds, candidates) :: ·))

/-- More points if the condition holds. -/
def addIf (condition : Bool) (points : Int) (reason : MatchReason) (rank : RankAccumulator) :
    RankAccumulator :=
  if condition then rank.add points reason else rank

def listedUnder (postings : PostingMap Text FileId) (key : Text) (id : FileId) : Bool :=
  (postings[key]?).any fun ids => ids.contains id

def scorePlainTerm (record : FileRecord) (rank : RankAccumulator) (item : Text × IdSet) :
    RankAccumulator :=
  let (term, fuzzyIds) := item
  let rank := addIf (listedUnder index.nameTerms term record.id) Points.nameToken
    .substringName rank
  let rank := addIf (listedUnder index.pathTerms term record.id) Points.pathComponent
    .pathComponent rank
  let rank := addIf (listedUnder index.metadataTerms term record.id) Points.tag .tag rank
  let rank := addIf (listedUnder index.extension term record.id) Points.extension .extension rank
  let rank := addIf (listedUnder index.tags term record.id) Points.tag .tag rank
  let rank := addIf (pass.includesDeep && index.contentHas record.id term) Points.content
    .content rank
  addIf (pass.includesDeep && fuzzyIds.contains record.id &&
    !index.recordContainsTerm record term && index.recordFuzzyMatchesTerm record term)
      Points.fuzzyName .fuzzyName rank

def scorePlainMultiTermRecord (record : FileRecord) (leading : IdSet) (fuzzyByTerm : List IdSet) :
    RankAccumulator :=
  let rank := addIf (listedUnder index.nameExact (queryText query) record.id) Points.exactName
    .exactName (.new 0 .pathComponent)
  let rank := addIf (leading.contains record.id) Points.prefixName .prefixName rank
  (query.terms.zip fuzzyByTerm).foldl (index.scorePlainTerm pass record) rank

def querySimpleMultiTermPass (limit : Nat) : Except GfmError (List SearchHit) := do
  let leading ← index.namePrefixIds lookup budget (queryText query)
  let sets ← index.simpleCandidates unicode lookup budget pass query.terms
  match sets with
  | none => return []
  | some sets =>
      match sets.argmin fun item => item.2.size with
      | none => return []
      | some anchor =>
          return topHits unicode (anchor.2.toList.filterMap fun id =>
            (index.records[id]?).bind fun record =>
              index.rankedHit unicode elapsed query pass
                (id, index.scorePlainMultiTermRecord query pass record leading
                  (sets.map Prod.fst))) limit

end Simple

section General

def addFuzzyTerms (scores : Scores) : List Text → Except GfmError Scores
  | [] => .ok scores
  | term :: terms => do
      let scores ← index.addFuzzyScores unicode lookup budget scores term
      addFuzzyTerms scores terms

/-- A phrase in the content counts as that; else it is one in the record. -/
def addPhraseScores (scores : Scores) (phrase : Text) : Scores :=
  let content := if pass.includesDeep then index.contentPhraseIds unicode phrase else []
  let recorded := (index.recordPhraseIds unicode phrase).filter fun id => !content.contains id
  addScores (addScores scores recorded.eraseDups Points.phrase .pathComponent) content.eraseDups
    Points.phrase .content

def leadingIds : Except GfmError IdSet :=
  if (queryText query).isEmpty then .ok ∅ else index.namePrefixIds lookup budget (queryText query)

def exactScores : Scores :=
  let text := queryText query
  if text.isEmpty then ∅
  else addScores ∅ ((index.nameExact[text]?).getD ∅).toList Points.exactName .exactName

def addQueryTerms (scores : Scores) : Scores :=
  query.terms.foldl (fun scores term =>
    let scores := index.addTermScores scores term
    if pass.includesDeep then addScores scores (index.contentIds term) Points.content .content
    else scores) scores

def addQueryFuzzyTerms (scores : Scores) : Except GfmError Scores :=
  if pass.includesDeep then index.addFuzzyTerms unicode lookup budget scores query.terms
  else .ok scores

def addProximities (scores : Scores) : Scores :=
  if pass.includesDeep then
    query.proximities.foldl (fun scores proximity =>
      addScores scores (index.contentProximityIds proximity) Points.proximity .content) scores
  else scores

/-- The points of everything but the parts of names. -/
def scoreTexts : Except GfmError Scores := do
  let leading ← index.leadingIds lookup budget query
  let scores := addScores (index.exactScores query) leading.toList Points.prefixName .prefixName
  let scores ← index.addQueryFuzzyTerms unicode lookup budget query pass
    (index.addQueryTerms query pass scores)
  return index.addProximities query pass
    (query.phrases.foldl (index.addPhraseScores unicode pass) scores)

/-- The points for the text as a part of names. -/
def expandNames (scores : Scores) : Except GfmError Scores :=
  let text := queryText query
  (index.nameSubstringIds lookup budget text).map fun ids =>
    addScores scores (ids.toList.filter fun id => (index.records[id]?).any fun record =>
      !text.isEmpty && (index.columns[record.id]?).any fun columns =>
        RecordColumns.contains columns.name text) Points.substringName .substringName

/-- A record that the query seems to be after is boosted. -/
def addIntentScore (intent : QueryIntent) (scores : Scores) (record : FileRecord) : Scores :=
  let points := intent.score unicode elapsed record
  if 0 < points then
    scores.insert record.id (match scores[record.id]? with
      | some rank => rank.boost points
      | none => .new points .pathComponent)
  else scores

/-- Every record is a candidate: the expression cannot tell, or there are filters alone. -/
def wantsUniverse (candidates : Option IdSet) (scores : Scores) : Bool :=
  (query.expression.any fun expression =>
    expressionNeedsUniverse expression && candidates.isNone) ||
  (candidates.isNone && scores.isEmpty && !query.filters.isEmpty && query.terms.isEmpty &&
    query.phrases.isEmpty && query.proximities.isEmpty)

/-- The hits of the scored records, in no particular order. -/
def scoredHits (scores : Scores) : List SearchHit :=
  let candidates := query.expression.bind (index.expressionCandidateIds unicode pass)
  let scores := seedScores scores (candidates.getD ∅).toList
  let intent := QueryIntent.fromQuery query
  let records := index.records.toList.map Prod.snd
  let scores := if intent.isEmpty then scores
    else records.foldl (addIntentScore unicode elapsed intent) scores
  let scores := if wantsUniverse query candidates scores then
    seedScores scores (records.map FileRecord.id) else scores
  scores.toList.filterMap (index.rankedHit unicode elapsed query pass)

def queryGeneralPass (limit : Nat) : Except GfmError (List SearchHit) := do
  let scores ← index.scoreTexts unicode lookup budget query pass
  let scores ←
    if scores.size < limit then index.expandNames lookup budget query scores else .ok scores
  return topHits unicode (index.scoredHits unicode elapsed query pass scores) limit

end General

def queryPass (limit : Nat) : Except GfmError (List SearchHit) :=
  if query.isEmpty ∨ limit = 0 then .ok []
  else if isPlain query then
    match query.terms with
    | [] => index.queryGeneralPass unicode elapsed lookup budget query pass limit
    | [term] =>
        index.querySimpleSingleTermPass unicode elapsed lookup budget query pass limit term
    | _ => index.querySimpleMultiTermPass unicode elapsed lookup budget query pass limit
  else index.queryGeneralPass unicode elapsed lookup budget query pass limit

/-- The pass gets to the buffer for its hits: one of several plain terms does only if every term
has candidates. -/
def takesBuffer (limit : Nat) : Bool :=
  !(query.isEmpty || limit = 0) &&
    (index.queryPass unicode elapsed lookup budget query pass limit).isOk &&
    (!isPlain query || query.terms.length < 2 ||
      match index.simpleCandidates unicode lookup budget pass query.terms with
      | .error _ => false
      | .ok sets => sets.isSome)

/-- A failed query has no hits, and one that cannot take its buffer panics. -/
def queryStructured (hitSize limit : Nat) : Option (List SearchHit) :=
  if index.takesBuffer unicode elapsed emptySearchLookup .default query .full limit ∧
      isizeMax < limit * hitSize then none
  else
    some (match index.queryPass unicode elapsed emptySearchLookup .default query .full limit with
      | .error _ => []
      | .ok hits => hits)

end SearchIndex

end Gfm.Search

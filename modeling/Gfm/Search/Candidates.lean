import Gfm.Search.Content
import Gfm.Search.Steps

/-!
# Exact candidates

For some expressions the index computes the matching records from its postings
alone. The same expression can be asked of every record in turn. What a term
means to a record is a parameter here: no expression with a term among its
parts has exact candidates.
-/

namespace Gfm.Search

open Postings

inductive SearchPass where
  | hot
  | full
  deriving DecidableEq

def SearchPass.includesDeep (pass : SearchPass) : Bool := pass = .full

/-- Keep what the other sets contain, until nothing is left. -/
def retainEach (ids : IdSet) : List IdSet → IdSet
  | [] => ids
  | candidates :: sets =>
      let ids := ids.filter fun id => candidates.contains id
      if ids.isEmpty then ids else retainEach ids sets

/-- Intersect, the smallest set first. -/
def intersectCandidateSets (candidateSets : List IdSet) : Option IdSet :=
  match candidateSets.mergeSort fun left right => left.size ≤ right.size with
  | [] => none
  | ids :: sets => some (retainEach ids sets)

namespace SearchIndex

variable (unicode : Unicode) (index : SearchIndex) (pass : SearchPass)

def textFilterCandidateIds (value : Text) (postings : PostingMap Text FileId)
    (matchesValue : RecordColumns → Text → Bool) : Option IdSet :=
  (rarestTermPostings (unicode.tokenize value) postings).map fun candidates =>
    Std.ExtTreeSet.ofList (candidates.toList.filter fun id =>
      (index.columns[id]?).any fun columns => matchesValue columns value)

def filterCandidateIds : QueryFilter → Option IdSet
  | .name value false =>
      index.textFilterCandidateIds unicode value index.nameTerms RecordColumns.matchesNamePhrase
  | .path value false =>
      index.textFilterCandidateIds unicode value index.pathTerms RecordColumns.matchesPathPhrase
  | .extension value false => some ((index.extension[value]?).getD ∅)
  | .tag value false => some ((index.tags[value]?).getD ∅)
  | .kind kind false => some ((index.kind[kind.fileKind]?).getD ∅)
  | .scope _ _ | .size _ _ | .date _ _ _ => none
  | .name _ true | .path _ true | .extension _ true | .tag _ true | .kind _ true => none

/-- The records of a phrase, by their texts and, in a full pass, by their content. -/
def phraseCandidateIds (phrase : Text) : IdSet :=
  let ids := Std.ExtTreeSet.ofList (index.recordPhraseIds unicode phrase)
  if pass.includesDeep then
    (index.contentPhraseIds unicode phrase).foldl (fun ids id => ids.insert id) ids
  else ids

mutual

def exactExpressionCandidateIds : QueryExpr → Option IdSet
  | .phrase phrase => some (index.phraseCandidateIds unicode pass phrase)
  | .proximity proximity =>
      if pass.includesDeep then
        some (Std.ExtTreeSet.ofList (index.contentProximityIds proximity))
      else none
  | .filter filter => index.filterCandidateIds unicode filter
  | .and expressions =>
      (exactCandidateSets expressions).map fun candidateSets =>
        (intersectCandidateSets candidateSets).getD ∅
  | .or expressions =>
      (exactCandidateSets expressions).map fun candidateSets =>
        candidateSets.foldl (fun ids candidates =>
          candidates.toList.foldl (fun ids id => ids.insert id) ids) ∅
  | .term _ | .not _ => none

/-- The exact candidates of every expression, if all have some. -/
def exactCandidateSets : List QueryExpr → Option (List IdSet)
  | [] => some []
  | expression :: expressions =>
      match exactExpressionCandidateIds expression with
      | none => none
      | some candidates => (exactCandidateSets expressions).map (candidates :: ·)

end

variable (termMatches : FileRecord → Text → Bool)

def filterMatches (record : FileRecord) (filter : QueryFilter) : Bool :=
  (index.columns[record.id]?).any fun columns => filterMatchesColumns unicode filter record columns

mutual

def recordMatchesExpression (record : FileRecord) : QueryExpr → Bool
  | .term term => termMatches record term
  | .phrase phrase =>
      index.recordMatchesPhrase record phrase ||
        (pass.includesDeep && index.contentMatchesPhrase unicode record.id phrase)
  | .proximity proximity =>
      pass.includesDeep && index.contentMatchesProximity record.id proximity
  | .filter filter => index.filterMatches unicode record filter
  | .not expression => !recordMatchesExpression record expression
  | .and expressions => recordMatchesAll record expressions
  | .or expressions => recordMatchesAny record expressions

def recordMatchesAll (record : FileRecord) : List QueryExpr → Bool
  | [] => true
  | expression :: expressions =>
      recordMatchesExpression record expression && recordMatchesAll record expressions

def recordMatchesAny (record : FileRecord) : List QueryExpr → Bool
  | [] => false
  | expression :: expressions =>
      recordMatchesExpression record expression || recordMatchesAny record expressions

end

end SearchIndex

end Gfm.Search

import Gfm.Search.Hits
import Gfm.Search.Candidates

/-!
# Scores

What a record earns for a query: points for every text of it that the query finds, a boost for what
the query seems to be after, and boosts for pins, kinds, frequencies and recency. The clock is a
parameter: how long ago a record was modified, in nanoseconds, or nothing if that time is ahead.
-/

namespace Gfm.Search

open Postings

/-- A parsed query: its plain parts, and its expression where it has one. -/
structure SearchQuery where
  terms : List Text
  excludedTerms : List Text
  phrases : List Text
  proximities : List QueryProximity
  filters : List QueryFilter
  expression : Option QueryExpr

def SearchQuery.isEmpty (query : SearchQuery) : Bool :=
  query.terms.isEmpty && query.excludedTerms.isEmpty && query.phrases.isEmpty &&
    query.proximities.isEmpty && query.filters.isEmpty && query.expression.isNone

namespace Points

def exactName : Int := 1000
def prefixName : Int := 700
def substringName : Int := 300
def nameToken : Int := 500
def extension : Int := 350
def tag : Int := 325
def pathComponent : Int := 250
def content : Int := 150
def fuzzyName : Int := 100
def phrase : Int := 450
def proximity : Int := 375
def userPinned : Int := 650
def kindMatch : Int := 90
def nameFrequency : Int := 12
def pathFrequency : Int := 6
def contentFrequency : Int := 8

end Points

/-- The reason of the accumulated points is that of the largest share, the first of several. -/
structure RankAccumulator where
  score : Int
  reason : MatchReason
  reasonWeight : Int
  deriving DecidableEq

namespace RankAccumulator

def new (score : Int) (reason : MatchReason) : RankAccumulator := ⟨score, reason, score⟩

/-- A share larger than all before it gives the reason. -/
def add (rank : RankAccumulator) (score : Int) (reason : MatchReason) : RankAccumulator :=
  if rank.reasonWeight < score then ⟨rank.score + score, reason, score⟩
  else { rank with score := rank.score + score }

/-- Points that never give the reason. -/
def boost (rank : RankAccumulator) (score : Int) : RankAccumulator :=
  { rank with score := rank.score + score }

def finish (rank : RankAccumulator) : Int × MatchReason := (rank.score, rank.reason)

end RankAccumulator

/-- Occurrences beyond the eighth give no points. -/
def cappedFrequency (count : Nat) (points : Int) : Int := (min count 8 : Nat) * points

/-- Links and what is no regular entry get less for their kind. -/
def kindScore : FileKind → Int
  | .directory => Points.kindMatch
  | .file => Points.kindMatch
  | .symlink => Points.kindMatch - 15
  | .other => Points.kindMatch - 30

/-- The matches of a text in another one that do not overlap, from the left. -/
def matchesFrom (needle : Text) : Nat → Text → Nat
  | _, [] => 0
  | passed + 1, _ :: rest => matchesFrom needle passed rest
  | 0, char :: rest =>
      if needle.isPrefixOf (char :: rest) then 1 + matchesFrom needle (needle.length - 1) rest
      else matchesFrom needle 0 rest

/-- No text matches the empty term. -/
def countTerm (haystack needle : Text) : Nat :=
  if needle.isEmpty then 0 else matchesFrom needle 0 haystack

def filterKindMatches (filter : QueryFilter) (kind : FileKind) : Bool :=
  match filter with
  | .kind queryKind false => queryKind.matchesKind kind
  | _ => false

section Clock

variable (elapsed : FileRecord → Option Nat)

def nanosOfDay : Nat := 86400 * 10 ^ 9

/-- A record loses one point a day for a hundred days. -/
def recencyScore (record : FileRecord) : Int :=
  if record.modified.isNone then 0
  else
    match elapsed record with
    | none => 0
    | some age => 100 - (min (age / nanosOfDay) 100 : Nat)

/-- Where the age cannot be told the record counts as modified today. -/
def recentScore (record : FileRecord) : Int :=
  if record.modified.isNone then 0
  else
    match elapsed record with
    | none => 900
    | some age =>
        if age ≤ nanosOfDay then 900
        else if age ≤ 7 * nanosOfDay then 220
        else if age ≤ 30 * nanosOfDay then 150
        else 0

end Clock

section Intent

variable (unicode : Unicode) (elapsed : FileRecord → Option Nat)

/-- What a query asks for beside its words. -/
structure QueryIntent where
  application : Bool
  downloads : Bool
  desktop : Bool
  screenshot : Bool
  project : Bool
  recent : Bool
  deriving DecidableEq

def texts (words : List String) : List Text := words.map String.toList

/-- A needle is one of the terms or stands in one of the phrases. -/
def hasAny (terms phrases : List Text) (needles : List String) : Bool :=
  (texts needles).any fun needle =>
    terms.contains needle || phrases.any fun phrase => RecordColumns.contains phrase needle

def hasScreenshotIntent (terms phrases : List Text) : Bool :=
  hasAny terms phrases ["screenshot", "screenshots", "capture"] ||
    (terms.contains "screen".toList && terms.contains "shot".toList) ||
    phrases.any fun phrase => RecordColumns.contains phrase "screen shot".toList

def QueryIntent.fromQuery (query : SearchQuery) : QueryIntent :=
  if query.terms.isEmpty && query.phrases.isEmpty then ⟨false, false, false, false, false, false⟩
  else
    { application := hasAny query.terms query.phrases
        ["app", "apps", "application", "applications"]
      downloads := hasAny query.terms query.phrases ["download", "downloads"]
      desktop := hasAny query.terms query.phrases ["desktop"]
      screenshot := hasScreenshotIntent query.terms query.phrases
      project := hasAny query.terms query.phrases
        ["project", "projects", "repo", "repository", "workspace", "code"]
      recent := hasAny query.terms query.phrases
        ["recent", "recents", "recently", "today", "latest", "new"] }

def QueryIntent.isEmpty (intent : QueryIntent) : Bool :=
  !intent.application && !intent.downloads && !intent.desktop && !intent.screenshot &&
    !intent.project && !intent.recent

/-- A token of a component of the path is one of the words. -/
def hasComponent (path : Text) (components : List String) : Bool :=
  ((pathComponents path).flatMap fun component =>
    unicode.tokenize (unicode.normalize component)).any fun component =>
      (texts components).contains component

/-- The extension is compared without regard to the case of ASCII letters. -/
def isApplication (record : FileRecord) : Bool :=
  (record.extension.any fun extension => extension.map asciiLower = "app".toList) ||
    hasComponent unicode record.path ["applications"]

/-- The names that the system gives to screenshots. -/
def isScreenshot (record : FileRecord) : Bool :=
  let name := unicode.normalize record.name
  RecordColumns.contains name "screenshot".toList ||
    RecordColumns.contains name "screen shot".toList ||
    (RecordColumns.contains name "screen".toList && RecordColumns.contains name "capture".toList)

def isGenericFolderName (name : Text) : Bool :=
  (texts ["desktop", "documents", "downloads", "applications", "library", "users", "home", "work",
    "projects", "repos", "code", "src"]).contains (unicode.normalize name)

/-- A directory in one of the usual places that is none of these places itself. -/
def isProjectFolder (record : FileRecord) : Bool :=
  record.kind = .directory && !isGenericFolderName unicode record.name &&
    hasComponent unicode record.path
      ["developer", "development", "dev", "code", "projects", "repos", "workspace", "work"]

def QueryIntent.score (intent : QueryIntent) (record : FileRecord) : Int :=
  (if intent.application && isApplication unicode record then 360 else 0) +
    (if intent.downloads && hasComponent unicode record.path ["downloads"] then 260 else 0) +
    (if intent.desktop && hasComponent unicode record.path ["desktop"] then 260 else 0) +
    (if intent.screenshot && isScreenshot unicode record then
      320 + (if hasComponent unicode record.path ["desktop"] then 40 else 0) else 0) +
    (if intent.project && isProjectFolder unicode record then 300 else 0) +
    (if intent.recent then recentScore elapsed record else 0)

/-- The record answers to the intent that the term stands for. -/
def termMatchesIntent (term : Text) (record : FileRecord) : Bool :=
  if (texts ["app", "apps", "application", "applications"]).contains term then
    isApplication unicode record
  else if (texts ["download", "downloads"]).contains term then
    hasComponent unicode record.path ["downloads"]
  else if (texts ["desktop"]).contains term then hasComponent unicode record.path ["desktop"]
  else if (texts ["screenshot", "screenshots", "capture"]).contains term then
    isScreenshot unicode record
  else if (texts ["project", "projects", "repo", "repository", "workspace", "code"]).contains
      term then
    isProjectFolder unicode record
  else if (texts ["recent", "recents", "recently", "today", "latest", "new"]).contains term then
    0 < recentScore elapsed record
  else false

end Intent

section Accumulating

/-- The points that each record has got so far. -/
abbrev Scores := Std.ExtTreeMap FileId RankAccumulator

/-- The entry of an id gets more points, or is made with them. -/
def addScore (points : Int) (reason : MatchReason) (scores : Scores) (id : FileId) : Scores :=
  scores.insert id (match scores[id]? with
    | some rank => rank.add points reason
    | none => .new points reason)

def addScores (scores : Scores) (ids : List FileId) (points : Int) (reason : MatchReason) :
    Scores :=
  ids.foldl (addScore points reason) scores

/-- An id without an entry gets one with no points. -/
def seedScores (scores : Scores) (ids : List FileId) : Scores :=
  ids.foldl (fun scores id => scores.insertIfNew id (.new 0 .pathComponent)) scores

end Accumulating

namespace SearchIndex

variable (unicode : Unicode) (elapsed : FileRecord → Option Nat) (index : SearchIndex)

/-- A posting without positions counts as one occurrence. -/
def contentFrequency (id : FileId) (term : Text) : Nat :=
  match (index.contentTerms[term]?).bind fun positions => positions[id]? with
  | none => 0
  | some positions => max positions.length 1

def filterBoost (record : FileRecord) (columns : RecordColumns) (filter : QueryFilter) : Int :=
  if filterKindMatches filter record.kind then kindScore record.kind
  else if filterMatchesColumns unicode filter record columns then Points.kindMatch / 3
  else 0

def termBoost (record : FileRecord) (columns : RecordColumns) (pass : SearchPass) (term : Text) :
    Int :=
  cappedFrequency (countTerm columns.name term) Points.nameFrequency +
    cappedFrequency (countTerm columns.path term) Points.pathFrequency +
    if pass.includesDeep then
      cappedFrequency (index.contentFrequency record.id term) Points.contentFrequency
    else 0

/-- What a record gets beside the points of its matches. -/
def compositeBoosts (record : FileRecord) (query : SearchQuery) (pass : SearchPass) : Int :=
  match index.columns[record.id]? with
  | none => recencyScore elapsed record
  | some columns =>
      recencyScore elapsed record +
        (if index.pinned.contains record.id then Points.userPinned else 0) +
        (query.filters.map (filterBoost unicode record columns)).sum +
        (query.terms.map (index.termBoost record columns pass)).sum

end SearchIndex

end Gfm.Search

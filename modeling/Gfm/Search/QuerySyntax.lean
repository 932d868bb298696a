import Gfm.Search.QueryParsing
import Gfm.Search.Ranking

/-!
# Parsing queries

A query is cut into tokens at blanks, quotes and parentheses. The tokens are read twice: as an
expression, and one by one into the lists of terms, phrases, proximities and filters. A cancelled
parse is not modelled.
-/

namespace Gfm.Search

open Sorted

inductive QueryTokenKind where
  | value
  | opening
  | closing
  deriving DecidableEq

structure QueryToken where
  value : Text
  quoted : Bool
  kind : QueryTokenKind
  deriving DecidableEq

section Scanning

variable (unicode : Unicode)

/-- The token of what has been read so far, if anything. -/
def valueTokens (current : Text) (quoted : Bool) : List QueryToken :=
  if current = [] then [] else [⟨current, quoted, .value⟩]

/-- In quotes, a backslash takes the next character as it is. -/
def scanFrom (current : Text) (quoted : Bool) : Text → List QueryToken
  | [] => valueTokens current quoted
  | char :: rest =>
      if char = '"' then
        if quoted then valueTokens current true ++ scanFrom [] false rest
        else if current = ['-'] then scanFrom current true rest
        else if unicode.trim current ≠ [] then valueTokens current false ++ scanFrom [] true rest
        else scanFrom current true rest
      else if char = '(' ∧ ¬quoted then
        valueTokens current false ++ ⟨['('], false, .opening⟩ :: scanFrom [] false rest
      else if char = ')' ∧ ¬quoted then
        valueTokens current false ++ ⟨[')'], false, .closing⟩ :: scanFrom [] false rest
      else if char = '\\' ∧ quoted then
        match rest with
        | [] => valueTokens current quoted
        | next :: rest => scanFrom (current ++ [next]) quoted rest
      else if unicode.isWhitespace char ∧ ¬quoted then
        valueTokens current false ++ scanFrom [] false rest
      else scanFrom (current ++ [char]) quoted rest

def scanQuery (input : Text) : List QueryToken := scanFrom unicode [] false input

end Scanning

section Tokens

def QueryToken.asValue (token : QueryToken) : Option Text :=
  if token.kind = .value then some token.value else none

/-- A dash and something after it. -/
def isNegative (value : Text) : Bool := value.head? = some '-' ∧ 1 < value.length

def isOperator (value : Text) : Bool :=
  value.map asciiLower ∈ ["and", "or", "not"].map String.toList

def peekOperator (operator : String) (tokens : List QueryToken) : Bool :=
  (tokens.head?.bind QueryToken.asValue).any fun value =>
    value.map asciiLower = operator.toList

def peekKind (kind : QueryTokenKind) (tokens : List QueryToken) : Bool :=
  tokens.head?.any fun token => token.kind = kind

/-- Whether the tokens go on with an operand of a conjunction. -/
def peekOperand (tokens : List QueryToken) : Bool :=
  (peekKind .value tokens || peekKind .opening tokens) && !peekOperator "or" tokens

def skipOperator (operator : String) (tokens : List QueryToken) : List QueryToken :=
  if peekOperator operator tokens then tokens.drop 1 else tokens

theorem length_skipOperator (operator : String) (tokens : List QueryToken) :
    (skipOperator operator tokens).length ≤ tokens.length := by
  rw [skipOperator]
  split
  · exact (List.drop_sublist 1 tokens).length_le
  · exact le_rfl

end Tokens

section Expressions

def QueryExpr.conjuncts : QueryExpr → List QueryExpr
  | .and expressions => expressions
  | other => [other]

def QueryExpr.disjuncts : QueryExpr → List QueryExpr
  | .or expressions => expressions
  | other => [other]

def flattenAnd (expressions : List QueryExpr) : QueryExpr :=
  match expressions.flatMap QueryExpr.conjuncts with
  | [single] => single
  | flattened => .and flattened

def flattenOr (expressions : List QueryExpr) : QueryExpr :=
  match expressions.flatMap QueryExpr.disjuncts with
  | [single] => single
  | flattened => .or flattened

variable (unicode : Unicode)

def atomExpr (value : Text) (quoted : Bool) : Option QueryExpr :=
  match QueryProximity.parse unicode value with
  | some proximity => some (.proximity proximity)
  | none =>
      match QueryFilter.parse unicode value false with
      | some filter => some (.filter filter)
      | none =>
          let value := unicode.normalize value
          if value = [] then none
          else if quoted then some (.phrase value)
          else some (flattenAnd ((unicode.tokenize value).map .term))

/-- What is left of some tokens after an expression. -/
abbrev Rest (tokens : List QueryToken) := {rest : List QueryToken // rest.length < tokens.length}

/-- What is left of some tokens after further expressions, if any. -/
abbrev Remainder (tokens : List QueryToken) :=
  {rest : List QueryToken // rest.length ≤ tokens.length}

mutual

def parseOr (tokens : List QueryToken) : Option (QueryExpr × Rest tokens) :=
  match parseAnd tokens with
  | none => none
  | some (first, ⟨rest, shorter⟩) =>
      match parseOrRest rest [first] with
      | none => none
      | some (expressions, ⟨last, fewer⟩) =>
          some (flattenOr expressions, ⟨last, fewer.trans_lt shorter⟩)
termination_by 4 * tokens.length + 3

def parseOrRest (tokens : List QueryToken) (expressions : List QueryExpr) :
    Option (List QueryExpr × Remainder tokens) :=
  match tokens with
  | [] => some (expressions, ⟨[], le_rfl⟩)
  | token :: after =>
      if peekOperator "or" (token :: after) then
        match parseAnd after with
        | none => none
        | some (next, ⟨rest, shorter⟩) =>
            match parseOrRest rest (expressions ++ [next]) with
            | none => none
            | some (all, ⟨last, fewer⟩) =>
                some (all, ⟨last, (fewer.trans_lt shorter).le.trans (Nat.le_succ _)⟩)
      else some (expressions, ⟨token :: after, le_rfl⟩)
termination_by 4 * tokens.length

def parseAnd (tokens : List QueryToken) : Option (QueryExpr × Rest tokens) :=
  have skips := length_skipOperator "and" tokens
  if peekOperand tokens then
    match parseNot (skipOperator "and" tokens) with
    | none => none
    | some (first, ⟨rest, shorter⟩) =>
        match parseAndRest rest [first] with
        | none => none
        | some (expressions, ⟨last, fewer⟩) =>
            some (flattenAnd expressions, ⟨last, (fewer.trans_lt shorter).trans_le skips⟩)
  else none
termination_by 4 * tokens.length + 2

def parseAndRest (tokens : List QueryToken) (expressions : List QueryExpr) :
    Option (List QueryExpr × Remainder tokens) :=
  have skips := length_skipOperator "and" tokens
  if peekOperand tokens then
    match parseNot (skipOperator "and" tokens) with
    | none => none
    | some (next, ⟨rest, shorter⟩) =>
        match parseAndRest rest (expressions ++ [next]) with
        | none => none
        | some (all, ⟨last, fewer⟩) =>
            some (all, ⟨last, (fewer.trans_lt shorter).le.trans skips⟩)
  else some (expressions, ⟨tokens, le_rfl⟩)
termination_by 4 * tokens.length + 2

def parseNot (tokens : List QueryToken) : Option (QueryExpr × Rest tokens) :=
  match tokens with
  | [] => none
  | token :: after =>
      if peekOperator "not" (token :: after) then
        match parseNot after with
        | none => none
        | some (expression, ⟨rest, shorter⟩) =>
            some (.not expression, ⟨rest, shorter.trans (Nat.lt_succ_self _)⟩)
      else if token.kind = .value ∧ isNegative token.value then
        (atomExpr unicode (token.value.drop 1) token.quoted).map fun expression =>
          (.not expression, ⟨after, Nat.lt_succ_self _⟩)
      else parseAtom (token :: after)
termination_by 4 * tokens.length + 1

def parseAtom (tokens : List QueryToken) : Option (QueryExpr × Rest tokens) :=
  match tokens with
  | [] => none
  | token :: after =>
      if token.kind = .opening then
        match parseOr after with
        | some (expression, ⟨close :: rest, shorter⟩) =>
            if close.kind = .closing then
              some (expression, ⟨rest, (Nat.lt_succ_self _).trans
                (shorter.trans (Nat.lt_succ_self _))⟩)
            else none
        | _ => none
      else if token.kind = .value then
        (atomExpr unicode token.value token.quoted).map fun expression =>
          (expression, ⟨after, Nat.lt_succ_self _⟩)
      else none
termination_by 4 * tokens.length

end

/-- The expression of the tokens, if they are one. -/
def parseTokens (tokens : List QueryToken) : Option QueryExpr :=
  match parseOr unicode tokens with
  | some (expression, ⟨[], _⟩) => some expression
  | _ => none

end Expressions

namespace SearchQuery

variable (unicode : Unicode)

def addToken (query : SearchQuery) (token : QueryToken) : SearchQuery :=
  match token.asValue with
  | none => query
  | some value =>
      if isOperator value then query
      else
        let negative := isNegative value
        let value := if negative then value.drop 1 else value
        match QueryProximity.parse unicode value with
        | some proximity =>
            if negative then query
            else { query with proximities := query.proximities ++ [proximity] }
        | none =>
            match QueryFilter.parse unicode value negative with
            | some filter => { query with filters := query.filters ++ [filter] }
            | none =>
                let normalized := unicode.normalize value
                if token.quoted then
                  if normalized = [] then query
                  else if negative then
                    { query with
                      excludedTerms := query.excludedTerms ++ unicode.tokenize normalized }
                  else { query with phrases := query.phrases ++ [normalized] }
                else if negative then
                  { query with
                    excludedTerms := query.excludedTerms ++ unicode.tokenize normalized }
                else { query with terms := query.terms ++ unicode.tokenize normalized }

def dedupe (query : SearchQuery) : SearchQuery :=
  { query with
    terms := sortDedup query.terms
    excludedTerms := sortDedup query.excludedTerms
    phrases := sortDedup query.phrases
    proximities := sortDedup query.proximities
    filters := sortDedup query.filters }

def parse (input : Text) : SearchQuery :=
  let tokens := scanQuery unicode input
  dedupe (tokens.foldl (addToken unicode)
    ⟨[], [], [], [], [], parseTokens unicode tokens⟩)

end SearchQuery

end Gfm.Search

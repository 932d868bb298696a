import Gfm.Lib.Readable
import Gfm.Search.Ranking
import Gfm.Tsv

/-!
# Cache keys of queries

The results of a query are kept under a text of the parsed query. User text is written after its
length in bytes and lists after their length, so that no delimiter in a text is taken for one of
the key. Every function gives what it appends to the key.
-/

namespace Gfm.Search

open LineLog List Writers

section Key

/-- The head of a list: its label and how many values follow. -/
def pushLabelledLen (label : String) (len : Nat) : Text :=
  '|' :: (label.toList ++ ':' :: Tsv.decimal len)

/-- A text after its length, which counts the bytes of its encoding. -/
def pushString (value : Text) : Text :=
  ':' :: (Tsv.decimal (encodeText value).length ++ ':' :: value)

def pushStrings (label : String) (values : List Text) : Text :=
  pushLabelledLen label values.length ++ values.flatMap pushString

def pushBool (value : Bool) : Text := [if value then '1' else '0']

def pushProximity (proximity : QueryProximity) : Text :=
  ":near:".toList ++ (Tsv.decimal proximity.distance ++ pushStrings "terms" proximity.terms)

def pushProximities (label : String) (values : List QueryProximity) : Text :=
  pushLabelledLen label values.length ++ values.flatMap pushProximity

/-- A named scope is its word; a path follows its own as a text. -/
def pushScope : QueryScope → Text
  | .desktop => ":desktop".toList
  | .documents => ":documents".toList
  | .downloads => ":downloads".toList
  | .applications => ":applications".toList
  | .iCloud => ":icloud".toList
  | .trash => ":trash".toList
  | .home => ":home".toList
  | .path path => ":path".toList ++ pushString path

def pushKind : QueryKind → Text
  | .directory => ":directory".toList
  | .file => ":file".toList
  | .symlink => ":symlink".toList
  | .other => ":other".toList

def pushSizeOperator : SizeOperator → Text
  | .eq => ":eq".toList
  | .gt => ":gt".toList
  | .gte => ":gte".toList
  | .lt => ":lt".toList
  | .lte => ":lte".toList

def pushSize (size : SizeComparison) : Text :=
  pushSizeOperator size.operator ++ ':' :: Tsv.decimal size.bytes

def pushDateField : DateField → Text
  | .created => ":created".toList
  | .modified => ":modified".toList
  | .changed => ":changed".toList

def pushDate : DateComparison → Text
  | .on start finish => ":on:".toList ++ (Tsv.decimal start ++ ':' :: Tsv.decimal finish)
  | .before finish => ":before:".toList ++ Tsv.decimal finish
  | .beforeOrOn finish => ":before-or-on:".toList ++ Tsv.decimal finish
  | .after start => ":after:".toList ++ Tsv.decimal start
  | .afterOrOn start => ":after-or-on:".toList ++ Tsv.decimal start

/-- A filter begins with its kind; what it negates is written before its value. -/
def pushFilter : QueryFilter → Text
  | .name value negative => ":name:".toList ++ (pushBool negative ++ pushString value)
  | .path value negative => ":path:".toList ++ (pushBool negative ++ pushString value)
  | .extension value negative => ":extension:".toList ++ (pushBool negative ++ pushString value)
  | .tag value negative => ":tag:".toList ++ (pushBool negative ++ pushString value)
  | .scope scope negative => ":scope:".toList ++ (pushBool negative ++ pushScope scope)
  | .kind kind negative => ":kind:".toList ++ (pushBool negative ++ pushKind kind)
  | .size size negative => ":size:".toList ++ (pushBool negative ++ pushSize size)
  | .date field date negative =>
      ":date:".toList ++ (pushBool negative ++ (pushDateField field ++ pushDate date))

def pushFilters (label : String) (values : List QueryFilter) : Text :=
  pushLabelledLen label values.length ++ values.flatMap pushFilter

mutual

def pushExpression : QueryExpr → Text
  | .term value => ":term".toList ++ pushString value
  | .phrase value => ":phrase".toList ++ pushString value
  | .proximity proximity => ":proximity".toList ++ pushProximity proximity
  | .filter filter => ":filter".toList ++ pushFilter filter
  | .not expression => ":not".toList ++ pushExpression expression
  | .and expressions => pushLabelledLen "and" expressions.length ++ pushExpressions expressions
  | .or expressions => pushLabelledLen "or" expressions.length ++ pushExpressions expressions

def pushExpressions : List QueryExpr → Text
  | [] => []
  | expression :: expressions => pushExpression expression ++ pushExpressions expressions

end

def pushOptionalExpression : Option QueryExpr → Text
  | some expression => "|expr:some".toList ++ pushExpression expression
  | none => "|expr:none".toList

/-- The key of a query: the version, then its parts in a fixed order. -/
def SearchQuery.canonicalCacheKey (query : SearchQuery) : Text :=
  "q1".toList ++ (pushStrings "terms" query.terms ++
    (pushStrings "excluded" query.excludedTerms ++ (pushStrings "phrases" query.phrases ++
      (pushProximities "proximities" query.proximities ++ (pushFilters "filters" query.filters ++
        pushOptionalExpression query.expression)))))

end Key

section Reading

def isDigit (char : Char) : Bool := (Tsv.digitValue char).isSome

/-- What may follow a number. -/
def Undigited (rest : Text) : Prop := ∀ char ∈ rest.head?, isDigit char = false

theorem undigited_cons {char : Char} (plain : isDigit char = false) (rest : Text) :
    Undigited (char :: rest) := by
  intro other listed
  cases listed
  exact plain

theorem undigited_nil : Undigited [] := fun _ listed => nomatch listed

theorem decimal_injective : Function.Injective Tsv.decimal := by
  intro left right same
  have readLeft := Tsv.parseUnsigned_decimal (Nat.lt_succ_of_le (Nat.le_max_left left right))
  have readRight := Tsv.parseUnsigned_decimal (Nat.lt_succ_of_le (Nat.le_max_right left right))
  rw [same, readRight] at readLeft
  exact (Except.ok.inj readLeft).symm

theorem isDigit_decimal (number : Nat) : ∀ char ∈ Tsv.decimal number, isDigit char = true := by
  rcases Tsv.decimal_eq number with ⟨digits, -, small, -, shape⟩
  intro char listed
  rw [shape, mem_reverse] at listed
  rcases mem_map.mp listed with ⟨digit, member, rfl⟩
  rw [isDigit, Tsv.digitValue_digitChar (small digit member)]
  rfl

/-- A number ends where something else than a digit follows. -/
theorem readable_decimal : Readable Undigited Tsv.decimal :=
  readable_of_class decimal_injective isDigit_decimal

theorem readable_pushLabelledLen (label : String) : Readable Undigited (pushLabelledLen label) := by
  intro left right leftRest rightRest atLeft atRight same
  simp only [pushLabelledLen, cons_append, append_assoc, List.cons.injEq, true_and,
    append_cancel_left_eq] at same
  exact readable_decimal atLeft atRight same

/-- Texts of one length in bytes. -/
theorem text_reads {left right leftRest rightRest : Text}
    (lengths : (encodeText left).length = (encodeText right).length)
    (same : left ++ leftRest = right ++ rightRest) : left = right ∧ leftRest = rightRest := by
  have bytes := congrArg encodeText same
  rw [encodeText_append, encodeText_append] at bytes
  have fronts := congrArg decodeText (append_inj bytes lengths).1
  rw [decodeText_encodeText, decodeText_encodeText] at fronts
  have texts := Option.some.inj fronts
  subst texts
  exact ⟨rfl, append_cancel_left same⟩

/-- A text is read back by its length, whatever characters it has. -/
theorem readable_pushString : Readable Undigited pushString := by
  intro left right leftRest rightRest _ _ same
  simp only [pushString, cons_append, append_assoc, List.cons.injEq, true_and] at same
  have lengths := readable_decimal (undigited_cons rfl _) (undigited_cons rfl _) same
  exact text_reads lengths.1 (List.cons.inj lengths.2).2

theorem undigited_pushString (value rest : Text) : Undigited (pushString value ++ rest) :=
  undigited_cons rfl _

theorem readable_pushStrings (label : String) : Readable Undigited (pushStrings label) :=
  readable_counted (readable_pushLabelledLen label) readable_pushString
    fun value rest _ => undigited_pushString value rest

theorem undigited_pushStrings (label : String) (values : List Text) (rest : Text) :
    Undigited (pushStrings label values ++ rest) := undigited_cons rfl _

theorem prefixFree_pushBool : PrefixFree pushBool := by
  intro left right
  cases left <;> cases right <;> decide

theorem prefixFree_pushKind : PrefixFree pushKind := by
  intro left right
  cases left <;> cases right <;> decide +kernel

theorem prefixFree_pushDateField : PrefixFree pushDateField := by
  intro left right
  cases left <;> cases right <;> decide +kernel

/-- An operator may begin another one, but not with the colon after it. -/
theorem prefixFree_sizeOperator :
    PrefixFree fun operator => pushSizeOperator operator ++ [':'] := by
  intro left right
  cases left <;> cases right <;> decide +kernel

theorem readable_pushSize : Readable Undigited pushSize := by
  refine readable_tagged prefixFree_sizeOperator SizeComparison.operator
    (fun size => Tsv.decimal size.bytes) (fun size => (append_cons ..)) ?_
  rintro ⟨operator, left⟩ ⟨_, right⟩ leftRest rightRest rfl atLeft atRight same
  rcases readable_decimal atLeft atRight same with ⟨rfl, rests⟩
  exact ⟨rfl, rests⟩

/-- The kinds of scopes, with the word of each. -/
inductive ScopeHead where
  | desktop
  | documents
  | downloads
  | applications
  | iCloud
  | trash
  | home
  | path
  deriving DecidableEq

def ScopeHead.word : ScopeHead → Text
  | .desktop => ":desktop".toList
  | .documents => ":documents".toList
  | .downloads => ":downloads".toList
  | .applications => ":applications".toList
  | .iCloud => ":icloud".toList
  | .trash => ":trash".toList
  | .home => ":home".toList
  | .path => ":path".toList

theorem prefixFree_scope : PrefixFree ScopeHead.word := by
  intro left right
  cases left <;> cases right <;> decide +kernel

def scopeHead : QueryScope → ScopeHead
  | .desktop => .desktop
  | .documents => .documents
  | .downloads => .downloads
  | .applications => .applications
  | .iCloud => .iCloud
  | .trash => .trash
  | .home => .home
  | .path _ => .path

def scopeBody : QueryScope → Text
  | .path path => pushString path
  | _ => []

theorem readable_pushScope : Readable Undigited pushScope := by
  refine readable_tagged prefixFree_scope scopeHead scopeBody ?_ ?_
  · intro scope
    cases scope
    case path => rfl
    all_goals exact (append_nil _).symm
  · intro left right leftRest rightRest heads atLeft atRight same
    cases left <;> cases right <;> cases heads
    case path.path.refl left right =>
      rcases readable_pushString atLeft atRight same with ⟨rfl, rests⟩
      exact ⟨rfl, rests⟩
    all_goals exact ⟨rfl, same⟩

inductive DateHead where
  | on
  | before
  | beforeOrOn
  | after
  | afterOrOn
  deriving DecidableEq

def DateHead.word : DateHead → Text
  | .on => ":on:".toList
  | .before => ":before:".toList
  | .beforeOrOn => ":before-or-on:".toList
  | .after => ":after:".toList
  | .afterOrOn => ":after-or-on:".toList

theorem prefixFree_date : PrefixFree DateHead.word := by
  intro left right
  cases left <;> cases right <;> decide +kernel

def dateHead : DateComparison → DateHead
  | .on _ _ => .on
  | .before _ => .before
  | .beforeOrOn _ => .beforeOrOn
  | .after _ => .after
  | .afterOrOn _ => .afterOrOn

def dateBody : DateComparison → Text
  | .on start finish => Tsv.decimal start ++ ':' :: Tsv.decimal finish
  | .before finish | .beforeOrOn finish => Tsv.decimal finish
  | .after start | .afterOrOn start => Tsv.decimal start

theorem readable_pushDate : Readable Undigited pushDate := by
  refine readable_tagged prefixFree_date dateHead dateBody ?_ ?_
  · intro date
    cases date <;> rfl
  · intro left right leftRest rightRest heads atLeft atRight same
    cases left <;> cases right <;> cases heads
    case on.on.refl start finish start' finish' =>
      simp only [dateBody, append_assoc, cons_append] at same
      rcases readable_decimal (undigited_cons rfl _) (undigited_cons rfl _) same with ⟨rfl, ends⟩
      rcases readable_decimal atLeft atRight (List.cons.inj ends).2 with ⟨rfl, rests⟩
      exact ⟨rfl, rests⟩
    all_goals
      rcases readable_decimal atLeft atRight same with ⟨rfl, rests⟩
      exact ⟨rfl, rests⟩

inductive FilterHead where
  | name
  | path
  | extension
  | tag
  | scope
  | kind
  | size
  | date
  deriving DecidableEq

def FilterHead.word : FilterHead → Text
  | .name => ":name:".toList
  | .path => ":path:".toList
  | .extension => ":extension:".toList
  | .tag => ":tag:".toList
  | .scope => ":scope:".toList
  | .kind => ":kind:".toList
  | .size => ":size:".toList
  | .date => ":date:".toList

theorem prefixFree_filter : PrefixFree FilterHead.word := by
  intro left right
  cases left <;> cases right <;> decide +kernel

def filterHead : QueryFilter → FilterHead
  | .name _ _ => .name
  | .path _ _ => .path
  | .extension _ _ => .extension
  | .tag _ _ => .tag
  | .scope _ _ => .scope
  | .kind _ _ => .kind
  | .size _ _ => .size
  | .date _ _ _ => .date

def filterBody : QueryFilter → Text
  | .name value _ | .path value _ | .extension value _ | .tag value _ => pushString value
  | .scope scope _ => pushScope scope
  | .kind kind _ => pushKind kind
  | .size size _ => pushSize size
  | .date field date _ => pushDateField field ++ pushDate date

/-- A filter is read back by its word and then by its values. -/
theorem readable_pushFilter : Readable Undigited pushFilter := by
  refine readable_tagged prefixFree_filter filterHead
    (fun filter => pushBool filter.isNegative ++ filterBody filter) ?_ ?_
  · intro filter
    cases filter <;> rfl
  · intro left right leftRest rightRest heads atLeft atRight same
    rw [append_assoc, append_assoc] at same
    rcases prefixFree_pushBool.reads same with ⟨flags, bodies⟩
    cases left <;> cases right <;> cases heads <;> cases flags
    case name.name.refl.refl | path.path.refl.refl | extension.extension.refl.refl |
        tag.tag.refl.refl =>
      rcases readable_pushString atLeft atRight bodies with ⟨rfl, rests⟩
      exact ⟨rfl, rests⟩
    case scope.scope.refl.refl =>
      rcases readable_pushScope atLeft atRight bodies with ⟨rfl, rests⟩
      exact ⟨rfl, rests⟩
    case kind.kind.refl.refl =>
      rcases prefixFree_pushKind.reads bodies with ⟨rfl, rests⟩
      exact ⟨rfl, rests⟩
    case size.size.refl.refl =>
      rcases readable_pushSize atLeft atRight bodies with ⟨rfl, rests⟩
      exact ⟨rfl, rests⟩
    case date.date.refl.refl =>
      simp only [filterBody, append_assoc] at bodies
      rcases prefixFree_pushDateField.reads bodies with ⟨rfl, dates⟩
      rcases readable_pushDate atLeft atRight dates with ⟨rfl, rests⟩
      exact ⟨rfl, rests⟩

theorem readable_pushProximity : Readable Undigited pushProximity := by
  rintro ⟨left, leftTerms⟩ ⟨right, rightTerms⟩ leftRest rightRest atLeft atRight same
  simp only [pushProximity, append_assoc, append_cancel_left_eq] at same
  rcases readable_decimal (undigited_pushStrings _ _ _) (undigited_pushStrings _ _ _) same with
    ⟨rfl, lists⟩
  rcases readable_pushStrings "terms" atLeft atRight lists with ⟨rfl, rests⟩
  exact ⟨rfl, rests⟩

inductive ExprHead where
  | term
  | phrase
  | proximity
  | filter
  | not
  | and
  | or
  deriving DecidableEq

def ExprHead.word : ExprHead → Text
  | .term => ":term".toList
  | .phrase => ":phrase".toList
  | .proximity => ":proximity".toList
  | .filter => ":filter".toList
  | .not => ":not".toList
  | .and => "|and:".toList
  | .or => "|or:".toList

theorem prefixFree_expr : PrefixFree ExprHead.word := by
  intro left right
  cases left <;> cases right <;> decide +kernel

def exprHead : QueryExpr → ExprHead
  | .term _ => .term
  | .phrase _ => .phrase
  | .proximity _ => .proximity
  | .filter _ => .filter
  | .not _ => .not
  | .and _ => .and
  | .or _ => .or

def exprBody : QueryExpr → Text
  | .term value | .phrase value => pushString value
  | .proximity proximity => pushProximity proximity
  | .filter filter => pushFilter filter
  | .not expression => pushExpression expression
  | .and expressions | .or expressions =>
      Tsv.decimal expressions.length ++ pushExpressions expressions

theorem pushExpression_eq (expression : QueryExpr) :
    pushExpression expression = (exprHead expression).word ++ exprBody expression := by
  cases expression <;> rfl

theorem undigited_pushExpression (expression : QueryExpr) (rest : Text) :
    Undigited (pushExpression expression ++ rest) := by
  cases expression <;> exact undigited_cons rfl _

theorem undigited_pushExpressions (expressions : List QueryExpr) {rest : Text}
    (atRest : Undigited rest) : Undigited (pushExpressions expressions ++ rest) := by
  cases expressions with
  | nil => exact atRest
  | cons expression expressions =>
      rw [pushExpressions, append_assoc]
      exact undigited_pushExpression expression _

theorem expression_reads {left right : QueryExpr} {leftRest rightRest : Text}
    (same : pushExpression left ++ leftRest = pushExpression right ++ rightRest) :
    exprHead left = exprHead right ∧ exprBody left ++ leftRest = exprBody right ++ rightRest := by
  rw [pushExpression_eq, pushExpression_eq, append_assoc, append_assoc] at same
  exact prefixFree_expr.reads same

/-- Two lists of expressions that begin alike have the same length. -/
theorem counts_read {left right : List QueryExpr} {leftRest rightRest : Text}
    (atLeft : Undigited leftRest) (atRight : Undigited rightRest)
    (same : Tsv.decimal left.length ++ pushExpressions left ++ leftRest =
      Tsv.decimal right.length ++ pushExpressions right ++ rightRest) :
    left.length = right.length ∧
      pushExpressions left ++ leftRest = pushExpressions right ++ rightRest := by
  rw [append_assoc, append_assoc] at same
  exact readable_decimal (undigited_pushExpressions left atLeft)
    (undigited_pushExpressions right atRight) same

mutual

/-- Expressions that begin two equal texts are equal, and so is what follows them. -/
theorem pushExpression_reads : ∀ (left right : QueryExpr) {leftRest rightRest : Text},
    Undigited leftRest → Undigited rightRest →
      pushExpression left ++ leftRest = pushExpression right ++ rightRest →
        left = right ∧ leftRest = rightRest
  | .term left, right, _, _, atLeft, atRight, same => by
      have bodies := expression_reads same
      cases right <;> cases bodies.1
      rcases readable_pushString atLeft atRight bodies.2 with ⟨rfl, rests⟩
      exact ⟨rfl, rests⟩
  | .phrase left, right, _, _, atLeft, atRight, same => by
      have bodies := expression_reads same
      cases right <;> cases bodies.1
      rcases readable_pushString atLeft atRight bodies.2 with ⟨rfl, rests⟩
      exact ⟨rfl, rests⟩
  | .proximity left, right, _, _, atLeft, atRight, same => by
      have bodies := expression_reads same
      cases right <;> cases bodies.1
      rcases readable_pushProximity atLeft atRight bodies.2 with ⟨rfl, rests⟩
      exact ⟨rfl, rests⟩
  | .filter left, right, _, _, atLeft, atRight, same => by
      have bodies := expression_reads same
      cases right <;> cases bodies.1
      rcases readable_pushFilter atLeft atRight bodies.2 with ⟨rfl, rests⟩
      exact ⟨rfl, rests⟩
  | .not left, right, _, _, atLeft, atRight, same => by
      have bodies := expression_reads same
      cases right <;> cases bodies.1
      rcases pushExpression_reads left _ atLeft atRight bodies.2 with ⟨rfl, rests⟩
      exact ⟨rfl, rests⟩
  | .and left, right, _, _, atLeft, atRight, same => by
      have bodies := expression_reads same
      cases right <;> cases bodies.1
      have counts := counts_read atLeft atRight bodies.2
      rcases pushExpressions_reads left _ counts.1 atLeft atRight counts.2 with ⟨rfl, rests⟩
      exact ⟨rfl, rests⟩
  | .or left, right, _, _, atLeft, atRight, same => by
      have bodies := expression_reads same
      cases right <;> cases bodies.1
      have counts := counts_read atLeft atRight bodies.2
      rcases pushExpressions_reads left _ counts.1 atLeft atRight counts.2 with ⟨rfl, rests⟩
      exact ⟨rfl, rests⟩

theorem pushExpressions_reads : ∀ (left right : List QueryExpr) {leftRest rightRest : Text},
    left.length = right.length → Undigited leftRest → Undigited rightRest →
      pushExpressions left ++ leftRest = pushExpressions right ++ rightRest →
        left = right ∧ leftRest = rightRest
  | [], [], _, _, _, _, _, same => ⟨rfl, same⟩
  | [], _ :: _, _, _, lengths, _, _, _ => nomatch lengths
  | _ :: _, [], _, _, lengths, _, _, _ => nomatch lengths
  | first :: left, second :: right, leftRest, rightRest, lengths, atLeft, atRight, same => by
      rw [pushExpressions, pushExpressions, append_assoc, append_assoc] at same
      have heads := pushExpression_reads first second (undigited_pushExpressions left atLeft)
        (undigited_pushExpressions right atRight) same
      have tails := pushExpressions_reads left right (Nat.succ.inj lengths) atLeft atRight heads.2
      exact ⟨cons_eq_cons.mpr ⟨heads.1, tails.1⟩, tails.2⟩

end

theorem readable_pushProximities (label : String) : Readable Undigited (pushProximities label) :=
  readable_counted (readable_pushLabelledLen label) readable_pushProximity
    fun _ _ _ => undigited_cons rfl _

theorem undigited_pushFilter (filter : QueryFilter) (rest : Text) :
    Undigited (pushFilter filter ++ rest) := by
  cases filter <;> exact undigited_cons rfl _

theorem readable_pushFilters (label : String) : Readable Undigited (pushFilters label) :=
  readable_counted (readable_pushLabelledLen label) readable_pushFilter
    fun filter rest _ => undigited_pushFilter filter rest

theorem undigited_pushOptionalExpression (expression : Option QueryExpr) :
    Undigited (pushOptionalExpression expression) := by
  cases expression <;> exact undigited_cons rfl _

theorem prefixFree_optionalExpression :
    PrefixFree fun present : Bool => (if present then "|expr:some" else "|expr:none").toList := by
  intro left right
  cases left <;> cases right <;> decide +kernel

/-- The last part of a key needs nothing behind it to be read. -/
theorem pushOptionalExpression_injective : Function.Injective pushOptionalExpression := by
  refine (readable_tagged prefixFree_optionalExpression Option.isSome
    (fun expression => expression.elim [] pushExpression) ?_ ?_).injective undigited_nil
  · intro expression
    cases expression
    case none => exact (append_nil _).symm
    case some expression => rfl
  · intro left right leftRest rightRest heads atLeft atRight same
    cases left <;> cases right <;> cases heads
    case none.none.refl => exact ⟨rfl, same⟩
    case some.some.refl left right =>
      rcases pushExpression_reads left right atLeft atRight same with ⟨rfl, rests⟩
      exact ⟨rfl, rests⟩

end Reading

/-- Queries with one key are one query, so no query is answered from the results of another. -/
theorem canonicalCacheKey_injective : Function.Injective SearchQuery.canonicalCacheKey := by
  rintro ⟨_, _, _, _, _, left⟩ ⟨_, _, _, _, _, right⟩ same
  have follows : ∀ {char : Char} {rest : Text}, isDigit char = false → Undigited (char :: rest) :=
    fun plain => undigited_cons plain _
  have terms := append_cancel_left same
  rcases readable_pushStrings "terms" (follows rfl) (follows rfl) terms with ⟨rfl, excluded⟩
  rcases readable_pushStrings "excluded" (follows rfl) (follows rfl) excluded with ⟨rfl, phrases⟩
  rcases readable_pushStrings "phrases" (follows rfl) (follows rfl) phrases with
    ⟨rfl, proximities⟩
  rcases readable_pushProximities "proximities" (follows rfl) (follows rfl) proximities with
    ⟨rfl, filters⟩
  rcases readable_pushFilters "filters" (undigited_pushOptionalExpression left)
    (undigited_pushOptionalExpression right) filters with ⟨rfl, expressions⟩
  rw [pushOptionalExpression_injective expressions]

end Gfm.Search

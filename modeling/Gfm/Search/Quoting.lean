import Gfm.Search.QuerySyntax

/-!
# Quoted texts

A text in quotes is one token. Whether it becomes a phrase still depends on the text: the operators,
the dash of an exclusion, the proximities and the filters are looked for before the quotes are.
-/

namespace Gfm.Search

open Sorted

variable {unicode : Unicode} {text current : Text} {operator : String} {expression : QueryExpr}

/-- The text has a character that is searched for. -/
def Searchable (unicode : Unicode) (text : Text) : Prop :=
  ∃ char ∈ unicode.normalize text, unicode.isAlphanumeric char = true

/-- The text is read as a phrase and as nothing else. -/
def ReadsAsPhrase (unicode : Unicode) (text : Text) : Prop :=
  isOperator text = false ∧ isNegative text = false ∧ QueryProximity.parse unicode text = none ∧
    QueryFilter.parse unicode text false = none

instance : Decidable (ReadsAsPhrase unicode text) :=
  inferInstanceAs (Decidable (_ ∧ _ ∧ _ ∧ _))

theorem Searchable.ne_nil (searchable : Searchable unicode text) : unicode.normalize text ≠ [] := by
  rcases searchable with ⟨char, member, -⟩
  exact List.ne_nil_of_mem member

theorem Searchable.text_ne_nil (searchable : Searchable unicode text) : text ≠ [] := by
  rintro rfl
  exact searchable.ne_nil rfl

section Scanning

theorem scanFrom_quoted (noQuote : '"' ∉ text) (noEscape : '\\' ∉ text) :
    scanFrom unicode current true (text ++ ['"']) = valueTokens (current ++ text) true := by
  induction text generalizing current with
  | nil => simp [scanFrom, valueTokens]
  | cons char text ih =>
      rw [List.mem_cons, not_or] at noQuote noEscape
      have next : scanFrom unicode current true (char :: (text ++ ['"'])) =
          scanFrom unicode (current ++ [char]) true (text ++ ['"']) := by
        rw [scanFrom.eq_def]
        simp [Ne.symm noQuote.1, Ne.symm noEscape.1]
      rw [List.cons_append, next, ih noQuote.2 noEscape.2]
      simp

/-- A text in quotes is one token. -/
theorem scanQuery_quoted (noQuote : '"' ∉ text) (noEscape : '\\' ∉ text) (nonempty : text ≠ []) :
    scanQuery unicode ('"' :: (text ++ ['"'])) = [⟨text, true, .value⟩] := by
  have opened : scanQuery unicode ('"' :: (text ++ ['"'])) =
      scanFrom unicode [] true (text ++ ['"']) := by
    rw [scanQuery, scanFrom.eq_def]
    simp [Unicode.trim, trimWith]
  rw [opened, scanFrom_quoted noQuote noEscape, List.nil_append, valueTokens, if_neg nonempty]

end Scanning

section Expressions

theorem peekOperator_single (word : isOperator text = false)
    (isWord : operator ∈ ["and", "or", "not"]) :
    peekOperator operator [⟨text, true, .value⟩] = false := by
  rw [isOperator, decide_eq_false_iff_not] at word
  have differs : text.map asciiLower ≠ operator.toList := fun same =>
    word (same ▸ List.mem_map_of_mem isWord)
  simp [peekOperator, QueryToken.asValue, differs]

theorem atomExpr_phrase (reads : ReadsAsPhrase unicode text)
    (nonempty : unicode.normalize text ≠ []) :
    atomExpr unicode text true = some (.phrase (unicode.normalize text)) := by
  simp [atomExpr, reads.2.2.1, reads.2.2.2, nonempty]

theorem parseNot_phrase (reads : ReadsAsPhrase unicode text)
    (nonempty : unicode.normalize text ≠ []) :
    parseNot unicode [⟨text, true, .value⟩] =
      some (.phrase (unicode.normalize text), ⟨[], Nat.lt_succ_self _⟩) := by
  have notNot : peekOperator "not" [⟨text, true, .value⟩] = false :=
    peekOperator_single reads.1 (by simp)
  have atom : parseAtom unicode [⟨text, true, .value⟩] =
      some (.phrase (unicode.normalize text), ⟨[], Nat.lt_succ_self _⟩) := by
    rw [parseAtom.eq_def]
    simp [atomExpr_phrase reads nonempty]
  rw [parseNot.eq_def]
  simp [notNot, reads.2.1, atom]

/-- The expression of the one token is the phrase. -/
theorem parseTokens_phrase (reads : ReadsAsPhrase unicode text)
    (nonempty : unicode.normalize text ≠ []) :
    parseTokens unicode [⟨text, true, .value⟩] = some (.phrase (unicode.normalize text)) := by
  have notOr : peekOperator "or" [⟨text, true, .value⟩] = false :=
    peekOperator_single reads.1 (by simp)
  have notAnd : peekOperator "and" [⟨text, true, .value⟩] = false :=
    peekOperator_single reads.1 (by simp)
  have operand : peekOperand [⟨text, true, .value⟩] = true := by
    simp [peekOperand, peekKind, notOr]
  have unskipped : skipOperator "and" [⟨text, true, .value⟩] = [⟨text, true, .value⟩] := by
    simp [skipOperator, notAnd]
  have conjunction : parseAnd unicode [⟨text, true, .value⟩] =
      some (.phrase (unicode.normalize text), ⟨[], Nat.lt_succ_self _⟩) := by
    have first : ∃ shorter, parseNot unicode (skipOperator "and" [⟨text, true, .value⟩]) =
        some (.phrase (unicode.normalize text), ⟨[], shorter⟩) := by
      rw [unskipped]
      exact ⟨_, parseNot_phrase reads nonempty⟩
    rcases first with ⟨shorter, first⟩
    rw [parseAnd.eq_def]
    simp only [operand, if_true, first]
    rw [parseAndRest.eq_def]
    rfl
  rw [parseTokens, parseOr.eq_def]
  simp only [conjunction, parseOrRest]
  rfl

end Expressions

section Queries

/-- The query of a phrase alone. -/
def phraseQuery (phrase : Text) : SearchQuery :=
  ⟨[], [], [phrase], [], [], some (.phrase phrase)⟩

/-- The phrases that a quoted token gives. -/
theorem addToken_phrases (expression : Option QueryExpr) (nonempty : unicode.normalize text ≠ []) :
    (SearchQuery.addToken unicode ⟨[], [], [], [], [], expression⟩
        ⟨text, true, .value⟩).phrases =
      if ReadsAsPhrase unicode text then [unicode.normalize text] else [] := by
  have value : (⟨text, true, .value⟩ : QueryToken).asValue = some text := rfl
  rw [SearchQuery.addToken, value]
  dsimp only
  cases word : isOperator text with
  | true => simp [word, ReadsAsPhrase]
  | false =>
      cases negative : isNegative text with
      | true =>
          rw [if_neg fun reads : ReadsAsPhrase unicode text => by
            rw [reads.2.1] at negative
            cases negative]
          simp only [if_true, if_false, Bool.false_eq_true]
          split
          · rfl
          · split
            · rfl
            · split <;> rfl
      | false =>
          simp only [if_false, if_true, Bool.false_eq_true]
          cases near : QueryProximity.parse unicode text with
          | some proximity => simp [ReadsAsPhrase, near]
          | none =>
              cases filter : QueryFilter.parse unicode text false with
              | some filter => simp [ReadsAsPhrase, filter]
              | none => simp [ReadsAsPhrase, word, negative, near, filter, nonempty]

/-- A text in quotes, without a quote or a backslash in it, is read as its phrase and nothing else
exactly if it is no operator, begins with no dash, and is no proximity and no filter. -/
theorem quoted_iff (unicode : Unicode) (text : Text) (noQuote : '"' ∉ text) (noEscape : '\\' ∉ text)
    (searchable : Searchable unicode text) :
    SearchQuery.parse unicode ('"' :: (text ++ ['"'])) = phraseQuery (unicode.normalize text) ↔
      ReadsAsPhrase unicode text := by
  have nonempty := searchable.ne_nil
  have phrases : (SearchQuery.parse unicode ('"' :: (text ++ ['"']))).phrases =
      sortDedup (if ReadsAsPhrase unicode text then [unicode.normalize text] else []) := by
    rw [SearchQuery.parse, scanQuery_quoted noQuote noEscape searchable.text_ne_nil]
    simp only [List.foldl_cons, List.foldl_nil, SearchQuery.dedupe, addToken_phrases _ nonempty]
  constructor
  · intro same
    by_contra otherwise
    rw [if_neg otherwise, same] at phrases
    cases phrases
  · intro reads
    rw [SearchQuery.parse, scanQuery_quoted noQuote noEscape searchable.text_ne_nil]
    have value : (⟨text, true, .value⟩ : QueryToken).asValue = some text := rfl
    simp only [List.foldl_cons, List.foldl_nil, SearchQuery.addToken, value, reads.1, reads.2.1,
      Bool.false_eq_true, if_false, reads.2.2.1, reads.2.2.2, if_true, nonempty,
      parseTokens_phrase reads nonempty]
    rfl

theorem quoted_iff_report :
    SearchQuery.parse Unicode.ascii "\"Annual (Report)\"".toList =
      phraseQuery "annual (report)".toList :=
  (quoted_iff Unicode.ascii "Annual (Report)".toList (by decide) (by decide)
    ⟨'a', by decide +kernel, by decide⟩).mpr (by decide +kernel)

/-- The quoted operator is dropped, and the quoted dash excludes. -/
theorem quoted_operator :
    SearchQuery.parse Unicode.ascii "\"and\"".toList ≠ phraseQuery "and".toList ∧
      (SearchQuery.parse Unicode.ascii "\"-draft\"".toList).excludedTerms = ["draft".toList] ∧
      (SearchQuery.parse Unicode.ascii "\"size:1\"".toList).filters = [.size ⟨.eq, 1⟩ false] := by
  refine ⟨fun same => ?_, by decide +kernel, by decide +kernel⟩
  have phrases := congrArg SearchQuery.phrases same
  revert phrases
  decide +kernel

end Queries

end Gfm.Search

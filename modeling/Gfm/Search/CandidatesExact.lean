import Gfm.Search.Candidates

/-!
# When exact candidates are exact

The candidates of an expression are the live records that the expression
finds: a phrase, a name or a path is found only through the postings of its
rarest token, a tag only through the tag postings, and nothing is found by an
empty conjunction. So the candidates are exact just when no accepted record is
lost in this way.
-/

namespace Gfm.Search

open List Postings Std

namespace SearchIndex

variable (unicode : Unicode) (index : SearchIndex) (pass : SearchPass)

/-- Every token has postings, and the id is in the rarest of them. -/
def listsRarest (terms : List Text) (postings : PostingMap Text FileId) (id : FileId) : Bool :=
  (rarestTermPostings terms postings).any fun ids => ids.contains id

/-- A text of the record has the phrase, and among its tokens the rarest one of the phrase. -/
def findsPhrase (record : FileRecord) (phrase : Text) : Bool :=
  let terms := unicode.tokenize (unicode.normalize phrase)
  if terms.isEmpty then index.recordMatchesPhrase record phrase
  else
    (index.columns[record.id]?).any fun columns =>
      (columns.matchesNamePhrase phrase && listsRarest terms index.nameTerms record.id) ||
        (columns.matchesPathPhrase phrase && listsRarest terms index.pathTerms record.id) ||
        (columns.matchesCommentPhrase phrase && listsRarest terms index.metadataTerms record.id)

def findsFilter (record : FileRecord) : QueryFilter → Bool
  | .name value false => listsRarest (unicode.tokenize value) index.nameTerms record.id
  | .path value false => listsRarest (unicode.tokenize value) index.pathTerms record.id
  | .tag value false => (index.tags[value]?).any fun ids => ids.contains record.id
  | _ => true

variable (termMatches : FileRecord → Text → Bool)

mutual

/-- `recordMatchesExpression`, with what the leaves ask of the postings. -/
def findsExpression (record : FileRecord) : QueryExpr → Bool
  | .term term => termMatches record term
  | .phrase phrase =>
      index.findsPhrase unicode record phrase ||
        (pass.includesDeep && index.contentMatchesPhrase unicode record.id phrase)
  | .proximity proximity =>
      pass.includesDeep && index.contentMatchesProximity record.id proximity
  | .filter filter =>
      index.filterMatches unicode record filter && index.findsFilter unicode record filter
  | .not expression =>
      !index.recordMatchesExpression unicode pass termMatches record expression
  | .and expressions => !expressions.isEmpty && findsAll record expressions
  | .or expressions => findsAny record expressions

def findsAll (record : FileRecord) : List QueryExpr → Bool
  | [] => true
  | expression :: expressions => findsExpression record expression && findsAll record expressions

def findsAny (record : FileRecord) : List QueryExpr → Bool
  | [] => false
  | expression :: expressions => findsExpression record expression || findsAny record expressions

end

variable {unicode index pass termMatches} {record : FileRecord}

theorem findsPhrase_matches {phrase : Text}
    (finds : index.findsPhrase unicode record phrase = true) :
    index.recordMatchesPhrase record phrase = true := by
  rw [findsPhrase] at finds
  split at finds
  · exact finds
  · rw [Option.any_eq_true] at finds
    rcases finds with ⟨columns, stored, found⟩
    rw [recordMatchesPhrase, stored, Option.any_some, RecordColumns.matchesPhrase]
    simp only [Bool.or_eq_true, Bool.and_eq_true] at found ⊢
    grind

mutual

theorem findsExpression_matches (expression : QueryExpr)
    (finds : index.findsExpression unicode pass termMatches record expression = true) :
    index.recordMatchesExpression unicode pass termMatches record expression = true := by
  cases expression with
  | term term => exact finds
  | phrase phrase =>
      simp only [findsExpression, recordMatchesExpression, Bool.or_eq_true] at finds ⊢
      exact finds.imp_left findsPhrase_matches
  | proximity proximity => exact finds
  | filter filter =>
      simp only [findsExpression, recordMatchesExpression, Bool.and_eq_true] at finds ⊢
      exact finds.1
  | not expression => exact finds
  | and expressions =>
      simp only [findsExpression, recordMatchesExpression, Bool.and_eq_true] at finds ⊢
      exact findsAll_matches expressions finds.2
  | or expressions =>
      simp only [findsExpression, recordMatchesExpression] at finds ⊢
      exact findsAny_matches expressions finds

theorem findsAll_matches (expressions : List QueryExpr)
    (finds : index.findsAll unicode pass termMatches record expressions = true) :
    index.recordMatchesAll unicode pass termMatches record expressions = true := by
  cases expressions with
  | nil => rfl
  | cons expression expressions =>
      simp only [findsAll, recordMatchesAll, Bool.and_eq_true] at finds ⊢
      exact ⟨findsExpression_matches expression finds.1, findsAll_matches expressions finds.2⟩

theorem findsAny_matches (expressions : List QueryExpr)
    (finds : index.findsAny unicode pass termMatches record expressions = true) :
    index.recordMatchesAny unicode pass termMatches record expressions = true := by
  cases expressions with
  | nil => exact finds
  | cons expression expressions =>
      simp only [findsAny, recordMatchesAny, Bool.or_eq_true] at finds ⊢
      exact finds.imp (findsExpression_matches expression) (findsAny_matches expressions)

end

/-- The postings list a record under nothing but what its stored columns imply. -/
def Honest (index : SearchIndex) : Prop :=
  ∀ column key id, Lists (index.listing column) key id → index.Implies column key id

section Leaves

variable {id : FileId}

theorem mem_stored (well : index.WellIndexed) {columns : RecordColumns}
    (stored : index.columns[id]? = some columns) : ∃ record, index.records[id]? = some record := by
  apply Option.isSome_iff_exists.mp
  rw [← well.stored, stored]
  rfl

theorem listsRarest_iff {terms : List Text} {postings : PostingMap Text FileId} :
    listsRarest terms postings id = true ↔
      ∃ candidates, rarestTermPostings terms postings = some candidates ∧ id ∈ candidates := by
  simp [listsRarest, Option.any_eq_true]

theorem mem_addRecordPhraseIdsForField {terms : List Text} {phrase : Text}
    {postings : PostingMap Text FileId} {matchesField : RecordColumns → Text → Bool}
    {ids : IdSet} :
    id ∈ index.addRecordPhraseIdsForField terms phrase postings matchesField ids ↔
      (listsRarest terms postings id = true ∧
        ∃ columns, index.columns[id]? = some columns ∧ matchesField columns phrase = true) ∨
      id ∈ ids := by
  rw [addRecordPhraseIdsForField, listsRarest_iff]
  cases rarestTermPostings terms postings with
  | none => simp
  | some candidates =>
      simp only [mem_foldl_insert, mem_filter, ExtTreeSet.mem_toList,
        Option.any_eq_true, Option.some.injEq, exists_eq_left']

theorem mem_recordPhraseIds (well : index.WellIndexed) {phrase : Text} :
    id ∈ index.recordPhraseIds unicode phrase ↔
      ∃ record, index.records[id]? = some record ∧
        index.findsPhrase unicode record phrase = true := by
  rw [recordPhraseIds]
  cases noTerms : (unicode.tokenize (unicode.normalize phrase)).isEmpty with
  | true =>
      simp only [findsPhrase, noTerms, if_true, mem_map, mem_filter, Prod.exists,
        exists_eq_right, ExtTreeMap.mem_toList_iff_getElem?_eq_some]
      constructor
      · rintro ⟨record, ⟨⟨stored, found⟩, finds⟩, rfl⟩
        rw [← well.recordId found] at found
        exact ⟨record, found, finds⟩
      · rintro ⟨record, found, finds⟩
        exact ⟨record, ⟨⟨id, found⟩, finds⟩, well.recordId found⟩
  | false =>
      simp only [findsPhrase, noTerms, Bool.false_eq_true, if_false, ExtTreeSet.mem_toList,
        mem_addRecordPhraseIdsForField, ExtTreeSet.not_mem_empty, or_false,
        Option.any_eq_true, Bool.or_eq_true, Bool.and_eq_true]
      constructor
      · rintro (⟨listed, columns, stored, found⟩ | ⟨listed, columns, stored, found⟩ |
          ⟨listed, columns, stored, found⟩)
        all_goals
          rcases mem_stored well stored with ⟨record, live⟩
          refine ⟨record, live, columns, ?_, ?_⟩
          · rw [well.recordId live, stored]
          · rw [well.recordId live]
            grind
      · rintro ⟨record, live, columns, stored, found⟩
        rw [well.recordId live] at stored found
        rcases found with (⟨found, listed⟩ | ⟨found, listed⟩) | ⟨found, listed⟩
        · exact Or.inr (Or.inr ⟨listed, columns, stored, found⟩)
        · exact Or.inr (Or.inl ⟨listed, columns, stored, found⟩)
        · exact Or.inl ⟨listed, columns, stored, found⟩

theorem contentHas_iff {term : Text} :
    index.contentHas id term = true ↔ ContentLists index.contentTerms term id := by
  simp [contentHas, ContentLists, Option.any_eq_true]

theorem contentHas_of_termPositions {term : Text} {positions : List Nat}
    (found : index.termPositions id term = some positions) :
    index.contentHas id term = true := by
  rw [contentHas_iff]
  rw [termPositions, Option.filter_eq_some_iff, Option.bind_eq_some_iff] at found
  rcases found with ⟨⟨ids, posted, placed⟩, -⟩
  exact ⟨ids, posted, ExtTreeMap.mem_iff_isSome_getElem?.mpr (by rw [placed]; rfl)⟩

theorem isSome_of_mapM {terms : List Text} {positions : List (List Nat)}
    (found : terms.mapM (index.termPositions id) = some positions) :
    ∀ term ∈ terms, (index.termPositions id term).isSome = true := by
  induction terms generalizing positions with
  | nil => simp
  | cons first terms ih =>
      simp only [mapM_cons, Option.bind_eq_bind, Option.bind_eq_some_iff] at found
      rcases found with ⟨_, head, _, tail, -⟩
      exact forall_mem_cons.mpr ⟨by rw [head]; rfl, ih tail⟩

theorem contentHas_of_mapM {terms : List Text} {positions : List (List Nat)}
    (found : terms.mapM (index.termPositions id) = some positions) {term : Text}
    (member : term ∈ terms) : index.contentHas id term = true := by
  rcases Option.isSome_iff_exists.mp (isSome_of_mapM found term member) with ⟨positions, here⟩
  exact contentHas_of_termPositions here

/-- A record whose content has every term is in the rarest of their postings. -/
theorem mem_rarestContent {terms : List Text} (nonempty : terms ≠ [])
    (all : ∀ term ∈ terms, index.contentHas id term = true) :
    ∃ found, rarestContentTermPostings terms index.contentTerms = some found ∧ id ∈ found.2 := by
  have posted : ∀ term ∈ terms, (index.contentTerms[term]?).isSome = true := by
    intro term member
    rcases contentHas_iff.mp (all term member) with ⟨ids, posted, -⟩
    rw [posted]
    rfl
  rcases rarestLoop_none_some nonempty posted with ⟨found, rarest⟩
  refine ⟨found, rarest, ?_⟩
  rcases rarestLoop_none_mem rarest with ⟨member, foundPosted⟩
  rcases contentHas_iff.mp (all found.1 member) with ⟨ids, idsPosted, listed⟩
  rw [foundPosted, Option.some.injEq] at idsPosted
  exact idsPosted ▸ listed

theorem contentMatchesPhrase_terms {phrase : Text}
    (found : index.contentMatchesPhrase unicode id phrase = true) :
    unicode.tokenize (unicode.normalize phrase) ≠ [] ∧
      ∀ term ∈ unicode.tokenize (unicode.normalize phrase), index.contentHas id term = true := by
  rw [contentMatchesPhrase] at found
  split at found
  · cases found
  · rename_i term terms
    rw [terms]
    exact ⟨cons_ne_nil _ _, fun other member => mem_singleton.mp member ▸ found⟩
  · rename_i terms notEmpty notSingle
    refine ⟨notEmpty, fun term member => ?_⟩
    split at found
    · cases found
    · rename_i positions mapped
      exact contentHas_of_mapM mapped member

theorem mem_contentPhraseIds {phrase : Text} :
    id ∈ index.contentPhraseIds unicode phrase ↔
      index.contentMatchesPhrase unicode id phrase = true := by
  rw [contentPhraseIds, rarestContentPostings]
  constructor
  · intro member
    split at member
    · cases member
    · exact (mem_filter.mp member).2
  · intro found
    rcases contentMatchesPhrase_terms found with ⟨nonempty, all⟩
    rcases mem_rarestContent nonempty all with ⟨⟨term, ids⟩, rarest, member⟩
    rw [rarest]
    exact mem_filter.mpr ⟨ExtTreeMap.mem_keys.mpr member, found⟩

theorem contentMatchesProximity_terms {proximity : QueryProximity}
    (found : index.contentMatchesProximity id proximity = true) :
    proximity.terms ≠ [] ∧ ∀ term ∈ proximity.terms, index.contentHas id term = true := by
  rw [contentMatchesProximity] at found
  split at found
  · cases found
  · rename_i positions mapped
    refine ⟨?_, fun term member => contentHas_of_mapM mapped member⟩
    intro noTerms
    rw [noTerms] at mapped
    cases mapped
    cases found

theorem mem_contentProximityIds {proximity : QueryProximity} :
    id ∈ index.contentProximityIds proximity ↔
      index.contentMatchesProximity id proximity = true := by
  rw [contentProximityIds]
  constructor
  · intro member
    split at member
    · cases member
    · have both := (mem_filter.mp member).2
      rw [Bool.and_eq_true] at both
      exact both.2
  · intro found
    rcases contentMatchesProximity_terms found with ⟨nonempty, all⟩
    rcases mem_rarestContent nonempty all with ⟨⟨anchorTerm, ids⟩, rarest, member⟩
    rw [rarest]
    refine mem_filter.mpr ⟨ExtTreeMap.mem_keys.mpr member, ?_⟩
    rw [Bool.and_eq_true, all_eq_true]
    refine ⟨fun term termMember => ?_, found⟩
    rw [all term termMember, Bool.or_true]

theorem contentMatches_live (well : index.WellIndexed) {term : Text}
    (has : index.contentHas id term = true) : ∃ record, index.records[id]? = some record := by
  have live := well.contentLive (contentHas_iff.mp has)
  rwa [ExtTreeMap.mem_iff_isSome_getElem?, Option.isSome_iff_exists] at live

theorem mem_phraseCandidateIds (well : index.WellIndexed) {phrase : Text} :
    id ∈ index.phraseCandidateIds unicode pass phrase ↔
      ∃ record, index.records[id]? = some record ∧
        index.findsExpression unicode pass termMatches record (.phrase phrase) = true := by
  rw [phraseCandidateIds]
  simp only [findsExpression, Bool.or_eq_true, Bool.and_eq_true]
  cases pass.includesDeep with
  | false =>
      simp [ExtTreeSet.mem_ofList, mem_recordPhraseIds well]
  | true =>
      simp only [if_true, mem_foldl_insert, mem_contentPhraseIds, ExtTreeSet.mem_ofList,
        contains_iff_mem, mem_recordPhraseIds well, true_and]
      constructor
      · rintro (found | ⟨record, live, finds⟩)
        · rcases contentMatchesPhrase_terms found with ⟨nonempty, all⟩
          rcases exists_mem_of_ne_nil _ nonempty with ⟨term, member⟩
          rcases contentMatches_live well (all term member) with ⟨record, live⟩
          exact ⟨record, live, Or.inr (well.recordId live ▸ found)⟩
        · exact ⟨record, live, Or.inl finds⟩
      · rintro ⟨record, live, finds | found⟩
        · exact Or.inr ⟨record, live, finds⟩
        · exact Or.inl (well.recordId live ▸ found)

theorem mem_textFilterCandidateIds (well : index.WellIndexed) {value : Text}
    {postings : PostingMap Text FileId} {matchesValue : RecordColumns → Text → Bool} {ids : IdSet}
    (candidates : index.textFilterCandidateIds unicode value postings matchesValue = some ids) :
    id ∈ ids ↔ ∃ record, index.records[id]? = some record ∧
      (∃ columns, index.columns[record.id]? = some columns ∧ matchesValue columns value = true) ∧
      listsRarest (unicode.tokenize value) postings record.id = true := by
  rw [textFilterCandidateIds, Option.map_eq_some_iff] at candidates
  rcases candidates with ⟨posted, rarest, rfl⟩
  simp only [ExtTreeSet.mem_ofList, contains_iff_mem, mem_filter,
    ExtTreeSet.mem_toList, Option.any_eq_true, listsRarest_iff, rarest, Option.some.injEq,
    exists_eq_left']
  constructor
  · rintro ⟨listed, columns, stored, found⟩
    rcases mem_stored well stored with ⟨record, live⟩
    rw [← well.recordId live] at stored listed
    exact ⟨record, live, ⟨columns, stored, found⟩, listed⟩
  · rintro ⟨record, live, ⟨columns, stored, found⟩, listed⟩
    rw [well.recordId live] at stored listed
    exact ⟨listed, columns, stored, found⟩

theorem mem_filterCandidateIds (well : index.WellIndexed) (honest : index.Honest)
    {filter : QueryFilter} {ids : IdSet}
    (candidates : index.filterCandidateIds unicode filter = some ids) :
    id ∈ ids ↔ ∃ record, index.records[id]? = some record ∧
      index.findsExpression unicode pass termMatches record (.filter filter) = true := by
  simp only [findsExpression, Bool.and_eq_true, filterMatches, Option.any_eq_true]
  rw [filterCandidateIds.eq_def] at candidates
  split at candidates
  · exact mem_textFilterCandidateIds well candidates
  · exact mem_textFilterCandidateIds well candidates
  · rename_i value
    rw [Option.some.injEq] at candidates
    have own : Lists index.extension value id ↔ index.Implies .extension value id :=
      @WellIndexed.own _ well .extension value id rfl
    rw [← candidates, mem_getD_iff_lists, own]
    simp only [Implies, Column.keys, Option.mem_toList, filterMatchesColumns, findsFilter,
      QueryFilter.isNegative, Bool.false_eq_true, if_false, decide_eq_true_eq, and_true]
    constructor
    · rintro ⟨columns, stored, found⟩
      rcases mem_stored well stored with ⟨record, live⟩
      exact ⟨record, live, columns, by rw [well.recordId live, stored], found⟩
    · rintro ⟨record, live, columns, stored, found⟩
      exact ⟨columns, by rw [← well.recordId live, stored], found⟩
  · rename_i value
    rw [Option.some.injEq] at candidates
    rw [← candidates, mem_getD_iff_lists]
    simp only [filterMatchesColumns, findsFilter, QueryFilter.isNegative, Bool.false_eq_true,
      if_false, Option.any_eq_true, contains_iff_mem, ExtTreeSet.contains_iff_mem]
    constructor
    · intro lists
      rcases honest .tags value id lists with ⟨columns, stored, found⟩
      rcases mem_stored well stored with ⟨record, live⟩
      rw [← well.recordId live] at stored lists
      exact ⟨record, live, ⟨columns, stored, found⟩, lists⟩
    · rintro ⟨record, live, -, lists⟩
      rw [well.recordId live] at lists
      exact lists
  · rename_i kind
    rw [Option.some.injEq] at candidates
    rw [← candidates, mem_getD_iff_lists, well.kinds]
    simp only [filterMatchesColumns, findsFilter, QueryFilter.isNegative, Bool.false_eq_true,
      if_false, and_true, QueryKind.matchesKind_iff]
    constructor
    · rintro ⟨record, live, sameKind⟩
      have stored : (index.columns[id]?).isSome = true := by rw [well.stored, live]; rfl
      rcases Option.isSome_iff_exists.mp stored with ⟨columns, stored⟩
      exact ⟨record, live, columns, by rw [well.recordId live, stored], sameKind⟩
    · rintro ⟨record, live, -, -, sameKind⟩
      exact ⟨record, live, sameKind⟩
  all_goals cases candidates

end Leaves

section Connectives

variable {id : FileId}

theorem mem_retainEach {ids : IdSet} {sets : List IdSet} :
    id ∈ retainEach ids sets ↔ id ∈ ids ∧ ∀ candidates ∈ sets, id ∈ candidates := by
  induction sets generalizing ids with
  | nil => simp [retainEach]
  | cons candidates sets ih =>
      have kept : id ∈ ids.filter (fun id => candidates.contains id) ↔
          id ∈ ids ∧ id ∈ candidates := by
        simp [ExtTreeSet.mem_filter]
      rw [retainEach]
      split
      case isTrue empty =>
        rw [ExtTreeSet.isEmpty_iff] at empty
        rw [empty] at kept
        simp only [ExtTreeSet.not_mem_empty, false_iff, not_and] at kept
        rw [empty, forall_mem_cons]
        refine iff_of_false ExtTreeSet.not_mem_empty ?_
        exact fun all => kept all.1 all.2.1
      case isFalse =>
        rw [ih, kept, forall_mem_cons, and_assoc]

theorem mem_intersectCandidateSets {sets : List IdSet} :
    id ∈ (intersectCandidateSets sets).getD ∅ ↔
      sets ≠ [] ∧ ∀ candidates ∈ sets, id ∈ candidates := by
  have sorted := mergeSort_perm sets fun left right => left.size ≤ right.size
  rw [intersectCandidateSets]
  split
  · rename_i empty
    rw [empty] at sorted
    simp [sorted.symm.eq_nil]
  · rename_i ids others split
    rw [split] at sorted
    have nonempty : sets ≠ [] := by
      rintro rfl
      exact cons_ne_nil _ _ sorted.eq_nil
    have same : (∀ candidates ∈ sets, id ∈ candidates) ↔
        ∀ candidates ∈ ids :: others, id ∈ candidates :=
      forall_congr' fun candidates => imp_congr_left sorted.symm.mem_iff
    rw [Option.getD_some, mem_retainEach, and_iff_right nonempty, same, forall_mem_cons]

theorem mem_unionCandidateSets {sets : List IdSet} {ids : IdSet} :
    id ∈ sets.foldl (fun ids candidates =>
        candidates.toList.foldl (fun ids id => ids.insert id) ids) ids ↔
      id ∈ ids ∨ ∃ candidates ∈ sets, id ∈ candidates := by
  induction sets generalizing ids with
  | nil => simp
  | cons candidates sets ih =>
      simp only [foldl_cons, ih, mem_foldl_insert, ExtTreeSet.mem_toList,
        mem_cons, exists_eq_or_imp]
      grind

theorem findsAll_iff {expressions : List QueryExpr} :
    index.findsAll unicode pass termMatches record expressions = true ↔
      ∀ expression ∈ expressions,
        index.findsExpression unicode pass termMatches record expression = true := by
  induction expressions with
  | nil => simp [findsAll]
  | cons expression expressions ih =>
      rw [findsAll, Bool.and_eq_true, ih, forall_mem_cons]

theorem findsAny_iff {expressions : List QueryExpr} :
    index.findsAny unicode pass termMatches record expressions = true ↔
      ∃ expression ∈ expressions,
        index.findsExpression unicode pass termMatches record expression = true := by
  induction expressions with
  | nil => simp [findsAny]
  | cons expression expressions ih =>
      simp only [findsAny, Bool.or_eq_true, ih, mem_cons, exists_eq_or_imp]

/-- The candidates of each expression are the live records that it finds. -/
def EachExact (unicode : Unicode) (index : SearchIndex) (pass : SearchPass)
    (termMatches : FileRecord → Text → Bool) (id : FileId) (expressions : List QueryExpr)
    (sets : List IdSet) : Prop :=
  List.Forall₂ (fun expression candidates => id ∈ candidates ↔
    ∃ record, index.records[id]? = some record ∧
      index.findsExpression unicode pass termMatches record expression = true) expressions sets

theorem EachExact.all_iff {expressions : List QueryExpr} {sets : List IdSet}
    (each : EachExact unicode index pass termMatches id expressions sets)
    (live : index.records[id]? = some record) :
    (∀ candidates ∈ sets, id ∈ candidates) ↔
      index.findsAll unicode pass termMatches record expressions = true := by
  rw [findsAll_iff]
  induction each with
  | nil => simp
  | cons first others ih =>
      simp only [live, Option.some.injEq, exists_eq_left'] at first
      rw [forall_mem_cons, forall_mem_cons, first, ih]

theorem EachExact.any_iff {expressions : List QueryExpr} {sets : List IdSet}
    (each : EachExact unicode index pass termMatches id expressions sets) :
    (∃ candidates ∈ sets, id ∈ candidates) ↔
      ∃ record, index.records[id]? = some record ∧
        index.findsAny unicode pass termMatches record expressions = true := by
  simp only [findsAny_iff]
  induction each with
  | nil => simp
  | cons first others ih =>
      simp only [mem_cons, exists_eq_or_imp, first, ih, and_or_left, exists_or]

theorem EachExact.and_iff {expressions : List QueryExpr} {sets : List IdSet}
    (each : EachExact unicode index pass termMatches id expressions sets) :
    (sets ≠ [] ∧ ∀ candidates ∈ sets, id ∈ candidates) ↔
      ∃ record, index.records[id]? = some record ∧
        (!expressions.isEmpty &&
          index.findsAll unicode pass termMatches record expressions) = true := by
  cases each with
  | nil => simp
  | cons first others =>
      have whole : EachExact unicode index pass termMatches id _ _ := .cons first others
      cases live : index.records[id]? with
      | none =>
          simp only [live, reduceCtorEq, false_and, exists_false, iff_false] at first
          simp [first]
      | some record =>
          rw [whole.all_iff live]
          simp

mutual

/-- The exact candidates are the live records that the expression finds. -/
theorem mem_exactExpressionCandidateIds (well : index.WellIndexed) (honest : index.Honest)
    (expression : QueryExpr) {ids : IdSet}
    (exact : index.exactExpressionCandidateIds unicode pass expression = some ids) (id : FileId) :
    id ∈ ids ↔ ∃ record, index.records[id]? = some record ∧
      index.findsExpression unicode pass termMatches record expression = true := by
  cases expression with
  | term term => cases exact
  | phrase phrase =>
      cases exact
      exact mem_phraseCandidateIds well
  | proximity proximity =>
      rw [exactExpressionCandidateIds] at exact
      split at exact
      case isFalse => cases exact
      case isTrue deep =>
        cases exact
        simp only [ExtTreeSet.mem_ofList, contains_iff_mem, mem_contentProximityIds,
          findsExpression, deep, Bool.true_and]
        constructor
        · intro found
          rcases contentMatchesProximity_terms found with ⟨nonempty, all⟩
          rcases exists_mem_of_ne_nil _ nonempty with ⟨term, member⟩
          rcases contentMatches_live well (all term member) with ⟨record, live⟩
          exact ⟨record, live, well.recordId live ▸ found⟩
        · rintro ⟨record, live, found⟩
          exact well.recordId live ▸ found
  | filter filter => exact mem_filterCandidateIds well honest exact
  | not expression => cases exact
  | and expressions =>
      rw [exactExpressionCandidateIds, Option.map_eq_some_iff] at exact
      rcases exact with ⟨sets, exact, rfl⟩
      rw [mem_intersectCandidateSets]
      simp only [findsExpression]
      exact (eachExact_exactCandidateSets well honest expressions exact id).and_iff
  | or expressions =>
      rw [exactExpressionCandidateIds, Option.map_eq_some_iff] at exact
      rcases exact with ⟨sets, exact, rfl⟩
      rw [mem_unionCandidateSets, or_iff_right ExtTreeSet.not_mem_empty]
      simp only [findsExpression]
      exact (eachExact_exactCandidateSets well honest expressions exact id).any_iff

theorem eachExact_exactCandidateSets (well : index.WellIndexed) (honest : index.Honest)
    (expressions : List QueryExpr) {sets : List IdSet}
    (exact : index.exactCandidateSets unicode pass expressions = some sets) (id : FileId) :
    EachExact unicode index pass termMatches id expressions sets := by
  cases expressions with
  | nil =>
      cases exact
      exact .nil
  | cons expression expressions =>
      rw [exactCandidateSets] at exact
      split at exact
      · cases exact
      · rename_i candidates first
        rw [Option.map_eq_some_iff] at exact
        rcases exact with ⟨others, rest, rfl⟩
        exact .cons (mem_exactExpressionCandidateIds well honest expression first id)
          (eachExact_exactCandidateSets well honest expressions rest id)

end

end Connectives

section Runs

theorem Honest.step (unicode : Unicode) (well : index.WellIndexed) (honest : index.Honest)
    {operation : IndexOp} (plain : operation.importsPostings = false) :
    (index.step unicode operation).Honest := by
  intro column key id lists
  rcases step_cases unicode well operation with
    ⟨record, entry, built, -, -, isListed⟩ | ⟨ids, withdrawn⟩ | changed | ⟨imports, -⟩
  · rw [isListed.implies]
    rw [isListed.listing] at lists
    refine lists.imp And.right fun old => ?_
    have implied := honest column key id old.1
    exact ⟨implied, fun same => old.2 ⟨same, implied⟩⟩
  · rw [withdrawn.implies]
    rw [withdrawn.listing] at lists
    have implied := honest column key id lists.1
    exact ⟨fun member => lists.2 ⟨member, implied⟩, implied⟩
  · rw [changed.listing] at lists
    rw [Implies, changed.columns]
    exact honest column key id lists
  · rw [plain] at imports
    cases imports

/-- Reached from the empty index without an import of postings. -/
def Reachable (unicode : Unicode) (index : SearchIndex) : Prop :=
  ∃ operations, (∀ operation ∈ operations, operation.importsPostings = false) ∧
    new.run unicode operations = index

theorem Reachable.wellIndexed (reachable : Reachable unicode index) : index.WellIndexed := by
  rcases reachable with ⟨operations, -, rfl⟩
  exact wellIndexed_run unicode operations

theorem Reachable.honest (reachable : Reachable unicode index) : index.Honest := by
  rcases reachable with ⟨operations, plain, rfl⟩
  suffices all : ∀ index : SearchIndex, index.WellIndexed → index.Honest →
      (index.run unicode operations).Honest by
    refine all new wellIndexed_new fun column key id lists => ?_
    cases column <;> exact absurd lists not_lists_empty
  induction operations with
  | nil => exact fun _ _ honest => honest
  | cons operation operations ih =>
      rw [forall_mem_cons] at plain
      intro index well honest
      exact ih plain.2 _ (well.step unicode operation) (honest.step unicode well plain.1)

/-- The candidates are the accepted live records just when none of these is lost by a leaf. -/
theorem exactExpressionCandidateIds_exact_iff (reachable : Reachable unicode index)
    {expression : QueryExpr} {ids : IdSet}
    (exact : index.exactExpressionCandidateIds unicode pass expression = some ids) :
    (∀ id, id ∈ ids ↔ ∃ record, index.records[id]? = some record ∧
        index.recordMatchesExpression unicode pass termMatches record expression = true) ↔
      ∀ (id : FileId) record, index.records[id]? = some record →
        index.recordMatchesExpression unicode pass termMatches record expression = true →
        index.findsExpression unicode pass termMatches record expression = true := by
  have candidates : ∀ id, id ∈ ids ↔ ∃ record, index.records[id]? = some record ∧
      index.findsExpression unicode pass termMatches record expression = true :=
    mem_exactExpressionCandidateIds reachable.wellIndexed reachable.honest expression exact
  constructor
  · intro isExact id record live accepted
    rcases (candidates id).mp ((isExact id).mpr ⟨record, live, accepted⟩) with
      ⟨found, foundLive, finds⟩
    rw [live, Option.some.injEq] at foundLive
    exact foundLive ▸ finds
  · intro nothingLost id
    rw [candidates id]
    constructor
    · rintro ⟨record, live, finds⟩
      exact ⟨record, live, findsExpression_matches expression finds⟩
    · rintro ⟨record, live, accepted⟩
      exact ⟨record, live, nothingLost id record live accepted⟩

/-- A file in the root directory. -/
def namedRecord (node : Nat) (name : Text) : FileRecord where
  id := ⟨⟨1⟩, node⟩
  path := '/' :: name
  name := name
  kind := .file
  len := 0
  created := none
  modified := none
  changed := none
  tags := []
  finderComment := none

def reporting : FileRecord := namedRecord 1 "reporting".toList

def port : FileRecord := namedRecord 2 "port".toList

/-- The files among two: a kind filter loses nothing. -/
theorem exactExpressionCandidateIds_exact_iff_kind :
    ∃ ids, (new.run Unicode.ascii [.insert reporting, .insert port]).exactExpressionCandidateIds
        Unicode.ascii .full (.filter (.kind .file false)) = some ids ∧
      ∀ id, id ∈ ids ↔ ∃ record,
        (new.run Unicode.ascii [.insert reporting, .insert port]).records[id]? = some record ∧
        (new.run Unicode.ascii [.insert reporting, .insert port]).recordMatchesExpression
          Unicode.ascii .full (fun _ _ => false) record (.filter (.kind .file false)) = true := by
  refine ⟨_, rfl, (exactExpressionCandidateIds_exact_iff ⟨_, by decide, rfl⟩ rfl).mpr ?_⟩
  intro id record live accepted
  simp only [findsExpression, findsFilter, Bool.and_true]
  exact accepted

/-- `name:port` accepts `reporting`; once another file has the token, its candidates miss it. -/
theorem unrelatedRecord_hides :
    (new.run Unicode.ascii [.insert reporting]).exactExpressionCandidateIds Unicode.ascii .full
        (.filter (.name "port".toList false)) = none ∧
      ∃ ids, (new.run Unicode.ascii [.insert reporting, .insert port]).exactExpressionCandidateIds
          Unicode.ascii .full (.filter (.name "port".toList false)) = some ids ∧
        ¬∀ id, id ∈ ids ↔ ∃ record,
          (new.run Unicode.ascii [.insert reporting, .insert port]).records[id]? = some record ∧
          (new.run Unicode.ascii [.insert reporting, .insert port]).recordMatchesExpression
            Unicode.ascii .full (fun _ _ => false) record
            (.filter (.name "port".toList false)) = true := by
  refine ⟨rfl, _, rfl, fun isExact => ?_⟩
  have member := (isExact ⟨⟨1⟩, 1⟩).mpr ⟨reporting, by decide +kernel, by decide +kernel⟩
  revert member
  decide +kernel

end Runs

end SearchIndex

end Gfm.Search

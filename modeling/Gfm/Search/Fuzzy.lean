import Gfm.Lib.Deletions
import Gfm.Lib.Folds
import Gfm.Search.Steps

/-!
# Fuzzy retrieval

The index lists every name token under what is left of it after at most two deletions, and a
query looks up what is left of its term. Two terms that are at most two edits apart share such a
key, so the records of the one are considered for the other, as far as the budget goes.
-/

namespace Gfm.Search

open Deletions Folds List Postings Std

structure SearchLookupBudget where
  maxFuzzyKeysPerTerm : Nat
  maxFuzzyTermsPerKey : Nat
  maxFuzzyCandidatesPerTerm : Nat

section Levenshtein

/-- `str::len`. -/
def utf8Length (text : Text) : Nat := (text.map Char.utf8Size).sum

def levenshteinCells (leftChar : Char) :
    Nat → Text → List Nat → List Nat → Nat → List Nat × Nat
  | _, [], _, current, rowMin => (current, rowMin)
  | j, rightChar :: right, previous, current, rowMin =>
      let cost := if leftChar = rightChar then 0 else 1
      let cell := min (min (previous.getD (j + 1) 0 + 1) (current.getD j 0 + 1))
        (previous.getD j 0 + cost)
      levenshteinCells leftChar (j + 1) right previous (current.set (j + 1) cell)
        (min rowMin cell)

def levenshteinRows (right : Text) (max : Nat) :
    Nat → Text → List Nat → List Nat → Option (List Nat)
  | _, [], previous, _ => some previous
  | i, leftChar :: left, previous, current =>
      let (row, rowMin) :=
        levenshteinCells leftChar 0 right previous (current.set 0 (i + 1)) (i + 1)
      if max < rowMin then none else levenshteinRows right max (i + 1) left row previous

/-- The rows are as wide as the text has bytes, while their cells count characters. -/
def boundedLevenshtein (left right : Text) (max : Nat) : Option Nat :=
  let width := utf8Length right
  if max < (utf8Length left - width) + (width - utf8Length left) then none
  else
    (levenshteinRows right max 0 left (List.range (width + 1))
      (List.replicate (width + 1) 0)).bind fun previous =>
        if previous.getD width 0 ≤ max then some (previous.getD width 0) else none

end Levenshtein

/-- The places where a fuzzy lookup polls the cancellation. -/
inductive FuzzyPoll where
  | start
  | key (index : Nat)
  | lookup (index : Nat)
  | answered (index : Nat)
  | candidate (index : Nat)
  deriving DecidableEq

/-- The candidates that were considered so far, and the ids of those that passed. -/
structure FuzzyPass where
  considered : List Text
  ids : List FileId

namespace SearchIndex

variable (unicode : Unicode) (index : SearchIndex)
  (lookup : Text → Nat → Except GfmError (List Text)) (budget : SearchLookupBudget)
  (cancelled : FuzzyPoll → Bool) (term : Text)

def poll (cancelled : Bool) : Except GfmError Unit :=
  if cancelled then .error .cancelled else .ok ()

def cancellationStride : Nat := 256

/-- A loop polls at every `cancellationStride`-th of its steps. -/
def pollAt (position : Nat) (cancelled : Bool) : Except GfmError Unit :=
  if position % cancellationStride = 0 then poll cancelled else .ok ()

def considerCandidate (pass : FuzzyPass) (item : Text × Nat) : Except GfmError FuzzyPass := do
  pollAt item.2 (cancelled (.candidate item.2))
  return {
    considered := pass.considered ++ [item.1]
    ids :=
      if (boundedLevenshtein item.1 term 2).isSome then
        pass.ids ++ ((index.nameTerms[item.1]?).getD ∅).toList
      else pass.ids }

/-- The terms that the index has for a key, then those of the archives that still fit. -/
def keyCandidates (item : Text × Nat) : Except GfmError (List Text) := do
  let listed := ((index.fuzzyTerms[item.1]?).getD ∅).toList.take budget.maxFuzzyCandidatesPerTerm
  let remaining := budget.maxFuzzyCandidatesPerTerm - listed.length
  if 0 < remaining then
    poll (cancelled (.lookup item.2))
    let answer ← lookup item.1 (min budget.maxFuzzyTermsPerKey remaining)
    poll (cancelled (.answered item.2))
    return sortedTexts (listed ++ (answer.map unicode.normalize).filter (isFuzzyTerm unicode))
  else
    return listed

def considerKey (pass : FuzzyPass) (item : Text × Nat) : Except GfmError FuzzyPass := do
  pollAt item.2 (cancelled (.key item.2))
  let candidates ← index.keyCandidates unicode lookup budget cancelled item
  candidates.zipIdx.foldlM (index.considerCandidate cancelled term) pass

def fuzzyIds : Except GfmError FuzzyPass := do
  poll (cancelled .start)
  if ¬isFuzzyTerm unicode term then
    return ⟨[], []⟩
  else
    (((deletionKeys unicode term 2).take budget.maxFuzzyKeysPerTerm).zipIdx).foldlM
      (index.considerKey unicode lookup budget cancelled term) ⟨[], []⟩

end SearchIndex

section Keys

variable {unicode : Unicode} {kept term left right : Text}

theorem mem_collectDeletions {count : Nat} (remains : Remains count kept term)
    (nonempty : kept ≠ []) : kept ∈ collectDeletions count term := by
  induction count generalizing term with
  | zero =>
      have same : kept = term := remains.1.eq_of_length_le remains.2
      simp [collectDeletions, same]
  | succ count ih =>
      have positive : 0 < kept.length := length_pos_of_ne_nil nonempty
      rcases Nat.eq_or_lt_of_le remains.1.length_le with whole | shorter
      · have same : kept = term := remains.1.eq_of_length whole
        unfold collectDeletions
        split
        · simp [same]
        · simp [same]
      · rcases exists_sublist_eraseIdx remains.1 shorter with ⟨position, small, rest⟩
        have long : ¬term.length ≤ 1 := by omega
        unfold collectDeletions
        rw [if_neg long]
        apply mem_cons_of_mem
        refine mem_flatMap.mpr ⟨position, mem_range.mpr small, ih ⟨rest, ?_⟩⟩
        have fewer := remains.2
        rw [length_eraseIdx_of_lt small]
        omega

theorem mem_deletionKeys (letters : term.any unicode.isAlphabetic = true)
    (short : hasLongDigitRun term 0 = false) {count : Nat} (remains : Remains count kept term)
    (nonempty : kept ≠ []) : kept ∈ deletionKeys unicode term count := by
  have some_ : term.isEmpty = false := by
    cases term with
    | nil => simp at letters
    | cons _ _ => rfl
  simp only [deletionKeys, some_, letters, short, Bool.false_eq_true, not_true_eq_false, or_self,
    if_false, mem_sortedTexts]
  exact mem_collectDeletions remains nonempty

theorem isFuzzyLoop_alphabetic (chars : Text) {count digits : Nat} {hasAlpha : Bool}
    (fuzzy : isFuzzyLoop unicode chars count hasAlpha digits = true) :
    hasAlpha = true ∨ chars.any unicode.isAlphabetic = true := by
  induction chars generalizing count digits hasAlpha with
  | nil =>
      simp only [isFuzzyLoop, Bool.and_eq_true] at fuzzy
      exact .inl fuzzy.2
  | cons char chars ih =>
      rw [any_cons, Bool.or_eq_true]
      unfold isFuzzyLoop at fuzzy
      split at fuzzy
      case isTrue letter => exact .inr (.inl letter)
      case isFalse _ =>
        split at fuzzy
        case isTrue _ =>
          split at fuzzy
          · cases fuzzy
          · exact (ih fuzzy).imp id .inr
        case isFalse _ => exact (ih fuzzy).imp id .inr

theorem isFuzzyLoop_digits (notLetters : ∀ char : Char, char.isDigit → ¬unicode.isAlphabetic char)
    (chars : Text) {count digits : Nat} {hasAlpha : Bool}
    (fuzzy : isFuzzyLoop unicode chars count hasAlpha digits = true) :
    hasLongDigitRun chars digits = false := by
  induction chars generalizing count digits hasAlpha with
  | nil => rfl
  | cons char chars ih =>
      unfold isFuzzyLoop at fuzzy
      unfold hasLongDigitRun
      split at fuzzy
      case isTrue letter =>
        have notDigit : ¬char.isDigit := fun digit => notLetters char digit letter
        rw [if_neg notDigit]
        exact ih fuzzy
      case isFalse _ =>
        split at fuzzy
        case isTrue digit =>
          rw [if_pos digit]
          split at fuzzy
          case isTrue _ => cases fuzzy
          case isFalse few =>
            rw [if_neg few]
            exact ih fuzzy
        case isFalse notDigit =>
          rw [if_neg notDigit]
          exact ih fuzzy

theorem letters_of_isFuzzyTerm (fuzzy : isFuzzyTerm unicode term = true) :
    term.any unicode.isAlphabetic = true :=
  (isFuzzyLoop_alphabetic term fuzzy).resolve_left Bool.false_ne_true

/-- Two terms that are at most two edits apart share a deletion key. -/
theorem exists_shared_key (notLetters : ∀ char : Char, char.isDigit → ¬unicode.isAlphabetic char)
    (fuzzyLeft : isFuzzyTerm unicode left = true) (fuzzyRight : isFuzzyTerm unicode right = true)
    (close : Within 2 left right) (long : 3 ≤ max left.length right.length) :
    ∃ key, key ∈ deletionKeys unicode left 2 ∧ key ∈ deletionKeys unicode right 2 := by
  rcases close.common with ⟨kept, inLeft, inRight⟩
  have nonempty : kept ≠ [] := by
    rintro rfl
    have fewLeft := inLeft.2
    have fewRight := inRight.2
    simp only [length_nil] at fewLeft fewRight
    omega
  exact ⟨kept,
    mem_deletionKeys (letters_of_isFuzzyTerm fuzzyLeft)
      (isFuzzyLoop_digits notLetters left fuzzyLeft) inLeft nonempty,
    mem_deletionKeys (letters_of_isFuzzyTerm fuzzyRight)
      (isFuzzyLoop_digits notLetters right fuzzyRight) inRight nonempty⟩

end Keys

section Complete

variable {unicode : Unicode} {index : SearchIndex} {fuzzyTerms : PostingMap Text Text}
  {nameTerms : PostingMap Text FileId} {key token other : Text} {id : FileId}

/-- Every fuzzy name token is listed under its deletion keys. -/
def FuzzyComplete (unicode : Unicode) (nameTerms : PostingMap Text FileId)
    (fuzzyTerms : PostingMap Text Text) : Prop :=
  ∀ token, nameTerms.contains token → isFuzzyTerm unicode token →
    ∀ key ∈ deletionKeys unicode token 2, Lists fuzzyTerms key token

theorem contains_add : (add nameTerms other id).contains token ↔
    token = other ∨ nameTerms.contains token := by
  simp only [add, ExtTreeMap.contains_eq_isSome_getElem?, ExtTreeMap.getElem?_alter,
    Std.compare_eq_iff_eq]
  by_cases same : other = token
  · simp [same]
  · simp [same, Ne.symm same]

theorem contains_of_remove (contains : (remove nameTerms other id).contains token) :
    nameTerms.contains token := by
  simp only [remove, ExtTreeMap.contains_eq_isSome_getElem?, ExtTreeMap.getElem?_alter,
    Std.compare_eq_iff_eq] at contains ⊢
  by_cases same : other = token
  · subst same
    cases found : nameTerms[other]? with
    | none => simp [found] at contains
    | some ids => rfl
  · simpa [same] using contains

theorem lists_addFuzzyTerm_of (lists : Lists fuzzyTerms key token) :
    Lists (SearchIndex.addFuzzyTerm unicode fuzzyTerms other) key token := by
  unfold SearchIndex.addFuzzyTerm
  split
  · exact lists_addEach.mpr (.inr lists)
  · exact lists

theorem lists_removeFuzzyTerm_of (differs : token ≠ other) (lists : Lists fuzzyTerms key token) :
    Lists (SearchIndex.removeFuzzyTerm unicode fuzzyTerms other) key token := by
  unfold SearchIndex.removeFuzzyTerm
  split
  · exact lists_removeEach.mpr ⟨lists, fun both => differs both.2⟩
  · exact lists

theorem FuzzyComplete.addNameToken {buildPrefixes : Bool}
    (complete : FuzzyComplete unicode index.nameTerms index.fuzzyTerms) (token : Text) :
    FuzzyComplete unicode
      (SearchIndex.addNameToken unicode buildPrefixes true id index token).nameTerms
      (SearchIndex.addNameToken unicode buildPrefixes true id index token).fuzzyTerms := by
  intro listed contains fuzzy key member
  simp only [SearchIndex.addNameToken, true_and] at contains ⊢
  by_cases known : index.nameTerms.contains listed
  · have lists := complete listed known fuzzy key member
    split
    · exact lists_addFuzzyTerm_of lists
    · exact lists
  · have same : listed = token := (contains_add.mp contains).resolve_right known
    rw [if_pos (same ▸ known), SearchIndex.addFuzzyTerm, ← same, if_pos fuzzy]
    exact lists_addEach.mpr (.inl ⟨member, rfl⟩)

theorem FuzzyComplete.removeNameToken
    (complete : FuzzyComplete unicode index.nameTerms index.fuzzyTerms) (token : Text) :
    FuzzyComplete unicode (SearchIndex.removeNameToken unicode id index token).nameTerms
      (SearchIndex.removeNameToken unicode id index token).fuzzyTerms := by
  intro listed contains fuzzy key member
  simp only [SearchIndex.removeNameToken] at contains ⊢
  have lists := complete listed (contains_of_remove contains) fuzzy key member
  split
  case isTrue _ => exact lists
  case isFalse gone =>
    refine lists_removeFuzzyTerm_of ?_ lists
    rintro rfl
    exact gone contains

/-- The index lists its name tokens under all their deletion keys. -/
def SearchIndex.ListsFuzzy (unicode : Unicode) (index : SearchIndex) : Prop :=
  FuzzyComplete unicode index.nameTerms index.fuzzyTerms

theorem SearchIndex.ListsFuzzy.frame {after : SearchIndex} (complete : index.ListsFuzzy unicode)
    (names : after.nameTerms = index.nameTerms)
    (kept : ∀ key token, Lists index.fuzzyTerms key token → Lists after.fuzzyTerms key token) :
    after.ListsFuzzy unicode := by
  intro token contains fuzzy key member
  exact kept key token (complete token (names ▸ contains) fuzzy key member)

theorem SearchIndex.ListsFuzzy.same {after : SearchIndex} (complete : index.ListsFuzzy unicode)
    (names : after.nameTerms = index.nameTerms) (fuzzy : after.fuzzyTerms = index.fuzzyTerms) :
    after.ListsFuzzy unicode :=
  complete.frame names fun _ _ lists => fuzzy ▸ lists

theorem SearchIndex.ListsFuzzy.foldl {Item : Type} {change : SearchIndex → Item → SearchIndex}
    (each : ∀ index item, ListsFuzzy unicode index → ListsFuzzy unicode (change index item))
    (items : List Item) (complete : index.ListsFuzzy unicode) :
    (items.foldl change index).ListsFuzzy unicode := by
  induction items generalizing index with
  | nil => exact complete
  | cons item items ih => exact ih (each index item complete)

end Complete

namespace SearchIndex

section Operations

variable {unicode : Unicode} {index : SearchIndex}

theorem ListsFuzzy.removeContent (complete : index.ListsFuzzy unicode) (id : FileId) :
    (index.removeContent id).ListsFuzzy unicode := by
  unfold SearchIndex.removeContent
  split
  · exact complete.same rfl rfl
  · exact complete.same rfl rfl

theorem ListsFuzzy.addTermsWithSidecarPolicy (complete : index.ListsFuzzy unicode)
    (record : FileRecord) (columns : RecordColumns)
    (buildPrefixes buildSubstrings buildMetadata : Bool) :
    (index.addTermsWithSidecarPolicy unicode record columns buildPrefixes buildSubstrings true
      buildMetadata).ListsFuzzy unicode := by
  have named : (columns.nameTokens.foldl (addNameToken unicode buildPrefixes true record.id)
      { index with nameExact := add index.nameExact columns.name record.id }).ListsFuzzy unicode :=
    ListsFuzzy.foldl (fun _ token complete => FuzzyComplete.addNameToken complete token) _
      (complete.same rfl rfl)
  exact named.same rfl rfl

theorem ListsFuzzy.removeTerms (complete : index.ListsFuzzy unicode) (record : FileRecord) :
    (index.removeTerms unicode record).ListsFuzzy unicode := by
  unfold SearchIndex.removeTerms
  apply ListsFuzzy.removeContent
  have unnamed : ((index.columnsOf unicode record).nameTokens.foldl
      (removeNameToken unicode record.id)
      { index with
        nameExact := Postings.remove index.nameExact (index.columnsOf unicode record).name record.id
        nameSubstrings := removeEach index.nameSubstrings
          (substringGrams (index.columnsOf unicode record).name) record.id }).ListsFuzzy unicode :=
    ListsFuzzy.foldl (fun _ token complete => FuzzyComplete.removeNameToken complete token) _
      (complete.same rfl rfl)
  exact unnamed.same rfl rfl

theorem ListsFuzzy.replaceOld (complete : index.ListsFuzzy unicode) (id : FileId) :
    (index.replaceOld unicode id).ListsFuzzy unicode := by
  unfold SearchIndex.replaceOld
  split
  · exact complete
  · have erased : ListsFuzzy unicode { index with records := index.records.erase id } :=
      complete.same rfl rfl
    exact (erased.removeTerms _).same rfl rfl

theorem ListsFuzzy.insert (complete : index.ListsFuzzy unicode) (record : FileRecord) :
    (index.insert unicode record).ListsFuzzy unicode :=
  ((complete.replaceOld record.id).addTermsWithSidecarPolicy record _ true true true).same rfl rfl

theorem ListsFuzzy.remove (complete : index.ListsFuzzy unicode) (id : FileId) :
    (index.remove unicode id).2.ListsFuzzy unicode := by
  unfold SearchIndex.remove
  split
  · exact complete
  · have erased : ListsFuzzy unicode { index with records := index.records.erase id } :=
      complete.same rfl rfl
    exact (erased.removeTerms _).same rfl rfl

theorem ListsFuzzy.removeEachId (complete : index.ListsFuzzy unicode) (ids : List FileId) :
    (index.removeEachId unicode ids).2.ListsFuzzy unicode := by
  induction ids generalizing index with
  | nil => exact complete
  | cons id ids ih => exact ih (complete.remove id)

theorem ListsFuzzy.listContent (complete : index.ListsFuzzy unicode) (id : FileId) (term : Text)
    (change : Option (List Nat) → List Nat) :
    (index.listContent id term change).ListsFuzzy unicode :=
  complete.same rfl rfl

theorem ListsFuzzy.insertWithColumnsInner (complete : index.ListsFuzzy unicode)
    (record : FileRecord) (columns : SearchRecordColumns)
    {buildPrefixes buildSubstrings buildFuzzy buildMetadata : Bool}
    (built : record.id = columns.id → buildFuzzy = true) :
    (index.insertWithColumnsInner unicode record columns buildPrefixes buildSubstrings buildFuzzy
      buildMetadata).2.ListsFuzzy unicode := by
  unfold SearchIndex.insertWithColumnsInner
  split
  case isTrue _ => exact complete.insert record
  case isFalse same =>
    rw [built (not_not.mp same)]
    exact ((complete.replaceOld record.id).addTermsWithSidecarPolicy record _ buildPrefixes
      buildSubstrings buildMetadata).same rfl rfl

theorem ListsFuzzy.importContentPosting (complete : index.ListsFuzzy unicode)
    (posting : ContentPosting) :
    (index.importContentPosting unicode posting).ListsFuzzy unicode := by
  unfold SearchIndex.importContentPosting
  dsimp only
  split
  · exact complete
  · apply ListsFuzzy.foldl
    · intro index positions complete
      split
      · exact complete.listContent _ _ _
      · exact complete
    · apply ListsFuzzy.foldl
      · intro index id complete
        split
        · exact complete.listContent _ _ _
        · exact complete
      · exact complete

end Operations

end SearchIndex

/-- An insert that leaves the fuzzy terms of its record to a later import. -/
def IndexOp.DefersFuzzy : IndexOp → Prop
  | .insertWithColumnsDeferredFuzzy record columns => record.id = columns.id
  | .insertWithColumnsDeferredSidecars record columns => record.id = columns.id
  | _ => False

namespace SearchIndex

section Runs

variable {unicode : Unicode} {index : SearchIndex}

theorem ListsFuzzy.step (complete : index.ListsFuzzy unicode) {operation : IndexOp}
    (builds : ¬operation.DefersFuzzy) : (index.step unicode operation).ListsFuzzy unicode := by
  cases operation with
  | insert record => exact complete.insert record
  | insertWithColumns record columns =>
      exact complete.insertWithColumnsInner record columns fun _ => rfl
  | insertWithColumnsDeferredFuzzy record columns =>
      exact complete.insertWithColumnsInner record columns fun same => absurd same builds
  | insertWithColumnsDeferredSidecars record columns =>
      exact complete.insertWithColumnsInner record columns fun same => absurd same builds
  | importPrefixPostings postings =>
      apply ListsFuzzy.foldl _ _ complete
      intro index posting complete
      dsimp only
      split
      · exact complete.same rfl rfl
      · exact complete
  | importSubstringPostings postings =>
      apply ListsFuzzy.foldl _ _ complete
      intro index posting complete
      dsimp only
      split
      · exact complete.same rfl rfl
      · exact complete
  | importFuzzyPostings postings =>
      apply ListsFuzzy.foldl _ _ complete
      intro index posting complete
      dsimp only
      split
      · exact complete.frame rfl fun key token lists => lists_extend.mpr (.inr lists)
      · exact complete
  | importMetadataPostings postings =>
      apply ListsFuzzy.foldl _ _ complete
      intro index posting complete
      dsimp only
      split
      · split
        · exact complete.same rfl rfl
        · exact complete.same rfl rfl
      · exact complete
  | importContentPostings postings =>
      apply ListsFuzzy.foldl _ _ complete
      intro index posting complete
      exact complete.importContentPosting posting
  | applyRecordColumns columns =>
      simp only [SearchIndex.step, applyRecordColumns]
      split
      · exact complete
      · exact ((complete.removeTerms _).addTermsWithSidecarPolicy _ _ true true true).same rfl rfl
  | insertContent id text =>
      simp only [SearchIndex.step, insertContent]
      split
      · apply ListsFuzzy.foldl _ _ (complete.removeContent id)
        intro index token complete
        exact complete.listContent _ _ _
      · exact complete
  | insertContentTerms id terms =>
      simp only [SearchIndex.step, insertContentTerms]
      split
      · apply ListsFuzzy.foldl _ _ complete
        intro index term complete
        split
        · exact complete
        · exact complete.listContent _ _ _
      · exact complete
  | removeContent id => exact complete.removeContent id
  | remove id => exact complete.remove id
  | removePath path =>
      simp only [SearchIndex.step, removePath]
      split
      · exact complete
      · have erased : ListsFuzzy unicode { index with paths := index.paths.erase path } :=
          complete.same rfl rfl
        exact erased.remove _
  | removeSubtree root => exact complete.removeEachId _
  | pin id =>
      simp only [SearchIndex.step, pin]
      split
      · exact complete.same rfl rfl
      · exact complete
  | unpin id => exact complete.same rfl rfl

theorem listsFuzzy_run (unicode : Unicode) {operations : List IndexOp}
    (builds : ∀ operation ∈ operations, ¬operation.DefersFuzzy) :
    (new.run unicode operations).ListsFuzzy unicode := by
  induction operations using List.reverseRecOn with
  | nil =>
      intro token contains
      simp [run, new] at contains
  | append_singleton operations operation ih =>
      rw [run, foldl_append]
      refine ListsFuzzy.step (ih fun other member => ?_) ?_
      · exact builds other (mem_append_left _ member)
      · exact builds operation (mem_append_right _ (mem_singleton.mpr rfl))

end Runs

section Retrieval

variable {unicode : Unicode} {index : SearchIndex}
  {lookup : Text → Nat → Except GfmError (List Text)} {budget : SearchLookupBudget}
  {cancelled : FuzzyPoll → Bool} {term token key : Text}

theorem considerCandidate_considered {pass next : FuzzyPass} {item : Text × Nat}
    (run : index.considerCandidate cancelled term pass item = .ok next) :
    next.considered = pass.considered ++ [item.1] := by
  unfold considerCandidate at run
  rcases bind_eq_ok run with ⟨_, _, rest⟩
  exact (Except.ok.inj rest) ▸ rfl

theorem considerKey_keeps {pass next : FuzzyPass} {item : Text × Nat}
    (run : index.considerKey unicode lookup budget cancelled term pass item = .ok next)
    (considered : token ∈ pass.considered) : token ∈ next.considered := by
  unfold considerKey at run
  rcases bind_eq_ok run with ⟨_, _, afterPoll⟩
  rcases bind_eq_ok afterPoll with ⟨candidates, _, rest⟩
  refine foldlM_keeps (fun pass : FuzzyPass => token ∈ pass.considered) ?_ rest considered
  intro state next item _ stepped member
  rw [considerCandidate_considered stepped]
  exact mem_append_left _ member

/-- A key that fits the budget brings every term that the index lists under it. -/
theorem mem_keyCandidates {item : Text × Nat} {candidates : List Text}
    (found : index.keyCandidates unicode lookup budget cancelled item = .ok candidates)
    (wide : ((index.fuzzyTerms[item.1]?).getD ∅).toList.length ≤
      budget.maxFuzzyCandidatesPerTerm)
    (lists : Lists index.fuzzyTerms item.1 token) : token ∈ candidates := by
  have listed : token ∈ ((index.fuzzyTerms[item.1]?).getD ∅).toList.take
      budget.maxFuzzyCandidatesPerTerm := by
    rw [take_of_length_le wide, ExtTreeSet.mem_toList]
    exact mem_getD_iff_lists.mpr lists
  unfold keyCandidates at found
  dsimp only at found
  split at found
  · rcases bind_eq_ok found with ⟨_, _, afterLookup⟩
    rcases bind_eq_ok afterLookup with ⟨answer, _, afterAnswer⟩
    rcases bind_eq_ok afterAnswer with ⟨_, _, rest⟩
    rw [← Except.ok.inj rest, mem_sortedTexts]
    exact mem_append_left _ listed
  · exact (Except.ok.inj found) ▸ listed

theorem considerKey_brings {pass next : FuzzyPass} {item : Text × Nat}
    (wide : ((index.fuzzyTerms[item.1]?).getD ∅).toList.length ≤
      budget.maxFuzzyCandidatesPerTerm)
    (lists : Lists index.fuzzyTerms item.1 token)
    (run : index.considerKey unicode lookup budget cancelled term pass item = .ok next) :
    token ∈ next.considered := by
  unfold considerKey at run
  rcases bind_eq_ok run with ⟨_, _, afterPoll⟩
  rcases bind_eq_ok afterPoll with ⟨candidates, found, rest⟩
  rcases mem_iff_getElem?.mp (mem_keyCandidates found wide lists) with ⟨position, at_⟩
  have among : (token, position) ∈ candidates.zipIdx := mem_zipIdx_iff_getElem?.mpr at_
  refine foldlM_of_mem (fun pass : FuzzyPass => token ∈ pass.considered) among ?_ ?_ rest
  · intro state next other stepped member
    rw [considerCandidate_considered stepped]
    exact mem_append_left _ member
  · intro state next stepped
    rw [considerCandidate_considered stepped]
    exact mem_append_right _ (mem_singleton.mpr rfl)

/-- A lookup that ends considers every term that is listed under a key it looks up. -/
theorem fuzzyIds_considers {pass : FuzzyPass} (fuzzy : isFuzzyTerm unicode term = true)
    (run : index.fuzzyIds unicode lookup budget cancelled term = .ok pass)
    (member : key ∈ (deletionKeys unicode term 2).take budget.maxFuzzyKeysPerTerm)
    (wide : ((index.fuzzyTerms[key]?).getD ∅).toList.length ≤ budget.maxFuzzyCandidatesPerTerm)
    (lists : Lists index.fuzzyTerms key token) : token ∈ pass.considered := by
  unfold fuzzyIds at run
  rcases bind_eq_ok run with ⟨_, _, rest⟩
  rw [if_neg (not_not.mpr fuzzy)] at rest
  rcases mem_iff_getElem?.mp member with ⟨position, at_⟩
  have among : (key, position) ∈
      ((deletionKeys unicode term 2).take budget.maxFuzzyKeysPerTerm).zipIdx :=
    mem_zipIdx_iff_getElem?.mpr at_
  refine foldlM_of_mem (fun pass : FuzzyPass => token ∈ pass.considered) among ?_ ?_ rest
  · intro state next other stepped considered
    exact considerKey_keeps stepped considered
  · intro state next stepped
    exact considerKey_brings wide lists stepped

/-- The budget has room for every key of the term, and for every term under such a key. -/
def Fits (unicode : Unicode) (index : SearchIndex) (budget : SearchLookupBudget)
    (term : Text) : Prop :=
  (deletionKeys unicode term 2).length ≤ budget.maxFuzzyKeysPerTerm ∧
    ∀ key ∈ deletionKeys unicode term 2,
      ((index.fuzzyTerms[key]?).getD ∅).toList.length ≤ budget.maxFuzzyCandidatesPerTerm

/-- Fuzzy retrieval is complete for the terms that the code takes for fuzzy: two that are at most
two edits apart share a key, and in every index whose inserts built their fuzzy terms a lookup
that fits its budget considers every name token of a live record that is so close. -/
theorem fuzzy_complete (unicode : Unicode)
    (notLetters : ∀ char : Char, char.isDigit → ¬unicode.isAlphabetic char) {indexed queried : Text}
    (fuzzyIndexed : isFuzzyTerm unicode indexed = true)
    (fuzzyQueried : isFuzzyTerm unicode queried = true) (close : Within 2 indexed queried)
    (long : 3 ≤ max indexed.length queried.length) :
    (∃ key, key ∈ deletionKeys unicode indexed 2 ∧ key ∈ deletionKeys unicode queried 2) ∧
    ∀ operations : List IndexOp, (∀ operation ∈ operations, ¬operation.DefersFuzzy) →
      ∀ (id : FileId) (columns : RecordColumns),
        (new.run unicode operations).columns[id]? = some columns → indexed ∈ columns.nameTokens →
        ∀ lookup budget cancelled pass, (new.run unicode operations).Fits unicode budget queried →
          (new.run unicode operations).fuzzyIds unicode lookup budget cancelled queried = .ok pass →
          indexed ∈ pass.considered ∧ Lists (new.run unicode operations).nameTerms indexed id := by
  rcases exists_shared_key notLetters fuzzyIndexed fuzzyQueried close long with
    ⟨key, inIndexed, inQueried⟩
  refine ⟨⟨key, inIndexed, inQueried⟩, ?_⟩
  intro operations builds id columns stored token lookup budget cancelled pass fits run
  have well := wellIndexed_run unicode operations
  have owned : Lists ((new.run unicode operations).listing .nameTerms) indexed id ↔
      (new.run unicode operations).Implies .nameTerms indexed id := well.own rfl
  have named : Lists (new.run unicode operations).nameTerms indexed id :=
    owned.mpr ⟨columns, stored, token⟩
  have contains : (new.run unicode operations).nameTerms.contains indexed := by
    rcases named with ⟨ids, found, _⟩
    rw [ExtTreeMap.contains_eq_isSome_getElem?, found]
    rfl
  have lists := listsFuzzy_run unicode builds indexed contains fuzzyIndexed key inIndexed
  refine ⟨fuzzyIds_considers fuzzyQueried run ?_ (fits.2 key inQueried) lists, named⟩
  rw [take_of_length_le fits.1]
  exact inQueried

end Retrieval

theorem ascii_notLetters (char : Char) (digit : char.isDigit) :
    ¬Unicode.ascii.isAlphabetic char := by
  simp only [Char.isDigit, Bool.and_eq_true, decide_eq_true_eq, ge_iff_le,
    UInt32.le_iff_toNat_le] at digit
  simp only [Unicode.ascii, Char.isAlpha, Char.isUpper, Char.isLower, Bool.or_eq_true,
    Bool.and_eq_true, decide_eq_true_eq, ge_iff_le, UInt32.le_iff_toNat_le]
  have last : char.val.toNat ≤ 57 := digit.2
  rintro (upper | lower)
  · have first : 65 ≤ char.val.toNat := upper.1
    omega
  · have first : 97 ≤ char.val.toNat := lower.1
    omega

theorem fuzzy_complete_abc : ∃ key, key ∈ deletionKeys Unicode.ascii ['a', 'b', 'c'] 2 ∧
    key ∈ deletionKeys Unicode.ascii ['a', 'b', 'd'] 2 :=
  (fuzzy_complete Unicode.ascii ascii_notLetters (by decide) (by decide)
    ⟨1, by decide, .keep 'a' (.keep 'b' (.substitute 'c' 'd' .nil))⟩ (by decide)).1

/-- Two numbers are one edit apart and share no key: terms without a letter are not fuzzy. -/
theorem numbers_share_no_key : ¬∀ indexed queried : Text, Within 2 indexed queried →
    3 ≤ max indexed.length queried.length →
    ∃ key, key ∈ deletionKeys Unicode.ascii indexed 2 ∧
      key ∈ deletionKeys Unicode.ascii queried 2 := by
  intro complete
  rcases complete ['1', '2', '3'] ['1', '2', '4']
    ⟨1, by decide, .keep '1' (.keep '2' (.substitute '3' '4' .nil))⟩ (by decide) with
    ⟨key, inIndexed, _⟩
  have none : deletionKeys Unicode.ascii ['1', '2', '3'] 2 = [] := by decide
  rw [none] at inIndexed
  cases inIndexed

end SearchIndex

end Gfm.Search

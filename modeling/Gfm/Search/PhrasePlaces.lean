import Gfm.Lib.Occurrences
import Gfm.Search.Content
import Gfm.Search.Steps

/-!
# Places of the words of a text

The positions that the content map stores for a record are the places of the words in the latest
text of the record, whatever content and records come and go. Positions are 32-bit numbers.
-/

namespace Gfm.Search

open List Occurrences Postings Std

/-- The positions of an id under a term. -/
def positionsAt (contentTerms : ContentTerms) (id : FileId) (term : Text) : Option (List Nat) :=
  (contentTerms[term]?).bind fun ids => ids[id]?

/-- The words of the content of a record, if any. -/
def contentWords (unicode : Unicode) (content : Option Text) : List Text :=
  content.elim [] fun text => unicode.tokenize (unicode.normalize text)

/-- The positions to store for a word; a word that does not stand in the text is not listed. -/
def storedPlaces (term : Text) (words : List Text) : Option (List Nat) :=
  if term ∈ words then some ((places term words).map fun place => place % 2 ^ 32) else none

section Positions

variable {contentTerms : ContentTerms} {id listed : FileId} {term other : Text}

theorem positionsAt_isSome :
    (positionsAt contentTerms id term).isSome = true ↔
      SearchIndex.ContentLists contentTerms term id := by
  rw [positionsAt, SearchIndex.ContentLists]
  cases contentTerms[term]? with
  | none => simp
  | some ids => simp

theorem positionsAt_removeContentTerm :
    positionsAt (SearchIndex.removeContentTerm contentTerms other listed) id term =
      if term = other ∧ id = listed then none else positionsAt contentTerms id term := by
  rw [positionsAt, positionsAt, SearchIndex.removeContentTerm]
  simp only [ExtTreeMap.getElem?_alter, Std.compare_eq_iff_eq]
  by_cases sameTerm : other = term
  · subst sameTerm
    simp only [if_true, true_and]
    cases contentTerms[other]? with
    | none => simp
    | some ids =>
        have erased : (ids.erase listed)[id]? = if id = listed then none else ids[id]? := by
          simp only [ExtTreeMap.getElem?_erase, Std.compare_eq_iff_eq, eq_comm (a := id)]
        simp only [Option.bind_some, ← erased]
        split
        case isTrue empty =>
          rw [ExtTreeMap.isEmpty_iff.mp empty]
          simp
        case isFalse => rfl
  · simp [sameTerm, Ne.symm sameTerm]

theorem positionsAt_foldl_removeContentTerm (terms : List Text) :
    positionsAt (terms.foldl (fun contentTerms term =>
        SearchIndex.removeContentTerm contentTerms term listed) contentTerms) id term =
      if term ∈ terms ∧ id = listed then none else positionsAt contentTerms id term := by
  induction terms generalizing contentTerms with
  | nil => simp
  | cons first terms ih =>
      rw [foldl_cons, ih, positionsAt_removeContentTerm]
      by_cases inRest : term ∈ terms <;> by_cases isFirst : term = first <;>
        by_cases same : id = listed <;> simp [inRest, isFirst, same, mem_cons]

end Positions

namespace SearchIndex

variable {unicode : Unicode} {index : SearchIndex} {id listed : FileId} {term other : Text}

/-- Taking content off an index takes off all the positions of the record, and no others. -/
theorem positionsAt_removeContent (noted : index.ContentNoted) :
    positionsAt (index.removeContent listed).contentTerms id term =
      if id = listed then none else positionsAt index.contentTerms id term := by
  rw [removeContent]
  cases found : index.contentRecordTerms[listed]? with
  | none =>
      simp only [positionsAt, ExtTreeMap.getElem?_filter', ExtTreeMap.getElem?_map]
      cases index.contentTerms[term]? with
      | none => simp
      | some ids =>
          have erased : (ids.erase listed)[id]? = if id = listed then none else ids[id]? := by
            simp only [ExtTreeMap.getElem?_erase, Std.compare_eq_iff_eq, eq_comm (a := id)]
          simp only [Option.map_some, Option.filter_some, Option.bind_some, ← erased]
          cases empty : (ids.erase listed).isEmpty with
          | true => simp [ExtTreeMap.isEmpty_iff.mp empty]
          | false => simp
  | some terms =>
      simp only [positionsAt_foldl_removeContentTerm, ExtTreeSet.mem_toList]
      by_cases same : id = listed
      · subst same
        rw [if_pos rfl]
        split
        case isTrue => rfl
        case isFalse unlisted =>
          refine Option.not_isSome_iff_eq_none.mp fun present => unlisted ⟨?_, rfl⟩
          rcases noted term id (positionsAt_isSome.mp present) with ⟨known, foundHere, member⟩
          rw [found] at foundHere
          exact Option.some.inj foundHere ▸ member
      · simp [same]

theorem positionsAt_listContent {change : Option (List Nat) → List Nat} :
    positionsAt (index.listContent listed other change).contentTerms id term =
      if term = other ∧ id = listed then some (change (positionsAt index.contentTerms id term))
      else positionsAt index.contentTerms id term := by
  simp only [positionsAt, listContent, ExtTreeMap.getElem?_alter, Std.compare_eq_iff_eq]
  by_cases sameTerm : other = term
  · subst sameTerm
    simp only [if_true, Option.bind_some, ExtTreeMap.getElem?_alter, Std.compare_eq_iff_eq,
      true_and]
    by_cases sameId : listed = id
    · subst sameId
      cases index.contentTerms[other]? <;> simp
    · cases index.contentTerms[other]? <;> simp [sameId, Ne.symm sameId]
  · simp [sameTerm, Ne.symm sameTerm]

/-- Listing words one by one appends the positions of each to those it has. -/
theorem positionsAt_foldl_listContent (pairs : List (Text × Nat)) (index : SearchIndex) :
    positionsAt (pairs.foldl (fun index (token, place) => index.listContent listed token
        fun positions => positions.getD [] ++ [place % 2 ^ 32]) index).contentTerms id term =
      if id = listed ∧ term ∈ pairs.map Prod.fst then
        some ((positionsAt index.contentTerms id term).getD [] ++
          ((pairs.filter fun pair => pair.1 = term).map Prod.snd).map fun place => place % 2 ^ 32)
      else positionsAt index.contentTerms id term := by
  induction pairs generalizing index with
  | nil => simp
  | cons pair pairs ih =>
      rw [foldl_cons, ih, positionsAt_listContent]
      by_cases same : id = listed
      · by_cases isFirst : term = pair.1
        · subst isFirst
          by_cases later : pair.1 ∈ pairs.map Prod.fst
          · simp [same, later]
          · have none : pairs.filter (fun other => other.1 = pair.1) = [] := by
              rw [filter_eq_nil_iff]
              intro other member
              simpa using fun equal : other.1 = pair.1 =>
                later (equal ▸ mem_map_of_mem member)
            simp only [map_cons, mem_cons, true_or, and_true, same, if_true, true_and,
              if_neg later, filter_cons, decide_true, none, map_nil]
        · have members : term ∈ (pair :: pairs).map Prod.fst ↔ term ∈ pairs.map Prod.fst := by
            rw [map_cons, mem_cons, or_iff_right isFirst]
          have other : ¬(term = pair.1 ∧ id = listed) := fun both => isFirst both.1
          rw [if_neg other]
          by_cases later : term ∈ pairs.map Prod.fst
          · rw [if_pos ⟨same, later⟩, if_pos ⟨same, members.mpr later⟩, filter_cons_of_neg]
            simpa using Ne.symm isFirst
          · rw [if_neg fun both => later both.2, if_neg fun both => later (members.mp both.2)]
      · simp [same]

/-- The positions of a record after its text is inserted are the places of the words. -/
theorem positionsAt_insertContent {text : Text} (noted : index.ContentNoted)
    (live : listed ∈ index.records) :
    positionsAt (index.insertContent unicode listed text).contentTerms id term =
      if id = listed then storedPlaces term (contentWords unicode (some text))
      else positionsAt index.contentTerms id term := by
  rw [insertContent, if_pos (ExtTreeMap.contains_iff_mem.mpr live),
    positionsAt_foldl_listContent, positionsAt_removeContent noted, zipIdx_map_fst]
  by_cases same : id = listed
  · simp only [same, if_true, true_and, Option.getD_none, nil_append]
    rfl
  · simp [same]

/-- Replacing a record takes off its content. -/
theorem positionsAt_replaceOld (unicode : Unicode) (well : index.WellIndexed) :
    positionsAt (index.replaceOld unicode listed).contentTerms id term =
      if id = listed then none else positionsAt index.contentTerms id term := by
  rw [replaceOld]
  cases found : index.records[listed]? with
  | none =>
      by_cases same : id = listed
      · rw [if_pos same]
        refine Option.not_isSome_iff_eq_none.mp fun present => ?_
        have live := well.contentLive (positionsAt_isSome.mp present)
        rw [same, ExtTreeMap.mem_iff_isSome_getElem?, found] at live
        cases live
      · rw [if_neg same]
  | some old =>
      have noted : ({ index with records := index.records.erase listed } :
        SearchIndex).ContentNoted := well.noted
      simp only [content_removeTerms.1, well.recordId found, positionsAt_removeContent noted]

end SearchIndex

end Gfm.Search

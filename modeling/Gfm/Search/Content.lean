import Gfm.Lib.SliceSearch
import Gfm.Search.Index

/-!
# Phrases and proximities

How the index looks for a phrase or for terms close to each other: through the
rarest of the postings of the terms, and then record by record. A cancelled
lookup is not modelled.
-/

namespace Gfm.Search

open Postings Std

abbrev IdSet := ExtTreeSet FileId

/-- The postings of the term that has the fewest, the first of several; none if a term has none. -/
def rarestLoop {Ids : Type} (postings : Text → Option Ids) (size : Ids → Nat) :
    List Text → Option (Text × Ids) → Option (Text × Ids)
  | [], rarest => rarest
  | term :: terms, rarest =>
      match postings term with
      | none => none
      | some ids =>
          rarestLoop postings size terms
            (if rarest.all fun current => size ids < size current.2 then some (term, ids)
              else rarest)

def rarestTermPostings (terms : List Text) (postings : PostingMap Text FileId) :
    Option IdSet :=
  (rarestLoop (fun term => postings[term]?) ExtTreeSet.size terms none).map Prod.snd

def rarestContentTermPostings (terms : List Text) (postings : ContentTerms) :
    Option (Text × ExtTreeMap FileId (List Nat)) :=
  rarestLoop (fun term => postings[term]?) ExtTreeMap.size terms none

def rarestContentPostings (terms : List Text) (postings : ContentTerms) :
    Option (ExtTreeMap FileId (List Nat)) :=
  (rarestContentTermPostings terms postings).map Prod.snd

/-- Binary search; the debug assertion that the positions ascend is not modelled. -/
def sortedContainsPosition (positions : List Nat) (position : Nat) : Bool :=
  (SliceSearch.Search.halving.index positions position).isSome

def sortedHasPositionWithin (positions : List Nat) (anchor distance : Nat) : Bool :=
  let least := anchor - distance
  let greatest := min (anchor + distance) (2 ^ 32 - 1)
  (positions.dropWhile fun position => position < least).head?.any fun position =>
    position ≤ greatest

/-- The shortest list, the first of several, with its place. -/
def anchorPositions (positions : List (List Nat)) : Option (List Nat × Nat) :=
  positions.zipIdx.argmin fun entry => entry.1.length

namespace SearchIndex

variable (unicode : Unicode) (index : SearchIndex)

def contentHas (id : FileId) (term : Text) : Bool :=
  (index.contentTerms[term]?).any fun ids => ids.contains id

def termPositions (id : FileId) (term : Text) : Option (List Nat) :=
  ((index.contentTerms[term]?).bind fun ids => ids[id]?).filter fun positions =>
    !positions.isEmpty

def contentMatchesPhrase (id : FileId) (phrase : Text) : Bool :=
  match unicode.tokenize (unicode.normalize phrase) with
  | [] => false
  | [term] => index.contentHas id term
  | terms =>
      match terms.mapM (index.termPositions id) with
      | none => false
      | some positions =>
          (anchorPositions positions).any fun (anchors, anchorOffset) =>
            anchors.any fun anchor =>
              decide (anchorOffset % 2 ^ 32 ≤ anchor) &&
                positions.zipIdx.all fun (termPositions, offset) =>
                  let position := anchor - anchorOffset % 2 ^ 32 + offset % 2 ^ 32
                  decide (position < 2 ^ 32) && sortedContainsPosition termPositions position

def contentMatchesProximity (id : FileId) (proximity : QueryProximity) : Bool :=
  match proximity.terms.mapM (index.termPositions id) with
  | none => false
  | some positions =>
      (anchorPositions positions).any fun (anchors, anchorIndex) =>
        anchors.any fun anchor =>
          positions.zipIdx.all fun (other, place) =>
            place = anchorIndex || sortedHasPositionWithin other anchor proximity.distance

def recordMatchesPhrase (record : FileRecord) (phrase : Text) : Bool :=
  (index.columns[record.id]?).any fun columns => columns.matchesPhrase phrase

def addRecordPhraseIdsForField (terms : List Text) (phrase : Text)
    (postings : PostingMap Text FileId) (matchesField : RecordColumns → Text → Bool)
    (ids : IdSet) : IdSet :=
  match rarestTermPostings terms postings with
  | none => ids
  | some candidates =>
      (candidates.toList.filter fun id =>
        (index.columns[id]?).any fun columns => matchesField columns phrase).foldl
        (fun ids id => ids.insert id) ids

def recordPhraseIds (phrase : Text) : List FileId :=
  let terms := unicode.tokenize (unicode.normalize phrase)
  if terms.isEmpty then
    ((index.records.toList.map Prod.snd).filter fun record =>
      index.recordMatchesPhrase record phrase).map FileRecord.id
  else
    let named := index.addRecordPhraseIdsForField terms phrase index.nameTerms
      RecordColumns.matchesNamePhrase ∅
    let placed := index.addRecordPhraseIdsForField terms phrase index.pathTerms
      RecordColumns.matchesPathPhrase named
    (index.addRecordPhraseIdsForField terms phrase index.metadataTerms
      RecordColumns.matchesCommentPhrase placed).toList

def contentPhraseIds (phrase : Text) : List FileId :=
  match rarestContentPostings (unicode.tokenize (unicode.normalize phrase))
    index.contentTerms with
  | none => []
  | some candidates =>
      candidates.keys.filter fun id => index.contentMatchesPhrase unicode id phrase

def contentProximityIds (proximity : QueryProximity) : List FileId :=
  match rarestContentTermPostings proximity.terms index.contentTerms with
  | none => []
  | some (anchorTerm, rarest) =>
      rarest.keys.filter fun id =>
        (proximity.terms.all fun term => term = anchorTerm || index.contentHas id term) &&
          index.contentMatchesProximity id proximity

end SearchIndex

section Rarest

variable {Ids : Type} {postings : Text → Option Ids} {size : Ids → Nat} {terms : List Text}

theorem rarestLoop_mem {start found : Text × Ids}
    (rarest : rarestLoop postings size terms (some start) = some found) :
    found = start ∨ (found.1 ∈ terms ∧ postings found.1 = some found.2) := by
  induction terms generalizing start with
  | nil => exact Or.inl (Option.some.inj rarest).symm
  | cons term terms ih =>
      rw [rarestLoop] at rarest
      cases listed : postings term with
      | none => simp [listed] at rarest
      | some ids =>
          simp only [listed] at rarest
          split at rarest
          · rcases ih rarest with rfl | ⟨member, posted⟩
            · exact Or.inr ⟨List.mem_cons_self, listed⟩
            · exact Or.inr ⟨List.mem_cons_of_mem _ member, posted⟩
          · rcases ih rarest with same | ⟨member, posted⟩
            · exact Or.inl same
            · exact Or.inr ⟨List.mem_cons_of_mem _ member, posted⟩

/-- The rarest postings are those of one of the terms. -/
theorem rarestLoop_none_mem {found : Text × Ids}
    (rarest : rarestLoop postings size terms none = some found) :
    found.1 ∈ terms ∧ postings found.1 = some found.2 := by
  cases terms with
  | nil => cases rarest
  | cons term terms =>
      rw [rarestLoop] at rarest
      cases listed : postings term with
      | none => simp [listed] at rarest
      | some ids =>
          simp only [listed, Option.all_none, if_true] at rarest
          rcases rarestLoop_mem rarest with rfl | ⟨member, posted⟩
          · exact ⟨List.mem_cons_self, listed⟩
          · exact ⟨List.mem_cons_of_mem _ member, posted⟩

theorem rarestLoop_some {start : Text × Ids} (all : ∀ term ∈ terms, (postings term).isSome) :
    ∃ found, rarestLoop postings size terms (some start) = some found := by
  induction terms generalizing start with
  | nil => exact ⟨start, rfl⟩
  | cons term terms ih =>
      rcases Option.isSome_iff_exists.mp (all term List.mem_cons_self) with ⟨ids, listed⟩
      rw [rarestLoop, listed]
      dsimp only
      split
      · exact ih fun other member => all other (List.mem_cons_of_mem _ member)
      · exact ih fun other member => all other (List.mem_cons_of_mem _ member)

/-- With postings for every term, and at least one term, there are rarest ones. -/
theorem rarestLoop_none_some (nonempty : terms ≠ [])
    (all : ∀ term ∈ terms, (postings term).isSome) :
    ∃ found, rarestLoop postings size terms none = some found := by
  cases terms with
  | nil => exact absurd rfl nonempty
  | cons term terms =>
      rcases Option.isSome_iff_exists.mp (all term List.mem_cons_self) with ⟨ids, listed⟩
      rw [rarestLoop, listed]
      simp only [Option.all_none, if_true]
      exact rarestLoop_some fun other member => all other (List.mem_cons_of_mem _ member)

end Rarest

end Gfm.Search

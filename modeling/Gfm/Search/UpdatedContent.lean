import Gfm.Search.PhraseMatching

/-!
# What an update of the metadata does to the content

An update takes the old record out of the index and lists the new one from the record alone. The
content goes with the old record, and the new one does not bring it back.
-/

namespace Gfm.Search

open Postings

/-- The operations that put the metadata of a record in place again. -/
def IndexOp.updates (id : FileId) : IndexOp → Bool
  | .insert record | .insertWithColumns record _ | .insertWithColumnsDeferredFuzzy record _
  | .insertWithColumnsDeferredSidecars record _ => record.id = id
  | .applyRecordColumns columns => columns.id = id
  | _ => false

namespace SearchIndex

variable {unicode : Unicode} {index : SearchIndex} {operation : IndexOp} {id other : FileId}
  {term phrase : Text} {proximity : QueryProximity}

/-- An update takes off the content of the record, and that of no other one. -/
theorem positionsAt_update (well : index.WellIndexed) (updates : operation.updates id = true) :
    positionsAt (index.step unicode operation).contentTerms other term =
      if other = id then none else positionsAt index.contentTerms other term := by
  cases operation with
  | insert record =>
      cases of_decide_eq_true updates
      rw [SearchIndex.step, SearchIndex.insert, addTerms, contentTerms_register,
        positionsAt_replaceOld unicode well]
  | insertWithColumns record columns | insertWithColumnsDeferredFuzzy record columns
  | insertWithColumnsDeferredSidecars record columns =>
      cases of_decide_eq_true updates
      exact (congrArg (positionsAt · other term)
        (contentTerms_insertWithColumnsInner record columns _ _ _ _)).trans
          (positionsAt_replaceOld unicode well)
  | applyRecordColumns columns =>
      cases of_decide_eq_true updates
      exact positionsAt_applyRecordColumns well columns other term
  | _ => cases updates

/-- No content of the record is listed after an update. -/
theorem contentHas_update (well : index.WellIndexed) (updates : operation.updates id = true) :
    (index.step unicode operation).contentHas id term = false := by
  rw [Bool.eq_false_iff, ne_eq, contentHas_iff, ← positionsAt_isSome,
    positionsAt_update well updates, if_pos rfl]
  exact Bool.false_ne_true

/-- Whatever the content of the record matched, it still matches. -/
structure ContentKept (unicode : Unicode) (index after : SearchIndex) (id : FileId) : Prop where
  terms : ∀ term, index.contentHas id term = true → after.contentHas id term = true
  phrases : ∀ phrase, index.contentMatchesPhrase unicode id phrase = true →
    after.contentMatchesPhrase unicode id phrase = true
  proximities : ∀ proximity, index.contentMatchesProximity id proximity = true →
    after.contentMatchesProximity id proximity = true

/-- An update keeps the content of the record exactly if no content of it is listed. -/
theorem contentKept_iff (unicode : Unicode) (operations : List IndexOp) (operation : IndexOp)
    (id : FileId) (updates : operation.updates id = true) :
    let index := new.run unicode operations
    ContentKept unicode index (index.step unicode operation) id ↔
      ∀ term, index.contentHas id term = false := by
  intro index
  have well : index.WellIndexed := wellIndexed_run unicode operations
  constructor
  · intro kept term
    by_contra listed
    have still := kept.terms term (Bool.not_eq_false _ ▸ listed)
    rw [contentHas_update well updates] at still
    cases still
  · intro unlisted
    have none_of_all : ∀ {terms : List Text}, terms ≠ [] →
        ¬ ∀ term ∈ terms, index.contentHas id term = true := by
      intro terms nonempty all
      rcases List.exists_mem_of_ne_nil terms nonempty with ⟨term, member⟩
      exact Bool.false_ne_true ((unlisted term).symm.trans (all term member))
    refine ⟨fun term found => ?_, fun phrase found => ?_, fun proximity found => ?_⟩
    · exact absurd ((unlisted term).symm.trans found) Bool.false_ne_true
    · exact absurd (contentMatchesPhrase_terms found).2
        (none_of_all (contentMatchesPhrase_terms found).1)
    · exact absurd (contentMatchesProximity_terms found).2
        (none_of_all (contentMatchesProximity_terms found).1)

/-- Putting a record without content in again loses nothing. -/
theorem contentKept_iff_plain :
    ContentKept Unicode.ascii (new.run Unicode.ascii [.insert (plainRecord 1)])
      ((new.run Unicode.ascii [.insert (plainRecord 1)]).step Unicode.ascii
        (.insert (plainRecord 1))) ⟨⟨1⟩, 1⟩ :=
  (contentKept_iff Unicode.ascii [.insert (plainRecord 1)] (.insert (plainRecord 1)) ⟨⟨1⟩, 1⟩
    (by decide)).mpr fun _ => rfl

/-- A new tag, in the record or in its columns, loses the term, the phrase and the proximity. -/
theorem content_lost :
    let written := new.run Unicode.ascii
      [.insert (plainRecord 1), .insertContent ⟨⟨1⟩, 1⟩ "alpha beta".toList]
    let proximity : QueryProximity := ⟨1, ["alpha".toList, "beta".toList]⟩
    ∀ operation ∈ [IndexOp.insert { plainRecord 1 with tags := ["red".toList] },
        .applyRecordColumns ⟨⟨⟨1⟩, 1⟩, "a".toList, "/a".toList, none, ["red".toList], none⟩],
      let after := written.step Unicode.ascii operation
      (written.contentHas ⟨⟨1⟩, 1⟩ "alpha".toList = true ∧
        after.contentHas ⟨⟨1⟩, 1⟩ "alpha".toList = false) ∧
      (written.contentMatchesPhrase Unicode.ascii ⟨⟨1⟩, 1⟩ "alpha beta".toList = true ∧
        after.contentMatchesPhrase Unicode.ascii ⟨⟨1⟩, 1⟩ "alpha beta".toList = false) ∧
      written.contentMatchesProximity ⟨⟨1⟩, 1⟩ proximity = true ∧
        after.contentMatchesProximity ⟨⟨1⟩, 1⟩ proximity = false := by
  decide +kernel

end SearchIndex

end Gfm.Search

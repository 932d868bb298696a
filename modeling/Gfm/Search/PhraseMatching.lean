import Gfm.Search.PhrasePlaces
import Gfm.Search.PostingInvariant
import Gfm.Search.CandidatesExact

/-!
# Phrases in the latest content

Which text is the latest content of a record follows from the operations: a text that comes in
replaces what the record had, and a record that is taken out or listed anew has none. A phrase is
found where its words stand one after the other, as long as the places are 32-bit numbers.
-/

namespace Gfm.Search

open List Occurrences Postings

/-- Content comes in as text, not as terms or as postings that were built elsewhere. -/
def IndexOp.bringsText : IndexOp → Bool
  | .importContentPostings _ | .insertContentTerms _ _ => false
  | _ => true

/-- The text fits the 32-bit positions. -/
def IndexOp.fits (unicode : Unicode) : IndexOp → Bool
  | .insertContent _ text => (contentWords unicode (some text)).length < 2 ^ 32
  | _ => true

/-- The phrase has words, and they stand one after the other in the content. -/
def StandsIn (unicode : Unicode) (phrase : Text) (content : Option Text) : Prop :=
  unicode.tokenize (unicode.normalize phrase) ≠ [] ∧
    unicode.tokenize (unicode.normalize phrase) <:+: contentWords unicode content

instance (unicode : Unicode) (phrase : Text) (content : Option Text) :
    Decidable (StandsIn unicode phrase content) := inferInstanceAs (Decidable (_ ∧ _))

namespace SearchIndex

variable (unicode : Unicode)

/-- The records whose content an operation takes off. -/
def dropped (index : SearchIndex) : IndexOp → List FileId
  | .insert record | .insertWithColumns record _ | .insertWithColumnsDeferredFuzzy record _
  | .insertWithColumnsDeferredSidecars record _ => [record.id]
  | .applyRecordColumns columns => [columns.id]
  | .removeContent id | .remove id => [id]
  | .removePath path => index.paths[path]?.toList
  | .removeSubtree root => index.subtreeIds root
  | _ => []

def contentStep (index : SearchIndex) (contents : FileId → Option Text) (operation : IndexOp) :
    FileId → Option Text :=
  match operation with
  | .insertContent listed text => fun id =>
      if listed ∈ index.records ∧ id = listed then some text else contents id
  | operation => fun id => if id ∈ index.dropped operation then none else contents id

/-- The latest content of every record after the operations. -/
def latestContent (index : SearchIndex) (contents : FileId → Option Text) :
    List IndexOp → FileId → Option Text
  | [] => contents
  | operation :: operations =>
      (index.step unicode operation).latestContent (index.contentStep contents operation) operations

/-- The stored positions are the places of the words in these contents. -/
def Stores (index : SearchIndex) (contents : FileId → Option Text) : Prop :=
  ∀ id term, positionsAt index.contentTerms id term =
    storedPlaces term (contentWords unicode (contents id))

variable {unicode} {index after : SearchIndex} {contents : FileId → Option Text} {id : FileId}
  {ids : List FileId}

theorem Stores.drop (stores : index.Stores unicode contents)
    (positions : ∀ id term, positionsAt after.contentTerms id term =
      if id ∈ ids then none else positionsAt index.contentTerms id term) :
    after.Stores unicode fun id => if id ∈ ids then none else contents id := by
  intro id term
  rw [positions, stores]
  by_cases member : id ∈ ids
  · simp [member, storedPlaces, contentWords]
  · simp [member]

theorem Stores.keep (stores : index.Stores unicode contents)
    (same : after.contentTerms = index.contentTerms) : after.Stores unicode contents := by
  intro id term
  rw [same]
  exact stores id term

theorem Stores.drop_one (stores : index.Stores unicode contents) {listed : FileId}
    (positions : ∀ id term, positionsAt after.contentTerms id term =
      if id = listed then none else positionsAt index.contentTerms id term) :
    after.Stores unicode fun id => if id ∈ [listed] then none else contents id := by
  refine stores.drop fun id term => ?_
  simpa only [mem_singleton] using positions id term

section Operations

theorem contentTerms_register (record : FileRecord) (columns : RecordColumns)
    (buildPrefixes buildSubstrings buildFuzzy buildMetadata : Bool) :
    ((index.addTermsWithSidecarPolicy unicode record columns buildPrefixes buildSubstrings
        buildFuzzy buildMetadata).register record columns).contentTerms = index.contentTerms :=
  (addTerms_frame unicode record columns buildPrefixes buildSubstrings buildFuzzy buildMetadata
    index).2.2.2.1

theorem contentTerms_insertWithColumnsInner (record : FileRecord) (columns : SearchRecordColumns)
    (buildPrefixes buildSubstrings buildFuzzy buildMetadata : Bool) :
    (index.insertWithColumnsInner unicode record columns buildPrefixes buildSubstrings buildFuzzy
        buildMetadata).2.contentTerms = (index.replaceOld unicode record.id).contentTerms := by
  rw [insertWithColumnsInner]
  split
  · exact contentTerms_register record _ true true true true
  · exact contentTerms_register record _ _ _ _ _

theorem contentTerms_remove :
    (index.remove unicode id).2.contentTerms = (index.replaceOld unicode id).contentTerms := by
  rcases remove_eq unicode index id with ⟨pinned, same⟩
  rw [same]

theorem positionsAt_removeEachId (well : index.WellIndexed) (id : FileId) (term : Text) :
    positionsAt (index.removeEachId unicode ids).2.contentTerms id term =
      if id ∈ ids then none else positionsAt index.contentTerms id term := by
  induction ids generalizing index with
  | nil => simp [removeEachId]
  | cons first ids ih =>
      have rest := ih ((remove_withdrawn unicode well first).wellIndexed well)
      rw [contentTerms_remove, positionsAt_replaceOld unicode well] at rest
      simp only [removeEachId, rest, mem_cons]
      by_cases inRest : id ∈ ids <;> by_cases isFirst : id = first <;> simp [inRest, isFirst]

theorem positionsAt_removePath (well : index.WellIndexed) (path : Text) (id : FileId)
    (term : Text) :
    positionsAt (index.removePath unicode path).2.contentTerms id term =
      if id ∈ index.paths[path]?.toList then none else positionsAt index.contentTerms id term := by
  rw [removePath]
  cases index.paths[path]? with
  | none => simp
  | some listed =>
      simp only [contentTerms_remove, positionsAt_replaceOld unicode (well.setPaths _),
        Option.toList_some, mem_singleton]

theorem positionsAt_applyRecordColumns (well : index.WellIndexed) (columns : SearchRecordColumns)
    (id : FileId) (term : Text) :
    positionsAt (index.applyRecordColumns unicode columns).2.contentTerms id term =
      if id = columns.id then none else positionsAt index.contentTerms id term := by
  rw [applyRecordColumns]
  cases found : index.records[columns.id]? with
  | none =>
      have taken : positionsAt (index.replaceOld unicode columns.id).contentTerms id term =
          if id = columns.id then none else positionsAt index.contentTerms id term :=
        positionsAt_replaceOld unicode well
      rw [replaceOld, found] at taken
      exact taken
  | some record =>
      simp only [addTerms, (addTerms_frame unicode record _ _ _ _ _ _).2.2.2.1,
        content_removeTerms.1, well.recordId found, positionsAt_removeContent well.noted]

end Operations

/-- One operation keeps the positions those of the latest content. -/
theorem Stores.step (well : index.WellIndexed) (stores : index.Stores unicode contents)
    (operation : IndexOp) (text : operation.bringsText = true) :
    (index.step unicode operation).Stores unicode (index.contentStep contents operation) := by
  cases operation with
  | insert record =>
      refine stores.drop_one fun id term => ?_
      rw [SearchIndex.step, SearchIndex.insert, addTerms, contentTerms_register,
        positionsAt_replaceOld unicode well]
  | insertWithColumns record columns | insertWithColumnsDeferredFuzzy record columns
  | insertWithColumnsDeferredSidecars record columns =>
      refine stores.drop_one fun id term => ?_
      exact (congrArg (positionsAt · id term)
        (contentTerms_insertWithColumnsInner record columns _ _ _ _)).trans
          (positionsAt_replaceOld unicode well)
  | importPrefixPostings postings =>
      simpa [contentStep, dropped, SearchIndex.step] using
        stores.keep (imported_importPrefixPostings postings).content
  | importSubstringPostings postings =>
      simpa [contentStep, dropped, SearchIndex.step] using
        stores.keep (imported_importSubstringPostings postings).content
  | importFuzzyPostings postings =>
      simpa [contentStep, dropped, SearchIndex.step] using
        stores.keep (imported_importFuzzyPostings postings).content
  | importMetadataPostings postings =>
      simpa [contentStep, dropped, SearchIndex.step] using
        stores.keep (imported_importMetadataPostings postings).content
  | importContentPostings postings => cases text
  | insertContentTerms listed terms => cases text
  | applyRecordColumns columns =>
      exact stores.drop_one (positionsAt_applyRecordColumns well columns)
  | insertContent listed text =>
      intro id term
      by_cases live : listed ∈ index.records
      · rw [SearchIndex.step, positionsAt_insertContent well.noted live, stores]
        by_cases same : id = listed <;> simp [contentStep, live, same]
      · have unlisted : ¬index.records.contains listed = true := by simpa using live
        rw [SearchIndex.step, insertContent, if_neg unlisted, stores]
        simp [contentStep, live]
  | removeContent listed =>
      exact stores.drop_one fun id term => positionsAt_removeContent well.noted
  | remove listed =>
      refine stores.drop_one fun id term => ?_
      rw [SearchIndex.step, contentTerms_remove, positionsAt_replaceOld unicode well]
  | removePath path => exact stores.drop (positionsAt_removePath well path)
  | removeSubtree root => exact stores.drop (positionsAt_removeEachId well)
  | pin listed =>
      have same : (index.step unicode (.pin listed)).contentTerms = index.contentTerms := by
        simp only [SearchIndex.step, pin]
        split <;> rfl
      simpa [contentStep, dropped] using stores.keep same
  | unpin listed =>
      have same : (index.step unicode (.unpin listed)).contentTerms = index.contentTerms := rfl
      simpa [contentStep, dropped] using stores.keep same

theorem Stores.run (well : index.WellIndexed) (stores : index.Stores unicode contents)
    {operations : List IndexOp} (texts : ∀ operation ∈ operations, operation.bringsText = true) :
    (index.run unicode operations).Stores unicode
      (index.latestContent unicode contents operations) := by
  induction operations generalizing index contents with
  | nil => exact stores
  | cons operation operations ih =>
      rw [forall_mem_cons] at texts
      exact ih (well.step unicode operation) (stores.step well operation texts.1) texts.2

section Matching

variable {term phrase : Text} {words terms : List Text}

theorem storedPlaces_short (short : words.length < 2 ^ 32) :
    storedPlaces term words = if term ∈ words then some (places term words) else none := by
  have unwrapped : (places term words).map (fun place => place % 2 ^ 32) = places term words := by
    refine (map_congr_left fun place member => ?_).trans (map_id _)
    exact Nat.mod_eq_of_lt ((places_lt member).trans short)
  rw [storedPlaces, unwrapped]

theorem termPositions_eq (short : words.length < 2 ^ 32)
    (stored : positionsAt index.contentTerms id term = storedPlaces term words) :
    index.termPositions id term = if term ∈ words then some (places term words) else none := by
  have same : index.termPositions id term =
      (positionsAt index.contentTerms id term).filter fun positions => !positions.isEmpty := rfl
  rw [same, stored, storedPlaces_short short]
  by_cases member : term ∈ words
  · have nonempty : places term words ≠ [] := fun none => places_eq_nil.mp none member
    simp [member, nonempty]
  · simp [member]

theorem mapM_termPositions
    (positions : ∀ term ∈ terms,
      index.termPositions id term = if term ∈ words then some (places term words) else none) :
    terms.mapM (index.termPositions id) =
      if ∀ term ∈ terms, term ∈ words then some (terms.map fun term => places term words)
      else none := by
  induction terms with
  | nil => simp
  | cons first terms ih =>
      rw [forall_mem_cons] at positions
      rw [mapM_cons, positions.1, ih positions.2]
      by_cases isFirst : first ∈ words
      · by_cases rest : ∀ term ∈ terms, term ∈ words
        · simp [isFirst, if_pos rest]
        · simp only [isFirst, if_true, forall_mem_cons, rest, and_false, if_false]
          rfl
      · simp [isFirst]

theorem mapM_of_some {lookup : Text → Option (List Nat)}
    {found : Text → List Nat} (all : ∀ term ∈ terms, lookup term = some (found term)) :
    terms.mapM lookup = some (terms.map found) := by
  induction terms with
  | nil => rfl
  | cons term terms ih =>
      rw [forall_mem_cons] at all
      rw [mapM_cons, all.1, ih all.2]
      rfl

/-- The anchor of some terms is the positions of one of them. -/
theorem anchorPositions_map (found : Text → List Nat) (nonempty : terms ≠ []) :
    ∃ anchorOffset word, terms[anchorOffset]? = some word ∧
      anchorPositions (terms.map found) = some (found word, anchorOffset) := by
  cases anchor : anchorPositions (terms.map found) with
  | none =>
      rw [anchorPositions, argmin_eq_none] at anchor
      simp [nonempty] at anchor
  | some entry =>
      have member := mem_zipIdx_iff_getElem?.mp (argmin_mem anchor)
      rw [getElem?_map, Option.map_eq_some_iff] at member
      rcases member with ⟨word, there, same⟩
      exact ⟨entry.2, word, there, by rw [same]⟩

/-- The offsets of a phrase that is found do not wrap: the text would not have room for it. -/
theorem anchored_iff {anchorOffset place : Nat} (short : words.length < 2 ^ 32)
    (anchored : anchorOffset < terms.length) :
    (anchorOffset % 2 ^ 32 ≤ place ∧ ∀ (offset : Nat) (word : Text), terms[offset]? = some word →
        place - anchorOffset % 2 ^ 32 + offset % 2 ^ 32 < 2 ^ 32 ∧
          words[place - anchorOffset % 2 ^ 32 + offset % 2 ^ 32]? = some word) ↔
      (anchorOffset ≤ place ∧ ∀ (offset : Nat) (word : Text), terms[offset]? = some word →
        words[place - anchorOffset + offset]? = some word) := by
  constructor
  · rintro ⟨least, follow⟩
    have fits : terms.length < 2 ^ 32 := by
      by_contra large
      have bound : 2 ^ 32 - 1 < terms.length := by omega
      have last := (follow (2 ^ 32 - 1) _ (getElem?_eq_getElem bound)).2
      have inside := (List.getElem?_eq_some_iff.mp last).1
      omega
    rw [Nat.mod_eq_of_lt (anchored.trans fits)] at least follow
    refine ⟨least, fun offset word there => ?_⟩
    have bound := (List.getElem?_eq_some_iff.mp there).1
    have found := (follow offset word there).2
    rwa [Nat.mod_eq_of_lt (bound.trans fits)] at found
  · rintro ⟨least, follow⟩
    have inside {offset : Nat} {word : Text} (there : terms[offset]? = some word) :
        place - anchorOffset + offset < words.length :=
      (List.getElem?_eq_some_iff.mp (follow offset word there)).1
    have anchorFits : anchorOffset % 2 ^ 32 = anchorOffset := by
      refine Nat.mod_eq_of_lt ?_
      have bound := inside (getElem?_eq_getElem anchored)
      omega
    rw [anchorFits]
    refine ⟨least, fun offset word there => ?_⟩
    have bound := inside there
    rw [Nat.mod_eq_of_lt (by omega : offset < 2 ^ 32)]
    exact ⟨by omega, follow offset word there⟩

theorem sortedContainsPosition_iff {positions : List Nat} {position : Nat}
    (ascending : positions.Pairwise (· < ·)) :
    sortedContainsPosition positions position = true ↔ position ∈ positions := by
  refine SliceSearch.Search.isSome_index_iff _ (ascending.imp fun before => ?_)
  exact Std.isLE_compare.mpr before.le

/-- Going through the places of the anchor finds the words that stand together. -/
theorem anchors_match_iff (short : words.length < 2 ^ 32) (nonempty : terms ≠ []) :
    (anchorPositions (terms.map fun term => places term words)).any (fun anchor =>
        anchor.1.any fun place => decide (anchor.2 % 2 ^ 32 ≤ place) &&
          (terms.map fun term => places term words).zipIdx.all fun entry =>
            decide (place - anchor.2 % 2 ^ 32 + entry.2 % 2 ^ 32 < 2 ^ 32) &&
              sortedContainsPosition entry.1
                (place - anchor.2 % 2 ^ 32 + entry.2 % 2 ^ 32)) = true ↔
      terms <:+: words := by
  rcases anchorPositions_map (fun term => places term words) nonempty with
    ⟨anchorOffset, word, there, anchor⟩
  have anchored := (List.getElem?_eq_some_iff.mp there).1
  rw [infix_iff_anchored there, anchor]
  simp only [Option.any_some, any_eq_true, Bool.and_eq_true, decide_eq_true_eq]
  refine exists_congr fun place => and_congr_right fun _ => ?_
  rw [← anchored_iff short anchored]
  refine and_congr_right fun _ => ?_
  simp only [all_eq_true, Prod.forall, mem_zipIdx_iff_getElem?, getElem?_map,
    Option.map_eq_some_iff, Bool.and_eq_true, decide_eq_true_eq]
  constructor
  · intro all offset word there
    have found := all _ offset ⟨word, there, rfl⟩
    rwa [sortedContainsPosition_iff places_pairwise, mem_places] at found
  · rintro all _ offset ⟨word, there, rfl⟩
    rw [sortedContainsPosition_iff places_pairwise, mem_places]
    exact all offset word there

theorem contentHas_stored
    (stored : positionsAt index.contentTerms id term = storedPlaces term words) :
    index.contentHas id term = true ↔ term ∈ words := by
  rw [contentHas_iff, ← positionsAt_isSome, stored, storedPlaces]
  split <;> simp [*]

/-- With the places of a text stored, a phrase is found if its words stand together in it. -/
theorem contentMatchesPhrase_iff (short : words.length < 2 ^ 32)
    (stored : ∀ term, positionsAt index.contentTerms id term = storedPlaces term words) :
    index.contentMatchesPhrase unicode id phrase = true ↔
      unicode.tokenize (unicode.normalize phrase) ≠ [] ∧
        unicode.tokenize (unicode.normalize phrase) <:+: words := by
  rw [contentMatchesPhrase]
  generalize unicode.tokenize (unicode.normalize phrase) = terms
  rcases terms with _ | ⟨first, _ | ⟨second, rest⟩⟩
  · simp
  · simp [contentHas_stored (stored first), singleton_infix_iff]
  · dsimp only
    rw [mapM_termPositions fun term _ => termPositions_eq short (stored term),
      and_iff_right (cons_ne_nil _ _)]
    by_cases all : ∀ term ∈ first :: second :: rest, term ∈ words
    · rw [if_pos all]
      exact anchors_match_iff short (cons_ne_nil _ _)
    · rw [if_neg all]
      exact iff_of_false Bool.false_ne_true fun stands => all fun term member =>
        stands.subset member

end Matching

section Runs

variable {operations : List IndexOp}

theorem contentStep_fits (fits : ∀ id, (contentWords unicode (contents id)).length < 2 ^ 32)
    (operation : IndexOp) (fit : operation.fits unicode = true) :
    ∀ id, (contentWords unicode (index.contentStep contents operation id)).length < 2 ^ 32 := by
  intro id
  cases operation with
  | insertContent listed text =>
      simp only [contentStep]
      split
      · exact of_decide_eq_true fit
      · exact fits id
  | _ =>
      simp only [contentStep]
      split
      · exact Nat.two_pow_pos 32
      · exact fits id

theorem latestContent_fits (fits : ∀ id, (contentWords unicode (contents id)).length < 2 ^ 32)
    (fit : ∀ operation ∈ operations, operation.fits unicode = true) :
    ∀ id, (contentWords unicode (index.latestContent unicode contents operations id)).length <
      2 ^ 32 := by
  induction operations generalizing index contents with
  | nil => exact fits
  | cons operation operations ih =>
      rw [forall_mem_cons] at fit
      exact ih (contentStep_fits fits operation fit.1) fit.2

theorem latest_fits (fit : ∀ operation ∈ operations, operation.fits unicode = true) (id : FileId) :
    (contentWords unicode (new.latestContent unicode (fun _ => none) operations id)).length <
      2 ^ 32 := by
  refine latestContent_fits (fun id => ?_) fit id
  exact Nat.two_pow_pos 32

theorem stores_run (unicode : Unicode)
    (texts : ∀ operation ∈ operations, operation.bringsText = true) :
    (new.run unicode operations).Stores unicode
      (new.latestContent unicode (fun _ => none) operations) := by
  refine Stores.run wellIndexed_new (fun id term => ?_) texts
  simp [positionsAt, new, storedPlaces, contentWords]

/-- As long as no text has more words than positions have values, the phrases that are found are
those whose words stand one after the other in the latest content. -/
theorem phrases_exact (unicode : Unicode) (operations : List IndexOp)
    (texts : ∀ operation ∈ operations, operation.bringsText = true)
    (fit : ∀ operation ∈ operations, operation.fits unicode = true) :
    let index := new.run unicode operations
    let latest := new.latestContent unicode (fun _ => none) operations
    (∀ id ∈ index.records, ∀ text phrase, (IndexOp.insertContent id text).fits unicode = true →
        ((index.insertContent unicode id text).contentMatchesPhrase unicode id phrase = true ↔
          StandsIn unicode phrase (some text))) ∧
      (∀ id phrase, index.contentMatchesPhrase unicode id phrase = true ↔
        StandsIn unicode phrase (latest id)) ∧
      ∀ phrase id, id ∈ index.contentPhraseIds unicode phrase ↔
        StandsIn unicode phrase (latest id) := by
  have well := wellIndexed_run unicode operations
  have stores := stores_run unicode texts
  have short := latest_fits fit
  refine ⟨fun id live text phrase fits => ?_, fun id phrase => ?_, fun phrase id => ?_⟩
  · refine contentMatchesPhrase_iff (of_decide_eq_true fits) fun term => ?_
    rw [positionsAt_insertContent well.noted live, if_pos rfl]
  · exact contentMatchesPhrase_iff (short id) (stores id)
  · rw [mem_contentPhraseIds]
    exact contentMatchesPhrase_iff (short id) (stores id)

theorem phrases_exact_report :
    (new.run Unicode.ascii [.insert (plainRecord 1),
        .insertContent ⟨⟨1⟩, 1⟩ "old text".toList,
        .insertContent ⟨⟨1⟩, 1⟩ "the end of the report".toList]).contentMatchesPhrase
      Unicode.ascii ⟨⟨1⟩, 1⟩ "The Report".toList = true :=
  ((phrases_exact Unicode.ascii _ (by decide +kernel) (by decide +kernel)).2.1 _ _).mpr
    (by decide +kernel)

end Runs

section Wrapping

/-- Letters as words of their own. -/
def spaced : Char → List Char → Text
  | letter, [] => [letter]
  | letter, next :: letters => letter :: ' ' :: spaced next letters

variable {letter : Char} {letters : List Char}

theorem plain_letter (plain : letter ∈ ['a', 'b', 'x']) :
    ¬asciiWhitespace letter = true ∧ Unicode.ascii.charToLowercase letter = [letter] ∧
      Unicode.ascii.tokenize [letter] = [[letter]] ∧
      (!Unicode.ascii.isAlphanumeric letter) = false := by
  simp only [mem_cons, not_mem_nil, or_false] at plain
  rcases plain with rfl | rfl | rfl <;> exact ⟨by decide, rfl, rfl, rfl⟩

theorem spaced_trim (plain : ∀ other ∈ letter :: letters, other ∈ ['a', 'b', 'x']) :
    Unicode.ascii.trim (spaced letter letters) = spaced letter letters := by
  have first (letter : Char) (letters : List Char) :
      ∃ rest, spaced letter letters = letter :: rest := by
    cases letters <;> exact ⟨_, rfl⟩
  have last : ∃ front, ∃ other ∈ letter :: letters, spaced letter letters = front ++ [other] := by
    clear plain
    induction letters generalizing letter with
    | nil => exact ⟨[], letter, mem_cons_self, rfl⟩
    | cons next letters ih =>
        rcases @ih next with ⟨front, other, listed, same⟩
        refine ⟨letter :: ' ' :: front, other, mem_cons_of_mem _ listed, ?_⟩
        rw [spaced, same]
        rfl
  rcases first letter letters with ⟨rest, starts⟩
  rcases last with ⟨front, other, listed, ends⟩
  have kept : (spaced letter letters).dropWhile asciiWhitespace = spaced letter letters := by
    rw [starts, dropWhile_cons_of_neg (plain_letter (plain _ mem_cons_self)).1]
  change ((spaced letter letters).dropWhile asciiWhitespace).rdropWhile asciiWhitespace = _
  rw [kept, ends, rdropWhile_concat_neg _ _ _ (plain_letter (plain _ listed)).1]

theorem spaced_words (plain : ∀ other ∈ letter :: letters, other ∈ ['a', 'b', 'x']) :
    Unicode.ascii.tokenize (Unicode.ascii.normalize (spaced letter letters)) =
      (letter :: letters).map fun letter => [letter] := by
  rw [Unicode.normalize, spaced_trim plain]
  induction letters generalizing letter with
  | nil =>
      have own := plain_letter (plain _ mem_cons_self)
      rw [spaced, flatMap_singleton, own.2.1]
      exact own.2.2.1
  | cons next letters ih =>
      have own := plain_letter (plain _ mem_cons_self)
      have lower : (spaced letter (next :: letters)).flatMap Unicode.ascii.charToLowercase =
          [letter] ++ ' ' :: (spaced next letters).flatMap Unicode.ascii.charToLowercase := by
        rw [spaced, flatMap_cons, own.2.1, flatMap_cons]
        rfl
      have rest := ih fun other listed => plain other (mem_cons_of_mem _ listed)
      have inside : ∀ char ∈ [letter], (!Unicode.ascii.isAlphanumeric char) = false :=
        forall_mem_singleton.mpr own.2.2.2
      rw [Unicode.tokenize] at rest
      rw [Unicode.tokenize, lower, splitOnP_append_cons_of_forall_mem inside ' ' (by decide),
        filter_cons_of_pos rfl, rest]
      rfl

/-- Words that stand in a row from a start on are found from any anchor. -/
theorem anchors_match_start {positions : List (List Nat)} {start : Nat} (nonempty : positions ≠ [])
    (follow : ∀ places offset, positions[offset]? = some places → start + offset < 2 ^ 32 ∧
      start + offset ∈ places ∧ places.Pairwise (· < ·)) :
    (anchorPositions positions).any (fun anchor =>
      anchor.1.any fun place => decide (anchor.2 % 2 ^ 32 ≤ place) &&
        positions.zipIdx.all fun entry =>
          decide (place - anchor.2 % 2 ^ 32 + entry.2 % 2 ^ 32 < 2 ^ 32) &&
            sortedContainsPosition entry.1
              (place - anchor.2 % 2 ^ 32 + entry.2 % 2 ^ 32)) = true := by
  cases anchor : anchorPositions positions with
  | none =>
      rw [anchorPositions, argmin_eq_none] at anchor
      simp [nonempty] at anchor
  | some entry =>
      have member := mem_zipIdx_iff_getElem?.mp (argmin_mem anchor)
      have found := follow _ _ member
      have fits : entry.2 % 2 ^ 32 = entry.2 := Nat.mod_eq_of_lt (by omega)
      rw [Option.any_some, any_eq_true]
      refine ⟨start + entry.2, found.2.1, ?_⟩
      simp only [fits, Nat.le_add_left, decide_true, Bool.true_and, Nat.add_sub_cancel,
        all_eq_true, Prod.forall, Bool.and_eq_true, decide_eq_true_eq,
        mem_zipIdx_iff_getElem?]
      intro places offset listed
      have other := follow places offset listed
      rw [Nat.mod_eq_of_lt (by omega : offset < 2 ^ 32), sortedContainsPosition_iff other.2.2]
      exact ⟨other.1, other.2.1⟩

/-- The word `b`, as often the word `x`, and the word `a`. -/
def wrapping (more : Nat) : Text := spaced 'b' (List.replicate more 'x' ++ ['a'])

theorem contentWords_wrapping (more : Nat) :
    contentWords Unicode.ascii (some (wrapping more)) =
      ['b'] :: (List.replicate more ['x'] ++ [['a']]) := by
  refine (spaced_words fun other listed => ?_).trans ?_
  · simp only [mem_cons, mem_append, mem_replicate, not_mem_nil] at listed ⊢
    tauto
  · simp

theorem mem_places_wrapping {more place : Nat} {word : Text} :
    place ∈ places word (['b'] :: (List.replicate more ['x'] ++ [['a']])) ↔
      place = 0 ∧ word = ['b'] ∨ (0 < place ∧ place ≤ more) ∧ word = ['x'] ∨
        place = more + 1 ∧ word = ['a'] := by
  rw [mem_places]
  cases place with
  | zero => simp [eq_comm]
  | succ place =>
      rw [getElem?_cons_succ, getElem?_append, length_replicate]
      split
      case isTrue before =>
        have early : place ≠ more := by omega
        simp [before, early, eq_comm, Nat.succ_le_of_lt before]
      case isFalse after =>
        by_cases last : place = more
        · simp [last, eq_comm]
        · have beyond : 1 ≤ place - more := by omega
          have late : ¬place + 1 ≤ more := by omega
          simp [last, late, List.getElem?_eq_none_iff.mpr, beyond]

theorem places_last {more : Nat} :
    places ['a'] (['b'] :: (List.replicate more ['x'] ++ [['a']])) = [more + 1] := by
  have all : ∀ place ∈ places ['a'] (['b'] :: (List.replicate more ['x'] ++ [['a']])),
      place = more + 1 := fun place member => by simpa using mem_places_wrapping.mp member
  have listed := mem_places_wrapping.mpr (Or.inr (Or.inr ⟨@rfl _ (more + 1), @rfl _ ['a']⟩))
  have ascending : (places ['a'] (['b'] :: (List.replicate more ['x'] ++ [['a']]))).Pairwise
      (· < ·) := places_pairwise
  have once := ascending.nodup
  rw [eq_replicate_of_mem all] at once listed ⊢
  have single : _ = 1 := (nodup_replicate.mp once).antisymm
    (Nat.one_le_iff_ne_zero.mpr (mem_replicate.mp listed).1)
  rw [single]
  rfl

/-- The last place wraps to the first, so the phrase is found though nothing follows the `a`. -/
theorem phrase_wraps {index : SearchIndex} {id : FileId} {more : Nat}
    (noted : index.ContentNoted) (live : id ∈ index.records) (wraps : more + 1 = 2 ^ 32) :
    (index.insertContent Unicode.ascii id (wrapping more)).contentMatchesPhrase Unicode.ascii id
        (spaced 'a' ['x']) = true ∧
      ¬StandsIn Unicode.ascii (spaced 'a' ['x']) (some (wrapping more)) := by
  have enough : 1 ≤ more := by omega
  have phrase : Unicode.ascii.tokenize (Unicode.ascii.normalize (spaced 'a' ['x'])) =
      [['a'], ['x']] := spaced_words (by simp)
  constructor
  · let found (term : Text) := (places term
      (['b'] :: (List.replicate more ['x'] ++ [['a']]))).map fun place => place % 2 ^ 32
    have last : found ['a'] = [0] := by
      change (places _ _).map _ = _
      rw [places_last, wraps]
      rfl
    have unwrapped : found ['x'] = places ['x']
        (['b'] :: (List.replicate more ['x'] ++ [['a']])) := by
      refine (map_congr_left fun place member => ?_).trans (map_id _)
      have inside := mem_places_wrapping.mp member
      simp only [List.cons.injEq, Char.reduceEq, and_false, and_true, or_false,
        false_or] at inside
      exact Nat.mod_eq_of_lt (by omega)
    have somewhere : ∀ term ∈ [['a'], ['x']],
        places term (['b'] :: (List.replicate more ['x'] ++ [['a']])) ≠ [] := by
      intro term member
      rcases mem_pair.mp member with rfl | rfl
      · rw [places_last]
        exact cons_ne_nil _ _
      · exact ne_nil_of_mem
          (mem_places_wrapping.mpr (Or.inr (Or.inl ⟨⟨Nat.one_pos, enough⟩, rfl⟩)))
    have listed : ∀ term ∈ [['a'], ['x']],
        (index.insertContent Unicode.ascii id (wrapping more)).termPositions id term =
          some (found term) := by
      intro term member
      have stored : positionsAt
          (index.insertContent Unicode.ascii id (wrapping more)).contentTerms id term =
            some (found term) := by
        rw [positionsAt_insertContent noted live, if_pos rfl, contentWords_wrapping, storedPlaces,
          if_pos]
        by_contra absent
        exact somewhere term member (places_eq_nil.mpr absent)
      have same : (index.insertContent Unicode.ascii id (wrapping more)).termPositions id term =
          (positionsAt (index.insertContent Unicode.ascii id (wrapping more)).contentTerms id
            term).filter fun positions => !positions.isEmpty := rfl
      have nonempty : found term ≠ [] := fun none => somewhere term member
        (map_eq_nil_iff.mp none)
      rw [same, stored]
      simp [nonempty]
    rw [contentMatchesPhrase, phrase]
    dsimp only
    rw [mapM_of_some listed]
    have row : ∀ positions offset, [found ['a'], found ['x']][offset]? = some positions →
        0 + offset < 2 ^ 32 ∧ 0 + offset ∈ positions ∧ positions.Pairwise (· < ·) := by
      intro positions offset there
      rw [last, unwrapped] at there
      rcases offset with _ | _ | offset
      · cases there
        simp
      · cases there
        exact ⟨by decide, mem_places_wrapping.mpr (Or.inr (Or.inl ⟨⟨Nat.one_pos, enough⟩, rfl⟩)),
          places_pairwise⟩
      · cases there
    exact anchors_match_start (cons_ne_nil _ _) row
  · rintro ⟨-, stands⟩
    rw [phrase, contentWords_wrapping, infix_iff_start (cons_ne_nil _ _)] at stands
    rcases stands with ⟨start, follow⟩
    have first := mem_places_wrapping.mp (mem_places.mpr (follow 0 _ rfl))
    have second := mem_places_wrapping.mp (mem_places.mpr (follow 1 _ rfl))
    simp at first second
    omega

theorem phrases_wrap :
    let index := (new.run Unicode.ascii [.insert (plainRecord 1)]).insertContent Unicode.ascii
      ⟨⟨1⟩, 1⟩ (wrapping (2 ^ 32 - 1))
    index.contentMatchesPhrase Unicode.ascii ⟨⟨1⟩, 1⟩ (spaced 'a' ['x']) = true ∧
      ¬StandsIn Unicode.ascii (spaced 'a' ['x']) (some (wrapping (2 ^ 32 - 1))) :=
  phrase_wraps (wellIndexed_run Unicode.ascii [.insert (plainRecord 1)]).noted
    (by decide +kernel) rfl

end Wrapping

end SearchIndex

end Gfm.Search

import Gfm.Search.QueryPass
import Gfm.Search.CandidatesExact

/-!
# Fewer hits of the same query

Every pass ranks a list of hits that does not depend on how many are wanted, but for one step: the
general pass looks for parts of names only while fewer records are scored than hits are wanted. So
a smaller limit gives the first hits of a larger one, unless this step is taken for the larger one
alone.
-/

namespace Gfm.Search

open List Postings Std Store

section Ranked

variable {unicode : Unicode}

/-- What a result has in it; a failed one has nothing. -/
def hitsOf : Except GfmError (List SearchHit) → List SearchHit
  | .error _ => []
  | .ok hits => hits

def Distinct (hits : List SearchHit) : Prop := (hits.map fun hit => hit.record.id).Nodup

theorem topHits_nil (limit : Nat) : topHits unicode [] limit = [] := by
  have nothing : (([] : List SearchHit).map fun hit => hit.record.id).Nodup := nodup_nil
  rw [topHits_eq nothing]
  exact take_nil

/-- A pass that ranks the same distinct hits for every limit. -/
def Ranks (unicode : Unicode) (pass : Nat → Except GfmError (List SearchHit)) : Prop :=
  ∃ found : Except GfmError (List SearchHit),
    (∀ limit, pass limit = found.map (topHits unicode · limit)) ∧
      ∀ hits, found = .ok hits → Distinct hits

theorem hitsOf_take {found : Except GfmError (List SearchHit)}
    (distinct : ∀ hits, found = .ok hits → Distinct hits) {fewer more : Nat}
    (within : fewer ≤ more) :
    hitsOf (found.map (topHits unicode · fewer)) =
      (hitsOf (found.map (topHits unicode · more))).take fewer := by
  cases found with
  | error fault => exact take_nil.symm
  | ok hits => exact topHits_take (distinct hits rfl) within

theorem Ranks.take {pass : Nat → Except GfmError (List SearchHit)} (ranks : Ranks unicode pass)
    {fewer more : Nat} (within : fewer ≤ more) :
    hitsOf (pass fewer) = (hitsOf (pass more)).take fewer := by
  rcases ranks with ⟨found, same, distinct⟩
  rw [same, same]
  exact hitsOf_take distinct within

/-- What is found for distinct keys, each with its key, is distinct. -/
theorem sublist_filterMap {Item Found Key : Type} {find : Item → Option Found}
    {keyOf : Item → Key} {nameOf : Found → Key}
    (named : ∀ item found, find item = some found → nameOf found = keyOf item)
    (items : List Item) : ((items.filterMap find).map nameOf).Sublist (items.map keyOf) := by
  induction items with
  | nil => exact List.Sublist.refl _
  | cons item items ih =>
      cases result : find item with
      | none =>
          rw [filterMap_cons_none result]
          exact ih.cons _
      | some found =>
          rw [filterMap_cons_some result, map_cons, map_cons,
            named item found result]
          exact ih.cons_cons _

end Ranked

namespace SearchIndex

variable {unicode : Unicode} {elapsed : FileRecord → Option Nat} {index : SearchIndex}
  {lookup : SearchLookup} {budget : QueryBudget} {query : SearchQuery} {pass : SearchPass}

section Keys

theorem contains_addScores {scores : Scores} {ids : List FileId} {points : Int}
    {reason : MatchReason} {id : FileId} :
    id ∈ addScores scores ids points reason ↔ id ∈ scores ∨ id ∈ ids := by
  induction ids generalizing scores with
  | nil => simp [addScores]
  | cons first ids ih =>
      have step : addScores scores (first :: ids) points reason =
          addScores (addScore points reason scores first) ids points reason := rfl
      rw [step, ih, addScore, ExtTreeMap.mem_insert, Std.compare_eq_iff_eq, mem_cons]
      tauto

theorem nodup_toList (ids : IdSet) : ids.toList.Nodup := by
  refine ExtTreeSet.distinct_toList.imp fun {left right} different same => different ?_
  rw [same]
  exact Std.ReflOrd.compare_self

theorem id_rankedHit (well : index.WellIndexed) {entry : FileId × RankAccumulator}
    {hit : SearchHit} (found : index.rankedHit unicode elapsed query pass entry = some hit) :
    hit.record.id = entry.1 := by
  rcases Option.bind_eq_some_iff.mp found with ⟨record, live, ranked⟩
  split at ranked
  case isTrue =>
    rw [← Option.some.inj ranked]
    exact well.recordId live
  case isFalse => cases ranked

theorem distinct_ranked (well : index.WellIndexed) (scores : Scores) :
    Distinct (scores.toList.filterMap (index.rankedHit unicode elapsed query pass)) := by
  refine List.Nodup.sublist (sublist_filterMap (fun entry hit => id_rankedHit well) _) ?_
  rw [ExtTreeMap.map_fst_toList_eq_keys]
  exact ExtTreeMap.nodup_keys

end Keys

section Passes

theorem id_contentHit (well : index.WellIndexed) {id : FileId} {hit : SearchHit}
    (found : index.contentHit unicode elapsed query pass id = some hit) : hit.record.id = id := by
  rcases Option.map_eq_some_iff.mp found with ⟨record, live, rfl⟩
  exact well.recordId live

/-- The hits of records with the content alone are none of those with other texts. -/
theorem distinct_contentHits (well : index.WellIndexed) (scores : Scores) (term : Text) :
    Distinct (((index.contentIds term).filter fun id => !scores.contains id).filterMap
        (index.contentHit unicode elapsed query pass) ++
      (addScores scores ((index.contentIds term).filter fun id => scores.contains id)
        Points.content .content).toList.filterMap
          (index.rankedHit unicode elapsed query pass)) := by
  rw [Distinct, map_append]
  refine List.Nodup.append ?_ (distinct_ranked well _) ?_
  · refine List.Nodup.sublist (sublist_filterMap (fun id hit => id_contentHit well) _) ?_
    rw [map_id']
    exact ExtTreeMap.nodup_keys.filter _
  · intro id alone ranked
    rcases mem_map.mp alone with ⟨hit, listed, rfl⟩
    rcases mem_filterMap.mp listed with ⟨own, unscored, found⟩
    rw [id_contentHit well found] at ranked
    rcases mem_map.mp ranked with ⟨other, entered, same⟩
    rcases mem_filterMap.mp entered with ⟨entry, stored, found⟩
    rw [id_rankedHit well found] at same
    have scored : own ∈ scores := by
      have key : entry.1 ∈ addScores scores ((index.contentIds term).filter fun id =>
          scores.contains id) Points.content .content := by
        refine ExtTreeMap.mem_iff_isSome_getElem?.mpr ?_
        rw [ExtTreeMap.mem_toList_iff_getElem?_eq_some.mp stored]
        rfl
      rw [same] at key
      refine (contains_addScores.mp key).elim id fun also => ?_
      exact ExtTreeMap.mem_iff_contains.mpr (mem_filter.mp also).2
    have absent := (mem_filter.mp unscored).2
    rw [Bool.not_eq_true', ← Bool.not_eq_true, ← ExtTreeMap.mem_iff_contains] at absent
    exact absent scored

theorem ranks_single (well : index.WellIndexed) (term : Text) :
    Ranks unicode fun limit =>
      index.querySimpleSingleTermPass unicode elapsed lookup budget query pass limit term := by
  simp only [querySimpleSingleTermPass]
  cases leading : index.namePrefixIds lookup budget term with
  | error fault => exact ⟨.error fault, fun _ => rfl, fun _ impossible => by cases impossible⟩
  | ok leadingIds =>
      by_cases deep : pass.includesDeep = true
      · simp only [deep, if_true, bind, Except.bind]
        generalize addFuzzyScores unicode index lookup budget _ term = scored
        cases scored with
        | error fault => exact ⟨.error fault, fun _ => rfl, fun _ impossible => by cases impossible⟩
        | ok scores =>
            refine ⟨.ok _, fun _ => rfl, fun hits same => ?_⟩
            rw [← Except.ok.inj same]
            exact distinct_contentHits well scores term
      · simp only [deep, bind, Except.bind]
        refine ⟨.ok _, fun _ => rfl, fun hits same => ?_⟩
        rw [← Except.ok.inj same]
        exact distinct_ranked well _

theorem ranks_multi (well : index.WellIndexed) :
    Ranks unicode (index.querySimpleMultiTermPass unicode elapsed lookup budget query pass) := by
  have nothing : Ranks unicode fun _ => .ok [] :=
    ⟨.ok [], fun limit => congrArg Except.ok (topHits_nil limit).symm, fun hits same => by
      rw [← Except.ok.inj same]
      exact nodup_nil⟩
  have whole : querySimpleMultiTermPass unicode elapsed index lookup budget query pass =
      fun limit => querySimpleMultiTermPass unicode elapsed index lookup budget query pass limit :=
    rfl
  rw [whole]
  simp only [querySimpleMultiTermPass]
  cases index.namePrefixIds lookup budget (queryText query) with
  | error fault => exact ⟨.error fault, fun _ => rfl, fun _ impossible => by cases impossible⟩
  | ok leading =>
      cases index.simpleCandidates unicode lookup budget pass query.terms with
      | error fault => exact ⟨.error fault, fun _ => rfl, fun _ impossible => by cases impossible⟩
      | ok sets =>
          cases sets with
          | none => exact nothing
          | some sets =>
              simp only [bind, Except.bind]
              cases sets.argmin fun item => item.2.size with
              | none => exact nothing
              | some anchor =>
                  refine ⟨.ok _, fun _ => rfl, fun hits same => ?_⟩
                  rw [← Except.ok.inj same]
                  have named : ∀ id hit, ((index.records[id]?).bind fun record =>
                      index.rankedHit unicode elapsed query pass (id,
                        index.scorePlainMultiTermRecord query pass record leading
                          (sets.map Prod.fst))) = some hit → hit.record.id = id := by
                    intro id hit found
                    rcases Option.bind_eq_some_iff.mp found with ⟨record, -, ranked⟩
                    exact id_rankedHit well ranked
                  refine List.Nodup.sublist (sublist_filterMap named _) ?_
                  rw [map_id']
                  exact nodup_toList anchor.2

theorem queryGeneralPass_eq {scores : Scores}
    (scored : index.scoreTexts unicode lookup budget query pass = .ok scores) (limit : Nat) :
    index.queryGeneralPass unicode elapsed lookup budget query pass limit =
      (if scores.size < limit then index.expandNames lookup budget query scores
        else .ok scores).map fun scores =>
          topHits unicode (index.scoredHits unicode elapsed query pass scores) limit := by
  simp only [queryGeneralPass, scored, bind, Except.bind]
  split
  case isTrue =>
    cases index.expandNames lookup budget query scores with
    | error fault => rfl
    | ok expanded => rfl
  case isFalse => rfl

theorem distinct_scoredHits (well : index.WellIndexed) (scores : Scores) :
    Distinct (index.scoredHits unicode elapsed query pass scores) :=
  distinct_ranked well _

/-- A text of less than three characters is no part that is looked for. -/
theorem expandNames_short (short : (queryText query).length < 3) (scores : Scores) :
    index.expandNames lookup budget query scores = .ok scores := by
  rw [expandNames, nameSubstringIds, if_pos short]
  rfl

end Passes

section Structured

variable (unicode) (elapsed) (index)

theorem queryStructured_eq (query : SearchQuery) {hitSize limit : Nat}
    (fits : limit * hitSize ≤ isizeMax) :
    index.queryStructured unicode elapsed query hitSize limit =
      some (hitsOf
        (index.queryPass unicode elapsed emptySearchLookup .default query .full limit)) := by
  rw [queryStructured, if_neg fun both => fits.not_gt both.2]
  cases index.queryPass unicode elapsed emptySearchLookup .default query .full limit with
  | error fault => rfl
  | ok hits => rfl

/-- Fewer records are scored than hits are wanted, so parts of names are looked for. -/
def expandsNames (query : SearchQuery) (limit : Nat) : Bool :=
  match index.scoreTexts unicode emptySearchLookup .default query .full with
  | .error _ => false
  | .ok scores => 3 ≤ (queryText query).length ∧ scores.size < limit

variable {unicode} {elapsed} {index}

/-- The general pass for two limits, if both look for parts of names or neither does. -/
theorem general_take (well : index.WellIndexed) {fewer more : Nat} (within : fewer ≤ more)
    (together : index.expandsNames unicode query more = true →
      index.expandsNames unicode query fewer = true) :
    hitsOf (index.queryGeneralPass unicode elapsed emptySearchLookup .default query .full fewer) =
      (hitsOf (index.queryGeneralPass unicode elapsed emptySearchLookup .default query .full
        more)).take fewer := by
  cases scored : index.scoreTexts unicode emptySearchLookup .default query .full with
  | error fault =>
      simp only [queryGeneralPass, scored, bind, Except.bind]
      exact take_nil.symm
  | ok scores =>
      have same : (if scores.size < fewer then
            index.expandNames emptySearchLookup .default query scores else .ok scores) =
          if scores.size < more then index.expandNames emptySearchLookup .default query scores
            else .ok scores := by
        by_cases short : (queryText query).length < 3
        · rw [expandNames_short short, ite_self, ite_self]
        · have both : scores.size < fewer ↔ scores.size < more := by
            refine ⟨fun few => Nat.lt_of_lt_of_le few within, fun many => ?_⟩
            simp only [expandsNames, scored, decide_eq_true_eq] at together
            exact (together ⟨Nat.not_lt.mp short, many⟩).2
          rw [if_congr both rfl rfl]
      rw [queryGeneralPass_eq scored, queryGeneralPass_eq scored, same]
      generalize (if scores.size < more then
        index.expandNames emptySearchLookup .default query scores else .ok scores) = expanded
      cases expanded with
      | error fault => exact take_nil.symm
      | ok expanded => exact topHits_take (distinct_scoredHits well expanded) within

/-- The hits for a smaller limit are the first hits for a larger one, unless parts of names are
looked for with the larger limit alone. -/
theorem queryStructured_prefix (unicode : Unicode) (elapsed : FileRecord → Option Nat)
    (operations : List IndexOp) (query : SearchQuery) {hitSize fewer more : Nat}
    (within : fewer ≤ more) (fits : more * hitSize ≤ isizeMax)
    (together : isPlain query = true ∨ fewer = 0 ∨
      ((new.run unicode operations).expandsNames unicode query more = true →
        (new.run unicode operations).expandsNames unicode query fewer = true)) :
    ∃ hits, (new.run unicode operations).queryStructured unicode elapsed query hitSize more =
        some hits ∧
      (new.run unicode operations).queryStructured unicode elapsed query hitSize fewer =
        some (hits.take fewer) := by
  have well := wellIndexed_run unicode operations
  have fewerFits := (Nat.mul_le_mul_right hitSize within).trans fits
  rw [queryStructured_eq _ _ _ _ fits, queryStructured_eq _ _ _ _ fewerFits]
  refine ⟨_, rfl, congrArg some ?_⟩
  by_cases empty : query.isEmpty = true
  · rw [queryPass, queryPass, if_pos (Or.inl empty), if_pos (Or.inl empty)]
    exact take_nil.symm
  rcases Nat.eq_zero_or_pos fewer with rfl | positive
  · rw [queryPass, if_pos (Or.inr rfl), take_zero]
    rfl
  have wanted : ¬(query.isEmpty = true ∨ fewer = 0) := by
    rintro (blank | zero)
    · exact empty blank
    · omega
  have wantedMore : ¬(query.isEmpty = true ∨ more = 0) := by
    rintro (blank | zero)
    · exact empty blank
    · omega
  rw [queryPass, queryPass, if_neg wanted, if_neg wantedMore]
  by_cases plain : isPlain query = true
  · rw [if_pos plain, if_pos plain]
    cases terms : query.terms with
    | nil =>
        -- A plain query without terms is empty.
        refine absurd ?_ empty
        simp only [isPlain, Bool.and_eq_true] at plain
        simp only [SearchQuery.isEmpty, terms, plain, isEmpty_nil, Bool.and_self]
    | cons term rest =>
        cases rest with
        | nil => exact (ranks_single well term).take within
        | cons other rest => exact (ranks_multi well).take within
  · rw [if_neg plain, if_neg plain]
    refine general_take well within ?_
    rcases together with simple | zero | both
    · exact absurd simple plain
    · omega
    · exact both

end Structured

section Runs

/-- A text of three characters is looked for as it is. -/
theorem nameSubstringIds_gram {text : Text} (three : text.length = 3)
    (positive : 0 < budget.maxSubstringGramsPerTerm) :
    index.nameSubstringIds lookup budget text =
      index.boundedIds index.nameSubstrings budget.maxSubstringIdsPerGram false
        lookup.substringIdsBounded text := by
  have grams : substringGrams text = [text] := by
    have whole : text.take 3 = text := take_of_length_le (Nat.le_of_eq three)
    rw [substringGrams, charRuns, three]
    change sortedTexts [(text.drop 0).take 3] = [text]
    rw [drop_zero, whole]
    rfl
  have first : [text].take budget.maxSubstringGramsPerTerm = [text] :=
    take_of_length_le positive
  rw [nameSubstringIds, if_neg (by omega), grams, first]
  simp only [gramSets, bind, Except.bind]
  cases index.boundedIds index.nameSubstrings budget.maxSubstringIdsPerGram false
    lookup.substringIdsBounded text with
  | error fault => rfl
  | ok ids =>
      by_cases unlisted : ids.isEmpty = true
      · simp only [ExtTreeSet.isEmpty_iff.mp unlisted]
        rfl
      · simp only [if_neg unlisted, Except.map, Option.map_some, Option.bind_some,
          intersectCandidateSets, mergeSort_singleton, retainEach, Option.getD_some]

theorem ok_of_isOk {result : Except GfmError Scores} (answered : result.isOk = true) :
    result = .ok (result.toOption.getD ∅) := by
  cases result with
  | error fault => cases answered
  | ok scores => rfl

/-- Below a directory with the name "por". -/
def portFolder : FileRecord := { namedRecord 1 "a".toList with path := "/por/a".toList }

def reportIndex : SearchIndex :=
  new.run Unicode.ascii
    [.insert portFolder, .insert (namedRecord 2 "report".toList),
      .insertContent ⟨⟨1⟩, 2⟩ "por".toList]

def porFiles : SearchQuery := ⟨["por".toList], [], [], [], [.kind .file false], none⟩

def idsOf (hits : List SearchHit) : List Nat := hits.map fun hit => hit.record.id.node

/-- One more file below "por". -/
def folderIndex : SearchIndex :=
  reportIndex.run Unicode.ascii
    [.insert { portFolder with id := ⟨⟨1⟩, 3⟩, path := "/por/c".toList }]

/-- All three records are scored by the general pass, so parts of names are not looked for. -/
theorem queryStructured_prefix_several :
    (folderIndex.queryStructured Unicode.ascii (fun _ => none) porFiles 352 3).map idsOf =
        some [1, 3, 2] ∧
      ∃ hits, folderIndex.queryStructured Unicode.ascii (fun _ => none) porFiles 352 3 =
          some hits ∧
        folderIndex.queryStructured Unicode.ascii (fun _ => none) porFiles 352 2 =
          some (hits.take 2) := by
  refine ⟨?_, queryStructured_prefix Unicode.ascii (fun _ => none)
    [.insert portFolder, .insert (namedRecord 2 "report".toList),
      .insertContent ⟨⟨1⟩, 2⟩ "por".toList,
      .insert { portFolder with id := ⟨⟨1⟩, 3⟩, path := "/por/c".toList }] porFiles (by decide)
    (by decide) (Or.inr (Or.inr fun expands => absurd expands (by decide +kernel)))⟩
  rw [queryStructured_eq _ _ _ _ (by decide)]
  decide +kernel

/-- The best of one hit is the file below "por"; the best of three is the one whose name has it
inside. -/
theorem queryStructured_reordered :
    (reportIndex.queryStructured Unicode.ascii (fun _ => none) porFiles 352 1).map idsOf =
        some [1] ∧
      (reportIndex.queryStructured Unicode.ascii (fun _ => none) porFiles 352 3).map idsOf =
        some [2, 1] ∧
      reportIndex.queryStructured Unicode.ascii (fun _ => none) porFiles 352 1 ≠
        (reportIndex.queryStructured Unicode.ascii (fun _ => none) porFiles 352 3).map
          (List.take 1) := by
  have best : (reportIndex.queryStructured Unicode.ascii (fun _ => none) porFiles 352 1).map
      idsOf = some [1] := by
    rw [queryStructured_eq _ _ _ _ (by decide)]
    decide +kernel
  have more : (reportIndex.queryStructured Unicode.ascii (fun _ => none) porFiles 352 3).map
      idsOf = some [2, 1] := by
    have holds : (reportIndex.scoreTexts Unicode.ascii emptySearchLookup .default porFiles
        .full).isOk = true := by
      decide +kernel
    have scored := ok_of_isOk holds
    have general : reportIndex.queryPass Unicode.ascii (fun _ => none) emptySearchLookup .default
        porFiles .full 3 = reportIndex.queryGeneralPass Unicode.ascii (fun _ => none)
          emptySearchLookup .default porFiles .full 3 := by
      rw [queryPass, if_neg (by decide), if_neg (by decide +kernel)]
    have text : (queryText porFiles).length = 3 := by decide
    rw [queryStructured_eq _ _ _ _ (by decide), general, queryGeneralPass_eq scored, expandNames,
      nameSubstringIds_gram text (by decide)]
    decide +kernel
  refine ⟨best, more, fun same => ?_⟩
  have shorter := congrArg (Option.map idsOf) same
  rcases Option.map_eq_some_iff.mp more with ⟨hits, found, ids⟩
  rw [best, found, Option.map_some, Option.map_some, idsOf, map_take, ← idsOf, ids] at shorter
  cases shorter

end Runs

end SearchIndex

end Gfm.Search

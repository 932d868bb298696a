import Gfm.Store.ContentQuery

/-!
# Batches of lookups in a content set

A batch walks each archive once for all terms and files what it reads under the term that the
posting itself carries. A single lookup takes what the directory leads to, whatever the posting
calls itself. The two differ by the postings that are stored under another spelling of the term.
-/

namespace Gfm.Store

open List Sorted Wire

section Batch

/-- What a batch has found for a term so far. -/
structure TermFound where
  term : Text
  positionsById : IdPositions
  truncated : Bool

/-- A posting that was read is merged into the entry of its own term, if there is one. -/
def mergeLimited (found : LimitedContentPosting) (entry : TermFound) : TermFound :=
  if entry.term = found.posting.term then
    { entry with
      positionsById := mergeContentPostingPositions found.posting entry.positionsById
      truncated := entry.truncated || found.truncated }
  else entry

def finishTerm (limit : Nat) (entry : TermFound) : Option LimitedContentPosting :=
  if entry.positionsById.isEmpty then none
  else if limit < entry.positionsById.size then
    some ⟨contentPostingFromPositions entry.term (popDownTo limit entry.positionsById), true⟩
  else some ⟨contentPostingFromPositions entry.term entry.positionsById, entry.truncated⟩

variable (unicode : Unicode) (report : Bytes → String)

/-- The terms of a batch in their canonical form, in order and each once. -/
def selectTerms (terms : List Text) : List Text := sortDedup (canonicalTerms unicode terms)

namespace MmapContentSet

variable (set : MmapContentSet)

/-- The batch by a lookup of the selected terms in one archive. -/
def postingsFrom (lookup : MmapContentArchive → Except Fault (List LimitedContentPosting))
    (selected : List Text) (limitPerTerm : Nat) : Except Fault (List LimitedContentPosting) := do
  let byTerm ← set.archives.foldlM (fun byTerm archive =>
    (lookup archive).map fun read =>
      read.foldl (fun byTerm found => byTerm.map (mergeLimited found)) byTerm)
    (selected.map fun term => ⟨term, ∅, false⟩)
  .ok (byTerm.filterMap (finishTerm limitPerTerm))

/-- Without a volume the batch does not tell what is cut off. -/
def postingsForTermsLimit (terms : List Text) (limitPerTerm : Nat) :
    Except Fault (List ContentPosting) :=
  if limitPerTerm = 0 then .ok []
  else
    let selected := selectTerms unicode terms
    (set.postingsFrom (fun archive =>
      archive.postingsForSortedTermsLimit unicode report selected limitPerTerm) selected
        limitPerTerm).map (List.map LimitedContentPosting.posting)

def postingsForTermsVolumeLimit (terms : List Text) (volume : VolumeId) (limitPerTerm : Nat) :
    Except Fault (List LimitedContentPosting) :=
  if limitPerTerm = 0 then .ok []
  else
    let selected := selectTerms unicode terms
    set.postingsFrom (fun archive =>
      archive.postingsForSortedTermsVolumeLimit unicode report selected volume limitPerTerm)
        selected limitPerTerm

/-- The single lookup takes what an archive has on a volume. -/
def mergeArchiveVolumeLimit (term : Text) (volume : VolumeId) (limit : Nat)
    (merged : IdPositions × Bool) (archive : MmapContentArchive) :
    Except Fault (IdPositions × Bool) :=
  (archive.postingsForSortedTermsVolumeLimit unicode report [term] volume limit).map fun found =>
    found.foldl (fun merged found =>
      (mergeContentPostingPositions found.posting merged.1, merged.2 || found.truncated)) merged

/-- The single lookup of a term with each archive read for a volume only. The source has no such
function: it is what the batch on a volume is compared with. -/
def postingForTermVolumeLimit (term : Text) (volume : VolumeId) (limit : Nat) :
    Except Fault (Option ContentPosting × Bool) :=
  if limit = 0 then .ok (none, false)
  else
    let term := unicode.normalize term
    if term = [] then .ok (none, false)
    else do
      let (positionsById, truncated) ←
        set.archives.foldlM (mergeArchiveVolumeLimit unicode report term volume limit) (∅, false)
      if positionsById.isEmpty then .ok (none, truncated)
      else if limit < positionsById.size then
        .ok (some (contentPostingFromPositions term (popDownTo limit positionsById)), true)
      else .ok (some (contentPostingFromPositions term positionsById), truncated)

end MmapContentSet

end Batch

section Lookup

/-- What a single lookup of a canonical term makes of the postings that the archives have. -/
def lookupOf (term : Text) (limit : Nat) (postings : List ContentPosting) :
    Option ContentPosting × Bool :=
  let truncated := postings.any fun posting => (limited limit posting).truncated
  if (limitedUnion limit postings).isEmpty then (none, truncated)
  else if limit < (limitedUnion limit postings).size then
    (some (contentPostingFromPositions term (popDownTo limit (limitedUnion limit postings))), true)
  else (some (contentPostingFromPositions term (limitedUnion limit postings)), truncated)

/-- The single lookup in a set, by the postings that the archives have. -/
theorem postingForTermLimit_lookupOf {unicode : Unicode} {report : Bytes → String}
    (held : List (HeldArchive unicode)) (term : Text) {limit : Nat} (positive : 0 < limit) :
    MmapContentSet.postingForTermLimit unicode report ⟨held.map HeldArchive.archive⟩ term limit =
      .ok (if unicode.normalize term = [] then (none, false)
        else lookupOf (unicode.normalize term) limit
          (MmapContentSet.postingsFor held (unicode.normalize term))) := by
  rw [MmapContentSet.postingForTermLimit, if_neg (Nat.pos_iff_ne_zero.mp positive)]
  by_cases empty : unicode.normalize term = []
  · simp only [empty, if_true]
  have folded := @MmapContentSet.foldlM_mergeArchiveLimit unicode report held
    (unicode.normalize term) limit ∅ false
  rw [Bool.false_or] at folded
  simp only [if_neg empty, folded, bind, Except.bind, lookupOf]
  change (if (limitedUnion limit _).isEmpty = true then _ else
    if limit < (limitedUnion limit _).size then _ else _) = _
  split
  case isTrue => rfl
  case isFalse =>
    split
    case isTrue => rfl
    case isFalse => rfl

end Lookup

section Walk

variable {unicode : Unicode} {report : Bytes → String}

/-- Merging item by item is merging for each entry. -/
theorem foldl_map_merge {Item Entry : Type} (merge : Item → Entry → Entry) (items : List Item)
    (entries : List Entry) :
    items.foldl (fun entries item => entries.map (merge item)) entries =
      entries.map fun entry => items.foldl (fun entry item => merge item entry) entry := by
  induction items generalizing entries with
  | nil => exact (map_id entries).symm
  | cons item items ih =>
      rw [foldl_cons, ih, map_map]
      rfl

/-- The entry of a term with the reads of these postings merged into it. -/
def foundFrom (limit : Nat) (entry : TermFound) (postings : List ContentPosting) : TermFound :=
  postings.foldl (fun entry posting => mergeLimited (limited limit posting) entry) entry

theorem foundFrom_eq {term : Text} {limit : Nat} {postings : List ContentPosting}
    (own : ∀ posting ∈ postings, posting.term = term) (positionsById : IdPositions)
    (truncated : Bool) :
    foundFrom limit ⟨term, positionsById, truncated⟩ postings =
      ⟨term, (postings.map fun posting => (limited limit posting).posting).foldl mergeIds
          positionsById,
        truncated || postings.any fun posting => (limited limit posting).truncated⟩ := by
  induction postings generalizing positionsById truncated with
  | nil =>
      rw [any_nil, Bool.or_false]
      rfl
  | cons posting postings ih =>
      have same : term = (limited limit posting).posting.term :=
        (own posting mem_cons_self).symm
      have later := ih fun other listed => own other (mem_cons_of_mem posting listed)
      rw [foundFrom, foldl_cons, mergeLimited, if_pos same, map_cons, foldl_cons,
        any_cons, ← Bool.or_assoc]
      exact later _ _

theorem finishTerm_foundFrom {term : Text} {limit : Nat} {postings : List ContentPosting}
    (own : ∀ posting ∈ postings, posting.term = term) :
    finishTerm limit (foundFrom limit ⟨term, ∅, false⟩ postings) =
      (lookupOf term limit postings).1.map fun posting =>
        ⟨posting, (lookupOf term limit postings).2⟩ := by
  rw [foundFrom_eq own, Bool.false_or]
  change finishTerm limit ⟨term, limitedUnion limit postings, _⟩ = _
  rw [finishTerm, lookupOf]
  split
  case isTrue => rfl
  case isFalse =>
    split
    case isTrue => rfl
    case isFalse => rfl

theorem term_foldl_merge (reads : List LimitedContentPosting) (entry : TermFound) :
    (reads.foldl (fun entry read => mergeLimited read entry) entry).term = entry.term := by
  induction reads generalizing entry with
  | nil => rfl
  | cons read reads ih =>
      rw [foldl_cons, ih, mergeLimited]
      split
      case isTrue => rfl
      case isFalse => rfl

theorem term_foundFrom (limit : Nat) (entry : TermFound) (postings : List ContentPosting) :
    (foundFrom limit entry postings).term = entry.term := by
  have merged := term_foldl_merge (postings.map (limited limit)) entry
  rwa [foldl_map] at merged

theorem foundFrom_append (limit : Nat) (entry : TermFound) (left right : List ContentPosting) :
    foundFrom limit entry (left ++ right) = foundFrom limit (foundFrom limit entry left) right :=
  foldl_append

/-- Only postings that carry the term of the entry are merged into it. -/
theorem foundFrom_filter (limit : Nat) (entry : TermFound) (postings : List ContentPosting) :
    foundFrom limit entry postings =
      foundFrom limit entry (postings.filter fun posting => posting.term = entry.term) := by
  induction postings generalizing entry with
  | nil => rfl
  | cons posting postings ih =>
      have term := term_foundFrom limit entry [posting]
      have split : foundFrom limit entry (posting :: postings) =
          foundFrom limit (foundFrom limit entry [posting]) postings := rfl
      rw [split, ih, term]
      by_cases own : posting.term = entry.term
      · rw [filter_cons_of_pos (by simpa using own)]
        rfl
      · have skipped : foundFrom limit entry [posting] = entry := if_neg (Ne.symm own)
        rw [filter_cons_of_neg (by simpa using own), skipped]

theorem filterMap_cons_toList {Item Other : Type} (lookup : Item → Option Other) (item : Item)
    (items : List Item) :
    (item :: items).filterMap lookup = (lookup item).toList ++ items.filterMap lookup := by
  cases found : lookup item with
  | none =>
      rw [filterMap_cons_none found]
      rfl
  | some other =>
      rw [filterMap_cons_some found]
      rfl

/-- Of the postings that are read for the terms of a batch, those that carry a term are the one
that is read for it. -/
theorem filter_selected {selected : List Text} {lookup : Text → Option ContentPosting}
    (canonical : ∀ term posting, lookup term = some posting →
      unicode.normalize posting.term = unicode.normalize term) (distinct : selected.Nodup)
    (fixed : ∀ term ∈ selected, unicode.normalize term = term) {term : Text}
    (listed : term ∈ selected) :
    (selected.filterMap lookup).filter (fun posting => posting.term = term) =
      (lookup term).toList.filter fun posting => posting.term = term := by
  have known := fixed term listed
  have other : ∀ terms : List Text, term ∉ terms →
      (∀ own ∈ terms, unicode.normalize own = own) →
        (terms.filterMap lookup).filter (fun posting => posting.term = term) = [] := by
    intro terms absent fixed
    refine filter_eq_nil_iff.mpr fun posting found same => ?_
    rcases mem_filterMap.mp found with ⟨own, place, read⟩
    have equal := canonical own posting read
    rw [of_decide_eq_true same, known, fixed own place] at equal
    exact absent (equal ▸ place)
  clear known
  induction selected with
  | nil => cases listed
  | cons first selected ih =>
      have later := nodup_cons.mp distinct
      have fixedLater := fun own listed => fixed own (mem_cons_of_mem first listed)
      rw [filterMap_cons_toList, filter_append]
      by_cases same : first = term
      · rw [same, other selected (same ▸ later.1) fixedLater, append_nil]
      · have single : (lookup first).toList = [first].filterMap lookup := by
          rw [filterMap_cons_toList, filterMap_nil, append_nil]
        have absent : term ∉ [first] := fun absurd => same (mem_singleton.mp absurd).symm
        have fixedFirst : ∀ own ∈ [first], unicode.normalize own = own := by
          intro own listed
          rw [mem_singleton.mp listed]
          exact fixed first mem_cons_self
        rw [single, other [first] absent fixedFirst, nil_append]
        exact ih later.2 fixedLater ((mem_cons.mp listed).resolve_left (Ne.symm same))

/-- The postings for a term that carry the term themselves. -/
def ownPostings (term : Text) (postings : List ContentPosting) : List ContentPosting :=
  postings.filter fun posting => posting.term = term

/-- A result of a lookup as a batch gives it. -/
def foundOf (found : Option ContentPosting × Bool) : Option LimitedContentPosting :=
  found.1.map fun posting => ⟨posting, found.2⟩

/-- A batch gives what single lookups make of the postings that carry their terms. -/
theorem postingsFrom_eq {held : List (HeldArchive unicode)}
    {lookup : MmapContentArchive → Except Fault (List LimitedContentPosting)}
    {posting : HeldArchive unicode → Text → Option ContentPosting} {selected : List Text}
    {limit : Nat}
    (reads : ∀ archive ∈ held, ∃ found, lookup archive.archive = .ok found ∧ ∀ entry : TermFound,
      found.foldl (fun entry read => mergeLimited read entry) entry =
        foundFrom limit entry (selected.filterMap (posting archive)))
    (canonical : ∀ archive term stored, posting archive term = some stored →
      unicode.normalize stored.term = unicode.normalize term)
    (distinct : selected.Nodup) (fixed : ∀ term ∈ selected, unicode.normalize term = term) :
    MmapContentSet.postingsFrom ⟨held.map HeldArchive.archive⟩ lookup selected limit =
      .ok (selected.filterMap fun term => foundOf (lookupOf term limit
        (ownPostings term (held.filterMap (posting · term))))) := by
  have walked : ∀ (start : Text → TermFound), (∀ term, (start term).term = term) →
      (held.map HeldArchive.archive).foldlM (fun byTerm archive =>
        (lookup archive).map fun read =>
          read.foldl (fun byTerm found => byTerm.map (mergeLimited found)) byTerm)
            (selected.map start) =
        .ok (selected.map fun term => foundFrom limit (start term)
          (ownPostings term (held.filterMap (posting · term)))) := by
    induction held with
    | nil => exact fun start _ => rfl
    | cons first held ih =>
        intro start named
        rcases reads first mem_cons_self with ⟨found, read, merged⟩
        have rest := ih (fun archive listed => reads archive (mem_cons_of_mem first listed))
          (fun term => foundFrom limit (start term) (ownPostings term (posting first term).toList))
          fun term => (term_foundFrom _ _ _).trans (named term)
        rw [map_cons, foldlM_cons, read]
        change (held.map HeldArchive.archive).foldlM _ (found.foldl
          (fun byTerm found => byTerm.map (mergeLimited found)) (selected.map start)) = _
        have step : selected.map ((fun entry => found.foldl (fun entry read =>
            mergeLimited read entry) entry) ∘ start) = selected.map fun term =>
              foundFrom limit (start term) (ownPostings term (posting first term).toList) := by
          refine map_congr_left fun term listed => ?_
          rw [Function.comp_apply, merged, foundFrom_filter, named,
            filter_selected (canonical first) distinct fixed listed]
          rfl
        rw [foldl_map_merge, map_map, step]
        refine rest.trans (congrArg Except.ok (map_congr_left fun term _ => ?_))
        rw [← foundFrom_append, ownPostings, ownPostings, ← filter_append,
          ← filterMap_cons_toList (posting · term)]
        rfl
  have whole := walked (fun term => ⟨term, ∅, false⟩) fun _ => rfl
  simp only [MmapContentSet.postingsFrom, whole, bind, Except.bind, filterMap_map]
  refine congrArg Except.ok (filterMap_congr fun term _ => ?_)
  exact finishTerm_foundFrom fun own listed => of_decide_eq_true (mem_filter.mp listed).2

end Walk

/-- The part on a volume of the posting that an archive has for a term. -/
def HeldArchive.postingOn {unicode : Unicode} (volume : VolumeId) (held : HeldArchive unicode)
    (term : Text) : Option ContentPosting :=
  (held.posting term).map (ContentPosting.onVolume volume)

section Reads

variable {unicode : Unicode} {report : Bytes → String} (held : HeldArchive unicode)

theorem eraseDups_of_nodup {terms : List Text} (distinct : terms.Nodup) :
    terms.eraseDups = terms := by
  induction terms with
  | nil => rfl
  | cons term terms ih =>
      have later := nodup_cons.mp distinct
      have others : terms.filter (fun other => !other == term) = terms := by
        refine filter_eq_self.mpr fun other listed => ?_
        rw [Bool.not_eq_true', beq_eq_false_iff_ne]
        exact fun same => later.1 (same ▸ listed)
      rw [eraseDups_cons, others, ih later.2]

/-- Terms as a batch selects them: canonical, in order and each once. -/
structure Selected (unicode : Unicode) (selected : List Text) : Prop where
  strict : Strict id selected
  fixed : ∀ term ∈ selected, unicode.normalize term = term
  filled : ∀ term ∈ selected, term ≠ []

namespace Selected

variable {selected : List Text}

theorem of_terms (idempotent : ∀ text, unicode.normalize (unicode.normalize text) =
    unicode.normalize text) (terms : List Text) : Selected unicode (selectTerms unicode terms) := by
  have parts : ∀ term ∈ selectTerms unicode terms,
      (∃ spelled ∈ terms, unicode.normalize spelled = term) ∧ term ≠ [] := by
    intro term listed
    rcases mem_filter.mp (mem_sortDedup.mp listed) with ⟨mapped, filled⟩
    exact ⟨mem_map.mp mapped, of_decide_eq_true filled⟩
  refine ⟨strict_sortDedup _, fun term listed => ?_, fun term listed => (parts term listed).2⟩
  rcases (parts term listed).1 with ⟨spelled, -, rfl⟩
  exact idempotent spelled

theorem nodup (selects : Selected unicode selected) : selected.Nodup := selects.strict.nodup

theorem canonicalTerms_eq (selects : Selected unicode selected) :
    canonicalTerms unicode selected = selected := by
  have same : selected.map unicode.normalize = selected :=
    (map_congr_left selects.fixed).trans (map_id selected)
  rw [canonicalTerms, same]
  exact filter_eq_self.mpr fun term listed => decide_eq_true (selects.filled term listed)

theorem batch_eq (selects : Selected unicode selected) :
    held.batch selected = selected.filterMap held.posting := by
  rw [HeldArchive.batch, postingsOf, selects.canonicalTerms_eq, eraseDups_of_nodup selects.nodup,
    map_filterMap]
  refine filterMap_congr fun term listed => ?_
  rw [HeldArchive.posting, postingOf, selects.fixed term listed,
    if_neg (selects.filled term listed)]

theorem ordered (selects : Selected unicode selected) :
    Ascending id (canonicalTerms unicode selected) := by
  rw [selects.canonicalTerms_eq]
  exact selects.strict.ascending

/-- What the walk of an archive reads for a batch. -/
theorem reads (selects : Selected unicode selected) {limit : Nat} (positive : 0 < limit) :
    ∃ found, held.archive.postingsForSortedTermsLimit unicode report selected limit = .ok found ∧
      ∀ entry : TermFound, found.foldl (fun entry read => mergeLimited read entry) entry =
        foundFrom limit entry (selected.filterMap held.posting) := by
  refine ⟨_, held.holds.postingsForSortedTermsLimit_eq report selects.ordered positive,
    fun entry => ?_⟩
  rw [foldl_map, ← HeldArchive.batch, selects.batch_eq]
  rfl

/-- A read that is empty: there is nothing to read. -/
theorem nothing_of_unread {limit : Nat} (positive : 0 < limit) {posting : ContentPosting}
    (empty : (!(limited limit posting).posting.ids.isEmpty ||
      !(limited limit posting).posting.positions.isEmpty) = false) :
    limited limit posting = ⟨⟨posting.term, [], []⟩, false⟩ := by
  have nonzero : limit ≠ 0 := Nat.pos_iff_ne_zero.mp positive
  simp only [limited, Bool.or_eq_false_iff, Bool.not_eq_false', List.isEmpty_iff,
    take_eq_nil_iff, nonzero, false_or] at empty
  rcases posting with ⟨term, ids, positions⟩
  rcases empty with ⟨rfl, rfl⟩
  simp [limited]

/-- It changes no entry. -/
theorem mergeLimited_empty {limit : Nat} (positive : 0 < limit) {posting : ContentPosting}
    (empty : (!(limited limit posting).posting.ids.isEmpty ||
      !(limited limit posting).posting.positions.isEmpty) = false) (entry : TermFound) :
    mergeLimited (limited limit posting) entry = entry := by
  rw [nothing_of_unread positive empty, mergeLimited]
  split
  case isTrue => simp [mergeContentPostingPositions, mergeIds]
  case isFalse => rfl

/-- What the walk of an archive reads for a batch on a volume. -/
theorem readsOn (selects : Selected unicode selected) (volume : VolumeId) {limit : Nat}
    (positive : 0 < limit) :
    ∃ found, held.archive.postingsForSortedTermsVolumeLimit unicode report selected volume limit =
        .ok found ∧
      ∀ entry : TermFound, found.foldl (fun entry read => mergeLimited read entry) entry =
        foundFrom limit entry (selected.filterMap (HeldArchive.postingOn volume held)) := by
  refine ⟨_, held.holds.postingsForSortedTermsVolumeLimit_eq report selects.ordered volume
    positive, fun entry => ?_⟩
  have parts : selected.filterMap (HeldArchive.postingOn volume held) =
      (selected.filterMap held.posting).map (ContentPosting.onVolume volume) :=
    map_filterMap.symm
  rw [← HeldArchive.batch, selects.batch_eq, parts]
  generalize selected.filterMap held.posting = postings
  induction postings generalizing entry with
  | nil => rfl
  | cons posting postings ih =>
      rw [map_cons, map_cons, filter_cons]
      split
      case isTrue => exact ih _
      case isFalse empty =>
        have same := mergeLimited_empty positive (Bool.eq_false_iff.mpr empty) entry
        have skipped : foundFrom limit entry (ContentPosting.onVolume volume posting ::
            postings.map (ContentPosting.onVolume volume)) =
              foundFrom limit (mergeLimited (limited limit
                (ContentPosting.onVolume volume posting)) entry)
                  (postings.map (ContentPosting.onVolume volume)) := rfl
        rw [skipped, same]
        exact ih entry

end Selected

end Reads

namespace MmapContentSet

variable {unicode : Unicode} {report : Bytes → String} (held : List (HeldArchive unicode))

/-- The parts on a volume of the postings that the archives have for a term. -/
def partsFor (volume : VolumeId) (term : Text) : List ContentPosting :=
  held.filterMap (HeldArchive.postingOn volume · term)

theorem selected_singleton {term : Text} (fixed : unicode.normalize term = term)
    (filled : term ≠ []) : Selected unicode [term] := by
  refine ⟨pairwise_singleton _ _, fun other listed => ?_, fun other listed => ?_⟩
  · rwa [mem_singleton.mp listed]
  · rwa [mem_singleton.mp listed]

theorem mergeArchiveVolumeLimit_eq (archive : HeldArchive unicode) {term : Text}
    (fixed : unicode.normalize term = term) (filled : term ≠ []) (volume : VolumeId) {limit : Nat}
    (positive : 0 < limit) (merged : IdPositions × Bool) :
    mergeArchiveVolumeLimit unicode report term volume limit merged archive.archive =
      .ok ((archive.postingOn volume term).toList.foldl (fun merged part =>
        (mergeIds merged.1 (limited limit part).posting,
          merged.2 || (limited limit part).truncated)) merged) := by
  have selects := selected_singleton fixed filled
  have single : [term].filterMap archive.posting = (archive.posting term).toList := by
    rw [filterMap_cons_toList, filterMap_nil, append_nil]
  rw [mergeArchiveVolumeLimit, archive.holds.postingsForSortedTermsVolumeLimit_eq report
    selects.ordered volume positive, ← HeldArchive.batch, selects.batch_eq, single,
    HeldArchive.postingOn]
  refine congrArg Except.ok ?_
  cases archive.posting term with
  | none => rfl
  | some posting =>
      rw [Option.map_some, Option.toList_some, Option.toList_some, map_singleton,
        filter_singleton]
      cases read : !(limited limit (ContentPosting.onVolume volume posting)).posting.ids.isEmpty ||
        !(limited limit (ContentPosting.onVolume volume posting)).posting.positions.isEmpty with
      | true => rfl
      | false =>
          have nothing := Selected.nothing_of_unread positive read
          rw [foldl_cons, nothing]
          simp [mergeIds]

theorem foldlM_mergeArchiveVolumeLimit {term : Text} (fixed : unicode.normalize term = term)
    (filled : term ≠ []) (volume : VolumeId) {limit : Nat} (positive : 0 < limit)
    (merged : IdPositions) (truncated : Bool) :
    (held.map HeldArchive.archive).foldlM
        (mergeArchiveVolumeLimit unicode report term volume limit) (merged, truncated) =
      .ok (((partsFor held volume term).map fun part => (limited limit part).posting).foldl
          mergeIds merged,
        truncated || (partsFor held volume term).any fun part =>
          (limited limit part).truncated) := by
  induction held generalizing merged truncated with
  | nil =>
      rw [partsFor, filterMap_nil, any_nil, Bool.or_false]
      rfl
  | cons first held ih =>
      rw [map_cons, foldlM_cons, mergeArchiveVolumeLimit_eq first fixed filled volume
        positive, partsFor, filterMap_cons_toList]
      cases first.postingOn volume term with
      | none => exact ih merged truncated
      | some part =>
          rw [Option.toList_some, singleton_append, map_cons, foldl_cons,
            any_cons, ← Bool.or_assoc]
          exact ih (mergeIds merged (limited limit part).posting)
            (truncated || (limited limit part).truncated)

/-- The single lookup on a volume, by the parts on the volume. -/
theorem postingForTermVolumeLimit_lookupOf
    (idempotent : ∀ text, unicode.normalize (unicode.normalize text) = unicode.normalize text)
    (term : Text) (volume : VolumeId) {limit : Nat} (positive : 0 < limit) :
    postingForTermVolumeLimit unicode report ⟨held.map HeldArchive.archive⟩ term volume limit =
      .ok (if unicode.normalize term = [] then (none, false)
        else lookupOf (unicode.normalize term) limit
          (partsFor held volume (unicode.normalize term))) := by
  rw [postingForTermVolumeLimit, if_neg (Nat.pos_iff_ne_zero.mp positive)]
  by_cases empty : unicode.normalize term = []
  · simp only [empty, if_true]
  have folded := @foldlM_mergeArchiveVolumeLimit unicode report held _ (idempotent term) empty
    volume limit positive ∅ false
  rw [Bool.false_or] at folded
  simp only [if_neg empty, folded, bind, Except.bind, lookupOf]
  change (if (limitedUnion limit _).isEmpty = true then _ else
    if limit < (limitedUnion limit _).size then _ else _) = _
  split
  case isTrue => rfl
  case isFalse =>
    split
    case isTrue => rfl
    case isFalse => rfl

end MmapContentSet

end Gfm.Store

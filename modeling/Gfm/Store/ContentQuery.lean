import Gfm.Store.ContentBatch
import Gfm.Store.ContentView

/-!
# Limited lookups

What a limited lookup gives beside the full one: in one archive, for one term, for a batch of
sorted terms or for a volume, and in a set of archives.
-/

namespace Gfm.Store

open List Sorted Std Wire

section Merge

def contentPostingFromPositions (term : Text) (positionsById : IdPositions) : ContentPosting :=
  contentPostingOf term positionsById

def mergeContentPostingPositions (posting : ContentPosting) (positionsById : IdPositions) :
    IdPositions := mergeIds positionsById posting

def popLast (positionsById : IdPositions) : IdPositions :=
  match positionsById.maxKey? with
  | none => positionsById
  | some id => positionsById.erase id

/-- The last entry is popped while there are more than the limit. -/
def popDownTo (limit : Nat) (positionsById : IdPositions) : IdPositions :=
  popLast^[positionsById.size - limit] positionsById

end Merge

structure MmapContentSet where
  archives : List MmapContentArchive

namespace MmapContentSet

variable (unicode : Unicode) (report : Bytes → String) (set : MmapContentSet)

def mergeArchive (term : Text) (positionsById : IdPositions) (archive : MmapContentArchive) :
    Except Fault IdPositions :=
  (archive.postingForTerm unicode report term).map fun found =>
    match found with
    | none => positionsById
    | some posting => mergeContentPostingPositions posting positionsById

def postingForTerm (term : Text) : Except Fault (Option ContentPosting) :=
  let term := unicode.normalize term
  if term = [] then .ok none
  else do
    let positionsById ← set.archives.foldlM (mergeArchive unicode report term) ∅
    if positionsById.isEmpty then .ok none
    else .ok (some (contentPostingFromPositions term positionsById))

def mergeArchiveLimit (term : Text) (limit : Nat) (merged : IdPositions × Bool)
    (archive : MmapContentArchive) : Except Fault (IdPositions × Bool) :=
  (archive.postingForTermLimit unicode report term limit).map fun found =>
    match found with
    | (none, _) => merged
    | (some posting, archiveTruncated) =>
        (mergeContentPostingPositions posting merged.1, merged.2 || archiveTruncated)

def postingForTermLimit (term : Text) (limit : Nat) :
    Except Fault (Option ContentPosting × Bool) :=
  if limit = 0 then .ok (none, false)
  else
    let term := unicode.normalize term
    if term = [] then .ok (none, false)
    else do
      let (positionsById, truncated) ←
        set.archives.foldlM (mergeArchiveLimit unicode report term limit) (∅, false)
      if positionsById.isEmpty then .ok (none, truncated)
      else if limit < positionsById.size then
        .ok (some (contentPostingFromPositions term (popDownTo limit positionsById)), true)
      else .ok (some (contentPostingFromPositions term positionsById), truncated)

end MmapContentSet

section Prefixes

/-- The first ids of a posting with all of their positions, and whether there are more ids. -/
def firstIds (limit : Nat) (posting : ContentPosting) : LimitedContentPosting where
  posting := { posting with
    ids := posting.ids.take limit
    positions := posting.positions.filter fun entry => entry.id ∈ posting.ids.take limit }
  truncated := limit < posting.ids.length

/-- A lookup of the first ids of what the full lookup finds. -/
def firstOf (limit : Nat) : Option ContentPosting → Option ContentPosting × Bool
  | none => (none, false)
  | some posting => (some (firstIds limit posting).posting, (firstIds limit posting).truncated)

/-- The first position entries are for the first ids, no other entry is, and there are more entries
than the limit only if there are more ids. -/
structure PositionsFollowIds (limit : Nat) (posting : ContentPosting) : Prop where
  first : ∀ entry ∈ posting.positions.take limit, entry.id ∈ posting.ids.take limit
  others : ∀ entry ∈ posting.positions.drop limit, entry.id ∉ posting.ids.take limit
  more : limit < posting.positions.length → limit < posting.ids.length

theorem take_eq_filter_iff {Item : Type} {good : Item → Bool} {items : List Item} {limit : Nat} :
    items.take limit = items.filter good ↔
      (∀ item ∈ items.take limit, good item) ∧ ∀ item ∈ items.drop limit, good item = false := by
  have split := congrArg (List.filter good) (take_append_drop limit items)
  rw [filter_append] at split
  constructor
  · intro same
    have first : ∀ item ∈ items.take limit, good item := by
      intro item listed
      rw [same] at listed
      exact (mem_filter.mp listed).2
    refine ⟨first, ?_⟩
    rw [← same, filter_eq_self.mpr first, append_right_eq_self] at split
    intro item listed
    exact Bool.eq_false_iff.mpr (filter_eq_nil_iff.mp split item listed)
  · rintro ⟨first, others⟩
    have none : (items.drop limit).filter good = [] :=
      filter_eq_nil_iff.mpr fun item listed => Bool.eq_false_iff.mp (others item listed)
    rw [filter_eq_self.mpr first, none, append_nil] at split
    exact split

/-- A limited read is a read of the first ids exactly if the positions follow the ids. -/
theorem limited_eq_firstIds {limit : Nat} {posting : ContentPosting} :
    limited limit posting = firstIds limit posting ↔ PositionsFollowIds limit posting := by
  have truncated : (decide (limit < posting.ids.length) ||
      decide (limit < posting.positions.length)) = decide (limit < posting.ids.length) ↔
        (limit < posting.positions.length → limit < posting.ids.length) := by
    rw [Bool.or_eq_left_iff_imp, decide_eq_true_eq, decide_eq_true_eq]
  have positions := @take_eq_filter_iff _
    (fun entry : ContentPositions => entry.id ∈ posting.ids.take limit) posting.positions limit
  simp only [decide_eq_true_eq, decide_eq_false_iff_not] at positions
  simp only [limited, firstIds, LimitedContentPosting.mk.injEq, ContentPosting.mk.injEq, true_and,
    truncated, positions]
  constructor
  · rintro ⟨⟨first, others⟩, more⟩
    exact ⟨first, others, more⟩
  · intro follow
    exact ⟨⟨follow.first, follow.others⟩, follow.more⟩

end Prefixes

section Popping

variable (positionsById : IdPositions)

theorem filter_filter_keys {first second : FileId → Bool}
    (narrower : ∀ id, second id = true → first id = true) :
    (positionsById.filter fun id _ => first id).filter (fun id _ => second id) =
      positionsById.filter fun id _ => second id := by
  apply ExtTreeMap.ext_getElem?
  intro id
  simp only [ExtTreeMap.getElem?_filter']
  cases positionsById[id]? with
  | none => rfl
  | some positions =>
      cases kept : second id with
      | false => cases first id <;> simp [Option.filter]
      | true => simp [Option.filter, narrower id kept]

theorem popLast_eq :
    popLast positionsById = positionsById.filter fun id _ => id ∈ positionsById.keys.dropLast := by
  rw [popLast, ExtTreeMap.maxKey?_eq_getLast?_keys]
  apply ExtTreeMap.ext_getElem?
  intro id
  rw [ExtTreeMap.getElem?_filter']
  cases shape : positionsById.keys.getLast? with
  | none =>
      have empty := getLast?_eq_none_iff.mp shape
      have absent : id ∉ positionsById := by
        rw [← ExtTreeMap.mem_keys, empty]
        exact not_mem_nil
      simp only [ExtTreeMap.getElem?_eq_none absent, Option.filter_none]
  | some last =>
      rcases getLast?_eq_some_iff.mp shape with ⟨before, split⟩
      have nodup := @ExtTreeMap.nodup_keys _ _ _ positionsById _
      rw [split, nodup_append] at nodup
      simp only [ExtTreeMap.getElem?_erase, split, dropLast_concat]
      by_cases same : last = id
      · have dropped : id ∉ before := fun listed =>
          nodup.2.2 id listed last mem_cons_self same.symm
        rw [if_pos (Std.compare_eq_iff_eq.mpr same)]
        cases positionsById[id]? with
        | none => rfl
        | some positions => simp [Option.filter, dropped]
      · rw [if_neg fun equal => same (Std.compare_eq_iff_eq.mp equal)]
        cases known : positionsById[id]? with
        | none => rfl
        | some positions =>
            have present : id ∈ positionsById.keys :=
              ExtTreeMap.mem_keys.mpr (ExtTreeMap.mem_iff_isSome_getElem?.mpr
                (by simp [known]))
            rw [split, mem_append, mem_singleton] at present
            have listed : id ∈ before := present.resolve_right (Ne.symm same)
            simp [Option.filter, listed]

theorem keys_filter_take (limit : Nat) :
    (positionsById.filter fun id _ => id ∈ positionsById.keys.take limit).keys =
      positionsById.keys.take limit := by
  rw [@ExtTreeMap.keys_filter_key _ _ _ positionsById _
    fun id => id ∈ positionsById.keys.take limit]
  refine (take_eq_filter_iff.mpr ⟨fun id listed => decide_eq_true listed,
    fun id listed => decide_eq_false fun early => ?_⟩).symm
  have nodup := @ExtTreeMap.nodup_keys _ _ _ positionsById _
  rw [← take_append_drop limit positionsById.keys, nodup_append] at nodup
  exact nodup.2.2 id early id listed rfl

/-- What is left when the last entries are popped are the first ones. -/
theorem popDownTo_eq (limit : Nat) :
    popDownTo limit positionsById =
      positionsById.filter fun id _ => id ∈ positionsById.keys.take limit := by
  have popped : ∀ count, popLast^[count] positionsById =
      positionsById.filter fun id _ =>
        id ∈ positionsById.keys.take (positionsById.keys.length - count) := by
    intro count
    induction count with
    | zero =>
        apply ExtTreeMap.ext_getElem?
        intro id
        rw [Nat.sub_zero, take_length, ExtTreeMap.getElem?_filter', Function.iterate_zero,
          id_eq]
        cases known : positionsById[id]? with
        | none => rfl
        | some positions =>
            have present : id ∈ positionsById.keys :=
              ExtTreeMap.mem_keys.mpr (ExtTreeMap.mem_iff_isSome_getElem?.mpr
                (by simp [known]))
            simp only [Option.filter, present, decide_true, if_true]
    | succ count ih =>
        have shorter : (positionsById.keys.take (positionsById.keys.length - count)).dropLast =
            positionsById.keys.take (positionsById.keys.length - (count + 1)) := by
          rw [dropLast_eq_take, take_take, length_take]
          congr 1
          omega
        rw [Function.iterate_succ_apply', ih, popLast_eq, keys_filter_take, shorter]
        refine filter_filter_keys positionsById fun id late => decide_eq_true ?_
        exact take_subset_take_left _ (by omega) (of_decide_eq_true late)
  rw [popDownTo, popped, ExtTreeMap.length_keys]
  by_cases more : limit ≤ positionsById.size
  · rw [Nat.sub_sub_self more]
  · have all : positionsById.size - (positionsById.size - limit) = positionsById.size := by omega
    rw [all, ← ExtTreeMap.length_keys, take_length,
      take_of_length_le (by rw [ExtTreeMap.length_keys]; omega)]

end Popping

section Union

/-- The ids and positions of postings together. -/
def unionOf (postings : List ContentPosting) : IdPositions := postings.foldl mergeIds ∅

theorem lists_foldl_mergeIds {postings : List ContentPosting} {ids : IdPositions} {id : FileId}
    {position : Option Nat} :
    Lists ((postings.foldl mergeIds ids)[id]?) position ↔
      Lists ids[id]? position ∨ ∃ posting ∈ postings, PostsId posting id position := by
  induction postings generalizing ids with
  | nil => simp
  | cons posting postings ih =>
      rw [foldl_cons, ih, lists_mergeIds, or_assoc]
      simp only [mem_cons, exists_eq_or_imp]

theorem lists_unionOf {postings : List ContentPosting} {id : FileId} {position : Option Nat} :
    Lists (unionOf postings)[id]? position ↔
      ∃ posting ∈ postings, PostsId posting id position := by
  rw [unionOf, lists_foldl_mergeIds]
  simp [Lists]

theorem mem_keys_iff {ids : IdPositions} {id : FileId} :
    id ∈ ids.keys ↔ Lists ids[id]? none := by
  rw [ExtTreeMap.mem_keys, ExtTreeMap.mem_iff_isSome_getElem?, Option.isSome_iff_exists]
  simp [Lists]

/-- No id and no position entry after the first ones of a posting is for one of the first ids of
all. -/
def NothingSkipped (limit : Nat) (postings : List ContentPosting) : Prop :=
  ∀ posting ∈ postings,
    (∀ id ∈ posting.ids.drop limit, id ∉ (unionOf postings).keys.take limit) ∧
      ∀ entry ∈ posting.positions.drop limit, entry.id ∉ (unionOf postings).keys.take limit

/-- The union of the limited reads. -/
def limitedUnion (limit : Nat) (postings : List ContentPosting) : IdPositions :=
  unionOf (postings.map fun posting => (limited limit posting).posting)

theorem postsId_limited {limit : Nat} {posting : ContentPosting} {id : FileId}
    {position : Option Nat} (posts : PostsId (limited limit posting).posting id position) :
    PostsId posting id position := by
  cases position with
  | none =>
      rcases posts with listed | ⟨entry, listed, same⟩
      · exact Or.inl (mem_of_mem_take listed)
      · exact Or.inr ⟨entry, mem_of_mem_take listed, same⟩
  | some position =>
      rcases posts with ⟨entry, listed, same⟩
      exact ⟨entry, mem_of_mem_take listed, same⟩

theorem mem_take_or_drop {Item : Type} {items : List Item} {item : Item} (limit : Nat)
    (listed : item ∈ items) : item ∈ items.take limit ∨ item ∈ items.drop limit := by
  rw [← mem_append, take_append_drop]
  exact listed

variable {limit : Nat} {postings : List ContentPosting}

/-- The limited reads have all of the first ids. -/
theorem postsId_limited_of_first (nothing : NothingSkipped limit postings)
    {posting : ContentPosting} (member : posting ∈ postings) {id : FileId}
    (first : id ∈ (unionOf postings).keys.take limit) {position : Option Nat}
    (posts : PostsId posting id position) :
    PostsId (limited limit posting).posting id position := by
  rcases nothing posting member with ⟨laterIds, laterEntries⟩
  have early : ∀ entry ∈ posting.positions, entry.id = id →
      entry ∈ posting.positions.take limit := by
    intro entry listed same
    rcases mem_take_or_drop limit listed with kept | skipped
    · exact kept
    · exact absurd (same ▸ first) (laterEntries entry skipped)
  cases position with
  | none =>
      rcases posts with listed | ⟨entry, listed, same⟩
      · rcases mem_take_or_drop limit listed with kept | skipped
        · exact Or.inl kept
        · exact absurd first (laterIds id skipped)
      · exact Or.inr ⟨entry, early entry listed same, same⟩
  | some position =>
      rcases posts with ⟨entry, listed, same, found⟩
      exact ⟨entry, early entry listed same, same, found⟩

theorem lists_limitedUnion {id : FileId} {position : Option Nat} :
    Lists (limitedUnion limit postings)[id]? position ↔
      ∃ posting ∈ postings, PostsId (limited limit posting).posting id position := by
  rw [limitedUnion, lists_unionOf]
  simp only [mem_map, exists_exists_and_eq_and]

theorem keys_limitedUnion_subset {id : FileId} (listed : id ∈ (limitedUnion limit postings).keys) :
    id ∈ (unionOf postings).keys := by
  rw [mem_keys_iff, lists_limitedUnion] at listed
  rcases listed with ⟨posting, member, posts⟩
  exact mem_keys_iff.mpr (lists_unionOf.mpr ⟨posting, member, postsId_limited posts⟩)

theorem getElem?_limitedUnion (nothing : NothingSkipped limit postings) {id : FileId}
    (first : id ∈ (unionOf postings).keys.take limit) :
    (limitedUnion limit postings)[id]? = (unionOf postings)[id]? := by
  refine eq_of_lists fun position => ?_
  rw [lists_limitedUnion, lists_unionOf]
  constructor
  · rintro ⟨posting, member, posts⟩
    exact ⟨posting, member, postsId_limited posts⟩
  · rintro ⟨posting, member, posts⟩
    exact ⟨posting, member, postsId_limited_of_first nothing member first posts⟩

theorem strict_keys (ids : IdPositions) : @Strict FileId FileId _ id ids.keys :=
  @ExtTreeMap.ordered_keys _ _ _ ids _

theorem take_keys_limitedUnion (nothing : NothingSkipped limit postings) :
    (limitedUnion limit postings).keys.take limit = (unionOf postings).keys.take limit := by
  refine (strict_keys _).take_eq (strict_keys _) (fun id => keys_limitedUnion_subset) ?_
  intro id first
  have listed := mem_keys_iff.mp (mem_of_mem_take first)
  rw [← getElem?_limitedUnion nothing first] at listed
  exact mem_keys_iff.mpr listed

theorem popDownTo_limitedUnion (nothing : NothingSkipped limit postings) :
    popDownTo limit (limitedUnion limit postings) =
      (unionOf postings).filter fun id _ => id ∈ (unionOf postings).keys.take limit := by
  rw [popDownTo_eq, take_keys_limitedUnion nothing]
  apply ExtTreeMap.ext_getElem?
  intro id
  rw [ExtTreeMap.getElem?_filter', ExtTreeMap.getElem?_filter']
  by_cases first : id ∈ (unionOf postings).keys.take limit
  · rw [getElem?_limitedUnion nothing first]
  · simp only [first, decide_false]
    cases (limitedUnion limit postings)[id]? <;> cases (unionOf postings)[id]? <;> rfl

theorem limited_of_not_truncated {posting : ContentPosting}
    (whole : (limited limit posting).truncated = false) :
    (limited limit posting).posting = posting := by
  simp only [limited, Bool.or_eq_false_iff, decide_eq_false_iff_not, Nat.not_lt] at whole
  simp only [limited, take_of_length_le whole.1, take_of_length_le whole.2]

/-- A limited read that is cut off leaves out something that is not among the first ids. -/
theorem lt_size_of_truncated (nothing : NothingSkipped limit postings) {posting : ContentPosting}
    (member : posting ∈ postings) (cut : (limited limit posting).truncated = true) :
    limit < (unionOf postings).size := by
  have beyond : ∀ id ∈ (unionOf postings).keys, id ∉ (unionOf postings).keys.take limit →
      limit < (unionOf postings).size := by
    intro id listed late
    rw [← ExtTreeMap.length_keys]
    by_contra short
    rw [take_of_length_le (Nat.not_lt.mp short)] at late
    exact late listed
  rcases nothing posting member with ⟨laterIds, laterEntries⟩
  simp only [limited, Bool.or_eq_true, decide_eq_true_eq] at cut
  rcases cut with more | more
  · rcases exists_mem_of_ne_nil _ (ne_nil_of_length_pos (l := posting.ids.drop limit)
      (by rw [length_drop]; omega)) with ⟨id, dropped⟩
    refine beyond id (mem_keys_iff.mpr (lists_unionOf.mpr ⟨posting, member, ?_⟩))
      (laterIds id dropped)
    exact Or.inl (mem_of_mem_drop dropped)
  · rcases exists_mem_of_ne_nil _ (ne_nil_of_length_pos (l :=
      posting.positions.drop limit)
      (by rw [length_drop]; omega)) with ⟨entry, dropped⟩
    refine beyond entry.id (mem_keys_iff.mpr (lists_unionOf.mpr ⟨posting, member, ?_⟩))
      (laterEntries entry dropped)
    exact Or.inr ⟨entry, mem_of_mem_drop dropped, rfl⟩

theorem size_limitedUnion_le : (limitedUnion limit postings).size ≤ (unionOf postings).size := by
  rw [← ExtTreeMap.length_keys, ← ExtTreeMap.length_keys]
  exact (subperm_of_subset ExtTreeMap.nodup_keys
    fun id => keys_limitedUnion_subset).length_le

theorem truncated_limitedUnion (nothing : NothingSkipped limit postings) :
    ((postings.any fun posting => (limited limit posting).truncated) ||
      decide (limit < (limitedUnion limit postings).size)) =
        decide (limit < (unionOf postings).size) := by
  rw [Bool.eq_iff_iff, Bool.or_eq_true, decide_eq_true_eq, decide_eq_true_eq, any_eq_true]
  constructor
  · rintro (⟨posting, member, cut⟩ | more)
    · exact lt_size_of_truncated nothing member cut
    · exact Nat.lt_of_lt_of_le more size_limitedUnion_le
  · intro more
    by_cases cut : ∃ posting ∈ postings, (limited limit posting).truncated = true
    · exact Or.inl cut
    · have same : postings.map (fun posting => (limited limit posting).posting) = postings := by
        refine (map_congr_left fun posting member => ?_).trans (map_id postings)
        refine limited_of_not_truncated (Bool.eq_false_iff.mpr fun truncated => ?_)
        exact cut ⟨posting, member, truncated⟩
      rw [limitedUnion, same]
      exact Or.inr more

theorem firstIds_contentPostingOf (term : Text) (ids : IdPositions) (limit : Nat) :
    (firstIds limit (contentPostingOf term ids)).posting =
      contentPostingOf term (ids.filter fun id _ => id ∈ ids.keys.take limit) := by
  simp only [firstIds, contentPostingOf, keys_filter_take, ExtTreeMap.toList_filter,
    filter_map,
    filter_filter]
  congr 2
  refine filter_congr fun pair _ => ?_
  exact Bool.and_comm _ _

end Union

section Stored

theorem postsId_storedAs {posting : ContentPosting} {id : FileId} {position : Option Nat} :
    PostsId (storedAs .indexedChecksummed posting) id position ↔ PostsId posting id position := by
  have ids : (storedAs .indexedChecksummed posting).ids = sortDedup posting.ids := rfl
  have positions : (storedAs .indexedChecksummed posting).positions =
      (sortByKey ContentPositions.id posting.positions).map storedEntry := rfl
  have entries : ∀ entry, entry ∈ sortByKey ContentPositions.id posting.positions ↔
      entry ∈ posting.positions := fun entry => (sortByKey_perm _ _).mem_iff
  cases position with
  | none =>
      simp only [PostsId, ids, positions, mem_sortDedup, mem_map, entries,
        exists_exists_and_eq_and]
      rfl
  | some position =>
      simp only [PostsId, positions, mem_map, entries, exists_exists_and_eq_and]
      simp only [storedEntry, mem_sortDedup]

end Stored

/-- An archive together with the postings that it holds. -/
structure HeldArchive (unicode : Unicode) where
  archive : MmapContentArchive
  postings : List ContentPosting
  holds : archive.Holds unicode postings

namespace HeldArchive

variable {unicode : Unicode} {report : Bytes → String} (held : HeldArchive unicode)

/-- The posting that the archive has for a term. -/
def posting (term : Text) : Option ContentPosting :=
  (postingOf unicode held.postings term).map (storedAs held.archive.version)

/-- The postings that the archive has for the terms of a batch, each once. -/
def batch (terms : List Text) : List ContentPosting :=
  (postingsOf unicode held.postings terms).map (storedAs held.archive.version)

theorem postingForTermLimit_eq (term : Text) (limit : Nat) :
    held.archive.postingForTermLimit unicode report term limit =
      .ok (match held.posting term with
        | none => (none, false)
        | some posting => (some (limited limit posting).posting,
            (limited limit posting).truncated)) := by
  rw [held.holds.postingForTermLimit_eq, posting]
  cases postingOf unicode held.postings term <;> rfl

theorem limited_pair_iff {limit : Nat} {posting : ContentPosting} :
    (some (limited limit posting).posting, (limited limit posting).truncated) =
        firstOf limit (some posting) ↔ PositionsFollowIds limit posting := by
  rw [← limited_eq_firstIds]
  constructor
  · intro same
    simp only [firstOf, Prod.mk.injEq, Option.some.injEq] at same
    calc limited limit posting
        = ⟨(limited limit posting).posting, (limited limit posting).truncated⟩ := rfl
      _ = firstIds limit posting := by rw [same.1, same.2]
  · intro same
    rw [firstOf, same]

theorem postingForTermLimit_iff {term : Text} {limit : Nat} {full : Option ContentPosting}
    (found : held.archive.postingForTerm unicode report term = .ok full) :
    held.archive.postingForTermLimit unicode report term limit = .ok (firstOf limit full) ↔
      ∀ posting, full = some posting → PositionsFollowIds limit posting := by
  rw [held.holds.postingForTerm_eq] at found
  rw [held.postingForTermLimit_eq, ← Except.ok.inj found, ← posting, Except.ok.injEq]
  cases held.posting term with
  | none => exact iff_of_true rfl nofun
  | some posting =>
      simp only [limited_pair_iff, Option.some.injEq, forall_eq']

theorem postingsForSortedTermsLimit_iff {terms : List Text}
    (ordered : Ascending id (canonicalTerms unicode terms)) {limit : Nat} (positive : 0 < limit) :
    held.archive.postingsForSortedTermsLimit unicode report terms limit =
        .ok ((held.batch terms).map (firstIds limit)) ↔
      ∀ posting ∈ held.batch terms, PositionsFollowIds limit posting := by
  rw [held.holds.postingsForSortedTermsLimit_eq report ordered positive, Except.ok.injEq, ← batch,
    map_inj_left]
  simp only [limited_eq_firstIds]

/-- Two selections of a list, of which the second selects no more: when are their images equal? -/
theorem map_filter_eq_iff {Item Other : Type} {left right : Item → Other}
    {wide narrow : Item → Bool} {items : List Item}
    (narrower : ∀ item ∈ items, narrow item = true → wide item = true) :
    (items.filter wide).map left = (items.filter narrow).map right ↔
      ∀ item ∈ items, wide item = narrow item ∧ (wide item = true → left item = right item) := by
  induction items with
  | nil => simp
  | cons item items ih =>
      have narrowerLater := fun other listed => narrower other (mem_cons_of_mem item listed)
      rw [forall_mem_cons, ← ih narrowerLater]
      cases selected : wide item with
      | false =>
          have unselected : narrow item = false := by
            refine Bool.eq_false_iff.mpr fun also => ?_
            rw [narrower item mem_cons_self also] at selected
            cases selected
          simp [selected, unselected]
      | true =>
          cases also : narrow item with
          | true => simp [selected, also]
          | false =>
              rw [filter_cons_of_pos selected, filter_cons_of_neg (by simp [also]),
                map_cons]
              refine iff_of_false (fun same => ?_) (by simp)
              have lengths := congrArg List.length same
              rw [length_cons, length_map, length_map,
                ← countP_eq_length_filter,
                ← countP_eq_length_filter] at lengths
              have bound := countP_mono_left narrowerLater
              omega

theorem limited_onVolume_iff {limit : Nat} (positive : 0 < limit) {posting : ContentPosting} :
    ((!(limited limit posting).posting.ids.isEmpty ||
        !(limited limit posting).posting.positions.isEmpty) = decide (posting.ids ≠ []) ∧
      ((!(limited limit posting).posting.ids.isEmpty ||
          !(limited limit posting).posting.positions.isEmpty) = true →
        limited limit posting = firstIds limit posting)) ↔ PositionsFollowIds limit posting := by
  have nonempty : limit ≠ 0 := Nat.pos_iff_ne_zero.mp positive
  rw [limited_eq_firstIds]
  constructor
  · rintro ⟨-, follow⟩
    by_cases listed : posting.ids = [] ∧ posting.positions = []
    · refine ⟨?_, ?_, ?_⟩ <;> simp [listed.1, listed.2]
    · apply follow
      simp only [limited, Bool.or_eq_true, Bool.not_eq_true', isEmpty_eq_false_iff, ne_eq,
        take_eq_nil_iff, nonempty, false_or]
      tauto
  · intro follow
    refine ⟨?_, fun _ => follow⟩
    rw [Bool.eq_iff_iff]
    simp only [limited, Bool.or_eq_true, Bool.not_eq_true', isEmpty_eq_false_iff, ne_eq,
      take_eq_nil_iff, nonempty, false_or, decide_eq_true_eq, or_iff_left_iff_imp]
    intro some none
    rcases exists_mem_of_ne_nil _ some with ⟨entry, listed⟩
    rcases mem_take_or_drop limit listed with early | late
    · have member := follow.first entry early
      rw [none, take_nil] at member
      cases member
    · have more := follow.more (by
        have dropped := length_pos_of_mem late
        rw [length_drop] at dropped
        omega)
      rw [none] at more
      cases more

theorem postingsForSortedTermsVolumeLimit_iff {terms : List Text}
    (ordered : Ascending id (canonicalTerms unicode terms)) (volume : VolumeId) {limit : Nat}
    (positive : 0 < limit) :
    held.archive.postingsForSortedTermsVolumeLimit unicode report terms volume limit =
        .ok ((((held.batch terms).map (ContentPosting.onVolume volume)).filter
          fun posting => posting.ids ≠ []).map (firstIds limit)) ↔
      ∀ posting ∈ held.batch terms,
        PositionsFollowIds limit (ContentPosting.onVolume volume posting) := by
  rw [held.holds.postingsForSortedTermsVolumeLimit_eq report ordered volume positive,
    Except.ok.injEq, ← batch]
  have moved : (held.batch terms).map (fun posting =>
      limited limit (ContentPosting.onVolume volume posting)) =
        ((held.batch terms).map (ContentPosting.onVolume volume)).map (limited limit) := by
    rw [map_map]
    rfl
  rw [moved, filter_map, ← forall_mem_map (f := ContentPosting.onVolume volume)
    (P := PositionsFollowIds limit)]
  rw [map_filter_eq_iff]
  · refine forall₂_congr fun posting _ => ?_
    exact limited_onVolume_iff positive
  · intro posting _ some
    simp only [ne_eq, decide_eq_true_eq] at some
    have nonempty : limit ≠ 0 := Nat.pos_iff_ne_zero.mp positive
    simp [limited, nonempty, some]

end HeldArchive

namespace MmapContentSet

variable {unicode : Unicode} {report : Bytes → String} (held : List (HeldArchive unicode))
  (term : Text)

/-- The postings that the archives have for a term. -/
def postingsFor : List ContentPosting := held.filterMap fun held => held.posting term

theorem foldlM_mergeArchive (merged : IdPositions) :
    (held.map HeldArchive.archive).foldlM (mergeArchive unicode report term) merged =
      .ok ((postingsFor held term).foldl mergeIds merged) := by
  induction held generalizing merged with
  | nil => rfl
  | cons first held ih =>
      have found : first.archive.postingForTerm unicode report term = .ok (first.posting term) :=
        first.holds.postingForTerm_eq term
      simp only [map_cons, foldlM_cons, mergeArchive, found, Except.map, bind,
        Except.bind]
      cases shape : first.posting term with
      | none =>
          have passed : postingsFor (first :: held) term = postingsFor held term :=
            filterMap_cons_none shape
          rw [passed]
          exact ih merged
      | some posting =>
          have added : postingsFor (first :: held) term = posting :: postingsFor held term :=
            filterMap_cons_some shape
          rw [added, foldl_cons]
          exact ih (mergeIds merged posting)

theorem foldlM_mergeArchiveLimit (limit : Nat) (merged : IdPositions) (truncated : Bool) :
    (held.map HeldArchive.archive).foldlM (mergeArchiveLimit unicode report term limit)
        (merged, truncated) =
      .ok (((postingsFor held term).map fun posting => (limited limit posting).posting).foldl
          mergeIds merged,
        truncated || (postingsFor held term).any fun posting =>
          (limited limit posting).truncated) := by
  induction held generalizing merged truncated with
  | nil =>
      rw [postingsFor, filterMap_nil, any_nil, Bool.or_false]
      rfl
  | cons first held ih =>
      simp only [map_cons, foldlM_cons, mergeArchiveLimit, first.postingForTermLimit_eq,
        Except.map, bind, Except.bind]
      cases shape : first.posting term with
      | none =>
          have passed : postingsFor (first :: held) term = postingsFor held term :=
            filterMap_cons_none shape
          rw [passed]
          exact ih merged truncated
      | some posting =>
          have added : postingsFor (first :: held) term = posting :: postingsFor held term :=
            filterMap_cons_some shape
          rw [added, map_cons, foldl_cons,
            any_cons, ← Bool.or_assoc]
          exact ih (mergeIds merged (limited limit posting).posting)
            (truncated || (limited limit posting).truncated)

theorem postingForTerm_eq :
    postingForTerm unicode report ⟨held.map HeldArchive.archive⟩ term =
      .ok (if unicode.normalize term = [] ∨
          (unionOf (postingsFor held (unicode.normalize term))).isEmpty then none
        else some (contentPostingOf (unicode.normalize term)
          (unionOf (postingsFor held (unicode.normalize term))))) := by
  by_cases empty : unicode.normalize term = []
  · simp only [postingForTerm, empty, true_or, if_true]
  have folded := @foldlM_mergeArchive unicode report held (unicode.normalize term) ∅
  rw [← unionOf] at folded
  simp only [postingForTerm, if_neg empty, folded, bind, Except.bind, contentPostingFromPositions]
  by_cases none : (unionOf (postingsFor held (unicode.normalize term))).isEmpty
  · rw [if_pos none, if_pos (Or.inr none)]
  · rw [if_neg none, if_neg (not_or.mpr ⟨empty, none⟩)]

/-- A limited lookup in a set gives the first ids of what the full lookup gives, unless a limited
read skips one of them. -/
theorem postingForTermLimit_eq {limit : Nat} (positive : 0 < limit)
    (nothing : NothingSkipped limit (postingsFor held (unicode.normalize term)))
    {full : Option ContentPosting}
    (found : postingForTerm unicode report ⟨held.map HeldArchive.archive⟩ term = .ok full) :
    postingForTermLimit unicode report ⟨held.map HeldArchive.archive⟩ term limit =
      .ok (firstOf limit full) := by
  rw [postingForTerm_eq] at found
  rw [← Except.ok.inj found, postingForTermLimit, if_neg (Nat.pos_iff_ne_zero.mp positive)]
  clear found
  by_cases empty : unicode.normalize term = []
  · simp only [empty, if_true, true_or]
    rfl
  have cut := truncated_limitedUnion nothing
  have popped := popDownTo_limitedUnion nothing
  have folded := @foldlM_mergeArchiveLimit unicode report held (unicode.normalize term) limit ∅
    false
  generalize postingsFor held (unicode.normalize term) = postings at *
  change _ = Except.ok (limitedUnion limit postings, _) at folded
  rw [Bool.false_or] at folded
  have pieces : firstOf limit (some (contentPostingOf (unicode.normalize term)
      (unionOf postings))) = (some (contentPostingOf (unicode.normalize term)
        (popDownTo limit (limitedUnion limit postings))),
          decide (limit < (unionOf postings).size)) := by
    have length : (contentPostingOf (unicode.normalize term) (unionOf postings)).ids.length =
        (unionOf postings).size := ExtTreeMap.length_keys
    rw [firstOf, firstIds_contentPostingOf, popped, firstIds, length]
  have sameEmpty : (limitedUnion limit postings).isEmpty = (unionOf postings).isEmpty := by
    have taken := take_keys_limitedUnion nothing
    have lengths := congrArg List.length taken
    rw [length_take, length_take, ExtTreeMap.length_keys,
      ExtTreeMap.length_keys] at lengths
    rw [ExtTreeMap.isEmpty_eq_size_beq_zero, ExtTreeMap.isEmpty_eq_size_beq_zero,
      Bool.eq_iff_iff, beq_iff_eq, beq_iff_eq]
    omega
  simp only [empty, false_or, folded, bind, Except.bind, sameEmpty]
  by_cases none : (unionOf postings).isEmpty
  · have size : (unionOf postings).size = 0 := by
      rwa [ExtTreeMap.isEmpty_eq_size_beq_zero, beq_iff_eq] at none
    have uncut : (postings.any fun posting => (limited limit posting).truncated) = false := by
      rw [size, decide_eq_false (Nat.not_lt_zero limit), Bool.or_eq_false_iff] at cut
      exact cut.1
    rw [if_pos none, if_pos none, uncut]
    rfl
  rw [if_neg none, if_neg none, pieces, ← cut]
  by_cases more : limit < (limitedUnion limit postings).size
  · rw [if_pos more, decide_eq_true more, Bool.or_true]
    rfl
  · have whole : popDownTo limit (limitedUnion limit postings) = limitedUnion limit postings := by
      rw [popDownTo, Nat.sub_eq_zero_of_le (Nat.not_lt.mp more), Function.iterate_zero, id_eq]
    rw [if_neg more, decide_eq_false more, Bool.or_false, whole]
    rfl

end MmapContentSet

/-- A limited lookup gives the first ids of the full posting with all of their positions exactly if
the positions follow the ids; in a set, if no limited read skips one of the first ids. -/
theorem limitedLookups_firstIds (unicode : Unicode) (report : Bytes → String) {limit : Nat}
    (positive : 0 < limit) :
    (∀ held : HeldArchive unicode,
      (∀ term full, held.archive.postingForTerm unicode report term = .ok full →
        (held.archive.postingForTermLimit unicode report term limit = .ok (firstOf limit full) ↔
          ∀ posting, full = some posting → PositionsFollowIds limit posting)) ∧
      ∀ terms, Ascending id (canonicalTerms unicode terms) →
        (held.archive.postingsForSortedTermsLimit unicode report terms limit =
            .ok ((held.batch terms).map (firstIds limit)) ↔
          ∀ posting ∈ held.batch terms, PositionsFollowIds limit posting) ∧
        ∀ volume,
          held.archive.postingsForSortedTermsVolumeLimit unicode report terms volume limit =
              .ok ((((held.batch terms).map (ContentPosting.onVolume volume)).filter
                fun posting => posting.ids ≠ []).map (firstIds limit)) ↔
            ∀ posting ∈ held.batch terms,
              PositionsFollowIds limit (ContentPosting.onVolume volume posting)) ∧
    ∀ (held : List (HeldArchive unicode)) (term : Text) (full : Option ContentPosting),
      MmapContentSet.postingForTerm unicode report ⟨held.map HeldArchive.archive⟩ term = .ok full →
      NothingSkipped limit (MmapContentSet.postingsFor held (unicode.normalize term)) →
        MmapContentSet.postingForTermLimit unicode report ⟨held.map HeldArchive.archive⟩ term
          limit = .ok (firstOf limit full) := by
  refine ⟨fun held => ⟨fun term full found => held.postingForTermLimit_iff found,
    fun terms ordered => ⟨held.postingsForSortedTermsLimit_iff ordered positive,
      fun volume => held.postingsForSortedTermsVolumeLimit_iff ordered volume positive⟩⟩, ?_⟩
  intro held term full found nothing
  exact MmapContentSet.postingForTermLimit_eq held term positive nothing found

/-- Read with room for one id: the position entry is for the id that is read. -/
theorem limitedLookups_firstIds_together :
    ∃ archive, MmapContentArchive.openArchive [] (fun _ => "")
        (writeContentPostings Unicode.ascii unsortedPostings) = .ok archive ∧
      archive.postingForTermLimit Unicode.ascii (fun _ => "") "beta".toList 1 =
        .ok (some ⟨"Beta".toList, [⟨⟨1⟩, 7⟩], [⟨⟨⟨1⟩, 7⟩, [1, 4]⟩]⟩, true) := by
  rcases MmapContentArchive.openArchive_written Unicode.ascii [] (fun _ => "")
    fits_unsortedPostings (by decide +kernel) with ⟨archive, opened, version, holds⟩
  have stored : (postingOf Unicode.ascii unsortedPostings "beta".toList).map
      (storedAs archive.version) =
        some ⟨"Beta".toList, [⟨⟨1⟩, 7⟩, ⟨⟨2⟩, 1⟩], [⟨⟨⟨1⟩, 7⟩, [1, 4]⟩]⟩ := by
    rw [version]
    decide +kernel
  have full := @MmapContentArchive.Holds.postingForTerm_eq _ (fun _ => "") _ _ holds "beta".toList
  rw [stored] at full
  refine ⟨archive, opened, ?_⟩
  refine (((limitedLookups_firstIds Unicode.ascii (fun _ => "") Nat.one_pos).1
    ⟨archive, unsortedPostings, holds⟩).1 _ _ full).mpr fun posting same => ?_
  rw [← Option.some.inj same]
  exact ⟨by decide, by decide, by decide⟩

/-- The second of the two ids has a position, the first has none. -/
def apartPostings : List ContentPosting :=
  [⟨"beta".toList, [⟨⟨1⟩, 1⟩, ⟨⟨1⟩, 2⟩], [⟨⟨⟨1⟩, 2⟩, [3]⟩]⟩]

theorem fits_apartPostings : ArchiveFits Unicode.ascii apartPostings := by
  refine ⟨?_, by decide, by decide +kernel⟩
  simp only [apartPostings, forall_mem_singleton]
  refine ⟨by decide +kernel, ⟨by decide, by decide, by decide +kernel⟩, ?_, by decide⟩
  simp only [forall_mem_singleton]
  exact ⟨by decide, by decide, by decide⟩

/-- Read with room for one id, the first id comes with the position of the second. -/
theorem limitedLookup_apart :
    ∃ archive, MmapContentArchive.openArchive [] (fun _ => "")
        (writeContentPostings Unicode.ascii apartPostings) = .ok archive ∧
      archive.postingForTerm Unicode.ascii (fun _ => "") "beta".toList =
        .ok (some ⟨"beta".toList, [⟨⟨1⟩, 1⟩, ⟨⟨1⟩, 2⟩], [⟨⟨⟨1⟩, 2⟩, [3]⟩]⟩) ∧
      archive.postingForTermLimit Unicode.ascii (fun _ => "") "beta".toList 1 =
        .ok (some ⟨"beta".toList, [⟨⟨1⟩, 1⟩], [⟨⟨⟨1⟩, 2⟩, [3]⟩]⟩, true) ∧
      archive.postingForTermLimit Unicode.ascii (fun _ => "") "beta".toList 1 ≠
        .ok (firstOf 1 (some ⟨"beta".toList, [⟨⟨1⟩, 1⟩, ⟨⟨1⟩, 2⟩], [⟨⟨⟨1⟩, 2⟩, [3]⟩]⟩)) := by
  rcases MmapContentArchive.openArchive_written Unicode.ascii [] (fun _ => "")
    fits_apartPostings (by decide +kernel) with ⟨archive, opened, version, holds⟩
  have stored : (postingOf Unicode.ascii apartPostings "beta".toList).map
      (storedAs archive.version) =
        some ⟨"beta".toList, [⟨⟨1⟩, 1⟩, ⟨⟨1⟩, 2⟩], [⟨⟨⟨1⟩, 2⟩, [3]⟩]⟩ := by
    rw [version]
    decide +kernel
  have full := @MmapContentArchive.Holds.postingForTerm_eq _ (fun _ => "") _ _ holds "beta".toList
  have limitedOne := @HeldArchive.postingForTermLimit_eq _ (fun _ => "")
    ⟨archive, apartPostings, holds⟩ "beta".toList 1
  rw [HeldArchive.posting, stored] at limitedOne
  rw [stored] at full
  refine ⟨archive, opened, full, limitedOne, fun same => ?_⟩
  rw [limitedOne] at same
  have different : (some (⟨"beta".toList, [⟨⟨1⟩, 1⟩], [⟨⟨⟨1⟩, 2⟩, [3]⟩]⟩ : ContentPosting), true) ≠
      firstOf 1 (some ⟨"beta".toList, [⟨⟨1⟩, 1⟩, ⟨⟨1⟩, 2⟩], [⟨⟨⟨1⟩, 2⟩, [3]⟩]⟩) := by decide
  exact different (Except.ok.inj same)

end Gfm.Store

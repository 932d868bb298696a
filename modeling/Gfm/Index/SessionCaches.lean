import Gfm.Lib.Recency
import Gfm.Store.Records

/-!
# The caches of a content query session

A session keeps postings, records and results of queries in caches of one kind. A use of an entry
gives it a new generation and is written to the end of a queue, where the earlier uses stay until
an eviction or a compaction drops them. The live part of the queue is the list of the entries from
the least recently used one on.
-/

namespace Gfm.Index

open List Recency Sorted

universe u v

section Cache

structure CacheEntry (Value : Type v) where
  generation : Nat
  value : Value

/-- What the three caches have in common: `Key` and `Value` are their own. -/
structure ContentCache (Key : Type u) (Value : Type v) where
  capacity : Nat
  nextGeneration : Nat
  order : List (Nat × Key)
  values : AList fun _ : Key => CacheEntry Value

abbrev ContentPostingCache := ContentCache Text (Option ContentPosting)

abbrev ContentRecordCache := ContentCache FileId Store.FileRecord

/-- The report of a query is passed on as it is. -/
abbrev ContentResultCache (ContentQuerySessionReport : Type v) :=
  ContentCache Text ContentQuerySessionReport

def nextCacheGeneration (nextGeneration : Nat) : Nat × Nat :=
  (nextGeneration, (nextGeneration + 1) % 2 ^ 64)

/-- A queue of the greatest capacity cannot be made, so the addition does not overflow. -/
def maxOrder (capacity : Nat) : Nat := max (min (capacity * 4) (2 ^ 64 - 1)) (capacity + 1)

namespace ContentCache

variable {Key : Type u} {Value : Type v} [DecidableEq Key]

def new (capacity : Nat) : ContentCache Key Value := ⟨capacity, 0, [], ∅⟩

def evict (capacity : Nat) (values : AList fun _ : Key => CacheEntry Value) :
    List (Nat × Key) → List (Nat × Key) × AList fun _ : Key => CacheEntry Value
  | [] => ([], values)
  | expired :: order =>
      if capacity < values.keys.length then
        if (values.lookup expired.2).any (·.generation = expired.1) then
          evict capacity (values.erase expired.2) order
        else evict capacity values order
      else (expired :: order, values)

def evictOverCapacity (cache : ContentCache Key Value) : ContentCache Key Value :=
  let kept := evict cache.capacity cache.values cache.order
  { cache with order := kept.1, values := kept.2 }

def liveOrder (values : AList fun _ : Key => CacheEntry Value) : List (Nat × Key) :=
  sortByKey Prod.fst (values.entries.map fun entry => (entry.2.generation, entry.1))

def compactStaleOrderIfNeeded (cache : ContentCache Key Value) : ContentCache Key Value :=
  if cache.order.length ≤ maxOrder cache.capacity then cache
  else { cache with order := liveOrder cache.values }

/-- A miss draws a generation, too. -/
def get (cache : ContentCache Key Value) (key : Key) : Option Value × ContentCache Key Value :=
  let (generation, nextGeneration) := nextCacheGeneration cache.nextGeneration
  match cache.values.lookup key with
  | none => (none, { cache with nextGeneration })
  | some entry =>
      (some entry.value, compactStaleOrderIfNeeded
        { cache with
          nextGeneration
          values := cache.values.insert key { entry with generation }
          order := cache.order ++ [(generation, key)] })

def insert (cache : ContentCache Key Value) (key : Key) (value : Value) : ContentCache Key Value :=
  if cache.capacity = 0 then cache
  else
    let (generation, nextGeneration) := nextCacheGeneration cache.nextGeneration
    compactStaleOrderIfNeeded (evictOverCapacity
      { cache with
        nextGeneration
        order := cache.order ++ [(generation, key)]
        values := cache.values.insert key ⟨generation, value⟩ })

def clear (cache : ContentCache Key Value) : ContentCache Key Value :=
  { cache with order := [], values := ∅ }

def perform (cache : ContentCache Key Value) : Call Key Value → ContentCache Key Value
  | .get key => (cache.get key).2
  | .insert key value => cache.insert key value
  | .clear => cache.clear

def run (capacity : Nat) (calls : List (Call Key Value)) : ContentCache Key Value :=
  calls.foldl perform (new capacity)

end ContentCache

end Cache

section Queue

variable {Key : Type u} {Value : Type v} [DecidableEq Key]
  {values : AList fun _ : Key => CacheEntry Value} {order : List (Nat × Key)} {key : Key}
  {entry : CacheEntry Value}

/-- A use of an entry is live while the entry has its generation. -/
def live (values : AList fun _ : Key => CacheEntry Value) (mark : Nat × Key) :
    Option (Key × Value) :=
  ((values.lookup mark.2).filter (·.generation = mark.1)).map fun entry => (mark.2, entry.value)

def recency (values : AList fun _ : Key => CacheEntry Value) (order : List (Nat × Key)) :
    List (Key × Value) :=
  order.filterMap (live values)

/-- The uses are in order, and the last one of every entry is among them. -/
structure Linked (values : AList fun _ : Key => CacheEntry Value) (order : List (Nat × Key)) :
    Prop where
  ascending : order.Pairwise fun first second => first.1 < second.1
  listed : ∀ key entry, values.lookup key = some entry → (entry.generation, key) ∈ order

theorem live_eq_some {mark : Nat × Key} {held : Key × Value} :
    live values mark = some held ↔
      ∃ entry, values.lookup mark.2 = some entry ∧ entry.generation = mark.1 ∧
        (mark.2, entry.value) = held := by
  simp only [live, Option.map_eq_some_iff, Option.filter_eq_some_iff, decide_eq_true_eq,
    and_assoc]

theorem live_isSome {mark : Nat × Key} :
    (live values mark).isSome = (values.lookup mark.2).any (·.generation = mark.1) := by
  rw [live, Option.isSome_map, Option.isSome_filter]

theorem mem_recency (linked : Linked values order) {value : Value} :
    (key, value) ∈ recency values order ↔
      ∃ entry, values.lookup key = some entry ∧ entry.value = value := by
  rw [recency, mem_filterMap]
  constructor
  · rintro ⟨⟨generation, own⟩, member, isLive⟩
    rcases live_eq_some.mp isLive with ⟨entry, found, -, same⟩
    cases same
    exact ⟨entry, found, rfl⟩
  · rintro ⟨entry, found, rfl⟩
    exact ⟨_, linked.listed key entry found, live_eq_some.mpr ⟨entry, found, rfl, rfl⟩⟩

theorem nodup_recency (linked : Linked values order) :
    ((recency values order).map Prod.fst).Nodup := by
  refine pairwise_map.mpr (pairwise_filterMap.mpr (linked.ascending.imp ?_))
  intro first second before held isLive held' isLive' same
  rcases live_eq_some.mp isLive with ⟨entry, found, generation, rfl⟩
  rcases live_eq_some.mp isLive' with ⟨entry', found', generation', rfl⟩
  change first.2 = second.2 at same
  rw [same, found'] at found
  cases found
  omega

theorem length_recency (linked : Linked values order) :
    (recency values order).length = values.keys.length := by
  have perm : ((recency values order).map Prod.fst).Perm values.keys := by
    refine (perm_ext_iff_of_nodup (nodup_recency linked) values.keys_nodup).mpr fun key => ?_
    rw [← AList.mem_keys, ← AList.lookup_isSome, Option.isSome_iff_exists, mem_map]
    constructor
    · rintro ⟨⟨own, value⟩, member, rfl⟩
      rcases (mem_recency linked).mp member with ⟨entry, found, -⟩
      exact ⟨entry, found⟩
    · rintro ⟨entry, found⟩
      exact ⟨_, (mem_recency linked).mpr ⟨entry, found, rfl⟩, rfl⟩
  rw [← perm.length_eq, length_map]

/-- A use of a key makes its earlier uses stale. -/
theorem recency_refresh {generation : Nat} {value : Value}
    (latest : ∀ mark ∈ order, mark.1 < generation) :
    recency (values.insert key ⟨generation, value⟩) (order ++ [(generation, key)]) =
      touch (recency values order) key value := by
  have last : live (values.insert key ⟨generation, value⟩) (generation, key) = some (key, value) :=
    live_eq_some.mpr ⟨_, AList.lookup_insert values, rfl, rfl⟩
  rw [recency, filterMap_append, touch, recency, filter_filterMap]
  refine congrArg₂ (· ++ ·) (filterMap_congr fun mark member => Option.ext fun held => ?_) ?_
  · rw [live_eq_some, Option.filter_eq_some_iff, live_eq_some]
    by_cases same : mark.2 = key
    · have before := latest mark member
      subst same
      rw [AList.lookup_insert]
      constructor
      · rintro ⟨_, ⟨⟩, ⟨⟩, -⟩
        exact absurd before (lt_irrefl _)
      · rintro ⟨⟨_, -, -, rfl⟩, different⟩
        exact absurd rfl (of_decide_eq_true different)
    · rw [AList.lookup_insert_ne same]
      refine (and_iff_left_of_imp ?_).symm
      rintro ⟨_, -, -, rfl⟩
      exact decide_eq_true same
  · rw [filterMap_cons, last]
    rfl

theorem linked_refresh (linked : Linked values order) {generation : Nat} {value : Value}
    (latest : ∀ mark ∈ order, mark.1 < generation) :
    Linked (values.insert key ⟨generation, value⟩) (order ++ [(generation, key)]) where
  ascending := by
    refine pairwise_append.mpr ⟨linked.ascending, pairwise_singleton .., ?_⟩
    intro mark member last listed
    rw [mem_singleton.mp listed]
    exact latest mark member
  listed other entry found := by
    by_cases same : other = key
    · subst same
      rw [AList.lookup_insert] at found
      cases found
      exact mem_append_right _ (mem_singleton_self _)
    · rw [AList.lookup_insert_ne same] at found
      exact mem_append_left _ (linked.listed other entry found)

/-- A stale use at the front is dropped for nothing. -/
theorem linked_stale {expired : Nat × Key} (linked : Linked values (expired :: order))
    (stale : live values expired = none) :
    Linked values order ∧ recency values (expired :: order) = recency values order := by
  refine ⟨⟨(pairwise_cons.mp linked.ascending).2, fun key entry found => ?_⟩, ?_⟩
  · refine (mem_cons.mp (linked.listed key entry found)).resolve_left ?_
    rintro rfl
    rw [live_eq_some.mpr ⟨entry, found, rfl, rfl⟩] at stale
    exact Option.some_ne_none _ stale
  · rw [recency, filterMap_cons, stale]
    rfl

/-- A live use at the front is that of the entry that was used the longest ago. -/
theorem linked_expired {expired : Nat × Key} {held : Key × Value}
    (linked : Linked values (expired :: order)) (isLive : live values expired = some held) :
    Linked (values.erase expired.2) order ∧
      recency values (expired :: order) = held :: recency (values.erase expired.2) order := by
  rcases live_eq_some.mp isLive with ⟨entry, found, generation, -⟩
  have ascending := pairwise_cons.mp linked.ascending
  refine ⟨⟨ascending.2, fun key entry' found' => ?_⟩, ?_⟩
  · have different : key ≠ expired.2 := by
      rintro rfl
      rw [AList.lookup_erase] at found'
      exact Option.some_ne_none _ found'.symm
    rw [AList.lookup_erase_ne different] at found'
    refine (mem_cons.mp (linked.listed key entry' found')).resolve_left ?_
    rintro rfl
    exact different rfl
  · rw [recency, filterMap_cons, isLive]
    refine congrArg (held :: ·) (filterMap_congr fun mark member => ?_)
    by_cases same : mark.2 = expired.2
    · have later := ascending.1 mark member
      have stale : entry.generation ≠ mark.1 := generation.trans_ne later.ne
      rw [live, live, same, AList.lookup_erase, found, Option.filter_some,
        if_neg (mt of_decide_eq_true stale), Option.filter_none]
    · rw [live, live, AList.lookup_erase_ne same]

open ContentCache

theorem evict_spec (capacity : Nat) (linked : Linked values order) :
    Linked (evict capacity values order).2 (evict capacity values order).1 ∧
      recency (evict capacity values order).2 (evict capacity values order).1 =
        Recency.evict capacity (recency values order) ∧
      (evict capacity values order).1.Sublist order := by
  induction order generalizing values with
  | nil =>
      exact ⟨linked, (drop_nil ..).symm, List.Sublist.refl _⟩
  | cons expired order ih =>
      have lengths := length_recency linked
      rw [ContentCache.evict, ← live_isSome]
      split
      · rename_i beyond
        cases isLive : live values expired with
        | none =>
            rw [Option.isSome_none, if_neg Bool.false_ne_true]
            have rest := linked_stale linked isLive
            have kept := ih rest.1
            exact ⟨kept.1, kept.2.1.trans (congrArg _ rest.2.symm), kept.2.2.cons _⟩
        | some held =>
            rw [Option.isSome_some, if_pos rfl]
            have rest := linked_expired linked isLive
            have kept := ih rest.1
            refine ⟨kept.1, kept.2.1.trans ?_, kept.2.2.cons _⟩
            rw [rest.2, length_cons] at lengths
            rw [← lengths, Nat.lt_succ_iff] at beyond
            rw [rest.2, Recency.evict, Recency.evict, length_cons, Nat.succ_sub beyond]
            rfl
      · rename_i fits
        refine ⟨linked, ?_, List.Sublist.refl _⟩
        rw [Recency.evict, lengths, Nat.sub_eq_zero_of_le (not_lt.mp fits)]
        rfl

theorem liveOrder_eq (linked : Linked values order) :
    liveOrder values = order.filter fun mark => (live values mark).isSome := by
  have ascending := linked.ascending.filter fun mark => (live values mark).isSome
  refine sortByKey_eq_of_strict ?_ (ascending.imp Nat.compare_eq_lt.mpr)
  have distinct : (values.entries.map fun entry => (entry.2.generation, entry.1)).Nodup := by
    refine List.Nodup.of_map Prod.snd ?_
    rw [map_map]
    exact values.keys_nodup
  have distinct' := ascending.imp fun before same => before.ne (congrArg Prod.fst same)
  refine (perm_ext_iff_of_nodup distinct distinct').mpr fun mark => ?_
  · rw [mem_map, mem_filter, Option.isSome_iff_exists]
    constructor
    · rintro ⟨⟨key, entry⟩, member, rfl⟩
      have found : values.lookup key = some entry := AList.mem_lookup_iff.mpr member
      exact ⟨linked.listed key entry found, _, live_eq_some.mpr ⟨entry, found, rfl, rfl⟩⟩
    · rintro ⟨-, held, isLive⟩
      rcases live_eq_some.mp isLive with ⟨entry, found, generation, -⟩
      exact ⟨⟨mark.2, entry⟩, AList.mem_lookup_iff.mp found, Prod.ext generation rfl⟩

/-- A compaction drops the stale uses, and keeps the order of the others. -/
theorem linked_liveOrder (linked : Linked values order) :
    Linked values (liveOrder values) ∧
      recency values (liveOrder values) = recency values order := by
  rw [liveOrder_eq linked]
  refine ⟨⟨linked.ascending.filter _, fun key entry found => ?_⟩, ?_⟩
  · refine mem_filter.mpr ⟨linked.listed key entry found, ?_⟩
    rw [live_eq_some.mpr ⟨entry, found, rfl, rfl⟩]
    rfl
  · rw [recency, recency, filterMap_filter]
    refine filterMap_congr fun mark _ => ?_
    split
    · rfl
    · rename_i stale
      exact (Option.not_isSome_iff_eq_none.mp stale).symm

omit [DecidableEq Key] in
theorem length_liveOrder : (liveOrder values).length = values.keys.length := by
  rw [liveOrder, (sortByKey_perm ..).length_eq, length_map, AList.keys, List.keys,
    length_map]

end Queue

section Runs

variable {Key : Type u} {Value : Type v} [DecidableEq Key] {cache : ContentCache Key Value}
  {key : Key} {value : Value}

/-- What holds of a cache between two calls. -/
structure CacheKept (cache : ContentCache Key Value) : Prop where
  linked : Linked cache.values cache.order
  latest : ∀ mark ∈ cache.order, mark.1 < cache.nextGeneration
  bounded : cache.order.length ≤ 4 * cache.capacity

open ContentCache

def ContentCache.recency (cache : ContentCache Key Value) : List (Key × Value) :=
  Index.recency cache.values cache.order

theorem CacheKept.nodup (kept : CacheKept cache) : (cache.recency.map Prod.fst).Nodup :=
  nodup_recency kept.linked

theorem length_keys (linked : Linked cache.values cache.order) :
    cache.values.keys.length = cache.recency.length :=
  (length_recency linked).symm

omit [DecidableEq Key] in
theorem capacity_compact : (compactStaleOrderIfNeeded cache).capacity = cache.capacity := by
  rw [compactStaleOrderIfNeeded]
  split <;> rfl

omit [DecidableEq Key] in
theorem nextGeneration_compact :
    (compactStaleOrderIfNeeded cache).nextGeneration = cache.nextGeneration := by
  rw [compactStaleOrderIfNeeded]
  split <;> rfl

theorem maxOrder_le {capacity : Nat} (opened : 0 < capacity) :
    maxOrder capacity ≤ 4 * capacity := by
  unfold maxOrder
  omega

theorem kept_compact (linked : Linked cache.values cache.order)
    (latest : ∀ mark ∈ cache.order, mark.1 < cache.nextGeneration) (opened : 0 < cache.capacity)
    (small : cache.values.keys.length ≤ cache.capacity) :
    CacheKept (compactStaleOrderIfNeeded cache) ∧
      (compactStaleOrderIfNeeded cache).recency = cache.recency := by
  have compacted := linked_liveOrder linked
  rw [compactStaleOrderIfNeeded]
  split
  · rename_i fits
    exact ⟨⟨linked, latest, fits.trans (maxOrder_le opened)⟩, rfl⟩
  · refine ⟨⟨compacted.1, ?_, ?_⟩, compacted.2⟩
    · intro mark member
      rw [liveOrder_eq linked] at member
      exact latest mark (mem_filter.mp member).1
    · change (liveOrder cache.values).length ≤ 4 * cache.capacity
      rw [length_liveOrder]
      omega

/-- What a call does to a cache is what it does to the entries in the order of their uses. -/
structure Performs (cache : ContentCache Key Value) (call : Call Key Value)
    (after : ContentCache Key Value) : Prop where
  kept : CacheKept after
  capacity : after.capacity = cache.capacity
  nextGeneration : after.nextGeneration ≤ cache.nextGeneration + 1
  recency : after.recency = Recency.perform cache.capacity cache.recency call

theorem lookup_recency (linked : Linked cache.values cache.order) :
    cache.recency.lookup key = (cache.values.lookup key).map CacheEntry.value := by
  refine Option.ext fun value => ?_
  rw [ContentCache.recency, lookup_eq_some_iff (nodup_recency linked), mem_recency linked,
    Option.map_eq_some_iff]

theorem nextCacheGeneration_eq {nextGeneration : Nat} (few : nextGeneration + 1 < 2 ^ 64) :
    nextCacheGeneration nextGeneration = (nextGeneration, nextGeneration + 1) := by
  rw [nextCacheGeneration, Nat.mod_eq_of_lt few]

/-- The cache after a use, before anything is evicted or compacted. -/
def refreshed (cache : ContentCache Key Value) (key : Key) (value : Value) :
    ContentCache Key Value :=
  { cache with
    nextGeneration := cache.nextGeneration + 1
    order := cache.order ++ [(cache.nextGeneration, key)]
    values := cache.values.insert key ⟨cache.nextGeneration, value⟩ }

theorem latest_refreshed (kept : CacheKept cache) (key : Key) (value : Value) :
    ∀ mark ∈ (refreshed cache key value).order,
      mark.1 < (refreshed cache key value).nextGeneration := by
  intro mark member
  rcases mem_append.mp member with member | member
  · exact (kept.latest mark member).trans (Nat.lt_succ_self _)
  · rw [mem_singleton.mp member]
    exact Nat.lt_succ_self _

theorem linked_refreshed (kept : CacheKept cache) (key : Key) (value : Value) :
    Linked (refreshed cache key value).values (refreshed cache key value).order :=
  linked_refresh kept.linked kept.latest

theorem recency_refreshed (kept : CacheKept cache) (key : Key) (value : Value) :
    (refreshed cache key value).recency = touch cache.recency key value :=
  recency_refresh kept.latest

theorem performs_get (kept : CacheKept cache) (few : cache.nextGeneration + 1 < 2 ^ 64)
    (small : cache.recency.length ≤ cache.capacity) (key : Key) :
    Performs cache (.get key) (cache.get key).2 := by
  have known : cache.recency.lookup key = (cache.values.lookup key).map CacheEntry.value :=
    lookup_recency kept.linked
  rw [ContentCache.get, nextCacheGeneration_eq few]
  cases found : cache.values.lookup key with
  | none =>
      rw [found] at known
      refine ⟨⟨kept.linked, fun mark member => ?_, kept.bounded⟩, rfl, le_rfl, ?_⟩
      · exact (kept.latest mark member).trans (Nat.lt_succ_self _)
      · rw [Recency.perform, known]
        rfl
  | some entry =>
      rw [found] at known
      have member := mem_of_lookup known
      have touched := recency_refreshed kept key entry.value
      have linked := linked_refreshed kept key entry.value
      have fits : (refreshed cache key entry.value).values.keys.length ≤ cache.capacity := by
        rw [length_keys linked, touched, length_touch_of_mem kept.nodup member]
        exact small
      have opened : 0 < cache.capacity := (length_pos_of_mem member).trans_le small
      have compacted := kept_compact linked (latest_refreshed kept key entry.value) opened fits
      refine ⟨compacted.1, capacity_compact, nextGeneration_compact.le, ?_⟩
      rw [Recency.perform, known]
      exact compacted.2.trans touched

theorem performs_insert (kept : CacheKept cache) (few : cache.nextGeneration + 1 < 2 ^ 64)
    (key : Key) (value : Value) : Performs cache (.insert key value) (cache.insert key value) := by
  rw [ContentCache.insert, nextCacheGeneration_eq few]
  split
  · rename_i closed
    exact ⟨kept, rfl, Nat.le_succ _, (if_pos closed).symm⟩
  · rename_i opened
    have touched := recency_refreshed kept key value
    have linked := linked_refreshed kept key value
    rcases evict_spec cache.capacity linked with ⟨left, evicted, sublist⟩
    have latest : ∀ mark ∈ (evictOverCapacity (refreshed cache key value)).order, _ :=
      fun mark member => latest_refreshed kept key value mark (sublist.subset member)
    have fits : (evictOverCapacity (refreshed cache key value)).values.keys.length ≤
        cache.capacity := by
      rw [length_keys left]
      exact (congrArg List.length evicted).trans_le length_evict_le
    have compacted := kept_compact left latest (Nat.pos_of_ne_zero opened) fits
    refine ⟨compacted.1, capacity_compact, nextGeneration_compact.le, ?_⟩
    rw [Recency.perform, if_neg opened, ← touched]
    exact compacted.2.trans evicted

theorem performs_clear (cache : ContentCache Key Value) : Performs cache .clear cache.clear where
  kept :=
    { linked := ⟨List.Pairwise.nil, fun _ _ found => nomatch found⟩
      latest := fun _ member => nomatch member
      bounded := Nat.zero_le _ }
  capacity := rfl
  nextGeneration := Nat.le_succ _
  recency := rfl

theorem performs (kept : CacheKept cache) (few : cache.nextGeneration + 1 < 2 ^ 64)
    (small : cache.recency.length ≤ cache.capacity) (call : Call Key Value) :
    Performs cache call (cache.perform call) := by
  cases call with
  | get key => exact performs_get kept few small key
  | insert key value => exact performs_insert kept few key value
  | clear => exact performs_clear cache

/-- The entries after some calls, in the order of their uses. -/
structure Runs (capacity : Nat) (calls : List (Call Key Value)) (cache : ContentCache Key Value) :
    Prop where
  kept : CacheKept cache
  bound : cache.capacity = capacity
  nextGeneration : cache.nextGeneration ≤ calls.length
  recency : cache.recency = Recency.run capacity calls

theorem Runs.recorded {capacity : Nat} {calls : List (Call Key Value)}
    (runs : Runs capacity calls cache) : Recorded cache.capacity calls cache.recency := by
  rw [runs.bound, runs.recency]
  exact recorded_run capacity calls

theorem Runs.performs {capacity : Nat} {calls : List (Call Key Value)}
    (runs : Runs capacity calls cache) (few : calls.length + 1 < 2 ^ 64) (call : Call Key Value) :
    Performs cache call (cache.perform call) :=
  Index.performs runs.kept (lt_of_le_of_lt (Nat.succ_le_succ runs.nextGeneration) few)
    runs.recorded.small call

theorem runs_run (capacity : Nat) (calls : List (Call Key Value)) (few : calls.length < 2 ^ 64) :
    Runs capacity calls (ContentCache.run capacity calls) := by
  induction calls using List.reverseRecOn with
  | nil =>
      exact ⟨(performs_clear (new capacity)).kept, rfl, Nat.zero_le _, rfl⟩
  | append_singleton calls call ih =>
      rw [length_append, length_singleton] at few
      have runs := ih (Nat.lt_of_succ_lt few)
      have step := runs.performs few call
      rw [ContentCache.run, foldl_append]
      refine ⟨step.kept, step.capacity.trans runs.bound, ?_, ?_⟩
      · rw [length_append, length_singleton]
        exact step.nextGeneration.trans (Nat.succ_le_succ runs.nextGeneration)
      · rw [Recency.run, foldl_append]
        have entries := step.recency
        rw [runs.bound, runs.recency] at entries
        exact entries

/-- What a cache holds after some calls, and how it keeps the order of their uses. -/
structure Remembers (capacity : Nat) (calls : List (Call Key Value))
    (cache : ContentCache Key Value) : Prop where
  small : cache.values.keys.length ≤ capacity
  hits : ∀ key ∈ cache.values, (lastInserted calls key).isSome ∧
    (cache.get key).1 = lastInserted calls key
  misses : ∀ key ∉ cache.values, (cache.get key).1 = none
  listed : ∀ key entry, cache.values.lookup key = some entry →
    (entry.generation, key) ∈ cache.order
  bounded : cache.order.length ≤ 4 * capacity

/-- What one more call does to the keys of a cache. -/
structure Replaces (capacity : Nat) (calls : List (Call Key Value))
    (cache : ContentCache Key Value) : Prop where
  get : ∀ key other, other ∈ (cache.get key).2.values ↔ other ∈ cache.values
  insert : 0 < capacity → ∀ key value,
    key ∈ cache.values ∨ cache.values.keys.length < capacity →
      ∀ other, other ∈ (cache.insert key value).values ↔ other = key ∨ other ∈ cache.values
  evict : 0 < capacity → ∀ key value, key ∉ cache.values → cache.values.keys.length = capacity →
    ∃ oldest, LeastRecent calls (· ∈ cache.values) oldest ∧
      ∀ other, other ∈ (cache.insert key value).values ↔
        other = key ∨ other ∈ cache.values ∧ other ≠ oldest
  clear : ∀ key, key ∉ cache.clear.values

theorem holds_recency (linked : Linked cache.values cache.order) :
    Holds cache.recency key ↔ key ∈ cache.values := by
  rw [← AList.lookup_isSome, Option.isSome_iff_exists]
  constructor
  · rintro ⟨value, member⟩
    rcases (mem_recency linked).mp member with ⟨entry, found, -⟩
    exact ⟨entry, found⟩
  · rintro ⟨entry, found⟩
    exact ⟨entry.value, (mem_recency linked).mpr ⟨entry, found, rfl⟩⟩

theorem get_value (cache : ContentCache Key Value) (key : Key) :
    (cache.get key).1 = (cache.values.lookup key).map CacheEntry.value := by
  rw [ContentCache.get]
  cases cache.values.lookup key <;> rfl

theorem Runs.remembers {capacity : Nat} {calls : List (Call Key Value)}
    (runs : Runs capacity calls cache) : Remembers capacity calls cache := by
  have linked := runs.kept.linked
  have recorded := runs.recorded
  constructor
  case small =>
    rw [length_keys linked, ← runs.bound]
    exact recorded.small
  case hits =>
    intro key held
    rcases (holds_recency linked).mpr held with ⟨value, member⟩
    rw [get_value, ← lookup_recency linked, (lookup_eq_some_iff recorded.nodup).mpr member,
      recorded.inserted _ member]
    exact ⟨rfl, rfl⟩
  case misses =>
    intro key absent
    rw [get_value, AList.lookup_eq_none.mpr absent]
    rfl
  case listed => exact linked.listed
  case bounded => exact runs.bound ▸ runs.kept.bounded

theorem Runs.replaces {capacity : Nat} {calls : List (Call Key Value)}
    (runs : Runs capacity calls cache) (few : calls.length + 1 < 2 ^ 64) :
    Replaces capacity calls cache := by
  have recorded := runs.recorded
  have keys : ∀ key, Holds cache.recency key ↔ key ∈ cache.values :=
    fun _ => holds_recency runs.kept.linked
  have after : ∀ call other, other ∈ (cache.perform call).values ↔
      Holds (Recency.perform cache.capacity cache.recency call) other := by
    intro call other
    have step := runs.performs few call
    rw [← step.recency]
    exact (holds_recency step.kept.linked).symm
  constructor
  case get =>
    intro key other
    exact (after (.get key) other).trans (holds_get.trans (keys other))
  case insert =>
    intro opened key value spare other
    rw [← runs.bound] at opened spare
    rw [← keys, length_keys runs.kept.linked] at spare
    rw [← keys other]
    exact (after (.insert key value) other).trans (recorded.holds_insert opened spare)
  case evict =>
    intro opened key value absent full
    rw [← runs.bound] at opened full
    rw [← keys] at absent
    rw [length_keys runs.kept.linked] at full
    have same : Holds cache.recency = (· ∈ cache.values) := funext fun key => propext (keys key)
    rcases recorded.holds_insert_full opened absent full with ⟨oldest, leastRecent, kept⟩
    rw [same] at leastRecent kept
    exact ⟨oldest, leastRecent, fun other => (after (.insert key value) other).trans (kept other)⟩
  case clear =>
    intro key member
    exact absurd member (AList.notMem_empty key)

end Runs

section Calls

variable {Key : Type u} {Value : Type v} [DecidableEq Key]

/-- Whatever is called: the caches keep the entries that were used last, and find in them what was
inserted last. -/
theorem contentCache_run (capacity : Nat) (calls : List (Call Key Value))
    (few : calls.length < 2 ^ 64) :
    Remembers capacity calls (ContentCache.run capacity calls) ∧
      (calls.length + 1 < 2 ^ 64 →
        Replaces capacity calls (ContentCache.run capacity calls)) := by
  have runs := runs_run capacity calls few
  exact ⟨runs.remembers, runs.replaces⟩

/-- A third key evicts the one that was not asked for. -/
theorem contentCache_run_full :
    Remembers 2 [.insert 7 "a", .insert 8 "b", .get 7, .insert 9 "c"]
        (ContentCache.run 2 [.insert 7 "a", .insert 8 "b", .get 7, .insert 9 "c"]) ∧
      Replaces 2 [.insert 7 "a", .insert 8 "b", .get 7, .insert 9 "c"]
        (ContentCache.run 2 [.insert 7 "a", .insert 8 "b", .get 7, .insert 9 "c"]) ∧
      8 ∉ (ContentCache.run 2 [.insert 7 "a", .insert 8 "b", .get 7, .insert 9 "c"]).values :=
  have runs := contentCache_run 2 [.insert 7 "a", .insert 8 "b", .get 7, .insert 9 "c"] (by decide)
  ⟨runs.1, runs.2 (by decide), by decide⟩

end Calls

end Gfm.Index

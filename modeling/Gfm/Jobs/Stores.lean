import Gfm.Jobs.Basic
import Gfm.Lib.Replacing

/-!
# The stores of job progress and of job payloads

Both stores are one file of records, with a record for each job: here a file is the list of its
records. An update reads the file, changes the record of its job and replaces the file by a
temporary one of its own. The progress store keeps its records sorted; the payload catalog
reads the last record of each job in the place of the first.
-/

namespace Gfm.Jobs

open List Replacing

inductive JobProgressState where
  | planned
  | running
  | paused
  | completed
  | cancelled
  | failed
  deriving DecidableEq, Repr

structure JobProgressSnapshot where
  id : JobId
  jobClass : JobClass
  priority : Priority
  label : String
  volume : Option VolumeId
  state : JobProgressState
  completedUnits : Nat
  totalUnits : Nat
  detail : String
  updatedMs : Nat
  deriving DecidableEq, Repr

structure JobPayloadRecord where
  id : JobId
  kind : JobPayloadKind
  label : String
  payloadPath : Path
  volume : Option VolumeId
  summary : String
  deriving DecidableEq, Repr

section Lists

variable {Record : Type} (key : Record → JobId)

/-- The first record with the id of the new one, replaced by it. -/
def setFirst (new : Record) : List Record → List Record
  | [] => []
  | record :: records =>
      if key record = key new then new :: records else record :: setFirst new records

/-- The record in the place of the one with its id, or at the end. -/
def place (records : List Record) (record : Record) : List Record :=
  if records.any (key · = key record) then setFirst key record records else records ++ [record]

def recordOf (records : List Record) (id : JobId) : Option Record := records.find? (key · = id)

variable {key} {records : List Record} {record : Record}

theorem recordOf_place (id : JobId) : recordOf key (place key records record) id =
    if key record = id then some record else recordOf key records id := by
  unfold place
  split
  case isTrue present =>
    induction records with
    | nil => simp at present
    | cons first records ih =>
        unfold setFirst
        by_cases same : key first = key record
        · by_cases asked : key record = id
          · simp [same, asked, recordOf]
          · simp [same, asked, recordOf]
        · have later : records.any (key · = key record) := by simpa [same] using present
          simp only [same, if_false, recordOf, find?_cons]
          by_cases asked : key first = id
          · have other : ¬key record = id := fun equal => same (asked.trans equal.symm)
            simp [asked, other]
          · simpa [asked, recordOf] using ih later
  case isFalse absent =>
    simp only [recordOf, find?_append, find?_singleton]
    by_cases asked : key record = id
    · have none : records.find? (key · = id) = none := by
        apply find?_eq_none.mpr
        intro other among found
        apply absent
        refine any_eq_true.mpr ⟨other, among, ?_⟩
        simpa [asked] using found
      simp [asked, none]
    · simp [asked]

theorem map_setFirst : (setFirst key record records).map key = records.map key := by
  induction records with
  | nil => rfl
  | cons first records ih =>
      unfold setFirst
      split
      case isTrue same => simp [same]
      case isFalse _ => simp [ih]

theorem nodup_place (distinct : (records.map key).Nodup) :
    ((place key records record).map key).Nodup := by
  unfold place
  split
  case isTrue _ =>
    rw [map_setFirst]
    exact distinct
  case isFalse absent =>
    rw [map_append, nodup_append_comm]
    refine nodup_cons.mpr ⟨fun among => absent ?_, distinct⟩
    rcases mem_map.mp among with ⟨other, present, same⟩
    exact any_eq_true.mpr ⟨other, present, decide_eq_true same⟩

theorem nodup_foldl_place {added : List Record} (distinct : (records.map key).Nodup) :
    ((added.foldl (place key) records).map key).Nodup := by
  induction added generalizing records with
  | nil => exact distinct
  | cons record added ih => exact ih (nodup_place distinct)

/-- Records with distinct ids are read as they are. -/
theorem foldl_place_eq {added : List Record} (distinct : ((records ++ added).map key).Nodup) :
    added.foldl (place key) records = records ++ added := by
  induction added generalizing records with
  | nil => simp
  | cons record added ih =>
      have placed : place key records record = records ++ [record] := by
        apply if_neg
        intro present
        rcases any_eq_true.mp present with ⟨other, among, same⟩
        have apart := (nodup_append.mp (map_append ▸ distinct)).2.2
        exact apart (key other) (mem_map_of_mem among) (key record) (by simp)
          (of_decide_eq_true same)
      rw [foldl_cons, placed, ih]
      · simp
      · simpa using distinct

/-- A stable sort by id finds the same records. -/
theorem recordOf_insertionSort (id : JobId) :
    recordOf key (records.insertionSort fun left right => (key left).value ≤ (key right).value) id =
      recordOf key records id := by
  have sorted : (records.filter (key · = id)).Pairwise fun left right =>
    (key left).value ≤ (key right).value := by
    apply List.Pairwise.imp_of_mem (R := fun _ _ => True)
    · intro left right leftIn rightIn _
      have leftId : key left = id := by simpa using (mem_filter.mp leftIn).2
      have rightId : key right = id := by simpa using (mem_filter.mp rightIn).2
      rw [leftId, rightId]
    · exact pairwise_of_forall fun _ _ => trivial
  have kept := (sublist_insertionSort (r := fun left right : Record =>
    (key left).value ≤ (key right).value)
    sorted filter_sublist).filter (key · = id)
  simp only [filter_filter, Bool.and_self] at kept
  have whole := kept.eq_of_length (((perm_insertionSort _ records).filter _).length_eq.symm)
  rw [recordOf, recordOf, ← head?_filter, ← head?_filter]
  simp only [← whole]

/-- What an update writes: nothing where the record is there already. -/
def upsertRecord [DecidableEq Record] (key : Record → JobId) (arrange : List Record → List Record)
    (records : List Record) (record : Record) : Option (List Record) :=
  if recordOf key records (key record) = some record then none
  else some (arrange (place key records record))

theorem upsertRecord_lawful [DecidableEq Record] {read arrange : List Record → List Record}
    (empty : read [] = [])
    (reads : ∀ records record id,
      recordOf key (read (arrange (place key (read records) record))) id =
      recordOf key (place key (read records) record) id) :
    (Store.mk key read (upsertRecord key arrange)).Lawful := by
  have written : ∀ {records record after}, upsertRecord key arrange (read records) record =
    some after →
      recordOf key (read records) (key record) ≠ some record ∧
        ∀ id, recordOf key (read after) id =
          if key record = id then some record else recordOf key (read records) id := by
    intro records record after changed
    unfold upsertRecord at changed
    split at changed
    case isTrue _ => contradiction
    case isFalse new =>
      cases changed
      refine ⟨new, fun id => ?_⟩
      rw [reads, recordOf_place]
  exact {
    empty
    stored := fun changed => ((written changed).2 _).trans (if_pos rfl)
    unchanged := fun {records record} same => by
      change upsertRecord key arrange (read records) record = none at same
      unfold upsertRecord at same
      split at same
      case isTrue there => exact there
      case isFalse _ => contradiction
    kept := fun changed other => ((written changed).2 _).trans (if_neg fun same => other same.symm)
    changed := fun changed => (written changed).1 }

end Lists

def JobProgressStore : Store JobProgressSnapshot JobId where
  key := JobProgressSnapshot.id
  read := fun snapshots => snapshots
  upsert := upsertRecord JobProgressSnapshot.id fun snapshots =>
    snapshots.insertionSort fun left right => left.id.value ≤ right.id.value

def JobPayloadCatalog : Store JobPayloadRecord JobId where
  key := JobPayloadRecord.id
  read := fun records => records.foldl (place JobPayloadRecord.id) []
  upsert := upsertRecord JobPayloadRecord.id fun records => records

theorem jobProgressStore_lawful : JobProgressStore.Lawful := by
  apply upsertRecord_lawful rfl
  intro records record id
  exact recordOf_insertionSort id

theorem jobPayloadCatalog_lawful : JobPayloadCatalog.Lawful := by
  apply upsertRecord_lawful rfl
  intro records record id
  have distinct :
    ((place JobPayloadRecord.id (records.foldl (place JobPayloadRecord.id) []) record).map
      JobPayloadRecord.id).Nodup := nodup_place (nodup_foldl_place nodup_nil)
  rw [foldl_place_eq (by simpa using distinct), nil_append]

section Updates

variable {Record : Type}

/-- Two updates of different jobs, in any interleaving, that have both returned: both records are
stored exactly if at no moment both had read the file and were about to replace it. -/
def UpdatesStoredIff (store : Store Record JobId) : Prop :=
  ∀ records : Bool → Record, store.key (records false) ≠ store.key (records true) →
    ∀ (file : Option (List Record)) (schedule : List Step),
      (∀ update, ((System.start file).run store records schedule).Returned update) →
        ((∀ update,
          System.Stored store records ((System.start file).run store records schedule) update) ↔
          ∀ done, done <+: schedule → ¬((System.start file).run store records done).Overlaps)

theorem updates_stored_iff : UpdatesStoredIff JobProgressStore ∧
    UpdatesStoredIff JobPayloadCatalog :=
  ⟨fun _ distinct file schedule returned =>
      System.stored_iff jobProgressStore_lawful distinct file schedule returned,
    fun _ distinct file schedule returned =>
      System.stored_iff jobPayloadCatalog_lawful distinct file schedule returned⟩

def snapshotOf (job : Bool) : JobProgressSnapshot :=
  ⟨⟨if job then 2 else 1⟩, .visible, .visible, "index", none, .running, 0, 1, "", 0⟩

/-- Both updates find no store, and the second one replaces the file of the first. -/
theorem update_lost :
    ¬∀ schedule,
      (∀ update, ((System.start none).run JobProgressStore snapshotOf schedule).Returned update) →
      ∀ update, System.Stored JobProgressStore snapshotOf
        ((System.start none).run JobProgressStore snapshotOf schedule) update := by
  intro kept
  have stored := kept [⟨false, false⟩, ⟨true, false⟩, ⟨false, false⟩, ⟨true, false⟩]
    (fun update => by cases update <;> rfl) false
  unfold System.Stored at stored
  exact absurd stored (by decide +kernel)

end Updates

end Gfm.Jobs

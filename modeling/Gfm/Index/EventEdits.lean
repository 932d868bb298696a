import Gfm.Index.RenameExact
import Gfm.Lib.Edits

/-!
# Events as edits of the records

What an event that nothing interrupts does to the records of a live index, as an action that takes
records out and puts others in. The file system is as it is after all changes.
-/

namespace Gfm.Index

open Edits Interruptible List Search

/-- What the file system has at a path. -/
abbrev Files := Text → Option FileRecord

def quiet : Control GfmError := fun _ => none

def answerAt (files : Files) (path : Text) : FileAnswer where
  checks := 0
  outcome := match files path with
    | some found => .ok found
    | none => .error (.io [] "No such file or directory")

/-- The path that an event makes the index look up. -/
def subject (event : FileEvent) : Text :=
  match event.kind with
  | .rename _ target => target
  | _ => event.path

def applyEvent (unicode : Unicode) (files : Files) (index : ShardedSearchIndex)
    (event : FileEvent) : ShardedSearchIndex :=
  Change.apply unicode index (.event quiet (answerAt files (subject event)) event)

section Actions

variable (files : Files)

def upsertAction (path : Text) : Action FileRecord where
  reads := fun _ => False
  edit := fun _ =>
    match files path with
    | some found =>
        ⟨fun record => record.path = path ∨ record.id = found.id, {recordAt path found}⟩
    | none => ⟨fun _ => False, ∅⟩
  local_edit := fun _ _ _ => rfl

def removeAction (root : Text) : Action FileRecord where
  reads := fun _ => False
  edit := fun _ => ⟨fun record => Below root record.path, ∅⟩
  local_edit := fun _ _ _ => rfl

/-- The records that a rename puts in. -/
def movedSet (source target : Text) (found : FileRecord) (store : Set FileRecord) :
    Set FileRecord :=
  {record | ∃ old ∈ store, Below source old.path ∧
    movedRecord old source target (recordAt target found) = some record}

open Classical in
noncomputable def renameAction (source target : Text) : Action FileRecord where
  reads := fun record => Below source record.path
  edit := fun store =>
    if ∃ old ∈ store, Below source old.path then
      match files target with
      | some found =>
          ⟨fun record => Below source record.path ∨ ∃ moved ∈ movedSet source target found store,
              record.path = moved.path ∨ record.id = moved.id,
            movedSet source target found store⟩
      | none => ⟨fun record => Below source record.path, ∅⟩
    else (upsertAction files target).edit store
  local_edit := by
    intro store other same
    have some : (∃ old ∈ store, Below source old.path) ↔ ∃ old ∈ other, Below source old.path := by
      constructor
      · rintro ⟨old, member, below⟩
        exact ⟨old, (same old below).mp member, below⟩
      · rintro ⟨old, member, below⟩
        exact ⟨old, (same old below).mpr member, below⟩
    have moved (found : FileRecord) : movedSet source target found store =
        movedSet source target found other := by
      ext record
      constructor
      · rintro ⟨old, member, below, isMoved⟩
        exact ⟨old, (same old below).mp member, below, isMoved⟩
      · rintro ⟨old, member, below, isMoved⟩
        exact ⟨old, (same old below).mpr member, below, isMoved⟩
    simp only [some, moved]
    rfl

/-- The action of an event. -/
noncomputable def eventAction (event : FileEvent) : Action FileRecord :=
  match event.kind with
  | .create | .other | .metadata | .modify => upsertAction files event.path
  | .remove => removeAction event.path
  | .rename source target => renameAction files source target
  | .rescan => ⟨fun _ => False, fun _ => ⟨fun _ => False, ∅⟩, fun _ _ _ => rfl⟩

end Actions

section Records

variable {unicode : Unicode} {files : Files} {index after : ShardedSearchIndex}

/-- An insert takes out the record at its path and the one that has its id. -/
theorem mem_records_replaced (coherent : index.Coherent) {fresh record : FileRecord} :
    record ∈ ((replacedId unicode index fresh).2.insert unicode fresh).records ↔
      record = fresh ∨
        (record ∈ index.records ∧ ¬(record.path = fresh.path ∨ record.id = fresh.id)) := by
  rcases replaced_spec unicode coherent fresh with ⟨cleared, member, -, takenOut⟩
  have live : ∀ old ∈ (replacedId unicode index fresh).1.toList ++
      (index.removePath unicode fresh.path).1.toList, old ∈ index.records :=
    fun old listed => ((member old).mp listed).1
  rw [ShardedSearchIndex.mem_records_insert unicode cleared,
    mem_records_takenOut coherent cleared live takenOut, member]
  tauto

/-- Looking a path up changes nothing. -/
theorem recordForPath_quiet (path : Text) (start : Clocked ShardedSearchIndex) :
    recordForPathChecked quiet (answerAt files path) path start =
      match files path with
      | some found => .ok (recordAt path found) start
      | none => .error (.io [] "No such file or directory") start := by
  simp only [recordForPathChecked, answerAt, checkTimes, bind, EStateM.bind]
  cases files path <;> rfl

theorem check_quiet (start : Clocked ShardedSearchIndex) :
    check quiet start = .ok ⟨⟩ (start.advance 1) := rfl

theorem state_upsert (event : FileEvent)
    (upserts : event.kind = .create ∨ event.kind = .other ∨ event.kind = .metadata ∨
      event.kind = .modify) :
    applyEvent unicode files index event =
      match files event.path with
      | some found =>
          (replacedId unicode index (recordAt event.path found)).2.insert unicode
            (recordAt event.path found)
      | none => index := by
  rcases event with ⟨path, kind⟩
  rcases upserts with rfl | rfl | rfl | rfl <;>
  simp only [applyEvent, Change.apply, subject, applyEventChecked, upsertPathChecked,
    applyMetadataUpdateChecked, bind, EStateM.bind, check_quiet, recordForPath_quiet] <;>
  cases files path with
  | some found =>
      simp only [insertRecordTransactional_apply, quiet]
      rfl
  | none => rfl

theorem state_remove (path : Text) :
    applyEvent unicode files index ⟨path, .remove⟩ = (index.removeSubtree unicode path).2 := by
  simp only [applyEvent, Change.apply, applyEventChecked, bind, EStateM.bind, check_quiet,
    removeSubtreeTransactional_apply, quiet]
  rfl

theorem moveEach_quiet {undo : ShardedSearchIndex → ShardedSearchIndex} {source target : Text}
    {freshRoot : FileRecord} (removed : List FileRecord) (start : Clocked ShardedSearchIndex) :
    moveEach quiet undo source target freshRoot removed start =
      .ok (removed.filterMap fun old => movedRecord old source target freshRoot)
        (start.advance removed.length) :=
  (guarded_moveEach removed start).2 fun _ _ => rfl

theorem state_rename (path source target : Text) :
    applyEvent unicode files index ⟨path, .rename source target⟩ =
      if (index.removeSubtree unicode source).1 = [] then
        match files target with
        | some found =>
            (index.removeSubtree unicode source).2.insert unicode (recordAt target found)
        | none => (index.removeSubtree unicode source).2
      else
        match files target with
        | some found => restoreRecords unicode (movedRecords unicode index source target found)
            (index.removeSubtree unicode source).2
        | none => (index.removeSubtree unicode source).2 := by
  simp only [applyEvent, Change.apply, subject, applyEventChecked, correlateRenameChecked, bind,
    EStateM.bind, check_quiet, onIndex, undoing, Clocked.state_advance, movedRecords]
  cases removed : (index.removeSubtree unicode source).1 with
  | nil =>
      simp only [isEmpty_nil, if_true, EStateM.bind, recordForPath_quiet, check_quiet]
      cases files target <;> rfl
  | cons first rest =>
      simp only [isEmpty_cons, Bool.false_eq_true, if_false, reduceCtorEq, EStateM.bind,
        freshRootOf, recordForPath_quiet]
      cases files target with
      | none => rfl
      | some found =>
          simp only [EStateM.bind, moveEach_quiet, undoing, check_quiet]
          rfl

end Records

section Absolute

variable {source target path rest : Text}

/-- Names between separators, as components spell them. -/
def Spoken (rest : Text) : Prop := ∀ piece ∈ rest.splitOn '/', voidPiece piece = false

/-- The root of the file system, or a path from there. -/
def Absolute (path : Text) : Prop := path.head? = some '/' ∧ (path.tail = [] ∨ Spoken path.tail)

instance (path : Text) : Decidable (Absolute path) :=
  inferInstanceAs (Decidable (_ ∧ (_ ∨ ∀ _ ∈ _, _)))

theorem absolute_iff :
    Absolute path ↔ ∃ rest, path = '/' :: rest ∧ (rest = [] ∨ Spoken rest) := by
  cases path <;> simp [Absolute]

theorem spoken_below : Spoken (source ++ '/' :: rest) ↔ Spoken source ∧ Spoken rest := by
  simp only [Spoken, splitOn_below, mem_append, or_imp, forall_and]

theorem Spoken.ne_nil (spoken : Spoken rest) : rest ≠ [] := by
  rintro rfl
  exact absurd (spoken [] (by decide)) (by decide)

theorem Spoken.head (spoken : Spoken rest) : rest.head? ≠ some '/' := by
  intro leading
  rcases head?_eq_some_iff.mp leading with ⟨others, rfl⟩
  exact (spoken_below.mp (show Spoken ([] ++ '/' :: others) from spoken)).1.ne_nil rfl

theorem Spoken.spelled (spoken : Spoken rest) : Spelled rest := by
  rcases exists_mem_of_ne_nil _ (splitOn_ne_nil '/' rest) with ⟨piece, member⟩
  refine ⟨⟨piece, member, spoken piece member⟩, ?_⟩
  have inner : innerPieces rest = rest.splitOn '/' := by
    have front : (rest.splitOn '/').dropWhile voidPiece = rest.splitOn '/' := by
      rw [dropWhile_eq_self_iff]
      intro nonempty
      simp [spoken _ (getElem_mem nonempty)]
    have back : (rest.splitOn '/').rdropWhile voidPiece = rest.splitOn '/' := by
      rw [rdropWhile_eq_self_iff]
      intro nonempty
      simp [spoken _ (getLast_mem nonempty)]
    rw [innerPieces, front, back]
  rw [inner, intercalate_splitOn]

theorem renamedPath_spoken (named : source ≠ []) (spoken : Spoken rest) :
    renamedPath (source ++ '/' :: rest) source target = some (joinPath target rest) := by
  rw [renamedPath_join named spoken.spelled.1, spoken.spelled.2]

/-- A separator stands between where the target has none at its end. -/
theorem joinPath_spoken (target : Text) :
    ∃ lead, ∀ rest, Spoken rest → joinPath target rest = target ++ (lead ++ rest) := by
  by_cases empty : target = []
  · exact ⟨[], fun rest spoken => by rw [joinPath, if_pos (Or.inr empty), empty]; rfl⟩
  · by_cases trailing : target.getLast? = some '/'
    · refine ⟨[], fun rest spoken => ?_⟩
      rw [joinPath, if_neg (not_or.mpr ⟨spoken.head, empty⟩), if_pos trailing]
      rfl
    · refine ⟨['/'], fun rest spoken => ?_⟩
      rw [joinPath, if_neg (not_or.mpr ⟨spoken.head, empty⟩), if_neg trailing]
      rfl

/-- A path at or below a source, from there on as components spell it. -/
def SpokenBelow (source path : Text) : Prop :=
  path = source ∨ ∃ rest, path = source ++ '/' :: rest ∧ Spoken rest

/-- Each path below the source is moved to a path of its own. -/
theorem SpokenBelow.eq_of_renamed {other : Text} (named : source ≠ [])
    (first : SpokenBelow source path) (second : SpokenBelow source other)
    (same : renamedPath path source target = renamedPath other source target) : path = other := by
  rcases joinPath_spoken target with ⟨lead, joined⟩
  have whole : renamedPath source source target = some target := if_pos rfl
  have further {rest : Text} (spoken : Spoken rest) : target ++ (lead ++ rest) ≠ target := by
    rw [Ne, append_right_eq_self, append_eq_nil_iff]
    exact fun empty => spoken.ne_nil empty.2
  rcases first with rfl | ⟨rest, rfl, spoken⟩ <;>
    rcases second with rfl | ⟨others, rfl, spokenOthers⟩
  · rfl
  · rw [whole, renamedPath_spoken named spokenOthers, joined others spokenOthers,
      Option.some.injEq] at same
    exact absurd same.symm (further spokenOthers)
  · rw [whole, renamedPath_spoken named spoken, joined rest spoken, Option.some.injEq] at same
    exact absurd same (further spoken)
  · rw [renamedPath_spoken named spoken, renamedPath_spoken named spokenOthers,
      joined rest spoken, joined others spokenOthers, Option.some.injEq,
      append_cancel_left_eq, append_cancel_left_eq] at same
    rw [same]

theorem Absolute.ne_nil (absolute : Absolute path) : path ≠ [] := by
  rintro rfl
  cases absolute.1

theorem Absolute.below (absolute : Absolute path) (absoluteSource : Absolute source)
    (below : Below source path) : SpokenBelow source path := by
  refine (below_iff.mp below).imp_right ?_
  rintro ⟨rest, rfl⟩
  rcases absolute_iff.mp absoluteSource with ⟨front, rfl, -⟩
  rcases absolute.2 with empty | spoken
  · simp at empty
  · exact ⟨rest, rfl, (spoken_below.mp spoken).2⟩

theorem Absolute.renamed (absolute : Absolute path) (absoluteSource : Absolute source)
    (absoluteTarget : Absolute target) (below : Below source path) :
    ∃ moved, renamedPath path source target = some moved ∧ Absolute moved := by
  rcases absolute.below absoluteSource below with rfl | ⟨rest, rfl, spoken⟩
  · exact ⟨target, if_pos rfl, absoluteTarget⟩
  · refine ⟨_, renamedPath_spoken absoluteSource.ne_nil spoken, ?_⟩
    rcases absolute_iff.mp absoluteTarget with ⟨front, rfl, rfl | spokenFront⟩
    · rw [joinPath, if_neg (not_or.mpr ⟨spoken.head, cons_ne_nil _ _⟩)]
      exact ⟨rfl, Or.inr spoken⟩
    · have ends : ('/' :: front).getLast? ≠ some '/' := by
        rw [getLast?_cons_of_ne_nil spokenFront.ne_nil]
        intro trailing
        rcases getLast?_eq_some_iff.mp trailing with ⟨others, rfl⟩
        exact (spoken_below.mp spokenFront).2.ne_nil rfl
      rw [joinPath, if_neg (not_or.mpr ⟨spoken.head, cons_ne_nil _ _⟩), if_neg ends]
      exact ⟨rfl, Or.inr (spoken_below.mpr ⟨spokenFront, spoken⟩)⟩

end Absolute

section Refinement

variable {unicode : Unicode} {files : Files} {index : ShardedSearchIndex}

/-- The paths of an event are absolute. -/
def AbsoluteEvent (event : FileEvent) : Prop :=
  match event.kind with
  | .rename source target => Absolute source ∧ Absolute target
  | _ => Absolute event.path

def recordSet (index : ShardedSearchIndex) : Set FileRecord := {record | record ∈ index.records}

theorem recordSet_upsert {event : FileEvent} (coherent : index.Coherent)
    (upserts : event.kind = .create ∨ event.kind = .other ∨ event.kind = .metadata ∨
      event.kind = .modify) :
    recordSet (applyEvent unicode files index event) =
      (upsertAction files event.path).run (recordSet index) := by
  ext record
  rw [state_upsert event upserts, Action.mem_run]
  simp only [recordSet, Set.mem_ofPred_eq, upsertAction]
  cases files event.path with
  | some found => exact mem_records_replaced coherent
  | none => simp

theorem recordSet_remove (coherent : index.Coherent) (path : Text) :
    recordSet (applyEvent unicode files index ⟨path, .remove⟩) =
      (removeAction path).run (recordSet index) := by
  ext record
  rw [state_remove, Action.mem_run]
  simp only [recordSet, Set.mem_ofPred_eq, removeAction, Set.mem_empty_iff_false, false_or]
  exact mem_records_removeSubtree coherent

theorem recordSet_rename {source target : Text} (coherent : index.Coherent) (path : Text)
    (injective : ∀ left ∈ index.records, ∀ right ∈ index.records, Below source left.path →
      Below source right.path →
      renamedPath left.path source target = renamedPath right.path source target →
      left.path = right.path) :
    recordSet (applyEvent unicode files index ⟨path, .rename source target⟩) =
      (renameAction files source target).run (recordSet index) := by
  have cleared := coherent.removeSubtree unicode source
  have some : (∃ old ∈ recordSet index, Below source old.path) ↔
      (index.removeSubtree unicode source).1 ≠ [] := by
    constructor
    · rintro ⟨old, member, below⟩
      exact ne_nil_of_mem ((mem_removed coherent).mpr ⟨member, below⟩)
    · intro nonempty
      rcases exists_mem_of_ne_nil _ nonempty with ⟨old, removed⟩
      exact ⟨old, (mem_removed coherent).mp removed⟩
  ext record
  rw [state_rename, Action.mem_run]
  simp only [renameAction, some, ne_eq, ite_not]
  by_cases none : (index.removeSubtree unicode source).1 = []
  · have spared : ∀ old ∈ index.records, ¬Below source old.path := by
      intro old member below
      exact some.mp ⟨old, member, below⟩ none
    simp only [none, if_true, upsertAction]
    cases files target with
    | some found =>
        simp only [recordSet, Set.mem_ofPred_eq, ShardedSearchIndex.mem_records_insert unicode
          cleared, mem_records_removeSubtree coherent, Set.mem_singleton_iff, recordAt]
        have := spared record
        tauto
    | none =>
        simp only [recordSet, Set.mem_ofPred_eq, mem_records_removeSubtree coherent,
          Set.mem_empty_iff_false, false_or]
        have := spared record
        tauto
  · simp only [none, if_false]
    cases files target with
    | some found =>
        have moved : ∀ other, other ∈ movedRecords unicode index source target found ↔
            other ∈ movedSet source target found (recordSet index) :=
          fun other => mem_movedRecords coherent
        simp only [recordSet, Set.mem_ofPred_eq, restoreRecords]
        rw [ShardedSearchIndex.mem_records_foldl_insert unicode cleared
          (apart_movedRecords coherent injective), moved, mem_records_removeSubtree coherent]
        simp only [moved, not_or, not_exists, not_and]
        constructor
        · rintro (isMoved | ⟨⟨member, notBelow⟩, apart⟩)
          · exact Or.inl isMoved
          · exact Or.inr ⟨member, notBelow, apart⟩
        · rintro (isMoved | ⟨member, notBelow, apart⟩)
          · exact Or.inl isMoved
          · exact Or.inr ⟨⟨member, notBelow⟩, apart⟩
    | none =>
        simp only [recordSet, Set.mem_ofPred_eq, mem_records_removeSubtree coherent,
          Set.mem_empty_iff_false, false_or]

/-- What an event does to the records of an index with absolute paths. -/
theorem recordSet_applyEvent {event : FileEvent} (coherent : index.Coherent)
    (absolute : ∀ record ∈ recordSet index, Absolute record.path)
    (absoluteEvent : AbsoluteEvent event) :
    recordSet (applyEvent unicode files index event) =
      (eventAction files event).run (recordSet index) := by
  rcases event with ⟨path, kind⟩
  cases kind with
  | create => exact recordSet_upsert coherent (Or.inl rfl)
  | other => exact recordSet_upsert coherent (Or.inr (Or.inl rfl))
  | metadata => exact recordSet_upsert coherent (Or.inr (Or.inr (Or.inl rfl)))
  | modify => exact recordSet_upsert coherent (Or.inr (Or.inr (Or.inr rfl)))
  | remove => exact recordSet_remove coherent path
  | rename source target =>
      apply recordSet_rename coherent path
      intro left leftMem right rightMem leftBelow rightBelow same
      have first := (absolute left leftMem).below absoluteEvent.1 leftBelow
      have second := (absolute right rightMem).below absoluteEvent.1 rightBelow
      exact first.eq_of_renamed absoluteEvent.1.ne_nil second same
  | rescan =>
      ext record
      simp only [Action.mem_run, eventAction, Set.mem_empty_iff_false, false_or, not_false_eq_true,
        and_true]
      exact Iff.rfl

/-- Events keep the paths absolute. -/
theorem absolute_run {event : FileEvent} {store : Set FileRecord}
    (absolute : ∀ record ∈ store, Absolute record.path) (absoluteEvent : AbsoluteEvent event) :
    ∀ record ∈ (eventAction files event).run store, Absolute record.path := by
  have upserted (path : Text) (absolutePath : Absolute path) :
      ∀ record ∈ ((upsertAction files path).edit store).put, Absolute record.path := by
    intro record put
    simp only [upsertAction] at put
    cases found : files path with
    | some found' =>
        simp only [found, Set.mem_singleton_iff] at put
        rw [put]
        exact absolutePath
    | none =>
        simp only [found, Set.mem_empty_iff_false] at put
  rintro record (put | ⟨member, -⟩)
  · rcases event with ⟨path, kind⟩
    cases kind with
    | create => exact upserted path absoluteEvent record put
    | other => exact upserted path absoluteEvent record put
    | metadata => exact upserted path absoluteEvent record put
    | modify => exact upserted path absoluteEvent record put
    | remove => exact absurd put (Set.notMem_empty record)
    | rescan => exact absurd put (Set.notMem_empty record)
    | rename source target =>
        rcases absoluteEvent with ⟨absoluteSource, absoluteTarget⟩
        simp only [eventAction, renameAction] at put
        split at put
        · cases found : files target with
          | none =>
              simp only [found, Set.mem_empty_iff_false] at put
          | some found' =>
              simp only [found] at put
              rcases put with ⟨old, oldMem, below, moved⟩
              have path := (movedRecord_eq_some moved).2.1
              rcases (absolute old oldMem).renamed absoluteSource absoluteTarget below with
                ⟨newPath, renamed, absoluteNew⟩
              rw [renamed, Option.some.injEq] at path
              rw [← path]
              exact absoluteNew
        · exact upserted target absoluteTarget record put
  · exact absolute record member

end Refinement

end Gfm.Index

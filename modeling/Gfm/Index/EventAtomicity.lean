import Gfm.Index.Events

/-!
# Events that fail

An event that fails takes its steps back. What it took out of the index by then goes in again as a
record like any other, so the index is as it was exactly where that leaves no trace.
-/

namespace Gfm.Index

open Interruptible Search SearchIndex ShardedSearchIndex Shelves

variable {unicode : Unicode} {control : Control GfmError} {answer : FileAnswer}
  {index : ShardedSearchIndex}

/-- The records that a new one displaces. -/
def displaced (index : ShardedSearchIndex) (record : FileRecord) : List FileRecord :=
  index.records.filter fun old => old.path = record.path ∨ old.id = record.id

def recordsBelow (index : ShardedSearchIndex) (root : Text) : List FileRecord :=
  index.records.filter fun record =>
    record.path = root ∨ (root ++ ['/']).isPrefixOf record.path = true

/-- The records that are out of the index when the last check of the event comes, and those that
are in by then. -/
def pending (control : Control GfmError) (answer : FileAnswer) (index : ShardedSearchIndex)
    (event : FileEvent) : List FileRecord × List FileRecord :=
  let upserted (count : Nat) :=
    match known control answer event.path 0 count with
    | none => ([], [])
    | some record => (displaced index record, [record])
  match event.kind with
  | .create | .other => upserted (answer.checks + 3)
  | .metadata | .modify => upserted (answer.checks + 4)
  | .remove =>
      if (control 0).isNone ∧ (control 1).isNone then (recordsBelow index event.path, [])
      else ([], [])
  | .rename source target =>
      if (control 0).isNone ∧ (control 1).isNone then
        let removed := recordsBelow index source
        let inserted :=
          if removed.isEmpty then (known control answer target 0 (answer.checks + 4)).toList
          else
            match known control answer target 0 (answer.checks + removed.length + 4) with
            | none => []
            | some freshRoot =>
                removed.filterMap fun old => movedRecord old source target freshRoot
        (removed, inserted)
      else ([], [])
  | .rescan => ([], [])

/-- Taking these records out, putting those in and undoing it leaves the index as it is. -/
def LeavesNoTrace (unicode : Unicode) (index : ShardedSearchIndex)
    (change : List FileRecord × List FileRecord) : Prop :=
  ∀ volume, Undone (catalogue unicode volume) (index.shelfAt volume) change.1 change.2

theorem leavesNoTrace_nil (coherent : index.Coherent) : LeavesNoTrace unicode index ([], []) := by
  intro volume
  have removable := @Coherent.removable index [] unicode coherent
    (fun _ member => by cases member) List.nodup_nil volume
  refine (rolledBack_eq_iff removable).mp ?_
  change (index.shelfAt volume).takeOut (catalogue unicode volume) [] = _
  rw [Shelf.takeOut, remove_nothing, coherent.shelfAt_pruned volume]
  intro id entry _ member
  cases member

theorem leavesNoTrace_congr {change other : List FileRecord × List FileRecord}
    (removed : ∀ record, record ∈ change.1 ↔ record ∈ other.1)
    (inserted : ∀ record, record ∈ change.2 ↔ record ∈ other.2) :
    LeavesNoTrace unicode index change ↔ LeavesNoTrace unicode index other :=
  forall_congr' fun _ => undone_congr removed inserted

/-- Nothing was touched, and nothing was pending. -/
theorem atomic_of_same (coherent : index.Coherent) {after : ShardedSearchIndex}
    (same : after = index) :
    Unchanged index after ↔ LeavesNoTrace unicode index ([], []) := by
  rw [same]
  exact iff_of_true unchanged_refl (leavesNoTrace_nil coherent)

theorem guarded_trans {α : Type} {undo : ShardedSearchIndex → ShardedSearchIndex}
    {program middle : Live α} {first second : Nat} {rest : Clocked ShardedSearchIndex → Outcome α}
    (guarded : Guarded control undo program first middle)
    (guardedMiddle : Guarded control undo middle second rest) :
    Guarded control undo program (first + second) rest := by
  intro start
  rcases guardedMiddle (start.advance first) with ⟨stops, goesOn⟩
  rw [passes_add]
  by_cases passes : Passes control start.checks first
  · rw [(guarded start).2 passes]
    refine ⟨fun stopped => stops fun later => stopped ⟨passes, later⟩, fun all => ?_⟩
    rw [goesOn all.2, Clocked.advance_advance]
  · exact ⟨fun _ => (guarded start).1 passes, fun all => absurd all.1 passes⟩

theorem unchanged_insertCalledOff_iff (coherent : index.Coherent) (record : FileRecord) :
    Unchanged index (insertCalledOff unicode index record) ↔
      LeavesNoTrace unicode index (displaced index record, [record]) := by
  rcases replaced_spec unicode coherent record with ⟨cleared, member, distinct, takenOut⟩
  have live : ∀ old ∈ (replacedId unicode index record).1.toList ++
      (index.removePath unicode record.path).1.toList, old ∈ index.records :=
    fun old known => ((member old).mp known).1
  rw [calledOff_eq, unchanged_calledOff_iff unicode coherent cleared live
    distinct takenOut]
  refine forall_congr' fun volume => undone_congr (fun old => ?_) fun _ => Iff.rfl
  rw [member, displaced, List.mem_filter, decide_eq_true_iff]

/-- A program that looks a path up, checks the control once more and inserts the record. -/
theorem upserted_atomic_iff (coherent : index.Coherent) {program : Live UpdateOutcome}
    {path : Text} {outcome : UpdateOutcome} {first : Nat} {error : GfmError}
    {after : Clocked ShardedSearchIndex}
    (guarded : Guarded control id program first (do
      let record ← recordForPathChecked control answer path
      check control
      insertRecordTransactional unicode control record
      pure outcome : Live UpdateOutcome))
    (failed : program ⟨index, 0⟩ = .error error after) :
    Unchanged index after.state ↔ LeavesNoTrace unicode index
      (match known control answer path 0 (first + (answer.checks + 1)) with
      | none => ([], [])
      | some record => (displaced index record, [record])) := by
  cases found : answer.outcome with
  | error failure =>
      have unknown : known control answer path 0 (first + (answer.checks + 1)) = none := by
        rw [known, found]
      rw [unknown]
      apply atomic_of_same coherent
      by_cases passes : Passes control 0 first
      · rcases @recordForPath_fails control answer failure found path
          (Clocked.advance ⟨index, 0⟩ first) with ⟨stopped, later, fails, same⟩
        have ran := (guarded ⟨index, 0⟩).2 passes
        simp only [bind, EStateM.bind, fails] at ran
        rw [ran, EStateM.Result.error.injEq] at failed
        rw [← failed.2, same]
        rfl
      · rcases (guarded ⟨index, 0⟩).1 passes with ⟨stopped, later, fails, same⟩
        rw [fails, EStateM.Result.error.injEq] at failed
        rw [← failed.2, same]
        rfl
  | ok record =>
      have looked : Guarded control id (do
          let record ← recordForPathChecked control answer path
          check control
          insertRecordTransactional unicode control record
          pure outcome : Live UpdateOutcome) (answer.checks + 1) (do
          insertRecordTransactional unicode control (recordAt path record)
          pure outcome : Live UpdateOutcome) := by
        refine guarded_bind (guarded_of_steady (steady_recordForPath found path)) ?_
        refine @guarded_bind _ _ _ _ _ _ _ _ 0 _ (guarded_of_steady Steady.check) ?_
        exact guarded_self
      have whole := guarded_trans guarded looked ⟨index, 0⟩
      by_cases passes : Passes control 0 (first + (answer.checks + 1))
      · have isKnown : known control answer path 0 (first + (answer.checks + 1)) =
            some (recordAt path record) := known_eq_some.mpr ⟨record, found, passes, rfl⟩
        rw [isKnown]
        have ran := whole.2 passes
        simp only [bind, EStateM.bind, insertRecordTransactional_apply] at ran
        rw [ran] at failed
        cases interrupted : control (Clocked.advance ⟨index, 0⟩
            (first + (answer.checks + 1))).checks with
        | none =>
            rw [interrupted] at failed
            cases failed
        | some stopped =>
            rw [interrupted] at failed
            simp only [EStateM.Result.error.injEq] at failed
            rw [← failed.2]
            exact unchanged_insertCalledOff_iff coherent (recordAt path record)
      · rw [known_of_not_passes passes]
        apply atomic_of_same coherent
        rcases whole.1 passes with ⟨stopped, later, fails, same⟩
        rw [fails, EStateM.Result.error.injEq] at failed
        rw [← failed.2, same]
        rfl

theorem mem_recordsBelow (coherent : index.Coherent) {root : Text} {record : FileRecord} :
    record ∈ (index.removeSubtree unicode root).1 ↔ record ∈ recordsBelow index root := by
  rw [mem_removeSubtree unicode coherent, recordsBelow, List.mem_filter,
    coherent.mem_records, decide_eq_true_iff]
  refine and_congr_right fun live => ?_
  have mapped (path : Text) := coherent.inverseAt record.id.volume path record.id
  simp only [SearchIndex.subtreeIds, List.mem_map, List.mem_filter, Prod.exists,
    Std.ExtTreeMap.mem_toList_iff_getElem?_eq_some, decide_eq_true_iff, exists_eq_right, mapped,
    live, Option.some.injEq, exists_eq_left']

/-- Records taken out below a path, others put in, and everything undone. -/
theorem unchanged_subtree_iff (coherent : index.Coherent) {root : Text}
    {inserted : List FileRecord} :
    Unchanged index (restoreRecords unicode (index.removeSubtree unicode root).1
        (removePaths unicode (inserted.map FileRecord.path)
          (restoreRecords unicode inserted (index.removeSubtree unicode root).2))) ↔
      LeavesNoTrace unicode index (recordsBelow index root, inserted) := by
  have live : ∀ record ∈ (index.removeSubtree unicode root).1, record ∈ index.records := by
    intro record member
    rw [mem_recordsBelow coherent, recordsBelow] at member
    exact (List.mem_filter.mp member).1
  refine (unchanged_calledOff_iff unicode coherent
    (coherent.removeSubtree unicode root) live
    (nodup_removeSubtree unicode coherent)
    (shelfAt_removeSubtree unicode coherent root)).trans ?_
  exact forall_congr' fun volume =>
    undone_congr (fun record => mem_recordsBelow coherent) fun _ => Iff.rfl

theorem error_of_bind_pure {α β : Type} {program : Live α} {value : α → β}
    {start after : Clocked ShardedSearchIndex} {error : GfmError}
    (failed : (program >>= fun found => pure (value found)) start = .error error after) :
    program start = .error error after := by
  simp only [bind, EStateM.bind] at failed
  cases ran : program start with
  | ok found later =>
      rw [ran] at failed
      cases failed
  | error stopped later =>
      rw [ran] at failed
      simp only [EStateM.Result.error.injEq] at failed
      rw [failed.1, failed.2]

section Rename

variable {source target : Text} {start after : Clocked ShardedSearchIndex} {error : GfmError}

/-- What a rename puts in, having found these records below its source. -/
def renamed (control : Control GfmError) (answer : FileAnswer) (removed : List FileRecord)
    (source target : Text) (start : Nat) : List FileRecord :=
  if removed.isEmpty then (known control answer target start (1 + (answer.checks + 1))).toList
  else
    match known control answer target start (1 + (answer.checks + (removed.length + 1))) with
    | none => []
    | some freshRoot => removed.filterMap fun old => movedRecord old source target freshRoot

theorem insertEach_fails {inserted : List FileRecord}
    {undo : ShardedSearchIndex → ShardedSearchIndex} {report : RenameCorrelationReport}
    (failed : (do
      insertEach unicode inserted
      undoing undo (check control)
      pure report : Live RenameCorrelationReport) start = .error error after) :
    after.state = undo (restoreRecords unicode inserted start.state) := by
  simp only [bind, EStateM.bind, insertEach, onIndex, undoing, check] at failed
  cases interrupted : control start.checks with
  | none =>
      rw [interrupted] at failed
      cases failed
  | some stopped =>
      rw [interrupted] at failed
      simp only [EStateM.Result.error.injEq] at failed
      rw [← failed.2]
      rfl

/-- Where nothing was below the source, the target is entered like a new path. -/
theorem renameNew_fails {report : RenameCorrelationReport}
    (failed : (do
      undoing (restoreRecords unicode []) (check control)
      let record ← recordForPathChecked control answer target
      check control
      insertEach unicode [record]
      undoing (removePaths unicode [record.path]) (check control)
      pure report : Live RenameCorrelationReport) start = .error error after) :
    after.state = removePaths unicode
      ((renamed control answer [] source target start.checks).map FileRecord.path)
      (restoreRecords unicode (renamed control answer [] source target start.checks)
        start.state) := by
  rw [renamed, if_pos List.isEmpty_nil]
  have checked : Guarded control id
      (undoing (restoreRecords unicode []) (check control) : Live PUnit) 1 fun clocked =>
        .ok ⟨⟩ clocked := guarded_check (restoreRecords unicode [])
  cases found : answer.outcome with
  | error failure =>
      have unknown : known control answer target start.checks (1 + (answer.checks + 1)) = none := by
        rw [known, found]
      rw [unknown]
      simp only [bind, EStateM.bind, undoing, check] at failed
      cases interrupted : control start.checks with
      | none =>
          rcases @recordForPath_fails control answer failure found target (start.advance 1) with
            ⟨stopped, later, fails, same⟩
          simp only [interrupted, fails, EStateM.Result.error.injEq] at failed
          rw [← failed.2, same]
          rfl
      | some stopped =>
          simp only [interrupted, EStateM.Result.error.injEq] at failed
          rw [← failed.2]
          rfl
  | ok record =>
      have whole : Guarded control id (do
          undoing (restoreRecords unicode []) (check control)
          let record ← recordForPathChecked control answer target
          check control
          insertEach unicode [record]
          undoing (removePaths unicode [record.path]) (check control)
          pure report : Live RenameCorrelationReport) (1 + (answer.checks + (1 + 0))) (do
          insertEach unicode [recordAt target record]
          undoing (removePaths unicode [(recordAt target record).path]) (check control)
          pure report : Live RenameCorrelationReport) := by
        refine guarded_bind checked ?_
        refine guarded_bind (guarded_of_steady (steady_recordForPath found target)) ?_
        refine guarded_bind (guarded_of_steady Steady.check) ?_
        exact guarded_self
      by_cases passes : Passes control start.checks (1 + (answer.checks + 1))
      · have isKnown : known control answer target start.checks (1 + (answer.checks + 1)) =
            some (recordAt target record) := known_eq_some.mpr ⟨record, found, passes, rfl⟩
        rw [isKnown]
        rw [(whole start).2 passes] at failed
        have undone := insertEach_fails failed
        exact undone
      · rw [known_of_not_passes passes]
        rcases (whole start).1 passes with ⟨stopped, later, fails, same⟩
        rw [fails, EStateM.Result.error.injEq] at failed
        rw [← failed.2, same]
        rfl

/-- With the fresh root at hand the records are moved, and inserted unless a check intervenes. -/
theorem guarded_moves {removed : List FileRecord} {freshRoot : FileRecord}
    {count : Nat → RenameCorrelationReport} :
    Guarded control (restoreRecords unicode removed) (do
      let moved ← moveEach control (restoreRecords unicode removed) source target freshRoot removed
      undoing (restoreRecords unicode removed) (check control)
      insertEach unicode moved
      undoing (fun index => restoreRecords unicode removed
        (removePaths unicode (moved.map FileRecord.path) index)) (check control)
      pure (count moved.length) : Live RenameCorrelationReport)
      (removed.length + (1 + 0)) (do
      insertEach unicode (removed.filterMap fun old => movedRecord old source target freshRoot)
      undoing (fun index => restoreRecords unicode removed
        (removePaths unicode ((removed.filterMap fun old =>
          movedRecord old source target freshRoot).map FileRecord.path) index)) (check control)
      pure (count (removed.filterMap fun old =>
        movedRecord old source target freshRoot).length) : Live RenameCorrelationReport) := by
  apply guarded_bind (guarded_moveEach removed)
  apply guarded_bind (guarded_check _)
  exact guarded_self

/-- How a rename goes on where records were below the source. -/
def renameMoved (unicode : Unicode) (control : Control GfmError) (answer : FileAnswer)
    (source target : Text) (removed : List FileRecord) (report : RenameCorrelationReport)
    (count : Nat → RenameCorrelationReport) : Live RenameCorrelationReport := do
  undoing (restoreRecords unicode removed) (check control)
  match ← freshRootOf control answer (restoreRecords unicode removed) target with
  | none => pure report
  | some freshRoot =>
      let moved ← moveEach control (restoreRecords unicode removed) source target freshRoot
        removed
      undoing (restoreRecords unicode removed) (check control)
      insertEach unicode moved
      undoing (fun index => restoreRecords unicode removed
        (removePaths unicode (moved.map FileRecord.path) index)) (check control)
      pure (count moved.length)

/-- Where records were below the source, they are put back on a failure. -/
theorem renameMoved_fails {removed : List FileRecord} {report : RenameCorrelationReport}
    {count : Nat → RenameCorrelationReport}
    (failed : renameMoved unicode control answer source target removed report count start =
      .error error after) :
    (known control answer target start.checks (1 + (answer.checks + (removed.length + 1))) = none ∧
      after.state = restoreRecords unicode removed start.state) ∨
    ∃ freshRoot, known control answer target start.checks
        (1 + (answer.checks + (removed.length + 1))) = some freshRoot ∧
      after.state = restoreRecords unicode removed (removePaths unicode
        ((removed.filterMap fun old => movedRecord old source target freshRoot).map
          FileRecord.path)
        (restoreRecords unicode
          (removed.filterMap fun old => movedRecord old source target freshRoot) start.state)) := by
  simp only [renameMoved, bind, EStateM.bind, undoing, check] at failed
  cases interrupted : control start.checks with
  | some stopped =>
      simp only [interrupted, EStateM.Result.error.injEq] at failed
      refine Or.inl ⟨known_of_not_passes fun passed => ?_, ?_⟩
      · rw [passes_add, passes_one, interrupted] at passed
        cases passed.1
      · rw [← failed.2]
        rfl
  | none =>
      simp only [interrupted, freshRootOf] at failed
      cases found : answer.outcome with
      | error failure =>
          rcases @recordForPath_fails control answer failure found target (start.advance 1) with
            ⟨stopped, later, fails, same⟩
          have unknown : known control answer target start.checks
              (1 + (answer.checks + (removed.length + 1))) = none := by
            rw [known, found]
          refine Or.inl ⟨unknown, ?_⟩
          rw [fails] at failed
          cases stopped <;> simp only [pure, EStateM.pure, reduceCtorEq,
            EStateM.Result.error.injEq] at failed
          all_goals
            rw [← failed.2, same]
            rfl
      | ok record =>
          have looked := guarded_of_steady
            (@steady_recordForPath control answer record found target) (start.advance 1)
          by_cases passes : Passes control (start.advance 1).checks answer.checks
          · rw [looked.2 passes] at failed
            dsimp only at failed
            have ran := @guarded_moves unicode control source target removed
              (recordAt target record) count ((start.advance 1).advance answer.checks)
            by_cases later : Passes control ((start.advance 1).advance answer.checks).checks
                (removed.length + (1 + 0))
            · have all : Passes control start.checks
                  (1 + (answer.checks + (removed.length + 1))) := by
                rw [passes_add, passes_add, passes_one]
                exact ⟨interrupted, passes, later⟩
              have isKnown : known control answer target start.checks
                  (1 + (answer.checks + (removed.length + 1))) = some (recordAt target record) :=
                known_eq_some.mpr ⟨record, found, all, rfl⟩
              refine Or.inr ⟨recordAt target record, isKnown, ?_⟩
              have failedAt := (ran.2 later).symm.trans failed
              have undone := insertEach_fails failedAt
              exact undone
            · rcases ran.1 later with ⟨stopped, final, fails, same⟩
              have failedAt := fails.symm.trans failed
              rw [EStateM.Result.error.injEq] at failedAt
              refine Or.inl ⟨known_of_not_passes fun passed => ?_, ?_⟩
              · rw [passes_add, passes_add] at passed
                exact later passed.2.2
              · rw [← failedAt.2, same]
                rfl
          · rcases looked.1 passes with ⟨stopped, later, fails, same⟩
            rw [fails] at failed
            refine Or.inl ⟨known_of_not_passes fun passed => ?_, ?_⟩
            · rw [passes_add, passes_add] at passed
              exact passes passed.2.1
            · cases stopped <;> simp only [pure, EStateM.pure, reduceCtorEq,
                EStateM.Result.error.injEq] at failed
              all_goals
                rw [← failed.2, same]
                rfl

theorem correlateRename_fails
    (failed : correlateRenameChecked unicode control answer source target start =
      .error error after) :
    (control start.checks ≠ none ∧ after.state = start.state) ∨
    (control start.checks = none ∧ ∃ inserted,
      inserted = renamed control answer (start.state.removeSubtree unicode source).1 source target
        (start.checks + 1) ∧
      after.state = restoreRecords unicode (start.state.removeSubtree unicode source).1
        (removePaths unicode (inserted.map FileRecord.path)
          (restoreRecords unicode inserted (start.state.removeSubtree unicode source).2))) := by
  rw [correlateRenameChecked] at failed
  cases interrupted : control start.checks with
  | some stopped =>
      simp only [bind, EStateM.bind, check, interrupted, EStateM.Result.error.injEq] at failed
      refine Or.inl ⟨Option.some_ne_none stopped, ?_⟩
      rw [← failed.2]
      rfl
  | none =>
      refine Or.inr ⟨rfl, _, rfl, ?_⟩
      simp only [bind, EStateM.bind, check, interrupted, onIndex] at failed
      generalize removal : start.state.removeSubtree unicode source = change at failed
      rcases change with ⟨removed, cleared⟩
      simp only [Clocked.state_advance, removal] at failed
      cases removed with
      | nil =>
          have undone := @renameNew_fails unicode control answer source target
            ⟨cleared, start.checks + 1⟩ after error ⟨source, target, 0, 1, 0⟩ failed
          exact undone
      | cons first rest =>
          have undone := @renameMoved_fails unicode control answer source target
            ⟨cleared, start.checks + 1⟩ after error (first :: rest)
            ⟨source, target, (first :: rest).length, 0, 0⟩
            (fun moved => ⟨source, target, (first :: rest).length, moved, moved⟩) failed
          rw [renamed, List.isEmpty_cons, if_neg Bool.false_ne_true]
          rcases undone with ⟨unknown, undone⟩ | ⟨freshRoot, isKnown, undone⟩
          · rw [unknown]
            exact undone
          · rw [isKnown]
            exact undone

end Rename

theorem known_after {path : Text} {first count : Nat} (passes : Passes control 0 first) :
    known control answer path first count = known control answer path 0 (first + count) := by
  apply Option.ext
  intro record
  rw [known_eq_some, known_eq_some, passes_add, Nat.zero_add]
  simp only [passes, true_and]

/-- What a rename puts in does not depend on the order in which the index gives the records. -/
theorem mem_renamed_congr {removed others : List FileRecord} {source target : Text} {start : Nat}
    (same : removed.Perm others) {record : FileRecord} :
    record ∈ renamed control answer removed source target start ↔
      record ∈ renamed control answer others source target start := by
  have sameEmpty : removed.isEmpty = others.isEmpty := by
    rw [Bool.eq_iff_iff, List.isEmpty_iff, List.isEmpty_iff]
    exact ⟨fun nothing => List.nil_perm.mp (nothing ▸ same),
      fun nothing => List.perm_nil.mp (nothing ▸ same)⟩
  rw [renamed, renamed, sameEmpty, same.length_eq]
  split
  · exact Iff.rfl
  · split
    · exact Iff.rfl
    · exact (same.filterMap _).mem_iff

theorem perm_recordsBelow (coherent : index.Coherent) (root : Text) :
    (index.removeSubtree unicode root).1.Perm (recordsBelow index root) := by
  have distinct : (index.removeSubtree unicode root).1.Nodup :=
    List.Nodup.of_map FileRecord.id (nodup_removeSubtree unicode coherent)
  have distinctBelow : (recordsBelow index root).Nodup :=
    (List.Nodup.of_map FileRecord.id (nodup_records coherent)).filter _
  rw [List.perm_ext_iff_of_nodup distinct distinctBelow]
  exact fun record => mem_recordsBelow coherent

theorem rename_atomic_iff (coherent : index.Coherent) {source target : Text} {error : GfmError}
    {after : Clocked ShardedSearchIndex} (first : control 0 = none)
    (failed : correlateRenameChecked unicode control answer source target ⟨index, 1⟩ =
      .error error after) :
    Unchanged index after.state ↔ LeavesNoTrace unicode index
      (if (control 0).isNone ∧ (control 1).isNone then
        (recordsBelow index source,
          renamed control answer (recordsBelow index source) source target 2)
      else ([], [])) := by
  rcases correlateRename_fails failed with ⟨stopped, same⟩ | ⟨passed, inserted, isInserted, undone⟩
  · have notBoth : ¬((control 0).isNone ∧ (control 1).isNone) := by
      rintro ⟨-, second⟩
      exact stopped (Option.isNone_iff_eq_none.mp second)
    rw [if_neg notBoth]
    exact atomic_of_same coherent same
  · have both : (control 0).isNone ∧ (control 1).isNone :=
      ⟨Option.isNone_iff_eq_none.mpr first, Option.isNone_iff_eq_none.mpr passed⟩
    rw [if_pos both, undone]
    refine (unchanged_subtree_iff coherent).trans (leavesNoTrace_congr (fun _ => Iff.rfl) ?_)
    intro record
    rw [isInserted]
    exact mem_renamed_congr (perm_recordsBelow coherent source)

theorem pending_rename {path source target : Text} :
    pending control answer index ⟨path, .rename source target⟩ =
      if (control 0).isNone ∧ (control 1).isNone then
        (recordsBelow index source,
          renamed control answer (recordsBelow index source) source target 2)
      else ([], []) := by
  simp only [pending]
  split
  case isTrue both =>
    have passes : Passes control 0 2 := by
      intro step small
      rcases both with ⟨first, second⟩
      match step, small with
      | 0, _ => exact Option.isNone_iff_eq_none.mp first
      | 1, _ => exact Option.isNone_iff_eq_none.mp second
    have atNew : 2 + (1 + (answer.checks + 1)) = answer.checks + 4 := by omega
    have atMoved : 2 + (1 + (answer.checks + ((recordsBelow index source).length + 1))) =
        answer.checks + (recordsBelow index source).length + 4 := by omega
    rw [renamed, known_after passes, known_after passes, atNew, atMoved]
  case isFalse _ => rfl

/-- Cancelled at its first check an event has touched nothing. -/
theorem interrupted_atomic_iff (coherent : index.Coherent) {event : FileEvent}
    {error stopped : GfmError} {after : Clocked ShardedSearchIndex}
    (first : control 0 = some stopped)
    (failed : applyEventChecked unicode control answer event ⟨index, 0⟩ = .error error after) :
    Unchanged index after.state ↔
      LeavesNoTrace unicode index (pending control answer index event) := by
  have nothing : pending control answer index event = ([], []) := by
    have unknown (path : Text) (count : Nat) :
        known control answer path 0 (count + 1) = none := by
      apply known_of_not_passes
      intro passed
      have free := passed 0 (Nat.succ_pos count)
      rw [Nat.add_zero, first] at free
      cases free
    rcases event with ⟨path, kind⟩
    cases kind <;> simp [pending, first, unknown]
  rw [nothing]
  apply atomic_of_same coherent
  simp only [applyEventChecked, bind, EStateM.bind, check, first,
    EStateM.Result.error.injEq] at failed
  rw [← failed.2]
  rfl

theorem remove_atomic_iff (coherent : index.Coherent) {path : Text} {error : GfmError}
    {after : Clocked ShardedSearchIndex} (first : control 0 = none)
    (failed : removeSubtreeTransactional unicode control path ⟨index, 1⟩ = .error error after) :
    Unchanged index after.state ↔
      LeavesNoTrace unicode index (pending control answer index ⟨path, .remove⟩) := by
  rw [removeSubtreeTransactional_apply] at failed
  cases second : control 1 with
  | some stopped =>
      have nothing : pending control answer index ⟨path, .remove⟩ = ([], []) := by
        simp [pending, second]
      simp only [second, EStateM.Result.error.injEq] at failed
      rw [nothing]
      apply atomic_of_same coherent
      rw [← failed.2]
      rfl
  | none =>
      have removed : pending control answer index ⟨path, .remove⟩ =
          (recordsBelow index path, []) := by
        simp [pending, first, second]
      cases third : control (1 + 1) with
      | none =>
          simp only [second, third] at failed
          cases failed
      | some stopped =>
          simp only [second, third, EStateM.Result.error.injEq] at failed
          rw [removed, ← failed.2]
          exact @unchanged_subtree_iff unicode index coherent path []

/-- An event that fails leaves the index as it was exactly where what it had done by then leaves
no trace. -/
theorem failed_unchanged_iff (coherent : index.Coherent) {event : FileEvent} {error : GfmError}
    {after : Clocked ShardedSearchIndex}
    (failed : applyEventChecked unicode control answer event ⟨index, 0⟩ = .error error after) :
    Unchanged index after.state ↔
      LeavesNoTrace unicode index (pending control answer index event) := by
  cases interrupted : control 0 with
  | some stopped =>
      exact interrupted_atomic_iff coherent interrupted failed
  | none =>
      rcases event with ⟨path, kind⟩
      have upserted : ∀ outcome first, Guarded control id
          (applyEventChecked unicode control answer ⟨path, kind⟩) first (do
            let record ← recordForPathChecked control answer path
            check control
            insertRecordTransactional unicode control record
            pure outcome : Live UpdateOutcome) →
          pending control answer index ⟨path, kind⟩ =
            (match known control answer path 0 (answer.checks + (first + 1)) with
            | none => ([], [])
            | some record => (displaced index record, [record])) →
          (Unchanged index after.state ↔
            LeavesNoTrace unicode index (pending control answer index ⟨path, kind⟩)) := by
        intro outcome first guarded isPending
        have atomic := upserted_atomic_iff coherent guarded failed
        rw [Nat.add_left_comm] at atomic
        rw [isPending]
        exact atomic
      have started : ∀ {α : Type} {next : Live α} {count : ℕ} {rest : Clocked _ → Outcome α},
          Guarded control id next count rest →
            Guarded control id (check control >>= fun _ => next) (1 + count) rest :=
        fun guarded => guarded_bind (guarded_of_steady Steady.check) guarded
      cases kind with
      | create => exact upserted .upserted _ (started (started guarded_self)) rfl
      | other => exact upserted .upserted _ (started (started guarded_self)) rfl
      | metadata =>
          exact upserted .metadataUpdated _ (started (started (started guarded_self))) rfl
      | modify =>
          exact upserted .metadataUpdated _ (started (started (started guarded_self))) rfl
      | remove =>
          have removing : (removeSubtreeTransactional unicode control path >>= fun records =>
              pure (.removed records) : Live UpdateOutcome) ⟨index, 1⟩ = .error error after := by
            rw [← failed]
            simp only [applyEventChecked, bind, EStateM.bind, check, interrupted]
            rfl
          exact remove_atomic_iff coherent interrupted (error_of_bind_pure removing)
      | rename source target =>
          have correlating : (correlateRenameChecked unicode control answer source target >>=
              fun report => pure (.renamed report.removed report.inserted) : Live UpdateOutcome)
              ⟨index, 1⟩ = .error error after := by
            rw [← failed]
            simp only [applyEventChecked, bind, EStateM.bind, check, interrupted]
            rfl
          have atomic := rename_atomic_iff coherent interrupted (error_of_bind_pure correlating)
          rw [pending_rename]
          exact atomic
      | rescan =>
          apply atomic_of_same coherent
          simp only [applyEventChecked, bind, EStateM.bind, check, interrupted] at failed
          cases second : control (Clocked.advance ⟨index, 0⟩ 1).checks with
          | none =>
              rw [second] at failed
              cases failed
          | some stopped =>
              rw [second, EStateM.Result.error.injEq] at failed
              rw [← failed.2]
              rfl

section Keeping

variable {α β : Type} {keeps : ShardedSearchIndex → Prop} {program : Live α}

/-- However the program ends, it ends with a state of this kind when it starts with one. -/
def Keeps (keeps : ShardedSearchIndex → Prop) (program : Live α) : Prop :=
  ∀ start, keeps start.state →
    match program start with
    | .ok _ after => keeps after.state
    | .error _ after => keeps after.state

theorem keeps_pure (value : α) : Keeps keeps (pure value) :=
  fun _ kept => kept

theorem keeps_throw (error : GfmError) : Keeps keeps (throw error : Live α) :=
  fun _ kept => kept

theorem keeps_bind {next : α → Live β} (first : Keeps keeps program)
    (second : ∀ value, Keeps keeps (next value)) : Keeps keeps (program >>= next) := by
  intro start kept
  change match EStateM.bind program next start with
    | .ok _ after => keeps after.state
    | .error _ after => keeps after.state
  have keptFirst := first start kept
  rw [EStateM.bind]
  cases ran : program start with
  | ok value middle =>
      rw [ran] at keptFirst
      exact second value middle keptFirst
  | error stopped middle =>
      rw [ran] at keptFirst
      exact keptFirst

theorem keeps_check : Keeps keeps (check control) := by
  intro start kept
  rw [check]
  cases control start.checks <;> exact kept

theorem keeps_onIndex {change : ShardedSearchIndex → α × ShardedSearchIndex}
    (kept : ∀ index, keeps index → keeps (change index).2) : Keeps keeps (onIndex change) :=
  fun start => kept start.state

theorem keeps_undoing {undo : ShardedSearchIndex → ShardedSearchIndex}
    (kept : ∀ index, keeps index → keeps (undo index)) (first : Keeps keeps program) :
    Keeps keeps (undoing undo program) := by
  intro start started
  have keptFirst := first start started
  rw [undoing]
  cases ran : program start with
  | ok value middle =>
      rw [ran] at keptFirst
      exact keptFirst
  | error stopped middle =>
      rw [ran] at keptFirst
      exact kept _ keptFirst

theorem keeps_checkTimes (count : Nat) : Keeps keeps (checkTimes control count) := by
  induction count with
  | zero => exact keeps_pure _
  | succ count ih => exact keeps_bind keeps_check fun _ => ih

theorem keeps_recordForPath (path : Text) :
    Keeps keeps (recordForPathChecked control answer path) := by
  refine keeps_bind (keeps_checkTimes _) fun _ => ?_
  cases answer.outcome with
  | ok found => exact keeps_pure _
  | error error => exact keeps_throw error

theorem keeps_moveEach {undo : ShardedSearchIndex → ShardedSearchIndex} {source target : Text}
    {freshRoot : FileRecord} (kept : ∀ index, keeps index → keeps (undo index))
    (removed : List FileRecord) :
    Keeps keeps (moveEach control undo source target freshRoot removed) := by
  induction removed with
  | nil => exact keeps_pure _
  | cons old removed ih =>
      apply keeps_bind (keeps_undoing kept keeps_check)
      intro _
      exact keeps_bind ih fun _ => keeps_pure _

theorem coherent_restoreRecords (records : List FileRecord) (index : ShardedSearchIndex)
    (coherent : index.Coherent) : (restoreRecords unicode records index).Coherent :=
  (coherent.foldl_insert unicode records).1

theorem coherent_removePaths (paths : List Text) (index : ShardedSearchIndex)
    (coherent : index.Coherent) : (removePaths unicode paths index).Coherent :=
  (coherent.foldl_removePath unicode paths).1

theorem keeps_insertRecord (record : FileRecord) :
    Keeps Coherent (insertRecordTransactional unicode control record) := by
  apply keeps_bind (keeps_onIndex fun index coherent => coherent.removePath unicode record.path)
  intro replacedPath
  have inserted (replacedId : Option FileRecord) : Keeps Coherent (do
      onIndex fun index => ((), index.insert unicode record)
      undoing (fun index => restoreRecords unicode replacedPath.toList
        (restoreRecords unicode replacedId.toList (index.removePath unicode record.path).2))
        (check control) : Live PUnit) := by
    apply keeps_bind (keeps_onIndex fun index coherent => coherent.insert unicode record)
    intro _
    refine keeps_undoing (fun index coherent => ?_) keeps_check
    exact coherent_restoreRecords _ _
      (coherent_restoreRecords _ _ (coherent.removePath unicode record.path))
  dsimp only
  split
  · exact keeps_bind (keeps_pure none) inserted
  · refine keeps_bind (keeps_onIndex fun index coherent => ?_) inserted
    exact coherent.remove unicode record.id

theorem keeps_freshRootOf {undo : ShardedSearchIndex → ShardedSearchIndex} {target : Text}
    (kept : ∀ index, keeps index → keeps (undo index)) :
    Keeps keeps (freshRootOf control answer undo target) := by
  intro start started
  have looked := @keeps_recordForPath control answer keeps target start started
  rw [freshRootOf]
  cases ran : recordForPathChecked control answer target start with
  | ok record after =>
      rw [ran] at looked
      exact looked
  | error error after =>
      rw [ran] at looked
      cases error with
      | io _ _ => exact looked
      | _ => exact kept _ looked

theorem keeps_correlateRename (source target : Text) :
    Keeps Coherent
      (correlateRenameChecked unicode control answer source target) := by
  apply keeps_bind keeps_check
  intro _
  apply keeps_bind (keeps_onIndex fun index coherent => coherent.removeSubtree unicode source)
  intro removed
  have undone := @coherent_restoreRecords unicode removed
  apply keeps_bind (keeps_undoing undone keeps_check)
  intro _
  split
  · apply keeps_bind (keeps_recordForPath target)
    intro record
    apply keeps_bind keeps_check
    intro _
    apply keeps_bind (keeps_onIndex (coherent_restoreRecords [record]))
    intro _
    apply keeps_bind (keeps_undoing (coherent_removePaths [record.path]) keeps_check)
    exact fun _ => keeps_pure _
  · apply keeps_bind (keeps_freshRootOf undone)
    intro found
    cases found with
    | none => exact keeps_pure _
    | some freshRoot =>
        apply keeps_bind (keeps_moveEach undone removed)
        intro moved
        apply keeps_bind (keeps_undoing undone keeps_check)
        intro _
        apply keeps_bind (keeps_onIndex (coherent_restoreRecords moved))
        intro _
        refine keeps_bind (keeps_undoing (fun index coherent => ?_) keeps_check) fun _ =>
          keeps_pure _
        exact undone _ (coherent_removePaths _ _ coherent)

theorem keeps_applyEvent (event : FileEvent) :
    Keeps Coherent (applyEventChecked unicode control answer event) := by
  have upserted (path : Text) (outcome : UpdateOutcome) : Keeps Coherent (do
      check control
      let record ← recordForPathChecked control answer path
      check control
      insertRecordTransactional unicode control record
      pure outcome : Live UpdateOutcome) := by
    apply keeps_bind keeps_check
    intro _
    apply keeps_bind (keeps_recordForPath path)
    intro record
    apply keeps_bind keeps_check
    intro _
    exact keeps_bind (keeps_insertRecord record) fun _ => keeps_pure _
  apply keeps_bind keeps_check
  intro _
  cases event.kind with
  | create => exact upserted event.path .upserted
  | other => exact upserted event.path .upserted
  | metadata => exact keeps_bind keeps_check fun _ => upserted event.path .metadataUpdated
  | modify => exact keeps_bind keeps_check fun _ => upserted event.path .metadataUpdated
  | remove =>
      refine keeps_bind ?_ fun _ => keeps_pure _
      apply keeps_bind keeps_check
      intro _
      apply keeps_bind (keeps_onIndex fun index coherent =>
        coherent.removeSubtree unicode event.path)
      intro removed
      apply keeps_bind (keeps_undoing (coherent_restoreRecords removed) keeps_check)
      exact fun _ => keeps_pure _
  | rename source target =>
      exact keeps_bind (keeps_correlateRename source target) fun _ => keeps_pure _
  | rescan => exact keeps_bind keeps_check fun _ => keeps_pure _

end Keeping

/-- The ways in which the live index changes. -/
inductive Change where
  | insert (record : FileRecord)
  | insertWithColumns (record : FileRecord) (columns : SearchRecordColumns)
      (buildPrefixes buildSubstrings buildFuzzy buildMetadata : Bool)
  | importFuzzyPostings (postings : List SearchFuzzyPosting)
  | importPrefixPostings (postings : List SearchPrefixPosting)
  | importSubstringPostings (postings : List SearchSubstringPosting)
  | importMetadataPostings (postings : List SearchMetadataPosting)
  | importContentPostings (postings : List ContentPosting)
  | applyRecordColumns (columns : SearchRecordColumns)
  | insertContent (id : FileId) (text : Text)
  | event (control : Control GfmError) (answer : FileAnswer) (fileEvent : FileEvent)

def Change.apply (unicode : Unicode) (index : ShardedSearchIndex) : Change → ShardedSearchIndex
  | .insert record => index.insert unicode record
  | .insertWithColumns record columns buildPrefixes buildSubstrings buildFuzzy buildMetadata =>
      (index.insertWithColumnsInner unicode record columns buildPrefixes buildSubstrings buildFuzzy
        buildMetadata).2
  | .importFuzzyPostings postings => index.importFuzzyPostings unicode postings
  | .importPrefixPostings postings => index.importPrefixPostings unicode postings
  | .importSubstringPostings postings => index.importSubstringPostings unicode postings
  | .importMetadataPostings postings => index.importMetadataPostings unicode postings
  | .importContentPostings postings => index.importContentPostings unicode postings
  | .applyRecordColumns columns => (index.applyRecordColumns unicode columns).2
  | .insertContent id text => index.insertContent unicode id text
  | .event control answer fileEvent =>
      match applyEventChecked unicode control answer fileEvent ⟨index, 0⟩ with
      | .ok _ after => after.state
      | .error _ after => after.state

/-- The live index after these changes to an empty one. -/
def liveIndex (unicode : Unicode) (changes : List Change) : ShardedSearchIndex :=
  changes.foldl (Change.apply unicode) .new

theorem coherent_apply {change : Change} (coherent : index.Coherent) :
    (change.apply unicode index).Coherent := by
  cases change with
  | insert record => exact coherent.insert unicode record
  | insertWithColumns record columns buildPrefixes buildSubstrings buildFuzzy buildMetadata =>
      exact coherent.insertWithColumnsInner unicode record columns _ _ _ _
  | importFuzzyPostings postings =>
      exact coherent.imported fun _ _ => imported_importFuzzyPostings postings
  | importPrefixPostings postings =>
      exact coherent.imported fun _ _ => imported_importPrefixPostings _
  | importSubstringPostings postings =>
      exact coherent.imported fun _ _ => imported_importSubstringPostings _
  | importMetadataPostings postings =>
      exact coherent.imported fun _ _ => imported_importMetadataPostings _
  | importContentPostings postings => exact coherent.importContentPostings unicode postings
  | applyRecordColumns columns => exact coherent.applyRecordColumns unicode columns
  | insertContent id text => exact coherent.insertContent unicode id text
  | event control answer fileEvent =>
      have kept := @keeps_applyEvent unicode control answer fileEvent ⟨index, 0⟩ coherent
      rw [Change.apply]
      cases ran : applyEventChecked unicode control answer fileEvent ⟨index, 0⟩ with
      | ok outcome after =>
          rw [ran] at kept
          exact kept
      | error error after =>
          rw [ran] at kept
          exact kept

theorem coherent_liveIndex (unicode : Unicode) (changes : List Change) :
    (liveIndex unicode changes).Coherent := by
  have folded : ∀ (changes : List Change) (index : ShardedSearchIndex), index.Coherent →
      (changes.foldl (Change.apply unicode) index).Coherent := by
    intro changes
    induction changes with
    | nil => exact fun index coherent => coherent
    | cons change changes ih => exact fun index coherent => ih _ (coherent_apply coherent)
  exact folded changes .new coherent_new

/-- An event that fails on a live index leaves every record, path and posting as it was exactly
where what it had taken out and put in by then can be undone without a trace. -/
theorem applyEvent_atomic_iff (unicode : Unicode) (changes : List Change)
    (control : Control GfmError) (answer : FileAnswer) (event : FileEvent) (error : GfmError)
    (after : Clocked ShardedSearchIndex)
    (failed : applyEventChecked unicode control answer event ⟨liveIndex unicode changes, 0⟩ =
      .error error after) :
    Unchanged (liveIndex unicode changes) after.state ↔
      LeavesNoTrace unicode (liveIndex unicode changes)
        (pending control answer (liveIndex unicode changes) event) :=
  failed_unchanged_iff (coherent_liveIndex unicode changes) failed

section Note

def noteRecord : FileRecord where
  id := ⟨⟨1⟩, 1⟩
  path := "/a".toList
  name := "a".toList
  kind := .file
  len := 3
  created := none
  modified := none
  changed := none
  tags := []
  finderComment := none

/-- A file whose content has been indexed. -/
def noted : List Change := [.insert noteRecord, .insertContent noteRecord.id "cat".toList]

def cancelledAt (step : Nat) : Control GfmError := fun check =>
  if check = step then some .cancelled else none

def noAnswer : FileAnswer := ⟨0, .error .cancelled⟩

def cancelledRemoval (changes : List Change) : Outcome UpdateOutcome :=
  applyEventChecked Unicode.ascii (cancelledAt 2) noAnswer ⟨"/a".toList, .remove⟩
    ⟨liveIndex Unicode.ascii changes, 0⟩

/-- The removal is taken back, the words of the file are not. -/
theorem applyEvent_not_atomic : ∃ error after, cancelledRemoval noted = .error error after ∧
    ¬Unchanged (liveIndex Unicode.ascii noted) after.state := by
  refine ⟨.cancelled, _, rfl, fun unchanged => ?_⟩
  have content := unchanged.content ⟨1⟩ "cat".toList ⟨⟨1⟩, 1⟩
  revert content
  decide +kernel

/-- A record and another below it, neither with content. -/
def nested : List Change :=
  [.insert noteRecord,
    .insert { noteRecord with id := ⟨⟨1⟩, 2⟩, path := "/a/b".toList, name := "b".toList }]

/-- A removal of two records that is cancelled behind it. -/
theorem applyEvent_atomic_iff_cancelled : ∃ error after,
    cancelledRemoval nested = .error error after ∧
    (Unchanged (liveIndex Unicode.ascii nested) after.state ↔
      LeavesNoTrace Unicode.ascii (liveIndex Unicode.ascii nested)
        (pending (cancelledAt 2) noAnswer (liveIndex Unicode.ascii nested)
          ⟨"/a".toList, .remove⟩)) :=
  ⟨.cancelled, _, rfl, applyEvent_atomic_iff _ _ _ _ _ .cancelled _ rfl⟩

end Note

end Gfm.Index

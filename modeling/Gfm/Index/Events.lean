import Gfm.Lib.Interruptible
import Gfm.Search.ShardChanges

/-!
# Events

What the live index does with a file event. Between the steps it consults a control; when the
control stops it, it takes its steps back and fails. A file has no parent here, and which fields a
metadata update changed is not counted.
-/

namespace Gfm.Index

open Interruptible Search ShardedSearchIndex Shelves

inductive FileEventKind where
  | create
  | metadata
  | modify
  | remove
  | rename (source target : Text)
  | rescan
  | other

structure FileEvent where
  path : Text
  kind : FileEventKind

inductive UpdateOutcome where
  | upserted
  | metadataUpdated
  | removed (records : Nat)
  | renamed (removed inserted : Nat)
  | needsRescan

structure RenameCorrelationReport where
  source : Text
  target : Text
  removed : Nat
  inserted : Nat
  preserved : Nat

/-- What the file system says about a path, after so many checks. -/
structure FileAnswer where
  checks : Nat
  outcome : Except GfmError FileRecord

abbrev Live (α : Type) := Checked GfmError ShardedSearchIndex α

section Paths

/-- Nothing, or the directory itself. -/
def voidPiece (piece : Text) : Bool := piece.isEmpty || piece = ['.']

/-- What is left of a path once its first components are taken. -/
def afterComponents (path : Text) : Nat → Text
  | 0 => path
  | count + 1 =>
      let rest := Nat.iterate (fun pieces => (pieces.dropWhile voidPiece).drop 1) count
        ((path.splitOn '/').drop 1)
      ['/'].intercalate ((rest.dropWhile voidPiece).rdropWhile voidPiece)

def stripPrefix (path lead : Text) : Option Text :=
  if pathComponents lead <+: pathComponents path then
    some (afterComponents path (pathComponents lead).length)
  else none

def joinPath (base path : Text) : Text :=
  if path.head? = some '/' ∨ base = [] then path
  else if base.getLast? = some '/' then base ++ path
  else base ++ '/' :: path

def renamedPath (path source target : Text) : Option Text :=
  if pathComponents path = pathComponents source then some target
  else (stripPrefix path source).map (joinPath target)

def movedRecord (old : FileRecord) (source target : Text) (freshRoot : FileRecord) :
    Option FileRecord :=
  (renamedPath old.path source target).map fun movedPath =>
    if pathComponents old.path = pathComponents source then { freshRoot with id := old.id }
    else { old with path := movedPath, name := (pathFileName movedPath).getD [] }

end Paths

section Programs

variable (unicode : Unicode) (control : Control GfmError) (answer : FileAnswer)

def onIndex {α : Type} (change : ShardedSearchIndex → α × ShardedSearchIndex) : Live α :=
  fun clocked => .ok (change clocked.state).1 { clocked with state := (change clocked.state).2 }

/-- If the program fails, change the index back and fail. -/
def undoing {α : Type} (undo : ShardedSearchIndex → ShardedSearchIndex) (program : Live α) :
    Live α := fun clocked =>
  match program clocked with
  | .ok value clocked => .ok value clocked
  | .error error clocked => .error error { clocked with state := undo clocked.state }

def checkTimes : Nat → Live PUnit
  | 0 => pure ⟨⟩
  | count + 1 => do
      check control
      checkTimes count

/-- The record of a path that the file system knows. -/
def recordAt (path : Text) (found : FileRecord) : FileRecord :=
  { found with path, name := (pathFileName path).getD path }

def recordForPathChecked (path : Text) : Live FileRecord := do
  checkTimes control answer.checks
  match answer.outcome with
  | .ok found => pure (recordAt path found)
  | .error error => throw error

def restoreRecords (records : List FileRecord) (index : ShardedSearchIndex) :
    ShardedSearchIndex := records.foldl (ShardedSearchIndex.insert unicode) index

def insertRecordTransactional (record : FileRecord) : Live PUnit := do
  let replacedPath ← onIndex fun index => index.removePath unicode record.path
  let replacedId ←
    if replacedPath.any fun replaced => replaced.id = record.id then pure none
    else onIndex fun index => index.remove unicode record.id
  onIndex fun index => ((), index.insert unicode record)
  undoing (fun index => restoreRecords unicode replacedPath.toList
    (restoreRecords unicode replacedId.toList (index.removePath unicode record.path).2))
    (check control)

def removeSubtreeTransactional (root : Text) : Live Nat := do
  check control
  let removed ← onIndex fun index => index.removeSubtree unicode root
  undoing (restoreRecords unicode removed) (check control)
  pure removed.length

/-- The records under their new paths, with a check before each. -/
def moveEach (undo : ShardedSearchIndex → ShardedSearchIndex) (source target : Text)
    (freshRoot : FileRecord) : List FileRecord → Live (List FileRecord)
  | [] => pure []
  | old :: rest => do
      undoing undo (check control)
      let moved ← moveEach undo source target freshRoot rest
      pure ((movedRecord old source target freshRoot).toList ++ moved)

def insertEach (records : List FileRecord) : Live PUnit :=
  onIndex fun index => (⟨⟩, restoreRecords unicode records index)

def removePaths (paths : List Text) (index : ShardedSearchIndex) : ShardedSearchIndex :=
  paths.foldl (fun index path => (index.removePath unicode path).2) index

/-- The fresh root of a renamed subtree; none where the file system cannot reach it. -/
def freshRootOf (undo : ShardedSearchIndex → ShardedSearchIndex) (target : Text) :
    Live (Option FileRecord) := fun clocked =>
  match recordForPathChecked control answer target clocked with
  | .ok record clocked => .ok (some record) clocked
  | .error (.io _ _) clocked => .ok none clocked
  | .error error clocked => .error error { clocked with state := undo clocked.state }

def correlateRenameChecked (source target : Text) : Live RenameCorrelationReport := do
  check control
  let removed ← onIndex fun index => index.removeSubtree unicode source
  let undo := restoreRecords unicode removed
  undoing undo (check control)
  if removed.isEmpty then
    let record ← recordForPathChecked control answer target
    check control
    insertEach unicode [record]
    undoing (removePaths unicode [record.path]) (check control)
    pure ⟨source, target, removed.length, 1, 0⟩
  else
    match ← freshRootOf control answer undo target with
    | none => pure ⟨source, target, removed.length, 0, 0⟩
    | some freshRoot =>
        let moved ← moveEach control undo source target freshRoot removed
        undoing undo (check control)
        insertEach unicode moved
        undoing (fun index => undo (removePaths unicode (moved.map FileRecord.path) index))
          (check control)
        pure ⟨source, target, removed.length, moved.length, moved.length⟩

def upsertPathChecked (path : Text) : Live UpdateOutcome := do
  check control
  let record ← recordForPathChecked control answer path
  check control
  insertRecordTransactional unicode control record
  pure .upserted

def applyMetadataUpdateChecked (path : Text) : Live UpdateOutcome := do
  check control
  check control
  let current ← recordForPathChecked control answer path
  check control
  insertRecordTransactional unicode control current
  pure .metadataUpdated

def applyEventChecked (event : FileEvent) : Live UpdateOutcome := do
  check control
  match event.kind with
  | .create | .other => upsertPathChecked unicode control answer event.path
  | .metadata | .modify => applyMetadataUpdateChecked unicode control answer event.path
  | .remove =>
      let records ← removeSubtreeTransactional unicode control event.path
      pure (.removed records)
  | .rename source target =>
      let report ← correlateRenameChecked unicode control answer source target
      pure (.renamed report.removed report.inserted)
  | .rescan =>
      check control
      pure .needsRescan

end Programs

section Guards

variable {α β : Type} {control : Control GfmError} {program : Live α}

/-- The checks from `start` on let the program go on. -/
def Passes (control : Control GfmError) (start count : Nat) : Prop :=
  ∀ step, step < count → control (start + step) = none

theorem passes_iff {start count : Nat} :
    Passes control start count ↔ firstInterrupt control start count = none := by
  induction count generalizing start with
  | zero => exact iff_of_true (fun step small => absurd small (Nat.not_lt_zero step)) rfl
  | succ count ih =>
      have shift : Passes control start (count + 1) ↔
          control start = none ∧ Passes control (start + 1) count := by
        constructor
        · intro passes
          refine ⟨passes 0 (Nat.succ_pos count), fun step small => ?_⟩
          rw [Nat.add_assoc, Nat.add_comm 1 step]
          exact passes (step + 1) (Nat.succ_lt_succ small)
        · rintro ⟨first, later⟩ step small
          cases step with
          | zero => exact first
          | succ step =>
              rw [Nat.add_comm step 1, ← Nat.add_assoc]
              exact later step (Nat.lt_of_succ_lt_succ small)
      rw [shift, ih, firstInterrupt]
      cases control start <;> simp

theorem passes_add {start first second : Nat} : Passes control start (first + second) ↔
    Passes control start first ∧ Passes control (start + first) second := by
  rw [passes_iff, passes_iff, passes_iff, firstInterrupt_add]
  cases firstInterrupt control start first <;> simp

theorem passes_one {start : Nat} : Passes control start 1 ↔ control start = none := by
  rw [passes_iff, firstInterrupt]
  cases control start <;> simp [firstInterrupt]

abbrev Outcome (α : Type) := EStateM.Result GfmError (Clocked ShardedSearchIndex) α

/-- The program makes so many checks first, on which it may fail with the index changed back, and
then goes on as `rest` says. -/
def Guarded (control : Control GfmError) (undo : ShardedSearchIndex → ShardedSearchIndex)
    (program : Live α) (count : Nat) (rest : Clocked ShardedSearchIndex → Outcome α) : Prop :=
  ∀ start, (¬Passes control start.checks count → ∃ error later,
      program start = .error error later ∧ later.state = undo start.state) ∧
    (Passes control start.checks count → program start = rest (start.advance count))

theorem guarded_self {undo : ShardedSearchIndex → ShardedSearchIndex} :
    Guarded control undo program 0 program := by
  intro start
  exact ⟨fun stopped => absurd (fun step small => absurd small (Nat.not_lt_zero step)) stopped,
    fun _ => rfl⟩

theorem guarded_bind {undo : ShardedSearchIndex → ShardedSearchIndex} {value : α}
    {next : α → Live β} {first second : Nat} {rest : Clocked ShardedSearchIndex → Outcome β}
    (guarded : Guarded control undo program first fun clocked => .ok value clocked)
    (guardedNext : Guarded control undo (next value) second rest) :
    Guarded control undo (program >>= next) (first + second) rest := by
  intro start
  change (¬_ → ∃ error later, EStateM.bind program next start = _ ∧ _) ∧
    (_ → EStateM.bind program next start = _)
  rw [passes_add, EStateM.bind]
  by_cases passes : Passes control start.checks first
  · rcases guardedNext (start.advance first) with ⟨stops, goesOn⟩
    rw [(guarded start).2 passes]
    dsimp only
    refine ⟨fun stopped => ?_, fun all => ?_⟩
    · exact stops fun later => stopped ⟨passes, later⟩
    · rw [goesOn all.2, Clocked.advance_advance]
  · rcases (guarded start).1 passes with ⟨error, later, failed, undone⟩
    rw [failed]
    exact ⟨fun _ => ⟨error, later, rfl, undone⟩, fun all => absurd all.1 passes⟩

theorem guarded_of_steady {count : Nat} {value : α}
    (steady : Interruptible.Steady control program count value) :
    Guarded control id program count fun clocked => .ok value clocked := by
  intro start
  rw [passes_iff, steady start, checksResult]
  cases interrupted : firstInterrupt control start.checks count with
  | none => exact ⟨fun stopped => absurd rfl stopped, fun _ => rfl⟩
  | some found =>
      refine ⟨fun _ => ⟨found.2, start.advance (found.1 + 1), rfl, rfl⟩, fun passed => ?_⟩
      cases passed

theorem guarded_check (undo : ShardedSearchIndex → ShardedSearchIndex) :
    Guarded control undo (undoing undo (check control)) 1 fun clocked => .ok ⟨⟩ clocked := by
  intro start
  rw [passes_one, undoing, check]
  cases control start.checks with
  | none => exact ⟨fun stopped => absurd rfl stopped, fun _ => rfl⟩
  | some error =>
      refine ⟨fun _ => ⟨error, _, rfl, rfl⟩, fun passed => ?_⟩
      cases passed

theorem guarded_moveEach {undo : ShardedSearchIndex → ShardedSearchIndex} {source target : Text}
    {freshRoot : FileRecord} (removed : List FileRecord) :
    Guarded control undo (moveEach control undo source target freshRoot removed) removed.length
      fun clocked => .ok (removed.filterMap fun old => movedRecord old source target freshRoot)
        clocked := by
  induction removed with
  | nil => exact guarded_self
  | cons old removed ih =>
      have moved : (old :: removed).filterMap
          (fun old => movedRecord old source target freshRoot) =
          (movedRecord old source target freshRoot).toList ++
            removed.filterMap fun old => movedRecord old source target freshRoot := by
        rw [List.filterMap_cons]
        cases movedRecord old source target freshRoot <;> rfl
      rw [List.length_cons, Nat.add_comm, moved, moveEach]
      refine guarded_bind (guarded_check undo) ?_
      refine @guarded_bind _ _ _ _ _ _ _ _ 0 _ ih ?_
      exact guarded_self

theorem steady_checkTimes (count : Nat) :
    Steady control (checkTimes control count) count ⟨⟩ := by
  induction count with
  | zero => exact Steady.pure PUnit.unit
  | succ count ih => exact Steady.congr (Steady.bind Steady.check ih) (Nat.add_comm 1 count) rfl

theorem steady_recordForPath {answer : FileAnswer} {found : FileRecord}
    (ok : answer.outcome = .ok found) (path : Text) :
    Steady control (recordForPathChecked control answer path) answer.checks
      (recordAt path found) := by
  rw [recordForPathChecked, ok]
  refine Steady.congr (Steady.bind (steady_checkTimes answer.checks) ?_) (Nat.add_zero _) rfl
  exact Steady.pure (recordAt path found)

/-- The file system fails, or the control before it. -/
theorem recordForPath_fails {answer : FileAnswer} {failure : GfmError}
    (failed : answer.outcome = .error failure) (path : Text) (start : Clocked ShardedSearchIndex) :
    ∃ error later, recordForPathChecked control answer path start = .error error later ∧
      later.state = start.state := by
  have guarded : Guarded control id (recordForPathChecked control answer path) (answer.checks + 0)
      (throw failure : Live FileRecord) := by
    rw [recordForPathChecked, failed]
    refine guarded_bind (guarded_of_steady (steady_checkTimes answer.checks)) ?_
    exact guarded_self
  have applied := guarded start
  by_cases passes : Passes control start.checks (answer.checks + 0)
  · exact ⟨failure, start.advance (answer.checks + 0), applied.2 passes, rfl⟩
  · exact applied.1 passes

/-- The record of a path that the file system knows, if every check lets the program go on. -/
def known (control : Control GfmError) (answer : FileAnswer) (path : Text) (start count : Nat) :
    Option FileRecord :=
  match answer.outcome with
  | .error _ => none
  | .ok found =>
      if (List.range count).all fun step => (control (start + step)).isNone then
        some (recordAt path found)
      else none

theorem known_eq_some {answer : FileAnswer} {path : Text} {start count : Nat}
    {record : FileRecord} : known control answer path start count = some record ↔
      ∃ found, answer.outcome = .ok found ∧ Passes control start count ∧
        record = recordAt path found := by
  rw [known]
  cases answer.outcome with
  | error failure => simp
  | ok found =>
      have passes : ((List.range count).all fun step => (control (start + step)).isNone) = true ↔
          Passes control start count := by
        simp [Passes]
      dsimp only
      rw [Option.ite_none_right_eq_some, passes]
      simp [eq_comm]

/-- Where a check intervenes before it is looked up, nothing is known of a file. -/
theorem known_of_not_passes {answer : FileAnswer} {path : Text} {start count : Nat}
    (intervenes : ¬Passes control start count) : known control answer path start count = none := by
  apply Option.eq_none_iff_forall_ne_some.mpr
  intro record isKnown
  rcases known_eq_some.mp isKnown with ⟨-, -, passed, -⟩
  exact intervenes passed

end Guards

section Transactions

variable {unicode : Unicode} {control : Control GfmError}

/-- The record that has the id of a new one, unless it was removed with the path. -/
def replacedId (unicode : Unicode) (index : ShardedSearchIndex) (record : FileRecord) :
    Option FileRecord × ShardedSearchIndex :=
  let (replacedPath, freed) := index.removePath unicode record.path
  if replacedPath.any fun replaced => replaced.id = record.id then (none, freed)
  else freed.remove unicode record.id

def insertCalledOff (unicode : Unicode) (index : ShardedSearchIndex) (record : FileRecord) :
    ShardedSearchIndex :=
  restoreRecords unicode (index.removePath unicode record.path).1.toList
    (restoreRecords unicode (replacedId unicode index record).1.toList
      (((replacedId unicode index record).2.insert unicode record).removePath unicode
        record.path).2)

theorem insertRecordTransactional_apply (record : FileRecord) (start : Clocked ShardedSearchIndex) :
    insertRecordTransactional unicode control record start =
      match control start.checks with
      | none => .ok ⟨⟩ ⟨(replacedId unicode start.state record).2.insert unicode record,
          start.checks + 1⟩
      | some error => .error error ⟨insertCalledOff unicode start.state record,
          start.checks + 1⟩ := by
  simp only [insertRecordTransactional, bind, EStateM.bind, onIndex, replacedId, insertCalledOff]
  by_cases same : ((start.state.removePath unicode record.path).1.any
      fun replaced => replaced.id = record.id) = true
  · simp only [same, if_true, pure, EStateM.pure, EStateM.bind, onIndex, undoing, check]
    cases control start.checks <;> rfl
  · simp only [same, Bool.false_eq_true, if_false, EStateM.bind, onIndex, undoing, check]
    cases control start.checks <;> rfl

theorem removeSubtreeTransactional_apply (root : Text) (start : Clocked ShardedSearchIndex) :
    removeSubtreeTransactional unicode control root start =
      match control start.checks with
      | some error => .error error (start.advance 1)
      | none =>
          match control (start.checks + 1) with
          | none => .ok (start.state.removeSubtree unicode root).1.length
              ⟨(start.state.removeSubtree unicode root).2, start.checks + 2⟩
          | some error => .error error ⟨restoreRecords unicode
              (start.state.removeSubtree unicode root).1
              (start.state.removeSubtree unicode root).2, start.checks + 2⟩ := by
  simp only [removeSubtreeTransactional, bind, EStateM.bind, check]
  cases control start.checks with
  | some error => rfl
  | none =>
      simp only [onIndex, undoing, check, Clocked.checks_advance, Clocked.state_advance]
      cases control (start.checks + 1) with
      | none => rfl
      | some error => rfl

theorem calledOff_eq {index : ShardedSearchIndex} (record : FileRecord) :
    insertCalledOff unicode index record =
      ((replacedId unicode index record).1.toList ++
        (index.removePath unicode record.path).1.toList).foldl (ShardedSearchIndex.insert unicode)
        (([record].map FileRecord.path).foldl (fun index path => (index.removePath unicode path).2)
          ([record].foldl (ShardedSearchIndex.insert unicode)
            (replacedId unicode index record).2)) := by
  rw [List.foldl_append]
  rfl

/-- What an insert takes out first: the record at its path and the one that has its id. -/
theorem replaced_spec (unicode : Unicode) {index : ShardedSearchIndex} (coherent : index.Coherent)
    (record : FileRecord) :
    (replacedId unicode index record).2.Coherent ∧
      (∀ old, old ∈ (replacedId unicode index record).1.toList ++
          (index.removePath unicode record.path).1.toList ↔
        old ∈ index.records ∧ (old.path = record.path ∨ old.id = record.id)) ∧
      (((replacedId unicode index record).1.toList ++
        (index.removePath unicode record.path).1.toList).map FileRecord.id).Nodup ∧
      ∀ volume, (replacedId unicode index record).2.shelfAt volume =
        (index.shelfAt volume).takeOut (catalogue unicode volume)
          (((replacedId unicode index record).1.toList ++
            (index.removePath unicode record.path).1.toList).map FileRecord.id) := by
  have freed := coherent.removePath unicode record.path
  have atPath (old : FileRecord) : old ∈ (index.removePath unicode record.path).1.toList ↔
      old ∈ index.records ∧ old.path = record.path :=
    mem_removePath unicode coherent
  have takenOut := takeOut_removePath unicode coherent record.path
  by_cases same : ((index.removePath unicode record.path).1.any
      fun replaced => replaced.id = record.id) = true
  · have none : replacedId unicode index record =
        (none, (index.removePath unicode record.path).2) := if_pos same
    have own : ∃ old ∈ index.records, old.path = record.path ∧ old.id = record.id := by
      rcases Option.any_eq_true _ _ |>.mp same with ⟨old, removed, sameId⟩
      have known := (atPath old).mp (Option.mem_toList.mpr removed)
      exact ⟨old, known.1, known.2, of_decide_eq_true sameId⟩
    rw [none]
    refine ⟨freed, ?_, ?_, takenOut⟩
    · intro old
      rw [Option.toList_none, List.nil_append, atPath]
      refine and_congr_right fun member => ⟨Or.inl, fun either => ?_⟩
      rcases either with here | sameId
      · exact here
      · rcases own with ⟨other, otherMem, otherHere, otherId⟩
        have live := coherent.mem_records.mp member
        rw [sameId, ← otherId, coherent.mem_records.mp otherMem, Option.some.injEq] at live
        rw [← live, otherHere]
    · cases (index.removePath unicode record.path).1 <;> simp
  · have removed : replacedId unicode index record =
        (index.removePath unicode record.path).2.remove unicode record.id := if_neg same
    have withId (old : FileRecord) : old ∈ (replacedId unicode index record).1.toList ↔
        old ∈ index.records ∧ old.path ≠ record.path ∧ old.id = record.id := by
      rw [removed, mem_remove unicode freed,
        mem_records_removePath unicode coherent, and_assoc]
    have both (old : FileRecord) : old ∈ (replacedId unicode index record).1.toList ++
          (index.removePath unicode record.path).1.toList ↔
        old ∈ index.records ∧ (old.path = record.path ∨ old.id = record.id) := by
      rw [List.mem_append, withId, atPath]
      tauto
    refine ⟨removed ▸ freed.remove unicode record.id, both, ?_, ?_⟩
    · have apart : ∀ left ∈ (replacedId unicode index record).1.toList,
          ∀ right ∈ (index.removePath unicode record.path).1.toList, left.id ≠ right.id := by
        intro left leftMem right rightMem sameId
        have leftKnown := (withId left).mp leftMem
        have rightKnown := (atPath right).mp rightMem
        have live := coherent.mem_records.mp leftKnown.1
        rw [sameId, coherent.mem_records.mp rightKnown.1, Option.some.injEq] at live
        exact leftKnown.2.1 (live ▸ rightKnown.2)
      generalize (replacedId unicode index record).1 = left at apart
      generalize (index.removePath unicode record.path).1 = right at apart
      cases left with
      | none => cases right <;> simp
      | some left =>
          cases right with
          | none => simp
          | some right => simpa using apart left (by simp) right (by simp)
    · intro volume
      have shelf : (replacedId unicode index record).2.shelfAt volume =
          ((index.removePath unicode record.path).2.shelfAt volume).takeOut
            (catalogue unicode volume) [record.id] := by
        rw [removed]
        exact shelfAt_remove unicode freed record.id volume
      rw [shelf, takenOut, takeOut_takeOut]
      refine takeOut_congr fun id entry found => ?_
      have known := coherent.entry_mem found
      have liveAt : ∀ old ∈ (index.removePath unicode record.path).1.toList,
          old ∈ index.records := fun old member => ((atPath old).mp member).1
      have liveBoth : ∀ old ∈ (replacedId unicode index record).1.toList ++
          (index.removePath unicode record.path).1.toList, old ∈ index.records :=
        fun old member => ((both old).mp member).1
      rw [List.mem_append, coherent.mem_ids liveAt found, coherent.mem_ids liveBoth found, both,
        atPath, List.mem_singleton, known.2.1]
      have member := known.1
      tauto

end Transactions

end Gfm.Index

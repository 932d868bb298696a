import Gfm.Index.EventAtomicity

/-!
# Renames that succeed

What the live index holds after a rename: the records below the source, re-rooted, and of the rest
what they do not displace. Stale records below the target stay when no renamed record takes their
path.
-/

namespace Gfm.Index

open Interruptible List Search ShardedSearchIndex

section Spelling

variable {source target rest : Text}

/-- The pieces between the separators, without void ones at the ends. -/
def innerPieces (path : Text) : List Text :=
  ((path.splitOn '/').dropWhile voidPiece).rdropWhile voidPiece

/-- A path below a root as a join spells it: without void pieces at its ends. -/
def Spelled (rest : Text) : Prop :=
  (∃ piece ∈ rest.splitOn '/', voidPiece piece = false) ∧
    ['/'].intercalate (innerPieces rest) = rest

theorem splitOn_below : (source ++ '/' :: rest).splitOn '/' =
    source.splitOn '/' ++ rest.splitOn '/' :=
  splitOnP_append_cons source rest rfl

theorem splitOn_plain {text : Text} (plain : '/' ∉ text) : text.splitOn '/' = [text] := by
  induction text with
  | nil => rfl
  | cons char text ih =>
      simp only [mem_cons, not_or] at plain
      rw [splitOn_cons_eq_if_modifyHead, if_neg (by simpa using Ne.symm plain.1),
        ih plain.2]
      rfl

theorem not_slash_of_mem_splitOn {path piece : Text} (member : piece ∈ path.splitOn '/') :
    '/' ∉ piece := by
  induction path generalizing piece with
  | nil =>
      rw [splitOn_nil, mem_singleton] at member
      simp [member]
  | cons char path ih =>
      rw [splitOn_cons_eq_if_modifyHead] at member
      by_cases slash : (char == '/') = true
      · rw [if_pos slash] at member
        rcases mem_cons.mp member with rfl | later
        · exact not_mem_nil
        · exact ih later
      · rw [if_neg slash] at member
        cases pieces : path.splitOn '/' with
        | nil => exact absurd pieces (splitOn_ne_nil _ _)
        | cons first others =>
            rw [pieces] at ih member
            rcases mem_cons.mp member with rfl | later
            · intro slashed
              rcases mem_cons.mp slashed with same | inFirst
              · exact slash (beq_iff_eq.mpr same.symm)
              · exact ih mem_cons_self inFirst
            · exact ih (mem_cons_of_mem _ later)

/-- Of a path that names something, the first component and the pieces that follow. -/
theorem pathComponents_cons (named : source ≠ []) :
    ∃ first, pathComponents source =
        first :: ((source.splitOn '/').drop 1).filter (fun piece => !voidPiece piece) ∧
      ∀ rest, pathComponents (source ++ '/' :: rest) = pathComponents source ++
        (rest.splitOn '/').filter fun piece => !voidPiece piece := by
  have void : (fun piece => !voidPiece piece) =
      fun piece : Text => decide (piece ≠ ['.']) && !piece.isEmpty := by
    funext piece
    simp [voidPiece, Bool.and_comm]
  rw [void]
  cases source with
  | nil => exact absurd rfl named
  | cons char source =>
      by_cases slash : char = '/'
      · subst slash
        have pieces (path : Text) : ('/' :: path).splitOn '/' = [] :: path.splitOn '/' := by
          rw [splitOn_cons_eq_if_modifyHead]
          rfl
        refine ⟨['/'], ?_, fun rest => ?_⟩
        · simp [pathComponents, pieces, filter_filter]
        · rw [cons_append, pathComponents, pathComponents, pieces, pieces, splitOn_below]
          simp [filter_filter]
      · cases split : (char :: source).splitOn '/' with
        | nil => exact absurd split (splitOn_ne_nil _ _)
        | cons first others =>
            have begun : first.isEmpty = false := by
              rw [splitOn_cons_eq_if_modifyHead, if_neg (by simpa using slash)] at split
              cases pieces : source.splitOn '/' with
              | nil => exact absurd pieces (splitOn_ne_nil _ _)
              | cons head tail =>
                  rw [pieces, modifyHead_cons, List.cons.injEq] at split
                  rw [← split.1]
                  rfl
            have components (path : Text) (relative : path.head? ≠ some '/') :
                pathComponents path =
                  ((path.splitOn '/').filter fun name => !name.isEmpty).take 1 ++
                    (((path.splitOn '/').filter fun name => !name.isEmpty).drop 1).filter
                      fun name => name ≠ ['.'] := by
              rw [pathComponents]
              exact fun rest same => relative (by rw [same]; rfl)
            refine ⟨first, ?_, fun rest => ?_⟩
            · rw [components _ (by simpa using slash), split]
              simp [begun, filter_filter]
            · rw [components _ (by simpa using slash), components _ (by simpa using slash),
                splitOn_below, split]
              simp [begun, filter_filter]

/-- Taking the components of the root away, and what is void after them. -/
theorem dropWhile_iterate (pieces later : List Text) :
    (Nat.iterate (fun pieces => (pieces.dropWhile voidPiece).drop 1)
      (pieces.filter fun piece => !voidPiece piece).length (pieces ++ later)).dropWhile voidPiece =
      later.dropWhile voidPiece := by
  induction pieces with
  | nil => rfl
  | cons piece pieces ih =>
      cases void : voidPiece piece with
      | false => simpa [void] using ih
      | true =>
          rw [← ih, filter_cons_of_neg (by simp [void])]
          cases (pieces.filter fun piece => !voidPiece piece).length with
          | zero => simp [void]
          | succ count => simp [void]

theorem afterComponents_below (named : source ≠ []) :
    afterComponents (source ++ '/' :: rest) (pathComponents source).length =
      ['/'].intercalate (innerPieces rest) := by
  rcases pathComponents_cons named with ⟨first, components, -⟩
  rw [components, length_cons, afterComponents, splitOn_below,
    drop_append_of_le_length (length_pos_of_ne_nil (splitOn_ne_nil _ _)),
    dropWhile_iterate, innerPieces]

theorem head_inner (named : ∃ piece ∈ rest.splitOn '/', voidPiece piece = false) :
    (['/'].intercalate (innerPieces rest)).head? ≠ some '/' := by
  cases leading : (rest.splitOn '/').dropWhile voidPiece with
  | nil =>
      rcases named with ⟨piece, member, some⟩
      rw [dropWhile_eq_nil_iff.mp leading piece member] at some
      cases some
  | cons first others =>
      have firstMem : first ∈ rest.splitOn '/' := by
        refine (dropWhile_suffix voidPiece).subset ?_
        rw [leading]
        exact mem_cons_self
      have begun : voidPiece first = false := by
        have notVoid := head?_dropWhile_not voidPiece (rest.splitOn '/')
        rw [leading] at notVoid
        exact notVoid
      have kept : (first :: others).rdropWhile voidPiece <+: first :: others :=
        rdropWhile_prefix _ _
      cases inner : (first :: others).rdropWhile voidPiece with
      | nil =>
          have void := rdropWhile_eq_nil_iff.mp inner first mem_cons_self
          rw [begun] at void
          cases void
      | cons head tail =>
          rw [inner, cons_prefix_cons] at kept
          rw [innerPieces, leading, inner, kept.1]
          cases first with
          | nil => cases begun
          | cons char first =>
              have notSlash : char ≠ '/' := fun same =>
                not_slash_of_mem_splitOn firstMem (by rw [same]; exact mem_cons_self)
              cases tail <;> simpa [List.intercalate] using notSlash

/-- What follows the source is joined to the target, without void pieces at its ends. -/
theorem renamedPath_join (named : source ≠ [])
    (spoken : ∃ piece ∈ rest.splitOn '/', voidPiece piece = false) :
    renamedPath (source ++ '/' :: rest) source target =
      some (joinPath target (['/'].intercalate (innerPieces rest))) := by
  rcases pathComponents_cons named with ⟨-, -, extended⟩
  have lead : pathComponents source <+: pathComponents (source ++ '/' :: rest) := by
    rw [extended]
    exact prefix_append _ _
  have further : pathComponents (source ++ '/' :: rest) ≠ pathComponents source := by
    rcases spoken with ⟨piece, member, begun⟩
    rw [extended, Ne, append_right_eq_self, filter_eq_nil_iff]
    exact fun none => none piece member (by rw [begun]; rfl)
  rw [renamedPath, if_neg further, stripPrefix, if_pos lead, afterComponents_below named,
    Option.map_some]

/-- A path below the source takes its place below the target exactly when it is spelled so that
the join gives it back. -/
theorem renamedPath_below (apart : source ≠ target) :
    renamedPath (source ++ '/' :: rest) source target = some (target ++ '/' :: rest) ↔
      Spelled rest ∧ source ≠ [] ∧ target ≠ [] ∧ target.getLast? ≠ some '/' := by
  by_cases named : source = []
  · subst named
    have components : pathComponents ('/' :: rest) ≠ pathComponents [] := cons_ne_nil _ _
    refine iff_of_false (fun moved => ?_) fun all => all.2.1 rfl
    have lead : pathComponents [] <+: pathComponents ('/' :: rest) := nil_prefix
    rw [renamedPath, nil_append, if_neg components, stripPrefix, if_pos lead] at moved
    simp only [Option.map_some, Option.some.injEq] at moved
    have same : '/' :: rest = target ++ '/' :: rest := moved
    have lengths := congrArg List.length same
    rw [length_append] at lengths
    exact apart (length_eq_zero_iff.mp (by omega)).symm
  · rcases pathComponents_cons named with ⟨-, -, extended⟩
    by_cases spoken : ∃ piece ∈ rest.splitOn '/', voidPiece piece = false
    · have head := head_inner spoken
      rw [renamedPath_join named spoken, Option.some.injEq, joinPath, Spelled]
      generalize ['/'].intercalate (innerPieces rest) = inner at head
      by_cases empty : target = []
      · rw [if_pos (Or.inr empty), empty]
        refine iff_of_false (fun same => ?_) fun all => all.2.2.1 rfl
        rw [same] at head
        exact head rfl
      · rw [if_neg (not_or.mpr ⟨head, empty⟩)]
        by_cases trailing : target.getLast? = some '/'
        · rw [if_pos trailing]
          refine iff_of_false (fun same => ?_) fun all => all.2.2.2 trailing
          rw [append_cancel_left same] at head
          exact head rfl
        · rw [if_neg trailing, append_cancel_left_eq, List.cons.injEq]
          simp only [spoken, named, empty, trailing, true_and, not_false_eq_true, and_true, ne_eq]
    · have void : (rest.splitOn '/').filter (fun piece => !voidPiece piece) = [] := by
        rw [filter_eq_nil_iff]
        intro piece member
        cases begun : voidPiece piece with
        | false => exact absurd ⟨piece, member, begun⟩ spoken
        | true => simp
      rw [renamedPath, if_pos (by rw [extended, void, append_nil])]
      refine iff_of_false (fun same => ?_) fun all => spoken all.1.1
      have lengths := congrArg List.length (Option.some.inj same)
      simp at lengths

end Spelling

section Success

variable {unicode : Unicode} {control : Control GfmError} {answer : FileAnswer}
  {source target : Text} {start after : Clocked ShardedSearchIndex} {found : FileRecord}
  {report : RenameCorrelationReport}

theorem insertEach_succeeds {inserted : List FileRecord} {told : RenameCorrelationReport}
    {undo : ShardedSearchIndex → ShardedSearchIndex}
    (succeeded : (do
      insertEach unicode inserted
      undoing undo (check control)
      pure told : Live RenameCorrelationReport) start = .ok report after) :
    after.state = restoreRecords unicode inserted start.state := by
  simp only [bind, EStateM.bind, insertEach, onIndex, undoing, check] at succeeded
  cases interrupted : control start.checks with
  | some stopped =>
      rw [interrupted] at succeeded
      cases succeeded
  | none =>
      rw [interrupted] at succeeded
      simp only [pure, EStateM.pure, EStateM.Result.ok.injEq] at succeeded
      rw [← succeeded.2]
      rfl

theorem firstInterrupt_answered {first count index : ℕ} {error : GfmError}
    (interrupted : firstInterrupt control first count = some (index, error)) :
    ∃ step, control step = some error := by
  induction count generalizing first index with
  | zero => cases interrupted
  | succ count ih =>
      rw [firstInterrupt] at interrupted
      cases answered : control first with
      | some stopped =>
          rw [answered] at interrupted
          cases interrupted
          exact ⟨first, answered⟩
      | none =>
          rw [answered] at interrupted
          rcases Option.map_eq_some_iff.mp interrupted with ⟨⟨later, stopped⟩, found, same⟩
          cases same
          exact ih found

theorem renameMoved_succeeds {removed : List FileRecord} {told : RenameCorrelationReport}
    {count : Nat → RenameCorrelationReport} (readable : answer.outcome = .ok found)
    (stops : ∀ step error, control step = some error → error = .cancelled)
    (succeeded : renameMoved unicode control answer source target removed told count start =
      .ok report after) :
    after.state = restoreRecords unicode
      (removed.filterMap fun old => movedRecord old source target (recordAt target found))
      start.state := by
  simp only [renameMoved, bind, EStateM.bind, undoing, check] at succeeded
  cases interrupted : control start.checks with
  | some stopped =>
      simp only [interrupted] at succeeded
      cases succeeded
  | none =>
      simp only [interrupted, freshRootOf] at succeeded
      have looked := @steady_recordForPath control answer found readable target (start.advance 1)
      rw [checksResult] at looked
      cases answered : firstInterrupt control (start.advance 1).checks answer.checks with
      | some stopped =>
          rw [answered] at looked
          rcases firstInterrupt_answered answered with ⟨step, error⟩
          have cancelled := stops step stopped.2 error
          rcases stopped with ⟨index, stopped⟩
          subst cancelled
          rw [looked] at succeeded
          cases succeeded
      | none =>
          rw [answered] at looked
          rw [looked] at succeeded
          dsimp only at succeeded
          have ran := @guarded_moves unicode control source target removed (recordAt target found)
            count ((start.advance 1).advance answer.checks)
          by_cases later : Passes control ((start.advance 1).advance answer.checks).checks
              (removed.length + (1 + 0))
          · have inserted := insertEach_succeeds ((ran.2 later).symm.trans succeeded)
            exact inserted
          · rcases ran.1 later with ⟨stopped, final, fails, -⟩
            cases fails.symm.trans succeeded

theorem correlateRename_succeeds (readable : answer.outcome = .ok found)
    (stops : ∀ step error, control step = some error → error = .cancelled)
    (some : (start.state.removeSubtree unicode source).1 ≠ [])
    (succeeded : correlateRenameChecked unicode control answer source target start =
      .ok report after) :
    after.state = restoreRecords unicode
      ((start.state.removeSubtree unicode source).1.filterMap fun old =>
        movedRecord old source target (recordAt target found))
      (start.state.removeSubtree unicode source).2 := by
  rw [correlateRenameChecked] at succeeded
  cases interrupted : control start.checks with
  | some stopped =>
      simp only [bind, EStateM.bind, check, interrupted] at succeeded
      cases succeeded
  | none =>
      simp only [bind, EStateM.bind, check, interrupted, onIndex] at succeeded
      generalize removal : start.state.removeSubtree unicode source = change at succeeded some
      rcases change with ⟨removed, cleared⟩
      simp only [Clocked.state_advance, removal] at succeeded
      cases removed with
      | nil => exact absurd rfl some
      | cons first rest =>
          have moved := @renameMoved_succeeds unicode control answer source target
            ⟨cleared, start.checks + 1⟩ after found report (first :: rest)
            ⟨source, target, (first :: rest).length, 0, 0⟩
            (fun moved => ⟨source, target, (first :: rest).length, moved, moved⟩) readable stops
            succeeded
          exact moved

end Success

section Exactness

variable {unicode : Unicode} {index after : ShardedSearchIndex} {source target : Text}

def Below (root path : Text) : Prop := path = root ∨ root ++ ['/'] <+: path

def reRooted (source target path : Text) : Text := target ++ path.drop source.length

/-- What a rename of a subtree does to the records, and nothing else. -/
structure RenamedExactly (index after : ShardedSearchIndex) (source target : Text) : Prop where
  gone : ∀ record ∈ after.records, ¬Below source record.path
  only : ∀ record ∈ after.records, Below target record.path →
    ∃ old ∈ index.records, Below source old.path ∧ record.id = old.id ∧
      record.path = reRooted source target old.path ∧
      (old.path ≠ source → record = { old with path := record.path, name := record.name })
  all : ∀ old ∈ index.records, Below source old.path →
    ∃ record ∈ after.records, record.id = old.id ∧ record.path = reRooted source target old.path
  single : ∀ left ∈ after.records, ∀ right ∈ after.records, left.path = right.path → left = right
  spared : ∀ record, ¬Below source record.path → ¬Below target record.path →
    (record ∈ after.records ↔ record ∈ index.records)

/-- The path goes on below the source as a join spells it, and the target can be joined. -/
def Joins (source target path : Text) : Prop :=
  path = source ∨ ∃ rest, path = source ++ '/' :: rest ∧
    Spelled rest ∧ source ≠ [] ∧ target ≠ [] ∧ target.getLast? ≠ some '/'

/-- Every record below the source can be re-rooted, and takes the place of whatever is below the
target. -/
structure RenameFits (index : ShardedSearchIndex) (source target : Text) : Prop where
  joins : ∀ old ∈ index.records, Below source old.path → Joins source target old.path
  taken : ∀ stale ∈ index.records, Below target stale.path →
    ∃ old ∈ index.records, Below source old.path ∧ stale.path = reRooted source target old.path

theorem below_apart {path : Text} (notBelow : ¬Below source target)
    (notAbove : ¬Below target source)
    (below : Below source path) : ¬Below target path := by
  intro belowTarget
  rcases below with rfl | goesOn
  · exact notAbove belowTarget
  · rcases belowTarget with rfl | goesOnTarget
    · exact notBelow (Or.inr goesOn)
    · rcases prefix_or_prefix_of_prefix goesOn goesOnTarget with shorter | longer
      · rcases prefix_concat_iff.mp shorter with same | shorter
        · exact notBelow (Or.inl (append_cancel_right same).symm)
        · exact notBelow (Or.inr shorter)
      · rcases prefix_concat_iff.mp longer with same | longer
        · exact notAbove (Or.inl (append_cancel_right same).symm)
        · exact notAbove (Or.inr longer)

theorem below_iff {root path : Text} : Below root path ↔
    path = root ∨ ∃ rest, path = root ++ '/' :: rest := by
  refine or_congr_right ⟨?_, ?_⟩
  · rintro ⟨rest, rfl⟩
    exact ⟨rest, by simp⟩
  · rintro ⟨rest, rfl⟩
    exact ⟨rest, by simp⟩

theorem below_reRooted {path : Text} (below : Below source path) :
    Below target (reRooted source target path) := by
  rcases below_iff.mp below with rfl | ⟨rest, rfl⟩
  · exact Or.inl (by simp [reRooted])
  · exact below_iff.mpr (Or.inr ⟨rest, by simp [reRooted]⟩)

theorem reRooted_injective {left right : Text} (below : Below source left)
    (belowRight : Below source right)
    (same : reRooted source target left = reRooted source target right) : left = right := by
  have rest := append_cancel_left same
  rcases below_iff.mp below with rfl | ⟨first, rfl⟩ <;>
    rcases below_iff.mp belowRight with rfl | ⟨second, rfl⟩ <;> simp_all

theorem renamedPath_eq_reRooted {path : Text} (differs : source ≠ target)
    (below : Below source path) :
    renamedPath path source target = some (reRooted source target path) ↔
      Joins source target path := by
  rcases below_iff.mp below with rfl | ⟨rest, rfl⟩
  · refine iff_of_true ?_ (Or.inl rfl)
    rw [renamedPath, if_pos rfl, reRooted, drop_length, append_nil]
  · rw [reRooted, drop_left, renamedPath_below differs]
    constructor
    · exact fun joins => Or.inr ⟨rest, rfl, joins⟩
    · rintro (same | ⟨other, same, joins⟩)
      · simp at same
      · simp only [append_cancel_left_eq, List.cons.injEq, true_and] at same
        rw [same]
        exact joins

theorem movedRecord_eq_some {old record found : FileRecord}
    (moved : movedRecord old source target (recordAt target found) = some record) :
    record.id = old.id ∧ renamedPath old.path source target = some record.path ∧
      (pathComponents old.path ≠ pathComponents source →
        record = { old with path := record.path, name := record.name }) := by
  rcases Option.map_eq_some_iff.mp moved with ⟨path, renamed, rfl⟩
  split
  case isTrue same =>
    rw [renamedPath, if_pos same] at renamed ⊢
    exact ⟨rfl, rfl, fun differs => absurd same differs⟩
  case isFalse differs => exact ⟨rfl, renamed, fun _ => rfl⟩

theorem movedRecord_isSome {old found : FileRecord} {path : Text}
    (renamed : renamedPath old.path source target = some path) :
    ∃ record, movedRecord old source target (recordAt target found) = some record ∧
      record.path = path := by
  have moved := Option.isSome_iff_exists.mp (show (movedRecord old source target
    (recordAt target found)).isSome = true by rw [movedRecord, renamed]; rfl)
  rcases moved with ⟨record, moved⟩
  have path := (movedRecord_eq_some moved).2.1
  rw [renamed] at path
  exact ⟨record, moved, (Option.some.inj path).symm⟩

theorem mem_removed (coherent : index.Coherent) {record : FileRecord} :
    record ∈ (index.removeSubtree unicode source).1 ↔
      record ∈ index.records ∧ Below source record.path := by
  rw [mem_recordsBelow coherent, recordsBelow, mem_filter, decide_eq_true_iff,
    isPrefixOf_iff_prefix]
  exact Iff.rfl

theorem mem_records_takenOut {after : ShardedSearchIndex} {removed : List FileRecord}
    (coherent : index.Coherent)
    (coherentAfter : after.Coherent) (live : ∀ old ∈ removed, old ∈ index.records)
    (takenOut : ∀ volume, after.shelfAt volume = (index.shelfAt volume).takeOut
      (catalogue unicode volume) (removed.map FileRecord.id)) {record : FileRecord} :
    record ∈ after.records ↔ record ∈ index.records ∧ record ∉ removed := by
  rw [coherentAfter.mem_records_iff]
  simp only [takenOut, Shelves.takeOut_entry]
  constructor
  · rintro ⟨entry, ⟨found, notRemoved⟩, rfl⟩
    rw [coherent.mem_ids live found] at notRemoved
    exact ⟨(coherent.entry_mem found).1, notRemoved⟩
  · rintro ⟨known, notRemoved⟩
    rcases coherent.entry_of_mem known with ⟨entry, found, rfl⟩
    refine ⟨entry, ⟨found, ?_⟩, rfl⟩
    rw [coherent.mem_ids live found]
    exact notRemoved

theorem mem_records_removeSubtree (coherent : index.Coherent) {record : FileRecord} :
    record ∈ (index.removeSubtree unicode source).2.records ↔
      record ∈ index.records ∧ ¬Below source record.path := by
  have live : ∀ record ∈ (index.removeSubtree unicode source).1, record ∈ index.records :=
    fun record member => ((mem_removed coherent).mp member).1
  rw [mem_records_takenOut coherent (coherent.removeSubtree unicode source) live
    (shelfAt_removeSubtree unicode coherent source), mem_removed coherent]
  tauto

theorem eq_of_id (coherent : index.Coherent) {left right : FileRecord}
    (leftMem : left ∈ index.records) (rightMem : right ∈ index.records)
    (same : left.id = right.id) : left = right := by
  have live := coherent.mem_records.mp leftMem
  rw [same, coherent.mem_records.mp rightMem] at live
  exact (Option.some.inj live).symm

theorem components_differ {path : Text} (joins : Joins source target path) (other : path ≠ source) :
    pathComponents path ≠ pathComponents source := by
  rcases joins with same | ⟨rest, rfl, ⟨⟨piece, member, begun⟩, -⟩, named, -⟩
  · exact absurd same other
  · rcases pathComponents_cons named with ⟨-, -, extended⟩
    rw [extended, Ne, append_right_eq_self, filter_eq_nil_iff]
    exact fun none => none piece member (by rw [begun]; rfl)

/-- The records that a rename inserts. -/
def movedRecords (unicode : Unicode) (index : ShardedSearchIndex) (source target : Text)
    (found : FileRecord) : List FileRecord :=
  (index.removeSubtree unicode source).1.filterMap fun old =>
    movedRecord old source target (recordAt target found)

theorem mem_movedRecords (coherent : index.Coherent) {found record : FileRecord} :
    record ∈ movedRecords unicode index source target found ↔
      ∃ old ∈ index.records, Below source old.path ∧
        movedRecord old source target (recordAt target found) = some record := by
  simp only [movedRecords, mem_filterMap, mem_removed coherent, and_assoc]

variable {found : FileRecord}

/-- The moved records stay apart if their new paths do. -/
theorem apart_movedRecords (coherent : index.Coherent)
    (injective : ∀ left ∈ index.records, ∀ right ∈ index.records, Below source left.path →
      Below source right.path →
      renamedPath left.path source target = renamedPath right.path source target →
      left.path = right.path) :
    (movedRecords unicode index source target found).Pairwise fun left right =>
      left.path ≠ right.path ∧ left.id ≠ right.id := by
  have distinct : ((index.removeSubtree unicode source).1.map FileRecord.id).Nodup :=
    nodup_removeSubtree unicode coherent
  rw [List.Nodup, pairwise_map] at distinct
  rw [movedRecords, pairwise_filterMap]
  refine distinct.imp_of_mem fun leftMem rightMem otherId left isLeft right isRight => ?_
  rcases (mem_removed coherent).mp leftMem with ⟨leftLive, leftBelow⟩
  rcases (mem_removed coherent).mp rightMem with ⟨rightLive, rightBelow⟩
  have leftPath := (movedRecord_eq_some isLeft).2.1
  have rightPath := (movedRecord_eq_some isRight).2.1
  refine ⟨fun same => otherId ?_, ?_⟩
  · rw [same, ← rightPath] at leftPath
    have samePath := injective _ leftLive _ rightLive leftBelow rightBelow leftPath
    exact congrArg FileRecord.id (coherent.eq_of_path leftLive rightLive samePath)
  · rw [(movedRecord_eq_some isLeft).1, (movedRecord_eq_some isRight).1]
    exact otherId

theorem renamedPath_injective {left right : Text} (differs : source ≠ target)
    (leftBelow : Below source left) (rightBelow : Below source right)
    (leftJoins : Joins source target left) (rightJoins : Joins source target right)
    (same : renamedPath left source target = renamedPath right source target) : left = right := by
  rw [(renamedPath_eq_reRooted differs leftBelow).mpr leftJoins,
    (renamedPath_eq_reRooted differs rightBelow).mpr rightJoins, Option.some.injEq] at same
  exact reRooted_injective leftBelow rightBelow same

theorem path_movedRecord {old record : FileRecord} (differs : source ≠ target)
    (joins : ∀ old ∈ index.records, Below source old.path → Joins source target old.path)
    (known : old ∈ index.records) (below : Below source old.path)
    (isMoved : movedRecord old source target (recordAt target found) = some record) :
    record.path = reRooted source target old.path := by
  have path := (movedRecord_eq_some isMoved).2.1
  rw [(renamedPath_eq_reRooted differs below).mpr (joins _ known below), Option.some.injEq] at path
  exact path.symm

/-- A record is spared that stays out of the way of every new path. -/
theorem spared_of_elsewhere (coherent : index.Coherent) (differs : source ≠ target)
    (joins : ∀ old ∈ index.records, Below source old.path → Joins source target old.path)
    {record : FileRecord} (known : record ∈ index.records) (notIn : ¬Below source record.path)
    (elsewhere : ∀ old ∈ index.records, Below source old.path →
      record.path ≠ reRooted source target old.path) :
    ∀ other ∈ movedRecords unicode index source target found,
      record.path ≠ other.path ∧ record.id ≠ other.id := by
  intro other member
  rcases (mem_movedRecords coherent).mp member with ⟨old, oldMem, below, isMoved⟩
  constructor
  · rw [path_movedRecord differs joins oldMem below isMoved]
    exact elsewhere old oldMem below
  · intro sameId
    rw [(movedRecord_eq_some isMoved).1] at sameId
    rw [eq_of_id coherent known oldMem sameId] at notIn
    exact notIn below

section Moved

variable (coherent : index.Coherent) (differs : source ≠ target)
  (moved : after = restoreRecords unicode (movedRecords unicode index source target found)
    (index.removeSubtree unicode source).2)
include coherent differs moved

/-- A rename leaves what it moves, and of the rest what no moved record displaces. -/
theorem mem_records_moved (joins : ∀ old ∈ index.records, Below source old.path →
      Joins source target old.path) (record : FileRecord) : record ∈ after.records ↔
    record ∈ movedRecords unicode index source target found ∨
      ((record ∈ index.records ∧ ¬Below source record.path) ∧
        ∀ other ∈ movedRecords unicode index source target found,
          record.path ≠ other.path ∧ record.id ≠ other.id) := by
  have injective := fun left leftMem right rightMem leftBelow rightBelow =>
    @renamedPath_injective source target (FileRecord.path left) (FileRecord.path right) differs
      leftBelow rightBelow (joins left leftMem leftBelow) (joins right rightMem rightBelow)
  rw [moved, restoreRecords, mem_records_foldl_insert unicode
    (coherent.removeSubtree unicode source) (apart_movedRecords coherent injective),
    mem_records_removeSubtree coherent]

/-- A path that does not join is not moved to where an exact rename has it. -/
theorem joins_of_renamedExactly (exactly : RenamedExactly index after source target) :
    ∀ old ∈ index.records, Below source old.path → Joins source target old.path := by
  intro old known below
  rcases exactly.all old known below with ⟨record, member, sameId, path⟩
  rw [moved] at member
  rcases mem_records_of_foldl_insert unicode (coherent.removeSubtree unicode source) member with
    isMoved | ⟨kept, -⟩
  · rcases (mem_movedRecords coherent).mp isMoved with ⟨other, otherMem, otherBelow, isMoved⟩
    have facts := movedRecord_eq_some isMoved
    have same := eq_of_id coherent known otherMem (sameId.symm.trans facts.1)
    rw [← same, path] at facts
    exact (renamedPath_eq_reRooted differs below).mp facts.2.1
  · rcases (mem_records_removeSubtree coherent).mp kept with ⟨live, notIn⟩
    rw [eq_of_id coherent live known sameId] at notIn
    exact absurd below notIn

end Moved

/-- The rename, from the records that it takes out and those that it puts in. -/
theorem renamedExactly_iff (coherent : index.Coherent) (notBelow : ¬Below source target)
    (notAbove : ¬Below target source)
    (moved : after = restoreRecords unicode (movedRecords unicode index source target found)
      (index.removeSubtree unicode source).2) :
    RenamedExactly index after source target ↔ RenameFits index source target := by
  have differs : source ≠ target := fun same => notBelow (Or.inl same.symm)
  have cleared := coherent.removeSubtree unicode source
  have coherentAfter : after.Coherent := by
    rw [moved]
    exact coherent_restoreRecords _ _ cleared
  have afterRecords := mem_records_moved coherent differs moved
  constructor
  · intro exactly
    have joins := joins_of_renamedExactly coherent differs moved exactly
    refine ⟨joins, fun stale known belowTarget => ?_⟩
    have notIn : ¬Below source stale.path :=
      fun below => below_apart notBelow notAbove below belowTarget
    by_cases stays : stale ∈ after.records
    · rcases exactly.only stale stays belowTarget with ⟨old, oldMem, below, -, path, -⟩
      exact ⟨old, oldMem, below, path⟩
    · by_contra untaken
      apply stays
      refine (afterRecords joins stale).mpr (Or.inr ⟨⟨known, notIn⟩, ?_⟩)
      exact spared_of_elsewhere coherent differs joins known notIn
        fun old oldMem below samePath => untaken ⟨old, oldMem, below, samePath⟩
  · rintro ⟨joins, taken⟩
    refine ⟨?_, ?_, ?_, ?_, ?_⟩
    · intro record member belowSource
      rcases (afterRecords joins record).mp member with isMoved | ⟨⟨-, notIn⟩, -⟩
      · rcases (mem_movedRecords coherent).mp isMoved with ⟨old, known, below, isMoved⟩
        have path := path_movedRecord differs joins known below isMoved
        apply below_apart notBelow notAbove belowSource
        rw [path]
        exact below_reRooted below
      · exact notIn belowSource
    · intro record member belowTarget
      rcases (afterRecords joins record).mp member with isMoved | ⟨⟨known, -⟩, spared⟩
      · rcases (mem_movedRecords coherent).mp isMoved with ⟨old, oldMem, below, isMoved⟩
        have facts := movedRecord_eq_some isMoved
        refine ⟨old, oldMem, below, facts.1,
          path_movedRecord differs joins oldMem below isMoved, fun other => ?_⟩
        exact facts.2.2 (components_differ (joins old oldMem below) other)
      · rcases taken record known belowTarget with ⟨old, oldMem, below, path⟩
        rcases movedRecord_isSome ((renamedPath_eq_reRooted differs below).mpr
          (joins old oldMem below)) with ⟨displacing, isMoved, displacingPath⟩
        have isIn : displacing ∈ movedRecords unicode index source target found :=
          (mem_movedRecords coherent).mpr ⟨old, oldMem, below, isMoved⟩
        exact absurd (path.trans displacingPath.symm) (spared displacing isIn).1
    · intro old known below
      rcases movedRecord_isSome ((renamedPath_eq_reRooted differs below).mpr
        (joins old known below)) with ⟨record, isMoved, path⟩
      refine ⟨record, (afterRecords joins record).mpr (Or.inl ?_), (movedRecord_eq_some isMoved).1,
        path⟩
      exact (mem_movedRecords coherent).mpr ⟨old, known, below, isMoved⟩
    · intro left leftMem right rightMem same
      exact coherentAfter.eq_of_path leftMem rightMem same
    · intro record notInSource notInTarget
      rw [afterRecords joins]
      constructor
      · rintro (isMoved | ⟨⟨known, -⟩, -⟩)
        · rcases (mem_movedRecords coherent).mp isMoved with ⟨old, oldMem, below, isMoved⟩
          rw [path_movedRecord differs joins oldMem below isMoved] at notInTarget
          exact absurd (below_reRooted below) notInTarget
        · exact known
      · intro known
        refine Or.inr ⟨⟨known, notInSource⟩, ?_⟩
        refine spared_of_elsewhere coherent differs joins known notInSource
          fun old _ below samePath => notInTarget ?_
        rw [samePath]
        exact below_reRooted below

end Exactness

section Applying

variable (unicode : Unicode)

/-- A control that cancels at these checks. -/
def cancelling (schedule : Nat → Bool) : Control GfmError := fun step =>
  if schedule step then some .cancelled else none

def applyEventCancellable (schedule : Nat → Bool) (answer : FileAnswer) (event : FileEvent)
    (index : ShardedSearchIndex) : Outcome UpdateOutcome :=
  applyEventChecked unicode (cancelling schedule) answer event ⟨index, 0⟩

/-- A rename that returns on a live index, with records below its source and a target that can be
read, moves that subtree and does nothing else exactly when every record below the source can be
re-rooted and takes the place of whatever is below the target. -/
theorem applyRename_exact_iff (changes : List Change) (schedule : Nat → Bool) (answer : FileAnswer)
    (path source target : Text) (found : FileRecord) (outcome : UpdateOutcome)
    (after : Clocked ShardedSearchIndex) (notBelow : ¬Below source target)
    (notAbove : ¬Below target source)
    (known : ∃ record ∈ (liveIndex unicode changes).records, Below source record.path)
    (readable : answer.outcome = .ok found)
    (applied : applyEventCancellable unicode schedule answer ⟨path, .rename source target⟩
      (liveIndex unicode changes) = .ok outcome after) :
    RenamedExactly (liveIndex unicode changes) after.state source target ↔
      RenameFits (liveIndex unicode changes) source target := by
  have coherent := coherent_liveIndex unicode changes
  have stops : ∀ step error, cancelling schedule step = some error → error = .cancelled := by
    intro step error answered
    rw [cancelling, Option.ite_none_right_eq_some] at answered
    exact (Option.some.inj answered.2).symm
  have nonempty : ((liveIndex unicode changes).removeSubtree unicode source).1 ≠ [] := by
    rcases known with ⟨record, member, below⟩
    exact ne_nil_of_mem ((mem_removed coherent).mpr ⟨member, below⟩)
  refine @renamedExactly_iff unicode _ _ source target found coherent notBelow notAbove ?_
  simp only [applyEventCancellable, applyEventChecked, bind, EStateM.bind, check] at applied
  cases interrupted : cancelling schedule 0 with
  | some stopped =>
      rw [interrupted] at applied
      cases applied
  | none =>
      rw [interrupted] at applied
      dsimp only at applied
      cases ran : correlateRenameChecked unicode (cancelling schedule) answer source target
          (Clocked.advance ⟨liveIndex unicode changes, 0⟩ 1) with
      | error error later =>
          rw [ran] at applied
          cases applied
      | ok report later =>
          rw [ran] at applied
          simp only [pure, EStateM.pure, EStateM.Result.ok.injEq] at applied
          rw [← applied.2]
          exact correlateRename_succeeds readable stops nonempty ran

def plainDirectory (node : Nat) (path name : Text) : FileRecord where
  id := ⟨⟨1⟩, node⟩
  path := path
  name := name
  kind := .directory
  len := 0
  created := none
  modified := none
  changed := none
  tags := []
  finderComment := none

/-- A directory and another with a record below it. -/
def twoDirectories : List Change :=
  [.insert (plainDirectory 1 "/a".toList "a".toList),
    .insert (plainDirectory 2 "/b".toList "b".toList),
    .insert (plainDirectory 3 "/b/c".toList "c".toList)]

def renamedDirectory (node : Nat) (source target : Text) : Outcome UpdateOutcome :=
  applyEventCancellable Unicode.ascii (fun _ => false)
    ⟨0, .ok (plainDirectory node target "d".toList)⟩ ⟨target, .rename source target⟩
    (liveIndex Unicode.ascii twoDirectories)

/-- The first directory takes the place of the second, below which a stale record stays. -/
theorem applyRename_inexact : ∃ outcome after,
    renamedDirectory 1 "/a".toList "/b".toList = .ok outcome after ∧
    ¬RenamedExactly (liveIndex Unicode.ascii twoDirectories) after.state "/a".toList
      "/b".toList := by
  have stays : (match renamedDirectory 1 "/a".toList "/b".toList with
      | .ok _ after =>
          decide (plainDirectory 3 "/b/c".toList "c".toList ∈ after.state.records)
      | .error _ _ => false) = true := by
    decide +kernel
  cases ran : renamedDirectory 1 "/a".toList "/b".toList with
  | error error after =>
      rw [ran] at stays
      cases stays
  | ok outcome after =>
      rw [ran] at stays
      refine ⟨outcome, after, rfl, fun exactly => ?_⟩
      rcases exactly.only _ (of_decide_eq_true stays) (Or.inr (by decide)) with
        ⟨old, known, below, sameId, -⟩
      have same := eq_of_id (coherent_liveIndex Unicode.ascii twoDirectories) (by decide +kernel)
        known sameId
      rw [← same] at below
      rcases below with below | below <;> revert below <;> decide

/-- The second directory gets a name of its own, and the record below it a new path. -/
theorem applyRename_exact_iff_fresh : ∃ outcome after,
    renamedDirectory 2 "/b".toList "/d".toList = .ok outcome after ∧
    plainDirectory 3 "/d/c".toList "c".toList ∈ after.state.records ∧
    (RenamedExactly (liveIndex Unicode.ascii twoDirectories) after.state "/b".toList "/d".toList ↔
      RenameFits (liveIndex Unicode.ascii twoDirectories) "/b".toList "/d".toList) := by
  have moved : (match renamedDirectory 2 "/b".toList "/d".toList with
      | .ok _ after => decide (plainDirectory 3 "/d/c".toList "c".toList ∈ after.state.records)
      | .error _ _ => false) = true := by
    decide +kernel
  have apart : ∀ root path : Text, path ≠ root → ¬root ++ ['/'] <+: path → ¬Below root path :=
    fun root path differs notLonger below => below.elim differs notLonger
  cases ran : renamedDirectory 2 "/b".toList "/d".toList with
  | error error after =>
      rw [ran] at moved
      cases moved
  | ok outcome after =>
      rw [ran] at moved
      refine ⟨outcome, after, rfl, of_decide_eq_true moved, ?_⟩
      exact applyRename_exact_iff Unicode.ascii twoDirectories (fun _ => false)
        ⟨0, .ok (plainDirectory 2 "/d".toList "d".toList)⟩ "/d".toList "/b".toList "/d".toList
        (plainDirectory 2 "/d".toList "d".toList) outcome after
        (apart _ _ (by decide) (by decide)) (apart _ _ (by decide) (by decide))
        ⟨plainDirectory 2 "/b".toList "b".toList, by decide +kernel, Or.inl rfl⟩ rfl ran

end Applying

end Gfm.Index

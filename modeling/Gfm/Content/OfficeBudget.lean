import Gfm.Content.MarkupText

/-!
# The text budget of office documents

The text of a part is a sequence of runs, one for each stretch between tags. A budget cuts the
text that the runs of all parts make. The budget that is left for a part is compared with the
whole text so far, so that the first part whose text does not fit twice decides where the text
ends.
-/

namespace Gfm.Content

open ByteOffsets Joining List

section Runs

/-- The stretches of text that are flushed, in order. -/
def xmlStretches (inTag : Bool) (text : Text) : Text → List Text
  | [] => [text]
  | char :: chars =>
      if char = '<' then text :: xmlStretches true [] chars
      else if char = '>' then xmlStretches false text chars
      else if char = '&' ∧ !inTag then
        let entity := scanEntity [] chars
        xmlStretches inTag (text ++ [decodeXmlEntity entity.1]) entity.2
      else if !inTag then xmlStretches inTag (text ++ [char]) chars
      else xmlStretches inTag text chars
termination_by chars => chars.length
decreasing_by
  all_goals simp only [length_cons]
  all_goals have behind := length_scanEntity [] chars
  all_goals omega

/-- The runs of a part: what is flushed of it, with its white space collapsed. -/
def xmlRuns (xml : Text) : List Text :=
  ((xmlStretches false [] xml).map collapseWhitespace).filter fun run => !run.isEmpty

/-- The text of the runs, without a budget. -/
def textOf (runs : List Text) : Text := joined ' ' runs

def appendRun (maxBytes : Nat) (output run : Text) : Text :=
  if maxBytes ≤ byteLength output then output
  else
    let output := if output.isEmpty ∨ output.getLast? = some ' ' then output else output ++ [' ']
    sliceTo (output ++ run) maxBytes

variable {maxBytes : Nat} {output : Text}

theorem flushText_of_full (full : maxBytes ≤ byteLength output) (text : Text) :
    flushText maxBytes output text = output := by
  simp [flushText, full]

theorem flushText_eq (text : Text) : flushText maxBytes output text =
    if (collapseWhitespace text).isEmpty then output
    else appendRun maxBytes output (collapseWhitespace text) := by
  have space : Char.utf8Size ' ' = 1 := rfl
  rw [flushText]
  by_cases empty : (collapseWhitespace text).isEmpty = true
  · simp [empty]
  by_cases full : maxBytes ≤ byteLength output
  · simp [appendRun, full]
  simp only [empty, full, or_self, if_false, Bool.false_eq_true, appendRun]
  have room : byteLength
      (if output.isEmpty ∨ output.getLast? = some ' ' then output else output ++ [' ']) ≤
        maxBytes := by
    split
    · omega
    · simp only [byteLength_append, byteLength_cons, byteLength_nil]
      omega
  rw [sliceTo_append_of_le room, sliceTo_floorCharBoundary]
  generalize (if output.isEmpty ∨ output.getLast? = some ' ' then output else output ++ [' ']) =
    started
  split
  next fits => rw [sliceTo_of_le fits]
  next => rfl

theorem xmlLoop_eq_foldl (inTag : Bool) (text output xml : Text) :
    xmlLoop maxBytes inTag text output xml =
      (xmlStretches inTag text xml).foldl (flushText maxBytes) output := by
  have stuck {output : Text} (full : maxBytes ≤ byteLength output) (texts : List Text) :
      texts.foldl (flushText maxBytes) output = output := by
    induction texts with
    | nil => rfl
    | cons text texts ih => rw [foldl_cons, flushText_of_full full, ih]
  fun_induction xmlStretches inTag text xml generalizing output with
  | case1 inTag text => simp [xmlLoop]
  | case2 inTag text chars ih =>
      simp only [xmlLoop, if_true, foldl_cons]
      split
      next full => exact (stuck full _).symm
      next => exact ih _
  | case3 inTag text chars notOpening ih =>
      rw [xmlLoop, if_neg notOpening]
      split
      next full => exact (stuck full _).symm
      next => exact ih _
  | case4 inTag text char chars notOpening notClosing isReference entity ih =>
      rw [xmlLoop, if_neg notOpening, if_neg notClosing, if_pos isReference]
      split
      next full => exact (stuck full _).symm
      next => exact ih _
  | case5 inTag text char chars notOpening notClosing notReference outside ih =>
      rw [xmlLoop, if_neg notOpening, if_neg notClosing, if_neg notReference, if_pos outside]
      split
      next full => exact (stuck full _).symm
      next => exact ih _
  | case6 inTag text char chars notOpening notClosing notReference within ih =>
      rw [xmlLoop, if_neg notOpening, if_neg notClosing, if_neg notReference, if_neg within]
      split
      next full => exact (stuck full _).symm
      next => exact ih _

theorem appendXmlText_eq (xml output : Text) : appendXmlText maxBytes xml output =
    (xmlRuns xml).foldl (appendRun maxBytes) output := by
  rw [appendXmlText, xmlLoop_eq_foldl, xmlRuns]
  generalize xmlStretches false [] xml = texts
  induction texts generalizing output with
  | nil => rfl
  | cons text texts ih =>
      rw [foldl_cons, ih, flushText_eq, map_cons, filter_cons]
      cases (collapseWhitespace text).isEmpty <;> simp

/-- A run that a budget cuts, or does not, behind a text that ends a run. -/
theorem appendRun_eq {run : Text} (nonempty : run ≠ []) (settled : output.getLast? ≠ some ' ')
    (room : byteLength output ≤ maxBytes) :
    appendRun maxBytes output run = sliceTo (push ' ' output run) maxBytes := by
  rcases eq_or_ne output [] with rfl | started
  · rw [appendRun, nil_push]
    split
    next full =>
      have none := byteLength_sliceTo_le run maxBytes
      exact (byteLength_eq_zero.mp (by simp only [byteLength_nil] at full; omega)).symm
    next => simp
  · rw [appendRun, push_of_ne_nil ' ' started nonempty]
    split
    next full => rw [sliceTo_append_of_ge full, sliceTo_of_le room]
    next => simp [started, settled]

theorem mem_xmlRuns {xml run : Text} (listed : run ∈ xmlRuns xml) :
    run ≠ [] ∧ run.getLast? ≠ some ' ' := by
  rcases mem_filter.mp listed with ⟨mapped, nonempty⟩
  rcases mem_map.mp mapped with ⟨text, _, rfl⟩
  refine ⟨by simpa using nonempty, fun last => ?_⟩
  cases not_blank_of_getLast?_collapse last

theorem textOf_settled {runs : List Text} (settled : ∀ run ∈ runs, run.getLast? ≠ some ' ') :
    (textOf runs).getLast? ≠ some ' ' := by
  induction runs with
  | nil => simp [textOf]
  | cons run runs ih =>
      rw [forall_mem_cons] at settled
      rw [textOf, joined_cons]
      rcases eq_or_ne (joined ' ' runs) [] with empty | nonempty
      · simpa [empty] using settled.1
      · rw [getLast?_push nonempty]
        exact ih settled.2

theorem textOf_append (left right : List Text) :
    textOf (left ++ right) = push ' ' (textOf left) (textOf right) := joined_append ' ' left right

theorem textOf_isPrefix (left right : List Text) : textOf left <+: textOf (left ++ right) := by
  rw [textOf_append]
  exact isPrefix_push

theorem foldl_appendRun_of_full (full : maxBytes ≤ byteLength output) (runs : List Text) :
    runs.foldl (appendRun maxBytes) output = output := by
  induction runs with
  | nil => rfl
  | cons run runs ih => rw [foldl_cons, appendRun, if_pos full, ih]

/-- Where a budget falls between two characters, or only in the last run. -/
def CutsCleanly (runs : List Text) (maxBytes : Nat) : Prop :=
  isCharBoundary (textOf runs) maxBytes = true ∨ byteLength (textOf runs.dropLast) < maxBytes

/-- The runs of one part, behind the runs before it. -/
theorem foldl_appendRun {before runs : List Text}
    (proper : ∀ run ∈ before ++ runs, run ≠ [] ∧ run.getLast? ≠ some ' ')
    (room : byteLength (textOf before) ≤ maxBytes) (clean : CutsCleanly (before ++ runs) maxBytes) :
    runs.foldl (appendRun maxBytes) (textOf before) =
      sliceTo (textOf (before ++ runs)) maxBytes := by
  induction runs generalizing before with
  | nil => simp [sliceTo_of_le room]
  | cons run runs ih =>
      have split : before ++ run :: runs = (before ++ [run]) ++ runs := by simp
      have listed : run ∈ before ++ run :: runs := by simp
      have settled : (textOf before).getLast? ≠ some ' ' :=
        textOf_settled fun other member => (proper other (by simp [member])).2
      have single : textOf [run] = run := by simp [textOf, joined_cons]
      have pushed : push ' ' (textOf before) run = textOf (before ++ [run]) := by
        rw [textOf_append, single]
      rw [foldl_cons, appendRun_eq (proper run listed).1 settled room, pushed]
      rw [split] at proper clean ⊢
      by_cases fits : byteLength (textOf (before ++ [run])) ≤ maxBytes
      · rw [sliceTo_of_le fits]
        exact ih proper fits clean
      · have within : maxBytes ≤ byteLength (textOf (before ++ [run])) := by omega
        have same : sliceTo (textOf ((before ++ [run]) ++ runs)) maxBytes =
            sliceTo (textOf (before ++ [run])) maxBytes := by
          rcases textOf_isPrefix (before ++ [run]) runs with ⟨rest, whole⟩
          rw [← whole, sliceTo_append_of_ge within]
        rw [same]
        rcases eq_or_ne runs [] with rfl | more
        · rfl
        apply foldl_appendRun_of_full
        rcases clean with boundary | last
        · rw [← same, (sliceTo_of_isCharBoundary boundary).1]
        · -- A run behind the one that is cut is not the last.
          rw [dropLast_append_of_ne_nil more] at last
          have front := textOf_isPrefix (before ++ [run]) runs.dropLast
          have shorter := byteLength_le_of_sublist front.sublist
          omega

end Runs

section Parts

/-- A part of the archive whose text is read. -/
structure TextPart (kind : OoxmlKind) (entryBytes : Nat) where
  name : Text
  size : Nat
  xml : Text
  isText : isTextPart kind name = true
  small : size ≤ entryBytes

variable {kind : OoxmlKind} {entryBytes budget : Nat}

def TextPart.opened (part : TextPart kind entryBytes) : Except OoxmlExtractStatus OoxmlPart :=
  .ok ⟨part.name, part.size, some part.xml⟩

/-- The text so far and the XML of the parts that are left. -/
def accumulate (budget : Nat) (text : Text) : List Text → Text
  | [] => text
  | xml :: xmls =>
      accumulate budget ((xmlRuns xml).foldl (appendRun (budget - byteLength text)) text) xmls

theorem accumulate_of_full {text : Text} (full : budget - byteLength text ≤ byteLength text)
    (xmls : List Text) : accumulate budget text xmls = text := by
  induction xmls with
  | nil => rfl
  | cons xml xmls ih => rw [accumulate, foldl_appendRun_of_full full, ih]

theorem accumulate_of_no_runs {xmls : List Text} (none : xmls.flatMap xmlRuns = [])
    (text : Text) : accumulate budget text xmls = text := by
  induction xmls with
  | nil => rfl
  | cons xml xmls ih =>
      rw [flatMap_cons, append_eq_nil_iff] at none
      rw [accumulate, none.1, foldl_nil, ih none.2]

theorem extractParts_opened (parts : List (TextPart kind entryBytes)) (text : Text) :
    extractParts kind ⟨entryBytes, budget⟩ text (parts.map TextPart.opened) =
      .ok (accumulate budget text (parts.map TextPart.xml)) := by
  induction parts generalizing text with
  | nil => rfl
  | cons part parts ih =>
      simp only [map_cons, TextPart.opened, extractParts, part.isText, Bool.not_true,
        Bool.false_eq_true, if_false, not_lt.mpr part.small]
      split
      next used => rw [accumulate_of_full (by omega)]
      next => rw [ih, appendXmlText_eq, accumulate]

/-- The text before the first part whose text does not fit behind it and once more. -/
def overflow (budget : Nat) (before : List Text) : List Text → Option Text
  | [] => none
  | xml :: xmls =>
      let after := before ++ xmlRuns xml
      if xmlRuns xml = [] ∨ byteLength (textOf before) + byteLength (textOf after) ≤ budget then
        overflow budget after xmls
      else some (textOf before)

/-- Where the text ends behind an overflow. -/
def reach (budget : Nat) (early : Text) : Nat := max (byteLength early) (budget - byteLength early)

theorem cutsCleanly_of_le {runs : List Text} (fits : byteLength (textOf runs) ≤ budget) :
    CutsCleanly runs budget := by
  rcases fits.eq_or_lt with rfl | shorter
  · exact .inl (isCharBoundary_byteLength _)
  · rcases eq_nil_or_concat runs with rfl | ⟨front, last, rfl⟩
    · exact .inr shorter
    · have front := byteLength_le_of_sublist (textOf_isPrefix front [last]).sublist
      right
      simp only [concat_eq_append, dropLast_concat] at shorter ⊢
      omega

theorem accumulate_of_no_overflow {before xmls : List Text}
    (proper : ∀ run ∈ before, run ≠ [] ∧ run.getLast? ≠ some ' ')
    (room : byteLength (textOf before) ≤ budget) (fits : overflow budget before xmls = none) :
    accumulate budget (textOf before) xmls = textOf (before ++ xmls.flatMap xmlRuns) ∧
      byteLength (textOf (before ++ xmls.flatMap xmlRuns)) ≤ budget := by
  induction xmls generalizing before with
  | nil => simpa [accumulate] using room
  | cons xml xmls ih =>
      rw [overflow] at fits
      split at fits
      next fitting =>
        have properAfter : ∀ run ∈ before ++ xmlRuns xml, run ≠ [] ∧ run.getLast? ≠ some ' ' :=
          forall_mem_append.mpr ⟨proper, fun run listed => mem_xmlRuns listed⟩
        rw [accumulate, flatMap_cons, ← append_assoc]
        rcases fitting with empty | short
        · rw [empty, append_nil] at fits properAfter ⊢
          exact ih properAfter room fits
        · have front := byteLength_le_of_sublist (textOf_isPrefix before (xmlRuns xml)).sublist
          have whole : byteLength (textOf (before ++ xmlRuns xml)) ≤
              budget - byteLength (textOf before) := by omega
          rw [foldl_appendRun properAfter (by omega) (cutsCleanly_of_le whole),
            sliceTo_of_le whole]
          exact ih properAfter (by omega) fits
      next => cases fits

theorem accumulate_of_overflow {before xmls : List Text} {early : Text}
    (proper : ∀ run ∈ before, run ≠ [] ∧ run.getLast? ≠ some ' ')
    (room : byteLength (textOf before) ≤ budget)
    (overflows : overflow budget before xmls = some early)
    (clean : byteLength early < budget - byteLength early →
      CutsCleanly (before ++ xmls.flatMap xmlRuns) (budget - byteLength early)) :
    accumulate budget (textOf before) xmls =
      sliceTo (textOf (before ++ xmls.flatMap xmlRuns)) (reach budget early) := by
  induction xmls generalizing before with
  | nil => cases overflows
  | cons xml xmls ih =>
      have properAfter : ∀ run ∈ before ++ xmlRuns xml, run ≠ [] ∧ run.getLast? ≠ some ' ' :=
        forall_mem_append.mpr ⟨proper, fun run listed => mem_xmlRuns listed⟩
      have front := byteLength_le_of_sublist (textOf_isPrefix before (xmlRuns xml)).sublist
      rw [overflow] at overflows
      rw [flatMap_cons, ← append_assoc] at clean ⊢
      rw [accumulate]
      split at overflows
      next fitting =>
        rcases fitting with empty | short
        · rw [empty, append_nil] at overflows properAfter clean ⊢
          exact ih properAfter room overflows clean
        · have whole : byteLength (textOf (before ++ xmlRuns xml)) ≤
              budget - byteLength (textOf before) := by omega
          rw [foldl_appendRun properAfter (by omega) (cutsCleanly_of_le whole),
            sliceTo_of_le whole]
          exact ih properAfter (by omega) overflows clean
      next large =>
        obtain rfl := Option.some.inj overflows
        rw [not_or, not_le] at large
        rcases le_or_gt (budget - byteLength (textOf before)) (byteLength (textOf before)) with
          full | open_
        · rcases textOf_isPrefix before (xmlRuns xml ++ xmls.flatMap xmlRuns) with ⟨rest, whole⟩
          rw [← append_assoc] at whole
          rw [foldl_appendRun_of_full full, accumulate_of_full full, reach, max_eq_left full,
            ← whole, sliceTo_append]
        · -- The budget cuts this part; either the text is full then or no other run follows.
          have cuts : budget - byteLength (textOf before) ≤
              byteLength (textOf (before ++ xmlRuns xml)) := by omega
          have same : sliceTo (textOf (before ++ xmlRuns xml ++ xmls.flatMap xmlRuns))
              (budget - byteLength (textOf before)) =
                sliceTo (textOf (before ++ xmlRuns xml)) (budget - byteLength (textOf before)) := by
            rcases textOf_isPrefix (before ++ xmlRuns xml) (xmls.flatMap xmlRuns) with ⟨rest, whole⟩
            rw [← whole, sliceTo_append_of_ge cuts]
          rw [reach, max_eq_right open_.le, same]
          rcases eq_or_ne (xmls.flatMap xmlRuns) [] with none | more
          · rw [none, append_nil] at clean
            rw [foldl_appendRun properAfter open_.le (clean open_), accumulate_of_no_runs none]
          · rcases clean open_ with boundary | last
            · have length := (sliceTo_of_isCharBoundary boundary).1
              rcases textOf_isPrefix (before ++ xmlRuns xml) (xmls.flatMap xmlRuns) with
                ⟨rest, whole⟩
              rw [← whole] at boundary
              rw [foldl_appendRun properAfter open_.le
                (.inl (isCharBoundary_of_append boundary cuts)), accumulate_of_full]
              rw [← same, length]
              omega
            · rw [dropLast_append_of_ne_nil more] at last
              have shorter := byteLength_le_of_sublist
                (textOf_isPrefix (before ++ xmlRuns xml) (xmls.flatMap xmlRuns).dropLast).sublist
              omega

/-- The whole text fits twice, so nothing overflows. -/
theorem overflow_of_large {before xmls : List Text}
    (large : 2 * byteLength (textOf (before ++ xmls.flatMap xmlRuns)) ≤ budget) :
    overflow budget before xmls = none := by
  induction xmls generalizing before with
  | nil => rfl
  | cons xml xmls ih =>
      rw [flatMap_cons, ← append_assoc] at large
      have first := byteLength_le_of_sublist (textOf_isPrefix before (xmlRuns xml)).sublist
      have second := byteLength_le_of_sublist
        (textOf_isPrefix (before ++ xmlRuns xml) (xmls.flatMap xmlRuns)).sublist
      rw [overflow, if_pos (.inr (by omega))]
      exact ih large

theorem byteLength_early {before xmls : List Text} {early : Text}
    (room : byteLength (textOf before) ≤ budget)
    (overflows : overflow budget before xmls = some early) : byteLength early ≤ budget := by
  induction xmls generalizing before with
  | nil => cases overflows
  | cons xml xmls ih =>
      rw [overflow] at overflows
      split at overflows
      next fitting =>
        rcases fitting with empty | short
        · rw [empty, append_nil] at overflows
          exact ih room overflows
        · exact ih (by omega) overflows
      next =>
        obtain rfl := Option.some.inj overflows
        exact room

theorem rdropWhile_append_iff {left right : Text} :
    (left ++ right).rdropWhile isWhitespace = left.rdropWhile isWhitespace ↔
      ∀ char ∈ right, isWhitespace char = true := by
  constructor
  · intro same
    have counted (text : Text) : (text.rdropWhile isWhitespace).countP (fun char =>
        !isWhitespace char) = text.countP fun char => !isWhitespace char := by
      rw [List.rdropWhile, countP_reverse, countP_dropWhile (by simp), countP_reverse]
    have total := congrArg (List.countP fun char => !isWhitespace char) same
    rw [counted, counted, countP_append] at total
    have none : right.countP (fun char => !isWhitespace char) = 0 := by omega
    simpa using countP_eq_zero.mp none
  · intro blank
    induction right using List.reverseRecOn with
    | nil => rw [append_nil]
    | append_singleton right char ih =>
        rw [forall_mem_append] at blank
        rw [← append_assoc, rdropWhile_concat_pos _ _ _ (blank.2 char (by simp))]
        exact ih blank.1

/-- The text of the parts, without a budget. -/
def wholeText (xmls : List Text) : Text := textOf (xmls.flatMap xmlRuns)

/-- Where a part overflows behind others, the budget ends between two characters or in the last
run. -/
def Aligned (budget : Nat) (xmls : List Text) : Prop :=
  ∀ early, overflow budget [] xmls = some early → byteLength early < budget - byteLength early →
    CutsCleanly (xmls.flatMap xmlRuns) (budget - byteLength early)

/-- Behind the first overflow nothing visible is left within the budget. -/
def Harmless (budget : Nat) (xmls : List Text) : Prop :=
  ∀ early, overflow budget [] xmls = some early →
    ∀ char ∈ (sliceTo (wholeText xmls) budget).drop
      (sliceTo (wholeText xmls) (reach budget early)).length, isWhitespace char = true

/-- Large budgets give the whole text; others use it up to white space exactly if the first
overflow is harmless. -/
theorem extractParts_budget_iff {parts : List (TextPart kind entryBytes)}
    (aligned : Aligned budget (parts.map TextPart.xml)) :
    (∀ unlimited, 2 * byteLength (wholeText (parts.map TextPart.xml)) ≤ unlimited →
      extractParts kind ⟨entryBytes, unlimited⟩ [] (parts.map TextPart.opened) =
        .ok (wholeText (parts.map TextPart.xml))) ∧
    ((∃ text, extractParts kind ⟨entryBytes, budget⟩ [] (parts.map TextPart.opened) = .ok text ∧
        text.rdropWhile isWhitespace =
          (sliceTo (wholeText (parts.map TextPart.xml))
            (floorCharBoundary (wholeText (parts.map TextPart.xml)) budget)).rdropWhile
              isWhitespace) ↔
      Harmless budget (parts.map TextPart.xml)) := by
  simp only [extractParts_opened, Except.ok.injEq, exists_eq_left', sliceTo_floorCharBoundary]
  generalize parts.map TextPart.xml = xmls at aligned ⊢
  constructor
  · intro unlimited large
    exact (@accumulate_of_no_overflow unlimited [] xmls (by simp) (by simp [textOf])
      (overflow_of_large large)).1
  · cases overflows : overflow budget [] xmls with
    | none =>
        have fits := @accumulate_of_no_overflow budget [] xmls (by simp) (by simp [textOf])
          overflows
        rw [nil_append] at fits
        refine iff_of_true ?_ fun early overflow => ?_
        · rw [wholeText, sliceTo_of_le fits.2]
          exact congrArg _ fits.1
        · cases overflows.symm.trans overflow
    | some early =>
        have cut := @accumulate_of_overflow budget [] xmls early (by simp) (by simp [textOf])
          overflows (aligned early overflows)
        have within : reach budget early ≤ budget :=
          max_le (@byteLength_early budget [] xmls early (by simp [textOf]) overflows)
            (Nat.sub_le _ _)
        rcases @isPrefix_sliceTo (wholeText xmls) budget _ (sliceTo_isPrefix _ (reach budget early))
          ((byteLength_sliceTo_le _ _).trans within) with ⟨behind, split⟩
        have reached : accumulate budget [] xmls =
            sliceTo (wholeText xmls) (reach budget early) := cut
        have harmless : Harmless budget xmls ↔ ∀ char ∈ behind, isWhitespace char = true := by
          simp [Harmless, overflows, ← split]
        rw [reached, harmless, ← split, eq_comm, rdropWhile_append_iff]

theorem xmlRuns_letter {char : Char} (letter : isWhitespace char = false)
    (plain : char ≠ '<' ∧ char ≠ '>' ∧ char ≠ '&') : xmlRuns [char] = [[char]] := by
  have whole : [char].splitOnP isWhitespace = [[char]] :=
    splitOnP_eq_singleton (by simpa using letter)
  simp [xmlRuns, xmlStretches, plain, collapseWhitespace, collapse, whole, joined_cons]

theorem extractParts_budget_iff_letters :
    ∃ text, extractParts .docx ⟨1, 1⟩ []
      [.ok ⟨"word/document.xml".toList, 1, some ['a']⟩, .ok ⟨"docProps/app.xml".toList, 1,
        some ['b']⟩] = .ok text ∧ text.rdropWhile isWhitespace = ['a'] := by
  have first := @xmlRuns_letter 'a' (by decide) (by decide)
  have second := @xmlRuns_letter 'b' (by decide) (by decide)
  have parts := @extractParts_budget_iff .docx 1 1
    [⟨"word/document.xml".toList, 1, ['a'], by decide, by decide⟩,
      ⟨"docProps/app.xml".toList, 1, ['b'], by decide, by decide⟩]
  have overflows : overflow 1 [] [['a'], ['b']] = some ['a'] := by
    simp only [overflow, first, second]
    decide
  have whole : wholeText [['a'], ['b']] = ['a', ' ', 'b'] := by
    simp only [wholeText, flatMap_cons, flatMap_nil, first, second]
    decide
  have reached : reach 1 ['a'] = 1 := by decide
  have used := (parts (by
    intro early found open_
    obtain rfl := Option.some.inj (overflows.symm.trans found)
    exact absurd open_ (by decide))).2.mpr (by
      intro early found
      obtain rfl := Option.some.inj (overflows.symm.trans found)
      simp only [map_cons, map_nil, whole, reached]
      simp)
  simp only [map_cons, map_nil, whole] at used
  rcases used with ⟨text, extracted, same⟩
  exact ⟨text, extracted, same.trans (by decide)⟩

/-- A second letter is dropped though the budget has room for it. -/
theorem extractParts_budget_lost :
    ¬∀ (kind : OoxmlKind) (entryBytes budget : Nat) (parts : List (TextPart kind entryBytes)),
      ∃ text, extractParts kind ⟨entryBytes, budget⟩ [] (parts.map TextPart.opened) = .ok text ∧
        text.rdropWhile isWhitespace =
          (sliceTo (wholeText (parts.map TextPart.xml))
            (floorCharBoundary (wholeText (parts.map TextPart.xml)) budget)).rdropWhile
              isWhitespace := by
  intro used
  have first := @xmlRuns_letter 'a' (by decide) (by decide)
  have second := @xmlRuns_letter 'b' (by decide) (by decide)
  rcases used .docx 1 3 [⟨"word/document.xml".toList, 1, ['a'], by decide, by decide⟩,
    ⟨"docProps/app.xml".toList, 1, ['b'], by decide, by decide⟩] with ⟨text, extracted, same⟩
  rw [extractParts_opened] at extracted
  simp only [map_cons, map_nil, accumulate, first, second, wholeText, flatMap_cons,
    flatMap_nil, Except.ok.injEq] at extracted same
  rw [← extracted] at same
  exact absurd same (by decide)

end Parts

end Gfm.Content

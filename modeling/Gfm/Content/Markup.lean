import Gfm.Content.Structured

/-!
# Text of markup

HTML and the XML parts of office documents are read character by character: tags are skipped,
character references are decoded and the text between is kept, with its white space collapsed.
A budget of bytes cuts the text.

The control never interrupts, and the archive of an office document is a parameter: the list of
its parts, with their sizes and what is read from them.
-/

namespace Gfm.Content

open ByteOffsets Joining List

/-- `split_whitespace`, joined by single spaces. -/
def collapseWhitespace (text : Text) : Text := collapse ' ' isWhitespace text

theorem byteLength_push (output part : Text) :
    byteLength (push ' ' output part) ≤ byteLength output + (byteLength part + 1) := by
  have space : Char.utf8Size ' ' = 1 := rfl
  rcases eq_or_ne part [] with rfl | nonempty
  · simp
  rcases eq_or_ne output [] with rfl | started
  · simp
  · rw [push_of_ne_nil ' ' started nonempty, byteLength_append, byteLength_cons]
    omega

theorem byteLength_joined {parts : List Text} (nonempty : parts ≠ []) :
    byteLength (joined ' ' parts) + 1 ≤ (parts.map fun part => byteLength part + 1).sum := by
  induction parts with
  | nil => exact (nonempty rfl).elim
  | cons part parts ih =>
      rw [joined_cons, map_cons, sum_cons]
      rcases eq_or_ne parts [] with rfl | more
      · simp
      · have size := byteLength_push part (joined ' ' parts)
        have rest := ih more
        omega

theorem byteLength_collapseWhitespace (text : Text) :
    byteLength (collapseWhitespace text) ≤ byteLength text := by
  have parts (text : Text) : ((text.splitOnP isWhitespace).map fun part =>
      byteLength part + 1).sum ≤ byteLength text + 1 := by
    induction text with
    | nil => simp
    | cons char text ih =>
        have positive := char.utf8Size_pos
        rw [splitOnP_cons_eq_if_modifyHead, byteLength_cons]
        split
        · simp only [map_cons, sum_cons, byteLength_nil]
          omega
        · rcases exists_cons_of_ne_nil (splitOnP_ne_nil isWhitespace text) with
            ⟨first, rest, split⟩
          rw [split] at ih ⊢
          simp only [modifyHead_cons, map_cons, sum_cons, byteLength_cons] at ih ⊢
          omega
  have whole := byteLength_joined (splitOnP_ne_nil isWhitespace text)
  exact Nat.le_of_succ_le_succ (whole.trans (parts text))

/-- The name of a reference so far and the characters after it; the result is the whole name and
the characters behind the reference. -/
def scanEntity (entity : Text) : Text → Text × Text
  | [] => (entity, [])
  | next :: chars =>
      if next = ';' ∨ 16 ≤ byteLength entity then (entity, chars)
      else scanEntity (entity ++ [next]) chars

theorem length_scanEntity (entity chars : Text) :
    (scanEntity entity chars).2.length ≤ chars.length := by
  induction chars generalizing entity with
  | nil => simp [scanEntity]
  | cons next chars ih =>
      rw [scanEntity]
      split
      · simp
      · exact (ih _).trans (Nat.le_succ _)

section Html

variable (maxBytes : Nat)

def decodeHtmlEntity (entity : Text) : Char :=
  if entity = ['a', 'm', 'p'] then '&'
  else if entity = ['l', 't'] then '<'
  else if entity = ['g', 't'] then '>'
  else if entity = ['q', 'u', 'o', 't'] then '"'
  else if entity = ['a', 'p', 'o', 's'] then '\''
  else if entity = ['n', 'b', 's', 'p'] then ' '
  else ' '

def pushStrBounded (output value : Text) : Text :=
  let remaining := maxBytes - byteLength output
  if remaining = 0 then output
  else output ++ sliceTo value (floorCharBoundary value remaining)

def pushCharBounded (output : Text) (char : Char) : Text :=
  if byteLength output + char.utf8Size ≤ maxBytes then output ++ [char] else output

def pushSeparatorBounded (output : Text) : Text :=
  if output.isEmpty ∨ output.getLast?.any isWhitespace then output
  else pushCharBounded maxBytes output ' '

inductive Skipping where
  | script
  | style
  deriving DecidableEq, Repr

def Skipping.name : Skipping → Text
  | script => ['s', 'c', 'r', 'i', 'p', 't']
  | style => ['s', 't', 'y', 'l', 'e']

def blockNames : List Text :=
  [['b', 'r'], ['p'], ['d', 'i', 'v'], ['l', 'i'], ['t', 'r'], ['h', '1'], ['h', '2'], ['h', '3']]

structure HtmlScan where
  output : Text
  tag : Text
  inTag : Bool
  skipping : Option Skipping

/-- The name of the tag, without its slash and in lower case. -/
def tagName (tag : Text) : Text :=
  (((trim tag).dropWhile fun char => char = '/').splitOnP isWhitespace
    |>.find? (fun word => !word.isEmpty) |>.getD []).map asciiLower

def isClosing (tag : Text) : Bool := (tag.dropWhile isWhitespace).head? = some '/'

/-- The end of a tag. -/
def closeTag (scan : HtmlScan) : HtmlScan :=
  let name := tagName scan.tag
  let scan := { scan with inTag := false }
  if name = Skipping.script.name ∧ !isClosing scan.tag then { scan with skipping := some .script }
  else if name = Skipping.style.name ∧ !isClosing scan.tag then
    { scan with skipping := some .style }
  else if name = Skipping.script.name ∧ isClosing scan.tag ∧ scan.skipping = some .script then
    { scan with skipping := none }
  else if name = Skipping.style.name ∧ isClosing scan.tag ∧ scan.skipping = some .style then
    { scan with skipping := none }
  else if name ∈ blockNames ∧ scan.skipping = none then
    { scan with output := pushSeparatorBounded maxBytes scan.output }
  else scan

def htmlLoop (scan : HtmlScan) : Text → Text
  | [] => scan.output
  | char :: chars =>
      if maxBytes ≤ byteLength scan.output then scan.output
      else if char = '<' then htmlLoop { scan with inTag := true, tag := [] } chars
      else if char = '>' ∧ scan.inTag then htmlLoop (closeTag maxBytes scan) chars
      else if scan.inTag then htmlLoop { scan with tag := scan.tag ++ [char] } chars
      else if char = '&' ∧ scan.skipping = none then
        let entity := scanEntity [] chars
        htmlLoop
          { scan with output := pushStrBounded maxBytes scan.output [decodeHtmlEntity entity.1] }
          entity.2
      else if scan.skipping = none then
        htmlLoop { scan with output := pushCharBounded maxBytes scan.output char } chars
      else htmlLoop scan chars
termination_by chars => chars.length
decreasing_by
  all_goals simp only [length_cons]
  all_goals have behind := length_scanEntity [] chars
  all_goals omega

def collapseStep (output token : Text) : Text :=
  if maxBytes ≤ byteLength output then output
  else
    pushStrBounded maxBytes
      (if output.isEmpty then output else pushCharBounded maxBytes output ' ') token

def collapseWhitespaceBounded (input : Text) : Text :=
  ((input.splitOnP isWhitespace).filter fun token => !token.isEmpty).foldl
    (collapseStep maxBytes) []

def htmlText (input : Text) : Text :=
  collapseWhitespaceBounded maxBytes (htmlLoop maxBytes ⟨[], [], false, none⟩ input)

end Html

section Xml

variable (maxBytes : Nat)

def decodeXmlEntity (entity : Text) : Char :=
  if entity = ['a', 'm', 'p'] then '&'
  else if entity = ['l', 't'] then '<'
  else if entity = ['g', 't'] then '>'
  else if entity = ['q', 'u', 'o', 't'] then '"'
  else if entity = ['a', 'p', 'o', 's'] then '\''
  else ' '

/-- The text of a run at the end of the output. -/
def flushText (output text : Text) : Text :=
  let normalized := collapseWhitespace text
  if normalized.isEmpty ∨ maxBytes ≤ byteLength output then output
  else
    let output := if output.isEmpty ∨ output.getLast? = some ' ' then output else output ++ [' ']
    let remaining := maxBytes - byteLength output
    if byteLength normalized ≤ remaining then output ++ normalized
    else output ++ sliceTo normalized (floorCharBoundary normalized remaining)

/-- The loop over the characters; after each, a full output ends it. -/
def xmlLoop (inTag : Bool) (text output : Text) : Text → Text
  | [] => flushText maxBytes output text
  | char :: chars =>
      if char = '<' then
        let output := flushText maxBytes output text
        if maxBytes ≤ byteLength output then output else xmlLoop true [] output chars
      else if maxBytes ≤ byteLength output then output
      else if char = '>' then xmlLoop false text output chars
      else if char = '&' ∧ !inTag then
        let entity := scanEntity [] chars
        xmlLoop inTag (text ++ [decodeXmlEntity entity.1]) output entity.2
      else if !inTag then xmlLoop inTag (text ++ [char]) output chars
      else xmlLoop inTag text output chars
termination_by chars => chars.length
decreasing_by
  all_goals simp only [length_cons]
  all_goals have behind := length_scanEntity [] chars
  all_goals omega

def appendXmlText (xml output : Text) : Text := xmlLoop maxBytes false [] output xml

end Xml

section Office

inductive OoxmlKind where
  | docx
  | xlsx
  | pptx
  deriving DecidableEq, Repr

inductive OoxmlExtractStatus where
  | entryTooLarge
  | encrypted
  | corrupt
  deriving DecidableEq, Repr

structure OfficePolicy where
  maxOfficeEntryBytes : Nat
  maxOfficeTextBytes : Nat

/-- A part of the archive; what is read of it is not always text. -/
structure OoxmlPart where
  name : Text
  size : Nat
  xml : Option Text

def startsWith (name : Text) (start : String) : Bool := start.toList.isPrefixOf name

def isTextPart (kind : OoxmlKind) (name : Text) : Bool :=
  match kind with
  | .docx =>
      name = "word/document.xml".toList || startsWith name "word/header" ||
        startsWith name "word/footer" || startsWith name "word/comments" ||
        startsWith name "docProps/"
  | .xlsx =>
      name = "xl/sharedStrings.xml".toList || startsWith name "xl/worksheets/sheet" ||
        startsWith name "xl/chartsheets/sheet" || startsWith name "docProps/"
  | .pptx =>
      startsWith name "ppt/slides/slide" || startsWith name "ppt/notesSlides/notesSlide" ||
        startsWith name "ppt/comments/comment" || startsWith name "docProps/"

/-- The loop over the parts: the text so far and the parts that are left, of which the archive
may fail to open one. -/
def extractParts (kind : OoxmlKind) (policy : OfficePolicy) (text : Text) :
    List (Except OoxmlExtractStatus OoxmlPart) → Except OoxmlExtractStatus Text
  | [] => .ok text
  | .error status :: _ => .error status
  | .ok part :: parts =>
      if !isTextPart kind part.name then extractParts kind policy text parts
      else if policy.maxOfficeEntryBytes < part.size then .error .entryTooLarge
      else
        let remaining := policy.maxOfficeTextBytes - byteLength text
        if remaining = 0 then .ok text
        else
          match part.xml with
          | none => .error .corrupt
          | some xml => extractParts kind policy (appendXmlText remaining xml text) parts

end Office

end Gfm.Content

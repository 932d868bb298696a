import Gfm.Content.Markup

/-!
# Visible text of markup

A document is a sequence of tags and spelled characters; a character is written raw or as a
reference. What the extractors show of it is its characters in order, with tags as separators and
white space collapsed. Numeric references are not decoded but read as a space, so that the text is
complete exactly where they stand for white space, if no ampersand is raw; XML loses a raw closing
bracket as well.
-/

namespace Gfm.Content

open ByteOffsets Joining List

section Documents

inductive NamedReference where
  | amp
  | lt
  | gt
  | quot
  | apos
  | nbsp

namespace NamedReference

def name : NamedReference → Text
  | amp => ['a', 'm', 'p']
  | lt => ['l', 't']
  | gt => ['g', 't']
  | quot => ['q', 'u', 'o', 't']
  | apos => ['a', 'p', 'o', 's']
  | nbsp => ['n', 'b', 's', 'p']

def char : NamedReference → Char
  | amp => '&'
  | lt => '<'
  | gt => '>'
  | quot => '"'
  | apos => '\''
  | nbsp => '\u00A0'

end NamedReference

/-- The digits of a reference in a base up to sixteen, with their case. -/
structure ReferenceDigit where
  value : Fin 16
  upper : Bool

def ReferenceDigit.written (digit : ReferenceDigit) : Char :=
  Char.ofNat (if digit.value < 10 then 48 + digit.value.val
    else if digit.upper then 55 + digit.value.val else 87 + digit.value.val)

def numericValue (base : Nat) (digits : List ReferenceDigit) : Nat :=
  digits.foldl (fun value digit => base * value + digit.value.val) 0

inductive CharSpelling where
  | raw (char : Char) (notOpening : char ≠ '<')
  | named (reference : NamedReference)
  | decimal (char : Char) (digits : List ReferenceDigit)
      (nonempty : digits ≠ []) (isDecimal : ∀ digit ∈ digits, digit.value < 10)
      (denotes : numericValue 10 digits = char.toNat)
  | hexadecimal (char : Char) (upper : Bool) (digits : List ReferenceDigit)
      (nonempty : digits ≠ []) (denotes : numericValue 16 digits = char.toNat)

namespace CharSpelling

/-- The character that the spelling stands for. -/
def char : CharSpelling → Char
  | raw char _ => char
  | named reference => reference.char
  | decimal char .. => char
  | hexadecimal char .. => char

/-- What stands between the ampersand and the semicolon of a reference. -/
def entity : CharSpelling → Option Text
  | raw _ _ => none
  | named reference => some reference.name
  | decimal _ digits .. => some ('#' :: digits.map ReferenceDigit.written)
  | hexadecimal _ upper digits .. =>
      some ('#' :: (if upper then 'X' else 'x') :: digits.map ReferenceDigit.written)

def written (spelling : CharSpelling) : Text :=
  match spelling.entity with
  | none => [spelling.char]
  | some entity => '&' :: (entity ++ [';'])

def isNumeric : CharSpelling → Bool
  | raw .. => false
  | named _ => false
  | decimal .. => true
  | hexadecimal .. => true

/-- Not a raw ampersand, nor a reference that is longer than the decoder reads. -/
def Tame (spelling : CharSpelling) : Prop :=
  match spelling.entity with
  | none => spelling.char ≠ '&'
  | some entity => byteLength entity ≤ 16

end CharSpelling

structure MarkupTag where
  closing : Bool
  name : Text
  attributes : Text
  named : name ≠ []
  plainName : ∀ char ∈ name, char ≠ '<' ∧ char ≠ '>' ∧ char ≠ '/' ∧ isWhitespace char = false
  plainAttributes : ∀ char ∈ attributes, char ≠ '<' ∧ char ≠ '>'
  separate : ∀ char ∈ attributes.head?, isWhitespace char = true ∨ char = '/'

namespace MarkupTag

def body (tag : MarkupTag) : Text :=
  (if tag.closing then ['/'] else []) ++ (tag.name ++ tag.attributes)

def written (tag : MarkupTag) : Text := '<' :: (tag.body ++ ['>'])

def lowerName (tag : MarkupTag) : Text := tag.name.map asciiLower

/-- No slash stands directly behind the name. -/
def Spaced (tag : MarkupTag) : Prop := tag.attributes.head? ≠ some '/'

end MarkupTag

/-- No tag between brackets is one of a script or a style. -/
def NoHidingTag (content : Text) : Prop :=
  ∀ body, '<' ∉ body → '>' ∉ body → '<' :: (body ++ ['>']) <:+: content →
    ∀ kind : Skipping, tagName body ≠ kind.name

/-- An element whose content is not text. -/
structure HiddenElement where
  kind : Skipping
  opening : MarkupTag
  content : Text
  ending : MarkupTag
  opens : opening.closing = false ∧ opening.lowerName = kind.name ∧ opening.Spaced
  inert : NoHidingTag content
  ends : ending.closing = true ∧ ending.lowerName = kind.name ∧ ending.Spaced

inductive HtmlItem where
  | char (spelling : CharSpelling)
  | tag (tag : MarkupTag)
      (shown : tag.lowerName ≠ Skipping.script.name ∧ tag.lowerName ≠ Skipping.style.name)
  | hidden (element : HiddenElement)

namespace HtmlItem

def written : HtmlItem → Text
  | char spelling => spelling.written
  | tag given _ => given.written
  | hidden element => element.opening.written ++ (element.content ++ element.ending.written)

/-- What a reader sees: block tags separate what is before them from what is behind. -/
def visible : HtmlItem → Text
  | char spelling => [spelling.char]
  | tag given _ => if given.lowerName ∈ blockNames then [' '] else []
  | hidden _ => []

def Tame : HtmlItem → Prop
  | char spelling => spelling.Tame
  | tag given _ => given.lowerName ∈ blockNames → given.Spaced
  | hidden _ => True

def isLost : HtmlItem → Bool
  | char spelling => spelling.isNumeric && !isWhitespace spelling.char
  | _ => false

end HtmlItem

inductive XmlItem where
  | char (spelling : CharSpelling)
  | tag (tag : MarkupTag)

namespace XmlItem

def written : XmlItem → Text
  | char spelling => spelling.written
  | tag given => given.written

def visible : XmlItem → Text
  | char spelling => [spelling.char]
  | tag _ => [' ']

def Tame : XmlItem → Prop
  | char spelling => spelling.Tame
  | tag _ => True

/-- A raw closing bracket is taken for the end of a tag. -/
def isLost : XmlItem → Bool
  | char spelling =>
      spelling.isNumeric && !isWhitespace spelling.char || spelling.written = ['>']
  | tag _ => false

end XmlItem

def writeHtml (items : List HtmlItem) : Text := items.flatMap HtmlItem.written

def writeXml (items : List XmlItem) : Text := items.flatMap XmlItem.written

def htmlVisible (items : List HtmlItem) : Text :=
  collapseWhitespace (items.flatMap HtmlItem.visible)

def xmlVisible (items : List XmlItem) : Text := collapseWhitespace (items.flatMap XmlItem.visible)

end Documents

section References

theorem scanEntity_append {before entity : Text} (closed : ';' ∉ entity)
    (short : byteLength before + byteLength entity ≤ 16) (rest : Text) :
    scanEntity before (entity ++ ';' :: rest) = (before ++ entity, rest) := by
  induction entity generalizing before with
  | nil => simp [scanEntity]
  | cons char entity ih =>
      rw [mem_cons, not_or] at closed
      rw [byteLength_cons] at short
      have positive := char.utf8Size_pos
      have continues : ¬(char = ';' ∨ 16 ≤ byteLength before) := by
        rintro (rfl | full)
        · exact closed.1 rfl
        · omega
      rw [cons_append, scanEntity, if_neg continues, ih closed.2, append_assoc,
        singleton_append]
      rw [byteLength_append, byteLength_cons, byteLength_nil]
      omega

theorem written_ne_semicolon (digit : ReferenceDigit) : digit.written ≠ ';' := by
  obtain ⟨value, upper⟩ := digit
  revert value
  cases upper <;> decide

theorem entity_closed {spelling : CharSpelling} {entity : Text}
    (isEntity : spelling.entity = some entity) : ';' ∉ entity := by
  have digits : ∀ digits : List ReferenceDigit, ';' ∉ digits.map ReferenceDigit.written := by
    intro digits listed
    rcases mem_map.mp listed with ⟨digit, _, same⟩
    exact written_ne_semicolon digit same
  cases spelling with
  | raw => cases isEntity
  | named reference =>
      obtain rfl := Option.some.inj isEntity
      cases reference <;> decide
  | decimal char written =>
      obtain rfl := Option.some.inj isEntity
      simp [digits written]
  | hexadecimal char upper written =>
      obtain rfl := Option.some.inj isEntity
      cases upper <;> simp [digits written]

/-- What the decoders make of the spelling. -/
def readChar (spelling : CharSpelling) : Char :=
  match spelling with
  | .raw char _ => char
  | .named .nbsp => ' '
  | .named reference => reference.char
  | .decimal .. => ' '
  | .hexadecimal .. => ' '

theorem decodeHtmlEntity_eq {spelling : CharSpelling} {entity : Text}
    (isEntity : spelling.entity = some entity) :
    decodeHtmlEntity entity = readChar spelling := by
  cases spelling with
  | raw => cases isEntity
  | named reference =>
      obtain rfl := Option.some.inj isEntity
      cases reference <;> rfl
  | decimal char written =>
      obtain rfl := Option.some.inj isEntity
      simp [decodeHtmlEntity, readChar]
  | hexadecimal char upper written =>
      obtain rfl := Option.some.inj isEntity
      simp [decodeHtmlEntity, readChar]

theorem decodeXmlEntity_eq {spelling : CharSpelling} {entity : Text}
    (isEntity : spelling.entity = some entity) :
    decodeXmlEntity entity = readChar spelling := by
  cases spelling with
  | raw => cases isEntity
  | named reference =>
      obtain rfl := Option.some.inj isEntity
      cases reference <;> rfl
  | decimal char written =>
      obtain rfl := Option.some.inj isEntity
      simp [decodeXmlEntity, readChar]
  | hexadecimal char upper written =>
      obtain rfl := Option.some.inj isEntity
      simp [decodeXmlEntity, readChar]

theorem readChar_of_raw {spelling : CharSpelling} (isRaw : spelling.entity = none) :
    readChar spelling = spelling.char := by
  cases spelling with
  | raw => rfl
  | named | decimal | hexadecimal => cases isRaw

theorem ne_opening_of_raw {spelling : CharSpelling} (isRaw : spelling.entity = none) :
    spelling.char ≠ '<' := by
  cases spelling with
  | raw char notOpening => exact notOpening
  | named | decimal | hexadecimal => cases isRaw

theorem utf8Size_readChar_of_entity {spelling : CharSpelling} {entity : Text}
    (isEntity : spelling.entity = some entity) : (readChar spelling).utf8Size = 1 := by
  cases spelling with
  | raw => cases isEntity
  | named reference => cases reference <;> rfl
  | decimal | hexadecimal => rfl

theorem utf8Size_readChar (spelling : CharSpelling) :
    (readChar spelling).utf8Size ≤ byteLength spelling.written := by
  cases entity : spelling.entity with
  | none => simp [readChar_of_raw entity, CharSpelling.written, entity]
  | some entity' =>
      have one := utf8Size_readChar_of_entity entity
      have ampersand : Char.utf8Size '&' = 1 := rfl
      simp [one, CharSpelling.written, entity, ampersand]

end References

section Bounds

variable {maxBytes : Nat} {output : Text}

theorem pushCharBounded_of_room {char : Char}
    (room : byteLength output + char.utf8Size ≤ maxBytes) :
    pushCharBounded maxBytes output char = output ++ [char] := if_pos room

theorem pushStrBounded_of_room {value : Text}
    (room : byteLength output + byteLength value ≤ maxBytes) :
    pushStrBounded maxBytes output value = output ++ value := by
  have fits : byteLength value ≤ maxBytes - byteLength output := by omega
  rw [pushStrBounded]
  split
  next none =>
    have empty : value = [] := byteLength_eq_zero.mp (by omega)
    rw [empty, append_nil]
  next => rw [floorCharBoundary_of_le fits, sliceTo_byteLength]

end Bounds

section Tags

theorem trim_of_ends {text : Text} (first : ∀ char ∈ text.head?, isWhitespace char = false)
    (last : ∀ char ∈ text.getLast?, isWhitespace char = false) : trim text = text := by
  have front : text.dropWhile isWhitespace = text := by
    cases text with
    | nil => rfl
    | cons char text => exact dropWhile_cons_of_neg (by simp [first char rfl])
  rw [trim, trimWith, front, rdropWhile_eq_self_iff]
  intro present
  rw [last _ (getLast?_eq_some_getLast present)]
  exact Bool.false_ne_true

/-- White space behind a text that does not end in it is trimmed without a change to the text. -/
theorem trim_append {text rest : Text} (present : text ≠ [])
    (first : ∀ char ∈ text.head?, isWhitespace char = false)
    (last : ∀ char ∈ text.getLast?, isWhitespace char = false) :
    ∃ kept, trim (text ++ rest) = text ++ kept ∧ kept <+: rest := by
  induction rest using List.reverseRecOn with
  | nil => exact ⟨[], by rw [append_nil, trim_of_ends first last], prefix_refl _⟩
  | append_singleton rest char ih =>
      have started : ∀ other ∈ (text ++ (rest ++ [char])).head?, isWhitespace other = false := by
        intro other head
        cases text with
        | nil => exact (present rfl).elim
        | cons initial text => exact first other head
      by_cases blank : isWhitespace char = true
      · rcases ih with ⟨kept, trimmed, begins⟩
        refine ⟨kept, ?_, begins.trans (prefix_append _ _)⟩
        have front : ∀ more, (text ++ more).dropWhile isWhitespace = text ++ more := by
          intro more
          cases text with
          | nil => exact (present rfl).elim
          | cons char text => exact dropWhile_cons_of_neg (by simp [first char rfl])
        rw [← trimmed, trim, trimWith, trim, trimWith, front, front, ← append_assoc,
          rdropWhile_concat_pos _ _ _ blank]
      · refine ⟨rest ++ [char], trim_of_ends started ?_, prefix_refl _⟩
        intro other final
        rw [← append_assoc, getLast?_concat] at final
        obtain rfl := Option.some.inj final
        exact Bool.eq_false_iff.mpr blank

namespace MarkupTag

variable (tag : MarkupTag)

theorem plain_body : ∀ char ∈ tag.body, char ≠ '<' ∧ char ≠ '>' := by
  rw [body, forall_mem_append, forall_mem_append]
  refine ⟨fun char listed => ?_, fun char listed => ?_, tag.plainAttributes⟩
  · cases closing : tag.closing
    · simp [closing] at listed
    · obtain rfl : char = '/' := by simpa [closing] using listed
      decide
  · have name := tag.plainName char listed
    exact ⟨name.1, name.2.1⟩

/-- The name with what stands directly behind it. -/
def word : Text := tag.name ++ tag.attributes.takeWhile fun char => !isWhitespace char

theorem word_ne_nil : tag.word ≠ [] := append_ne_nil_of_left_ne_nil tag.named _

theorem isWhitespace_word : ∀ char ∈ tag.word, isWhitespace char = false := by
  rw [word, forall_mem_append]
  refine ⟨fun char listed => (tag.plainName char listed).2.2.2, fun char listed => ?_⟩
  simpa using mem_takeWhile_imp listed

theorem dropWhile_body (rest : Text) :
    ((if tag.closing then ['/'] else []) ++ (tag.word ++ rest)).dropWhile (fun char => char = '/') =
      tag.word ++ rest := by
  obtain ⟨first, more, nameEq⟩ := exists_cons_of_ne_nil tag.named
  have plain : first ≠ '/' := (tag.plainName first (by simp [nameEq])).2.2.1
  have wordEq : tag.word ++ rest =
      first :: (more ++ (tag.attributes.takeWhile fun char => !isWhitespace char) ++ rest) := by
    rw [word, nameEq]
    simp
  have stops : (tag.word ++ rest).dropWhile (fun char => char = '/') = tag.word ++ rest := by
    rw [wordEq]
    exact dropWhile_cons_of_neg (by simpa using plain)
  cases tag.closing
  · exact stops
  · exact (dropWhile_cons_of_pos (by simp)).trans stops

theorem tagName_body : tagName tag.body = tag.word.map asciiLower := by
  have split : tag.body = ((if tag.closing then ['/'] else []) ++ tag.word) ++
      tag.attributes.dropWhile fun char => !isWhitespace char := by
    rw [body, word, append_assoc, append_assoc, takeWhile_append_dropWhile]
  have visible : ∀ char ∈ (if tag.closing then ['/'] else []) ++ tag.word,
      isWhitespace char = false := by
    rw [forall_mem_append]
    refine ⟨fun char listed => ?_, tag.isWhitespace_word⟩
    cases closing : tag.closing
    · simp [closing] at listed
    · obtain rfl : char = '/' := by simpa [closing] using listed
      rfl
  rcases @trim_append _ (tag.attributes.dropWhile fun char => !isWhitespace char)
    (append_ne_nil_of_right_ne_nil _ tag.word_ne_nil)
    (fun char first => visible char (mem_of_head? first))
    (fun char last => visible char (mem_of_getLast? last)) with ⟨kept, trimmed, begins⟩
  have found : ((tag.word ++ kept).splitOnP isWhitespace).find? (fun word => !word.isEmpty) =
      some tag.word := by
    cases kept with
    | nil =>
        rw [append_nil, splitOnP_eq_singleton tag.isWhitespace_word]
        simp [tag.word_ne_nil]
    | cons space kept =>
        have blank : isWhitespace space = true := by
          rcases begins with ⟨more, restEq⟩
          have stopped := head?_dropWhile_not (fun char => !isWhitespace char) tag.attributes
          rw [← restEq] at stopped
          simpa using stopped
        rw [splitOnP_append_cons_of_forall_mem tag.isWhitespace_word space blank]
        simp [tag.word_ne_nil]
  rw [tagName, split, trimmed, append_assoc, dropWhile_body, found, Option.getD_some]

theorem isClosing_body : isClosing tag.body = tag.closing := by
  obtain ⟨first, more, nameEq⟩ := exists_cons_of_ne_nil tag.named
  have plain := tag.plainName first (by simp [nameEq])
  rw [isClosing, body, nameEq]
  cases tag.closing
  · simp [plain]
  · simp [isWhitespace]

theorem word_of_spaced (spaced : tag.Spaced) : tag.word = tag.name := by
  rw [word]
  cases attributesEq : tag.attributes with
  | nil => simp
  | cons first rest =>
      rcases tag.separate first (by simp [attributesEq]) with blank | slash
      · simp [blank]
      · exact (spaced (by rw [attributesEq, slash]; rfl)).elim

theorem slash_mem_word (attached : ¬tag.Spaced) : '/' ∈ tag.word := by
  rw [Spaced, not_not] at attached
  cases attributesEq : tag.attributes with
  | nil =>
      rw [attributesEq] at attached
      cases attached
  | cons first rest =>
      rw [attributesEq] at attached
      obtain rfl := Option.some.inj attached
      have visible : isWhitespace '/' = false := rfl
      simp [word, attributesEq, visible]

theorem tagName_of_spaced (spaced : tag.Spaced) : tagName tag.body = tag.lowerName := by
  rw [tagName_body, tag.word_of_spaced spaced, lowerName]

theorem tagName_ne_of_attached (attached : ¬tag.Spaced) {name : Text} (plain : '/' ∉ name) :
    tagName tag.body ≠ name := by
  rintro rfl
  apply plain
  rw [tagName_body]
  exact mem_map.mpr ⟨'/', tag.slash_mem_word attached, rfl⟩

theorem tagName_ne {name : Text} (plain : '/' ∉ name) (other : tag.lowerName ≠ name) :
    tagName tag.body ≠ name := by
  by_cases spaced : tag.Spaced
  · rwa [tag.tagName_of_spaced spaced]
  · exact tag.tagName_ne_of_attached spaced plain

theorem tagName_mem_blockNames (tame : tag.lowerName ∈ blockNames → tag.Spaced) :
    tagName tag.body ∈ blockNames ↔ tag.lowerName ∈ blockNames := by
  by_cases spaced : tag.Spaced
  · rw [tag.tagName_of_spaced spaced]
  · have plain : ∀ name ∈ blockNames, '/' ∉ name := by decide
    refine iff_of_false (fun listed => ?_) (fun block => spaced (tame block))
    exact tag.tagName_ne_of_attached spaced (plain _ listed) rfl

end MarkupTag

end Tags

section Html

variable {maxBytes : Nat} {output tag rest : Text} {skipping : Option Skipping}

/-- A shown tag only separates. -/
theorem closeTag_shown (given : MarkupTag)
    (shown : given.lowerName ≠ Skipping.script.name ∧ given.lowerName ≠ Skipping.style.name)
    (tame : given.lowerName ∈ blockNames → given.Spaced) :
    closeTag maxBytes ⟨output, given.body, true, none⟩ =
      ⟨if given.lowerName ∈ blockNames then pushSeparatorBounded maxBytes output else output,
        given.body, false, none⟩ := by
  have notScript := @MarkupTag.tagName_ne given Skipping.script.name (by decide) shown.1
  have notStyle := @MarkupTag.tagName_ne given Skipping.style.name (by decide) shown.2
  have block := given.tagName_mem_blockNames tame
  simp only [closeTag, notScript, notStyle, false_and, if_false, and_true, block]
  split <;> rfl

theorem closeTag_opening (element : HiddenElement) :
    closeTag maxBytes ⟨output, element.opening.body, true, none⟩ =
      ⟨output, element.opening.body, false, some element.kind⟩ := by
  obtain ⟨opening, name, spaced⟩ := element.opens
  have tagName := (element.opening.tagName_of_spaced spaced).trans name
  have isOpening := element.opening.isClosing_body.trans opening
  cases kind : element.kind <;> simp [closeTag, tagName, isOpening, kind, Skipping.name]

theorem closeTag_ending (element : HiddenElement) :
    closeTag maxBytes ⟨output, element.ending.body, true, some element.kind⟩ =
      ⟨output, element.ending.body, false, none⟩ := by
  obtain ⟨closing, name, spaced⟩ := element.ends
  have tagName := (element.ending.tagName_of_spaced spaced).trans name
  have isClosing := element.ending.isClosing_body.trans closing
  cases kind : element.kind <;> simp [closeTag, tagName, isClosing, kind, Skipping.name]

theorem htmlLoop_raw {char : Char} (plain : char ≠ '<' ∧ char ≠ '&')
    (room : byteLength output + byteLength (char :: rest) < maxBytes) :
    htmlLoop maxBytes ⟨output, tag, false, none⟩ (char :: rest) =
      htmlLoop maxBytes ⟨output ++ [char], tag, false, none⟩ rest := by
  rw [byteLength_cons] at room
  have open_ : ¬maxBytes ≤ byteLength output := by omega
  rw [htmlLoop]
  simp only [open_, plain, if_false, Bool.false_eq_true, and_false, false_and, if_true]
  rw [pushCharBounded_of_room (by omega)]

theorem htmlLoop_reference {entity : Text} (closed : ';' ∉ entity) (short : byteLength entity ≤ 16)
    (room : byteLength output + byteLength ('&' :: (entity ++ ';' :: rest)) < maxBytes)
    (one : (decodeHtmlEntity entity).utf8Size = 1) :
    htmlLoop maxBytes ⟨output, tag, false, none⟩ ('&' :: (entity ++ ';' :: rest)) =
      htmlLoop maxBytes ⟨output ++ [decodeHtmlEntity entity], tag, false, none⟩ rest := by
  have ampersand : Char.utf8Size '&' = 1 := rfl
  rw [byteLength_cons, ampersand] at room
  have open_ : ¬maxBytes ≤ byteLength output := by omega
  have notOpening : '&' ≠ '<' := by decide
  have scanned := @scanEntity_append [] entity closed (by simpa using short) rest
  rw [htmlLoop]
  simp only [open_, notOpening, if_false, Bool.false_eq_true, and_false, and_self, if_true, scanned,
    nil_append]
  rw [pushStrBounded_of_room (by simp only [byteLength_cons, byteLength_nil, one]; omega)]

theorem htmlLoop_body {body : Text} (plain : ∀ char ∈ body, char ≠ '<' ∧ char ≠ '>')
    (room : byteLength output < maxBytes) :
    htmlLoop maxBytes ⟨output, tag, true, skipping⟩ (body ++ rest) =
      htmlLoop maxBytes ⟨output, tag ++ body, true, skipping⟩ rest := by
  induction body generalizing tag with
  | nil => simp
  | cons char body ih =>
      rw [forall_mem_cons] at plain
      rw [cons_append, htmlLoop]
      simp only [not_le.mpr room, plain.1, if_false, false_and, if_true]
      rw [ih plain.2, append_assoc, singleton_append]

theorem htmlLoop_tag (given : MarkupTag) (room : byteLength output < maxBytes) {inTag : Bool} :
    htmlLoop maxBytes ⟨output, tag, inTag, skipping⟩ (given.written ++ rest) =
      htmlLoop maxBytes (closeTag maxBytes ⟨output, given.body, true, skipping⟩) rest := by
  have open_ : ¬maxBytes ≤ byteLength output := by omega
  rw [MarkupTag.written, cons_append, append_assoc, singleton_append, htmlLoop]
  simp only [open_, if_false, if_true]
  rw [htmlLoop_body given.plain_body room, nil_append, htmlLoop]
  simp [open_]

theorem closeTag_inert {kind : Skipping} (other : ∀ kind : Skipping, tagName tag ≠ kind.name) :
    closeTag maxBytes ⟨output, tag, true, some kind⟩ = ⟨output, tag, false, some kind⟩ := by
  simp [closeTag, other]

/-- The content may begin inside a tag; the part of the tag that is read is `tag`. -/
theorem htmlLoop_hidden {content : Text} {kind : Skipping} {inTag : Bool}
    (inert : NoHidingTag ((if inTag then '<' :: tag else []) ++ content))
    (plain : inTag = true → '<' ∉ tag ∧ '>' ∉ tag) (room : byteLength output < maxBytes) :
    ∃ last within, htmlLoop maxBytes ⟨output, tag, inTag, some kind⟩ (content ++ rest) =
      htmlLoop maxBytes ⟨output, last, within, some kind⟩ rest := by
  have suffix {left right : Text} (inert : NoHidingTag (left ++ right)) : NoHidingTag right :=
    fun body opening closing listed =>
      inert body opening closing (listed.trans (suffix_append _ _).isInfix)
  have open_ : ¬maxBytes ≤ byteLength output := by omega
  induction content generalizing tag inTag with
  | nil => exact ⟨tag, inTag, rfl⟩
  | cons char content ih =>
      rw [cons_append, htmlLoop]
      simp only [open_, if_false, reduceCtorEq, and_false]
      split
      next opening =>
        subst opening
        exact ih (by simpa using suffix inert) (by simp)
      next notOpening =>
        cases inTag with
        | false => simpa using ih (by simpa using @suffix [char] _ inert) (by simp)
        | true =>
            have plain := plain rfl
            simp only [if_true, cons_append] at inert
            by_cases closing : char = '>'
            · subst closing
              have other := inert tag plain.1 plain.2 ⟨[], content, by simp⟩
              rw [if_pos ⟨rfl, rfl⟩, closeTag_inert other]
              have behind : NoHidingTag content :=
                @suffix ('<' :: (tag ++ ['>'])) _ (by simpa using inert)
              exact ih (by simpa using behind) (by simp)
            · simp only [closing, false_and, if_false, if_true]
              apply ih
              · simpa using inert
              · simp [plain, Ne.symm notOpening, Ne.symm closing]

end Html

section Reading

variable {maxBytes : Nat}

def separate (output : Text) : Text :=
  if output.isEmpty ∨ output.getLast?.any isWhitespace then output else output ++ [' ']

theorem pushSeparatorBounded_of_room {output : Text} (room : byteLength output < maxBytes) :
    pushSeparatorBounded maxBytes output = separate output := by
  have space : Char.utf8Size ' ' = 1 := rfl
  rw [pushSeparatorBounded, separate, pushCharBounded_of_room (by omega)]

theorem byteLength_separate (output : Text) :
    byteLength (separate output) ≤ byteLength output + 1 := by
  have space : Char.utf8Size ' ' = 1 := rfl
  rw [separate]
  split <;> simp [space]

/-- What one item adds to the text that is read. -/
def readHtml (output : Text) : HtmlItem → Text
  | .char spelling => output ++ [readChar spelling]
  | .tag given _ => if given.lowerName ∈ blockNames then separate output else output
  | .hidden _ => output

theorem byteLength_written (given : MarkupTag) : 1 < byteLength given.written := by
  have sizes : Char.utf8Size '<' = 1 ∧ Char.utf8Size '>' = 1 := ⟨rfl, rfl⟩
  simp [MarkupTag.written, sizes]

theorem byteLength_readHtml (output : Text) (item : HtmlItem) :
    byteLength (readHtml output item) ≤ byteLength output + byteLength item.written := by
  cases item with
  | char spelling =>
      have size := utf8Size_readChar spelling
      simp only [readHtml, HtmlItem.written, byteLength_append, byteLength_cons, byteLength_nil]
      omega
  | tag given _ =>
      have size := byteLength_written given
      have separated := byteLength_separate output
      simp only [readHtml, HtmlItem.written]
      split <;> omega
  | hidden => exact Nat.le_add_right _ _

/-- One item is read as a whole. -/
theorem htmlLoop_item {output tag rest : Text} {item : HtmlItem} (tame : item.Tame)
    (room : byteLength output + byteLength (item.written ++ rest) < maxBytes) :
    ∃ last, htmlLoop maxBytes ⟨output, tag, false, none⟩ (item.written ++ rest) =
      htmlLoop maxBytes ⟨readHtml output item, last, false, none⟩ rest := by
  have open_ : byteLength output < maxBytes := by omega
  cases item with
  | char spelling =>
      refine ⟨tag, ?_⟩
      rw [readHtml, HtmlItem.written, CharSpelling.written]
      cases isEntity : spelling.entity with
      | none =>
          simp only [HtmlItem.Tame, CharSpelling.Tame, isEntity] at tame
          simp only [HtmlItem.written, CharSpelling.written, isEntity] at room
          rw [readChar_of_raw isEntity]
          exact htmlLoop_raw ⟨ne_opening_of_raw isEntity, tame⟩ room
      | some entity =>
          simp only [HtmlItem.Tame, CharSpelling.Tame, isEntity] at tame
          simp only [HtmlItem.written, CharSpelling.written, isEntity] at room
          have one := utf8Size_readChar_of_entity isEntity
          have decoded := decodeHtmlEntity_eq isEntity
          simp only [cons_append, append_assoc] at room ⊢
          rw [← decoded] at one ⊢
          exact htmlLoop_reference (entity_closed isEntity) tame room one
  | tag given shown =>
      refine ⟨given.body, ?_⟩
      rw [HtmlItem.written, htmlLoop_tag given open_, closeTag_shown given shown tame,
        pushSeparatorBounded_of_room open_]
      rfl
  | hidden element =>
      refine ⟨element.ending.body, ?_⟩
      rw [HtmlItem.written, append_assoc, append_assoc, htmlLoop_tag _ open_,
        closeTag_opening]
      rcases @htmlLoop_hidden _ _ element.opening.body (element.ending.written ++ rest) _
        element.kind false (by simpa using element.inert) (by simp) open_ with ⟨last, within, read⟩
      rw [read, htmlLoop_tag _ open_, closeTag_ending]
      rfl

/-- A loop over a document reads its items in order. -/
theorem htmlLoop_writeHtml {items : List HtmlItem} (tame : ∀ item ∈ items, item.Tame)
    {output tag : Text} (room : byteLength output + byteLength (writeHtml items) < maxBytes) :
    htmlLoop maxBytes ⟨output, tag, false, none⟩ (writeHtml items) =
      items.foldl readHtml output := by
  induction items generalizing output tag with
  | nil => simp [writeHtml, htmlLoop]
  | cons item items ih =>
      rw [forall_mem_cons] at tame
      have written : writeHtml (item :: items) = item.written ++ writeHtml items := by
        simp [writeHtml]
      rw [written] at room ⊢
      rcases @htmlLoop_item _ output tag _ _ tame.1 room with ⟨last, read⟩
      have size := byteLength_readHtml output item
      rw [byteLength_append] at room
      rw [read, foldl_cons]
      apply ih tame.2
      omega

/-- The text as it is read, with a space for each separator. -/
def HtmlItem.seen : HtmlItem → Text
  | .char spelling => [readChar spelling]
  | .tag given _ => if given.lowerName ∈ blockNames then [' '] else []
  | .hidden _ => []

theorem collapse_separate (output rest : Text) :
    collapse ' ' isWhitespace (separate output ++ rest) =
      collapse ' ' isWhitespace (output ++ ' ' :: rest) := by
  rw [separate]
  split
  next settled =>
    apply (collapse_blank ' ' rfl _ rest).symm
    intro other last
    rcases settled with empty | blank
    · obtain rfl := List.isEmpty_iff.mp empty
      cases last
    · have lastEq : output.getLast? = some other := last
      simpa [lastEq] using blank
  next => simp

theorem collapse_foldl_readHtml (items : List HtmlItem) (output : Text) :
    collapse ' ' isWhitespace (items.foldl readHtml output) =
      collapse ' ' isWhitespace (output ++ items.flatMap HtmlItem.seen) := by
  induction items generalizing output with
  | nil => simp
  | cons item items ih =>
      rw [foldl_cons, ih, flatMap_cons]
      cases item with
      | char => simp [readHtml, HtmlItem.seen]
      | tag given =>
          simp only [readHtml, HtmlItem.seen]
          split
          · simp [collapse_separate]
          · rfl
      | hidden => rfl

theorem foldl_collapseStep {tokens : List Text} (nonempty : ∀ token ∈ tokens, token ≠ [])
    {output : Text} (room : byteLength (tokens.foldl (push ' ') output) ≤ maxBytes) :
    tokens.foldl (collapseStep maxBytes) output = tokens.foldl (push ' ') output := by
  induction tokens generalizing output with
  | nil => rfl
  | cons token tokens ih =>
      rw [forall_mem_cons] at nonempty
      rw [foldl_cons] at room
      have grown : byteLength (push ' ' output token) ≤ maxBytes := by
        rw [foldl_push] at room
        exact (byteLength_le_of_sublist sublist_push).trans room
      have step : collapseStep maxBytes output token = push ' ' output token := by
        have space : Char.utf8Size ' ' = 1 := rfl
        have some : byteLength token ≠ 0 := fun none => nonempty.1 (byteLength_eq_zero.mp none)
        rw [collapseStep]
        rcases eq_or_ne output [] with rfl | started
        · rw [nil_push] at grown ⊢
          rw [if_neg (by simp only [byteLength_nil]; omega)]
          simp only [isEmpty_nil, if_true]
          rw [pushStrBounded_of_room (by simpa using grown), nil_append]
        · rw [push_of_ne_nil ' ' started nonempty.1, byteLength_append, byteLength_cons] at grown
          rw [if_neg (by omega)]
          simp only [List.isEmpty_iff, started, if_false]
          rw [pushCharBounded_of_room (by omega), pushStrBounded_of_room,
            push_of_ne_nil ' ' started nonempty.1]
          · simp
          · simp only [byteLength_append, byteLength_cons, byteLength_nil]
            omega
      rw [foldl_cons, foldl_cons, step]
      exact ih nonempty.2 room

theorem collapseWhitespaceBounded_of_room {input : Text} (room : byteLength input ≤ maxBytes) :
    collapseWhitespaceBounded maxBytes input = collapseWhitespace input := by
  have whole : ((input.splitOnP isWhitespace).filter fun token => !token.isEmpty).foldl
      (push ' ') [] = collapseWhitespace input := by
    rw [foldl_push, nil_push, joined, filter_filter]
    simp [collapseWhitespace, collapse, joined]
  rw [collapseWhitespaceBounded, foldl_collapseStep, whole]
  · intro token listed
    simpa using (mem_filter.mp listed).2
  · rw [whole]
    exact (byteLength_collapseWhitespace input).trans room

/-- With enough room the text is what the items read as. -/
theorem htmlText_writeHtml {items : List HtmlItem} (tame : ∀ item ∈ items, item.Tame)
    (room : byteLength (writeHtml items) < maxBytes) :
    htmlText maxBytes (writeHtml items) =
      collapseWhitespace (items.flatMap HtmlItem.seen) := by
  have length (output : Text) : byteLength (items.foldl readHtml output) ≤
      byteLength output + byteLength (writeHtml items) := by
    clear tame room
    induction items generalizing output with
    | nil => simp [writeHtml]
    | cons item items ih =>
        have rest := ih (readHtml output item)
        have size := byteLength_readHtml output item
        rw [writeHtml] at rest
        rw [foldl_cons, writeHtml, flatMap_cons, byteLength_append]
        omega
  have whole := length []
  rw [byteLength_nil, Nat.zero_add] at whole
  rw [htmlText, htmlLoop_writeHtml tame (by simpa using room),
    collapseWhitespaceBounded_of_room (whole.trans room.le), collapseWhitespace,
    collapse_foldl_readHtml, nil_append, collapseWhitespace]

end Reading

section Xml

variable {maxBytes : Nat}

def XmlItem.seen : XmlItem → Text
  | .char spelling => if spelling.written = ['>'] then [] else [readChar spelling]
  | .tag _ => [' ']

theorem flushText_of_room {output text : Text} (settled : output.getLast? ≠ some ' ')
    (room : byteLength output + byteLength text < maxBytes) :
    flushText maxBytes output text = push ' ' output (collapseWhitespace text) := by
  have size := byteLength_collapseWhitespace text
  have space : Char.utf8Size ' ' = 1 := rfl
  have open_ : ¬maxBytes ≤ byteLength output := by omega
  rw [flushText]
  rcases eq_or_ne (collapseWhitespace text) [] with empty | nonempty
  · simp [empty]
  simp only [open_, settled, List.isEmpty_iff, nonempty, or_false, if_false]
  rcases eq_or_ne output [] with rfl | started
  · rw [if_pos rfl, if_pos (by simp only [byteLength_nil]; omega)]
    simp
  · rw [if_neg started, if_pos, push_of_ne_nil ' ' started nonempty]
    · simp
    · simp only [byteLength_append, byteLength_cons, byteLength_nil]
      omega

theorem settled_push {output : Text} (settled : output.getLast? ≠ some ' ') (text : Text) :
    (push ' ' output (collapseWhitespace text)).getLast? ≠ some ' ' := by
  rcases eq_or_ne (collapseWhitespace text) [] with empty | nonempty
  · simpa [empty] using settled
  · rw [getLast?_push nonempty]
    intro last
    cases not_blank_of_getLast?_collapse last

theorem xmlLoop_attributes {body : Text} (plain : ∀ char ∈ body, char ≠ '<' ∧ char ≠ '>')
    {text output rest : Text} (room : byteLength output < maxBytes) :
    xmlLoop maxBytes true text output (body ++ '>' :: rest) =
      xmlLoop maxBytes false text output rest := by
  induction body with
  | nil =>
      rw [nil_append, xmlLoop]
      simp [not_le.mpr room]
  | cons char body ih =>
      rw [forall_mem_cons] at plain
      rw [cons_append, xmlLoop]
      simp only [plain.1, not_le.mpr room, if_false, Bool.not_true, Bool.false_eq_true, and_false]
      exact ih plain.2

/-- The text of a tag's run is flushed where the tag begins. -/
theorem xmlLoop_tag (given : MarkupTag) {text output rest : Text}
    (settled : output.getLast? ≠ some ' ')
    (room : byteLength output + byteLength text + 1 < maxBytes) :
    xmlLoop maxBytes false text output (given.written ++ rest) =
      xmlLoop maxBytes false [] (push ' ' output (collapseWhitespace text)) rest := by
  have size := byteLength_collapseWhitespace text
  have grown := byteLength_push output (collapseWhitespace text)
  have open_ : byteLength (push ' ' output (collapseWhitespace text)) < maxBytes := by omega
  rw [MarkupTag.written, cons_append, append_assoc, singleton_append, xmlLoop,
    if_pos rfl, flushText_of_room settled (by omega)]
  simp only [not_le.mpr open_, if_false]
  exact xmlLoop_attributes given.plain_body open_

theorem xmlLoop_char {spelling : CharSpelling} (tame : spelling.Tame)
    {text output rest : Text} (room : byteLength output < maxBytes) :
    xmlLoop maxBytes false text output (spelling.written ++ rest) =
      xmlLoop maxBytes false (text ++ (XmlItem.char spelling).seen) output rest := by
  have open_ : ¬maxBytes ≤ byteLength output := by omega
  cases isEntity : spelling.entity with
  | none =>
      have written : spelling.written = [spelling.char] := by
        simp only [CharSpelling.written, isEntity]
      simp only [CharSpelling.Tame, isEntity] at tame
      have plain := ne_opening_of_raw isEntity
      rw [XmlItem.seen, written, singleton_append, xmlLoop, readChar_of_raw isEntity]
      by_cases closing : spelling.char = '>'
      · simp [closing, open_]
      · simp [plain, closing, tame, open_]
  | some entity =>
      have written : spelling.written = '&' :: (entity ++ [';']) := by
        simp only [CharSpelling.written, isEntity]
      simp only [CharSpelling.Tame, isEntity] at tame
      have short : byteLength [] + byteLength entity ≤ 16 := by simpa using tame
      have scanned := scanEntity_append (entity_closed isEntity) short rest
      have ampersand : '&' ≠ '<' ∧ '&' ≠ '>' := by decide
      rw [XmlItem.seen, written, cons_append, append_assoc, singleton_append,
        xmlLoop]
      simp [open_, ampersand, scanned, decodeXmlEntity_eq isEntity]

theorem byteLength_seen (spelling : CharSpelling) :
    byteLength (XmlItem.char spelling).seen ≤ byteLength spelling.written := by
  have size := utf8Size_readChar spelling
  rw [XmlItem.seen]
  split
  · simp
  · simpa using size

theorem xmlLoop_writeXml {items : List XmlItem} (tame : ∀ item ∈ items, item.Tame)
    {text output : Text} (settled : output.getLast? ≠ some ' ')
    (room : byteLength output + byteLength text + byteLength (writeXml items) < maxBytes) :
    xmlLoop maxBytes false text output (writeXml items) =
      push ' ' output (collapseWhitespace (text ++ items.flatMap XmlItem.seen)) := by
  induction items generalizing text output with
  | nil => simp [writeXml, xmlLoop, flushText_of_room settled (by simpa [writeXml] using room)]
  | cons item items ih =>
      rw [forall_mem_cons] at tame
      have written : writeXml (item :: items) = item.written ++ writeXml items := by
        simp [writeXml]
      rw [written, byteLength_append] at room
      rw [written, flatMap_cons]
      cases item with
      | char spelling =>
          have size := byteLength_seen spelling
          rw [XmlItem.written] at room ⊢
          rw [xmlLoop_char tame.1 (by omega), ih tame.2 settled, append_assoc]
          rw [byteLength_append]
          omega
      | tag given =>
          have size := byteLength_written given
          have collapsed := byteLength_collapseWhitespace text
          have grown := byteLength_push output (collapseWhitespace text)
          rw [XmlItem.written] at room ⊢
          rw [xmlLoop_tag given settled (by omega), ih tame.2 (settled_push settled text),
            nil_append, push_assoc]
          · congr 1
            exact (collapse_append ' ' rfl text _).symm
          · rw [byteLength_nil]
            omega

theorem appendXmlText_writeXml {items : List XmlItem} (tame : ∀ item ∈ items, item.Tame)
    (room : byteLength (writeXml items) < maxBytes) :
    appendXmlText maxBytes (writeXml items) [] =
      collapseWhitespace (items.flatMap XmlItem.seen) := by
  rw [appendXmlText, xmlLoop_writeXml tame (by simp) (by simpa using room), nil_push,
    nil_append]

end Xml

section Visible

/-- A spelling reads as the character that it stands for, unless it is numeric. -/
theorem readChar_eq (spelling : CharSpelling) (kept : (spelling.isNumeric &&
    !isWhitespace spelling.char) = false) : readChar spelling = spelling.char ∨
      isWhitespace (readChar spelling) ∧ isWhitespace spelling.char := by
  cases spelling with
  | raw => exact .inl rfl
  | named reference =>
      cases reference
      case nbsp => exact .inr (by decide)
      all_goals exact .inl rfl
  | decimal | hexadecimal =>
      simp only [CharSpelling.isNumeric, Bool.true_and, Bool.not_eq_false'] at kept
      exact .inr ⟨rfl, kept⟩

theorem countP_readChar (spelling : CharSpelling) :
    [spelling.char].countP (fun char => !isWhitespace char) =
      [readChar spelling].countP (fun char => !isWhitespace char) +
        (spelling.isNumeric && !isWhitespace spelling.char).toNat := by
  have blank : isWhitespace ' ' = true := rfl
  cases spelling with
  | raw => simp [readChar, CharSpelling.isNumeric, CharSpelling.char]
  | named reference => cases reference <;> rfl
  | decimal char | hexadecimal char =>
      cases visible : isWhitespace char <;>
        simp [readChar, CharSpelling.isNumeric, CharSpelling.char, visible, blank]

/-- The text is complete exactly if no item loses a character. -/
theorem collapse_seen_iff {ι : Type} {seen visible : ι → Text} {isLost : ι → Bool}
    (alike : ∀ item, isLost item = false → List.Forall₂ (fun char other =>
      char = other ∨ isWhitespace char ∧ isWhitespace other) (seen item) (visible item))
    (counts : ∀ item, (visible item).countP (fun char => !isWhitespace char) =
      (seen item).countP (fun char => !isWhitespace char) + (isLost item).toNat)
    (items : List ι) :
    collapseWhitespace (items.flatMap seen) = collapseWhitespace (items.flatMap visible) ↔
      ∀ item ∈ items, isLost item = false := by
  constructor
  · intro same item listed
    have counted (text : Text) : (collapseWhitespace text).countP (fun char => !isWhitespace char) =
        text.countP fun char => !isWhitespace char :=
      @countP_collapse _ ' ' isWhitespace (fun char => !isWhitespace char) rfl (by simp) text
    have total : (items.flatMap seen).countP (fun char => !isWhitespace char) =
        (items.flatMap visible).countP fun char => !isWhitespace char := by
      rw [← counted (items.flatMap seen), same, counted]
    have lost (items : List ι) : (items.flatMap visible).countP (fun char => !isWhitespace char) =
        (items.flatMap seen).countP (fun char => !isWhitespace char) +
          (items.map fun item => (isLost item).toNat).sum := by
      induction items with
      | nil => rfl
      | cons item items ih =>
          simp only [flatMap_cons, countP_append, map_cons, sum_cons, ih,
            counts item]
          omega
    have none : (items.map fun item => (isLost item).toNat).sum = 0 := by
      have split := lost items
      omega
    have zero := sum_eq_zero_iff.mp none _ (mem_map_of_mem listed)
    simpa using zero
  · intro kept
    apply collapse_congr
    induction items with
    | nil => exact .nil
    | cons item items ih =>
        rw [forall_mem_cons] at kept
        exact rel_append (alike item kept.1) (ih kept.2)

theorem html_alike (item : HtmlItem) (kept : item.isLost = false) :
    List.Forall₂ (fun char other => char = other ∨ isWhitespace char ∧ isWhitespace other)
      item.seen item.visible := by
  cases item with
  | char spelling => exact .cons (readChar_eq spelling kept) .nil
  | tag given =>
      rw [HtmlItem.seen, HtmlItem.visible]
      split
      · exact .cons (.inl rfl) .nil
      · exact .nil
  | hidden => exact .nil

theorem xml_alike (item : XmlItem) (kept : item.isLost = false) :
    List.Forall₂ (fun char other => char = other ∨ isWhitespace char ∧ isWhitespace other)
      item.seen item.visible := by
  cases item with
  | char spelling =>
      rw [XmlItem.isLost, Bool.or_eq_false_iff, decide_eq_false_iff_not] at kept
      rw [XmlItem.seen, if_neg kept.2]
      exact .cons (readChar_eq spelling kept.1) .nil
  | tag => exact .cons (.inl rfl) .nil

theorem countP_html (item : HtmlItem) :
    item.visible.countP (fun char => !isWhitespace char) =
      item.seen.countP (fun char => !isWhitespace char) + item.isLost.toNat := by
  cases item with
  | char spelling => exact countP_readChar spelling
  | tag given => rfl
  | hidden => rfl

theorem countP_xml (item : XmlItem) :
    item.visible.countP (fun char => !isWhitespace char) =
      item.seen.countP (fun char => !isWhitespace char) + item.isLost.toNat := by
  cases item with
  | char spelling =>
      by_cases closing : spelling.written = ['>']
      · cases spelling with
        | raw char =>
            obtain rfl : char = '>' := singleton_inj.mp closing
            rfl
        | named | decimal | hexadecimal =>
            simp [CharSpelling.written, CharSpelling.entity] at closing
      · simp only [XmlItem.seen, XmlItem.isLost, closing, if_false, decide_false, Bool.or_false]
        exact countP_readChar spelling
  | tag => rfl

end Visible

end Gfm.Content

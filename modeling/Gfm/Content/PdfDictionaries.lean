import Gfm.Content.PdfStreams

/-!
# Dictionaries of PDF streams

A stream dictionary is a list of entries, each a name and a value. The extractor cuts the header
of the stream at the last opening bracket, which may belong to a value: then the entries before it
do not count, and the class of the stream depends on the order of the entries.
-/

namespace Gfm.Content

open LineLog List

section Grammar

inductive PdfSpace where
  | null
  | tab
  | lineFeed
  | formFeed
  | carriageReturn
  | space

def PdfSpace.written : PdfSpace → UInt8
  | null => 0
  | tab => 9
  | lineFeed => 10
  | formFeed => 12
  | carriageReturn => 13
  | space => 32

def writeSpaces (spaces : List PdfSpace) : Bytes := spaces.map PdfSpace.written

/-- Neither white space nor one of `()<>[]{}/%`. -/
def isRegular (byte : UInt8) : Bool :=
  !isPdfWhitespace byte && !([40, 41, 60, 62, 91, 93, 123, 125, 47, 37] : Bytes).contains byte

structure PdfName where
  bytes : Bytes
  regular : bytes.all isRegular = true

structure PdfNumber where
  negative : Bool
  whole : List (Fin 10)
  fraction : Option (List (Fin 10))

def pdfDigits (digits : List (Fin 10)) : Bytes :=
  digits.map fun digit => UInt8.ofNat (48 + digit.val)

def PdfNumber.written (number : PdfNumber) : Bytes :=
  (if number.negative then [45] else []) ++
    (pdfDigits number.whole ++ (number.fraction.map fun digits => 46 :: pdfDigits digits).getD [])

structure PdfHexDigit where
  value : Fin 16
  upper : Bool

def PdfHexDigit.written (digit : PdfHexDigit) : UInt8 :=
  UInt8.ofNat (if digit.value.val < 10 then 48 + digit.value.val
    else if digit.upper then 55 + digit.value.val else 87 + digit.value.val)

inductive PdfToken where
  | space (char : PdfSpace)
  | name (name : PdfName)
  | number (number : PdfNumber)
  | hexString (digits : List PdfHexDigit)
  | openArray
  | closeArray
  | openDictionary
  | closeDictionary

def PdfToken.written : PdfToken → Bytes
  | space char => [char.written]
  | name given => 47 :: given.bytes
  | number given => given.written
  | hexString digits => 60 :: (digits.map PdfHexDigit.written ++ [62])
  | openArray => [91]
  | closeArray => [93]
  | openDictionary => [60, 60]
  | closeDictionary => [62, 62]

def writePdf (tokens : List PdfToken) : Bytes := tokens.flatMap PdfToken.written

def pdfSpaces (spaces : List PdfSpace) : List PdfToken := spaces.map PdfToken.space

inductive PdfCategory where
  | value
  | items
  | entries

inductive PdfDerives : PdfCategory → List PdfToken → Prop where
  | name (name : PdfName) : PdfDerives .value [.name name]
  | number (number : PdfNumber) : PdfDerives .value [.number number]
  | hexString (digits : List PdfHexDigit) : PdfDerives .value [.hexString digits]
  | array {inner : List PdfToken} (items : PdfDerives .items inner) :
      PdfDerives .value (.openArray :: (inner ++ [.closeArray]))
  | dictionary {inner : List PdfToken} (entries : PdfDerives .entries inner) :
      PdfDerives .value (.openDictionary :: (inner ++ [.closeDictionary]))
  | noItem (spaces : List PdfSpace) : PdfDerives .items (pdfSpaces spaces)
  | item (spaces : List PdfSpace) {value rest : List PdfToken} (first : PdfDerives .value value)
      (others : PdfDerives .items rest) : PdfDerives .items (pdfSpaces spaces ++ (value ++ rest))
  | noEntry (spaces : List PdfSpace) : PdfDerives .entries (pdfSpaces spaces)
  | entry (spaces : List PdfSpace) (key : PdfName) (between : List PdfSpace)
      {value rest : List PdfToken} (first : PdfDerives .value value)
      (others : PdfDerives .entries rest) :
      PdfDerives .entries
        (pdfSpaces spaces ++ .name key :: (pdfSpaces between ++ (value ++ rest)))

def afterBracket (bytes : Bytes) : Bytes := bytes.rtakeWhile fun byte => byte ≠ 60

/-- An entry with the white space before its key and its value. -/
structure PdfEntry where
  spaces : List PdfSpace
  key : PdfName
  between : List PdfSpace
  value : List PdfToken
  derived : PdfDerives .value value

namespace PdfEntry

def written (entry : PdfEntry) : Bytes :=
  writeSpaces entry.spaces ++ 47 :: (entry.key.bytes ++
    (writeSpaces entry.between ++ writePdf entry.value))

/-- The value has an opening bracket. -/
def Bracketed (entry : PdfEntry) : Prop := 60 ∈ entry.written

instance (entry : PdfEntry) : Decidable entry.Bracketed := inferInstanceAs (Decidable (60 ∈ _))

/-- What stands behind the last opening bracket of the entry, or the whole entry. -/
def shown (entry : PdfEntry) : Bytes := afterBracket entry.written

end PdfEntry

def writeEntries (entries : List PdfEntry) : Bytes := entries.flatMap PdfEntry.written

/-- The object up to the body of its stream, behind other bytes of the file. -/
def streamObject (before : Bytes) (entries : List PdfEntry) (trailing gap : List PdfSpace)
    (rest : Bytes) : Bytes :=
  before ++ (60 :: 60 :: writeEntries entries ++
    (writeSpaces trailing ++ 62 :: 62 :: (writeSpaces gap ++ (bytesOf "stream" ++ rest))))

/-- What the extractor takes the stream for, its body, and the cursor behind it. -/
def classified (found : PdfStream × Nat) : StreamClass × Bytes × Nat :=
  (classify found.1.header, found.1.body, found.2)

/-- The stream is classified, and the text from it on extracted, in each order of the entries. -/
def OrderFree (entries : List PdfEntry) : Prop :=
  ∀ others, entries.Perm others → ∀ before trailing gap rest,
    (nextStream (streamObject before entries trailing gap rest) before.length).map classified =
        (nextStream (streamObject before others trailing gap rest) before.length).map classified ∧
      ∀ inflate text,
        extractStreams inflate (streamObject before entries trailing gap rest) text before.length =
          extractStreams inflate (streamObject before others trailing gap rest) text before.length

/-- The two entries do not make an image subtype together, whichever of them comes first. -/
def PdfEntry.Apart (left right : PdfEntry) : Prop :=
  ¬(Closes subtypeName left.written ∧ Opens imageName right.written) ∧
    ¬(Closes subtypeName right.written ∧ Opens imageName left.written)

/-- No entry has the keyword of the stream, and no two entries make an image subtype together. -/
def Separable (entries : List PdfEntry) : Prop :=
  (∀ entry ∈ entries, ¬bytesOf "stream" <:+: entry.written) ∧ entries.Pairwise PdfEntry.Apart

/-- The entries with a bracket show one class, which no other entry exceeds. -/
def Level (entries : List PdfEntry) : Prop :=
  ∃ level, (∀ entry ∈ entries, entry.Bracketed → classify entry.shown = level) ∧
    ∀ entry ∈ entries, ¬entry.Bracketed → (classify entry.shown).rank ≤ level.rank

end Grammar

section Brackets

variable {left right : Bytes}

theorem afterBracket_append_of_mem (bracket : 60 ∈ right) :
    afterBracket (left ++ right) = afterBracket right := by
  have stops : (right.reverse.takeWhile fun byte => byte ≠ 60).length ≠ right.reverse.length := by
    intro whole
    have all := takeWhile_eq_self_iff.mp (List.takeWhile_prefix _ |>.eq_of_length whole)
    simpa using all 60 (mem_reverse.mpr bracket)
  rw [afterBracket, afterBracket, List.rtakeWhile, List.rtakeWhile, reverse_append,
    takeWhile_append, if_neg stops]

theorem afterBracket_append_of_notMem (none : 60 ∉ right) :
    afterBracket (left ++ right) = afterBracket left ++ right := by
  have all : ∀ byte ∈ right.reverse, decide (byte ≠ 60) = true := by
    intro byte listed
    rw [decide_eq_true_eq]
    rintro rfl
    exact none (mem_reverse.mp listed)
  rw [afterBracket, afterBracket, List.rtakeWhile, List.rtakeWhile, reverse_append,
    takeWhile_append_of_pos all, reverse_append, reverse_reverse]

theorem afterBracket_suffix (bytes : Bytes) : afterBracket bytes <:+ bytes :=
  rtakeWhile_suffix _ bytes

theorem afterBracket_of_notMem {bytes : Bytes} (none : 60 ∉ bytes) :
    afterBracket bytes = bytes :=
  @afterBracket_append_of_notMem [] bytes none

theorem eq_append_of_bracket {bytes : Bytes} (bracket : 60 ∈ bytes) :
    ∃ before, bytes = before ++ 60 :: afterBracket bytes ∧ 60 ∉ afterBracket bytes := by
  rcases eq_append_cons_of_mem (mem_reverse.mpr bracket) with
    ⟨behind, before, reversed, none⟩
  have whole : bytes = before.reverse ++ ([60] ++ behind.reverse) := by
    rw [← reverse_reverse bytes, reversed]
    simp
  have none' : 60 ∉ behind.reverse := fun listed => none (mem_reverse.mp listed)
  have shown : afterBracket bytes = behind.reverse := by
    rw [whole, afterBracket_append_of_mem (by simp), afterBracket_append_of_notMem none']
    rfl
  rw [shown]
  exact ⟨before.reverse, whole, none'⟩

theorem rposition_append (notBehind : 60 ∉ right) :
    rposition 60 (left ++ 60 :: right) = some left.length := by
  have behind : right.reverse.findIdx? (fun other => other = 60) = none := by
    rw [findIdx?_eq_none_iff]
    intro byte listed
    rw [decide_eq_false_iff_not]
    rintro rfl
    exact notBehind (mem_reverse.mp listed)
  have place : (left ++ 60 :: right).reverse.findIdx? (fun other => other = 60) =
      some right.length := by
    rw [reverse_append, reverse_cons, append_assoc, findIdx?_append, behind]
    simp [findIdx?_cons]
  rw [rposition, place]
  simp

/-- The header of a stream, at the place of its keyword. -/
def headerAt (bytes : Bytes) (streamAt : Nat) : Bytes :=
  (bytes.take streamAt).drop ((rposition 60 (bytes.take streamAt)).getD (streamAt - 256))

theorem classify_headerAt {bytes : Bytes} {streamAt : Nat} (bracket : 60 ∈ bytes.take streamAt) :
    classify (headerAt bytes streamAt) = classify (afterBracket (bytes.take streamAt)) := by
  rcases eq_append_of_bracket bracket with ⟨before, whole, none⟩
  have header : headerAt bytes streamAt = 60 :: afterBracket (bytes.take streamAt) := by
    rw [headerAt]
    generalize bytes.take streamAt = window at whole none
    generalize afterBracket window = behind at whole none
    rw [whole, rposition_append none, Option.getD_some, drop_left]
  rw [header, classify_cons (by decide)]

end Brackets

section Ranks

theorem isPdfWhitespace_writeSpaces (spaces : List PdfSpace) :
    ∀ byte ∈ writeSpaces spaces, isPdfWhitespace byte = true := by
  intro byte listed
  rcases mem_map.mp listed with ⟨char, _, rfl⟩
  cases char <;> rfl

namespace PdfEntry

theorem nameEnds_written (entry : PdfEntry) : NameEnds entry.written := by
  apply nameEnds_spaces (isPdfWhitespace_writeSpaces entry.spaces)
  intro byte first
  obtain rfl := Option.some.inj first
  rfl

theorem slash_mem_written (entry : PdfEntry) : 47 ∈ entry.written := by
  simp [written]

def rank (entry : PdfEntry) : Nat := (classify entry.shown).rank

/-- The rank of the entries so far with one more behind them. -/
def raise (rank : Nat) (entry : PdfEntry) : Nat :=
  if entry.Bracketed then entry.rank else max rank entry.rank

end PdfEntry

variable {entries : List PdfEntry}

/-- What the header has of the entries. -/
def shownEntries (entries : List PdfEntry) : Bytes := afterBracket (60 :: writeEntries entries)

theorem shownEntries_append (entries : List PdfEntry) (entry : PdfEntry) :
    shownEntries (entries ++ [entry]) =
      if entry.Bracketed then entry.shown else shownEntries entries ++ entry.shown := by
  have written : 60 :: writeEntries (entries ++ [entry]) =
      (60 :: writeEntries entries) ++ entry.written := by simp [writeEntries]
  rw [shownEntries, written]
  split
  next bracketed => exact afterBracket_append_of_mem bracketed
  next plain =>
    rw [afterBracket_append_of_notMem plain, PdfEntry.shown, afterBracket_of_notMem plain]
    rfl

theorem closes_shownEntries (closes : Closes subtypeName (shownEntries entries)) :
    ∃ entry ∈ entries, Closes subtypeName entry.written := by
  rcases entries.eq_nil_or_concat' with rfl | ⟨others, entry, rfl⟩
  · obtain ⟨before, spaces, empty, -⟩ := closes
    cases before <;> cases empty
  · refine ⟨entry, by simp, ?_⟩
    rw [shownEntries_append] at closes
    split at closes
    next =>
      rcases afterBracket_suffix entry.written with ⟨before, whole⟩
      rw [← whole]
      exact closes.append
    next plain =>
      have shown : entry.shown = entry.written := afterBracket_of_notMem plain
      rw [shown] at closes
      exact closes.of_append (isName_spec isName_subtypeName).1 entry.slash_mem_written

theorem Separable.of_append {first second : List PdfEntry}
    (separable : Separable (first ++ second)) : Separable first := by
  refine ⟨fun entry listed => separable.1 entry (mem_append_left _ listed), ?_⟩
  exact (pairwise_append.mp separable.2).1

theorem Separable.perm {others : List PdfEntry} (separable : Separable entries)
    (perm : entries.Perm others) : Separable others := by
  refine ⟨fun entry listed => separable.1 entry (perm.mem_iff.mpr listed), ?_⟩
  exact (perm.pairwise_iff fun apart => And.symm apart).mp separable.2

/-- An entry behind a bracket hides the entries before it; another can only raise the rank. -/
theorem rank_shownEntries (separable : Separable entries) :
    (classify (shownEntries entries)).rank = entries.foldl PdfEntry.raise 0 := by
  induction entries using List.reverseRecOn with
  | nil => exact congrArg StreamClass.rank classify_nil
  | append_singleton entries entry ih =>
      rw [foldl_append, foldl_cons, foldl_nil, ← ih separable.of_append,
        shownEntries_append, PdfEntry.raise]
      split
      next => rfl
      next plain =>
        have shown : entry.shown = entry.written := afterBracket_of_notMem plain
        rw [PdfEntry.rank, shown]
        apply rank_classify_append entry.nameEnds_written
        rintro ⟨closes, opens⟩
        rcases closes_shownEntries closes with ⟨other, listed, closes⟩
        have apart := (pairwise_append.mp separable.2).2.2 other listed entry (by simp)
        exact apart.1 ⟨closes, opens⟩

end Ranks

section Turns

/-- From the place on the two files are the same, and so are the classes of their headers. -/
structure SameFrom (start : Nat) (left right : Bytes) : Prop where
  length_eq : left.length = right.length
  drop_eq : ∀ place, start ≤ place → left.drop place = right.drop place
  class_eq : ∀ place, start ≤ place →
    classify (headerAt left place) = classify (headerAt right place)

namespace SameFrom

variable {start : Nat} {left right : Bytes}

theorem findFrom_eq (same : SameFrom start left right) (needle : Bytes) {place : Nat}
    (behind : start ≤ place) : findFrom left needle place = findFrom right needle place := by
  rw [findFrom, findFrom, same.length_eq, same.drop_eq place behind]

theorem getElem?_eq (same : SameFrom start left right) {place : Nat} (behind : start ≤ place) :
    left[place]? = right[place]? := by
  rw [← head?_drop, ← head?_drop, same.drop_eq place behind]

theorem streamBodyStart_eq (same : SameFrom start left right) {place : Nat}
    (behind : start ≤ place) : streamBodyStart left place = streamBodyStart right place := by
  rw [streamBodyStart, streamBodyStart, same.length_eq, same.getElem?_eq behind,
    same.getElem?_eq (behind.trans (Nat.le_succ place))]

theorem nextStream_eq (same : SameFrom start left right) {cursor : Nat}
    (found : findFrom left (bytesOf "stream") cursor = findFrom right (bytesOf "stream") cursor)
    (behind : ∀ streamAt, findFrom left (bytesOf "stream") cursor = some streamAt →
      start ≤ streamAt) :
    (nextStream left cursor).map classified = (nextStream right cursor).map classified := by
  rw [nextStream, nextStream, ← found]
  cases here : findFrom left (bytesOf "stream") cursor with
  | none => rfl
  | some streamAt =>
      have after := behind streamAt here
      simp only [Option.bind_eq_bind, Option.bind_some]
      rw [← same.streamBodyStart_eq (after.trans (Nat.le_add_right _ _))]
      cases starts : streamBodyStart left (streamAt + 6) with
      | none => rfl
      | some bodyStart =>
          have inBody : start ≤ bodyStart :=
            after.trans ((Nat.le_add_right _ _).trans (le_streamBodyStart starts))
          simp only [Option.bind_some]
          rw [← same.findFrom_eq (bytesOf "endstream") inBody]
          cases ended : findFrom left (bytesOf "endstream") bodyStart with
          | none => rfl
          | some endAt =>
              have headers := same.class_eq streamAt after
              have bodies : (left.take endAt).drop bodyStart =
                  (right.take endAt).drop bodyStart := by
                rw [drop_take, drop_take, same.drop_eq bodyStart inBody]
              simp only [headerAt] at headers
              simp only [Option.bind_some, Option.pure_def, Option.map_some, classified, headers,
                bodies]

theorem extractStream_eq {inflate : Bytes → Except InflateError Bytes} {first second : PdfStream}
    (classes : classify first.header = classify second.header) (bodies : first.body = second.body)
    (text : Text) : extractStream inflate text first = extractStream inflate text second := by
  rw [extractStream, extractStream, classes, bodies]

theorem extractStreams_eq (same : SameFrom start left right)
    (inflate : Bytes → Except InflateError Bytes) (text : Text) {cursor : Nat}
    (found : findFrom left (bytesOf "stream") cursor = findFrom right (bytesOf "stream") cursor)
    (behind : ∀ streamAt, findFrom left (bytesOf "stream") cursor = some streamAt →
      start ≤ streamAt) :
    extractStreams inflate left text cursor = extractStreams inflate right text cursor := by
  induction size : left.length - cursor using Nat.strong_induction_on
    generalizing text cursor with
  | _ size' ih =>
      have turn := same.nextStream_eq found behind
      rw [extractStreams.eq_def, extractStreams.eq_def inflate right]
      cases next : nextStream left cursor with
      | none =>
          rw [next, Option.map_none] at turn
          rw [Option.map_eq_none_iff.mp turn.symm]
      | some first =>
          rw [next, Option.map_some] at turn
          rcases Option.map_eq_some_iff.mp turn.symm with ⟨second, nextRight, classes⟩
          obtain ⟨classEq, rest⟩ := Prod.mk.inj classes
          obtain ⟨bodyEq, cursorEq⟩ := Prod.mk.inj rest
          obtain ⟨inside, streamAt, here, after, before⟩ := le_nextStream next
          have later := behind streamAt here
          have start' : start ≤ first.2 := by omega
          rw [nextRight]
          simp only [extractStream_eq classEq bodyEq, cursorEq]
          split
          next => rfl
          next text' _ =>
            refine ih _ ?_ text' (same.findFrom_eq _ start') ?_ rfl
            · omega
            · intro place found'
              exact start'.trans (le_findFrom found').1

end SameFrom

end Turns

section Files

variable {entries others : List PdfEntry}

def streamWord : Bytes := bytesOf "stream"

theorem letters_streamWord : ∀ byte ∈ streamWord, isNameByte byte = true :=
  (@isName_spec streamWord (by decide)).2.2

theorem not_infix_of_noLetters {bytes : Bytes}
    (none : ∀ byte ∈ bytes, isNameByte byte = false) : ¬streamWord <:+: bytes := by
  intro inside
  have listed : (115 : UInt8) ∈ bytes := inside.mem (by decide)
  cases none 115 listed

theorem infix_append_of_nameEnds {left right : Bytes} (ends : NameEnds right)
    (inside : streamWord <:+: left ++ right) : streamWord <:+: left ∨ streamWord <:+: right := by
  refine Finding.infix_append (fun byte first listed => ?_) inside
  have letter := letters_streamWord byte listed
  rw [ends byte first] at letter
  cases letter

theorem nameEnds_writeEntries (entries : List PdfEntry) : NameEnds (writeEntries entries) := by
  cases entries with
  | nil => simp [writeEntries, NameEnds]
  | cons entry entries => exact entry.nameEnds_written.append (by
      intro byte first
      exact nameEnds_writeEntries entries byte first)

theorem not_infix_writeEntries
    (none : ∀ entry ∈ entries, ¬streamWord <:+: entry.written) :
    ¬streamWord <:+: writeEntries entries := by
  induction entries with
  | nil => exact not_infix_of_noLetters nofun
  | cons entry entries ih =>
      intro inside
      rcases infix_append_of_nameEnds (nameEnds_writeEntries entries) inside with here | later
      · exact none entry (mem_cons_self ..) here
      · exact ih (fun other listed => none other (mem_cons_of_mem _ listed)) later

/-- What stands between the entries and the keyword. -/
def closing (trailing gap : List PdfSpace) : Bytes :=
  writeSpaces trailing ++ 62 :: 62 :: writeSpaces gap

theorem noLetters_closing (trailing gap : List PdfSpace) :
    ∀ byte ∈ closing trailing gap, isNameByte byte = false := by
  have blank : ∀ spaces, ∀ byte ∈ writeSpaces spaces, isNameByte byte = false :=
    fun spaces byte listed =>
      isNameByte_of_isPdfWhitespace (isPdfWhitespace_writeSpaces spaces byte listed)
  rw [closing, forall_mem_append, forall_mem_cons, forall_mem_cons]
  exact ⟨blank trailing, rfl, rfl, blank gap⟩

theorem streamObject_eq (before : Bytes) (entries : List PdfEntry) (trailing gap : List PdfSpace)
    (rest : Bytes) : streamObject before entries trailing gap rest =
      before ++ ((60 :: 60 :: writeEntries entries ++ closing trailing gap) ++
        (streamWord ++ rest)) := by
  simp [streamObject, closing, streamWord]

/-- The keyword is found where it was written. -/
theorem findFrom_streamObject (separable : Separable entries) (before : Bytes)
    (trailing gap : List PdfSpace) (rest : Bytes) :
    findFrom (streamObject before entries trailing gap rest) streamWord before.length =
      some (before.length +
        (60 :: 60 :: writeEntries entries ++ closing trailing gap).length) := by
  have notIn : ¬streamWord <:+: 60 :: 60 :: writeEntries entries ++ closing trailing gap := by
    have ends : NameEnds (closing trailing gap) := fun byte first =>
      noLetters_closing trailing gap byte (mem_of_head? first)
    intro inside
    rcases infix_append_of_nameEnds ends inside with inEntries | behind
    · rcases @infix_append_of_nameEnds [60, 60] _ (nameEnds_writeEntries entries) inEntries
        with brackets | inside
      · exact absurd brackets (by decide)
      · exact not_infix_writeEntries separable.1 inside
    · exact not_infix_of_noLetters (noLetters_closing trailing gap) behind
  have last : ∀ byte ∈ (60 :: 60 :: writeEntries entries ++ closing trailing gap).getLast?,
      byte ∉ streamWord := by
    have nonempty : closing trailing gap ≠ [] := by simp [closing]
    intro byte last listed
    rw [getLast?_append_of_ne_nil _ nonempty] at last
    have letter := letters_streamWord byte listed
    rw [noLetters_closing trailing gap byte (mem_of_getLast? last)] at letter
    cases letter
  have found := @Finding.find_append_of_last _ _ _ _ rest notIn last
  have nonempty : streamWord ≠ [] := (@isName_spec streamWord (by decide)).2.1
  rw [findFrom_of_ne_nil nonempty, streamObject_eq, drop_left, found]
  rfl

/-- Where the last bracket is in front of the bytes, the entries count together with the bytes. -/
theorem rank_headerAt (separable : Separable entries) {before behind : Bytes}
    {trailing : List PdfSpace} {bytes : Bytes} {place : Nat}
    (window : bytes.take place =
      (before ++ 60 :: 60 :: writeEntries entries) ++ (writeSpaces trailing ++ 62 :: behind)) :
    (classify (headerAt bytes place)).rank =
      if 60 ∈ behind then (classify (afterBracket behind)).rank
      else max (entries.foldl PdfEntry.raise 0)
        (classify (writeSpaces trailing ++ 62 :: behind)).rank := by
  have notSpace : 60 ∉ writeSpaces trailing := fun listed => by
    cases isPdfWhitespace_writeSpaces trailing 60 listed
  have bracket : 60 ∈ bytes.take place := by simp [window]
  rw [classify_headerAt bracket, window]
  split
  next listed =>
    have split : before ++ 60 :: 60 :: writeEntries entries ++
        (writeSpaces trailing ++ 62 :: behind) =
          (before ++ 60 :: 60 :: writeEntries entries ++ (writeSpaces trailing ++ [62])) ++
            behind := by simp
    rw [split, afterBracket_append_of_mem listed]
  next none =>
    have noBracket : 60 ∉ writeSpaces trailing ++ 62 :: behind := by simp [notSpace, none]
    have entriesShown : afterBracket (before ++ 60 :: 60 :: writeEntries entries) =
        shownEntries entries := by
      have split : before ++ 60 :: 60 :: writeEntries entries =
          (before ++ [60]) ++ 60 :: writeEntries entries := by simp
      rw [split, afterBracket_append_of_mem (mem_cons_self ..), shownEntries]
    have ends : NameEnds (writeSpaces trailing ++ 62 :: behind) := by
      apply nameEnds_spaces (isPdfWhitespace_writeSpaces trailing)
      intro byte first
      obtain rfl := Option.some.inj first
      rfl
    rw [afterBracket_append_of_notMem noBracket, entriesShown, ← rank_shownEntries separable]
    apply rank_classify_append ends
    rintro ⟨-, spaces, rest, whole, blank, after, rfl, -⟩
    have first := congrArg (List.dropWhile isPdfWhitespace) whole
    rw [dropWhile_append_of_pos (isPdfWhitespace_writeSpaces trailing),
      dropWhile_append_of_pos blank] at first
    cases first

theorem length_writeEntries_perm (perm : entries.Perm others) :
    (writeEntries entries).length = (writeEntries others).length :=
  (perm.flatMap_right PdfEntry.written).length_eq

/-- In another order that has the same rank, all headers behind the dictionary keep their class. -/
theorem sameFrom_perm (perm : entries.Perm others) (separable : Separable entries)
    (ranks : entries.foldl PdfEntry.raise 0 = others.foldl PdfEntry.raise 0) (before : Bytes)
    (trailing gap : List PdfSpace) (rest : Bytes) :
    SameFrom ((before ++ 60 :: 60 :: writeEntries entries).length + trailing.length + 1)
      (streamObject before entries trailing gap rest)
      (streamObject before others trailing gap rest) := by
  obtain ⟨front, frontEq⟩ : ∃ front : List PdfEntry → Bytes,
      ∀ given, before ++ 60 :: 60 :: writeEntries given = front given := ⟨_, fun _ => rfl⟩
  obtain ⟨more, wholeEq⟩ : ∃ more, ∀ given, streamObject before given trailing gap rest =
      front given ++ (writeSpaces trailing ++ 62 :: more) := by
    refine ⟨62 :: (writeSpaces gap ++ (bytesOf "stream" ++ rest)), fun given => ?_⟩
    rw [← frontEq]
    simp [streamObject]
  have lengths : (front entries).length = (front others).length := by
    rw [← frontEq, ← frontEq]
    simp [length_writeEntries_perm perm]
  rw [frontEq]
  refine ⟨?_, ?_, ?_⟩
  · rw [wholeEq, wholeEq, length_append, lengths, ← length_append]
  · intro place behind
    obtain ⟨offset, rfl⟩ : ∃ offset, place = (front entries).length + offset :=
      ⟨place - (front entries).length, by omega⟩
    rw [wholeEq, wholeEq, ← drop_drop, drop_left, lengths, ← drop_drop,
      drop_left]
  · intro place behind
    obtain ⟨offset, rfl⟩ : ∃ offset, place =
        (front entries).length + (trailing.length + (1 + offset)) :=
      ⟨place - ((front entries).length + trailing.length + 1), by omega⟩
    have taken : (writeSpaces trailing ++ 62 :: more).take (trailing.length + (1 + offset)) =
        writeSpaces trailing ++ 62 :: more.take offset := by
      have spaces : trailing.length = (writeSpaces trailing).length := by simp [writeSpaces]
      rw [spaces, take_length_add_append, Nat.add_comm 1, take_succ_cons]
    have window : ∀ given, (front given).length = (front entries).length →
        (streamObject before given trailing gap rest).take
            ((front entries).length + (trailing.length + (1 + offset))) =
          (before ++ 60 :: 60 :: writeEntries given) ++
            (writeSpaces trailing ++ 62 :: more.take offset) := by
      intro given same
      rw [wholeEq, ← same, take_length_add_append, taken, frontEq]
    apply StreamClass.rank_inj
    rw [rank_headerAt separable (window entries rfl),
      rank_headerAt (separable.perm perm) (window others lengths.symm), ranks]

end Files

section Orders

variable {entries others : List PdfEntry}

/-- Behind an entry with a bracket the rank is the level, and no other entry raises it. -/
theorem foldl_raise_level {level rank : Nat}
    (shown : ∀ entry ∈ entries, entry.Bracketed → entry.rank = level)
    (below : ∀ entry ∈ entries, ¬entry.Bracketed → entry.rank ≤ level)
    (reached : rank = level ∨ ∃ entry ∈ entries, entry.Bracketed) :
    entries.foldl PdfEntry.raise rank = level := by
  induction entries generalizing rank with
  | nil => simpa using reached
  | cons entry entries ih =>
      rw [foldl_cons]
      rw [forall_mem_cons] at shown below
      apply ih shown.2 below.2
      rw [PdfEntry.raise]
      split
      next bracketed => exact .inl (shown.1 bracketed)
      next plain =>
        rcases reached with rfl | ⟨other, listed, bracketed⟩
        · exact .inl (max_eq_left (below.1 plain))
        · rcases mem_cons.mp listed with rfl | listed
          · exact (plain bracketed).elim
          · exact .inr ⟨other, listed, bracketed⟩

theorem foldl_raise_plain (plain : ∀ entry ∈ entries, ¬entry.Bracketed) (rank : Nat) :
    entries.foldl PdfEntry.raise rank = (entries.map PdfEntry.rank).foldl max rank := by
  induction entries generalizing rank with
  | nil => rfl
  | cons entry entries ih =>
      rw [forall_mem_cons] at plain
      rw [foldl_cons, PdfEntry.raise, if_neg plain.1, ih plain.2, map_cons,
        foldl_cons]

theorem foldl_raise_perm (level : Level entries) (perm : entries.Perm others) :
    entries.foldl PdfEntry.raise 0 = others.foldl PdfEntry.raise 0 := by
  by_cases bracketed : ∃ entry ∈ entries, entry.Bracketed
  · rcases level with ⟨level, shown, below⟩
    have ranks : ∀ entry ∈ entries, entry.Bracketed → entry.rank = level.rank :=
      fun entry listed opened => congrArg StreamClass.rank (shown entry listed opened)
    rw [foldl_raise_level ranks below (.inr bracketed), foldl_raise_level
      (fun entry listed => ranks entry (perm.mem_iff.mpr listed))
      (fun entry listed => below entry (perm.mem_iff.mpr listed))]
    rcases bracketed with ⟨entry, listed, opened⟩
    exact .inr ⟨entry, perm.mem_iff.mp listed, opened⟩
  · have plain : ∀ entry ∈ entries, ¬entry.Bracketed := by simpa using bracketed
    rw [foldl_raise_plain plain, foldl_raise_plain
      (fun entry listed => plain entry (perm.mem_iff.mpr listed))]
    exact (perm.map PdfEntry.rank).foldl_eq 0

/-- With nothing between the dictionary and the keyword the rank is that of the entries. -/
theorem rank_nextStream (separable : Separable entries) : ∃ found,
    nextStream (streamObject [] entries [] [] (bytesOf "endstream")) 0 = some found ∧
      (classify found.1.header).rank = entries.foldl PdfEntry.raise 0 := by
  have keyword := findFrom_streamObject separable [] [] [] (bytesOf "endstream")
  rw [length_nil, Nat.zero_add] at keyword
  obtain ⟨place, placeEq⟩ : ∃ place,
      (60 :: 60 :: writeEntries entries ++ closing [] []).length = place := ⟨_, rfl⟩
  have fileEq : streamObject [] entries [] [] (bytesOf "endstream") =
      (60 :: 60 :: writeEntries entries ++ closing [] []) ++
        (streamWord ++ bytesOf "endstream") := by
    rw [streamObject_eq, nil_append]
  have window : (streamObject [] entries [] [] (bytesOf "endstream")).take place =
      ([] ++ 60 :: 60 :: writeEntries entries) ++ (writeSpaces [] ++ 62 :: [62]) := by
    rw [fileEq, ← placeEq, take_left]
    rfl
  have rest : (streamObject [] entries [] [] (bytesOf "endstream")).drop (place + 6) =
      bytesOf "endstream" := by
    rw [fileEq, ← drop_drop, ← placeEq, drop_left]
    rfl
  have long : place + 6 < (streamObject [] entries [] [] (bytesOf "endstream")).length := by
    by_contra short
    rw [drop_eq_nil_of_le (not_lt.mp short)] at rest
    cases rest
  have first : (streamObject [] entries [] [] (bytesOf "endstream"))[place + 6]? = some 101 := by
    rw [← head?_drop, rest]
    rfl
  have starts : streamBodyStart (streamObject [] entries [] [] (bytesOf "endstream"))
      (place + 6) = some (place + 6) := by
    rw [streamBodyStart, if_neg (by omega), first]
    rfl
  have ends : findFrom (streamObject [] entries [] [] (bytesOf "endstream"))
      (bytesOf "endstream") (place + 6) = some (place + 6) := by
    rw [findFrom_of_ne_nil (by decide), rest]
    rfl
  have bracket : classify (writeSpaces [] ++ 62 :: [62]) = .plain :=
    classify_of_notMem (by decide)
  have rank := rank_headerAt separable window
  rw [if_neg (by decide), bracket] at rank
  rw [placeEq, streamWord] at keyword
  generalize streamObject [] entries [] [] (bytesOf "endstream") = file at *
  refine ⟨(⟨headerAt file place, trimStreamBody ((file.take (place + 6)).drop (place + 6))⟩,
    place + 6 + 9), ?_, rank.trans (max_eq_left (Nat.zero_le _))⟩
  simp only [nextStream, keyword, starts, ends, Option.bind_eq_bind, Option.bind_some]
  rfl

theorem orderFree_of_level (separable : Separable entries) (level : Level entries) :
    OrderFree entries := by
  intro others perm before trailing gap rest
  have same := sameFrom_perm perm separable (foldl_raise_perm level perm) before trailing gap rest
  have left := findFrom_streamObject separable before trailing gap rest
  have right := findFrom_streamObject (separable.perm perm) before trailing gap rest
  have found : findFrom (streamObject before entries trailing gap rest) (bytesOf "stream")
      before.length =
        findFrom (streamObject before others trailing gap rest) (bytesOf "stream")
          before.length := by
    refine left.trans (Eq.trans ?_ right.symm)
    simp [length_writeEntries_perm perm]
  have behind : ∀ streamAt, findFrom (streamObject before entries trailing gap rest)
      (bytesOf "stream") before.length = some streamAt →
        (before ++ 60 :: 60 :: writeEntries entries).length + trailing.length + 1 ≤ streamAt := by
    intro streamAt here
    obtain rfl := Option.some.inj (left.symm.trans here)
    simp [closing, writeSpaces]
    omega
  exact ⟨same.nextStream_eq found behind,
    fun inflate text => same.extractStreams_eq inflate text found behind⟩

theorem foldl_raise_of_orderFree (separable : Separable entries) (free : OrderFree entries)
    (perm : entries.Perm others) :
    entries.foldl PdfEntry.raise 0 = others.foldl PdfEntry.raise 0 := by
  rcases rank_nextStream separable with ⟨found, here, rank⟩
  rcases rank_nextStream (separable.perm perm) with ⟨found', here', rank'⟩
  have same := (free others perm [] [] [] (bytesOf "endstream")).1
  rw [length_nil, here, here', Option.map_some, Option.map_some] at same
  have classes := congrArg Prod.fst (Option.some.inj same)
  rw [← rank, ← rank']
  exact congrArg StreamClass.rank classes

/-- Last behind the others, an entry with a bracket gives the rank alone, and one without a
bracket behind such an entry must not raise it. -/
theorem level_of_orderFree (separable : Separable entries) (free : OrderFree entries) :
    Level entries := by
  by_cases bracketed : ∃ entry ∈ entries, entry.Bracketed
  · rcases bracketed with ⟨first, listed, opened⟩
    have last : ∀ entry ∈ entries, entry.Bracketed →
        entries.foldl PdfEntry.raise 0 = entry.rank := by
      intro entry listed opened
      rcases append_of_mem listed with ⟨before, after, rfl⟩
      have perm : (before ++ entry :: after).Perm ((before ++ after) ++ [entry]) :=
        perm_middle.trans (perm_append_singleton entry _).symm
      rw [foldl_raise_of_orderFree separable free perm, foldl_append, foldl_cons,
        foldl_nil, PdfEntry.raise, if_pos opened]
    refine ⟨classify first.shown, ?_, ?_⟩
    · intro entry listed' opened'
      apply StreamClass.rank_inj
      exact (last entry listed' opened').symm.trans (last first listed opened)
    · intro entry listed' plain
      have rank := last first listed opened
      rcases append_of_mem listed with ⟨before, after, rfl⟩
      have inRest : entry ∈ before ++ after := by
        rcases mem_cons.mp (perm_middle.mem_iff.mp listed') with rfl | inRest
        · exact (plain opened).elim
        · exact inRest
      rcases append_of_mem inRest with ⟨earlier, later, restEq⟩
      have perm : (before ++ first :: after).Perm ((earlier ++ later) ++ [first, entry]) := by
        apply perm_middle.trans
        rw [restEq]
        apply (perm_middle.cons first).trans
        exact @perm_append_comm _ [first, entry] _
      rw [foldl_raise_of_orderFree separable free perm, foldl_append, foldl_cons,
        foldl_cons, foldl_nil, PdfEntry.raise, PdfEntry.raise, if_neg plain,
        if_pos opened] at rank
      exact max_eq_left_iff.mp rank
  · refine ⟨.image, fun entry listed opened => ?_, fun entry _ _ => ?_⟩
    · exact (bracketed ⟨entry, listed, opened⟩).elim
    · cases classify entry.shown <;> decide

/-- Where neither the keyword nor two entries together mislead the searches, a stream is
classified in each order of its entries as in the given one exactly when its entries are level. -/
theorem orderFree_exact (entries : List PdfEntry) :
    (Separable entries ∧ Level entries → OrderFree entries) ∧
    (Separable entries ∧ OrderFree entries → Level entries) := by
  constructor
  · rintro ⟨separable, level⟩
    exact orderFree_of_level separable level
  · rintro ⟨separable, free⟩
    exact level_of_orderFree separable free

/-- `/Filter /FlateDecode`. -/
def filterEntry : PdfEntry where
  spaces := [.space]
  key := ⟨bytesOf "Filter", rfl⟩
  between := [.space]
  value := [.name ⟨bytesOf "FlateDecode", rfl⟩]
  derived := .name _

/-- `/ID <41>`. -/
def identifierEntry : PdfEntry where
  spaces := [.space]
  key := ⟨bytesOf "ID", rfl⟩
  between := [.space]
  value := [.hexString [⟨⟨4, by decide⟩, true⟩, ⟨⟨1, by decide⟩, true⟩]]
  derived := .hexString _

theorem written_filterEntry : filterEntry.written =
    [32, 47, 70, 105, 108, 116, 101, 114, 32] ++ 47 :: (bytesOf "FlateDecode" ++ []) := rfl

theorem written_identifierEntry :
    identifierEntry.written = [32, 47, 73, 68, 32, 60, 52, 49, 62] := rfl

/-- `/DecodeParms << /Filter /FlateDecode >>`. -/
def parametersEntry : PdfEntry where
  spaces := [.space]
  key := ⟨bytesOf "DecodeParms", rfl⟩
  between := [.space]
  value := .openDictionary :: (([.space .space] ++ .name ⟨bytesOf "Filter", rfl⟩ ::
    ([.space .space] ++ ([.name ⟨bytesOf "FlateDecode", rfl⟩] ++ [.space .space]))) ++
      [.closeDictionary])
  derived := .dictionary (.entry [.space] _ [.space] (.name _) (.noEntry [.space]))

theorem written_parametersEntry : parametersEntry.written =
    ([32, 47] ++ bytesOf "DecodeParms" ++ [32, 60]) ++
      60 :: (filterEntry.written ++ [32, 62, 62]) :=
  rfl

theorem separable_examples : Separable [filterEntry, identifierEntry, parametersEntry] := by
  have keyword : ∀ entry ∈ [filterEntry, identifierEntry, parametersEntry],
      ¬bytesOf "stream" <:+: entry.written := by
    simp only [forall_mem_cons, written_filterEntry, written_identifierEntry,
      written_parametersEntry]
    exact ⟨by decide, by decide, by decide, nofun⟩
  have subtype : ∀ entry ∈ [filterEntry, identifierEntry, parametersEntry],
      ¬Closes subtypeName entry.written := by
    have letters : ∀ entry ∈ [filterEntry, identifierEntry, parametersEntry],
        (83 : UInt8) ∉ entry.written := by
      simp only [forall_mem_cons, written_filterEntry, written_identifierEntry,
        written_parametersEntry]
      exact ⟨by decide, by decide, by decide, nofun⟩
    rintro entry listed ⟨before, spaces, whole, -⟩
    have first : (83 : UInt8) ∈ subtypeName := by decide
    apply letters entry listed
    rw [whole]
    simp [first]
  refine ⟨keyword, pairwise_of_forall_mem_list fun left inLeft right inRight => ?_⟩
  exact ⟨fun both => subtype left inLeft both.1, fun both => subtype right inRight both.1⟩

theorem rank_filterEntry : ¬filterEntry.Bracketed ∧ 1 ≤ filterEntry.rank := by
  have plain : ¬filterEntry.Bracketed := by
    rw [PdfEntry.Bracketed, written_filterEntry]
    decide
  have valid : isName (bytesOf "FlateDecode") = true := by decide
  have filter : streamHasFilter filterEntry.shown (bytesOf "FlateDecode") = true := by
    rw [PdfEntry.shown, afterBracket_of_notMem plain, streamHasFilter,
      headerHasSlashName_iff (isName_spec valid).1 (isName_spec valid).2.1]
    exact ⟨_, _, written_filterEntry, [], rfl, fun next none => by cases none⟩
  refine ⟨plain, ?_⟩
  rw [PdfEntry.rank, classify_eq, filter]
  cases streamIsImageXobject filterEntry.shown <;>
    cases hasUnsupportedFilter filterEntry.shown <;> decide

/-- The filter may stand in front of the parameters, which show the same filter, or behind them. -/
theorem orderFree_exact_parameters : OrderFree [filterEntry, parametersEntry] := by
  have opened : parametersEntry.Bracketed := by
    rw [PdfEntry.Bracketed, written_parametersEntry]
    decide
  have shown : parametersEntry.shown = filterEntry.written ++ [32, 62, 62] := by
    have none : 60 ∉ filterEntry.written ++ [32, 62, 62] := by
      rw [mem_append, not_or]
      exact ⟨rank_filterEntry.1, by decide⟩
    rw [PdfEntry.shown, written_parametersEntry, append_cons,
      afterBracket_append_of_notMem none, afterBracket_append_of_mem (by decide)]
    rfl
  have rank : filterEntry.rank ≤ parametersEntry.rank := by
    rw [PdfEntry.rank, PdfEntry.rank, shown, PdfEntry.shown,
      afterBracket_of_notMem rank_filterEntry.1, rank_classify_append]
    · exact le_max_left _ _
    · intro byte first
      cases first
      rfl
    · rintro ⟨-, spaces, rest, whole, -, after, rfl, -⟩
      have slash : (47 : UInt8) ∈ spaces ++ 47 :: (imageName ++ after) := by simp
      rw [← whole] at slash
      exact absurd slash (by decide)
  refine (orderFree_exact [filterEntry, parametersEntry]).1
    ⟨?_, classify parametersEntry.shown, ?_, ?_⟩
  · have fewer : [filterEntry, parametersEntry].Sublist
        [filterEntry, identifierEntry, parametersEntry] := by simp
    exact ⟨fun entry listed => separable_examples.1 entry (fewer.subset listed),
      separable_examples.2.sublist fewer⟩
  · intro entry listed bracketed
    rcases mem_pair.mp listed with rfl | rfl
    · exact (rank_filterEntry.1 bracketed).elim
    · rfl
  · intro entry listed plain
    rcases mem_pair.mp listed with rfl | rfl
    · exact rank
    · exact (plain opened).elim

/-- In front of the string, the filter is hidden by it. -/
theorem orderFree_hidden_filter : ¬∀ entries, OrderFree entries := by
  intro free
  have separable := @Separable.of_append [filterEntry, identifierEntry] [parametersEntry]
    separable_examples
  rcases level_of_orderFree separable (free _) with ⟨level, shown, below⟩
  have opened : identifierEntry.Bracketed := by
    rw [PdfEntry.Bracketed, written_identifierEntry]
    decide
  have plain : classify identifierEntry.shown = .plain := by
    apply classify_of_notMem
    rw [PdfEntry.shown, written_identifierEntry]
    decide
  rw [← shown identifierEntry (by simp) opened, plain] at below
  have rank := below filterEntry (by simp) rank_filterEntry.1
  exact absurd (rank_filterEntry.2.trans rank) (by decide)

end Orders

end Gfm.Content

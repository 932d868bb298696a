import Gfm.Content.Structured
import Gfm.Tsv

/-!
# Metadata of tar archives

The extractor walks over the headers of an archive and lists the name and the size of each entry.
A pax header or a long-name header gives the name of the entry after it. Sizes and lengths are
read from the bytes and move the cursors; a sum beyond the machine's word and a slice that is not
inside its bytes are panics.

Of the policy only the limits of archives are kept, and the control never interrupts.
-/

namespace Gfm.Content

open ByteOffsets LineLog

section Panics

inductive Panic where
  | overflow
  | sliceRange
  deriving DecidableEq, Repr

/-- `+` on `usize`. -/
def addUsize (left right : Nat) : Except Panic { sum : Nat // sum = left + right } :=
  if left + right < 2 ^ 64 then .ok ⟨left + right, rfl⟩ else .error .overflow

/-- `&bytes[start..stop]`. -/
def slice (bytes : Bytes) (start stop : Nat) : Except Panic Bytes :=
  if start ≤ stop ∧ stop ≤ bytes.length then .ok ((bytes.take stop).drop start)
  else .error .sliceRange

/-- `bytes[index]`. -/
def byteAt (bytes : Bytes) (index : Nat) : Except Panic UInt8 :=
  match bytes[index]? with
  | some byte => .ok byte
  | none => .error .sliceRange

def saturatingUsize (value : Nat) : Nat := min value (2 ^ 64 - 1)

end Panics

section Model

structure ExtractionPolicy where
  maxArchiveBytes : Nat
  maxArchiveEntries : Nat
  maxArchiveTextBytes : Nat

inductive ArchiveExtractStatus where
  | extracted
  | unsupported
  | tooLarge
  | tooManyEntries
  | encrypted
  | corrupt
  deriving DecidableEq, Repr

structure ContentDocument where
  bytesRead : Nat
  text : Text
  deriving DecidableEq, Repr

def octalDigit (char : Char) : Option Nat :=
  if 48 ≤ char.toNat ∧ char.toNat ≤ 55 then some (char.toNat - 48) else none

def pushOctalDigit (value : Nat) (char : Char) : Option Nat :=
  (octalDigit char).map fun digit => 8 * value + digit

/-- `u64::from_str_radix(text, 8)` of at most twelve digits, which no word is too small for. -/
def fromOctal (text : Text) : Option Nat :=
  match text with
  | [] => none
  | ['+'] => none
  | '+' :: digits => digits.foldlM pushOctalDigit 0
  | digits => digits.foldlM pushOctalDigit 0

def parseTarSize (bytes : Bytes) : Option Nat :=
  (decodeText bytes).bind fun text =>
    let text := trimWith (fun char => char = '\x00' ∨ char = ' ') text
    if text.isEmpty then some 0 else fromOctal text

def tarChecksum (header : Bytes) : Nat :=
  (header.mapIdx fun index byte => if 148 ≤ index ∧ index < 156 then 32 else byte.toNat).sum

def tarChecksumIsPlausible (header : Bytes) : Except Panic Bool :=
  if header.length ≠ 512 then .ok false
  else do
    let field ← slice header 148 156
    if field.all fun byte => byte = 0 then return true
    match parseTarSize field with
    | none => return false
    | some expected => return tarChecksum header = expected

/-- `bytes.iter().position(..)`, or the end. -/
def endAtNul (bytes : Bytes) : Nat := bytes.findIdx fun byte => byte = 0

def tarString (bytes : Bytes) : Except Panic (Option Text) := do
  let value ← slice bytes 0 (endAtNul bytes)
  return (decodeText value).map trim

def tarEntryName (header : Bytes) : Except Panic (Option Text) := do
  match ← tarString (← slice header 0 100) with
  | none => return none
  | some name =>
      let directory := (← tarString (← slice header 345 500)).getD []
      return some (if directory.isEmpty then name else directory ++ '/' :: name)

def gnuLongName (payload : Bytes) : Except Panic (Option Text) := do
  return decodeText (← slice payload 0 (endAtNul payload))

def stripNewline (record : Bytes) : Bytes :=
  if record.getLast? = some newline then record.dropLast else record

def pathKey : Bytes := encodeText "path=".toList

/-- The value of a record that names a path. -/
def paxPathValue (record : Bytes) : Option Bytes :=
  let record := stripNewline record
  if pathKey.isPrefixOf record then some (record.drop pathKey.length) else none

/-- `str::parse::<usize>` of the digits of a record. -/
def paxLength (digits : Bytes) : Option Nat :=
  (decodeText digits).bind fun text => (Tsv.parseUnsigned (2 ^ 64) text).toOption

def paxPathFrom (payload : Bytes) (cursor : Nat) : Except Panic (Option Text) := do
  if _ : cursor < payload.length then
    match (← slice payload cursor payload.length).findIdx? fun byte => byte = 32 with
    | none => return none
    | some offset =>
        let ⟨space, _⟩ ← addUsize cursor offset
        match paxLength (← slice payload cursor space) with
        | none => return none
        | some length =>
            if _ : length = 0 then return none
            else
              let ⟨stop, _⟩ ← addUsize cursor length
              if payload.length < stop then return none
              else
                let ⟨start, _⟩ ← addUsize space 1
                match paxPathValue (← slice payload start stop) with
                | some value => return decodeText value
                | none => paxPathFrom payload stop
  else return none
termination_by payload.length - cursor

def paxPath (payload : Bytes) : Except Panic (Option Text) := paxPathFrom payload 0

def entryText (name : Text) (size : Nat) : Text :=
  name ++ ' ' :: (Tsv.decimal size ++ " bytes".toList)

def pushEntryMetadata (maxBytes : Nat) (output name : Text) (size : Nat) : Text :=
  if maxBytes ≤ byteLength output then output
  else
    let output := if output.isEmpty then output else output ++ [' ']
    let entry := entryText name size
    let remaining := maxBytes - byteLength output
    if byteLength entry ≤ remaining then output ++ entry
    else output ++ sliceTo entry (floorCharBoundary entry remaining)

/-- `char::is_control`. -/
def isControl (char : Char) : Bool :=
  char.toNat < 0x20 ∨ (0x7F ≤ char.toNat ∧ char.toNat < 0xA0)

def normalizeText (input : Text) : Text :=
  input.map fun char => if isControl char ∧ char ≠ '\n' ∧ char ≠ '\t' then ' ' else char

structure TarWalk where
  text : Text
  cursor : Nat
  entries : Nat
  pendingPath : Option Text

inductive TarProgress where
  | running (walk : TarWalk)
  | stopped (status : ArchiveExtractStatus)
  /-- The loop ended, with this text. -/
  | finished (text : Text)

variable (policy : ExtractionPolicy) (bytes : Bytes)

/-- What an entry header makes of the walk; the cursor moves afterwards. -/
def tarEntry (walk : TarWalk) (header : Bytes) (size : Nat) : Except Panic TarProgress := do
  let ⟨entries, _⟩ ← addUsize walk.entries 1
  if policy.maxArchiveEntries < entries then return .stopped .tooManyEntries
  let name ← match walk.pendingPath with
    | some path => pure (some path)
    | none => tarEntryName header
  match name with
  | none => return .stopped .corrupt
  | some name =>
      let text := if name.isEmpty then walk.text
        else pushEntryMetadata policy.maxArchiveTextBytes walk.text name size
      return .running { walk with text, entries, pendingPath := none }

def tarHeader (walk : TarWalk) (header payload : Bytes) (size : Nat) :
    Except Panic TarProgress := do
  let kind ← byteAt header 156
  if kind = 120 ∨ kind = 103 then
    let path ← paxPath payload
    return .running { walk with pendingPath := path <|> walk.pendingPath }
  else if kind = 76 then
    let path ← gnuLongName payload
    return .running { walk with pendingPath := path <|> walk.pendingPath }
  else tarEntry policy walk header size

/-- The cursor after an entry, unless it is beyond the machine's word. -/
def tarNext (cursor size : Nat) : Except Panic (Option Nat) := do
  let dataBlocks := saturatingUsize (size + 511) / 512
  let ⟨member, _⟩ ← addUsize 512 (saturatingUsize (dataBlocks * 512))
  return if cursor + member < 2 ^ 64 then some (cursor + member) else none

/-- One turn of the loop. -/
def tarStep (walk : TarWalk) : Except Panic TarProgress := do
  let ⟨payloadStart, _⟩ ← addUsize walk.cursor 512
  if bytes.length < payloadStart then return .finished walk.text
  let header ← slice bytes walk.cursor payloadStart
  if header.all fun byte => byte = 0 then return .finished walk.text
  if (← tarChecksumIsPlausible header) = false then return .stopped .corrupt
  match parseTarSize (← slice header 124 136) with
  | none => return .stopped .corrupt
  | some size =>
      match ← tarNext walk.cursor size with
      | none => return .stopped .corrupt
      | some next =>
          if bytes.length < next then return .stopped .corrupt
          let ⟨payloadEnd, _⟩ ← addUsize payloadStart size
          let payload := (slice bytes payloadStart payloadEnd).toOption.getD []
          match ← tarHeader policy walk header payload size with
          | .running after =>
              if policy.maxArchiveTextBytes ≤ byteLength after.text then
                return .finished after.text
              return .running { after with cursor := next }
          | ended => return ended

/-- So many turns of the loop. -/
def tarTurns : Nat → TarWalk → Except Panic TarProgress
  | 0, walk => .ok (.running walk)
  | turns + 1, walk => do
      match ← tarStep policy bytes walk with
      | .running next => tarTurns turns next
      | ended => return ended

def TarWalk.start : TarWalk := ⟨[], 0, 0, none⟩

/-- The result after so many turns of the loop, unless it still runs. -/
def extractTarMetadata (turns : Nat) :
    Except Panic (Option (ArchiveExtractStatus × Option ContentDocument)) := do
  if policy.maxArchiveBytes < bytes.length then return some (.tooLarge, none)
  match ← tarTurns policy bytes turns .start with
  | .running _ => return none
  | .stopped status => return some (status, none)
  | .finished text =>
      let text := normalizeText (trim text)
      return if text.isEmpty then some (.unsupported, none)
        else some (.extracted, some ⟨bytes.length, text⟩)

end Model

end Gfm.Content

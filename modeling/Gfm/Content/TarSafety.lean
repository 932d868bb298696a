import Gfm.Content.Tar
import Gfm.Lib.Folds

/-!
# When the tar extractor panics

The sizes of a tar header are twelve octal digits at most and the cursor stays inside the bytes,
so the walk itself never leaves them. A pax record says its own length, and nothing keeps that
length from ending inside its own digits or beyond the machine's word. The extractor panics
exactly at a payload that holds such a record where its records are read.
-/

namespace Gfm.Content

open ByteOffsets Folds LineLog List

section Total

theorem addUsize_of_lt {left right : Nat} (fits : left + right < 2 ^ 64) :
    addUsize left right = .ok ⟨left + right, rfl⟩ := if_pos fits

theorem slice_of_le {bytes : Bytes} {start stop : Nat} (ordered : start ≤ stop)
    (inside : stop ≤ bytes.length) : slice bytes start stop = .ok ((bytes.take stop).drop start) :=
  if_pos ⟨ordered, inside⟩

theorem endAtNul_le (bytes : Bytes) : endAtNul bytes ≤ bytes.length := findIdx_le_length

theorem tarString_eq (bytes : Bytes) :
    tarString bytes = .ok ((decodeText (bytes.take (endAtNul bytes))).map trim) := by
  rw [tarString, slice_of_le (Nat.zero_le _) (endAtNul_le _)]
  rfl

theorem gnuLongName_eq (payload : Bytes) :
    gnuLongName payload = .ok (decodeText (payload.take (endAtNul payload))) := by
  rw [gnuLongName, slice_of_le (Nat.zero_le _) (endAtNul_le _)]
  rfl

theorem tarEntryName_total {header : Bytes} (block : header.length = 512) :
    ∃ name, tarEntryName header = .ok name := by
  rw [tarEntryName, slice_of_le (by omega) (by omega), slice_of_le (by omega) (by omega)]
  simp only [bind, Except.bind, tarString_eq]
  split
  · exact ⟨_, rfl⟩
  · exact ⟨_, rfl⟩

theorem tarChecksumIsPlausible_total (header : Bytes) :
    ∃ passes, tarChecksumIsPlausible header = .ok passes := by
  rw [tarChecksumIsPlausible]
  split
  · exact ⟨_, rfl⟩
  next block =>
    rw [slice_of_le (by omega) (by omega)]
    simp only [bind, Except.bind]
    split
    · exact ⟨_, rfl⟩
    · split
      · exact ⟨_, rfl⟩
      · exact ⟨_, rfl⟩

theorem foldlM_pushOctalDigit {digits : Text} {value size : Nat}
    (folded : digits.foldlM pushOctalDigit value = some size) :
    size < 8 ^ digits.length * (value + 1) := by
  induction digits generalizing value with
  | nil =>
      rw [foldlM_nil] at folded
      obtain rfl := Option.some.inj folded
      simp
  | cons char digits ih =>
      rw [foldlM_cons] at folded
      rcases Option.bind_eq_some_iff.mp folded with ⟨next, pushed, rest⟩
      rcases Option.map_eq_some_iff.mp pushed with ⟨digit, digitEq, rfl⟩
      have small : digit ≤ 7 := by
        rw [octalDigit] at digitEq
        split at digitEq
        next bounds =>
          obtain rfl := Option.some.inj digitEq
          omega
        next => cases digitEq
      calc size < 8 ^ digits.length * (8 * value + digit + 1) := ih rest
        _ ≤ 8 ^ digits.length * (8 * (value + 1)) := by gcongr; omega
        _ = 8 ^ (char :: digits).length * (value + 1) := by
          rw [length_cons, pow_succ]
          ring

theorem fromOctal_lt {text : Text} {size : Nat} (parsed : fromOctal text = some size) :
    size < 8 ^ text.length := by
  unfold fromOctal at parsed
  split at parsed
  · cases parsed
  · cases parsed
  next digits _ =>
    have bound := foldlM_pushOctalDigit parsed
    calc size < 8 ^ digits.length * (0 + 1) := bound
      _ ≤ 8 ^ ('+' :: digits).length := by
        rw [length_cons, pow_succ]
        omega
  next =>
    have bound := foldlM_pushOctalDigit parsed
    simpa using bound

theorem length_le_byteLength (text : Text) : text.length ≤ (encodeText text).length := by
  induction text with
  | nil => simp
  | cons char text ih =>
      have positive := char.utf8Size_pos
      simp only [encodeText, flatMap_cons, length_append,
        String.length_utf8EncodeChar, length_cons] at ih ⊢
      omega

/-- Twelve octal digits stay far below the machine's word. -/
theorem parseTarSize_lt {field : Bytes} {size : Nat} (short : field.length ≤ 12)
    (parsed : parseTarSize field = some size) : size < 2 ^ 36 := by
  rcases Option.bind_eq_some_iff.mp parsed with ⟨text, decoded, number⟩
  simp only at number
  split at number
  · obtain rfl := Option.some.inj number
    decide
  · have trimmed : ∀ blank : Char → Bool, (trimWith blank text).length ≤ text.length := by
      intro blank
      exact (List.rdropWhile_prefix blank _).length_le.trans
        (dropWhile_suffix blank).length_le
    have within : text.length ≤ 12 := by
      have encoded := length_le_byteLength text
      rw [encodeText_of_decodeText decoded] at encoded
      omega
    calc size < 8 ^ (trimWith _ text).length := fromOctal_lt number
      _ ≤ 8 ^ 12 := Nat.pow_le_pow_right (by decide) ((trimmed _).trans within)
      _ = 2 ^ 36 := by norm_num

/-- The blocks of an entry with its header. -/
def memberLength (size : Nat) : Nat := 512 + (size + 511) / 512 * 512

theorem tarNext_eq {cursor size : Nat} (inside : cursor < 2 ^ 63) (small : size < 2 ^ 36) :
    tarNext cursor size = .ok (some (cursor + memberLength size)) := by
  have blocks : saturatingUsize (saturatingUsize (size + 511) / 512 * 512) =
      (size + 511) / 512 * 512 := by
    simp only [saturatingUsize]
    omega
  have moved : ∀ padded, padded = (size + 511) / 512 * 512 →
      (do
        let ⟨member, _⟩ ← addUsize 512 padded
        return if cursor + member < 2 ^ 64 then some (cursor + member) else none) =
        (Except.ok (some (cursor + memberLength size)) : Except Panic (Option Nat)) := by
    rintro padded rfl
    have fits : cursor + (512 + (size + 511) / 512 * 512) < 2 ^ 64 := by omega
    rw [addUsize_of_lt (by omega)]
    simp only [bind, Except.bind, pure, Except.pure, memberLength, fits, if_true]
  exact moved _ blocks

end Total

section Pax

/-- The record at the cursor ends its length with the space at the first number, and the length is
the second. -/
def paxDeclared (payload : Bytes) (cursor : Nat) : Option (Nat × Nat) :=
  ((payload.drop cursor).findIdx? fun byte => byte = 32).bind fun offset =>
    (paxLength ((payload.take (cursor + offset)).drop cursor)).map fun length =>
      (cursor + offset, length)

/-- The content of a record between its space and its end. -/
def paxRecord (payload : Bytes) (space stop : Nat) : Bytes := (payload.take stop).drop (space + 1)

/-- A record whose length ends before the record begins, or beyond the machine's word, is read
from the cursor on. -/
inductive PaxFault (payload : Bytes) : Nat → Prop where
  | short {cursor space length : Nat} (declared : paxDeclared payload cursor = some (space, length))
      (nonzero : length ≠ 0) (inside : cursor + length ≤ payload.length)
      (within : cursor + length ≤ space) : PaxFault payload cursor
  | beyond {cursor space length : Nat}
      (declared : paxDeclared payload cursor = some (space, length))
      (overflow : 2 ^ 64 ≤ cursor + length) : PaxFault payload cursor
  | later {cursor space length : Nat} (declared : paxDeclared payload cursor = some (space, length))
      (inside : cursor + length ≤ payload.length) (after : space < cursor + length)
      (other : paxPathValue (paxRecord payload space (cursor + length)) = none)
      (rest : PaxFault payload (cursor + length)) : PaxFault payload cursor

theorem paxDeclared_bounds {payload : Bytes} {cursor space length : Nat}
    (declared : paxDeclared payload cursor = some (space, length)) :
    cursor ≤ space ∧ space < payload.length := by
  rcases Option.bind_eq_some_iff.mp declared with ⟨offset, found, rest⟩
  rcases Option.map_eq_some_iff.mp rest with ⟨number, -, pair⟩
  obtain ⟨rfl, rfl⟩ := Prod.mk.inj pair
  have bound := (findIdx?_eq_some_iff_getElem.mp found).1
  rw [length_drop] at bound
  omega

/-- One record: where its length and its content are inside the payload, the reader either has
its answer or goes on behind the record. -/
theorem paxPathFrom_eq {payload : Bytes} (bounded : payload.length < 2 ^ 63) (cursor : Nat) :
    paxPathFrom payload cursor =
      match paxDeclared payload cursor with
      | none => .ok none
      | some (space, length) =>
          if length = 0 then .ok none
          else if 2 ^ 64 ≤ cursor + length then .error .overflow
          else if payload.length < cursor + length then .ok none
          else if cursor + length ≤ space then .error .sliceRange
          else
            match paxPathValue (paxRecord payload space (cursor + length)) with
            | some value => .ok (decodeText value)
            | none => paxPathFrom payload (cursor + length) := by
  by_cases inside : cursor < payload.length
  · rw [paxPathFrom, dif_pos inside, slice_of_le (by omega) le_rfl, take_length, paxDeclared]
    simp only [bind, Except.bind]
    cases found : (payload.drop cursor).findIdx? fun byte => byte = 32 with
    | none => rfl
    | some offset =>
        have bound := (findIdx?_eq_some_iff_getElem.mp found).1
        rw [length_drop] at bound
        simp only [Option.bind_some]
        rw [addUsize_of_lt (by omega)]
        simp only
        rw [slice_of_le (by omega) (by omega)]
        simp only
        cases paxLength ((payload.take (cursor + offset)).drop cursor) with
        | none => rfl
        | some length =>
            simp only [Option.map_some]
            split
            next => rfl
            next nonzero =>
              by_cases overflow : 2 ^ 64 ≤ cursor + length
              · rw [if_pos overflow, addUsize, if_neg (by omega)]
              · rw [if_neg overflow, addUsize_of_lt (by omega)]
                simp only
                split
                next => rfl
                next fits =>
                  rw [addUsize_of_lt (by omega)]
                  simp only
                  by_cases within : cursor + length ≤ cursor + offset
                  · rw [if_pos within, slice, if_neg (by omega)]
                  · rw [if_neg within, slice_of_le (by omega) (by omega)]
                    rfl
  · have outside : payload.drop cursor = [] := drop_eq_nil_of_le (by omega)
    rw [paxPathFrom, dif_neg inside, paxDeclared, outside]
    rfl

/-- The reader of pax records panics exactly where it comes to a record at fault. -/
theorem paxPathFrom_panics_iff {payload : Bytes} (bounded : payload.length < 2 ^ 63)
    (cursor : Nat) :
    (∃ panic, paxPathFrom payload cursor = .error panic) ↔ PaxFault payload cursor := by
  constructor
  · rintro ⟨panic, panics⟩
    induction left : payload.length - cursor using Nat.strong_induction_on generalizing cursor with
    | _ left ih =>
        rw [paxPathFrom_eq bounded] at panics
        cases declared : paxDeclared payload cursor with
        | none => simp [declared] at panics
        | some record =>
            rcases record with ⟨space, length⟩
            have bounds := paxDeclared_bounds declared
            simp only [declared] at panics
            split at panics
            next => cases panics
            next nonzero =>
              split at panics
              next overflow => exact .beyond declared overflow
              next =>
                split at panics
                next => cases panics
                next inside =>
                  split at panics
                  next within => exact .short declared nonzero (by omega) within
                  next after =>
                    split at panics
                    next => cases panics
                    next other =>
                      exact .later declared (by omega) (by omega) other
                        (ih (payload.length - (cursor + length)) (by omega) _ panics rfl)
  · intro fault
    induction fault with
    | @short cursor space length declared nonzero inside within =>
        refine ⟨.sliceRange, ?_⟩
        have fits : ¬2 ^ 64 ≤ cursor + length := by omega
        have reached : ¬payload.length < cursor + length := by omega
        simp only [paxPathFrom_eq bounded cursor, declared, nonzero, fits, reached, within,
          if_false, if_true]
    | @beyond cursor space length declared overflow =>
        refine ⟨.overflow, ?_⟩
        have bounds := paxDeclared_bounds declared
        have nonzero : length ≠ 0 := by omega
        simp only [paxPathFrom_eq bounded cursor, declared, nonzero, overflow, if_false, if_true]
    | @later cursor space length declared inside after other _ ih =>
        rcases ih with ⟨panic, panics⟩
        refine ⟨panic, ?_⟩
        have bounds := paxDeclared_bounds declared
        have nonzero : length ≠ 0 := by omega
        have fits : ¬2 ^ 64 ≤ cursor + length := by omega
        have reached : ¬payload.length < cursor + length := by omega
        have beyond : ¬cursor + length ≤ space := by omega
        simp only [paxPathFrom_eq bounded cursor, declared, nonzero, fits, reached, beyond, other,
          if_false, panics]

end Pax

section Walk

variable {policy : ExtractionPolicy} {bytes : Bytes} {walk : TarWalk}

/-- What holds of the walk between two turns of the loop. -/
structure TarInvariant (bytes : Bytes) (walk : TarWalk) : Prop where
  bounded : bytes.length < 2 ^ 63
  inside : walk.cursor ≤ bytes.length
  counted : 512 * walk.entries ≤ walk.cursor

/-- The header that the loop accepts at a cursor, with its size: its checksum is plausible, its
size is a number, and its blocks are there. -/
def tarMember (bytes : Bytes) (cursor : Nat) : Option (Bytes × Nat) :=
  let header := (bytes.take (cursor + 512)).drop cursor
  if bytes.length < cursor + 512 ∨ header.all (fun byte => byte = 0) ∨
      tarChecksumIsPlausible header ≠ .ok true then none
  else
    (parseTarSize ((header.take 136).drop 124)).bind fun size =>
      if bytes.length < cursor + memberLength size then none else some (header, size)

def tarPayload (bytes : Bytes) (cursor size : Nat) : Bytes :=
  (bytes.take (cursor + 512 + size)).drop (cursor + 512)

/-- The loop accepts a pax header at the cursor, and a record of its payload is at fault. -/
def TarFault (bytes : Bytes) (cursor : Nat) : Prop :=
  ∃ header size, tarMember bytes cursor = some (header, size) ∧
    (header[156]? = some 120 ∨ header[156]? = some 103) ∧
    PaxFault (tarPayload bytes cursor size) 0

theorem tarMember_bounds {cursor : Nat} {header : Bytes} {size : Nat}
    (accepted : tarMember bytes cursor = some (header, size)) :
    header.length = 512 ∧ size < 2 ^ 36 ∧ cursor + memberLength size ≤ bytes.length := by
  rw [tarMember] at accepted
  split at accepted
  · cases accepted
  next readable =>
    rcases Option.bind_eq_some_iff.mp accepted with ⟨number, parsed, rest⟩
    split at rest
    · cases rest
    next reached =>
      obtain ⟨rfl, rfl⟩ := Prod.mk.inj (Option.some.inj rest)
      have block : ((bytes.take (cursor + 512)).drop cursor).length = 512 := by
        simp only [length_drop, length_take]
        omega
      refine ⟨block, parseTarSize_lt ?_ parsed, by omega⟩
      simp only [length_drop, length_take]
      omega

variable (policy) in
theorem tarStep_of_none (invariant : TarInvariant bytes walk)
    (refused : tarMember bytes walk.cursor = none) :
    ∃ ended, tarStep policy bytes walk = .ok ended ∧ ∀ next, ended ≠ .running next := by
  have bounded := invariant.bounded
  have inside := invariant.inside
  rw [tarStep, addUsize_of_lt (by omega)]
  simp only [bind, Except.bind]
  split
  · exact ⟨.finished walk.text, rfl, by simp⟩
  next reached =>
    have block : ((bytes.take (walk.cursor + 512)).drop walk.cursor).length = 512 := by
      simp only [length_drop, length_take]
      omega
    rw [slice_of_le (by omega) (by omega)]
    simp only
    split
    · exact ⟨.finished walk.text, rfl, by simp⟩
    next content =>
      rcases tarChecksumIsPlausible_total ((bytes.take (walk.cursor + 512)).drop walk.cursor)
        with ⟨passes, checked⟩
      rw [checked]
      simp only
      split
      · exact ⟨.stopped .corrupt, rfl, by simp⟩
      next sound =>
        rw [slice_of_le (by omega) (by omega)]
        have accepted : ¬(bytes.length < walk.cursor + 512 ∨
            ((bytes.take (walk.cursor + 512)).drop walk.cursor).all (fun byte => byte = 0) ∨
            tarChecksumIsPlausible ((bytes.take (walk.cursor + 512)).drop walk.cursor) ≠
              .ok true) := by
          have isTrue : passes = true := by simpa using sound
          rw [checked, isTrue]
          simp only [not_or, ne_eq, not_true_eq_false, not_false_eq_true, and_true]
          exact ⟨reached, content⟩
        simp only
        rw [tarMember] at refused
        simp only [accepted, if_false] at refused
        cases parsed : parseTarSize
            ((((bytes.take (walk.cursor + 512)).drop walk.cursor).take 136).drop 124) with
        | none => exact ⟨.stopped .corrupt, rfl, by simp⟩
        | some size =>
            have small : size < 2 ^ 36 := by
              apply parseTarSize_lt _ parsed
              simp only [length_drop, length_take]
              omega
            have cut : bytes.length < walk.cursor + memberLength size := by
              simpa [parsed] using refused
            simp only
            rw [tarNext_eq (by omega) small]
            simp only [cut, if_true]
            exact ⟨.stopped .corrupt, rfl, by simp⟩

theorem tarStep_of_member (invariant : TarInvariant bytes walk) {header : Bytes} {size : Nat}
    (accepted : tarMember bytes walk.cursor = some (header, size)) :
    tarStep policy bytes walk = do
      match ← tarHeader policy walk header (tarPayload bytes walk.cursor size) size with
      | .running after =>
          if policy.maxArchiveTextBytes ≤ byteLength after.text then
            return .finished after.text
          return .running { after with cursor := walk.cursor + memberLength size }
      | ended => return ended := by
  have bounded := invariant.bounded
  have inside := invariant.inside
  have bounds := tarMember_bounds accepted
  rw [tarMember] at accepted
  split at accepted
  · cases accepted
  next readable =>
    simp only [not_or, ne_eq, not_not] at readable
    rcases readable with ⟨reached, content, passes⟩
    rcases Option.bind_eq_some_iff.mp accepted with ⟨number, parsed, rest⟩
    split at rest
    · cases rest
    next fits =>
      obtain ⟨headerEq, rfl⟩ := Prod.mk.inj (Option.some.inj rest)
      have after : memberLength number = 512 + (number + 511) / 512 * 512 := rfl
      rw [headerEq] at content passes parsed
      rw [tarStep, addUsize_of_lt (by omega)]
      simp only [bind, Except.bind]
      rw [if_neg reached, slice_of_le (by omega) (by omega)]
      simp only [headerEq]
      rw [if_neg content, passes]
      simp only
      rw [if_neg (by simp), slice_of_le (by omega) (by omega)]
      simp only [parsed]
      rw [tarNext_eq (by omega) bounds.2.1]
      simp only
      rw [if_neg fits, addUsize_of_lt (by omega)]
      simp only
      rw [slice_of_le (by omega) (by omega)]
      rfl

variable (policy) in
theorem tarEntry_total {header : Bytes} (size : Nat) (block : header.length = 512)
    (fits : walk.entries + 1 < 2 ^ 64) :
    ∃ progress, tarEntry policy walk header size = .ok progress ∧
      ∀ after, progress = .running after →
        after.cursor = walk.cursor ∧ after.entries = walk.entries + 1 := by
  rcases tarEntryName_total block with ⟨entryName, named⟩
  rw [tarEntry, addUsize_of_lt fits]
  simp only [bind, Except.bind, named]
  split
  · exact ⟨_, rfl, by simp⟩
  · cases walk.pendingPath with
    | some path =>
        refine ⟨_, rfl, ?_⟩
        rintro after same
        obtain rfl := TarProgress.running.inj same
        exact ⟨rfl, rfl⟩
    | none =>
        cases entryName with
        | none => exact ⟨_, rfl, by simp⟩
        | some name =>
            refine ⟨_, rfl, ?_⟩
            rintro after same
            obtain rfl := TarProgress.running.inj same
            exact ⟨rfl, rfl⟩

variable (policy) in
theorem tarHeader_panics_iff {header payload : Bytes} (size : Nat) (block : header.length = 512)
    (bounded : payload.length < 2 ^ 63) (fits : walk.entries + 1 < 2 ^ 64) :
    (∃ panic, tarHeader policy walk header payload size = .error panic) ↔
      (header[156]? = some 120 ∨ header[156]? = some 103) ∧ PaxFault payload 0 := by
  have present : header[156]? = some header[156] := getElem?_eq_getElem (by omega)
  rw [tarHeader, byteAt, present]
  simp only [bind, Except.bind, Option.some.injEq]
  by_cases pax : header[156] = 120 ∨ header[156] = 103
  · rw [if_pos pax, ← paxPathFrom_panics_iff bounded 0, and_iff_right pax, paxPath]
    cases paxPathFrom payload 0 with
    | error panic => simp
    | ok path => simp [pure, Except.pure]
  · rw [if_neg pax]
    refine iff_of_false ?_ fun both => pax both.1
    rintro ⟨panic, panics⟩
    split at panics
    · rw [gnuLongName_eq] at panics
      cases panics
    · rcases tarEntry_total policy size block fits with ⟨progress, ok, -⟩
      rw [ok] at panics
      cases panics

theorem tarHeader_running {header payload : Bytes} {size : Nat} {after : TarWalk}
    (block : header.length = 512) (fits : walk.entries + 1 < 2 ^ 64)
    (running : tarHeader policy walk header payload size = .ok (.running after)) :
    after.cursor = walk.cursor ∧ after.entries ≤ walk.entries + 1 := by
  have present : header[156]? = some header[156] := getElem?_eq_getElem (by omega)
  rw [tarHeader, byteAt, present] at running
  simp only [bind, Except.bind] at running
  split at running
  · cases read : paxPath payload with
    | error panic => simp [read] at running
    | ok path =>
        simp only [read, pure, Except.pure, Except.ok.injEq, TarProgress.running.injEq] at running
        subst running
        exact ⟨rfl, Nat.le_succ _⟩
  · split at running
    · rw [gnuLongName_eq] at running
      simp only [pure, Except.pure, Except.ok.injEq, TarProgress.running.injEq] at running
      subst running
      exact ⟨rfl, Nat.le_succ _⟩
    · rcases tarEntry_total policy size block fits with ⟨progress, ok, keeps⟩
      rw [ok] at running
      have kept := keeps after (Except.ok.inj running)
      exact ⟨kept.1, kept.2.le⟩

theorem TarInvariant.entries_lt (invariant : TarInvariant bytes walk) :
    walk.entries + 1 < 2 ^ 64 := by
  have bounded := invariant.bounded
  have inside := invariant.inside
  have counted := invariant.counted
  omega

theorem length_tarPayload_lt (invariant : TarInvariant bytes walk) (size : Nat) :
    (tarPayload bytes walk.cursor size).length < 2 ^ 63 := by
  have bounded := invariant.bounded
  simp only [tarPayload, length_drop, length_take]
  omega

variable (policy) in
/-- One turn of the loop panics exactly at a fault. -/
theorem tarStep_panics_iff (invariant : TarInvariant bytes walk) :
    (∃ panic, tarStep policy bytes walk = .error panic) ↔ TarFault bytes walk.cursor := by
  cases accepted : tarMember bytes walk.cursor with
  | none =>
      rcases tarStep_of_none policy invariant accepted with ⟨ended, ok, -⟩
      simp [ok, TarFault, accepted]
  | some member =>
      rcases member with ⟨header, size⟩
      have bounds := tarMember_bounds accepted
      have panics := tarHeader_panics_iff policy size bounds.1
        (length_tarPayload_lt invariant size) invariant.entries_lt
      simp only [TarFault, accepted, Option.some.injEq, Prod.mk.injEq]
      rw [tarStep_of_member invariant accepted]
      constructor
      · rintro ⟨panic, failed⟩
        refine ⟨header, size, ⟨rfl, rfl⟩, panics.mp ⟨panic, ?_⟩⟩
        cases ran : tarHeader policy walk header (tarPayload bytes walk.cursor size) size with
        | error other =>
            rw [ran] at failed
            exact failed
        | ok progress =>
            rw [ran] at failed
            cases progress with
            | running after =>
                simp only [bind, Except.bind] at failed
                split at failed <;> cases failed
            | stopped | finished => cases failed
      · rintro ⟨_, _, ⟨rfl, rfl⟩, fault⟩
        rcases panics.mpr fault with ⟨panic, failed⟩
        refine ⟨panic, ?_⟩
        rw [failed]
        rfl

/-- A turn that goes on moves the cursor over the blocks of one member. -/
theorem tarStep_running (invariant : TarInvariant bytes walk) {next : TarWalk}
    (running : tarStep policy bytes walk = .ok (.running next)) :
    TarInvariant bytes next ∧ walk.cursor + 512 ≤ next.cursor := by
  cases accepted : tarMember bytes walk.cursor with
  | none =>
      rcases tarStep_of_none policy invariant accepted with ⟨ended, ok, apart⟩
      rw [ok] at running
      exact absurd (Except.ok.inj running) (apart next)
  | some member =>
      rcases member with ⟨header, size⟩
      have bounds := tarMember_bounds accepted
      have counted := invariant.counted
      rw [tarStep_of_member invariant accepted] at running
      cases ran : tarHeader policy walk header (tarPayload bytes walk.cursor size) size with
      | error other =>
          rw [ran] at running
          cases running
      | ok progress =>
          rw [ran] at running
          cases progress with
          | stopped | finished => cases running
          | running after =>
              have kept := tarHeader_running bounds.1 invariant.entries_lt ran
              simp only [bind, Except.bind] at running
              split at running
              · cases running
              · have same := TarProgress.running.inj (Except.ok.inj running)
                subst same
                have grows : 512 ≤ memberLength size := Nat.le_add_right _ _
                refine ⟨⟨invariant.bounded, bounds.2.2, ?_⟩, ?_⟩
                · simp only
                  omega
                · simp only
                  omega

end Walk

section Runs

variable {policy : ExtractionPolicy} {bytes : Bytes} {walk : TarWalk}

def TarStepsTo (policy : ExtractionPolicy) (bytes : Bytes) (walk next : TarWalk) : Prop :=
  tarStep policy bytes walk = .ok (.running next)

/-- The walks of the loop from a walk on. -/
def TarReaches (policy : ExtractionPolicy) (bytes : Bytes) : TarWalk → TarWalk → Prop :=
  Relation.ReflTransGen (TarStepsTo policy bytes)

variable (policy) in
theorem tarTurns_panics_iff {turns : Nat} (invariant : TarInvariant bytes walk)
    (enough : bytes.length < walk.cursor + 512 * turns) :
    (∃ panic, tarTurns policy bytes turns walk = .error panic) ↔
      ∃ reached, TarReaches policy bytes walk reached ∧ TarFault bytes reached.cursor := by
  induction turns generalizing walk with
  | zero =>
      have inside := invariant.inside
      omega
  | succ turns ih =>
      have here := tarStep_panics_iff policy invariant
      have split : (∃ reached, TarReaches policy bytes walk reached ∧
          TarFault bytes reached.cursor) ↔ TarFault bytes walk.cursor ∨
            ∃ next, tarStep policy bytes walk = .ok (.running next) ∧
              ∃ reached, TarReaches policy bytes next reached ∧ TarFault bytes reached.cursor := by
        constructor
        · rintro ⟨reached, steps, fault⟩
          rcases Relation.ReflTransGen.cases_head steps with rfl | ⟨next, step, rest⟩
          · exact .inl fault
          · exact .inr ⟨next, step, reached, rest, fault⟩
        · rintro (fault | ⟨next, step, reached, rest, fault⟩)
          · exact ⟨walk, .refl, fault⟩
          · exact ⟨reached, .head step rest, fault⟩
      rw [split, ← here, tarTurns]
      cases stepEq : tarStep policy bytes walk with
      | error panic => simp [bind, Except.bind]
      | ok progress =>
          cases progress with
          | running next =>
              have moved := tarStep_running invariant stepEq
              have rest := ih moved.1 (by omega)
              simpa [bind, Except.bind] using rest
          | stopped | finished => simp [bind, Except.bind, pure, Except.pure]

/-- The loop ends within one turn for each block. -/
theorem tarTurns_ended {turns : Nat} {next : TarWalk} (invariant : TarInvariant bytes walk)
    (enough : bytes.length < walk.cursor + 512 * turns) :
    tarTurns policy bytes turns walk ≠ .ok (.running next) := by
  induction turns generalizing walk with
  | zero =>
      have inside := invariant.inside
      omega
  | succ turns ih =>
      intro still
      rw [tarTurns] at still
      cases stepEq : tarStep policy bytes walk with
      | error panic =>
          rw [stepEq] at still
          cases still
      | ok progress =>
          rw [stepEq] at still
          cases progress with
          | running after =>
              have moved := tarStep_running invariant stepEq
              exact ih moved.1 (by omega) still
          | stopped | finished => cases still

theorem unencrypted_bind {α : Type} {first : Except Panic α}
    {next : α → Except Panic TarProgress}
    (each : ∀ value, next value ≠ .ok (.stopped .encrypted)) :
    (first >>= next) ≠ .ok (.stopped .encrypted) := by
  intro ran
  rcases bind_eq_ok ran with ⟨value, -, stopped⟩
  exact each value stopped

theorem tarHeader_unencrypted (header payload : Bytes) (size : Nat) :
    tarHeader policy walk header payload size ≠ .ok (.stopped .encrypted) := by
  refine unencrypted_bind fun kind => ?_
  split
  · exact unencrypted_bind fun path => nofun
  split
  · exact unencrypted_bind fun path => nofun
  refine unencrypted_bind fun ⟨entries, _⟩ => ?_
  dsimp only
  split
  · exact nofun
  split <;> refine unencrypted_bind fun name => ?_ <;> cases name <;> exact nofun

theorem tarStep_unencrypted : tarStep policy bytes walk ≠ .ok (.stopped .encrypted) := by
  refine unencrypted_bind fun header => ?_
  rcases header with ⟨payloadStart, _⟩
  dsimp only
  split
  · rintro ⟨⟩
  refine unencrypted_bind fun header => ?_
  split
  · rintro ⟨⟩
  refine unencrypted_bind fun passes => ?_
  split
  · rintro ⟨⟩
  refine unencrypted_bind fun field => ?_
  split
  · rintro ⟨⟩
  refine unencrypted_bind fun next => ?_
  split
  · rintro ⟨⟩
  split
  · rintro ⟨⟩
  intro ran
  rcases bind_eq_ok ran with ⟨payload, _, ran⟩
  rcases bind_eq_ok ran with ⟨after, entered, ran⟩
  cases after with
  | running after =>
      dsimp only at ran
      split at ran <;> cases ran
  | stopped status =>
      cases ran
      exact tarHeader_unencrypted _ _ _ entered
  | finished text => cases ran

theorem tarTurns_unencrypted {turns : Nat} :
    tarTurns policy bytes turns walk ≠ .ok (.stopped .encrypted) := by
  induction turns generalizing walk with
  | zero => exact nofun
  | succ turns ih =>
      intro ran
      rcases bind_eq_ok ran with ⟨after, stepped, ran⟩
      cases after with
      | running after => exact ih ran
      | stopped status =>
          cases ran
          exact tarStep_unencrypted stepped
      | finished text => cases ran

theorem lt_turns (length : Nat) : length < 0 + 512 * (length / 512 + 1) := by omega

/-- The bytes of a file in memory: no slice is longer than `isize::MAX`. -/
structure ByteSlice where
  bytes : Bytes
  addressable : bytes.length < 2 ^ 63

/-- The extractor comes to the walk. -/
def TarVisits (policy : ExtractionPolicy) (bytes : Bytes) (walk : TarWalk) : Prop :=
  bytes.length ≤ policy.maxArchiveBytes ∧ TarReaches policy bytes .start walk

variable (policy) in
/-- The loop stops at a header that is at fault, or at one too many. -/
theorem tarTurns_start (file : ByteSlice) :
    ((∃ panic, tarTurns policy file.bytes (file.bytes.length / 512 + 1) .start = .error panic) ↔
      ∃ reached, TarReaches policy file.bytes .start reached ∧
        TarFault file.bytes reached.cursor) ∧
    ∀ next, tarTurns policy file.bytes (file.bytes.length / 512 + 1) .start ≠
      .ok (.running next) := by
  have invariant : TarInvariant file.bytes .start := ⟨file.addressable, Nat.zero_le _, le_rfl⟩
  have enough : file.bytes.length < TarWalk.start.cursor + 512 * (file.bytes.length / 512 + 1) :=
    lt_turns file.bytes.length
  exact ⟨tarTurns_panics_iff policy invariant enough, fun _ => tarTurns_ended invariant enough⟩

/-- The extractor ends with a status other than that of an encrypted archive, after at most one
turn for each block and without a panic, exactly if it comes to no pax header with a record at
fault. -/
theorem extractTarMetadata_safe_iff (policy : ExtractionPolicy) (file : ByteSlice) :
    (∃ result, extractTarMetadata policy file.bytes (file.bytes.length / 512 + 1) =
        .ok (some result) ∧ result.1 ≠ .encrypted) ↔
      ∀ walk, TarVisits policy file.bytes walk → ¬TarFault file.bytes walk.cursor := by
  have run := tarTurns_start policy file
  rw [extractTarMetadata]
  by_cases large : policy.maxArchiveBytes < file.bytes.length
  · rw [if_pos large]
    refine iff_of_true ⟨_, rfl, nofun⟩ fun walk visits => ?_
    have small := visits.1
    omega
  · rw [if_neg large]
    have visited : (∀ walk, TarVisits policy file.bytes walk → ¬TarFault file.bytes walk.cursor) ↔
        ¬∃ reached, TarReaches policy file.bytes .start reached ∧
          TarFault file.bytes reached.cursor := by
      rw [not_exists]
      exact forall_congr' fun walk =>
        ⟨fun safe both => safe ⟨by omega, both.1⟩ both.2, fun safe visits fault =>
          safe ⟨visits.2, fault⟩⟩
    rw [visited, ← run.1]
    cases ran : tarTurns policy file.bytes (file.bytes.length / 512 + 1) .start with
    | error panic => simp [bind, Except.bind]
    | ok progress =>
        cases progress with
        | running next => exact absurd ran (run.2 next)
        | stopped status =>
            have other : status ≠ .encrypted := fun same => tarTurns_unencrypted (same ▸ ran)
            simpa [bind, Except.bind, pure, Except.pure] using other
        | finished text =>
            simp only [bind, Except.bind, pure, Except.pure, reduceCtorEq, exists_false,
              not_false_eq_true, iff_true]
            split
            · exact ⟨_, rfl, nofun⟩
            · exact ⟨_, rfl, nofun⟩

theorem tarMember_append {header rest : Bytes} {size : Nat} (block : header.length = 512)
    (content : header.all (fun byte => byte = 0) = false)
    (passes : tarChecksumIsPlausible header = .ok true)
    (parsed : parseTarSize ((header.take 136).drop 124) = some size)
    (fits : memberLength size ≤ (header ++ rest).length) :
    tarMember (header ++ rest) 0 = some (header, size) := by
  have first : ((header ++ rest).take (0 + 512)).drop 0 = header := by
    rw [drop_zero, Nat.zero_add, take_left' block]
  have readable : ¬(header ++ rest).length < 0 + 512 := by
    rw [length_append]
    omega
  rw [tarMember, first, content, passes]
  simp only [readable, Bool.false_eq_true, ne_eq, not_true_eq_false, or_self, if_false, parsed,
    Option.bind_some]
  rw [if_neg (by omega)]

theorem tarPayload_append {header rest : Bytes} (block : header.length = 512) (size : Nat) :
    tarPayload (header ++ rest) 0 size = rest.take size := by
  have cut : 0 + 512 + size - (0 + 512) = size := by omega
  rw [tarPayload, drop_take, Nat.zero_add, drop_left' block, Nat.add_sub_cancel_left]

def shortRecordHeader : Bytes :=
  List.replicate 124 0 ++ 50 :: (List.replicate 31 0 ++ 120 :: List.replicate 355 0)

theorem length_shortRecordHeader : shortRecordHeader.length = 512 := by
  simp only [shortRecordHeader, length_append, length_cons, length_replicate]

/-- A pax header of two bytes: a record that says it is one byte long, and the space after it. -/
def shortRecordArchive : ByteSlice where
  bytes := shortRecordHeader ++ 49 :: 32 :: List.replicate 510 0
  addressable := by
    simp only [length_append, length_shortRecordHeader, length_cons,
      length_replicate]
    norm_num

theorem length_shortRecordArchive : shortRecordArchive.bytes.length = 1024 := by
  simp only [shortRecordArchive, length_append, length_shortRecordHeader, length_cons,
    length_replicate]

set_option maxRecDepth 4096 in
theorem tarFault_shortRecordArchive : TarFault shortRecordArchive.bytes 0 := by
  have size : parseTarSize (50 :: List.replicate 11 0) = some 2 := by
    have field : (50 :: List.replicate 11 0 : Bytes) =
        encodeText ('2' :: List.replicate 11 '\x00') := by rfl
    rw [field, parseTarSize, decodeText_encodeText]
    rfl
  have length : paxLength [49] = some 1 := by
    have digits : ([49] : Bytes) = encodeText ['1'] := by rfl
    rw [digits, paxLength, decodeText_encodeText]
    rfl
  have accepted : tarMember shortRecordArchive.bytes 0 = some (shortRecordHeader, 2) := by
    apply tarMember_append length_shortRecordHeader (by rfl) (by rfl) size
    exact (show memberLength 2 ≤ 1024 by decide).trans length_shortRecordArchive.ge
  have declared : paxDeclared [49, 32] 0 = some (1, 1) := by
    rw [paxDeclared]
    exact (congrArg (Option.map _) length : _)
  refine ⟨_, _, accepted, .inl (by rfl), ?_⟩
  rw [shortRecordArchive, tarPayload_append length_shortRecordHeader]
  exact .short declared (by decide) (by decide) (by decide)

/-- The content of the record would begin behind its end. -/
theorem extractTarMetadata_panics :
    ¬∀ (policy : ExtractionPolicy) (file : ByteSlice),
      ∃ result, extractTarMetadata policy file.bytes (file.bytes.length / 512 + 1) =
        .ok (some result) := by
  intro safe
  have sound := safe ⟨1024, 1, 1⟩ shortRecordArchive
  rcases (tarTurns_start ⟨1024, 1, 1⟩ shortRecordArchive).1.mpr
    ⟨.start, .refl, tarFault_shortRecordArchive⟩ with ⟨panic, panics⟩
  rcases sound with ⟨result, ok⟩
  rw [extractTarMetadata, if_neg (by rw [length_shortRecordArchive]; decide), panics] at ok
  cases ok

end Runs

end Gfm.Content

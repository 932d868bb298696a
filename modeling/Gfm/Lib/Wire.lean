import Mathlib

/-!
# Numbers and lists in byte strings

Unsigned numbers in a fixed number of bytes, the least significant byte first, or in groups of
seven bits. A reader takes what it reads off the front of the bytes; bytes decode to a value if
the reader gives it whatever follows them. Lists are chains: how an item is written depends on
what the item before it leaves behind.
-/

namespace Wire

open List

abbrev Bytes := List UInt8

def leBytes : Nat → Nat → Bytes
  | 0, _ => []
  | width + 1, number => UInt8.ofNat number :: leBytes width (number / 256)

def ofLeBytes : Bytes → Nat
  | [] => 0
  | byte :: bytes => byte.toNat + 256 * ofLeBytes bytes

@[simp]
theorem length_leBytes (width number : Nat) : (leBytes width number).length = width := by
  induction width generalizing number with
  | zero => rfl
  | succ width ih => rw [leBytes, length_cons, ih]

theorem ofLeBytes_leBytes {width number : Nat} (fits : number < 256 ^ width) :
    ofLeBytes (leBytes width number) = number := by
  induction width generalizing number with
  | zero =>
      rw [pow_zero, Nat.lt_one_iff] at fits
      rw [fits]
      rfl
  | succ width ih =>
      have rest : number / 256 < 256 ^ width := by
        apply Nat.div_lt_of_lt_mul
        rw [← pow_succ']
        exact fits
      rw [leBytes, ofLeBytes, ih rest, UInt8.toNat_ofNat']
      omega

section Readers

variable {Fault Value Other : Type}

/-- A reader of the bytes that are left, which can fail. -/
abbrev Reader (Fault : Type) := StateT Bytes (Except Fault)

def fail (fault : Fault) : Reader Fault Value := fun _ => .error fault

def readByte (ended : Fault) : Reader Fault UInt8
  | [] => .error ended
  | byte :: bytes => .ok (byte, bytes)

def readExact (ended : Fault) (count : Nat) : Reader Fault Bytes := fun bytes =>
  if bytes.length < count then .error ended else .ok (bytes.take count, bytes.drop count)

/-- The bytes are what the value is written as: the reader gives it and stops behind them. -/
def Decodes (reader : Reader Fault Value) (bytes : Bytes) (value : Value) : Prop :=
  ∀ rest, reader.run (bytes ++ rest) = .ok (value, rest)

theorem Decodes.pure (value : Value) : @Decodes Fault Value (pure value) [] value :=
  fun _ => rfl

/-- What comes after a first step runs on the bytes that it leaves. -/
theorem Decodes.run_bind {reader : Reader Fault Value} {bytes : Bytes} {value : Value}
    (first : Decodes reader bytes value) (next : Value → Reader Fault Other) (rest : Bytes) :
    (reader >>= next).run (bytes ++ rest) = (next value).run rest := by
  rw [StateT.run_bind, first]
  rfl

theorem Decodes.bind {reader : Reader Fault Value} {next : Value → Reader Fault Other}
    {left right : Bytes} {value : Value} {other : Other} (first : Decodes reader left value)
    (second : Decodes (next value) right other) :
    Decodes (reader >>= next) (left ++ right) other := by
  intro rest
  rw [append_assoc, first.run_bind]
  exact second rest

/-- A last step that reads nothing more. -/
theorem Decodes.andThen {reader : Reader Fault Value} {next : Value → Reader Fault Other}
    {bytes : Bytes} {value : Value} {other : Other} (first : Decodes reader bytes value)
    (second : Decodes (next value) [] other) : Decodes (reader >>= next) bytes other := by
  have both := first.bind second
  rwa [append_nil] at both

/-- A first step that reads nothing. -/
theorem Decodes.before {reader : Reader Fault Value} {next : Value → Reader Fault Other}
    {bytes : Bytes} {value : Value} {other : Other} (first : Decodes reader [] value)
    (second : Decodes (next value) bytes other) : Decodes (reader >>= next) bytes other :=
  first.bind second

theorem decodes_readByte (ended : Fault) (byte : UInt8) :
    Decodes (readByte ended) [byte] byte := fun _ => rfl

theorem decodes_readExact (ended : Fault) (bytes : Bytes) :
    Decodes (readExact ended bytes.length) bytes bytes := by
  intro rest
  have long : ¬(bytes ++ rest).length < bytes.length := by
    rw [length_append]
    omega
  change readExact ended bytes.length (bytes ++ rest) = _
  rw [readExact, if_neg long, take_left, drop_left]

end Readers

section Varint

variable {Fault : Type}

/-- Seven bits a byte, the lowest first; all bytes but the last have the high bit set. -/
def writeVarint (value : Nat) : Bytes :=
  if value < 128 then [UInt8.ofNat value]
  else UInt8.ofNat (value % 128 + 128) :: writeVarint (value / 128)
termination_by value

def readVarintFrom (ended overflow : Fault) (value : Nat) : List Nat → Reader Fault Nat
  | [] => fail overflow
  | shift :: shifts => do
      let byte ← readByte ended
      let value := value ||| ((byte.toNat % 128) <<< shift) % 2 ^ 64
      if byte.toNat < 128 then pure value
      else readVarintFrom ended overflow value shifts

/-- The shifts of the ten bytes that a number of 64 bits may take. -/
def varintShifts : List Nat := [0, 7, 14, 21, 28, 35, 42, 49, 56, 63]

def readVarint (ended overflow : Fault) : Reader Fault Nat :=
  readVarintFrom ended overflow 0 varintShifts

theorem lor_shiftLeft {low high shift : Nat} (small : low < 2 ^ shift)
    (fits : high * 2 ^ shift < 2 ^ 64) :
    low ||| (high <<< shift) % 2 ^ 64 = low + high * 2 ^ shift := by
  rw [Nat.shiftLeft_eq, Nat.mod_eq_of_lt fits, Nat.lor_comm, Nat.mul_comm,
    ← Nat.two_pow_add_eq_or_of_lt small, Nat.add_comm]

/-- The reader on the rest of a number, with room for its bytes. -/
theorem decodes_readVarintFrom (ended overflow : Fault) (left : Nat) :
    ∀ (count low value : Nat), low < 2 ^ (7 * count) → value * 2 ^ (7 * count) < 2 ^ 64 →
      value < 128 ^ (left + 1) →
      Decodes (readVarintFrom ended overflow low ((List.range' count (left + 1)).map (7 * ·)))
        (writeVarint value) (low + value * 2 ^ (7 * count)) := by
  induction left with
  | zero =>
      intro count low value small fits room
      rw [Nat.zero_add, pow_one] at room
      have byte : (UInt8.ofNat value).toNat = value := by
        rw [UInt8.toNat_ofNat']
        omega
      rw [writeVarint, if_pos room, ← lor_shiftLeft small fits]
      refine (decodes_readByte ended _).andThen ?_
      simp only [byte, room, if_true, Nat.mod_eq_of_lt room]
      exact Decodes.pure _
  | succ left ih =>
      intro count low value small fits room
      rw [writeVarint]
      by_cases last : value < 128
      · have byte : (UInt8.ofNat value).toNat = value := by
          rw [UInt8.toNat_ofNat']
          omega
        rw [if_pos last, ← lor_shiftLeft small fits]
        refine (decodes_readByte ended _).andThen ?_
        simp only [byte, last, if_true, Nat.mod_eq_of_lt last]
        exact Decodes.pure _
      · have byte : (UInt8.ofNat (value % 128 + 128)).toNat = value % 128 + 128 := by
          rw [UInt8.toNat_ofNat']
          omega
        have more : ¬value % 128 + 128 < 128 := by omega
        have digit : (value % 128 + 128) % 128 = value % 128 := by omega
        have power : 2 ^ (7 * (count + 1)) = 128 * 2 ^ (7 * count) := by
          rw [Nat.mul_add, pow_add]
          omega
        have split : value % 128 * 2 ^ (7 * count) + value / 128 * (128 * 2 ^ (7 * count)) =
            value * 2 ^ (7 * count) := by
          have parts := Nat.mod_add_div value 128
          calc value % 128 * 2 ^ (7 * count) + value / 128 * (128 * 2 ^ (7 * count))
              = (value % 128 + 128 * (value / 128)) * 2 ^ (7 * count) := by ring
            _ = value * 2 ^ (7 * count) := by rw [parts]
        have lowFits : value % 128 * 2 ^ (7 * count) < 2 ^ 64 := by omega
        have lowSmall : low + value % 128 * 2 ^ (7 * count) < 2 ^ (7 * (count + 1)) := by
          have digitSmall : value % 128 + 1 ≤ 128 := by omega
          have scaled := Nat.mul_le_mul_right (2 ^ (7 * count)) digitSmall
          rw [Nat.add_mul, Nat.one_mul] at scaled
          omega
        have highFits : value / 128 * 2 ^ (7 * (count + 1)) < 2 ^ 64 := by
          rw [power]
          omega
        have highRoom : value / 128 < 128 ^ (left + 1) := by
          apply Nat.div_lt_of_lt_mul
          rw [← pow_succ']
          exact room
        have rest := ih (count + 1) (low + value % 128 * 2 ^ (7 * count)) (value / 128)
          lowSmall highFits highRoom
        rw [power, Nat.add_assoc, split] at rest
        rw [if_neg last, range'_succ, map_cons]
        refine (decodes_readByte ended _).bind ?_
        simp only [byte, more, if_false, digit, lor_shiftLeft small lowFits]
        exact rest

theorem decodes_readVarint (ended overflow : Fault) {value : Nat} (fits : value < 2 ^ 64) :
    Decodes (readVarint ended overflow) (writeVarint value) value := by
  have whole := decodes_readVarintFrom ended overflow 9 0 0 value (by omega) (by omega)
    (by omega)
  rw [Nat.mul_zero, pow_zero, Nat.mul_one, Nat.zero_add] at whole
  exact whole

theorem writeVarint_ne_nil (value : Nat) : writeVarint value ≠ [] := by
  rw [writeVarint]
  split <;> exact cons_ne_nil _ _

end Varint

section Chains

variable {Fault State Item : Type}

/-- The items one after the other, each after what the one before it left behind. -/
def writeChain (write : State → Item → Bytes) (after : Item → State) : State → List Item → Bytes
  | _, [] => []
  | state, item :: items => write state item ++ writeChain write after (after item) items

def readChain (read : State → Reader Fault Item) (after : Item → State) :
    Nat → State → Reader Fault (List Item)
  | 0, _ => pure []
  | count + 1, state => do
      let item ← read state
      let items ← readChain read after count (after item)
      pure (item :: items)

/-- Each item can follow what the one before it left behind. -/
def Linked (follows : State → Item → Prop) (after : Item → State) : State → List Item → Prop
  | _, [] => True
  | state, item :: items => follows state item ∧ Linked follows after (after item) items

theorem decodes_readChain {write : State → Item → Bytes} {read : State → Reader Fault Item}
    {after : Item → State} {kept : Item → Item} {follows : State → Item → Prop}
    (each : ∀ state item, follows state item → Decodes (read state) (write state item) (kept item))
    (same : ∀ item, after (kept item) = after item) {items : List Item} {state : State}
    (linked : Linked follows after state items) :
    Decodes (readChain read after items.length state) (writeChain write after state items)
      (items.map kept) := by
  induction items generalizing state with
  | nil => exact Decodes.pure _
  | cons item items ih =>
      refine (each state item linked.1).bind ?_
      rw [same]
      exact (ih linked.2).andThen (Decodes.pure _)

/-- What is written for the first items comes first. -/
theorem exists_writeChain_append (write : State → Item → Bytes) (after : Item → State)
    (left right : List Item) (state : State) :
    ∃ tail, writeChain write after state (left ++ right) = writeChain write after state left ++
      tail := by
  induction left generalizing state with
  | nil => exact ⟨_, rfl⟩
  | cons item left ih =>
      rcases ih (after item) with ⟨tail, rest⟩
      refine ⟨tail, ?_⟩
      rw [cons_append, writeChain, writeChain, rest, append_assoc]

theorem writeChain_const (write : Item → Bytes) (items : List Item) :
    writeChain (fun _ : Unit => write) (fun _ => ()) () items = items.flatMap write := by
  induction items with
  | nil => rfl
  | cons item items ih => rw [writeChain, ih, flatMap_cons]

theorem linked_const {good : Item → Prop} {items : List Item}
    (each : ∀ item ∈ items, good item) :
    Linked (fun (_ : Unit) item => good item) (fun _ => ()) () items := by
  induction items with
  | nil => exact trivial
  | cons item items ih =>
      exact ⟨each item mem_cons_self,
        ih fun other listed => each other (mem_cons_of_mem item listed)⟩

/-- Items that do not depend on each other. -/
theorem decodes_readEach {write : Item → Bytes} {read : Reader Fault Item} {kept : Item → Item}
    {items : List Item} (each : ∀ item ∈ items, Decodes read (write item) (kept item)) :
    Decodes (readChain (fun _ : Unit => read) (fun _ => ()) items.length ()) (items.flatMap write)
      (items.map kept) := by
  have linked : Linked (fun (_ : Unit) item => Decodes read (write item) (kept item))
      (fun _ => ()) () items := linked_const each
  rw [← writeChain_const]
  exact @decodes_readChain Fault Unit Item (fun _ => write) (fun _ => read) (fun _ => ()) kept _
    (fun _ _ known => known) (fun _ => rfl) items () linked

end Chains

section Faults

variable {Fault Value Other State Item : Type} {fault : Fault} {reader : Reader Fault Value}
  {next : Value → Reader Fault Other}

/-- The reader does not fail in this way, whatever the bytes. -/
def Never (fault : Fault) (reader : Reader Fault Value) : Prop :=
  ∀ bytes, reader.run bytes ≠ .error fault

theorem except_bind_eq_error_iff {result : Except Fault Value}
    {after : Value → Except Fault Other} :
    (result >>= after) = .error fault ↔
      result = .error fault ∨ ∃ value, result = .ok value ∧ after value = .error fault := by
  cases result with
  | error other => simp [bind, Except.bind]
  | ok value => simp [bind, Except.bind]

theorem run_bind_eq_error_iff {bytes : Bytes} :
    (reader >>= next).run bytes = .error fault ↔
      reader.run bytes = .error fault ∨
        ∃ value rest, reader.run bytes = .ok (value, rest) ∧
          (next value).run rest = .error fault := by
  rw [StateT.run_bind]
  cases reader.run bytes with
  | error other => simp [bind, Except.bind]
  | ok pair =>
      rcases pair with ⟨value, rest⟩
      simp [bind, Except.bind]

theorem run_bind_eq_ok_iff {bytes rest : Bytes} {other : Other} :
    (reader >>= next).run bytes = .ok (other, rest) ↔
      ∃ value left, reader.run bytes = .ok (value, left) ∧
        (next value).run left = .ok (other, rest) := by
  rw [StateT.run_bind]
  cases reader.run bytes with
  | error fault => simp [bind, Except.bind]
  | ok pair =>
      rcases pair with ⟨value, left⟩
      simp [bind, Except.bind]

theorem Never.pure (value : Value) : Never fault (pure value : Reader Fault Value) := by
  intro bytes same
  cases same

theorem Never.fail {other : Fault} (different : other ≠ fault) :
    Never fault (fail other : Reader Fault Value) :=
  fun _ same => different (Except.error.inj same)

theorem Never.lift {result : Except Fault Value} (known : result ≠ .error fault) :
    Never fault (liftM result : Reader Fault Value) := by
  intro bytes same
  cases result with
  | error other => exact known (congrArg Except.error (Except.error.inj same))
  | ok value => cases same

theorem Never.bind (first : Never fault reader) (second : ∀ value, Never fault (next value)) :
    Never fault (reader >>= next) := by
  intro bytes same
  rcases run_bind_eq_error_iff.mp same with failed | ⟨value, rest, -, failed⟩
  · exact first bytes failed
  · exact second value rest failed

/-- After a first step that never fails in this way, the rest decides. -/
theorem run_bind_never (first : Never fault reader) {bytes : Bytes} :
    (reader >>= next).run bytes = .error fault ↔
      ∃ value rest, reader.run bytes = .ok (value, rest) ∧
        (next value).run rest = .error fault := by
  rw [run_bind_eq_error_iff]
  exact or_iff_right (first bytes)

theorem Never.chain {read : State → Reader Fault Item} {after : Item → State}
    (each : ∀ state, Never fault (read state)) (count : Nat) (state : State) :
    Never fault (readChain read after count state) := by
  induction count generalizing state with
  | zero => exact Never.pure []
  | succ count ih =>
      apply Never.bind (each state)
      intro item
      apply Never.bind (ih (after item))
      intro items
      exact Never.pure _

theorem Never.varint {ended overflow : Fault} (endedOther : ended ≠ fault)
    (overflowOther : overflow ≠ fault) : Never fault (readVarint ended overflow) := by
  have byte : Never fault (readByte ended) := by
    intro bytes same
    cases bytes with
    | nil => exact endedOther (Except.error.inj same)
    | cons byte bytes => cases same
  have from' : ∀ (shifts : List Nat) (value : Nat),
      Never fault (readVarintFrom ended overflow value shifts) := by
    intro shifts
    induction shifts with
    | nil => exact fun value => Never.fail overflowOther
    | cons shift shifts ih =>
        intro value
        apply Never.bind byte
        intro next
        dsimp only
        split
        · exact Never.pure _
        · exact ih _
  exact from' varintShifts 0

/-- A list of like items fails at the first item that fails. -/
theorem readEach_fails_iff {read : Reader Fault Item} {count : Nat} {bytes : Bytes} :
    (readChain (fun _ : Unit => read) (fun _ => ()) count ()).run bytes = .error fault ↔
      ∃ done items rest, done < count ∧
        (readChain (fun _ : Unit => read) (fun _ => ()) done ()).run bytes = .ok (items, rest) ∧
          read.run rest = .error fault := by
  induction count generalizing bytes with
  | zero =>
      constructor
      · intro same
        cases same
      · rintro ⟨done, _, _, inside, _⟩
        omega
  | succ count ih =>
      have later : ∀ (item : Item) (items : List Item) (left : Bytes),
          (Pure.pure (item :: items) : Reader Fault (List Item)).run left ≠ .error fault :=
        fun item items left => Never.pure _ left
      rw [readChain, run_bind_eq_error_iff]
      constructor
      · rintro (failed | ⟨item, left, first, failed⟩)
        · exact ⟨0, [], bytes, Nat.succ_pos count, rfl, failed⟩
        · rcases run_bind_eq_error_iff.mp failed with failed | ⟨items, rest, -, failed⟩
          · rcases ih.mp failed with ⟨done, items, rest, inside, read', failed⟩
            refine ⟨done + 1, item :: items, rest, Nat.succ_lt_succ inside, ?_, failed⟩
            rw [readChain]
            exact run_bind_eq_ok_iff.mpr ⟨item, left, first,
              run_bind_eq_ok_iff.mpr ⟨items, rest, read', rfl⟩⟩
          · exact absurd failed (later item items rest)
      · rintro ⟨done, items, rest, inside, read', failed⟩
        cases done with
        | zero =>
            cases read'
            exact Or.inl failed
        | succ done =>
            rw [readChain] at read'
            rcases run_bind_eq_ok_iff.mp read' with ⟨item, left, first, others⟩
            rcases run_bind_eq_ok_iff.mp others with ⟨found, remaining, read', last⟩
            cases last
            exact Or.inr ⟨item, left, first, run_bind_eq_error_iff.mpr (Or.inl (ih.mpr
              ⟨done, found, rest, Nat.lt_of_succ_lt_succ inside, read', failed⟩))⟩

end Faults

end Wire

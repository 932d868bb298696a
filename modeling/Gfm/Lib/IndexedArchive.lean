import Gfm.Lib.Wire

/-!
# Archives with a directory

The items are written one after the other, then a directory with an entry for each of them that
says where it is, then a footer that says where the directory starts: the offset in eight bytes
and magic bytes.
-/

namespace IndexedArchive

open List Wire

/-- What the directory is for, the directory and the footer. -/
def archive (front directory magic : Bytes) : Bytes :=
  front ++ (directory ++ (leBytes 8 front.length ++ magic))

section Footer

variable (front directory magic : Bytes)

theorem archive_eq : archive front directory magic =
    front ++ directory ++ (leBytes 8 front.length ++ magic) := (append_assoc _ _ _).symm

theorem length_archive : (archive front directory magic).length =
    front.length + directory.length + (8 + magic.length) := by
  simp [archive, Nat.add_assoc]

theorem footer_archive : (archive front directory magic).length - (8 + magic.length) =
    front.length + directory.length := by
  rw [length_archive, Nat.add_sub_cancel]

theorem magic_archive :
    (archive front directory magic).drop (front.length + directory.length + 8) = magic := by
  rw [archive_eq, ← length_append, ← drop_drop, drop_left]
  exact drop_left' (length_leBytes 8 _)

/-- The offset, whatever follows the archive. -/
theorem offset_archive (fits : front.length < 256 ^ 8) (rest : Bytes) :
    ofLeBytes (((archive front directory magic ++ rest).drop
      (front.length + directory.length)).take 8) = front.length := by
  rw [archive_eq, ← length_append, append_assoc, drop_left, append_assoc,
    take_left' (length_leBytes 8 _), ofLeBytes_leBytes fits]

theorem directory_archive : ((archive front directory magic).take
    (front.length + directory.length)).drop front.length = directory := by
  rw [archive_eq, ← length_append, take_left, drop_left]

end Footer

section Entries

universe u v

variable {Item : Type u} {Entry : Type v} (write : Item → Bytes)

/-- The entries of the items that are written from an offset on, from each item's offset and
length. -/
def entriesFrom (entry : Item → Nat → Nat → Entry) (offset : Nat) : List Item → List Entry
  | [] => []
  | item :: items =>
      entry item offset (write item).length ::
        entriesFrom entry (offset + (write item).length) items

variable (entry : Item → Nat → Nat → Entry)

@[simp]
theorem length_entriesFrom (offset : Nat) (items : List Item) :
    (entriesFrom write entry offset items).length = items.length := by
  induction items generalizing offset with
  | nil => rfl
  | cons item items ih => simp [entriesFrom, ih]

theorem getElem?_entriesFrom (offset : Nat) (items : List Item) (index : Nat) :
    (entriesFrom write entry offset items)[index]? = (items[index]?).map fun item =>
      entry item (offset + ((items.take index).flatMap write).length) (write item).length := by
  induction items generalizing offset index with
  | nil => rfl
  | cons item items ih =>
      cases index with
      | zero => rfl
      | succ index => simp [entriesFrom, ih, Nat.add_assoc]

/-- Every entry is the entry of an item, at that item's offset. -/
theorem exists_item_of_mem_entriesFrom {offset : Nat} {items : List Item} {listed : Entry}
    (member : listed ∈ entriesFrom write entry offset items) :
    ∃ index item, items[index]? = some item ∧
      listed = entry item (offset + ((items.take index).flatMap write).length)
        (write item).length := by
  rcases getElem?_of_mem member with ⟨index, place⟩
  rw [getElem?_entriesFrom, Option.map_eq_some_iff] at place
  rcases place with ⟨item, known, same⟩
  exact ⟨index, item, known, same.symm⟩

/-- What an entry says of an item that does not depend on its place. -/
theorem map_entriesFrom {Value : Type v} (value : Entry → Value) (known : Item → Value)
    (same : ∀ item offset len, value (entry item offset len) = known item) (offset : Nat)
    (items : List Item) : (entriesFrom write entry offset items).map value = items.map known := by
  induction items generalizing offset with
  | nil => rfl
  | cons item items ih => simp [entriesFrom, ih, same]

variable {write} {items : List Item} {index : Nat} {item : Item}

/-- The bytes before an item, its own and the bytes after it. -/
theorem flatMap_eq_of_getElem? (place : items[index]? = some item) :
    items.flatMap write = (items.take index).flatMap write ++ write item ++
      (items.drop (index + 1)).flatMap write := by
  rcases List.getElem?_eq_some_iff.mp place with ⟨inside, rfl⟩
  have parts : items = items.take index ++ items[index] :: items.drop (index + 1) := by
    rw [getElem_cons_drop, take_append_drop]
  conv_lhs => rw [parts]
  simp only [flatMap_append, flatMap_cons, append_assoc]

/-- An item ends within the bytes of all of them. -/
theorem offset_add_length_le (place : items[index]? = some item) :
    ((items.take index).flatMap write).length + (write item).length ≤
      (items.flatMap write).length := by
  rw [flatMap_eq_of_getElem? place, length_append, length_append]
  exact Nat.le_add_right _ _

/-- What an item is written as is no longer than what all of them are. -/
theorem length_le_length_flatMap_of_mem (listed : item ∈ items) :
    (write item).length ≤ (items.flatMap write).length := by
  rcases getElem?_of_mem listed with ⟨index, place⟩
  exact Nat.le_trans (Nat.le_add_left _ _) (offset_add_length_le place)

/-- Items that take a byte at least are no more than the bytes. -/
theorem length_le_length_flatMap {write : Item → Bytes} (filled : ∀ item, write item ≠ [])
    (items : List Item) : items.length ≤ (items.flatMap write).length := by
  induction items with
  | nil => exact Nat.le_refl _
  | cons item items ih =>
      have first := length_pos_iff.mpr (filled item)
      rw [flatMap_cons, length_append, length_cons]
      omega

end Entries

end IndexedArchive

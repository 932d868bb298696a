import Gfm.Lib.Wire
import Gfm.Types

/-!
# Checksum footers

An archive may end in a footer: the CRC-32 of everything before it, then the magic bytes of the
kind of archive.
-/

namespace Gfm.Store

open Wire

def crc32Bit (crc : UInt32) : UInt32 :=
  if crc &&& 1 = 1 then (0xedb88320 : UInt32) ^^^ (crc >>> 1) else crc >>> 1

/-- An entry of the CRC table. -/
def crc32Entry (index : UInt32) : UInt32 :=
  (List.range 8).foldl (fun crc _ => crc32Bit crc) index

def crc32 (bytes : Bytes) : UInt32 :=
  ~~~(bytes.foldl
    (fun crc byte => (crc >>> 8) ^^^ crc32Entry ((crc ^^^ byte.toUInt32) &&& 0xff)) 0xffffffff)

def checksumFooter (magic bytes : Bytes) : Bytes := leBytes 4 (crc32 bytes).toNat ++ magic

def hasChecksumFooter (magic bytes : Bytes) : Bool :=
  4 + magic.length ≤ bytes.length ∧ bytes.drop (bytes.length - (4 + magic.length) + 4) = magic

/-- The length of the archive without its footer. -/
def indexedLen (magic bytes : Bytes) : Nat :=
  if hasChecksumFooter magic bytes then bytes.length - (4 + magic.length) else bytes.length

def integrityError (path : Path) (storeName reason : String) : GfmError :=
  .format ("invalid " ++ storeName ++ " store " ++ path.display ++ ": " ++ reason)

def verifyChecksumFooter (path : Path) (storeName : String) (magic bytes : Bytes) :
    Except GfmError Bool :=
  let start := bytes.length - (4 + magic.length)
  if bytes.length < 4 + magic.length then .ok false
  else if bytes.drop (start + 4) ≠ magic then .ok false
  else if (crc32 (bytes.take start)).toNat ≠ ofLeBytes ((bytes.drop start).take 4) then
    .error (integrityError path storeName "checksum mismatch; archive must be rebuilt")
  else .ok true

section Written

variable (magic body : Bytes)

theorem length_checksumFooter : (checksumFooter magic body).length = 4 + magic.length := by
  rw [checksumFooter, List.length_append, length_leBytes]

theorem footer_start :
    (body ++ checksumFooter magic body).length - (4 + magic.length) = body.length := by
  rw [List.length_append, length_checksumFooter, Nat.add_sub_cancel]

theorem drop_footer_start :
    (body ++ checksumFooter magic body).drop (body.length + 4) = magic := by
  rw [← List.drop_drop, List.drop_left, checksumFooter]
  exact List.drop_left' (length_leBytes 4 _)

theorem hasChecksumFooter_written :
    hasChecksumFooter magic (body ++ checksumFooter magic body) = true := by
  rw [hasChecksumFooter, decide_eq_true_eq, footer_start, drop_footer_start]
  refine ⟨?_, rfl⟩
  rw [List.length_append, length_checksumFooter]
  omega

theorem indexedLen_written :
    indexedLen magic (body ++ checksumFooter magic body) = body.length := by
  rw [indexedLen, hasChecksumFooter_written, if_pos rfl, footer_start]

theorem verifyChecksumFooter_written (path : Path) (storeName : String) :
    verifyChecksumFooter path storeName magic (body ++ checksumFooter magic body) = .ok true := by
  have long : ¬(body ++ checksumFooter magic body).length < 4 + magic.length := by
    rw [List.length_append, length_checksumFooter]
    omega
  have stored : ((body ++ checksumFooter magic body).drop body.length).take 4 =
      leBytes 4 (crc32 body).toNat := by
    rw [List.drop_left, checksumFooter]
    exact List.take_left' (length_leBytes 4 _)
  have number : ofLeBytes (leBytes 4 (crc32 body).toNat) = (crc32 body).toNat :=
    ofLeBytes_leBytes (crc32 body).toNat_lt
  simp only [verifyChecksumFooter, footer_start, if_neg long, drop_footer_start, ne_eq,
    not_true_eq_false, if_false, stored, List.take_left, number]

end Written

end Gfm.Store

import Lawd.Base
import Lawd.Library.Bytes

/-!
# Slots

The 64-bit value that a task leaves in an epoll registration: one byte of user
data and the 56-bit task id, written byte by byte into the memory of a
`uint64_t`. The bytes do not depend on the machine, the value does.
-/
namespace Lawd

open Library

/-- `law_slot_t`. -/
structure Slot where
  id : Id
  data : Int8
  deriving DecidableEq

/-- The bytes written by the encoding loop: `id % 0x100`, then `id /= 0x100`. -/
def slotIdBytes : ℕ → Id → List UInt8
  | 0, _ => []
  | k + 1, id => UInt8.ofNat (id % 0x100).toNat :: slotIdBytes k (id / 0x100)

/-- `law_slot_encode`: the value of the eight bytes in memory. -/
def slotEncode (e : Endian) (slot : Slot) : BitVec 64 :=
  BitVec.ofNat 64 (e.load (slot.data.toUInt8 :: slotIdBytes 7 slot.id))

/-- The decoding loop: `id += byte * pow`, then `pow *= 0x100`. -/
def slotIdOfBytes : List UInt8 → Id → BitVec 64 → Id
  | [], id, _ => id
  | b :: bs, id, pow => slotIdOfBytes bs (id + BitVec.ofNat 64 b.toNat * pow) (pow * 0x100)

/-- `law_slot_decode`. -/
def slotDecode (e : Endian) (encoding : BitVec 64) : Slot :=
  let bytes := e.store 8 encoding.toNat
  ⟨slotIdOfBytes bytes.tail 0 1, (bytes.headD 0).toInt8⟩

theorem slotIdBytes_eq (k : ℕ) (id : Id) : slotIdBytes k id = digits k id.toNat := by
  induction k generalizing id with
  | zero => rfl
  | succ k ih =>
    have hbyte : UInt8.ofNat (id.toNat % 256) = UInt8.ofNat id.toNat :=
      UInt8.toNat_inj.mp (by simp only [UInt8.toNat_ofNat']; omega)
    simp [slotIdBytes, digits, ih, hbyte]

theorem slotIdOfBytes_toNat (bs : List UInt8) (id : Id) (pow : BitVec 64) :
    (slotIdOfBytes bs id pow).toNat = (id.toNat + pow.toNat * ofDigits bs) % 2 ^ 64 := by
  induction bs generalizing id pow with
  | nil => simp [slotIdOfBytes, ofDigits, Nat.mod_eq_of_lt id.isLt]
  | cons b bs ih =>
    have hmod : ∀ M a x q d : ℕ, ((a + x % M) % M + q % M * d) % M = (a + x + q * d) % M := by
      intro M a x q d
      simp [Nat.add_mod, Nat.mul_mod]
    have hb : b.toNat < 2 ^ 64 := b.toNat_lt.trans (by norm_num)
    have h256 : (0x100 : BitVec 64).toNat = 256 := rfl
    rw [slotIdOfBytes, ih, ofDigits, BitVec.toNat_add, BitVec.toNat_mul, BitVec.toNat_mul,
      BitVec.toNat_ofNat, Nat.mod_eq_of_lt hb, hmod, h256]
    congr 1
    ring

/-- The eight bytes of a slot: data first, then the id, least significant first. -/
def slotBytes (slot : Slot) : List UInt8 := slot.data.toUInt8 :: digits 7 slot.id.toNat

theorem slotEncode_toNat (e : Endian) (slot : Slot) :
    (slotEncode e slot).toNat = e.load (slotBytes slot) := by
  have hlt := e.load_lt (slotBytes slot)
  rw [slotEncode, slotIdBytes_eq, BitVec.toNat_ofNat]
  exact Nat.mod_eq_of_lt (by simpa [slotBytes] using hlt)

@[simp] theorem store_slotEncode (e : Endian) (slot : Slot) :
    e.store 8 (slotEncode e slot).toNat = slotBytes slot := by
  have hstore := e.store_load (slotBytes slot)
  rw [slotEncode_toNat]
  simpa [slotBytes] using hstore

theorem slotDecode_slotEncode (e : Endian) (slot : Slot) (h : slot.id < idModulo) :
    slotDecode e (slotEncode e slot) = slot := by
  have hid : slot.id.toNat < 256 ^ 7 := by simpa [idModulo, BitVec.lt_def] using h
  have hloop : slotIdOfBytes (digits 7 slot.id.toNat) 0 1 = slot.id := by
    apply BitVec.eq_of_toNat_eq
    rw [slotIdOfBytes_toNat, ofDigits_digits_of_lt hid]
    have hlt := slot.id.isLt
    simpa using hlt
  rw [slotDecode, store_slotEncode]
  simp only [slotBytes, List.tail_cons, List.headD_cons, hloop]
  rfl

theorem slotDecode_id_toNat (e : Endian) (encoding : BitVec 64) :
    (slotDecode e encoding).id.toNat = ofDigits (e.store 8 encoding.toNat).tail := by
  have hlt := ofDigits_lt (e.store 8 encoding.toNat).tail
  rw [List.length_tail, Endian.store_length] at hlt
  have hzero : (0 : BitVec 64).toNat = 0 := rfl
  have hone : (1 : BitVec 64).toNat = 1 := rfl
  rw [slotDecode, slotIdOfBytes_toNat, hzero, hone, Nat.zero_add, Nat.one_mul]
  exact Nat.mod_eq_of_lt (hlt.trans (by norm_num))

@[simp] theorem slotBytes_slotDecode (e : Endian) (encoding : BitVec 64) :
    slotBytes (slotDecode e encoding) = e.store 8 encoding.toNat := by
  have hlen : (e.store 8 encoding.toNat).length = 8 := e.store_length 8 _
  rw [slotBytes, slotDecode_id_toNat, slotDecode]
  obtain ⟨b, bs, hbytes⟩ := List.exists_cons_of_length_pos (by rw [hlen]; norm_num)
  rw [hbytes, List.length_cons] at hlen
  have hdigits := digits_ofDigits bs
  rw [show bs.length = 7 by omega] at hdigits
  rw [hbytes, List.tail_cons, hdigits]
  rfl

@[simp] theorem slotEncode_slotDecode (e : Endian) (encoding : BitVec 64) :
    slotEncode e (slotDecode e encoding) = encoding := by
  apply BitVec.eq_of_toNat_eq
  rw [slotEncode_toNat, slotBytes_slotDecode, Endian.load_store_of_lt]
  exact encoding.isLt

/-- Decoded ids pass the assertion of `law_slot_encode`. -/
theorem slotDecode_id_lt (e : Endian) (encoding : BitVec 64) :
    (slotDecode e encoding).id < idModulo := by
  have hlt := ofDigits_lt (e.store 8 encoding.toNat).tail
  rw [List.length_tail, Endian.store_length, ← slotDecode_id_toNat] at hlt
  simpa [idModulo, BitVec.lt_def] using hlt

/-- The slots with ids of 56 bits and the values of 64 bits correspond, on
either machine. -/
theorem slot_codec_bijective (e : Endian) :
    (∀ slot : Slot, slot.id < idModulo → slotDecode e (slotEncode e slot) = slot) ∧
      ∀ encoding : BitVec 64, slotEncode e (slotDecode e encoding) = encoding ∧
        (slotDecode e encoding).id < idModulo :=
  ⟨slotDecode_slotEncode e, fun encoding =>
    ⟨slotEncode_slotDecode e encoding, slotDecode_id_lt e encoding⟩⟩

theorem slot_codec_bijective_last :
    slotDecode .big (slotEncode .big ⟨idModulo - 1, -1⟩) = ⟨idModulo - 1, -1⟩ ∧
      slotEncode .little (slotDecode .little (BitVec.allOnes 64)) = BitVec.allOnes 64 :=
  ⟨(slot_codec_bijective .big).1 _ (by decide),
    ((slot_codec_bijective .little).2 (BitVec.allOnes 64)).1⟩

theorem slotEncode_eq_zero (e : Endian) (slot : Slot) (h : slot.id < idModulo) :
    slotEncode e slot = 0 ↔ slot.id = 0 ∧ slot.data = 0 := by
  have hzero : slotEncode e ⟨0, 0⟩ = 0 := by cases e <;> decide
  constructor
  · intro heq
    have hdec := slotDecode_slotEncode e slot h
    rw [heq, ← hzero, slotDecode_slotEncode e ⟨0, 0⟩ (by decide)] at hdec
    rw [← hdec]
    exact ⟨rfl, rfl⟩
  · rintro ⟨hid, hdata⟩
    obtain ⟨id, data⟩ := slot
    obtain rfl : id = 0 := hid
    obtain rfl : data = 0 := hdata
    exact hzero

end Lawd

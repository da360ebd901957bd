import Mathlib.Algebra.Order.Ring.Nat
import Mathlib.Tactic.Ring
import Mathlib.Tactic.NormNum

/-!
# Numbers in memory

A fixed-width number occupies bytes whose order depends on the machine. Digits
are base 256, least significant first; a big-endian machine stores them in
reverse. Converting to network order and storing gives the same bytes on both.
-/
namespace Lawd.Library

/-- Byte order of a machine. -/
inductive Endian where
  | little
  | big
  deriving DecidableEq, Repr

/-- The `k` low base-256 digits of `n`, least significant first. -/
def digits : ℕ → ℕ → List UInt8
  | 0, _ => []
  | k + 1, n => UInt8.ofNat n :: digits k (n / 256)

/-- The number with the given base-256 digits, least significant first. -/
def ofDigits : List UInt8 → ℕ
  | [] => 0
  | b :: bs => b.toNat + 256 * ofDigits bs

@[simp] theorem digits_length (k n : ℕ) : (digits k n).length = k := by
  induction k generalizing n with
  | zero => rfl
  | succ k ih => simp [digits, ih]

theorem ofDigits_lt (bs : List UInt8) : ofDigits bs < 256 ^ bs.length := by
  induction bs with
  | nil => simp [ofDigits]
  | cons b bs ih =>
    have hb := b.toNat_lt
    simp only [ofDigits, List.length_cons, pow_succ]
    omega

/-- Reading back `k` digits keeps the number modulo `256 ^ k`. -/
@[simp] theorem ofDigits_digits (k n : ℕ) : ofDigits (digits k n) = n % 256 ^ k := by
  induction k generalizing n with
  | zero => simp [digits, ofDigits, Nat.mod_one]
  | succ k ih =>
    have hsplit : n % 256 ^ (k + 1) = n % 256 + 256 * (n / 256 % 256 ^ k) := by
      rw [pow_succ', Nat.mod_mul]
    simp only [digits, ofDigits, ih, UInt8.toNat_ofNat', hsplit, Nat.reducePow]

theorem ofDigits_digits_of_lt {k n : ℕ} (h : n < 256 ^ k) : ofDigits (digits k n) = n := by
  rw [ofDigits_digits, Nat.mod_eq_of_lt h]

@[simp] theorem digits_ofDigits (bs : List UInt8) : digits bs.length (ofDigits bs) = bs := by
  induction bs with
  | nil => rfl
  | cons b bs ih =>
    have hb : b.toNat < 256 := b.toNat_lt
    have hmod : UInt8.ofNat (b.toNat + 256 * ofDigits bs) = b := by
      apply UInt8.toNat_inj.mp
      rw [UInt8.toNat_ofNat']
      omega
    have hdiv : (b.toNat + 256 * ofDigits bs) / 256 = ofDigits bs := by omega
    simp only [List.length_cons, ofDigits, digits, hmod, hdiv, ih]

theorem digits_take (j k n : ℕ) (h : j ≤ k) : (digits k n).take j = digits j n := by
  induction j generalizing k n with
  | zero => simp [digits]
  | succ j ih =>
    obtain ⟨k, rfl⟩ : ∃ m, k = m + 1 := ⟨k - 1, by omega⟩
    simp [digits, ih k (n / 256) (by omega)]

namespace Endian

/-- The bytes in which a machine stores the low `k` digits of `n`. -/
def store : Endian → ℕ → ℕ → List UInt8
  | little, k, n => digits k n
  | big, k, n => (digits k n).reverse

/-- The number a machine reads from the given bytes. -/
def load : Endian → List UInt8 → ℕ
  | little, bs => ofDigits bs
  | big, bs => ofDigits bs.reverse

@[simp] theorem store_length (e : Endian) (k n : ℕ) : (e.store k n).length = k := by
  cases e <;> simp [store]

@[simp] theorem load_store (e : Endian) (k n : ℕ) : e.load (e.store k n) = n % 256 ^ k := by
  cases e <;> simp [store, load, ofDigits_digits]

theorem load_store_of_lt (e : Endian) {k n : ℕ} (h : n < 256 ^ k) :
    e.load (e.store k n) = n := by
  rw [load_store, Nat.mod_eq_of_lt h]

@[simp] theorem store_load (e : Endian) (bs : List UInt8) : e.store bs.length (e.load bs) = bs := by
  cases e
  · exact digits_ofDigits bs
  · have h := digits_ofDigits bs.reverse
    rw [List.length_reverse] at h
    simp [store, load, h]

theorem load_lt (e : Endian) (bs : List UInt8) : e.load bs < 256 ^ bs.length := by
  cases e
  · exact ofDigits_lt bs
  · simpa [load] using ofDigits_lt bs.reverse

/-- Host to network order of a `k`-byte number: a little-endian machine swaps. -/
def toNetwork (e : Endian) (k n : ℕ) : ℕ := e.load (big.store k n)

/-- Network to host order, the same byte swap. -/
def ofNetwork (e : Endian) (k n : ℕ) : ℕ := big.load (e.store k n)

@[simp] theorem store_toNetwork (e : Endian) (k n : ℕ) :
    e.store k (e.toNetwork k n) = big.store k n := by
  have h := e.store_load (big.store k n)
  rwa [store_length] at h

theorem ofNetwork_load (e : Endian) {k : ℕ} {bs : List UInt8} (hk : bs.length = k) :
    e.ofNetwork k (e.load bs) = big.load bs := by
  subst hk
  rw [ofNetwork, store_load]

end Endian

end Lawd.Library

import Mathlib.Data.List.Basic

/-!
# Base64

Three bytes are written as four characters of six bits. What is left at the end
is filled up with zeros, and the missing characters with `=`.
-/
namespace Lawd.Library

/-- The character of six bits. -/
def base64Char (n : ℕ) : UInt8 :=
  if n < 26 then UInt8.ofNat (0x41 + n)
  else if n < 52 then UInt8.ofNat (0x61 + (n - 26))
  else if n < 62 then UInt8.ofNat (0x30 + (n - 52))
  else if n = 62 then 0x2B
  else 0x2F

/-- The six bits of a character. -/
def base64Value (b : UInt8) : ℕ :=
  if 0x41 ≤ b ∧ b ≤ 0x5A then b.toNat - 0x41
  else if 0x61 ≤ b ∧ b ≤ 0x7A then b.toNat - 0x61 + 26
  else if 0x30 ≤ b ∧ b ≤ 0x39 then b.toNat - 0x30 + 52
  else if b = 0x2B then 62
  else 63

/-- The text of some bytes. -/
def encodeBase64 : List UInt8 → List UInt8
  | [] => []
  | [a] => [base64Char (a.toNat / 4), base64Char (a.toNat % 4 * 16), 0x3D, 0x3D]
  | [a, b] => [base64Char (a.toNat / 4), base64Char (a.toNat % 4 * 16 + b.toNat / 16),
      base64Char (b.toNat % 16 * 4), 0x3D]
  | a :: b :: c :: rest => base64Char (a.toNat / 4) ::
      base64Char (a.toNat % 4 * 16 + b.toNat / 16) ::
      base64Char (b.toNat % 16 * 4 + c.toNat / 64) :: base64Char (c.toNat % 64) ::
      encodeBase64 rest

/-- The bytes of a text. -/
def decodeBase64 : List UInt8 → List UInt8
  | x :: y :: z :: w :: rest =>
    let a := UInt8.ofNat (base64Value x * 4 + base64Value y / 16)
    let b := UInt8.ofNat (base64Value y % 16 * 16 + base64Value z / 4)
    if z = 0x3D then [a]
    else if w = 0x3D then [a, b]
    else a :: b :: UInt8.ofNat (base64Value z % 4 * 64 + base64Value w) :: decodeBase64 rest
  | _ => []

theorem base64_fin : ∀ n : Fin 64, base64Value (base64Char n) = n ∧ base64Char n ≠ 0x3D ∧
    0x21 ≤ base64Char n ∧ base64Char n ≤ 0x7E := by
  decide

theorem base64Value_char {n : ℕ} (h : n < 64) : base64Value (base64Char n) = n :=
  (base64_fin ⟨n, h⟩).1

theorem base64Char_ne {n : ℕ} (h : n < 64) : base64Char n ≠ 0x3D := (base64_fin ⟨n, h⟩).2.1

theorem ofNat_eq {n : ℕ} {a : UInt8} (h : n = a.toNat) : UInt8.ofNat n = a := by
  rw [h, UInt8.ofNat_toNat]

@[simp] theorem decodeBase64_encode (bs : List UInt8) : decodeBase64 (encodeBase64 bs) = bs := by
  fun_induction encodeBase64 bs with
  | case1 => rfl
  | case2 a =>
    have ha := a.toNat_lt
    simp only [decodeBase64, if_true, base64Value_char (show a.toNat / 4 < 64 by omega),
      base64Value_char (show a.toNat % 4 * 16 < 64 by omega)]
    rw [ofNat_eq (a := a) (by omega)]
  | case3 a b =>
    have ha := a.toNat_lt
    have hb := b.toNat_lt
    have hz : b.toNat % 16 * 4 < 64 := by omega
    simp only [decodeBase64, if_neg (base64Char_ne hz), if_true, base64Value_char hz,
      base64Value_char (show a.toNat / 4 < 64 by omega),
      base64Value_char (show a.toNat % 4 * 16 + b.toNat / 16 < 64 by omega)]
    rw [ofNat_eq (a := a) (by omega), ofNat_eq (a := b) (by omega)]
  | case4 a b c rest ih =>
    have ha := a.toNat_lt
    have hb := b.toNat_lt
    have hc := c.toNat_lt
    have hz : b.toNat % 16 * 4 + c.toNat / 64 < 64 := by omega
    have hw : c.toNat % 64 < 64 := by omega
    simp only [decodeBase64, if_neg (base64Char_ne hz), if_neg (base64Char_ne hw),
      base64Value_char hz, base64Value_char hw,
      base64Value_char (show a.toNat / 4 < 64 by omega),
      base64Value_char (show a.toNat % 4 * 16 + b.toNat / 16 < 64 by omega), ih]
    rw [ofNat_eq (a := a) (by omega), ofNat_eq (a := b) (by omega), ofNat_eq (a := c) (by omega)]

@[simp] theorem encodeBase64_length (bs : List UInt8) :
    (encodeBase64 bs).length = (bs.length + 2) / 3 * 4 := by
  fun_induction encodeBase64 bs with
  | case1 => rfl
  | case2 a => simp
  | case3 a b => simp
  | case4 a b c rest ih =>
    simp only [List.length_cons, ih]
    omega

theorem visible_of_mem_encode {bs : List UInt8} {x : UInt8} (hx : x ∈ encodeBase64 bs) :
    0x21 ≤ x ∧ x ≤ 0x7E := by
  have hchar : ∀ {n : ℕ}, n < 64 → 0x21 ≤ base64Char n ∧ base64Char n ≤ 0x7E :=
    fun h => (base64_fin ⟨_, h⟩).2.2
  fun_induction encodeBase64 bs with
  | case1 => cases hx
  | case2 a =>
    have ha := a.toNat_lt
    simp only [List.mem_cons, List.not_mem_nil, or_false] at hx
    obtain rfl | rfl | rfl | rfl := hx
    · exact hchar (by omega)
    · exact hchar (by omega)
    · decide
    · decide
  | case3 a b =>
    have ha := a.toNat_lt
    have hb := b.toNat_lt
    simp only [List.mem_cons, List.not_mem_nil, or_false] at hx
    obtain rfl | rfl | rfl | rfl := hx
    · exact hchar (by omega)
    · exact hchar (by omega)
    · exact hchar (by omega)
    · decide
  | case4 a b c rest ih =>
    have ha := a.toNat_lt
    have hb := b.toNat_lt
    have hc := c.toNat_lt
    simp only [List.mem_cons] at hx
    obtain rfl | rfl | rfl | rfl | hx := hx
    · exact hchar (by omega)
    · exact hchar (by omega)
    · exact hchar (by omega)
    · exact hchar (by omega)
    · exact ih hx

end Lawd.Library

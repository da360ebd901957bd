import Mathlib.Data.Vector.Basic
import Mathlib.Logic.Function.Basic
import Mathlib.Order.Lattice
import Lawd.Library.Search

/-!
# Byte buffers

A bounded buffer is a window on a stream of bytes: positions count bytes from
the start of the stream, reading goes on from the offset, and new bytes are
appended at the end as long as no more than `max` bytes follow the offset. The
offset can be moved to any position whose following bytes are still there. A
text that is printed has a terminator behind it, which may take the place of the
text's last byte where nothing else is free. A ring of bytes is such a buffer.
-/
namespace Lawd.Library

/-- The operations of a buffer. -/
structure BufferOps where
  Buf : Type
  max : Buf → ℕ
  tell : Buf → ℕ
  fin : Buf → ℕ
  byte : Buf → ℕ → UInt8
  seek : Buf → ℕ → Option Buf
  scan : Buf → List UInt8 → Bool × Buf
  get : Buf → (n : ℕ) → Option (Vector UInt8 n × Buf)
  put : Buf → List UInt8 → Option Buf
  print : Buf → List UInt8 → Option Buf
  /-- What a callback delivered is appended. -/
  fill : Buf → List UInt8 → Buf
  /-- A callback took the given number of bytes from the offset. -/
  drain : Buf → ℕ → Buf

namespace BufferOps

variable (O : BufferOps)

/-- The bytes from one position to another. -/
def window (b : O.Buf) (i j : ℕ) : List UInt8 := (List.range' i (j - i)).map (O.byte b)

/-- The bytes that follow the offset. -/
def unread (b : O.Buf) : List UInt8 := O.window b (O.tell b) (O.fin b)

/-- The offset moved to a position, and nothing else. -/
structure Moved (b b' : O.Buf) (p : ℕ) : Prop where
  max : O.max b' = O.max b
  tell : O.tell b' = p
  fin : O.fin b' = O.fin b
  byte : ∀ i, O.byte b' i = O.byte b i

/-- Bytes were appended, and those after the offset kept. -/
structure Appended (b b' : O.Buf) (bs : List UInt8) : Prop where
  max : O.max b' = O.max b
  tell : O.tell b' = O.tell b
  fin : O.fin b' = O.fin b + bs.length
  kept : ∀ i, O.tell b ≤ i → i < O.fin b → O.byte b' i = O.byte b i
  added : O.window b' (O.fin b) (O.fin b') = bs

variable {O} {b b' : O.Buf} {i j k p : ℕ} {bs : List UInt8}

@[simp] theorem window_length : (O.window b i j).length = j - i := by simp [window]

@[simp] theorem unread_length : (O.unread b).length = O.fin b - O.tell b := window_length

theorem window_append (hij : i ≤ j) (hjk : j ≤ k) :
    O.window b i j ++ O.window b j k = O.window b i k := by
  have hsplit := List.range'_append_1 (s := i) (m := j - i) (n := k - j)
  rw [Nat.add_sub_cancel' hij, show j - i + (k - j) = k - i from by omega] at hsplit
  rw [window, window, window, ← List.map_append, hsplit]

theorem window_congr (h : ∀ x, i ≤ x → x < j → O.byte b' x = O.byte b x) :
    O.window b' i j = O.window b i j := by
  refine List.map_congr_left fun x hx => ?_
  obtain ⟨hle, hlt⟩ := List.mem_range'_1.mp hx
  exact h x hle (by omega)

theorem window_drop (n : ℕ) : (O.window b i j).drop n = O.window b (i + n) j := by
  rw [window, window, ← List.map_drop, List.drop_range', Nat.mul_one, Nat.sub_sub]

theorem Moved.window (h : O.Moved b b' p) (i j : ℕ) : O.window b' i j = O.window b i j :=
  window_congr fun x _ _ => h.byte x

theorem Moved.trans {b'' : O.Buf} {q : ℕ} (h : O.Moved b b' p) (h' : O.Moved b' b'' q) :
    O.Moved b b'' q where
  max := h'.max.trans h.max
  tell := h'.tell
  fin := h'.fin.trans h.fin
  byte i := (h'.byte i).trans (h.byte i)

theorem Appended.window (h : O.Appended b b' bs) (hi : O.tell b ≤ i) (hfin : i ≤ O.fin b) :
    O.window b' i (O.fin b') = O.window b i (O.fin b) ++ bs := by
  have hkept : O.window b' i (O.fin b) = O.window b i (O.fin b) :=
    window_congr fun x hle hlt => h.kept x (hi.trans hle) hlt
  rw [← window_append hfin (by rw [h.fin]; omega), hkept, h.added]

end BufferOps

/-- A correct buffer. -/
structure ByteBuffer extends BufferOps where
  max_lt : ∀ b, max b < 2 ^ 64
  tell_le : ∀ b, tell b ≤ fin b
  fin_le : ∀ b, fin b ≤ tell b + max b
  seek_of_le : ∀ b p, p ≤ fin b → fin b ≤ p + max b →
    ∃ b', seek b p = some b' ∧ toBufferOps.Moved b b' p
  scan_found : ∀ b d i, d ≠ [] → FirstAt d (toBufferOps.unread b) 0 i →
    (scan b d).1 = true ∧ toBufferOps.Moved b (scan b d).2 (tell b + i + d.length)
  scan_missing : ∀ b d, d ≠ [] → (∀ i, ¬ OccursAt d (toBufferOps.unread b) i) →
    (scan b d).1 = false ∧
      toBufferOps.Moved b (scan b d).2 (tell b ⊔ (fin b - (d.length - 1)))
  get_of_le : ∀ b n, n ≤ fin b - tell b → ∃ v b', get b n = some (v, b') ∧
    v.toList = toBufferOps.window b (tell b) (tell b + n) ∧ toBufferOps.Moved b b' (tell b + n)
  get_of_lt : ∀ b n, fin b - tell b < n → get b n = none
  put_of_le : ∀ b bs, fin b - tell b + bs.length ≤ max b →
    ∃ b', put b bs = some b' ∧ toBufferOps.Appended b b' bs
  put_of_lt : ∀ b bs, max b < fin b - tell b + bs.length → put b bs = none
  print_of_lt : ∀ b bs, fin b - tell b + bs.length < max b →
    ∃ b', print b bs = some b' ∧ toBufferOps.Appended b b' bs
  print_of_eq : ∀ b bs b', fin b - tell b + bs.length = max b → print b bs = some b' →
    ∃ bs', bs'.length = bs.length ∧ bs.dropLast <+: bs' ∧ toBufferOps.Appended b b' bs'
  print_of_gt : ∀ b bs, max b < fin b - tell b + bs.length → print b bs = none
  fill_of_le : ∀ b bs, fin b - tell b + bs.length ≤ max b → toBufferOps.Appended b (fill b bs) bs
  drain_of_le : ∀ b n, n ≤ fin b - tell b → toBufferOps.Moved b (drain b n) (tell b + n)

/-- Taking bytes that are unread. -/
theorem ByteBuffer.get_unread (B : ByteBuffer) {b : B.Buf} {bs rest : List UInt8} {n : ℕ}
    (hbs : B.unread b = bs ++ rest) (hn : bs.length = n) :
    ∃ v b', B.get b n = some (v, b') ∧ v.toList = bs ∧ B.unread b' = rest ∧
      B.max b' = B.max b := by
  have hlen : n ≤ B.fin b - B.tell b := by
    have hl := congrArg List.length hbs
    rw [BufferOps.unread_length, List.length_append] at hl
    omega
  obtain ⟨v, b', hget, hv, hmoved⟩ := B.get_of_le b n hlen
  have hsplit : B.window b (B.tell b) (B.tell b + n) ++
      B.window b (B.tell b + n) (B.fin b) = bs ++ rest := by
    rw [BufferOps.window_append (Nat.le_add_right _ _) (by have := B.tell_le b; omega)]
    exact hbs
  obtain ⟨hfirst, hrest⟩ := List.append_inj hsplit (by
    rw [BufferOps.window_length, hn, Nat.add_sub_cancel_left])
  refine ⟨v, b', hget, hv.trans hfirst, ?_, hmoved.max⟩
  rw [BufferOps.unread, hmoved.tell, hmoved.fin, hmoved.window]
  exact hrest

/-- A text that is printed takes its length, and is there but for its last byte; the
last byte is there too where another one is free. -/
theorem ByteBuffer.print_some (B : ByteBuffer) {b b' : B.Buf} {bs : List UInt8}
    (h : B.print b bs = some b') :
    B.fin b - B.tell b + bs.length ≤ B.max b ∧ ∃ bs', bs'.length = bs.length ∧
      bs.dropLast <+: bs' ∧ B.Appended b b' bs' ∧
      (B.fin b - B.tell b + bs.length < B.max b → bs' = bs) := by
  rcases Nat.lt_trichotomy (B.fin b - B.tell b + bs.length) (B.max b) with hlt | heq | hgt
  · obtain ⟨b₁, hprint, happ⟩ := B.print_of_lt b bs hlt
    rw [h] at hprint
    obtain rfl := Option.some.inj hprint
    exact ⟨hlt.le, bs, rfl, List.dropLast_prefix bs, happ, fun _ => rfl⟩
  · obtain ⟨bs', hlen, hfirst, happ⟩ := B.print_of_eq b bs b' heq h
    exact ⟨heq.le, bs', hlen, hfirst, happ, fun hlt => absurd heq hlt.ne⟩
  · rw [B.print_of_gt b bs hgt] at h
    cases h

/-- A ring of bytes: the byte at a position is kept at the position modulo the
ring's size. -/
structure Ring where
  max : ℕ
  tell : ℕ
  fin : ℕ
  mem : ℕ → UInt8
  max_lt : max < 2 ^ 64
  tell_le : tell ≤ fin
  fin_le : fin ≤ tell + max

namespace Ring

/-- The memory of a ring of `m` bytes after writing from a position on. -/
def store (m : ℕ) : (ℕ → UInt8) → ℕ → List UInt8 → ℕ → UInt8
  | mem, _, [] => mem
  | mem, p, a :: bs => store m (Function.update mem (p % m) a) (p + 1) bs

theorem store_ne {m x : ℕ} {mem : ℕ → UInt8} {p : ℕ} {bs : List UInt8}
    (h : ∀ k, k < bs.length → (p + k) % m ≠ x) : store m mem p bs x = mem x := by
  induction bs generalizing mem p with
  | nil => rfl
  | cons a bs ih =>
    have hx : x ≠ p % m := fun hx => h 0 (by simp) hx.symm
    rw [store, ih, Function.update_of_ne hx]
    intro k hk
    have := h (k + 1) (by simpa using hk)
    rwa [show p + (k + 1) = p + 1 + k from by omega] at this

/-- Positions less than `m` apart have different places. -/
theorem mod_ne {m i j : ℕ} (hlt : i < j) (hm : j < i + m) : j % m ≠ i % m := by
  intro h
  have hdvd := Nat.dvd_of_mod_eq_zero (Nat.sub_mod_eq_zero_of_mod_eq h)
  exact absurd (Nat.le_of_dvd (by omega) hdvd) (by omega)

theorem store_window {m : ℕ} {mem : ℕ → UInt8} {p : ℕ} {bs : List UInt8} (h : bs.length ≤ m) :
    (List.range' p bs.length).map (fun i => store m mem p bs (i % m)) = bs := by
  induction bs generalizing mem p with
  | nil => rfl
  | cons a bs ih =>
    have hhead : store m (Function.update mem (p % m) a) (p + 1) bs (p % m) = a := by
      rw [store_ne fun k hk => ?_, Function.update_self]
      rw [List.length_cons] at h
      exact mod_ne (by omega) (by omega)
    rw [List.length_cons, List.range'_succ, List.map_cons]
    simp only [store, hhead]
    rw [ih (by rw [List.length_cons] at h; omega)]

variable (r : Ring)

/-- An empty ring. -/
def init (m : ℕ) (h : m < 2 ^ 64) : Ring := ⟨m, 0, 0, fun _ => 0, h, le_rfl, Nat.zero_le _⟩

/-- Move the offset, as far as the ring allows. -/
def seek (p : ℕ) : Option Ring :=
  if h : p ≤ r.fin ∧ r.fin ≤ p + r.max then
    some { r with tell := p, tell_le := h.1, fin_le := h.2 }
  else none

/-- The bytes from one position to another. -/
def window (i j : ℕ) : List UInt8 := (List.range' i (j - i)).map fun k => r.mem (k % r.max)

/-- Move forward, at most to the end. -/
def skip (n : ℕ) : Ring :=
  { r with tell := min (r.tell + n) r.fin, tell_le := Nat.min_le_right _ _,
           fin_le := by have := r.fin_le; have := r.tell_le; omega }

/-- Append what there is room for. -/
def append (bs : List UInt8) : Option Ring :=
  if h : r.fin - r.tell + bs.length ≤ r.max then
    some { r with fin := r.fin + bs.length, mem := store r.max r.mem r.fin bs,
                  tell_le := by have := r.tell_le; omega,
                  fin_le := by have := r.tell_le; omega }
  else none

/-- Append a text and a terminator, of which the terminator is not kept. -/
def print (bs : List UInt8) : Option Ring :=
  if r.fin - r.tell + bs.length < r.max then r.append bs
  else r.append ((bs.dropLast ++ [0]).take bs.length)

/-- Move past the pattern, or to where it could still be incomplete. -/
def scan (d : List UInt8) : Bool × Ring :=
  match search d (r.window r.tell r.fin) with
  | some i => (true, r.skip (i + d.length))
  | none => (false, r.skip (r.fin - (d.length - 1) - r.tell))

/-- Take bytes from the offset. -/
def get (n : ℕ) : Option (Vector UInt8 n × Ring) :=
  if n ≤ r.fin - r.tell then
    some (Vector.ofFn fun k => r.mem ((r.tell + k.val) % r.max), r.skip n)
  else none

/-- The operations of a ring. -/
def ops : BufferOps where
  Buf := Ring
  max := Ring.max
  tell := Ring.tell
  fin := Ring.fin
  byte r i := r.mem (i % r.max)
  seek := seek
  scan := scan
  get := get
  put := append
  print := print
  fill r bs := (r.append bs).getD r
  drain := skip

theorem skip_moved {n : ℕ} (h : n ≤ r.fin - r.tell) : ops.Moved r (r.skip n) (r.tell + n) where
  max := rfl
  tell := by
    have := r.tell_le
    exact Nat.min_eq_left (by omega)
  fin := rfl
  byte _ := rfl

theorem append_appended {bs : List UInt8} (h : r.fin - r.tell + bs.length ≤ r.max) :
    ∃ r', r.append bs = some r' ∧ ops.Appended r r' bs := by
  refine ⟨_, dif_pos h, rfl, rfl, rfl, fun i hi hfin => ?_, ?_⟩
  · have hi' : r.tell ≤ i := hi
    have hfin' : i < r.fin := hfin
    exact store_ne fun k hk => mod_ne (by omega) (by omega)
  · simp only [BufferOps.window, ops, Nat.add_sub_cancel_left]
    exact store_window (by omega)

@[simp] theorem length_terminated (bs : List UInt8) :
    ((bs.dropLast ++ [(0 : UInt8)]).take bs.length).length = bs.length := by
  simp only [List.length_take, List.length_append, List.length_dropLast, List.length_singleton]
  omega

theorem print_of_eq {r' : Ring} {bs : List UInt8} (h : r.fin - r.tell + bs.length = r.max)
    (hprint : r.print bs = some r') :
    ∃ bs', bs'.length = bs.length ∧ bs.dropLast <+: bs' ∧ ops.Appended r r' bs' := by
  have hlen := length_terminated bs
  rw [print, if_neg h.not_lt] at hprint
  have hroom : r.fin - r.tell + ((bs.dropLast ++ [0]).take bs.length).length ≤ r.max := by omega
  obtain ⟨r₁, happend, happ⟩ := r.append_appended hroom
  rw [hprint] at happend
  obtain rfl := Option.some.inj happend
  refine ⟨_, hlen, ?_, happ⟩
  exact List.prefix_take_iff.mpr ⟨List.prefix_append _ _, by simp⟩

@[simp] theorem window_length (i j : ℕ) : (r.window i j).length = j - i := by simp [window]

theorem scan_found (d : List UInt8) (i : ℕ) (hd : d ≠ [])
    (h : FirstAt d (r.window r.tell r.fin) 0 i) :
    (r.scan d).1 = true ∧ ops.Moved r (r.scan d).2 (r.tell + i + d.length) := by
  have hlen := h.occurs.add_length_le hd
  rw [window_length] at hlen
  cases hs : search d (r.window r.tell r.fin) with
  | none => exact absurd h.occurs (search_none hs i)
  | some k =>
    obtain rfl := (search_some hs).unique h
    simp only [scan, hs, Nat.add_assoc]
    exact ⟨trivial, r.skip_moved hlen⟩

theorem scan_missing (d : List UInt8) (_ : d ≠ [])
    (h : ∀ i, ¬ OccursAt d (r.window r.tell r.fin) i) :
    (r.scan d).1 = false ∧ ops.Moved r (r.scan d).2 (r.tell ⊔ (r.fin - (d.length - 1))) := by
  cases hs : search d (r.window r.tell r.fin) with
  | some k => exact absurd (search_some hs).occurs (h k)
  | none =>
    have hmax : r.tell ⊔ (r.fin - (d.length - 1)) =
        r.tell + (r.fin - (d.length - 1) - r.tell) := by omega
    simp only [scan, hs, hmax]
    exact ⟨trivial, r.skip_moved (by omega)⟩

theorem get_of_le {n : ℕ} (hn : n ≤ r.fin - r.tell) : ∃ v r', r.get n = some (v, r') ∧
    v.toList = r.window r.tell (r.tell + n) ∧ ops.Moved r r' (r.tell + n) := by
  refine ⟨_, _, if_pos hn, ?_, r.skip_moved hn⟩
  refine List.ext_getElem (by simp [window]) fun k hk hk' => ?_
  simp [window]

/-- A ring is a buffer. -/
def buffer : ByteBuffer where
  toBufferOps := ops
  max_lt := Ring.max_lt
  tell_le := Ring.tell_le
  fin_le := Ring.fin_le
  seek_of_le r p hp hfin := ⟨_, dif_pos ⟨hp, hfin⟩, rfl, rfl, rfl, fun _ => rfl⟩
  scan_found := scan_found
  scan_missing := scan_missing
  get_of_le r n hn := r.get_of_le hn
  get_of_lt r n hn := if_neg (Nat.not_le.mpr hn)
  put_of_le r bs h := r.append_appended h
  put_of_lt r bs h := dif_neg (Nat.not_le.mpr h)
  print_of_lt r bs h := by
    obtain ⟨r', happend, happ⟩ := r.append_appended h.le
    exact ⟨r', (if_pos h).trans happend, happ⟩
  print_of_eq r bs r' h hprint := r.print_of_eq h hprint
  print_of_gt r bs h := by
    have hlen := length_terminated bs
    exact (if_neg (Nat.lt_asymm h)).trans (dif_neg (by rw [hlen]; exact Nat.not_le.mpr h))
  fill_of_le r bs h := by
    obtain ⟨r', hr, ha⟩ := r.append_appended h
    change ops.Appended r ((r.append bs).getD r) bs
    rw [hr]
    exact ha
  drain_of_le r n hn := r.skip_moved hn

end Ring

end Lawd.Library

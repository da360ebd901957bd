import Lawd.HttpConn
import Lawd.Library.Retry

/-!
# Scanning a stream for a delimiter

`law_htc_read_scan` reads from the base and scans from the offset, and is called
again until it no longer asks to wait. Between the calls, the bytes from the
base on and those still to come are the whole stream, and what is left to scan
from the offset has the same first occurrence as the stream from the initial
offset. So the outcome is that of one scan over the whole stream.
-/
namespace Lawd

open Library

variable {B : ByteBuffer}

/-- The scan is called again when it asks to wait. -/
def wantsAgain (e : Option Err) : Bool := e.any Err.wants

/-- What one scan of the stream `w` gives when `max` bytes can be held: the
code, and the offset from the base after a delimiter found. -/
inductive OneShot (max : ℕ) (d w : List UInt8) (o : ℕ) : Err → ℕ → Prop
  | ok (i : ℕ) : FirstAt d w o i → i + d.length ≤ max → OneShot max d w o .ok (i + d.length)
  | oob (p : ℕ) : (∀ i, FirstAt d w o i → max < i + d.length) → max ≤ w.length →
      OneShot max d w o .oob p
  | eof (p : ℕ) : (∀ i, FirstAt d w o i → max < i + d.length) → w.length < max →
      OneShot max d w o .eof p

theorem OneShot.unique {max o p p' : ℕ} {d w : List UInt8} {e e' : Err}
    (h : OneShot max d w o e p) (h' : OneShot max d w o e' p') : e = e' ∧ (e = .ok → p = p') := by
  cases h with
  | ok i hi hle =>
    cases h' with
    | ok j hj _ => exact ⟨rfl, fun _ => by rw [hi.unique hj]⟩
    | oob _ hlate _ => exact absurd (hlate i hi) (by omega)
    | eof _ hlate _ => exact absurd (hlate i hi) (by omega)
  | oob _ hlate hlong =>
    cases h' with
    | ok i hi hle => exact absurd (hlate i hi) (by omega)
    | oob _ _ _ => exact ⟨rfl, fun hok => by cases hok⟩
    | eof _ _ hshort => exact absurd hshort (by omega)
  | eof _ hlate hshort =>
    cases h' with
    | ok i hi hle => exact absurd (hlate i hi) (by omega)
    | oob _ _ hlong => exact absurd hshort (by omega)
    | eof _ _ _ => exact ⟨rfl, fun hok => by cases hok⟩

/-- The state between two calls. -/
structure Scanning (base : ℕ) (d w : List UInt8) (o cap : ℕ) (c : Htconn B) : Prop where
  max : B.max c.input = cap
  streams : Streams c.security c.socket.recv
  base_le : base ≤ B.tell c.input
  fin_le : B.fin c.input ≤ base + cap
  bytes : B.window c.input base (B.fin c.input) ++ arriving c.socket.recv = w
  pending : ∀ i, FirstAt d w (B.tell c.input - base) i ↔ FirstAt d w o i

/-- What a call does with the input there is, after a read with the given result. -/
def scanInput (base : ℕ) (d : List UInt8) (result : IoResult) (c : Htconn B) :
    Option Err × Htconn B :=
  let c' := { c with input := (B.scan c.input d).2 }
  if (B.scan c.input d).1 then (some .ok, c')
  else if B.fin c'.input - base ≥ B.max c.input then (some .oob, c')
  else if result.positive then (some .wantr, c')
  else (some result.err, c')

variable {base o cap : ℕ} {d w : List UInt8} {c : Htconn B}

/-- After which results of the read a call goes on: there is more to come, or
the stream has ended, or the buffer is full. -/
inductive ReadOn (base cap : ℕ) (c c₁ : Htconn B) : IoResult → Prop
  | more (result : IoResult) : (result.positive = false → result.err.wants = true) →
      recvSize c₁.socket.recv < recvSize c.socket.recv → ReadOn base cap c c₁ result
  | ended : arriving c₁.socket.recv = [] → ReadOn base cap c c₁ (.code .eof)
  | full : cap ≤ B.fin c₁.input - base → ReadOn base cap c c₁ (.code .oob)

/-- The read from the base, with the offset then moved back. -/
theorem Scanning.read (h : Scanning base d w o cap c) (hd : d ≠ []) (hlen : d.length ≤ cap) :
    ∃ result c₁, htcReadScan base d c = scanInput base d result c₁ ∧
      Scanning base d w o cap c₁ ∧ B.fin c.input ≤ B.fin c₁.input ∧
      ReadOn base cap c c₁ result := by
  have hmax := h.max
  have htell := B.tell_le c.input
  obtain ⟨input, hseek, hmoved⟩ := B.seek_of_le c.input base (h.base_le.trans htell)
    (by rw [hmax]; exact h.fin_le)
  have hreading := htcReadData_reading { c with input := input }
  rcases hp : htcReadData { c with input := input } with ⟨result, c₁⟩
  rw [hp] at hreading
  have hkept := hreading.kept
  have htell₁ : B.tell c₁.input = base := hkept.tell.trans hmoved.tell
  have hmax₁ : B.max c₁.input = cap := hkept.max.trans (hmoved.max.trans hmax)
  have hfin₁ : B.fin c.input ≤ B.fin c₁.input := by
    rw [← hmoved.fin]
    exact hkept.fin
  have hroom := B.fin_le c₁.input
  rw [htell₁, hmax₁] at hroom
  have hbase := h.base_le
  obtain ⟨input₁, hback, hmoved₁⟩ := B.seek_of_le c₁.input (B.tell c.input)
    (htell.trans hfin₁) (by rw [hmax₁]; omega)
  have hbytes : B.window c₁.input base (B.fin c₁.input) ++ arriving c₁.socket.recv = w := by
    have hunread := hkept.bytes
    simp only [BufferOps.unread, htell₁, hmoved.tell, hmoved.fin, hmoved.window] at hunread
    exact hunread.trans h.bytes
  have hon : (!result.positive && !scanOn result.err) = false ∧
      ReadOn base cap c { c₁ with input := input₁ } result := by
    cases hreading with
    | full hfull =>
      refine ⟨rfl, .full ?_⟩
      have hfull' : B.max input ≤ B.fin input - B.tell input := hfull
      rw [hmoved.max, hmoved.tell, hmax] at hfull'
      change cap ≤ B.fin input₁ - base
      rwa [hmoved₁.fin]
    | data bs input' recv hne _ _ _ hsize _ =>
      have hpos : (IoResult.count bs.length).positive = true := by
        simpa [IoResult.positive] using List.length_pos_iff.mpr hne
      exact ⟨by rw [hpos]; rfl, .more _ (fun hn => absurd hpos (by rw [hn]; simp)) hsize⟩
    | eof _ harr => exact ⟨rfl, .ended harr⟩
    | waits e recv _ hwants _ hsize _ =>
      refine ⟨?_, .more _ (fun _ => hwants) hsize⟩
      cases e <;> first | rfl | cases hwants
    | fails e recv _ _ hno => exact absurd h.streams hno
  refine ⟨result, { c₁ with input := input₁ }, ?_, ?_, ?_, hon.2⟩
  · simp only [htcReadScan, if_neg hd, hmax, if_neg (Nat.not_lt.mpr hlen), hseek, hp, hback, hon.1]
    simp only [scanInput, hmoved₁.max, hmax₁]
    rfl
  · refine ⟨hmoved₁.max.trans hmax₁, hkept.streams h.streams, ?_, ?_, ?_, ?_⟩
    · rw [hmoved₁.tell]
      exact hbase
    · rw [hmoved₁.fin]
      exact hroom
    · rw [hmoved₁.window, hmoved₁.fin]
      exact hbytes
    · rw [hmoved₁.tell]
      exact h.pending
  · rw [hmoved₁.fin]
    exact hfin₁

theorem Scanning.unread (h : Scanning base d w o cap c) :
    B.unread c.input = (B.window c.input base (B.fin c.input)).drop (B.tell c.input - base) := by
  rw [BufferOps.window_drop, Nat.add_sub_cancel' h.base_le]
  rfl

/-- A delimiter found in the input is the first one of the stream. -/
theorem Scanning.found (h : Scanning base d w o cap c) (hd : d ≠ []) {k : ℕ}
    (hk : FirstAt d (B.unread c.input) 0 k) :
    FirstAt d w o (B.tell c.input - base + k) ∧
      B.tell c.input - base + k + d.length ≤ B.fin c.input - base := by
  rw [h.unread] at hk
  have hfirst := hk.of_drop
  have hle := hfirst.occurs.add_length_le hd
  rw [BufferOps.window_length] at hle
  refine ⟨(h.pending _).mp ?_, hle⟩
  rw [← h.bytes]
  exact hfirst.append hd

/-- Without a delimiter in the input, the first one of the stream has not
arrived, and scanning can go on from the offset that the scan leaves. -/
theorem Scanning.missed (h : Scanning base d w o cap c)
    (hnone : ∀ k, ¬ OccursAt d (B.unread c.input) k) {input : B.Buf}
    (hmoved : B.Moved c.input input (B.tell c.input ⊔ (B.fin c.input - (d.length - 1)))) :
    (∀ i, FirstAt d w o i → B.fin c.input - base < i + d.length) ∧
      Scanning base d w o cap { c with input := input } := by
  have hbase := h.base_le
  have hlen : (B.window c.input base (B.fin c.input)).length = B.fin c.input - base :=
    BufferOps.window_length
  have hnone' : ∀ j, B.tell c.input - base ≤ j →
      ¬ OccursAt d (B.window c.input base (B.fin c.input)) j := by
    intro j hj hocc
    obtain ⟨k, rfl⟩ := Nat.exists_eq_add_of_le hj
    refine hnone k ?_
    rw [h.unread]
    exact occursAt_drop.mpr hocc
  constructor
  · intro i hi
    have hpend := (h.pending i).mpr hi
    by_contra hle
    have hocc := hpend.occurs
    rw [← h.bytes] at hocc
    exact hnone' i hpend.le (hocc.of_append (by rw [hlen]; omega))
  · refine ⟨hmoved.max.trans h.max, h.streams, ?_, ?_, ?_, fun i => ?_⟩
    · rw [hmoved.tell]
      omega
    · rw [hmoved.fin]
      exact h.fin_le
    · rw [hmoved.window, hmoved.fin]
      exact h.bytes
    · have hresume := FirstAt.resume (m := arriving c.socket.recv) (i := i) hnone'
      rw [h.bytes, hlen] at hresume
      rw [hmoved.tell, show (B.tell c.input ⊔ (B.fin c.input - (d.length - 1))) - base =
        (B.tell c.input - base) ⊔ (B.fin c.input - base - (d.length - 1)) from by omega, hresume]
      exact h.pending i

/-- A call keeps the stream from the base on, and what the next call needs. -/
structure Conserved (base : ℕ) (w : List UInt8) (c c' : Htconn B) : Prop where
  bytes : B.window c'.input base (B.fin c'.input) ++ arriving c'.socket.recv = w
  fin : B.fin c.input ≤ B.fin c'.input
  max : B.max c'.input = B.max c.input
  fin_le : B.fin c'.input ≤ base + B.max c'.input
  streams : Streams c'.security c'.socket.recv

/-- What one call gives: it asks to wait, with less to wait for, or ends as one
scan of the whole stream does. -/
inductive ScanCall (base : ℕ) (d w : List UInt8) (o cap : ℕ) (c : Htconn B) :
    Option Err → Htconn B → Prop
  | waits (e : Err) (c' : Htconn B) : e.wants = true → Scanning base d w o cap c' →
      recvSize c'.socket.recv < recvSize c.socket.recv → ScanCall base d w o cap c (some e) c'
  | ends (e : Err) (p : ℕ) (c' : Htconn B) : e.wants = false → OneShot cap d w o e p →
      (e = .ok → B.tell c'.input = base + p) → ScanCall base d w o cap c (some e) c'

@[simp] theorem scanInput_snd (result : IoResult) : (scanInput base d result c).2 =
    { c with input := (B.scan c.input d).2 } := by
  simp only [scanInput]
  split_ifs <;> rfl

theorem scan_moved (hd : d ≠ []) (b : B.Buf) :
    ∃ p, B.tell b ≤ p ∧ B.Moved b (B.scan b d).2 p := by
  cases hs : search d (B.unread b) with
  | some k => exact ⟨_, by omega, (B.scan_found b d k hd (search_some hs)).2⟩
  | none => exact ⟨_, le_sup_left, (B.scan_missing b d hd (search_none hs)).2⟩

theorem scanInput_call {c₁ : Htconn B} {result : IoResult} (h : Scanning base d w o cap c₁)
    (hd : d ≠ []) (hon : ReadOn base cap c c₁ result) :
    ScanCall base d w o cap c (scanInput base d result c₁).1 (scanInput base d result c₁).2 := by
  have hroom := h.fin_le
  have hbase := h.base_le
  have hw : (B.fin c₁.input - base) + (arriving c₁.socket.recv).length = w.length := by
    rw [← h.bytes, List.length_append, BufferOps.window_length]
  cases hs : search d (B.unread c₁.input) with
  | some k =>
    obtain ⟨hfound, hmoved⟩ := B.scan_found c₁.input d k hd (search_some hs)
    obtain ⟨hfirst, hle⟩ := h.found hd (search_some hs)
    simp only [scanInput, hfound, if_true]
    refine .ends .ok _ _ rfl (.ok _ hfirst (by omega)) fun _ => ?_
    rw [hmoved.tell]
    omega
  | none =>
    obtain ⟨hfound, hmoved⟩ := B.scan_missing c₁.input d hd (search_none hs)
    obtain ⟨hlate, h₂⟩ := h.missed (search_none hs) hmoved
    simp only [scanInput, hfound, hmoved.fin, h.max]
    by_cases hfull : cap ≤ B.fin c₁.input - base
    · simp only [ge_iff_le, hfull, if_true]
      refine .ends .oob 0 _ rfl (.oob _ (fun i hi => ?_) (by omega)) fun hok => by cases hok
      have := hlate i hi
      omega
    · simp only [ge_iff_le, hfull, if_false]
      cases hon with
      | more _ hwants hsize =>
        cases hpos : result.positive with
        | true => exact .waits .wantr _ rfl h₂ hsize
        | false => exact .waits _ _ (hwants hpos) h₂ hsize
      | full hcap => exact absurd hcap hfull
      | ended harr =>
        rw [harr, List.length_nil] at hw
        refine .ends .eof 0 _ rfl (.eof _ (fun i hi => ?_) (by omega)) fun hok => by cases hok
        have hocc := hi.occurs.add_length_le hd
        have := hlate i hi
        omega

theorem htcReadScan_oob (hd : d ≠ []) (hlen : B.max c.input < d.length) :
    htcReadScan base d c = (some .oob, c) := by
  simp only [htcReadScan, if_neg hd, if_pos hlen]

theorem htcReadScan_step (h : Scanning base d w o cap c) (hd : d ≠ []) (hlen : d.length ≤ cap) :
    Conserved base w c (htcReadScan base d c).2 ∧
      ScanCall base d w o cap c (htcReadScan base d c).1 (htcReadScan base d c).2 := by
  obtain ⟨result, c₁, heq, h₁, hfin, hon⟩ := h.read hd hlen
  obtain ⟨p, -, hmoved⟩ := scan_moved hd c₁.input
  rw [heq]
  refine ⟨?_, scanInput_call h₁ hd hon⟩
  rw [scanInput_snd]
  refine ⟨?_, hmoved.fin.ge.trans' hfin, ?_, ?_, h₁.streams⟩
  · rw [hmoved.fin, hmoved.window]
    exact h₁.bytes
  · rw [hmoved.max, h₁.max, h.max]
  · rw [hmoved.fin, hmoved.max, h₁.max]
    exact h₁.fin_le

theorem ScanCall.wantsAgain_iff {c' : Htconn B} {e : Option Err}
    (h : ScanCall base d w o cap c e c') (hagain : wantsAgain e = true) :
    Scanning base d w o cap c' ∧ recvSize c'.socket.recv < recvSize c.socket.recv := by
  cases h with
  | waits e _ hwants hnext hsize => exact ⟨hnext, hsize⟩
  | ends e p _ hwants _ _ =>
    rw [show wantsAgain (some e) = e.wants from rfl, hwants] at hagain
    cases hagain

theorem ScanCall.ended {c' : Htconn B} {e : Option Err}
    (h : ScanCall base d w o cap c e c') (hagain : wantsAgain e = false) :
    ∃ e' p, e = some e' ∧ OneShot cap d w o e' p ∧ (e' = .ok → B.tell c'.input = base + p) := by
  cases h with
  | waits e _ hwants _ _ =>
    rw [show wantsAgain (some e) = e.wants from rfl, hwants] at hagain
    cases hagain
  | ends e p _ _ hshot htell => exact ⟨e, p, rfl, hshot, htell⟩

/-- The stream from the base on: what has arrived of it, and what is to come. -/
def Htconn.stream (c : Htconn B) (base : ℕ) : List UInt8 :=
  B.window c.input base (B.fin c.input) ++ arriving c.socket.recv

theorem retries_scanning {c' : Htconn B} (hd : d ≠ []) (hlen : d.length ≤ cap)
    (h : Scanning base d w o cap c) (hr : Retries (htcReadScan base d) wantsAgain c c') :
    Scanning base d w o cap c' ∧ B.fin c.input ≤ B.fin c'.input := by
  refine hr.invariant (P := fun u => Scanning base d w o cap u ∧ B.fin c.input ≤ B.fin u.input)
    ⟨h, le_rfl⟩ fun u hu hagain => ?_
  obtain ⟨hcons, hcall⟩ := htcReadScan_step hu.1 hd hlen
  exact ⟨(hcall.wantsAgain_iff hagain).1, hu.2.trans hcons.fin⟩

/-- However a stream arrives, calling `law_htc_read_scan` until it no longer
asks to wait comes to an end, gives what one scan of the whole stream gives, and
loses no byte from the base on. -/
theorem read_scan_incremental (B : ByteBuffer) (c : Htconn B) (base : ℕ) (d : List UInt8)
    (hd : 1 ≤ d.length) (hlen : d.length ≤ B.max c.input) (hbase : base ≤ B.tell c.input)
    (hwin : B.fin c.input ≤ base + B.max c.input)
    (hs : Streams c.security c.socket.recv) :
    (∀ n, recvSize c.socket.recv < n → ∃ e p c',
      retry (htcReadScan base d) wantsAgain n c = some (some e, c') ∧
      OneShot (B.max c.input) d (c.stream base) (B.tell c.input - base) e p ∧
      (e = .ok → B.tell c'.input = base + p) ∧
      c'.stream base = c.stream base ∧ B.fin c.input ≤ B.fin c'.input) ∧
    ∀ c', Retries (htcReadScan base d) wantsAgain c c' →
      c'.stream base = c.stream base ∧ B.fin c.input ≤ B.fin c'.input := by
  have hd' : d ≠ [] := List.length_pos_iff.mp hd
  have hinit : Scanning base d (c.stream base) (B.tell c.input - base) (B.max c.input) c :=
    ⟨rfl, hs, hbase, hwin, rfl, fun i => Iff.rfl⟩
  have hstep : ∀ u : Htconn B,
      Scanning base d (c.stream base) (B.tell c.input - base) (B.max c.input) u →
      wantsAgain (htcReadScan base d u).1 = true →
      Scanning base d (c.stream base) (B.tell c.input - base) (B.max c.input)
        (htcReadScan base d u).2 ∧
        recvSize (htcReadScan base d u).2.socket.recv < recvSize u.socket.recv :=
    fun u hu hagain => (htcReadScan_step hu hd' hlen).2.wantsAgain_iff hagain
  refine ⟨fun n hn => ?_, fun c' hr => ?_⟩
  · obtain ⟨e, c', hrun⟩ := retry_terminates (fun u : Htconn B => recvSize u.socket.recv)
      hstep hinit hn
    obtain ⟨u, hu, hcall, hlast⟩ := Retries.of_retry hrun
    obtain ⟨hscan, hfin⟩ := retries_scanning hd' hlen hinit hu
    obtain ⟨hcons, hstep⟩ := htcReadScan_step hscan hd' hlen
    rw [hcall] at hcons hstep
    obtain ⟨e', p, rfl, hshot, htell⟩ := hstep.ended hlast
    exact ⟨e', p, c', hrun, hshot, htell, hcons.bytes, hfin.trans hcons.fin⟩
  · obtain ⟨hscan, hfin⟩ := retries_scanning hd' hlen hinit hr
    exact ⟨hscan.bytes, hfin⟩

theorem splitConn_size : 8 < 2 ^ 64 := by decide

/-- A ring of 8 bytes, and a delimiter that arrives in two parts. -/
def splitConn : Htconn Ring.buffer where
  security := .unsecured
  input := Ring.init 8 splitConn_size
  output := Ring.init 8 splitConn_size
  socket := ⟨[.data 97 [98, 59], .wantRead, .data 59 [99]], [], []⟩

theorem read_scan_incremental_split : ∃ e p c',
    retry (htcReadScan 0 [59, 59]) wantsAgain 8 splitConn = some (some e, c') ∧
      OneShot 8 [59, 59] (splitConn.stream 0) 0 e p ∧
      (e = .ok → Ring.buffer.tell c'.input = 0 + p) ∧
      c'.stream 0 = splitConn.stream 0 ∧
      Ring.buffer.fin splitConn.input ≤ Ring.buffer.fin c'.input :=
  (read_scan_incremental Ring.buffer splitConn 0 [59, 59] (by decide) (by decide) (by decide)
    (by decide) (by decide)).1 8 (by decide)

end Lawd

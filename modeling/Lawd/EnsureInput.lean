import Lawd.HttpConn
import Lawd.Library.Retry

/-!
# Waiting for a number of bytes

`law_htc_ensure_input` is called until enough bytes are unread. Its guard adds
the bytes already unread to those asked for, so it refuses requests that the
buffer could hold. Where no call meets such a state, the outcome does not depend
on how the bytes arrive; and only there.
-/
namespace Lawd

open Library

variable {B : ByteBuffer}

/-- The number of bytes that follow the offset. -/
def Htconn.unreadLen (c : Htconn B) : ℕ := B.fin c.input - B.tell c.input

/-- What a call promises: success means that enough bytes are unread, and only
what the buffer cannot hold is refused. -/
structure Ensured (nbytes : ℕ) (c : Htconn B) : Prop where
  ok_iff : (htcEnsureInput c nbytes).1 = .ok ↔ nbytes ≤ (htcEnsureInput c nbytes).2.unreadLen
  oob : (htcEnsureInput c nbytes).1 = .oob → B.max c.input < nbytes

/-- The call is made again when it asks to wait, and once more when all is well. -/
def callAgain (e : Err) : Bool := e.wants || e == .ok

/-- The calls do not depend on how the input is fragmented: each keeps its
promise, and when enough bytes arrive the calls succeed. -/
structure FragmentFree (nbytes : ℕ) (c : Htconn B) : Prop where
  calls : ∀ c', Retries (fun c => htcEnsureInput c nbytes) callAgain c c' → Ensured nbytes c'
  arrives : Streams c.security c.socket.recv → nbytes ≤ B.max c.input →
    nbytes ≤ c.unreadLen + (arriving c.socket.recv).length →
    ∀ n, recvSize c.socket.recv < n →
      ∃ c', retry (fun c => htcEnsureInput c nbytes) Err.wants n c = some (.ok, c')

/-- The guard lets the request pass, or the buffer could never hold it. -/
def Fits (nbytes : ℕ) (c : Htconn B) : Prop :=
  sizeAdd c.unreadLen nbytes ≤ B.max c.input ∨ B.max c.input < nbytes

variable {nbytes : ℕ} {c : Htconn B}

/-- What a call can do: past the guard, it reads once if too few bytes are unread. -/
inductive Ensuring (nbytes : ℕ) (c : Htconn B) : Err → Htconn B → Prop
  | refused : B.max c.input < sizeAdd c.unreadLen nbytes → Ensuring nbytes c .oob c
  | enough : sizeAdd c.unreadLen nbytes ≤ B.max c.input → nbytes ≤ c.unreadLen →
      Ensuring nbytes c .ok c
  | arrived (result : IoResult) (c' : Htconn B) : c.unreadLen < nbytes → Reading c result c' →
      result.positive = true →
      Ensuring nbytes c (if nbytes ≤ c'.unreadLen then .ok else .wantr) c'
  | failed (result : IoResult) (c' : Htconn B) : c.unreadLen < nbytes → Reading c result c' →
      result.positive = false → Ensuring nbytes c result.err c'

theorem htcEnsureInput_ensuring (nbytes : ℕ) (c : Htconn B) :
    Ensuring nbytes c (htcEnsureInput c nbytes).1 (htcEnsureInput c nbytes).2 := by
  by_cases hguard : B.max c.input < sizeAdd c.unreadLen nbytes
  · have heq : htcEnsureInput c nbytes = (.oob, c) := if_pos hguard
    rw [heq]
    exact .refused hguard
  · by_cases henough : nbytes ≤ c.unreadLen
    · have heq : htcEnsureInput c nbytes = (.ok, c) := (if_neg hguard).trans (if_pos henough)
      rw [heq]
      exact .enough (by omega) henough
    · have hreading := htcReadData_reading c
      have htell := hreading.kept.tell
      have heq : htcEnsureInput c nbytes =
          if !(htcReadData c).1.positive then ((htcReadData c).1.err, (htcReadData c).2)
          else (if nbytes ≤ (htcReadData c).2.unreadLen then .ok else .wantr,
            (htcReadData c).2) := by
        rw [Htconn.unreadLen, htell]
        exact (if_neg hguard).trans (if_neg henough)
      rw [heq]
      cases hpos : (htcReadData c).1.positive with
      | true => exact .arrived _ _ (by omega) hreading hpos
      | false => exact .failed _ _ (by omega) hreading hpos

/-- A read that gives no bytes leaves those that are unread, and is out of bounds
only when the buffer is full. -/
theorem Reading.nothing {c' : Htconn B} {result : IoResult} (h : Reading c result c')
    (hpos : result.positive = false) : c'.unreadLen = c.unreadLen ∧ result.err ≠ .ok ∧
      (result.err = .oob → B.max c.input ≤ c.unreadLen) := by
  cases h with
  | full hfull => exact ⟨rfl, by simp [IoResult.err], fun _ => hfull⟩
  | eof _ _ => exact ⟨rfl, by simp [IoResult.err], fun he => by cases he⟩
  | waits e recv _ hwants _ _ _ =>
    refine ⟨rfl, fun he => ?_, fun he => ?_⟩
    · rw [show e = .ok from he] at hwants
      cases hwants
    · rw [show e = .oob from he] at hwants
      cases hwants
  | fails e recv he _ _ =>
    refine ⟨rfl, fun hok => ?_, fun hoob => ?_⟩
    · rw [show e = .ok from hok] at he
      simp at he
    · rw [show e = .oob from hoob] at he
      simp at he
  | data bs input recv hne _ _ _ _ _ =>
    have hlen := List.length_pos_iff.mpr hne
    simp [IoResult.positive, hlen] at hpos

theorem unreadLen_le (c : Htconn B) : c.unreadLen ≤ B.max c.input := by
  have := B.fin_le c.input
  unfold Htconn.unreadLen
  omega

theorem Ensuring.ensured {e : Err} {c' : Htconn B} (h : Ensuring nbytes c e c')
    (hfits : Fits nbytes c) :
    (e = .ok ↔ nbytes ≤ c'.unreadLen) ∧ (e = .oob → B.max c.input < nbytes) := by
  have hroom := unreadLen_le c
  cases h with
  | refused hguard =>
    have hbig : B.max c.input < nbytes := hfits.resolve_left (Nat.not_le.mpr hguard)
    exact ⟨by simp; omega, fun _ => hbig⟩
  | enough _ henough => exact ⟨by simp [henough], by simp⟩
  | arrived result _ hfew hreading hpos =>
    split_ifs with hlen
    · exact ⟨by simp [hlen], by simp⟩
    · exact ⟨by simp; omega, by simp⟩
  | failed result _ hfew hreading hpos =>
    obtain ⟨hsame, hok, hoob⟩ := hreading.nothing hpos
    refine ⟨⟨fun he => absurd he hok, fun hlen => ?_⟩, fun he => ?_⟩
    · rw [hsame] at hlen
      omega
    · have := hoob he
      omega

/-- One call keeps its promise if and only if its guard lets it pass, or the
request does not fit in the buffer. -/
theorem ensured_iff_fits (nbytes : ℕ) (c : Htconn B) : Ensured nbytes c ↔ Fits nbytes c := by
  constructor
  · intro h
    by_cases hguard : B.max c.input < sizeAdd c.unreadLen nbytes
    · have heq : htcEnsureInput c nbytes = (.oob, c) := if_pos hguard
      exact .inr (h.oob (by rw [heq]))
    · exact .inl (Nat.not_lt.mp hguard)
  · intro h
    obtain ⟨hok, hoob⟩ := (htcEnsureInput_ensuring nbytes c).ensured h
    exact ⟨hok, hoob⟩

/-- Enough bytes are unread or still to come, and the calls from here on fit. -/
structure Awaiting (nbytes cap : ℕ) (c : Htconn B) : Prop where
  max : B.max c.input = cap
  streams : Streams c.security c.socket.recv
  bytes : nbytes ≤ c.unreadLen + (arriving c.socket.recv).length
  fits : ∀ c', Retries (fun c => htcEnsureInput c nbytes) callAgain c c' → Fits nbytes c'

theorem Reading.total {c' : Htconn B} {result : IoResult} (h : Reading c result c') :
    c'.unreadLen + (arriving c'.socket.recv).length =
      c.unreadLen + (arriving c.socket.recv).length := by
  have hbytes := congrArg List.length h.kept.bytes
  rw [List.length_append, List.length_append, BufferOps.unread_length,
    BufferOps.unread_length] at hbytes
  exact hbytes

theorem Ensuring.awaiting {cap : ℕ} {e : Err} {c' : Htconn B} (h : Ensuring nbytes c e c')
    (ha : Awaiting nbytes cap c) (hcap : nbytes ≤ cap) :
    e = .ok ∨ e.wants = true ∧ recvSize c'.socket.recv < recvSize c.socket.recv := by
  have hmax := ha.max
  have hfits := (ha.fits c .first).resolve_right (by omega)
  cases h with
  | refused hguard => exact absurd hfits (Nat.not_le.mpr hguard)
  | enough _ _ => exact .inl rfl
  | arrived result _ hfew hreading hpos =>
    cases hreading with
    | data bs input recv _ _ _ _ hsize _ =>
      split_ifs with hlen
      · exact .inl rfl
      · exact .inr ⟨rfl, hsize⟩
    | full _ | eof _ _ | waits _ _ _ _ _ _ _ | fails _ _ _ _ _ => cases hpos
  | failed result _ hfew hreading hpos =>
    have hbytes := ha.bytes
    cases hreading with
    | full hfull =>
      have hfull' : B.max c.input ≤ c.unreadLen := hfull
      omega
    | eof _ harr =>
      rw [harr, List.length_nil] at hbytes
      omega
    | waits e recv _ hwants _ hsize _ => exact .inr ⟨hwants, hsize⟩
    | fails _ _ _ _ hno => exact absurd ha.streams hno
    | data bs input recv hne _ _ _ _ _ =>
      have hlen := List.length_pos_iff.mpr hne
      simp [IoResult.positive, hlen] at hpos

theorem Ensuring.reading {e : Err} {c' : Htconn B} (h : Ensuring nbytes c e c') :
    c' = c ∨ ∃ result, Reading c result c' := by
  cases h with
  | refused _ => exact .inl rfl
  | enough _ _ => exact .inl rfl
  | arrived result _ _ hreading _ => exact .inr ⟨result, hreading⟩
  | failed result _ _ hreading _ => exact .inr ⟨result, hreading⟩

theorem Awaiting.next {cap : ℕ} (ha : Awaiting nbytes cap c)
    (hagain : (htcEnsureInput c nbytes).1.wants = true) :
    Awaiting nbytes cap (htcEnsureInput c nbytes).2 := by
  have hnext : ∀ c', Retries (fun c => htcEnsureInput c nbytes) callAgain
      (htcEnsureInput c nbytes).2 c' → Fits nbytes c' := by
    intro c' hr
    refine ha.fits c' (.trans (.next .first ?_) hr)
    simp [callAgain, hagain]
  rcases (htcEnsureInput_ensuring nbytes c).reading with heq | ⟨result, hreading⟩
  · rw [heq]
    exact ha
  · have hkept := hreading.kept
    refine ⟨hkept.max.trans ha.max, hkept.streams ha.streams, ?_, hnext⟩
    rw [hreading.total]
    exact ha.bytes

/-- `law_htc_ensure_input` is free of how the input is fragmented if and only if
every call is made in a state in which the unread bytes and those asked for fit
in the buffer together, or those asked for do not fit at all. -/
theorem ensure_input_iff (B : ByteBuffer) (c : Htconn B) (nbytes : ℕ) :
    FragmentFree nbytes c ↔
      ∀ c', Retries (fun c => htcEnsureInput c nbytes) callAgain c c' → Fits nbytes c' := by
  constructor
  · exact fun h c' hr => (ensured_iff_fits nbytes c').mp (h.calls c' hr)
  · intro h
    refine ⟨fun c' hr => (ensured_iff_fits nbytes c').mpr (h c' hr), fun hs hcap hbytes n hn => ?_⟩
    have hinit : Awaiting nbytes (B.max c.input) c := ⟨rfl, hs, hbytes, h⟩
    have hstep : ∀ u : Htconn B, Awaiting nbytes (B.max c.input) u →
        (htcEnsureInput u nbytes).1.wants = true →
        Awaiting nbytes (B.max c.input) (htcEnsureInput u nbytes).2 ∧
          recvSize (htcEnsureInput u nbytes).2.socket.recv < recvSize u.socket.recv := by
      intro u hu hagain
      refine ⟨hu.next hagain, ?_⟩
      rcases (htcEnsureInput_ensuring nbytes u).awaiting hu hcap with hok | ⟨_, hsize⟩
      · rw [hok] at hagain
        cases hagain
      · exact hsize
    obtain ⟨e, c', hrun⟩ := retry_terminates (fun u : Htconn B => recvSize u.socket.recv)
      hstep hinit hn
    obtain ⟨u, hu, hcall, hlast⟩ := Retries.of_retry hrun
    have hu' : Awaiting nbytes (B.max c.input) u :=
      hu.invariant hinit fun v hv hagain => hv.next hagain
    have hend := (htcEnsureInput_ensuring nbytes u).awaiting hu' hcap
    rw [hcall] at hend
    rcases hend with hok | ⟨hwants, _⟩
    · exact ⟨c', by rw [← hok]; exact hrun⟩
    · rw [hlast] at hwants
      cases hwants

/-- A ring of 8 bytes, 4 of them unread. -/
def halfConn : Htconn Ring.buffer where
  security := .unsecured
  input := ⟨8, 0, 4, fun i => UInt8.ofNat (97 + i), by decide, by decide, by decide⟩
  output := Ring.init 8 (by decide)
  socket := ⟨[.data 101 []], [], []⟩

/-- A fifth byte has arrived, and is refused. -/
theorem ensure_input_refuses : (htcEnsureInput halfConn 5).1 = .oob ∧
    ¬ FragmentFree 5 halfConn := by
  have hoob : (htcEnsureInput halfConn 5).1 = .oob := by decide
  refine ⟨hoob, fun h => ?_⟩
  have hbig := (h.calls halfConn .first).oob hoob
  exact absurd hbig (by decide)

end Lawd

import Lawd.Masking
import Lawd.WsQueue

/-!
# WebSocket frames from one end to the other

One end writes a head and then the masked payload, in any pieces and with any
flushes in between, and the other end reads as the bytes arrive. Each call that
has to wait has used no byte, so whatever a reader gets are the frames that were
written, in order, as long as their heads are not large.
-/
namespace Lawd

open Library

variable {B : ByteBuffer}

/-- A head, and a payload that is not masked. -/
structure WsFrame where
  head : WsHead
  payload : List UInt8
  deriving DecidableEq, Repr

/-- A frame whose head is small or medium, and tells the length of the payload. -/
structure WsFrame.Valid (f : WsFrame) : Prop where
  fin : f.head.fin ≤ 1
  opcode : f.head.opcode < 16
  length : f.payload.length = f.head.payloadLength.toNat
  medium : f.head.payloadLength ≤ 65535

/-- The bytes of a frame. -/
def wsFrameBytes (f : WsFrame) : List UInt8 :=
  wsHeadBytes f.head ++ wsMask f.head.maskingKey f.payload

/-! ### Writing -/

/-- Frames are written one after the other: other calls that queue nothing, then
the head, tried again while it asks to wait, and then calls that queue the
payload as `law_ws_xor_apply` masks its pieces. -/
inductive WritesFrames (endian : Endian) : List WsFrame → Htconn B → Htconn B → Prop
  | done {w : Htconn B} (calls : List OutputCall) : OutputCall.queued w calls = [] →
      WritesFrames endian [] w (OutputCall.after w calls)
  | frame {f : WsFrame} {fs : List WsFrame} {w w₁ w' : Htconn B}
      (before calls : List OutputCall) (pieces : List (List UInt8)) :
      OutputCall.queued w before = [] →
      Settles (wsWriteHead endian f.head) wantsAgain (OutputCall.after w before)
        (some .ok, w₁) →
      pieces.flatten = f.payload →
      OutputCall.queued w₁ calls = (wsXorChunks (wsXorInit f.head.maskingKey) pieces).2.flatten →
      WritesFrames endian fs (OutputCall.after w₁ calls) w' →
      WritesFrames endian (f :: fs) w w'

theorem WritesFrames.nil (endian : Endian) (w : Htconn B) : WritesFrames endian [] w w :=
  .done [] rfl

section Write

variable {c c' : Htconn B} {bs : List UInt8} {e : Err} {endian : Endian} {head : WsHead}

@[simp] theorem htcEnsureOutput_outgoing (c : Htconn B) (n : ℕ) :
    (htcEnsureOutput c n).2.outgoing = c.outgoing :=
  (OutputCall.make_outgoing (.ensureOutput n) c).trans (List.append_nil _)

theorem htcPut_outgoing (h : htcPut c bs = (.ok, c')) : c'.outgoing = c.outgoing ++ bs := by
  by_cases hroom : bs.length ≤ c.room
  · obtain ⟨c₁, hput, hout, -⟩ := htcPut_room hroom
    obtain rfl : c₁ = c' := congrArg Prod.snd (hput.symm.trans h)
    exact hout
  · rw [htcPut_full (Nat.not_le.mp hroom)] at h
    cases (Prod.mk.inj h).1

@[simp] theorem htcPut_quiet (c : Htconn B) (bs : List UInt8) : (htcPut c bs).1.wants = false := by
  unfold htcPut
  split <;> rfl

/-- A call that never asks to wait. -/
def Quiet (next : Htconn B → Option Err × Htconn B) : Prop :=
  ∀ c, wantsAgain (next c).1 = false

theorem Quiet.last (bs : List UInt8) :
    Quiet fun c : Htconn B => (fun p : Err × Htconn B => (some p.1, p.2)) (htcPut c bs) :=
  fun c => htcPut_quiet c bs

theorem Quiet.put {next : Htconn B → Option Err × Htconn B} (h : Quiet next) (bs : List UInt8) :
    Quiet fun c => tryQuietly (htcPut c bs) next := by
  intro c
  have hq := htcPut_quiet c bs
  change wantsAgain (tryQuietly (htcPut c bs) next).1 = false
  rcases hp : htcPut c bs with ⟨e, c₁⟩
  rw [hp] at hq
  cases e with
  | ok => exact h c₁
  | wantr | wantw => cases hq
  | _ => rfl

theorem ensure_waits {n : ℕ} {next : Htconn B → Option Err × Htconn B} (h : Quiet next)
    (hagain : wantsAgain (tryQuietly (htcEnsureOutput c n) next).1 = true) :
    (tryQuietly (htcEnsureOutput c n) next).2.outgoing = c.outgoing := by
  have hout := htcEnsureOutput_outgoing c n
  rcases hp : htcEnsureOutput c n with ⟨e, c₁⟩
  rw [hp] at hout hagain
  cases e with
  | ok =>
    rw [show tryQuietly (Err.ok, c₁) next = next c₁ from rfl, h c₁] at hagain
    cases hagain
  | _ => exact hout

theorem wsWriteHead_waits (hagain : wantsAgain (wsWriteHead endian head c).1 = true) :
    (wsWriteHead endian head c).2.outgoing = c.outgoing := by
  unfold wsWriteHead at hagain ⊢
  split_ifs at hagain ⊢ with hsmall hmedium
  · simp only [wsWriteHeadSmall, if_pos hsmall] at hagain ⊢
    exact ensure_waits ((Quiet.last _).put _) hagain
  · simp only [wsWriteHeadMedium, if_pos hmedium] at hagain ⊢
    exact ensure_waits (((Quiet.last _).put _).put _) hagain
  · simp only [wsWriteHeadLarge] at hagain ⊢
    exact ensure_waits (((Quiet.last _).put _).put _) hagain

theorem wsWriteHead_outgoing (h : wsWriteHead endian head c = (some .ok, c')) :
    c'.outgoing = c.outgoing ++ wsHeadBytes head := by
  have hlast : ∀ {u v : Htconn B} {bs : List UInt8},
      (fun p : Err × Htconn B => (some p.1, p.2)) (htcPut u bs) = (some Err.ok, v) →
      v.outgoing = u.outgoing ++ bs := by
    intro u v bs hput
    obtain ⟨he, hv⟩ := Prod.mk.inj hput
    exact htcPut_outgoing (Prod.ext (Option.some.inj he) hv)
  have hensure : ∀ {u v : Htconn B} {n : ℕ}, htcEnsureOutput u n = (.ok, v) →
      v.outgoing = u.outgoing := by
    intro u v n hcall
    have hout := htcEnsureOutput_outgoing u n
    rwa [hcall] at hout
  unfold wsWriteHead at h
  split_ifs at h with hsmall hmedium
  · simp only [wsWriteHeadSmall, if_pos hsmall] at h
    obtain ⟨c₁, h₁, h⟩ := tryQuietly_ok h
    obtain ⟨c₂, h₂, h⟩ := tryQuietly_ok h
    rw [hlast h, htcPut_outgoing h₂, hensure h₁, wsHeadBytes, if_pos hsmall, List.append_assoc]
    rfl
  · simp only [wsWriteHeadMedium, if_pos hmedium] at h
    obtain ⟨c₁, h₁, h⟩ := tryQuietly_ok h
    obtain ⟨c₂, h₂, h⟩ := tryQuietly_ok h
    obtain ⟨c₃, h₃, h⟩ := tryQuietly_ok h
    have hlen : head.payloadLength.toUInt16.toNat = head.payloadLength.toNat := by
      rw [UInt64.toNat_toUInt16]
      exact Nat.mod_eq_of_lt (Nat.lt_succ_of_le (UInt64.le_iff_toNat_le.mp hmedium))
    rw [hlast h, htcPut_outgoing h₃, htcPut_outgoing h₂, hensure h₁, hlen, Endian.store_toNetwork,
      wsHeadBytes, if_neg hsmall, if_pos hmedium]
    simp only [List.append_assoc]
    rfl
  · simp only [wsWriteHeadLarge] at h
    obtain ⟨c₁, h₁, h⟩ := tryQuietly_ok h
    obtain ⟨c₂, h₂, h⟩ := tryQuietly_ok h
    obtain ⟨c₃, h₃, h⟩ := tryQuietly_ok h
    rw [hlast h, htcPut_outgoing h₃, htcPut_outgoing h₂, hensure h₁, Endian.store_toNetwork,
      wsHeadBytes, if_neg hsmall, if_neg hmedium]
    simp only [List.append_assoc]
    rfl

theorem wsWriteHead_settles (h : Settles (wsWriteHead endian head) wantsAgain c (some .ok, c')) :
    c'.outgoing = c.outgoing ++ wsHeadBytes head := by
  obtain ⟨n, hn⟩ := h
  obtain ⟨u, hu, hcall, -⟩ := Retries.of_retry hn
  have hsame : u.outgoing = c.outgoing := by
    refine hu.invariant (P := fun u => u.outgoing = c.outgoing) rfl fun u hu' hagain => ?_
    rw [wsWriteHead_waits hagain, hu']
  rw [wsWriteHead_outgoing hcall, hsame]

theorem WritesFrames.outgoing {fs : List WsFrame} {w w' : Htconn B}
    (h : WritesFrames endian fs w w') : w'.outgoing = w.outgoing ++ fs.flatMap wsFrameBytes := by
  induction h with
  | done calls hnone => rw [OutputCall.after_outgoing, hnone, List.flatMap_nil]
  | frame before calls pieces hbefore hhead hpieces hcalls _ ih =>
    rw [ih, OutputCall.after_outgoing, hcalls, wsWriteHead_settles hhead,
      OutputCall.after_outgoing, hbefore, wsXorChunks_mask, hpieces, List.flatMap_cons,
      wsFrameBytes]
    simp only [List.append_assoc, List.append_nil]

end Write

/-! ### Reading -/

/-- The bytes from the offset on: what has arrived and what is still to come. -/
def Htconn.ahead (c : Htconn B) : List UInt8 := B.unread c.input ++ arriving c.socket.recv

/-- Calls of `law_htc_ensure_input`, whatever they return. -/
def Htconn.fetch (c : Htconn B) (ns : List ℕ) : Htconn B :=
  ns.foldl (fun c n => (htcEnsureInput c n).2) c

/-- Frames are read one after the other: the start of the head and the rest of
it, each tried again while it asks to wait, and then the payload, of which
`law_ws_xor_apply` unmasks any pieces. -/
inductive ReadsFrames (endian : Endian) : Htconn B → List WsFrame → Htconn B → Prop
  | done (c : Htconn B) : ReadsFrames endian c [] c
  | frame {c c₁ c₂ c' : Htconn B} {head₀ head₁ head : WsHead}
      {call : WsHead → Htconn B → Err × WsHead × Htconn B} {fs : List WsFrame} (ns : List ℕ)
      {v : Vector UInt8 head.payloadLength.toNat} {input : B.Buf} (pieces : List (List UInt8)) :
      Settles (fun s => wsReadHeadStart s.1 s.2) Err.wants (head₀, c) (.ok, head₁, c₁) →
      wsReadHeadCall endian head₁ = some call →
      Settles (fun s => call s.1 s.2) Err.wants (head₁, c₁) (.ok, head, c₂) →
      B.get (c₂.fetch ns).input head.payloadLength.toNat = some (v, input) →
      pieces.flatten = v.toList →
      ReadsFrames endian { c₂.fetch ns with input := input } fs c' →
      ReadsFrames endian c
        (⟨head, (wsXorChunks (wsXorInit head.maskingKey) pieces).2.flatten⟩ :: fs) c'

section Read

variable {c c' : Htconn B} {n : ℕ} {e : Err} {endian : Endian} {head head' : WsHead}

theorem htcEnsureInput_ahead (c : Htconn B) (n : ℕ) :
    (htcEnsureInput c n).2.ahead = c.ahead ∧
      ((htcEnsureInput c n).1 = .ok → n ≤ (htcEnsureInput c n).2.unreadLen) := by
  have h := htcEnsureInput_ensuring n c
  rcases hcall : htcEnsureInput c n with ⟨e, u⟩
  rw [hcall] at h
  refine ⟨?_, fun hok => ?_⟩
  · rcases h.reading with hsame | ⟨result, hreading⟩
    · exact congrArg Htconn.ahead hsame
    · exact hreading.kept.bytes
  · obtain rfl : e = .ok := hok
    dsimp only at h
    generalize hout : Err.ok = out at h
    cases h with
    | refused => cases hout
    | enough _ henough => exact henough
    | arrived result _ _ _ _ =>
      split_ifs at hout with hlen
      exact hlen
    | failed result _ _ hreading hpos => exact absurd hout.symm (hreading.nothing hpos).2.1

@[simp] theorem Htconn.fetch_ahead (c : Htconn B) (ns : List ℕ) : (c.fetch ns).ahead = c.ahead := by
  induction ns generalizing c with
  | nil => rfl
  | cons n ns ih => exact (ih (htcEnsureInput c n).2).trans (htcEnsureInput_ahead c n).1

theorem get_ahead {v : Vector UInt8 n} {input : B.Buf} (h : B.get c.input n = some (v, input)) :
    c.ahead = v.toList ++ Htconn.ahead { c with input := input } := by
  have hlen : n ≤ B.fin c.input - B.tell c.input := by
    by_contra hlt
    rw [B.get_of_lt c.input n (Nat.not_le.mp hlt)] at h
    cases h
  obtain ⟨v', input', hget, hv, hmoved⟩ := B.get_of_le c.input n hlen
  obtain ⟨rfl, rfl⟩ := Prod.mk.inj (Option.some.inj (hget.symm.trans h))
  have hsplit : B.window c.input (B.tell c.input) (B.tell c.input + n) ++
      B.window c.input (B.tell c.input + n) (B.fin c.input) = B.unread c.input :=
    BufferOps.window_append (Nat.le_add_right _ _) (by have := B.tell_le c.input; omega)
  simp only [Htconn.ahead, BufferOps.unread, hmoved.tell, hmoved.fin, hmoved.window, hv]
  rw [← List.append_assoc, hsplit]
  rfl

/-- Once enough bytes are unread, the call goes on; else it ends, with nothing
used. -/
theorem htcEnsure_ahead {next : Htconn B → Err × WsHead × Htconn B}
    (h : htcEnsure n head c next = (e, head', c')) :
    (∃ u, u.ahead = c.ahead ∧ n ≤ u.unreadLen ∧ next u = (e, head', c')) ∨
      e ≠ .ok ∧ head' = head ∧ c'.ahead = c.ahead := by
  obtain ⟨hahead, henough⟩ := htcEnsureInput_ahead c n
  rcases hcall : htcEnsureInput c n with ⟨e₁, u⟩
  rw [hcall] at hahead henough
  by_cases hok : e₁ = .ok
  · subst hok
    rw [htcEnsure, hcall] at h
    exact .inl ⟨u, hahead, henough rfl, h⟩
  · have hstop : htcEnsure n head c next = (e₁, head, u) := by
      rw [htcEnsure, hcall]
      cases e₁ <;> first | rfl | exact absurd rfl hok
    obtain ⟨rfl, hrest⟩ := Prod.mk.inj (hstop.symm.trans h)
    obtain ⟨rfl, rfl⟩ := Prod.mk.inj hrest
    exact .inr ⟨hok, rfl, hahead⟩

theorem htcGet_ahead (head : WsHead) (next : Vector UInt8 n → Htconn B → Err × WsHead × Htconn B)
    (hlen : n ≤ c.unreadLen) : ∃ v u, htcGet n head c next = next v u ∧
      c.ahead = v.toList ++ u.ahead ∧ u.unreadLen = c.unreadLen - n := by
  obtain ⟨v, input, hget, -, hmoved⟩ := B.get_of_le c.input n hlen
  refine ⟨v, { c with input := input }, by rw [htcGet, hget], get_ahead hget, ?_⟩
  simp only [Htconn.unreadLen, hmoved.tell, hmoved.fin]
  omega

/-- A call of a reader ends with the next bytes used, or waits or fails with none
used. -/
inductive ReadCall (c : Htconn B) (head : WsHead) (used : List UInt8 → WsHead → Prop) :
    Err × WsHead × Htconn B → Prop
  | ok {bs : List UInt8} {head' : WsHead} {c' : Htconn B} : c.ahead = bs ++ c'.ahead →
      used bs head' → ReadCall c head used (.ok, head', c')
  | refused {head' : WsHead} {c' : Htconn B} : ReadCall c head used (.ws, head', c')
  | none {e : Err} {c' : Htconn B} : e ≠ .ok → c'.ahead = c.ahead →
      ReadCall c head used (e, head, c')

/-- What the start of a head says. -/
def Started (head₀ : WsHead) (bs : List UInt8) (head : WsHead) : Prop :=
  ∃ b₀ b₁, bs = [b₀, b₁] ∧
    head = ⟨b₀ >>> 7, b₀ &&& 0xF, head₀.maskingKey, (b₁ &&& 0x7F).toUInt64⟩

/-- What the rest of a small head says. -/
def SmallRest (head₀ : WsHead) (bs : List UInt8) (head : WsHead) : Prop :=
  ∃ key : Vector UInt8 4, bs = key.toList ∧ head = { head₀ with maskingKey := key }

/-- What the rest of a medium head says. -/
def MediumRest (endian : Endian) (head₀ : WsHead) (bs : List UInt8) (head : WsHead) : Prop :=
  ∃ (length : Vector UInt8 2) (key : Vector UInt8 4), bs = length.toList ++ key.toList ∧
    head = { head₀ with
      payloadLength := UInt64.ofNat (endian.ofNetwork 2 (endian.load length.toList)),
      maskingKey := key }

theorem pair_toList (v : Vector UInt8 2) : v.toList = [v.get 0, v.get 1] := by
  refine List.ext_getElem (by simp) fun i hi _ => ?_
  obtain rfl | rfl : i = 0 ∨ i = 1 := by
    rw [Vector.length_toList] at hi
    omega
  · rfl
  · rfl

theorem wsReadHeadStart_call (head : WsHead) (c : Htconn B) :
    ReadCall c head (Started head) (wsReadHeadStart head c) := by
  rcases hcall : wsReadHeadStart head c with ⟨e, head', c'⟩
  rcases htcEnsure_ahead hcall with ⟨u, hu, hlen, hnext⟩ | ⟨he, rfl, hsame⟩
  · obtain ⟨v, u', hget, hbytes, -⟩ := htcGet_ahead head _ hlen
    rw [hget] at hnext
    rw [← hnext]
    dsimp only
    split_ifs
    · exact .refused
    · exact .ok (hu.symm.trans hbytes) ⟨v.get 0, v.get 1, pair_toList v, rfl⟩
  · exact .none he hsame

theorem wsReadHeadSmall_call (head : WsHead) (c : Htconn B) :
    ReadCall c head (SmallRest head) (wsReadHeadSmall head c) := by
  rcases hcall : wsReadHeadSmall head c with ⟨e, head', c'⟩
  rcases htcEnsure_ahead hcall with ⟨u, hu, hlen, hnext⟩ | ⟨he, rfl, hsame⟩
  · obtain ⟨v, u', hget, hbytes, -⟩ := htcGet_ahead head
      (fun key c => (Err.ok, { head with maskingKey := key }, c)) hlen
    rw [hget] at hnext
    rw [← hnext]
    exact .ok (hu.symm.trans hbytes) ⟨v, rfl, rfl⟩
  · exact .none he hsame

theorem wsReadHeadMedium_call (endian : Endian) (head : WsHead) (c : Htconn B) :
    ReadCall c head (MediumRest endian head) (wsReadHeadMedium endian head c) := by
  rcases hcall : wsReadHeadMedium endian head c with ⟨e, head', c'⟩
  rcases htcEnsure_ahead hcall with ⟨u, hu, hlen, hnext⟩ | ⟨he, rfl, hsame⟩
  · obtain ⟨v, u', hget, hbytes, hlen'⟩ :=
      htcGet_ahead (n := 2) head _ (Nat.le_trans (by omega) hlen)
    rw [hget] at hnext
    obtain ⟨key, u'', hget', hbytes', -⟩ := htcGet_ahead _ _ (show 4 ≤ u'.unreadLen by omega)
    rw [hget'] at hnext
    rw [← hnext]
    refine .ok ?_ ⟨v, key, rfl, rfl⟩
    rw [← hu, hbytes, hbytes', List.append_assoc]
  · exact .none he hsame

/-- A reader that is called until it succeeds uses the next bytes once. -/
theorem ReadCall.settles {call : WsHead → Htconn B → Err × WsHead × Htconn B}
    {used : WsHead → List UInt8 → WsHead → Prop}
    (hcall : ∀ head c, ReadCall c head (used head) (call head c))
    (h : Settles (fun s : WsHead × Htconn B => call s.1 s.2) Err.wants (head, c)
      (.ok, head', c')) :
    ∃ bs, c.ahead = bs ++ c'.ahead ∧ used head bs head' := by
  obtain ⟨n, hn⟩ := h
  obtain ⟨⟨head₁, c₁⟩, hretries, hlast, -⟩ := Retries.of_retry hn
  have hsame : head₁ = head ∧ c₁.ahead = c.ahead := by
    refine hretries.invariant (P := fun s => s.1 = head ∧ s.2.ahead = c.ahead) ⟨rfl, rfl⟩ ?_
    rintro ⟨head₂, c₂⟩ ⟨rfl, hahead⟩ hagain
    have hc := hcall head₂ c₂
    dsimp only at hagain ⊢
    generalize call head₂ c₂ = out at hc hagain ⊢
    cases hc with
    | ok | refused => cases hagain
    | none _ hkept => exact ⟨rfl, hkept.trans hahead⟩
  obtain ⟨rfl, hahead⟩ := hsame
  have hc := hcall head₁ c₁
  dsimp only at hlast
  rw [hlast] at hc
  cases hc with
  | ok hbytes hused => exact ⟨_, hahead.symm.trans hbytes, hused⟩
  | none he _ => exact absurd rfl he

end Read

/-! ### From one end to the other -/

section Deliver

variable {c c₁ c₂ : Htconn B} {endian : Endian} {f : WsFrame} {rest bs : List UInt8}
  {head₀ head₁ head : WsHead} {call : WsHead → Htconn B → Err × WsHead × Htconn B}

/-- The head that is read is the one that was written. -/
theorem head_delivered (hf : f.Valid) (hbytes : c.ahead ++ rest = wsHeadBytes f.head ++ bs)
    (hstart : Settles (fun s => wsReadHeadStart s.1 s.2) Err.wants (head₀, c) (.ok, head₁, c₁))
    (hcall : wsReadHeadCall endian head₁ = some call)
    (hrest : Settles (fun s => call s.1 s.2) Err.wants (head₁, c₁) (.ok, head, c₂)) :
    head = f.head ∧ c₂.ahead ++ rest = bs := by
  obtain ⟨us, hus, b₀, b₁, rfl, rfl⟩ := ReadCall.settles wsReadHeadStart_call hstart
  obtain ⟨hfin, hop⟩ := wsFirstByte_fields hf.fin hf.opcode
  rw [hus, wsHeadBytes] at hbytes
  by_cases hsmall : f.head.payloadLength ≤ 125
  · obtain ⟨-, hlength⟩ := wsLengthByte_small hsmall
    rw [if_pos hsmall] at hbytes
    simp only [List.cons_append, List.nil_append, List.cons.injEq] at hbytes
    obtain ⟨rfl, rfl, hbytes⟩ := hbytes
    rw [hfin, hop, hlength] at hcall hrest
    obtain rfl : wsReadHeadSmall = call :=
      Option.some.inj ((if_pos hsmall).symm.trans hcall)
    obtain ⟨vs, hvs, key, rfl, rfl⟩ := ReadCall.settles wsReadHeadSmall_call hrest
    rw [hvs, List.append_assoc] at hbytes
    obtain ⟨hkey, hbytes⟩ := List.append_inj hbytes (by simp)
    exact ⟨WsHead.ext rfl rfl (Vector.toList_inj.mp hkey) rfl, hbytes⟩
  · rw [if_neg hsmall, if_pos hf.medium] at hbytes
    simp only [List.append_assoc, List.cons_append, List.nil_append, List.cons.injEq] at hbytes
    obtain ⟨rfl, rfl, hbytes⟩ := hbytes
    rw [hfin, hop, show ((0xFE : UInt8) &&& 0x7F).toUInt64 = 126 from rfl] at hcall hrest
    obtain rfl : wsReadHeadMedium endian = call := Option.some.inj hcall
    obtain ⟨vs, hvs, length, key, rfl, rfl⟩ :=
      ReadCall.settles (wsReadHeadMedium_call endian) hrest
    rw [hvs, List.append_assoc, List.append_assoc] at hbytes
    obtain ⟨hlength, hbytes⟩ := List.append_inj hbytes (by simp)
    obtain ⟨hkey, hbytes⟩ := List.append_inj hbytes (by simp)
    exact ⟨WsHead.ext rfl rfl (Vector.toList_inj.mp hkey)
      (wsLength_medium endian hf.medium hlength), hbytes⟩

/-- The payload that is read is the one that was written. -/
theorem payload_delivered (hf : f.Valid) {n : ℕ} {v : Vector UInt8 n} {input : B.Buf}
    {pieces : List (List UInt8)} (hn : n = f.head.payloadLength.toNat)
    (hbytes : c.ahead ++ rest = wsMask f.head.maskingKey f.payload ++ bs)
    (hget : B.get c.input n = some (v, input)) (hpieces : pieces.flatten = v.toList) :
    (wsXorChunks (wsXorInit f.head.maskingKey) pieces).2.flatten = f.payload ∧
      Htconn.ahead { c with input := input } ++ rest = bs := by
  rw [get_ahead hget, List.append_assoc] at hbytes
  have hlen : v.toList.length = (wsMask f.head.maskingKey f.payload).length := by
    rw [Vector.length_toList, wsMask, List.length_mapIdx, hf.length, hn]
  obtain ⟨hv, hrest⟩ := List.append_inj hbytes hlen
  exact ⟨by rw [wsXorChunks_mask, hpieces, hv, wsMask_wsMask], hrest⟩

/-- The frames that are read are the next ones, and the bytes of the others are
still ahead. -/
theorem ReadsFrames.delivered {c c' : Htconn B} {read fs : List WsFrame}
    (h : ReadsFrames endian c read c') (hfs : ∀ f ∈ fs, f.Valid)
    (hbytes : c.ahead ++ rest = fs.flatMap wsFrameBytes) :
    ∃ left, fs = read ++ left ∧ c'.ahead ++ rest = left.flatMap wsFrameBytes := by
  induction h generalizing fs with
  | done c => exact ⟨fs, rfl, hbytes⟩
  | frame ns pieces hstart hcall hhead hget hpieces _ ih =>
    rename_i c c₁ c₂ c' head₀ head₁ head call read v input _
    cases fs with
    | nil =>
      obtain ⟨us, hus, b₀, b₁, rfl, -⟩ := ReadCall.settles wsReadHeadStart_call hstart
      rw [hus] at hbytes
      cases hbytes
    | cons f fs =>
      have hf := hfs f List.mem_cons_self
      rw [List.flatMap_cons, wsFrameBytes, List.append_assoc] at hbytes
      obtain ⟨rfl, hbytes⟩ := head_delivered hf hbytes hstart hcall hhead
      rw [← Htconn.fetch_ahead c₂ ns] at hbytes
      obtain ⟨hpayload, hbytes⟩ := payload_delivered hf rfl hbytes hget hpieces
      obtain ⟨left, rfl, hleft⟩ := ih (fun g hg => hfs g (List.mem_cons_of_mem _ hg)) hbytes
      exact ⟨left, by rw [hpayload]; rfl, hleft⟩

end Deliver

/-- What one end reads is a first part of the frames the other end wrote, head by
head and byte by byte, whatever pieces either works in and however often it waits.
Of the frames behind them, the bytes are at the reader, under way, or still in the
output of the writer. -/
theorem ws_frames_delivered (B : ByteBuffer) (endian endian' : Endian) {fs read : List WsFrame}
    {w w' c c' : Htconn B} {underway : List UInt8} (hfs : ∀ f ∈ fs, f.Valid)
    (hwrites : WritesFrames endian fs w w') (hnew : w.outgoing = [])
    (hsent : c.ahead ++ underway = w'.socket.sent) (hreads : ReadsFrames endian' c read c') :
    ∃ left, fs = read ++ left ∧
      c'.ahead ++ underway ++ B.unread w'.output = left.flatMap wsFrameBytes := by
  have hbytes : c.ahead ++ (underway ++ B.unread w'.output) = fs.flatMap wsFrameBytes := by
    rw [← List.append_assoc, hsent]
    exact hwrites.outgoing.trans (by rw [hnew, List.nil_append])
  obtain ⟨left, hleft, hrest⟩ := hreads.delivered hfs hbytes
  exact ⟨left, hleft, by rw [List.append_assoc, hrest]⟩

/-- A text frame. -/
def helloFrame : WsFrame := ⟨wsText 5, [0x68, 0x65, 0x6C, 0x6C, 0x6F]⟩

/-- The end that writes it, and the end that it reaches in pieces. -/
def nearEnd : Htconn Ring.buffer := { wsConn with socket := ⟨[], [.sent 4, .sent 7], []⟩ }

def farEnd : Htconn Ring.buffer := { wsConn with socket := ⟨[.data 0x81 [], .wantRead,
  .data 0x85 [0x37, 0xFA, 0x21], .data 0x3D [0x5F, 0x9F, 0x4D, 0x51, 0x58]], [], []⟩ }

theorem helloFrame_valid : helloFrame.Valid := ⟨by decide, by decide, by decide, by decide⟩

/-- The calls that write the frame and send it. -/
def nearCalls : List OutputCall :=
  [.put [0x5F, 0x9F, 0x4D], .put [0x51, 0x58], .flush, .flush]

def nearHead : Htconn Ring.buffer := (wsWriteHead .little (wsText 5) nearEnd).2

theorem nearEnd_writes :
    WritesFrames .little [helloFrame] nearEnd (OutputCall.after nearHead nearCalls) := by
  have hhead : (wsWriteHead .little (wsText 5) nearEnd).1 = some .ok := by decide
  have hcall : wsWriteHead .little (wsText 5) nearEnd = (some .ok, nearHead) := Prod.ext hhead rfl
  refine .frame [] nearCalls [[0x68, 0x65, 0x6C], [0x6C, 0x6F]] rfl ⟨1, ?_⟩ rfl (by decide)
    (.nil .little _)
  change (if wantsAgain (wsWriteHead .little (wsText 5) nearEnd).1 then none else
    some (wsWriteHead .little (wsText 5) nearEnd)) = _
  rw [hhead, if_neg (by decide), hcall]

/-- The reader after the start of the head, after the head, and after the payload. -/
def farStart : Htconn Ring.buffer :=
  ((retry (fun s => wsReadHeadStart s.1 s.2) Err.wants 5 (wsText 0, farEnd)).map
    fun out => out.2.2).getD farEnd

def farHead : Htconn Ring.buffer :=
  ((retry (fun s => wsReadHeadSmall s.1 s.2) Err.wants 5 (wsText 5, farStart)).map
    fun out => out.2.2).getD farEnd

theorem farEnd_reads : ∃ c', ReadsFrames .big farEnd [helloFrame] c' := by
  have hstart : (retry (fun s => wsReadHeadStart s.1 s.2) Err.wants 5 (wsText 0, farEnd)).map
    (fun out => (out.1, out.2.1)) = some (.ok, wsText 5) := by decide
  have hhead : (retry (fun s => wsReadHeadSmall s.1 s.2) Err.wants 5 (wsText 5, farStart)).map
    (fun out => (out.1, out.2.1)) = some (.ok, wsText 5) := by decide
  have hbody : (Ring.buffer.get (farHead.fetch [5]).input 5).map (fun out => out.1.toList) =
    some [0x5F, 0x9F, 0x4D, 0x51, 0x58] := by decide
  obtain ⟨⟨e₁, head₁, c₁⟩, hcall₁, h₁⟩ := Option.map_eq_some_iff.mp hstart
  obtain ⟨rfl, rfl⟩ := Prod.mk.inj h₁
  have hc₁ : farStart = c₁ := by rw [farStart, hcall₁]; rfl
  obtain ⟨⟨e₂, head₂, c₂⟩, hcall₂, h₂⟩ := Option.map_eq_some_iff.mp hhead
  obtain ⟨rfl, rfl⟩ := Prod.mk.inj h₂
  have hc₂ : farHead = c₂ := by rw [farHead, hcall₂]; rfl
  obtain ⟨⟨v, input⟩, hget, hv⟩ := Option.map_eq_some_iff.mp hbody
  rw [hc₁] at hcall₂
  rw [hc₂] at hget
  exact ⟨_, .frame [5] [[0x5F, 0x9F], [0x4D, 0x51, 0x58]] ⟨5, hcall₁⟩ rfl ⟨5, hcall₂⟩ hget hv.symm
    (.done _)⟩

theorem ws_frames_delivered_hello : ∃ c', ReadsFrames .big farEnd [helloFrame] c' ∧
    ∃ left, [helloFrame] = [helloFrame] ++ left ∧
      c'.ahead ++ [] ++ Ring.buffer.unread (OutputCall.after nearHead nearCalls).output =
        left.flatMap wsFrameBytes := by
  obtain ⟨c', hreads⟩ := farEnd_reads
  refine ⟨c', hreads, ws_frames_delivered Ring.buffer .little .big ?_ nearEnd_writes rfl (by decide)
    hreads⟩
  intro f hf
  obtain rfl := List.mem_singleton.mp hf
  exact helloFrame_valid

end Lawd

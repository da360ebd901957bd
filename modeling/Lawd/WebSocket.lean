import Lawd.EnsureInput
import Lawd.Library.Bytes

/-!
# WebSocket frame heads

A head is two bytes, then nothing, two or eight bytes of payload length in
network order, then the masking key. The reader takes the first two bytes and
uses their length field to choose how to go on. It gives back what was written
as long as its buffer is large enough, except for the large heads, whose length
it reads and drops.
-/
namespace Lawd

open Library

/-- `struct law_ws_head`. -/
@[ext]
structure WsHead where
  fin : UInt8
  opcode : UInt8
  maskingKey : Vector UInt8 4
  payloadLength : UInt64
  deriving DecidableEq, Repr

variable {B : ByteBuffer}

/-- `SEL_TRY_QUIETLY`: go on after `LAW_ERR_OK`, return any other code. -/
def tryQuietly {σ : Type*} (call : Err × σ) (next : σ → Option Err × σ) : Option Err × σ :=
  match call with
  | (.ok, s) => next s
  | (e, s) => (some e, s)

/-- The first byte of a head. -/
def wsFirstByte (head : WsHead) : UInt8 := ((1 &&& head.fin) <<< 7) ||| head.opcode

/-- `law_ws_write_head_small`; without a code, the assertion has failed. -/
def wsWriteHeadSmall (head : WsHead) (c : Htconn B) : Option Err × Htconn B :=
  if head.payloadLength ≤ 125 then
    tryQuietly (htcEnsureOutput c 6) fun c =>
      tryQuietly (htcPut c [wsFirstByte head, ((1 : UInt8) <<< 7) ||| head.payloadLength.toUInt8])
        fun c =>
          let (e, c) := htcPut c head.maskingKey.toList
          (some e, c)
  else (none, c)

/-- `law_ws_write_head_medium` on a machine of the given byte order. -/
def wsWriteHeadMedium (endian : Endian) (head : WsHead) (c : Htconn B) :
    Option Err × Htconn B :=
  if head.payloadLength ≤ 65535 then
    tryQuietly (htcEnsureOutput c 8) fun c =>
      tryQuietly (htcPut c [wsFirstByte head, ((1 : UInt8) <<< 7) ||| 126]) fun c =>
        let paylen := endian.toNetwork 2 head.payloadLength.toUInt16.toNat
        tryQuietly (htcPut c (endian.store 2 paylen)) fun c =>
          let (e, c) := htcPut c head.maskingKey.toList
          (some e, c)
  else (none, c)

/-- `law_ws_write_head_large`. -/
def wsWriteHeadLarge (endian : Endian) (head : WsHead) (c : Htconn B) :
    Option Err × Htconn B :=
  tryQuietly (htcEnsureOutput c 14) fun c =>
    tryQuietly (htcPut c [wsFirstByte head, ((1 : UInt8) <<< 7) ||| 127]) fun c =>
      let paylen := endian.toNetwork 8 head.payloadLength.toNat
      tryQuietly (htcPut c (endian.store 8 paylen)) fun c =>
        let (e, c) := htcPut c head.maskingKey.toList
        (some e, c)

/-- `law_ws_write_head`. -/
def wsWriteHead (endian : Endian) (head : WsHead) (c : Htconn B) : Option Err × Htconn B :=
  if head.payloadLength ≤ 125 then wsWriteHeadSmall head c
  else if head.payloadLength ≤ 65535 then wsWriteHeadMedium endian head c
  else wsWriteHeadLarge endian head c

/-- `pgc_buf_get` on the input buffer, and what is done with the bytes. -/
def htcGet {α : Type*} (n : ℕ) (head : α) (c : Htconn B)
    (next : Vector UInt8 n → Htconn B → Err × α × Htconn B) : Err × α × Htconn B :=
  match B.get c.input n with
  | some (buf, input) => next buf { c with input := input }
  | none => (.oob, head, c)

/-- `law_htc_ensure_input`, and what is done when it succeeds. -/
def htcEnsure {α : Type*} (n : ℕ) (head : α) (c : Htconn B)
    (next : Htconn B → Err × α × Htconn B) : Err × α × Htconn B :=
  match htcEnsureInput c n with
  | (.ok, c) => next c
  | (e, c) => (e, head, c)

/-- `law_ws_read_head_start`. -/
def wsReadHeadStart (head : WsHead) (c : Htconn B) : Err × WsHead × Htconn B :=
  htcEnsure 2 head c fun c =>
    htcGet 2 head c fun buf c =>
      let head := { head with fin := buf[0] >>> 7, opcode := buf[0] &&& 0xF }
      if buf[1] &&& 0x80 = 0 then (.ws, head, c)
      else (.ok, { head with payloadLength := (buf[1] &&& 0x7F).toUInt64 }, c)

/-- `law_ws_read_head_small`. -/
def wsReadHeadSmall (head : WsHead) (c : Htconn B) : Err × WsHead × Htconn B :=
  htcEnsure 4 head c fun c =>
    htcGet 4 head c fun key c => (.ok, { head with maskingKey := key }, c)

/-- `law_ws_read_head_medium`. -/
def wsReadHeadMedium (endian : Endian) (head : WsHead) (c : Htconn B) :
    Err × WsHead × Htconn B :=
  htcEnsure 6 head c fun c =>
    htcGet 2 head c fun length c =>
      let head := { head with
        payloadLength := UInt64.ofNat (endian.ofNetwork 2 (endian.load length.toList)) }
      htcGet 4 head c fun key c => (.ok, { head with maskingKey := key }, c)

/-- `law_ws_read_head_large`: the length is converted, and not stored. -/
def wsReadHeadLarge (head : WsHead) (c : Htconn B) : Err × WsHead × Htconn B :=
  htcEnsure 12 head c fun c =>
    htcGet 8 head c fun _ c =>
      htcGet 4 head c fun key c => (.ok, { head with maskingKey := key }, c)

/-- The reader that `law_ws_read_head` selects by the length field; it has none
for lengths over 127, which `law_ws_read_head_start` does not give. -/
def wsReadHeadCall (endian : Endian) (head : WsHead) :
    Option (WsHead → Htconn B → Err × WsHead × Htconn B) :=
  if head.payloadLength ≤ 125 then some wsReadHeadSmall
  else if head.payloadLength = 126 then some (wsReadHeadMedium endian)
  else if head.payloadLength = 127 then some wsReadHeadLarge
  else none

/-- The bytes of a head: its two first bytes, its length, and its key. -/
def wsHeadBytes (head : WsHead) : List UInt8 :=
  if head.payloadLength ≤ 125 then
    [wsFirstByte head, 0x80 ||| head.payloadLength.toUInt8] ++ head.maskingKey.toList
  else if head.payloadLength ≤ 65535 then
    [wsFirstByte head, 0xFE] ++ Endian.big.store 2 head.payloadLength.toNat ++
      head.maskingKey.toList
  else
    [wsFirstByte head, 0xFF] ++ Endian.big.store 8 head.payloadLength.toNat ++
      head.maskingKey.toList

section Bytes

theorem wsFirstByte_bits : ∀ f : Fin 2, ∀ o : Fin 16,
    (((1 &&& UInt8.ofNat f) <<< 7) ||| UInt8.ofNat o) >>> 7 = UInt8.ofNat f ∧
      (((1 &&& UInt8.ofNat f) <<< 7) ||| UInt8.ofNat o) &&& 0xF = UInt8.ofNat o := by
  decide

theorem wsFirstByte_fields {head : WsHead} (hfin : head.fin ≤ 1) (hop : head.opcode < 16) :
    wsFirstByte head >>> 7 = head.fin ∧ wsFirstByte head &&& 0xF = head.opcode := by
  have hf : head.fin.toNat < 2 := Nat.lt_succ_of_le (UInt8.le_iff_toNat_le.mp hfin)
  have ho : head.opcode.toNat < 16 := UInt8.lt_iff_toNat_lt.mp hop
  have h := wsFirstByte_bits ⟨head.fin.toNat, hf⟩ ⟨head.opcode.toNat, ho⟩
  simp only [UInt8.ofNat_toNat] at h
  exact h

theorem wsLengthByte_bits : ∀ n : Fin 126,
    (0x80 ||| UInt8.ofNat n) &&& 0x80 ≠ 0 ∧
      ((0x80 ||| UInt8.ofNat n) &&& 0x7F).toUInt64 = UInt64.ofNat n := by
  decide

theorem wsLengthByte_small {p : UInt64} (hp : p ≤ 125) :
    (0x80 ||| p.toUInt8) &&& 0x80 ≠ 0 ∧ ((0x80 ||| p.toUInt8) &&& 0x7F).toUInt64 = p := by
  have hlt : p.toNat < 126 := Nat.lt_succ_of_le (UInt64.le_iff_toNat_le.mp hp)
  have h := wsLengthByte_bits ⟨p.toNat, hlt⟩
  rw [show UInt8.ofNat p.toNat = p.toUInt8 from rfl, UInt64.ofNat_toNat] at h
  exact h

theorem wsLength_medium (endian : Endian) {p : UInt64} (hp : p ≤ 65535) {bs : List UInt8}
    (hbs : bs = Endian.big.store 2 p.toNat) :
    UInt64.ofNat (endian.ofNetwork 2 (endian.load bs)) = p := by
  have hlt : p.toNat < 256 ^ 2 := Nat.lt_succ_of_le (UInt64.le_iff_toNat_le.mp hp)
  rw [endian.ofNetwork_load (by rw [hbs, Endian.store_length]), hbs,
    Endian.load_store_of_lt _ hlt, UInt64.ofNat_toNat]

end Bytes

/-! ### Writing -/

/-- What was appended to the output since its end was at `start`. -/
structure Wrote (start : ℕ) (bs : List UInt8) (c : Htconn B) : Prop where
  tell : B.tell c.output ≤ start
  fin : start ≤ B.fin c.output
  bytes : B.window c.output start (B.fin c.output) = bs

theorem htcPut_wrote {start : ℕ} {bs bs' : List UInt8} {c c' : Htconn B}
    (h : Wrote start bs c) (hput : htcPut c bs' = (.ok, c')) : Wrote start (bs ++ bs') c' := by
  simp only [htcPut] at hput
  split at hput
  · next output hput' =>
    obtain rfl := (Prod.mk.inj hput).2
    by_cases hroom : B.fin c.output - B.tell c.output + bs'.length ≤ B.max c.output
    · obtain ⟨b, hb, happ⟩ := B.put_of_le c.output bs' hroom
      obtain rfl : b = output := Option.some.inj (hb.symm.trans hput')
      refine ⟨happ.tell.trans_le h.tell, ?_, ?_⟩
      · rw [happ.fin]
        exact h.fin.trans (Nat.le_add_right _ _)
      · rw [happ.window h.tell h.fin, h.bytes]
    · rw [B.put_of_lt c.output bs' (Nat.not_le.mp hroom)] at hput'
      cases hput'
  · cases (Prod.mk.inj hput).1

theorem tryQuietly_ok {σ : Type*} {call : Err × σ} {next : σ → Option Err × σ} {t : σ}
    (h : tryQuietly call next = (some .ok, t)) :
    ∃ s, call = (.ok, s) ∧ next s = (some .ok, t) := by
  obtain ⟨e, s⟩ := call
  cases e with
  | ok => exact ⟨s, rfl, h⟩
  | _ => cases (Prod.mk.inj h).1

theorem wrote_start (c : Htconn B) (nbytes : ℕ) :
    Wrote (B.fin c.output) [] (htcEnsureOutput c nbytes).2 := by
  obtain ⟨k, hk, hmoved⟩ := htcEnsureOutput_moved c nbytes
  have htell := B.tell_le c.output
  refine ⟨?_, hmoved.fin.ge, ?_⟩
  · rw [hmoved.tell]
    omega
  · rw [hmoved.fin, hmoved.window]
    simp [BufferOps.window]

theorem htcPut_last {start : ℕ} {bs bs' : List UInt8} {c c' : Htconn B} (h : Wrote start bs c)
    (hput : ((fun p : Err × Htconn B => (some p.1, p.2)) (htcPut c bs')) = (some .ok, c')) :
    Wrote start (bs ++ bs') c' := by
  refine htcPut_wrote h ?_
  obtain ⟨he, hc⟩ := Prod.mk.inj hput
  exact Prod.ext (Option.some.inj he) hc

theorem wsWriteHead_wrote (endian : Endian) (head : WsHead) {c c' : Htconn B}
    (h : wsWriteHead endian head c = (some .ok, c')) :
    Wrote (B.fin c.output) (wsHeadBytes head) c' := by
  unfold wsWriteHead at h
  split_ifs at h with hsmall hmedium
  · simp only [wsWriteHeadSmall, if_pos hsmall] at h
    obtain ⟨c₁, h₁, h⟩ := tryQuietly_ok h
    obtain ⟨c₂, h₂, h⟩ := tryQuietly_ok h
    have hw := wrote_start c 6
    rw [h₁] at hw
    have hlast := htcPut_last (htcPut_wrote hw h₂) h
    rw [wsHeadBytes, if_pos hsmall]
    exact hlast
  · simp only [wsWriteHeadMedium, if_pos hmedium] at h
    obtain ⟨c₁, h₁, h⟩ := tryQuietly_ok h
    obtain ⟨c₂, h₂, h⟩ := tryQuietly_ok h
    obtain ⟨c₃, h₃, h⟩ := tryQuietly_ok h
    have hw := wrote_start c 8
    rw [h₁] at hw
    have hlast := htcPut_last (htcPut_wrote (htcPut_wrote hw h₂) h₃) h
    have hlen : head.payloadLength.toUInt16.toNat = head.payloadLength.toNat := by
      rw [UInt64.toNat_toUInt16]
      exact Nat.mod_eq_of_lt (Nat.lt_succ_of_le (UInt64.le_iff_toNat_le.mp hmedium))
    rw [hlen, Endian.store_toNetwork] at hlast
    rw [wsHeadBytes, if_neg hsmall, if_pos hmedium]
    exact hlast
  · simp only [wsWriteHeadLarge] at h
    obtain ⟨c₁, h₁, h⟩ := tryQuietly_ok h
    obtain ⟨c₂, h₂, h⟩ := tryQuietly_ok h
    obtain ⟨c₃, h₃, h⟩ := tryQuietly_ok h
    have hw := wrote_start c 14
    rw [h₁] at hw
    have hlast := htcPut_last (htcPut_wrote (htcPut_wrote hw h₂) h₃) h
    rw [Endian.store_toNetwork] at hlast
    rw [wsHeadBytes, if_neg hsmall, if_neg hmedium]
    exact hlast

/-! ### Reading -/

/-- The guard of a request for bytes that are unread already. -/
theorem htcEnsure_unread {α : Type*} {n : ℕ} {head : α} {c : Htconn B}
    {next : Htconn B → Err × α × Htconn B} {bs : List UInt8} (hbs : B.unread c.input = bs)
    (hn : n ≤ bs.length) (hlen : bs.length ≤ 14) :
    htcEnsure n head c next =
      if bs.length + n ≤ B.max c.input then next c else (.oob, head, c) := by
  have hunread : c.unreadLen = bs.length := by
    rw [← hbs, BufferOps.unread_length]
    rfl
  have hsum : sizeAdd c.unreadLen n = bs.length + n := by
    rw [sizeAdd, hunread]
    omega
  have hcall : htcEnsureInput c n =
      if bs.length + n ≤ B.max c.input then (.ok, c) else (.oob, c) := by
    by_cases hfit : bs.length + n ≤ B.max c.input
    · rw [if_pos hfit]
      refine (if_neg ?_).trans (if_pos ?_)
      · change ¬ sizeAdd c.unreadLen n > B.max c.input
        omega
      · change n ≤ c.unreadLen
        omega
    · rw [if_neg hfit]
      refine if_pos ?_
      change sizeAdd c.unreadLen n > B.max c.input
      omega
  rw [htcEnsure, hcall]
  split_ifs <;> rfl

/-- Taking bytes that are unread. -/
theorem htcGet_unread {α : Type*} {n : ℕ} (head : α) {c : Htconn B}
    (next : Vector UInt8 n → Htconn B → Err × α × Htconn B) {v : Vector UInt8 n}
    {rest : List UInt8} (hbs : B.unread c.input = v.toList ++ rest) :
    ∃ c', htcGet n head c next = next v c' ∧ B.unread c'.input = rest ∧
      B.max c'.input = B.max c.input := by
  obtain ⟨v', input, hget, hv, hrest, hmax⟩ := B.get_unread hbs v.length_toList
  obtain rfl := Vector.toList_inj.mp hv
  refine ⟨{ c with input := input }, ?_, hrest, hmax⟩
  rw [htcGet, hget]

/-- What reading a head should come to: every step succeeds, the head is the one
written, and its bytes are used up. -/
def HeadRead (endian : Endian) (head head₀ : WsHead) (c : Htconn B) : Prop :=
  ∃ head₁ c₁ call c₂, wsReadHeadStart head₀ c = (.ok, head₁, c₁) ∧
    wsReadHeadCall endian head₁ = some call ∧ call head₁ c₁ = (.ok, head, c₂) ∧
    B.unread c₂.input = []

/-- The heads a buffer of the given size can read: the small and the medium. -/
def HeadFits (head : WsHead) (max : ℕ) : Prop :=
  head.payloadLength ≤ 125 ∧ 8 ≤ max ∨
    125 < head.payloadLength ∧ head.payloadLength ≤ 65535 ∧ 12 ≤ max

/-- The first two bytes of a head. -/
theorem wsReadHeadStart_unread (head₀ : WsHead) {c : Htconn B} {b₀ b₁ : UInt8}
    {rest : List UInt8} (hbs : B.unread c.input = [b₀, b₁] ++ rest) (hrest : rest.length ≤ 12)
    (hmask : b₁ &&& 0x80 ≠ 0) :
    if rest.length + 4 ≤ B.max c.input then ∃ c₁, wsReadHeadStart head₀ c =
        (.ok, ⟨b₀ >>> 7, b₀ &&& 0xF, head₀.maskingKey, (b₁ &&& 0x7F).toUInt64⟩, c₁) ∧
      B.unread c₁.input = rest ∧ B.max c₁.input = B.max c.input
    else (wsReadHeadStart head₀ c).1 = .oob := by
  have hlen : ([b₀, b₁] ++ rest).length = rest.length + 2 := by simp
  rw [wsReadHeadStart, htcEnsure_unread hbs (by omega) (by omega), hlen]
  split_ifs with hfit
  · obtain ⟨c₁, hget, hunread, hmax⟩ := htcGet_unread (v := #v[b₀, b₁]) head₀ _ hbs
    rw [hget]
    refine ⟨c₁, ?_, hunread, hmax⟩
    exact if_neg hmask
  · rfl

section RoundTrip

variable {endian : Endian} {head head₀ : WsHead} {c : Htconn B}

/-- The mask bit is set in the second byte of every head, whose length field is
the length, or 126, or 127. -/
theorem wsReadHeadStart_stops {b₀ b₁ : UInt8} {rest : List UInt8}
    (hbs : B.unread c.input = [b₀, b₁] ++ rest) (hrest : rest.length ≤ 12)
    (hmask : b₁ &&& 0x80 ≠ 0) (h : HeadRead endian head head₀ c) :
    rest.length + 4 ≤ B.max c.input ∧ ∃ c₁ call c₂,
      wsReadHeadCall endian ⟨b₀ >>> 7, b₀ &&& 0xF, head₀.maskingKey, (b₁ &&& 0x7F).toUInt64⟩ =
        some call ∧
      call ⟨b₀ >>> 7, b₀ &&& 0xF, head₀.maskingKey, (b₁ &&& 0x7F).toUInt64⟩ c₁ =
        (.ok, head, c₂) ∧ B.unread c₁.input = rest ∧ B.max c₁.input = B.max c.input := by
  obtain ⟨head₁, c₁, call, c₂, hstart, hsel, hcall, -⟩ := h
  have hone := wsReadHeadStart_unread head₀ hbs hrest hmask
  split_ifs at hone with hfit
  · obtain ⟨c', heq, hunread, hmax⟩ := hone
    rw [heq] at hstart
    obtain ⟨rfl, rfl⟩ := Prod.mk.inj (Prod.mk.inj hstart).2
    exact ⟨hfit, c', call, c₂, hsel, hcall, hunread, hmax⟩
  · rw [hstart] at hone
    cases hone

theorem headRead_small (hfin : head.fin ≤ 1) (hop : head.opcode < 16)
    (hsmall : head.payloadLength ≤ 125) (hbs : B.unread c.input = wsHeadBytes head) :
    HeadRead endian head head₀ c ↔ 8 ≤ B.max c.input := by
  rw [wsHeadBytes, if_pos hsmall] at hbs
  obtain ⟨hmask, hlength⟩ := wsLengthByte_small hsmall
  have hkey : head.maskingKey.toList.length = 4 := head.maskingKey.length_toList
  constructor
  · intro h
    have hfit := (wsReadHeadStart_stops hbs (by omega) hmask h).1
    omega
  · intro hroom
    have hone := wsReadHeadStart_unread head₀ hbs (by omega) hmask
    rw [if_pos (by omega)] at hone
    obtain ⟨c₁, hstart, hunread, hmax⟩ := hone
    obtain ⟨hf, ho⟩ := wsFirstByte_fields hfin hop
    rw [hf, ho, hlength] at hstart
    rw [← List.append_nil head.maskingKey.toList] at hunread
    obtain ⟨c₂, hget, hdone, -⟩ := htcGet_unread
      (⟨head.fin, head.opcode, head₀.maskingKey, head.payloadLength⟩ : WsHead)
      (fun key c => (Err.ok, (⟨head.fin, head.opcode, key, head.payloadLength⟩ : WsHead), c))
        hunread
    refine ⟨_, c₁, wsReadHeadSmall, c₂, hstart, if_pos hsmall, ?_, hdone⟩
    rw [wsReadHeadSmall, htcEnsure_unread hunread (by simp) (by simp), if_pos]
    · exact hget
    · rw [hmax, List.append_nil, hkey]
      omega

theorem headRead_medium (hfin : head.fin ≤ 1) (hop : head.opcode < 16)
    (hsmall : ¬ head.payloadLength ≤ 125) (hmedium : head.payloadLength ≤ 65535)
    (hbs : B.unread c.input = wsHeadBytes head) :
    HeadRead endian head head₀ c ↔ 12 ≤ B.max c.input := by
  rw [wsHeadBytes, if_neg hsmall, if_pos hmedium, List.append_assoc] at hbs
  have hlen : (Endian.big.store 2 head.payloadLength.toNat ++
      head.maskingKey.toList).length = 6 := by
    rw [List.length_append, Endian.store_length, Vector.length_toList]
  obtain ⟨hf, ho⟩ := wsFirstByte_fields hfin hop
  constructor
  · intro h
    obtain ⟨-, c₁, call, c₂, hsel, hcall, hunread, hmax⟩ :=
      wsReadHeadStart_stops hbs (by omega) (by decide) h
    obtain rfl : wsReadHeadMedium endian = call := Option.some.inj hsel
    by_contra hroom
    rw [wsReadHeadMedium, htcEnsure_unread hunread (by omega) (by omega),
      if_neg (by omega)] at hcall
    cases (Prod.mk.inj hcall).1
  · intro hroom
    have hone := wsReadHeadStart_unread head₀ hbs (by omega) (by decide)
    rw [if_pos (by omega)] at hone
    obtain ⟨c₁, hstart, hunread, hmax⟩ := hone
    rw [hf, ho] at hstart
    obtain ⟨v, hv⟩ : ∃ v : Vector UInt8 2,
        v.toList = Endian.big.store 2 head.payloadLength.toNat :=
      ⟨⟨(Endian.big.store 2 head.payloadLength.toNat).toArray, by simp⟩, rfl⟩
    have hlength := wsLength_medium endian hmedium hv
    rw [← hv] at hunread
    obtain ⟨c₂, hread, hdone⟩ : ∃ c₂, wsReadHeadMedium endian
        ⟨head.fin, head.opcode, head₀.maskingKey, ((0xFE : UInt8) &&& 0x7F).toUInt64⟩ c₁ =
        (.ok, head, c₂) ∧ B.unread c₂.input = [] := by
      rw [wsReadHeadMedium, htcEnsure_unread hunread (by simp) (by simp),
        if_pos (by simp; omega)]
      obtain ⟨c₂, hget, hunread₂, -⟩ := htcGet_unread _ _ hunread
      rw [hget, hlength]
      rw [← List.append_nil head.maskingKey.toList] at hunread₂
      obtain ⟨c₃, hget', hdone, -⟩ := htcGet_unread _ _ hunread₂
      rw [hget']
      exact ⟨c₃, rfl, hdone⟩
    exact ⟨_, c₁, wsReadHeadMedium endian, c₂, hstart, rfl, hread, hdone⟩

theorem wsReadHeadLarge_length {head' : WsHead} {e : Err} {c' : Htconn B}
    (h : wsReadHeadLarge head c = (e, head', c')) :
    head'.payloadLength = head.payloadLength := by
  simp only [wsReadHeadLarge, htcEnsure, htcGet] at h
  split at h
  · split at h
    · split at h
      · obtain ⟨-, h⟩ := Prod.mk.inj h
        rw [← (Prod.mk.inj h).1]
      · obtain ⟨-, h⟩ := Prod.mk.inj h
        rw [← (Prod.mk.inj h).1]
    · obtain ⟨-, h⟩ := Prod.mk.inj h
      rw [← (Prod.mk.inj h).1]
  · obtain ⟨-, h⟩ := Prod.mk.inj h
    rw [← (Prod.mk.inj h).1]

theorem headRead_large (hlarge : 65535 < head.payloadLength)
    (hbs : B.unread c.input = wsHeadBytes head) : ¬ HeadRead endian head head₀ c := by
  intro h
  have hlt : (65535 : ℕ) < head.payloadLength.toNat := UInt64.lt_iff_toNat_lt.mp hlarge
  have hsmall : ¬ head.payloadLength ≤ 125 := fun hle => by
    have : head.payloadLength.toNat ≤ 125 := UInt64.le_iff_toNat_le.mp hle
    omega
  have hmedium : ¬ head.payloadLength ≤ 65535 := fun hle => by
    have : head.payloadLength.toNat ≤ 65535 := UInt64.le_iff_toNat_le.mp hle
    omega
  rw [wsHeadBytes, if_neg hsmall, if_neg hmedium, List.append_assoc] at hbs
  have hlen : (Endian.big.store 8 head.payloadLength.toNat ++
      head.maskingKey.toList).length ≤ 12 := by
    rw [List.length_append, Endian.store_length, Vector.length_toList]
  obtain ⟨-, c₁, call, c₂, hsel, hcall, -, -⟩ := wsReadHeadStart_stops hbs hlen (by decide) h
  obtain rfl : wsReadHeadLarge = call := Option.some.inj hsel
  have heq := wsReadHeadLarge_length hcall
  rw [heq] at hlt
  change 65535 < ((0xFF : UInt8) &&& 0x7F).toUInt64.toNat at hlt
  exact absurd hlt (by decide)

end RoundTrip

/-- A written head is read back from a buffer that holds exactly its bytes if and
only if it is small and the buffer has room for 8 bytes, or medium and the
buffer has room for 12. -/
theorem ws_head_round_trip_iff (B : ByteBuffer) (endian : Endian) (head head₀ : WsHead)
    (hfin : head.fin ≤ 1) (hop : head.opcode < 16) {w w' c : Htconn B}
    (hwrite : wsWriteHead endian head w = (some .ok, w'))
    (hbs : B.unread c.input = B.window w'.output (B.fin w.output) (B.fin w'.output)) :
    HeadRead endian head head₀ c ↔ HeadFits head (B.max c.input) := by
  rw [(wsWriteHead_wrote endian head hwrite).bytes] at hbs
  unfold HeadFits
  by_cases hsmall : head.payloadLength ≤ 125
  · rw [headRead_small hfin hop hsmall hbs]
    have hnot : ¬ 125 < head.payloadLength := UInt64.not_lt.mpr hsmall
    simp only [hsmall, hnot, true_and, false_and, or_false]
  · by_cases hmedium : head.payloadLength ≤ 65535
    · rw [headRead_medium hfin hop hsmall hmedium hbs]
      have hlt : 125 < head.payloadLength := UInt64.not_le.mp hsmall
      simp only [hsmall, hmedium, hlt, true_and, false_and, false_or]
    · have hread : ¬ HeadRead endian head head₀ c := headRead_large (UInt64.not_le.mp hmedium) hbs
      simp only [hread, hsmall, hmedium, false_and, and_false, or_false]

theorem wsConn_size : 64 < 2 ^ 64 := by decide

/-- A connection with empty rings of 64 bytes. -/
def wsConn : Htconn Ring.buffer where
  security := .unsecured
  input := Ring.init 64 wsConn_size
  output := Ring.init 64 wsConn_size
  socket := ⟨[], [], []⟩

/-- The connection whose input is what was written. -/
def loopback (c : Htconn Ring.buffer) : Htconn Ring.buffer := { c with input := c.output }

/-- A text frame of the given length. -/
def wsText (length : UInt64) : WsHead := ⟨1, 1, #v[0x37, 0xFA, 0x21, 0x3D], length⟩

theorem ws_head_round_trip_text : ∃ w',
    wsWriteHead .little (wsText 300) wsConn = (some .ok, w') ∧
      (HeadRead .little (wsText 300) (wsText 0) (loopback w') ↔ HeadFits (wsText 300) 64) := by
  have hok : (wsWriteHead .little (wsText 300) wsConn).1 = some .ok := by decide
  refine ⟨_, Prod.ext hok rfl, ?_⟩
  exact ws_head_round_trip_iff Ring.buffer .little (wsText 300) (wsText 0) (by decide)
    (by decide) (Prod.ext hok rfl) (by decide)

/-- A head of length 65536 is written, and read with the length 127. -/
theorem ws_head_large_dropped : ∃ w',
    wsWriteHead .little (wsText 65536) wsConn = (some .ok, w') ∧
      ¬ HeadRead .little (wsText 65536) (wsText 0) (loopback w') := by
  have hok : (wsWriteHead .little (wsText 65536) wsConn).1 = some .ok := by decide
  have hbs : Ring.buffer.unread
      (loopback (wsWriteHead .little (wsText 65536) wsConn).2).input =
      wsHeadBytes (wsText 65536) := by decide
  exact ⟨_, Prod.ext hok rfl, headRead_large (by decide) hbs⟩

end Lawd

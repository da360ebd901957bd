import Lawd.Library.Retry
import Lawd.Output
import Lawd.ReadScan
import Lawd.WebSocket

/-!
# Queueing WebSocket heads

A head goes into the output in two or three pieces. Before the first one, room is
made for all of them, so that the pieces behind it never fail, and a call that has
to wait for the room has queued none of them.
-/
namespace Lawd

open Library

variable {B : ByteBuffer}

/-- No write will take nothing without reporting an error. -/
def Htconn.Takes (c : Htconn B) : Prop := c.security = .unsecured → .sent 0 ∉ c.socket.send

/-- What no call changes but the socket's next answers, of which some are used up. -/
structure Answers (c c' : Htconn B) : Prop where
  security : c'.security = c.security
  send : c'.socket.send ⊆ c.socket.send

/-- The bytes are queued. -/
def Queues (c : Htconn B) (bs : List UInt8) (out : Option Err × Htconn B) : Prop :=
  ∃ c', out = (some .ok, c') ∧ c'.outgoing = c.outgoing ++ bs ∧ Answers c c'

/-- Nothing is queued, and the call says so. -/
def Refuses (c : Htconn B) (out : Option Err × Htconn B) : Prop :=
  ∃ e c', out = (some e, c') ∧ e ≠ .ok ∧ c'.outgoing = c.outgoing ∧ Answers c c'

variable {c c' : Htconn B} {bs rest : List UInt8} {n : ℕ}

theorem Answers.refl (c : Htconn B) : Answers c c := ⟨rfl, List.Subset.refl _⟩

theorem Answers.trans {c'' : Htconn B} (h : Answers c c') (h' : Answers c' c'') : Answers c c'' :=
  ⟨h'.security.trans h.security, List.Subset.trans h'.send h.send⟩

theorem Answers.takes (h : Answers c c') (hc : c.Takes) : c'.Takes := by
  intro hsec hmem
  exact hc (h.security.symm.trans hsec) (h.send hmem)

theorem Htconn.Takes.not_nothing (h : c.Takes) : ¬ c.TakesNothing := by
  rintro ⟨hsec, hhead⟩
  exact h hsec (List.mem_of_mem_head? hhead)

/-! ### The socket -/

theorem sendAtMost_subset (n : ℕ) (send : List SendResult) : (sendAtMost n send).2 ⊆ send := by
  rcases send with _ | ⟨_ | _ | _ | _ | _, rest⟩
  · exact List.Subset.refl _
  all_goals exact List.subset_cons_self _ _

theorem htcWriteData_answers (c : Htconn B) : Answers c (htcWriteData c).2 := by
  unfold htcWriteData
  dsimp only
  split_ifs
  · exact .refl c
  · simp only [bufWrite]
    split <;> exact ⟨rfl, sendAtMost_subset _ _⟩

theorem htcEnsureOutput_answers (c : Htconn B) (n : ℕ) : Answers c (htcEnsureOutput c n).2 := by
  unfold htcEnsureOutput
  dsimp only
  split_ifs
  · exact .refl c
  · exact .refl c
  all_goals exact htcWriteData_answers c

/-! ### The pieces -/

theorem htcPut_room (h : bs.length ≤ c.room) : ∃ c', htcPut c bs = (.ok, c') ∧
    c'.outgoing = c.outgoing ++ bs ∧ c'.room + bs.length = c.room ∧ Answers c c' := by
  have htell := B.tell_le c.output
  have hfin := B.fin_le c.output
  have hfits : B.fin c.output - B.tell c.output + bs.length ≤ B.max c.output := by
    simp only [Htconn.room, Htconn.unwritten] at h
    omega
  obtain ⟨output, hput, happ⟩ := B.put_of_le c.output bs hfits
  refine ⟨{ c with output := output }, by simp only [htcPut, hput], ?_, ?_, rfl,
    List.Subset.refl _⟩
  · have hwin := happ.window le_rfl htell
    simp only [Htconn.outgoing, BufferOps.unread, happ.tell, hwin, List.append_assoc]
  · simp only [Htconn.room, Htconn.unwritten, happ.max, happ.fin, happ.tell]
    omega

theorem htcPut_full (h : c.room < bs.length) : htcPut c bs = (.oob, c) := by
  have htell := B.tell_le c.output
  have hfin := B.fin_le c.output
  have hnone : B.put c.output bs = none := by
    refine B.put_of_lt c.output bs ?_
    simp only [Htconn.room, Htconn.unwritten] at h
    omega
  rw [htcPut, hnone]

theorem queues_last (h : bs.length ≤ c.room) :
    Queues c bs ((fun p : Err × Htconn B => (some p.1, p.2)) (htcPut c bs)) := by
  obtain ⟨c', hput, hout, -, hans⟩ := htcPut_room h
  exact ⟨c', by rw [hput], hout, hans⟩

theorem queues_then {next : Htconn B → Option Err × Htconn B}
    (h : bs.length + rest.length ≤ c.room)
    (hnext : ∀ c', rest.length ≤ c'.room → Queues c' rest (next c')) :
    Queues c (bs ++ rest) (tryQuietly (htcPut c bs) next) := by
  obtain ⟨c₁, hput, hout, hroom, hans⟩ := htcPut_room (Nat.le_of_add_right_le h)
  obtain ⟨c₂, hcall, hout', hans'⟩ := hnext c₁ (by omega)
  refine ⟨c₂, ?_, ?_, hans.trans hans'⟩
  · rw [hput]
    exact hcall
  · rw [hout', hout, List.append_assoc]

/-- Room is made, or the call ends before the first piece. -/
theorem ensure_queues {next : Htconn B → Option Err × Htconn B} (hc : c.Takes)
    (hnext : ∀ c', n ≤ c'.room → Queues c' bs (next c')) :
    Queues c bs (tryQuietly (htcEnsureOutput c n) next) ∨
      Refuses c (tryQuietly (htcEnsureOutput c n) next) := by
  have hans := htcEnsureOutput_answers c n
  have hout : (htcEnsureOutput c n).2.outgoing = c.outgoing := by
    have h := OutputCall.make_outgoing (.ensureOutput n) c
    exact h.trans (List.append_nil _)
  have hroom := (htcEnsureOutput_ok_iff c n).mpr fun h => hc.not_nothing h.1
  rcases hcall : htcEnsureOutput c n with ⟨e, c₁⟩
  rw [hcall] at hans hout hroom
  by_cases he : e = .ok
  · subst he
    obtain ⟨c₂, hcall', hout', hans'⟩ := hnext c₁ (hroom rfl)
    exact .inl ⟨c₂, hcall', by rw [hout', hout], hans.trans hans'⟩
  · refine .inr ⟨e, c₁, ?_, he, hout, hans⟩
    cases e with
    | ok => exact absurd rfl he
    | _ => rfl

theorem htcEnsureOutput_room (h : n ≤ c.room) : htcEnsureOutput c n = (.ok, c) := by
  have hroom : c.room = B.max c.output - (B.fin c.output - B.tell c.output) := rfl
  unfold htcEnsureOutput
  rw [if_neg (by omega), if_pos (by omega)]

/-! ### The heads -/

/-- The size that `law_ws_write_head` asks for: 6, 8 or 14 bytes. -/
def wsHeadSize (head : WsHead) : ℕ :=
  if head.payloadLength ≤ 125 then 6 else if head.payloadLength ≤ 65535 then 8 else 14

@[simp] theorem wsHeadBytes_length (head : WsHead) :
    (wsHeadBytes head).length = wsHeadSize head := by
  unfold wsHeadBytes wsHeadSize
  split_ifs <;> simp

theorem wsWriteHead_pieces (endian : Endian) (head : WsHead) (c : Htconn B) : ∃ next,
    wsWriteHead endian head c = tryQuietly (htcEnsureOutput c (wsHeadSize head)) next ∧
      ∀ c', wsHeadSize head ≤ c'.room → Queues c' (wsHeadBytes head) (next c') := by
  unfold wsWriteHead wsHeadBytes wsHeadSize
  split_ifs with hsmall hmedium
  · simp only [wsWriteHeadSmall, if_pos hsmall]
    refine ⟨_, rfl, fun c₁ hroom => queues_then (by simpa using hroom) fun c₂ hroom => ?_⟩
    exact queues_last hroom
  · simp only [wsWriteHeadMedium, if_pos hmedium]
    have hlen : head.payloadLength.toUInt16.toNat = head.payloadLength.toNat := by
      rw [UInt64.toNat_toUInt16]
      exact Nat.mod_eq_of_lt (Nat.lt_succ_of_le (UInt64.le_iff_toNat_le.mp hmedium))
    rw [hlen, Endian.store_toNetwork, List.append_assoc]
    refine ⟨_, rfl, fun c₁ hroom => queues_then (by simpa using hroom) fun c₂ hroom => ?_⟩
    exact queues_then (by simpa using hroom) fun c₃ hroom => queues_last hroom
  · simp only [wsWriteHeadLarge]
    rw [Endian.store_toNetwork, List.append_assoc]
    refine ⟨_, rfl, fun c₁ hroom => queues_then (by simpa using hroom) fun c₂ hroom => ?_⟩
    exact queues_then (by simpa using hroom) fun c₃ hroom => queues_last hroom

theorem wsWriteHead_queues (endian : Endian) (head : WsHead) (hc : c.Takes) :
    Queues c (wsHeadBytes head) (wsWriteHead endian head c) ∨
      Refuses c (wsWriteHead endian head c) := by
  obtain ⟨next, hcall, hnext⟩ := wsWriteHead_pieces endian head c
  rw [hcall]
  exact ensure_queues hc hnext

theorem wsWriteHead_room (endian : Endian) {head : WsHead} (h : wsHeadSize head ≤ c.room) :
    Queues c (wsHeadBytes head) (wsWriteHead endian head c) := by
  obtain ⟨next, hcall, hnext⟩ := wsWriteHead_pieces endian head c
  rw [hcall, htcEnsureOutput_room h]
  exact hnext c h

theorem retries_wait (endian : Endian) (head : WsHead) (hc : c.Takes)
    (h : Retries (wsWriteHead endian head) wantsAgain c c') :
    c'.outgoing = c.outgoing ∧ Answers c c' := by
  refine h.invariant (P := fun u => u.outgoing = c.outgoing ∧ Answers c u) ⟨rfl, .refl c⟩ ?_
  rintro u ⟨hout, hans⟩ hagain
  rcases wsWriteHead_queues endian head (hans.takes hc) with
    ⟨u', hcall, -, -⟩ | ⟨e, u', hcall, -, hout', hans'⟩
  · rw [hcall] at hagain
    cases hagain
  · rw [hcall]
    exact ⟨hout'.trans hout, hans.trans hans'⟩

/-- A call of `law_ws_write_head` appends the 6, 8 or 14 bytes of the head and
returns `LAW_ERR_OK`, as it does where so many are free, or appends nothing and
returns another code. Calls that are repeated while they ask to wait, until one
succeeds, append them once. -/
theorem ws_write_head_whole (B : ByteBuffer) (endian : Endian) (head : WsHead) (c : Htconn B)
    (hc : c.Takes) :
    (∃ e c', wsWriteHead endian head c = (some e, c') ∧
      ((e = .ok ∧ c'.outgoing = c.outgoing ++ wsHeadBytes head) ∨
        (e ≠ .ok ∧ c'.outgoing = c.outgoing))) ∧
    (wsHeadSize head ≤ c.room → (wsWriteHead endian head c).1 = some .ok) ∧
    (wsHeadBytes head).length = wsHeadSize head ∧
    ∀ c', Settles (wsWriteHead endian head) wantsAgain c (some .ok, c') →
      c'.outgoing = c.outgoing ++ wsHeadBytes head := by
  refine ⟨?_, fun hroom => ?_, wsHeadBytes_length head, ?_⟩
  · rcases wsWriteHead_queues endian head hc with
      ⟨c', hcall, hout, -⟩ | ⟨e, c', hcall, he, hout, -⟩
    · exact ⟨.ok, c', hcall, .inl ⟨rfl, hout⟩⟩
    · exact ⟨e, c', hcall, .inr ⟨he, hout⟩⟩
  · obtain ⟨c', hcall, -⟩ := wsWriteHead_room endian hroom
    rw [hcall]
  · rintro c' ⟨n, hn⟩
    obtain ⟨u, hu, hcall, -⟩ := Retries.of_retry hn
    obtain ⟨hout, hans⟩ := retries_wait endian head hc hu
    rcases wsWriteHead_queues endian head (hans.takes hc) with
      ⟨u', hcall', hout', -⟩ | ⟨e, u', hcall', he, -, -⟩
    · obtain rfl : u' = c' := congrArg Prod.snd (hcall'.symm.trans hcall)
      rw [hout', hout]
    · exact absurd (Option.some.inj (congrArg Prod.fst (hcall'.symm.trans hcall))) he

theorem busyConn_size : 16 < 2 ^ 64 := by decide

/-- A ring of 16 bytes with 12 of them queued, and a socket that is busy once. -/
def busyConn : Htconn Ring.buffer where
  security := .unsecured
  input := Ring.init 16 busyConn_size
  output := (Ring.buffer.put (Ring.init 16 busyConn_size) (List.replicate 12 0)).getD
    (Ring.init 16 busyConn_size)
  socket := ⟨[], [.wantWrite, .sent 2, .sent 5], []⟩

theorem ws_write_head_whole_busy : ∃ c',
    Settles (wsWriteHead .little (wsText 300)) wantsAgain busyConn (some .ok, c') ∧
      c'.outgoing = busyConn.outgoing ++ wsHeadBytes (wsText 300) := by
  have hc : busyConn.Takes := fun _ => by decide
  have hrun : ((retry (wsWriteHead .little (wsText 300)) wantsAgain 4 busyConn).map Prod.fst) =
      some (some .ok) := by decide
  obtain ⟨⟨e, c'⟩, hcall, rfl⟩ := Option.map_eq_some_iff.mp hrun
  exact ⟨c', ⟨4, hcall⟩,
    (ws_write_head_whole Ring.buffer .little (wsText 300) busyConn hc).2.2.2 c' ⟨4, hcall⟩⟩

end Lawd

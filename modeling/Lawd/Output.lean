import Lawd.Response

/-!
# The output of a connection

Bytes are queued in the output buffer and leave it through the socket. Whatever
calls are made, the bytes that were handed over and those that still wait are
the bytes that were queued. A count of 0 from `write` is not told apart from
`LAW_ERR_OK`: there, and only there, flushing and making room succeed too soon.
-/
namespace Lawd

open Library

variable {B : ByteBuffer}

namespace Htconn

/-- The bytes that are queued and not handed over. -/
def unwritten (c : Htconn B) : ℕ := B.fin c.output - B.tell c.output

/-- The space that is free. -/
def room (c : Htconn B) : ℕ := B.max c.output - c.unwritten

/-- What was handed over, and then what waits. -/
def outgoing (c : Htconn B) : List UInt8 := c.socket.sent ++ B.unread c.output

/-- The next `write` takes nothing and reports no error. -/
def TakesNothing (c : Htconn B) : Prop :=
  c.security = .unsecured ∧ c.socket.send.head? = some (.sent 0)

end Htconn

/-- What `law_htc_write_data` can do. -/
inductive Writing (c : Htconn B) : IoResult → Htconn B → Prop
  | empty : c.unwritten = 0 → Writing c (.code .ok) c
  | sent (k : ℕ) (output : B.Buf) (send : List SendResult) : c.unwritten ≠ 0 →
      k ≤ c.unwritten → B.Moved c.output output (B.tell c.output + k) →
      (k = 0 ↔ c.TakesNothing) → Writing c (.count k)
        { c with output := output, socket := { c.socket with
          send := send, sent := c.socket.sent ++ B.window c.output (B.tell c.output)
            (B.tell c.output + k) } }
  | fails (e : Err) (send : List SendResult) : c.unwritten ≠ 0 → e ≠ .ok → ¬ c.TakesNothing →
      Writing c (.code e) { c with socket := { c.socket with send := send } }

theorem writeCb_error {security : Security} {a : SendResult} {e : Err}
    (h : security.writeCb a = .error e) : e ≠ .ok := by
  cases security with
  | unsecured => cases a <;> cases h <;> decide
  | ssl =>
    cases a with
    | sent n =>
      simp only [Security.writeCb, bufSslWriteCb] at h
      split_ifs at h
      cases h
      decide
    | wantRead | wantWrite | syscall | failed => cases h; decide

theorem writeCb_zero_iff (c : Htconn B) {n : ℕ} (hn : n ≠ 0) :
    c.security.writeCb (sendAtMost n c.socket.send).1 = .ok 0 ↔ c.TakesNothing := by
  constructor
  · intro h
    obtain ⟨hsent, -⟩ := writeCb_ok h
    rw [hsent] at h
    refine ⟨?_, ?_⟩
    · cases hsec : c.security with
      | unsecured => rfl
      | ssl =>
        rw [hsec] at h
        cases h
    · cases hsend : c.socket.send with
      | nil =>
        rw [hsend] at hsent
        cases hsent
      | cons a rest =>
        rw [hsend] at hsent
        cases a with
        | sent j =>
          have hmin : min j n = 0 := SendResult.sent.inj hsent
          rw [List.head?_cons, show j = 0 from by omega]
        | wantRead | wantWrite | syscall | failed => cases hsent
  · rintro ⟨hsec, hhead⟩
    obtain ⟨rest, hsend⟩ := List.head?_eq_some_iff.mp hhead
    rw [hsec, hsend]
    simp only [sendAtMost, Nat.zero_min]
    rfl

theorem htcWriteData_writing (c : Htconn B) :
    Writing c (htcWriteData c).1 (htcWriteData c).2 := by
  by_cases hblock : c.unwritten = 0
  · have hblock' : B.fin c.output - B.tell c.output = 0 := hblock
    simp only [htcWriteData, hblock', if_true]
    exact .empty hblock
  · have hblock' : B.fin c.output - B.tell c.output ≠ 0 := hblock
    have hzero := writeCb_zero_iff c hblock
    simp only [htcWriteData, hblock', if_false, bufWrite]
    rw [Htconn.unwritten] at hzero
    cases hcb : c.security.writeCb
        (sendAtMost (B.fin c.output - B.tell c.output) c.socket.send).1 with
    | ok k =>
      obtain ⟨-, hk⟩ := writeCb_ok hcb
      rw [hcb, Except.ok.injEq] at hzero
      exact .sent k _ _ hblock hk (B.drain_of_le c.output k hk) hzero
    | error e =>
      refine .fails e _ hblock (writeCb_error hcb) fun hnothing => ?_
      rw [hcb] at hzero
      cases hzero.mpr hnothing

theorem Writing.outgoing {c c' : Htconn B} {result : IoResult} (h : Writing c result c') :
    c'.outgoing = c.outgoing := by
  cases h with
  | empty _ => rfl
  | fails e send _ _ _ => rfl
  | sent k output send _ hk hmoved _ =>
    have hfin : B.tell c.output + k ≤ B.fin c.output := by
      have htell := B.tell_le c.output
      unfold Htconn.unwritten at hk
      omega
    simp only [Htconn.outgoing, BufferOps.unread, hmoved.tell, hmoved.fin, hmoved.window]
    rw [List.append_assoc, BufferOps.window_append (Nat.le_add_right _ _) hfin]

/-- Where a result is `LAW_ERR_OK` though a byte waited, nothing was taken. -/
theorem Writing.nothing {c c' : Htconn B} {result : IoResult} (h : Writing c result c')
    (hblock : c.unwritten ≠ 0) (hpos : result.positive = false) :
    result.err = .ok ↔ c.TakesNothing := by
  cases h with
  | empty hempty => exact absurd hempty hblock
  | fails e send _ he hnot => exact iff_of_false he hnot
  | sent k output send _ _ _ hzero =>
    have hk : k = 0 := Nat.eq_zero_of_not_pos (of_decide_eq_false hpos)
    exact iff_of_true rfl (hzero.mp hk)

theorem Writing.positive {c c' : Htconn B} {result : IoResult} (h : Writing c result c')
    (hpos : result.positive = true) :
    ¬ c.TakesNothing ∧ B.fin c'.output = B.fin c.output ∧ B.max c'.output = B.max c.output := by
  cases h with
  | empty _ => cases hpos
  | fails e send _ _ _ => cases hpos
  | sent k output send _ _ hmoved hzero =>
    have hk : k ≠ 0 := Nat.ne_of_gt (of_decide_eq_true hpos)
    exact ⟨fun hnothing => hk (hzero.mpr hnothing), hmoved.fin, hmoved.max⟩

theorem Writing.waits {c c' : Htconn B} {result : IoResult} (h : Writing c result c')
    (hpos : result.positive = false) :
    c'.unwritten = c.unwritten ∧ B.max c'.output = B.max c.output := by
  cases h with
  | empty _ => exact ⟨rfl, rfl⟩
  | fails e send _ _ _ => exact ⟨rfl, rfl⟩
  | sent k output send _ _ hmoved _ =>
    obtain rfl : k = 0 := Nat.eq_zero_of_not_pos (of_decide_eq_false hpos)
    refine ⟨?_, hmoved.max⟩
    simp only [Htconn.unwritten, hmoved.fin, hmoved.tell, Nat.add_zero]

/-- A flush that returns `LAW_ERR_OK` has left nothing, unless nothing was taken. -/
theorem htcFlush_ok_iff (c : Htconn B) :
    ((htcFlush c).1 = .ok → (htcFlush c).2.unwritten = 0) ↔
      ¬ (c.TakesNothing ∧ c.unwritten ≠ 0) := by
  have hw := htcWriteData_writing c
  unfold htcFlush
  by_cases hblock : c.unwritten = 0
  · have hblock' : B.fin c.output - B.tell c.output = 0 := hblock
    rw [if_pos hblock']
    exact iff_of_true (fun _ => hblock) fun h => h.2 hblock
  · have hblock' : B.fin c.output - B.tell c.output ≠ 0 := hblock
    rw [if_neg hblock']
    cases hpos : (htcWriteData c).1.positive with
    | false =>
      have hwaits := (hw.waits hpos).1
      simp only [hpos, Bool.not_false, if_true, hw.nothing hblock hpos, hwaits]
      tauto
    | true =>
      obtain ⟨hnot, hfin, -⟩ := hw.positive hpos
      simp only [hpos, Bool.not_true, Bool.false_eq_true, if_false]
      refine iff_of_true (fun hok => ?_) fun h => hnot h.1
      rw [← hfin] at hok
      split_ifs at hok with hall
      exact hall

/-- Room is made when `LAW_ERR_OK` is returned, unless it was needed and nothing
was taken. -/
theorem htcEnsureOutput_ok_iff (c : Htconn B) (nbytes : ℕ) :
    ((htcEnsureOutput c nbytes).1 = .ok → nbytes ≤ (htcEnsureOutput c nbytes).2.room) ↔
      ¬ (c.TakesNothing ∧ c.room < nbytes ∧ nbytes ≤ B.max c.output) := by
  have hw := htcWriteData_writing c
  unfold htcEnsureOutput
  dsimp only
  by_cases hmax : nbytes > B.max c.output
  · rw [if_pos hmax]
    exact iff_of_true (fun h => by cases h) fun h => absurd h.2.2 (Nat.not_le.mpr hmax)
  rw [if_neg hmax]
  by_cases hroom : c.room ≥ nbytes
  · have hroom' : B.max c.output - (B.fin c.output - B.tell c.output) ≥ nbytes := hroom
    rw [if_pos hroom']
    exact iff_of_true (fun _ => hroom) fun h => absurd h.2.1 (Nat.not_lt.mpr hroom)
  · have hroom' : ¬ B.max c.output - (B.fin c.output - B.tell c.output) ≥ nbytes := hroom
    have hblock : c.unwritten ≠ 0 := fun hnone => by
      simp only [Htconn.room, hnone] at hroom
      omega
    rw [if_neg hroom']
    cases hpos : (htcWriteData c).1.positive with
    | false =>
      obtain ⟨hwaits, hsame⟩ := hw.waits hpos
      have hstill : (htcWriteData c).2.room = c.room := by
        rw [Htconn.room, hwaits, hsame, Htconn.room]
      simp only [Bool.not_false, if_true, hw.nothing hblock hpos, hstill]
      exact ⟨fun h hall => hroom (h hall.1), fun h hnothing =>
        absurd ⟨hnothing, Nat.not_le.mp hroom, Nat.not_lt.mp hmax⟩ h⟩
    | true =>
      obtain ⟨hnot, hfin, hsame⟩ := hw.positive hpos
      simp only [Bool.not_true, Bool.false_eq_true, if_false]
      refine iff_of_true (fun hok => ?_) fun h => hnot h.1
      rw [← hfin, ← hsame] at hok
      split_ifs at hok with hall
      exact hall

/-! ### Sequences of calls -/

/-- The calls on the output of a connection. -/
inductive OutputCall where
  | put (bs : List UInt8)
  | writeData
  | ensureOutput (nbytes : ℕ)
  | flush
  deriving DecidableEq, Repr

namespace OutputCall

/-- Make a call. -/
def make : OutputCall → Htconn B → Err × Htconn B
  | put bs, c => htcPut c bs
  | writeData, c => ((htcWriteData c).1.err, (htcWriteData c).2)
  | ensureOutput nbytes, c => htcEnsureOutput c nbytes
  | flush, c => htcFlush c

/-- What `LAW_ERR_OK` says of the connection afterwards. -/
def Says : OutputCall → Htconn B → Prop
  | ensureOutput nbytes, c => nbytes ≤ c.room
  | flush, c => c.unwritten = 0
  | _, _ => True

/-- The call needs a write that takes nothing. -/
def Stalls : OutputCall → Htconn B → Prop
  | ensureOutput nbytes, c => c.TakesNothing ∧ c.room < nbytes ∧ nbytes ≤ B.max c.output
  | flush, c => c.TakesNothing ∧ c.unwritten ≠ 0
  | _, _ => False

/-- The bytes that a call queues. -/
def queues : OutputCall → Htconn B → List UInt8
  | put bs, c => if (htcPut c bs).1 = .ok then bs else []
  | _, _ => []

/-- The connection after the calls. -/
def after (c : Htconn B) : List OutputCall → Htconn B
  | [] => c
  | call :: calls => after (call.make c).2 calls

/-- The bytes that the calls queue. -/
def queued (c : Htconn B) : List OutputCall → List UInt8
  | [] => []
  | call :: calls => call.queues c ++ queued (call.make c).2 calls

theorem says_iff (call : OutputCall) (c : Htconn B) :
    ((call.make c).1 = .ok → call.Says (call.make c).2) ↔ ¬ call.Stalls c := by
  cases call with
  | put bs => exact iff_of_true (fun _ => trivial) id
  | writeData => exact iff_of_true (fun _ => trivial) id
  | ensureOutput nbytes => exact htcEnsureOutput_ok_iff c nbytes
  | flush => exact htcFlush_ok_iff c

theorem put_outgoing (bs : List UInt8) (c : Htconn B) :
    (htcPut c bs).2.outgoing = c.outgoing ++ (put bs).queues c := by
  obtain ⟨-, output, hput, htext, -⟩ | ⟨-, hput⟩ := htcPut_cases c bs
  · simp only [queues, hput, if_true, Htconn.outgoing, htext, List.append_assoc]
  · simp [queues, hput]

@[simp] theorem make_outgoing (call : OutputCall) (c : Htconn B) :
    (call.make c).2.outgoing = c.outgoing ++ call.queues c := by
  have hw := (htcWriteData_writing c).outgoing
  have hnone : c.outgoing = c.outgoing ++ [] := (List.append_nil _).symm
  cases call with
  | put bs => exact put_outgoing bs c
  | writeData => exact hw.trans hnone
  | ensureOutput nbytes =>
    refine Eq.trans ?_ hnone
    simp only [make, htcEnsureOutput]
    split_ifs <;> first | rfl | exact hw
  | flush =>
    refine Eq.trans ?_ hnone
    simp only [make, htcFlush]
    split_ifs <;> first | rfl | exact hw

/-- Over any calls, the bytes handed over and those that wait are those that were
queued, in order. -/
@[simp] theorem after_outgoing (calls : List OutputCall) (c : Htconn B) :
    (after c calls).outgoing = c.outgoing ++ queued c calls := by
  induction calls generalizing c with
  | nil => exact (List.append_nil _).symm
  | cons call calls ih => rw [after, ih, make_outgoing, List.append_assoc, queued]

end OutputCall

/-- Over a sequence of calls each `LAW_ERR_OK` means what it says, and the bytes
handed over are the queued ones, if and only if no call needs a write that takes
nothing. -/
theorem output_ok_iff (B : ByteBuffer) (c : Htconn B) (calls : List OutputCall) :
    ((∀ made call rest, calls = made ++ call :: rest →
        (call.make (OutputCall.after c made)).1 = .ok →
        call.Says (call.make (OutputCall.after c made)).2) ∧
      (OutputCall.after c calls).outgoing = c.outgoing ++ OutputCall.queued c calls) ↔
    ∀ made call rest, calls = made ++ call :: rest →
      ¬ call.Stalls (OutputCall.after c made) := by
  refine ⟨fun h made call rest heq => ?_, fun h => ⟨fun made call rest heq => ?_, ?_⟩⟩
  · exact (call.says_iff _).mp (h.1 made call rest heq)
  · exact (call.says_iff _).mpr (h made call rest heq)
  · exact OutputCall.after_outgoing calls c

/-- A ring of one byte that is queued. -/
def fullConn : Htconn Ring.buffer where
  security := .unsecured
  input := Ring.init 1 (by decide)
  output := (Ring.buffer.put (Ring.init 1 (by decide)) ['x'.toUInt8]).getD (Ring.init 1 (by decide))
  socket := ⟨[], [.sent 0], []⟩

/-- The byte is not taken, and both calls return `LAW_ERR_OK`. -/
theorem output_ok_zero :
    ((htcFlush fullConn).1 = .ok ∧ (htcFlush fullConn).2.unwritten ≠ 0) ∧
    (htcEnsureOutput fullConn 1).1 = .ok ∧ ¬ 1 ≤ (htcEnsureOutput fullConn 1).2.room := by
  decide

end Lawd

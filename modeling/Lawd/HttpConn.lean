import Lawd.Buffer

/-!
# HTTP connections

A connection reads from its socket into the input buffer and writes from the
output buffer to the socket, never more than the buffer has room for. What one
read can do is said once, and the calls built on it use that.
-/
namespace Lawd

open Library

/-- `enum law_htc_security_mode`. -/
inductive Security where
  | ssl
  | unsecured
  deriving DecidableEq, Repr

/-- The callback with which a connection reads. -/
def Security.readCb : Security → RecvResult → Except Err (List UInt8)
  | .unsecured => bufReadCb
  | .ssl => bufSslReadCb

/-- The callback with which a connection writes. -/
def Security.writeCb : Security → SendResult → Except Err ℕ
  | .unsecured => bufWriteCb
  | .ssl => bufSslWriteCb

/-- `law_htconn_t`, with the system's side of its socket. -/
structure Htconn (B : ByteBuffer) where
  security : Security
  input : B.Buf
  output : B.Buf
  socket : Socket

/-- The sum of two `size_t`. -/
def sizeAdd (a b : ℕ) : ℕ := (a + b) % 2 ^ 64

section Calls

variable {B : ByteBuffer}

/-- `law_htc_read_data`. -/
def htcReadData (c : Htconn B) : IoResult × Htconn B :=
  let block := B.fin c.input - B.tell c.input
  let avail := B.max c.input - block
  if avail = 0 then (.code .oob, c)
  else
    let (result, input, socket) := bufRead B c.security.readCb c.input c.socket avail
    (result, { c with input := input, socket := socket })

/-- `law_htc_ensure_input`. -/
def htcEnsureInput (c : Htconn B) (nbytes : ℕ) : Err × Htconn B :=
  let offset := B.tell c.input
  let fin := B.fin c.input
  if sizeAdd (fin - offset) nbytes > B.max c.input then (.oob, c)
  else if B.fin c.input - offset ≥ nbytes then (.ok, c)
  else
    let (result, c) := htcReadData c
    if !result.positive then (result.err, c)
    else (if B.fin c.input - offset ≥ nbytes then .ok else .wantr, c)

/-- `law_htc_write_data`. -/
def htcWriteData (c : Htconn B) : IoResult × Htconn B :=
  let block := B.fin c.output - B.tell c.output
  if block = 0 then (.code .ok, c)
  else
    let (result, output, socket) := bufWrite B c.security.writeCb c.output c.socket block
    (result, { c with output := output, socket := socket })

/-- `law_htc_ensure_output`. -/
def htcEnsureOutput (c : Htconn B) (nbytes : ℕ) : Err × Htconn B :=
  let fin := B.fin c.output
  let max := B.max c.output
  let unwritten := fin - B.tell c.output
  if nbytes > max then (.oob, c)
  else if max - unwritten ≥ nbytes then (.ok, c)
  else
    let (result, c) := htcWriteData c
    if !result.positive then (result.err, c)
    else
      let unwritten := fin - B.tell c.output
      (if max - unwritten ≥ nbytes then .ok else .wantw, c)

/-- `law_htc_flush`. -/
def htcFlush (c : Htconn B) : Err × Htconn B :=
  let fin := B.fin c.output
  if fin - B.tell c.output = 0 then (.ok, c)
  else
    let (result, c) := htcWriteData c
    if !result.positive then (result.err, c)
    else (if fin - B.tell c.output = 0 then .ok else .wantw, c)

/-- `pgc_buf_put` on the output buffer. -/
def htcPut (c : Htconn B) (bs : List UInt8) : Err × Htconn B :=
  match B.put c.output bs with
  | some output => (.ok, { c with output := output })
  | none => (.oob, c)

/-- The results of a read after which `law_htc_read_scan` still scans. -/
def scanOn (e : Err) : Bool := e = .wantw || e = .wantr || e = .eof || e = .oob

/-- `law_htc_read_scan`; without a code, an assertion or test has failed. -/
def htcReadScan (base : ℕ) (delim : List UInt8) (c : Htconn B) : Option Err × Htconn B :=
  if delim = [] then (none, c)
  else
    let max := B.max c.input
    if max < delim.length then (some .oob, c)
    else
      let offset := B.tell c.input
      match B.seek c.input base with
      | none => (some .oob, c)
      | some input =>
        let (result, c) := htcReadData { c with input := input }
        match B.seek c.input offset with
        | none => (none, c)
        | some input =>
          if !result.positive && !scanOn result.err then
            (some result.err, { c with input := input })
          else
            let (found, input) := B.scan input delim
            let c := { c with input := input }
            if found then (some .ok, c)
            else if B.fin c.input - base ≥ max then (some .oob, c)
            else if result.positive then (some .wantr, c)
            else (some result.err, c)

end Calls

/-- Nothing fails in the system: reads deliver, ask to wait, or meet the end. -/
def Streams (security : Security) (recv : List RecvResult) : Prop :=
  ∀ a ∈ recv, a ≠ .syscall ∧ a ≠ .failed ∧ (security = .unsecured → a ≠ .wantWrite)

instance (security : Security) (recv : List RecvResult) : Decidable (Streams security recv) :=
  inferInstanceAs (Decidable (∀ a ∈ recv, _))

@[simp] theorem readCb_data (security : Security) (b : UInt8) (bs : List UInt8) :
    security.readCb (.data b bs) = .ok (b :: bs) := by
  cases security <;> rfl

@[simp] theorem readCb_closed (security : Security) : security.readCb .closed = .error .eof := by
  cases security <;> rfl

theorem readCb_code (security : Security) {a : RecvResult} (hdata : ∀ b bs, a ≠ .data b bs)
    (hclosed : a ≠ .closed) : ∃ e, security.readCb a = .error e ∧
      (e.wants = true ∨ (e = .sys ∨ e = .ssl) ∧ ∀ recv, a ∈ recv → ¬ Streams security recv) := by
  have hno : (a = .syscall ∨ a = .failed ∨ security = .unsecured ∧ a = .wantWrite) →
      ∀ recv, a ∈ recv → ¬ Streams security recv := by
    intro h recv hmem hs
    obtain ⟨hsys, hfail, hwant⟩ := hs a hmem
    rcases h with h | h | ⟨hsec, h⟩
    · exact hsys h
    · exact hfail h
    · exact hwant hsec h
  cases a with
  | data b bs => exact absurd rfl (hdata b bs)
  | closed => exact absurd rfl hclosed
  | wantRead => cases security <;> exact ⟨_, rfl, .inl rfl⟩
  | wantWrite =>
    cases security with
    | ssl => exact ⟨_, rfl, .inl rfl⟩
    | unsecured => exact ⟨_, rfl, .inr ⟨.inl rfl, hno (by simp)⟩⟩
  | syscall => cases security <;> exact ⟨_, rfl, .inr ⟨.inl rfl, hno (by simp)⟩⟩
  | failed =>
    cases security with
    | ssl => exact ⟨_, rfl, .inr ⟨.inr rfl, hno (by simp)⟩⟩
    | unsecured => exact ⟨_, rfl, .inr ⟨.inl rfl, hno (by simp)⟩⟩

variable {B : ByteBuffer}

/-- The room after the offset is used up. -/
def Htconn.Full (c : Htconn B) : Prop := B.max c.input ≤ B.fin c.input - B.tell c.input

/-- What `law_htc_read_data` can do. -/
inductive Reading (c : Htconn B) : IoResult → Htconn B → Prop
  | full : c.Full → Reading c (.code .oob) c
  | data (bs : List UInt8) (input : B.Buf) (recv : List RecvResult) : bs ≠ [] →
      B.fin c.input - B.tell c.input + bs.length ≤ B.max c.input →
      B.Appended c.input input bs → arriving c.socket.recv = bs ++ arriving recv →
      recvSize recv < recvSize c.socket.recv →
      (Streams c.security c.socket.recv → Streams c.security recv) →
      Reading c (.count bs.length)
        { c with input := input, socket := { c.socket with recv := recv } }
  | eof : ¬ c.Full → arriving c.socket.recv = [] → Reading c (.code .eof) c
  | waits (e : Err) (recv : List RecvResult) : ¬ c.Full → e.wants = true →
      arriving recv = arriving c.socket.recv → recvSize recv < recvSize c.socket.recv →
      (Streams c.security c.socket.recv → Streams c.security recv) →
      Reading c (.code e) { c with socket := { c.socket with recv := recv } }
  | fails (e : Err) (recv : List RecvResult) : e = .sys ∨ e = .ssl →
      arriving recv = arriving c.socket.recv → ¬ Streams c.security c.socket.recv →
      Reading c (.code e) { c with socket := { c.socket with recv := recv } }

theorem htcReadData_reading (c : Htconn B) : Reading c (htcReadData c).1 (htcReadData c).2 := by
  by_cases havail : B.max c.input - (B.fin c.input - B.tell c.input) = 0
  · have hfull : c.Full := by
      unfold Htconn.Full
      omega
    simp only [htcReadData, havail, if_true]
    exact .full hfull
  · have hfull : ¬ c.Full := by
      unfold Htconn.Full
      omega
    simp only [htcReadData, havail, if_false, bufRead]
    rcases recvAtMost_spec havail c.socket.recv with
      ⟨b, bs, rest, hrecv, hlen, harr, hsize, hmem⟩ | ⟨hrecv, harr⟩ |
      ⟨a, rest, hrecv, hcons, harr, hsize, hdata, hclosed⟩
    · simp only [hrecv, readCb_data]
      have hroom : B.fin c.input - B.tell c.input + (b :: bs).length ≤ B.max c.input := by
        rw [List.length_cons]
        omega
      refine .data (b :: bs) _ rest (by simp) hroom (B.fill_of_le _ _ hroom) harr hsize ?_
      intro hs a ha
      rcases hmem a ha with h | ⟨b', bs', rfl⟩
      · exact hs a h
      · simp
    · simp only [hrecv, readCb_closed]
      exact .eof hfull harr
    · obtain ⟨e, he, hkind⟩ := readCb_code c.security hdata hclosed
      simp only [hrecv, he]
      rcases hkind with hwants | ⟨hfails, hno⟩
      · refine .waits e rest hfull hwants harr hsize fun hs a' ha' => hs a' ?_
        rw [hcons]
        exact List.mem_cons_of_mem _ ha'
      · exact .fails e rest hfails harr (hno _ (by rw [hcons]; exact List.mem_cons_self))

/-- A read leaves the offset, loses no byte after it, and appends what it takes
from the stream. -/
structure Kept (c c' : Htconn B) : Prop where
  security : c'.security = c.security
  max : B.max c'.input = B.max c.input
  tell : B.tell c'.input = B.tell c.input
  fin : B.fin c.input ≤ B.fin c'.input
  bytes : B.unread c'.input ++ arriving c'.socket.recv = B.unread c.input ++ arriving c.socket.recv
  streams : Streams c.security c.socket.recv → Streams c'.security c'.socket.recv

theorem Reading.kept {c c' : Htconn B} {result : IoResult} (h : Reading c result c') :
    Kept c c' := by
  cases h with
  | full _ => exact ⟨rfl, rfl, rfl, le_rfl, rfl, id⟩
  | eof _ _ => exact ⟨rfl, rfl, rfl, le_rfl, rfl, id⟩
  | waits e recv _ _ harr _ hs => exact ⟨rfl, rfl, rfl, le_rfl, congrArg _ harr, hs⟩
  | fails e recv _ harr hno =>
    exact ⟨rfl, rfl, rfl, le_rfl, congrArg _ harr, fun hs => absurd hs hno⟩
  | data bs input recv _ _ happ harr _ hs =>
    refine ⟨rfl, happ.max, happ.tell, by rw [happ.fin]; omega, ?_, hs⟩
    have hwin := happ.window le_rfl (B.tell_le c.input)
    simp only [BufferOps.unread, happ.tell]
    rw [hwin, harr, List.append_assoc]

theorem writeCb_ok {security : Security} {n k : ℕ} {send : List SendResult}
    (h : security.writeCb (sendAtMost n send).1 = .ok k) :
    (sendAtMost n send).1 = .sent k ∧ k ≤ n := by
  have hsent : (sendAtMost n send).1 = .sent k := by
    cases ha : (sendAtMost n send).1 with
    | sent j =>
      rw [ha] at h
      cases security with
      | unsecured => rw [Except.ok.inj h]
      | ssl =>
        simp only [Security.writeCb, bufSslWriteCb] at h
        split_ifs at h
        rw [Except.ok.inj h]
    | wantRead | wantWrite | syscall | failed => rw [ha] at h; cases security <;> cases h
  refine ⟨hsent, ?_⟩
  cases send with
  | nil => cases hsent
  | cons a rest =>
    cases a with
    | sent j =>
      rw [← SendResult.sent.inj hsent]
      exact min_le_right j n
    | wantRead | wantWrite | syscall | failed => cases hsent

theorem htcWriteData_moved (c : Htconn B) : ∃ k, k ≤ B.fin c.output - B.tell c.output ∧
    B.Moved c.output (htcWriteData c).2.output (B.tell c.output + k) := by
  have hsame : B.Moved c.output c.output (B.tell c.output + 0) := ⟨rfl, rfl, rfl, fun _ => rfl⟩
  by_cases hblock : B.fin c.output - B.tell c.output = 0
  · simp only [htcWriteData, hblock, if_true]
    exact ⟨0, Nat.zero_le _, hsame⟩
  · simp only [htcWriteData, hblock, if_false, bufWrite]
    cases hcb : c.security.writeCb
        (sendAtMost (B.fin c.output - B.tell c.output) c.socket.send).1 with
    | ok k =>
      obtain ⟨-, hk⟩ := writeCb_ok hcb
      exact ⟨k, hk, B.drain_of_le c.output k hk⟩
    | error e => exact ⟨0, Nat.zero_le _, hsame⟩

theorem htcEnsureOutput_moved (c : Htconn B) (nbytes : ℕ) :
    ∃ k, k ≤ B.fin c.output - B.tell c.output ∧
      B.Moved c.output (htcEnsureOutput c nbytes).2.output (B.tell c.output + k) := by
  have hsame : B.Moved c.output c.output (B.tell c.output + 0) := ⟨rfl, rfl, rfl, fun _ => rfl⟩
  unfold htcEnsureOutput
  dsimp only
  split_ifs
  · exact ⟨0, Nat.zero_le _, hsame⟩
  · exact ⟨0, Nat.zero_le _, hsame⟩
  · exact htcWriteData_moved c
  · exact htcWriteData_moved c
  · exact htcWriteData_moved c

end Lawd

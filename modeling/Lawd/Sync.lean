import Lawd.Base

/-!
# Blocking calls

`law_sync` makes a call until it succeeds, fails or runs out of time. Between
two calls it asks for the event the call wants and suspends its task.
-/
namespace Lawd

/-- What one round of `law_sync` is told: the answer to its call, the clock, and
whether `law_ectl` and the insertion into the timer succeed. -/
structure SyncRound (α : Type) where
  answer : α
  now : Time
  ectl : Bool
  inserts : Bool
  deriving Repr

/-- The loop of `law_sync`, with `law_sync_wait`. Without a result the calls go on,
or the task is not woken again. `law_ewait` returns a number of events or
`LAW_ERR_OOM`, so its result is never `LAW_ERR_TIME`. -/
def lawSyncLoop {α σ : Type} (callback : α → σ → Err × σ) (suspend : σ → Option σ)
    (expiry : Time) : List (SyncRound α) → σ → Option (Err × σ)
  | [], _ => none
  | r :: rounds, s =>
    match callback r.answer s with
    | (err, s) =>
      if err = .ok then some (.ok, s)
      else if expiry ≤ r.now then some (.time, s)
      else if err.wants then
        if r.ectl then
          if r.inserts then (suspend s).bind (lawSyncLoop callback suspend expiry rounds)
          else lawSyncLoop callback suspend expiry rounds s
        else some (.sys, s)
      else some (err, s)

/-- `law_sync`, called when the clock is at `start`. -/
def lawSync {α σ : Type} (callback : α → σ → Err × σ) (suspend : σ → Option σ)
    (timeout start : Time) (rounds : List (SyncRound α)) (s : σ) : Option (Err × σ) :=
  lawSyncLoop callback suspend (start + timeout) rounds s

/-- The suspension of a task that leaves the state as it is. `law_sync_wait` waits
without a buffer for events, so that the wake-up fails the assertion of
`law_task_push_event`; whether the task goes on depends on that being checked. -/
def resumed {σ : Type} (wakes : Bool) (s : σ) : Option σ := if wakes then some s else none

theorem resumed_some {σ : Type} {wakes : Bool} {s s' : σ} (h : resumed wakes s = some s') :
    s' = s := by
  unfold resumed at h
  split_ifs at h
  exact (Option.some.inj h).symm

variable {α σ : Type} {callback : α → σ → Err × σ} {suspend : σ → Option σ} {expiry : Time}
  {timeout start : Time}

/-- What each call and each suspension keeps, `law_sync` keeps. -/
theorem lawSync_invariant {I : σ → Prop} (hcall : ∀ a s, I s → I (callback a s).2)
    (hsuspend : ∀ s s', I s → suspend s = some s' → I s') {rounds : List (SyncRound α)} {s s' : σ}
    {err : Err} (h : lawSync callback suspend timeout start rounds s = some (err, s')) (hs : I s) :
    I s' := by
  unfold lawSync at h
  induction rounds generalizing s with
  | nil => cases h
  | cons r rounds ih =>
    have hnext := hcall r.answer s hs
    simp only [lawSyncLoop] at h
    split_ifs at h with hok htime hwants hectl hins
    · obtain ⟨-, rfl⟩ := Prod.mk.inj (Option.some.inj h)
      exact hnext
    · obtain ⟨-, rfl⟩ := Prod.mk.inj (Option.some.inj h)
      exact hnext
    · obtain ⟨t, ht, h⟩ := Option.bind_eq_some_iff.mp h
      exact ih h (hsuspend _ _ hnext ht)
    · exact ih h hnext
    · obtain ⟨-, rfl⟩ := Prod.mk.inj (Option.some.inj h)
      exact hnext
    · obtain ⟨-, rfl⟩ := Prod.mk.inj (Option.some.inj h)
      exact hnext

/-- What the calls keep that do not succeed holds where the last call was made, and
after it unless it has succeeded. A result that is not that of the last call is
`LAW_ERR_TIME` or `LAW_ERR_SYS`. -/
theorem lawSync_run {I : σ → Prop}
    (hcall : ∀ a s, I s → (callback a s).1 ≠ .ok → I (callback a s).2)
    (hsuspend : ∀ s s', I s → suspend s = some s' → I s') {rounds : List (SyncRound α)} {s s' : σ}
    {err : Err} (h : lawSync callback suspend timeout start rounds s = some (err, s')) (hs : I s) :
    (err ≠ .ok → I s') ∧ (err ≠ .time → err ≠ .sys →
      ∃ a t, I t ∧ callback a t = (err, s') ∧ err.wants = false) := by
  unfold lawSync at h
  induction rounds generalizing s with
  | nil => cases h
  | cons r rounds ih =>
    have hnext := hcall r.answer s hs
    simp only [lawSyncLoop] at h
    split_ifs at h with hok htime hwants hectl hins
    · obtain ⟨rfl, rfl⟩ := Prod.mk.inj (Option.some.inj h)
      exact ⟨fun hne => absurd rfl hne, fun _ _ => ⟨r.answer, s, hs, Prod.ext hok rfl, rfl⟩⟩
    · obtain ⟨rfl, rfl⟩ := Prod.mk.inj (Option.some.inj h)
      exact ⟨fun _ => hnext hok, fun hne => absurd rfl hne⟩
    · obtain ⟨t, ht, h⟩ := Option.bind_eq_some_iff.mp h
      exact ih h (hsuspend _ _ (hnext hok) ht)
    · exact ih h (hnext hok)
    · obtain ⟨rfl, rfl⟩ := Prod.mk.inj (Option.some.inj h)
      exact ⟨fun _ => hnext hok, fun _ hne => absurd rfl hne⟩
    · obtain ⟨rfl, rfl⟩ := Prod.mk.inj (Option.some.inj h)
      exact ⟨fun _ => hnext hok, fun _ _ =>
        ⟨r.answer, s, hs, rfl, Bool.eq_false_iff.mpr hwants⟩⟩

/-- A round whose clock has reached the end of the time is the last, where the task
is always woken. -/
theorem lawSync_returns (hsuspend : ∀ s, (suspend s).isSome = true) {rounds : List (SyncRound α)}
    (h : ∃ r ∈ rounds, start + timeout ≤ r.now) (s : σ) :
    (lawSync callback suspend timeout start rounds s).isSome = true := by
  unfold lawSync
  induction rounds generalizing s with
  | nil =>
    obtain ⟨r, hr, -⟩ := h
    cases hr
  | cons r rounds ih =>
    have hrest : ¬ start + timeout ≤ r.now → ∃ q ∈ rounds, start + timeout ≤ q.now := by
      intro htime
      obtain ⟨q, hq, hdue⟩ := h
      rcases List.mem_cons.mp hq with rfl | hq
      · exact absurd hdue htime
      · exact ⟨q, hq, hdue⟩
    simp only [lawSyncLoop]
    split_ifs with hok htime
    · rfl
    · rfl
    · obtain ⟨t, ht⟩ := Option.isSome_iff_exists.mp (hsuspend (callback r.answer s).2)
      rw [ht, Option.bind_some]
      exact ih (hrest htime) t
    · exact ih (hrest htime) _
    · rfl
    · rfl

/-! ### What happens in turn -/

/-- What happens during `law_sync`: a call with its code and the clock that is
read after it, a wait in `law_ewait` and whether its entry was inserted into the
timer, and a suspension. -/
inductive SyncEvent where
  | called (err : Err) (now : Time)
  | waited (inserts : Bool)
  | suspended
  deriving DecidableEq, Repr

/-- The events of `lawSyncLoop` in turn. -/
def syncTrace {α σ : Type} (callback : α → σ → Err × σ) (suspend : σ → Option σ) (expiry : Time) :
    List (SyncRound α) → σ → List SyncEvent
  | [], _ => []
  | r :: rounds, s =>
    match callback r.answer s with
    | (err, s) =>
      .called err r.now ::
        if err = .ok then []
        else if expiry ≤ r.now then []
        else if err.wants then
          if r.ectl then
            .waited r.inserts ::
              if r.inserts then
                .suspended :: (suspend s).elim [] (syncTrace callback suspend expiry rounds)
              else syncTrace callback suspend expiry rounds s
          else []
        else []

/-- The last call: its code, and the clock that is read after it. -/
def lastCall : List SyncEvent → Option (Err × Time)
  | [] => none
  | .called err now :: trace => (lastCall trace).or (some (err, now))
  | .waited _ :: trace => lastCall trace
  | .suspended :: trace => lastCall trace

/-- How `law_sync` goes on after a call. -/
inductive SyncResult (expiry : Time) (err : Err) (now : Time) : Err → Prop
  | ok : err = .ok → SyncResult expiry err now .ok
  | time : err ≠ .ok → expiry ≤ now → SyncResult expiry err now .time
  | sys : now < expiry → err.wants = true → SyncResult expiry err now .sys
  | fails : now < expiry → err ≠ .ok → err.wants = false → SyncResult expiry err now err

/-- The last call decides the result. -/
theorem lawSync_ends {rounds : List (SyncRound α)} {s s' : σ} {result : Err}
    (h : lawSyncLoop callback suspend expiry rounds s = some (result, s')) :
    ∃ err now, lastCall (syncTrace callback suspend expiry rounds s) = some (err, now) ∧
      SyncResult expiry err now result := by
  induction rounds generalizing s with
  | nil => cases h
  | cons r rounds ih =>
    simp only [lawSyncLoop, syncTrace] at h ⊢
    split_ifs at h ⊢ with hok htime hwants hectl hins
    · obtain ⟨rfl, -⟩ := Prod.mk.inj (Option.some.inj h)
      exact ⟨_, _, rfl, .ok hok⟩
    · obtain ⟨rfl, -⟩ := Prod.mk.inj (Option.some.inj h)
      exact ⟨_, _, rfl, .time hok htime⟩
    · obtain ⟨t, ht, h⟩ := Option.bind_eq_some_iff.mp h
      obtain ⟨err, now, hlast, hend⟩ := ih h
      exact ⟨err, now, by simp only [ht, Option.elim_some, lastCall, hlast, Option.some_or], hend⟩
    · obtain ⟨err, now, hlast, hend⟩ := ih h
      exact ⟨err, now, by simp only [lastCall, hlast, Option.some_or], hend⟩
    · obtain ⟨rfl, -⟩ := Prod.mk.inj (Option.some.inj h)
      exact ⟨_, _, rfl, .sys (lt_of_not_ge htime) hwants⟩
    · obtain ⟨rfl, -⟩ := Prod.mk.inj (Option.some.inj h)
      exact ⟨_, _, rfl, .fails (lt_of_not_ge htime) hok (Bool.eq_false_iff.mpr hwants)⟩

/-- Only the last call returns a code that asks for no event, or comes to its end
behind the deadline. -/
theorem lastCall_of_called {rounds : List (SyncRound α)} {s : σ} {err : Err} {now : Time}
    (h : .called err now ∈ syncTrace callback suspend expiry rounds s)
    (herr : err.wants = false ∨ expiry ≤ now) :
    lastCall (syncTrace callback suspend expiry rounds s) = some (err, now) := by
  induction rounds generalizing s with
  | nil => cases h
  | cons r rounds ih =>
    simp only [syncTrace] at h ⊢
    split_ifs at h ⊢ with hok htime hwants hectl hins
    · obtain ⟨rfl, rfl⟩ := SyncEvent.called.inj (List.mem_singleton.mp h)
      rfl
    · obtain ⟨rfl, rfl⟩ := SyncEvent.called.inj (List.mem_singleton.mp h)
      rfl
    · obtain hhead | h := List.mem_cons.mp h
      · obtain ⟨rfl, rfl⟩ := SyncEvent.called.inj hhead
        exact absurd herr (not_or.mpr ⟨Bool.not_eq_false _ ▸ hwants, htime⟩)
      · simp only [List.mem_cons, reduceCtorEq, false_or] at h
        cases hnext : suspend (callback r.answer s).2 with
        | none =>
          rw [hnext] at h
          cases h
        | some t =>
          rw [hnext, Option.elim_some] at h
          simp only [Option.elim_some, lastCall, ih h, Option.some_or]
    · obtain hhead | h := List.mem_cons.mp h
      · obtain ⟨rfl, rfl⟩ := SyncEvent.called.inj hhead
        exact absurd herr (not_or.mpr ⟨Bool.not_eq_false _ ▸ hwants, htime⟩)
      · simp only [List.mem_cons, reduceCtorEq, false_or] at h
        simp only [lastCall, ih h, Option.some_or]
    · obtain ⟨rfl, rfl⟩ := SyncEvent.called.inj (List.mem_singleton.mp h)
      rfl
    · obtain ⟨rfl, rfl⟩ := SyncEvent.called.inj (List.mem_singleton.mp h)
      rfl

theorem round_of_called {rounds : List (SyncRound α)} {s : σ} {err : Err} {now : Time}
    (h : .called err now ∈ syncTrace callback suspend expiry rounds s) :
    ∃ r ∈ rounds, r.now = now := by
  induction rounds generalizing s with
  | nil => cases h
  | cons r rounds ih =>
    have hhere : ∀ {err' now'}, SyncEvent.called err now = .called err' now' → now' = r.now →
        ∃ q ∈ r :: rounds, q.now = now := by
      rintro err' now' heq rfl
      exact ⟨r, List.mem_cons_self, (SyncEvent.called.inj heq).2.symm⟩
    have hrest : ∀ {t : σ}, SyncEvent.called err now ∈ syncTrace callback suspend expiry rounds t →
        ∃ q ∈ r :: rounds, q.now = now := fun ht =>
      (ih ht).imp fun q hq => ⟨List.mem_cons_of_mem _ hq.1, hq.2⟩
    simp only [syncTrace] at h
    rcases List.mem_cons.mp h with h | h
    · exact hhere h rfl
    split_ifs at h
    · cases h
    · cases h
    · simp only [List.mem_cons, reduceCtorEq, false_or] at h
      cases hnext : suspend (callback r.answer s).2 with
      | none =>
        rw [hnext] at h
        cases h
      | some t =>
        rw [hnext] at h
        exact hrest h
    · simp only [List.mem_cons, reduceCtorEq, false_or] at h
      exact hrest h
    · cases h
    · cases h

theorem called_of_lastCall {trace : List SyncEvent} {err : Err} {now : Time}
    (h : lastCall trace = some (err, now)) : .called err now ∈ trace := by
  induction trace with
  | nil => cases h
  | cons event trace ih =>
    cases event with
    | called err' now' =>
      rw [lastCall, Option.or_eq_some_iff] at h
      obtain h | ⟨-, h⟩ := h
      · exact List.mem_cons_of_mem _ (ih h)
      · obtain ⟨rfl, rfl⟩ := Prod.mk.inj (Option.some.inj h)
        exact List.mem_cons_self
    | waited inserts => exact List.mem_cons_of_mem _ (ih h)
    | suspended => exact List.mem_cons_of_mem _ (ih h)

/-- The error of the last call is the result, and the time has run out only where
that call asks for an event and the deadline has passed. The deadline is a number,
which may lie behind the greatest time. -/
def Unmasked (deadline : ℤ) (trace : List SyncEvent) (result : Err) : Prop :=
  (∀ err now, lastCall trace = some (err, now) → err ≠ .ok → err.wants = false → result = err) ∧
    (result = .time →
      ∃ err now, lastCall trace = some (err, now) ∧ err.wants = true ∧ deadline ≤ now.toInt)

/-- A call that ends behind the expiry, and not with success, was given up: then the
deadline has passed. -/
theorem Unmasked.reached {deadline : ℤ} {rounds : List (SyncRound α)} {s s' : σ} {result err : Err}
    {now : Time} (h : Unmasked deadline (syncTrace callback suspend expiry rounds s) result)
    (hrun : lawSyncLoop callback suspend expiry rounds s = some (result, s'))
    (hcalled : .called err now ∈ syncTrace callback suspend expiry rounds s) (hok : err ≠ .ok)
    (hexpired : expiry ≤ now) : deadline ≤ now.toInt := by
  obtain ⟨err', now', hlast, hend⟩ := lawSync_ends hrun
  rw [lastCall_of_called hcalled (.inr hexpired), Option.some.injEq, Prod.mk.injEq] at hlast
  obtain ⟨rfl, rfl⟩ := hlast
  cases hend with
  | ok herr => exact absurd herr hok
  | time _ _ =>
    obtain ⟨err', now', hlast, -, hle⟩ := h.2 rfl
    rw [lastCall_of_called hcalled (.inr hexpired), Option.some.injEq, Prod.mk.injEq] at hlast
    rw [hlast.2]
    exact hle
  | sys hlt _ => exact absurd hexpired (not_le.mpr hlt)
  | fails hlt _ _ => exact absurd hexpired (not_le.mpr hlt)

/-- A call that fails is the last one, so its error is the result. -/
theorem Unmasked.fails {deadline : ℤ} {rounds : List (SyncRound α)} {s s' : σ} {result err : Err}
    {now : Time} (h : Unmasked deadline (syncTrace callback suspend expiry rounds s) result)
    (hrun : lawSyncLoop callback suspend expiry rounds s = some (result, s'))
    (hcalled : .called err now ∈ syncTrace callback suspend expiry rounds s) (hok : err ≠ .ok)
    (hwants : err.wants = false) : now < expiry ∧ err ≠ .time := by
  have hthis := lastCall_of_called hcalled (.inl hwants)
  obtain rfl : result = err := h.1 err now hthis hok hwants
  have hnot : result ≠ .time := fun htime => by
    obtain ⟨err', now', hlast, hasks, -⟩ := h.2 htime
    rw [hthis, Option.some.injEq, Prod.mk.injEq] at hlast
    rw [← hlast.1, hwants] at hasks
    cases hasks
  refine ⟨?_, hnot⟩
  obtain ⟨err', now', hlast, hend⟩ := lawSync_ends hrun
  rw [hthis, Option.some.injEq, Prod.mk.injEq] at hlast
  obtain ⟨rfl, rfl⟩ := hlast
  cases hend with
  | ok herr => exact absurd herr hok
  | time _ _ => exact absurd rfl hnot
  | sys hlt _ => exact hlt
  | fails hlt _ _ => exact hlt

/-- With a timeout from zero on and a clock that does not go back, errors are not
taken for timeouts, nor calls given up before their deadline, if and only if every
call that does not succeed has a deadline that is a time, and fails, if it fails,
before it and not with `LAW_ERR_TIME`. -/
theorem lawSync_unmasked_iff {α σ : Type} (callback : α → σ → Err × σ) (suspend : σ → Option σ)
    (timeout start : Time) (rounds : List (SyncRound α)) (s s' : σ) (result : Err)
    (htimeout : 0 ≤ timeout) (hclock : ∀ r ∈ rounds, start ≤ r.now)
    (h : lawSync callback suspend timeout start rounds s = some (result, s')) :
    Unmasked (start.toInt + timeout.toInt)
        (syncTrace callback suspend (start + timeout) rounds s) result ↔
      ∀ err now, .called err now ∈ syncTrace callback suspend (start + timeout) rounds s →
        err ≠ .ok → start.toInt + timeout.toInt < 2 ^ 63 ∧
          (err.wants = false → now < start + timeout ∧ err ≠ .time) := by
  rw [Int64.le_iff_toInt_le, Int64.toInt_zero] at htimeout
  constructor
  · intro hunmasked err now hcalled hok
    refine ⟨?_, hunmasked.fails h hcalled hok⟩
    -- an expiry that has wrapped is behind the clock, so that the call is given up
    by_contra hwraps
    have hexpired : start + timeout ≤ now := by
      obtain ⟨r, hr, rfl⟩ := round_of_called hcalled
      have hnow := Int64.le_iff_toInt_le.mp (hclock r hr)
      have htimeout' := timeout.toInt_lt
      rw [Int64.le_iff_toInt_le, time_add_wraps (not_lt.mp hwraps)]
      omega
    have hreached := hunmasked.reached h hcalled hok hexpired
    have hnow := now.toInt_lt
    omega
  · intro hcalls
    obtain ⟨err, now, hlast, hend⟩ := lawSync_ends h
    have hcall := hcalls err now (called_of_lastCall hlast)
    refine ⟨fun err' now' hlast' hok hwants => ?_, fun hresult => ⟨err, now, hlast, ?_⟩⟩
    · rw [hlast, Option.some.injEq, Prod.mk.injEq] at hlast'
      obtain ⟨rfl, rfl⟩ := hlast'
      obtain ⟨hlt, -⟩ := (hcall hok).2 hwants
      cases hend with
      | ok herr => exact absurd herr hok
      | time _ hle => exact absurd hlt (not_lt_of_ge hle)
      | sys _ hasks => rw [hwants] at hasks; cases hasks
      | fails _ _ _ => rfl
    · rw [hresult] at hend
      cases hend with
      | time hok hle =>
        obtain ⟨hlimit, hfails⟩ := hcall hok
        have hstart := start.le_toInt
        have hends : (start + timeout).toInt = start.toInt + timeout.toInt :=
          time_add (by omega) hlimit
        refine ⟨?_, hends ▸ Int64.le_iff_toInt_le.mp hle⟩
        by_contra hwants
        exact not_lt_of_ge hle (hfails (Bool.eq_false_iff.mpr hwants)).1
      | fails _ hok hwants => exact absurd rfl ((hcall hok).2 hwants).2

/-- A call that asks for an event, and after the wait one that fails in time. -/
theorem lawSync_unmasked_retry : Unmasked 15
    (syncTrace (fun err s => (err, s)) some 15
      [⟨.wantr, 5, true, true⟩, ⟨.syn, 14, true, true⟩] ()) .syn := by
  refine (lawSync_unmasked_iff (fun err s => (err, s)) some 10 5 [⟨.wantr, 5, true, true⟩,
    ⟨.syn, 14, true, true⟩] () () .syn (by decide) (by decide) rfl).mpr ?_
  intro err now hcalled _
  change SyncEvent.called err now ∈ [.called .wantr 5, .waited true, .suspended, .called .syn 14]
    at hcalled
  simp only [List.mem_cons, List.not_mem_nil, reduceCtorEq, false_or, or_false,
    SyncEvent.called.injEq] at hcalled
  obtain ⟨rfl, -⟩ | ⟨rfl, rfl⟩ := hcalled
  · exact ⟨by decide, fun hwants => by cases hwants⟩
  · exact ⟨by decide, fun _ => ⟨by decide, by decide⟩⟩

/-- A call meets a syntax error when the clock has reached the deadline, and one with
the greatest timeout asks for an event and is given up at once. -/
theorem lawSync_masked :
    (lawSync (fun err (s : Unit) => (err, s)) some 10 0 [⟨.syn, 10, true, true⟩] () =
        some (.time, ()) ∧
      ¬ Unmasked 10 (syncTrace (fun err s => (err, s)) some 10 [⟨.syn, 10, true, true⟩] ()) .time) ∧
    lawSync (fun err (s : Unit) => (err, s)) some Int64.maxValue 1 [⟨.wantr, 1, true, true⟩] () =
        some (.time, ()) ∧
      ¬ Unmasked (1 + Int64.maxValue.toInt) (syncTrace (fun err s => (err, s)) some
        (1 + Int64.maxValue) [⟨.wantr, 1, true, true⟩] ()) .time := by
  refine ⟨⟨rfl, fun h => ?_⟩, rfl, fun h => ?_⟩
  · have hcode := h.1 .syn 10 rfl (by decide) rfl
    cases hcode
  · obtain ⟨err, now, hlast, -, hle⟩ := h.2 rfl
    obtain ⟨-, rfl⟩ := Prod.mk.inj (Option.some.inj hlast)
    revert hle
    decide

/-! ### Retries -/

/-- The task is suspended between any two calls. -/
def YieldsOnce (trace : List SyncEvent) : Prop :=
  ∀ before err now between err' now' after,
    trace = before ++ .called err now :: (between ++ .called err' now' :: after) →
      .suspended ∈ between

theorem syncTrace_begins {rounds : List (SyncRound α)} {s : σ} {out : Err × σ}
    (h : lawSyncLoop callback suspend expiry rounds s = some out) :
    ∃ err now trace, syncTrace callback suspend expiry rounds s = .called err now :: trace := by
  cases rounds with
  | nil => cases h
  | cons r rounds => exact ⟨_, _, _, rfl⟩

/-- A wait whose entry is not inserted is between two calls, or the last event. -/
theorem syncTrace_waited {rounds : List (SyncRound α)} {s : σ}
    (h : .waited false ∈ syncTrace callback suspend expiry rounds s)
    (hout : (lawSyncLoop callback suspend expiry rounds s).isSome = true) :
    ∃ before err now err' now' after, syncTrace callback suspend expiry rounds s =
      before ++ .called err now :: ([.waited false] ++ .called err' now' :: after) := by
  induction rounds generalizing s with
  | nil => cases h
  | cons r rounds ih =>
    simp only [lawSyncLoop, syncTrace] at h hout ⊢
    split_ifs at h hout ⊢ with hok htime hwants hectl hins
    · simp at h
    · simp at h
    · obtain ⟨t, ht⟩ : ∃ t, suspend (callback r.answer s).2 = some t := by
        cases hnext : suspend (callback r.answer s).2 with
        | none =>
          rw [hnext] at hout
          cases hout
        | some t => exact ⟨t, rfl⟩
      rw [ht, Option.bind_some] at hout
      rw [ht, Option.elim_some] at h ⊢
      simp only [hins, List.mem_cons, reduceCtorEq, false_or, SyncEvent.waited.injEq]
        at h
      obtain ⟨before, err, now, err', now', after, htrace⟩ := ih h hout
      exact ⟨.called (callback r.answer s).1 r.now :: .waited true :: .suspended :: before,
        err, now,
        err', now', after, by rw [htrace, hins]; rfl⟩
    · obtain ⟨out, hout⟩ := Option.isSome_iff_exists.mp hout
      obtain ⟨err, now, trace, htrace⟩ := syncTrace_begins hout
      rw [Bool.not_eq_true] at hins
      exact ⟨[], _, _, err, now, trace, by rw [htrace, hins]; rfl⟩
    · simp at h
    · simp at h

theorem YieldsOnce.cons {trace : List SyncEvent} (h : YieldsOnce trace) (err : Err) (now : Time) :
    YieldsOnce (.called err now :: .waited true :: .suspended :: trace) := by
  intro before err₁ now₁ between err₂ now₂ after heq
  match before with
  | [] =>
    match between with
    | [] => simp at heq
    | [_] => simp at heq
    | _ :: event :: between =>
      simp only [List.nil_append, List.cons_append, List.cons.injEq] at heq
      rw [← heq.2.2.1]
      simp
  | [_] => simp at heq
  | [_, _] => simp at heq
  | _ :: _ :: _ :: before =>
    simp only [List.cons_append, List.cons.injEq] at heq
    exact h before err₁ now₁ between err₂ now₂ after heq.2.2.2

theorem YieldsOnce.nil : YieldsOnce [] := by
  intro before err now between err' now' after heq
  simp at heq

theorem yields_singleton (err : Err) (now : Time) : YieldsOnce [.called err now] := by
  intro before err₁ now₁ between err₂ now₂ after heq
  have hlen := congrArg List.length heq
  simp only [List.length_append, List.length_cons, List.length_nil] at hlen
  omega

theorem syncTrace_yields {rounds : List (SyncRound α)} {s : σ}
    (h : .waited false ∉ syncTrace callback suspend expiry rounds s) :
    YieldsOnce (syncTrace callback suspend expiry rounds s) := by
  induction rounds generalizing s with
  | nil => exact .nil
  | cons r rounds ih =>
    simp only [syncTrace] at h ⊢
    split_ifs at h ⊢ with hok htime hwants hectl hins
    · exact yields_singleton _ _
    · exact yields_singleton _ _
    · rw [hins]
      cases hnext : suspend (callback r.answer s).2 with
      | none =>
        rw [Option.elim_none]
        exact YieldsOnce.nil.cons _ _
      | some t =>
        rw [hnext] at h
        rw [Option.elim_some]
        refine (ih fun hmem => h ?_).cons _ _
        simp [hmem]
    · rw [Bool.not_eq_true] at hins
      rw [hins] at h
      exact absurd (by simp) h
    · exact yields_singleton _ _
    · exact yields_singleton _ _

/-- The task is suspended before every retry, and a failed insertion is returned,
if and only if no insertion into the timer fails. -/
theorem lawSync_yields_iff {α σ : Type} (callback : α → σ → Err × σ) (suspend : σ → Option σ)
    (timeout start : Time) (rounds : List (SyncRound α)) (s : σ) :
    (YieldsOnce (syncTrace callback suspend (start + timeout) rounds s) ∧
      (.waited false ∈ syncTrace callback suspend (start + timeout) rounds s →
        ∃ s', lawSync callback suspend timeout start rounds s = some (.oom, s'))) ↔
      .waited false ∉ syncTrace callback suspend (start + timeout) rounds s := by
  constructor
  · rintro ⟨hyields, hoom⟩ hmem
    obtain ⟨s', hout⟩ := hoom hmem
    obtain ⟨before, err, now, err', now', after, htrace⟩ :=
      syncTrace_waited hmem (Option.isSome_iff_exists.mpr ⟨_, hout⟩)
    have hsuspended := hyields before err now [.waited false] err' now' after htrace
    cases List.mem_singleton.mp hsuspended
  · exact fun h => ⟨syncTrace_yields h, fun hmem => absurd hmem h⟩

/-- The insertion fails, and the call is made again at once. -/
theorem lawSync_spins :
    syncTrace (fun err (s : Unit) => (err, s)) some 10
        [⟨.wantr, 0, true, false⟩, ⟨.ok, 0, true, true⟩] () =
      [.called .wantr 0, .waited false, .called .ok 0] ∧
    ¬ YieldsOnce [.called .wantr 0, .waited false, .called .ok 0] ∧
    lawSync (fun err (s : Unit) => (err, s)) some 10 0
      [⟨.wantr, 0, true, false⟩, ⟨.ok, 0, true, true⟩] () = some (.ok, ()) := by
  refine ⟨rfl, fun h => ?_, rfl⟩
  have hsuspended := h [] .wantr 0 [.waited false] .ok 0 [] rfl
  cases List.mem_singleton.mp hsuspended

end Lawd

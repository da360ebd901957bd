import Lawd.Threads
import Lawd.Admission

/-!
# Shutdown

When the acceptor finds the pool full, every task is in it: the tables, the
pipes and the hands of all threads are empty. If only running tasks spawn, then
nothing can take a task out of the pool any more, so the workers are told to
exit, and exit, with nothing left to do.
-/
namespace Lawd

open Library

variable {P : Platform}

/-- A call of `law_spawn` from a thread outside the server. -/
def SpawnsOutside : Action → Prop
  | .spawn (.ext _) _ _ => True
  | _ => False

/-- `law_server_spin` has left its accept loop and has found the pool full. -/
def State.FoundFull (s : State P) : Prop :=
  match s.acceptPc with
  | .draining => s.pc .acceptor = .unlock (.flag true) ∨ s.pc .acceptor = .done (.flag true)
  | .shutdown _ => True
  | .done => True
  | _ => False

/-- `law_server_spin` sends the shutdown messages or has sent them. -/
def AcceptPc.Stopping : AcceptPc → Prop
  | shutdown _ => True
  | done => True
  | _ => False

/-- Every task is in the pool. -/
def State.AllPooled (s : State P) : Prop := ∃ l, Inv s l ∧ l.length = s.capacity

/-- A worker thread has been told to exit. -/
def View.Told (v : View P) : Prop :=
  .shutdown ∈ v.messages ∨ v.worker.reloop = false ∨ v.worker.pc = .exited

/-- A worker has nothing to do: its table, its ready list and its incoming pipe
are empty. -/
structure State.Drained (s : State P) (i : ℕ) : Prop where
  table : tableSize P.tables (s.workers i).table = 0
  tasks : (s.workers i).tasks = []
  ready : (s.workers i).ready = none
  incoming : s.incoming i = []

/-- The invariant of a shutdown. -/
structure DrainInv (s : State P) : Prop where
  outside : ∀ n, s.spawnPc (.ext n) = .idle
  full : s.FoundFull → s.AllPooled
  told : ∀ i, (s.view i).Told → s.acceptPc.Stopping

theorem Inv.empty_of_full {s : State P} {l : List TaskPtr} (hi : Inv s l)
    (hlen : l.length = s.capacity) {x : Place} (hx : x ≠ .pool) : s.contents l x = [] := by
  have hperm : l.Perm (List.range s.capacity) := by
    have hsub : l ⊆ List.range s.capacity := fun p hp =>
      List.mem_range.mpr (hi.owned .pool p hp)
    refine (List.subperm_of_subset (hi.nodup .pool) hsub).perm_of_length_le ?_
    rw [List.length_range]
    exact hlen.ge
  refine List.eq_nil_iff_forall_not_mem.mpr fun p hp => ?_
  have hpool : p ∈ s.contents l .pool := hperm.symm.subset (List.mem_range.mpr (hi.owned x p hp))
  exact hi.not_mem hpool hx hp

theorem State.AllPooled.hand {s : State P} (h : s.AllPooled) (th : Tid) : s.hand th = [] := by
  obtain ⟨l, hi, hlen⟩ := h
  exact hi.empty_of_full hlen (x := .hand th) (by simp)

/-- No task runs, so no worker thread is in `law_spawn`. -/
theorem State.AllPooled.idle {s : State P} (h : s.AllPooled) (hok : ∀ th, s.ThreadOk th) (i : ℕ) :
    s.spawnPc (.worker i) = .idle := by
  obtain ⟨l, hi, hlen⟩ := h
  have hworker := hok (.worker i)
  rw [State.ThreadOk] at hworker
  cases hpc : (s.workers i).pc <;> rw [hpc] at hworker
  case running p =>
    obtain ⟨r, hr⟩ := hi.workers i
    have hmem : p ∈ s.contents l (.table i) := (hr.running p hpc).1
    rw [hi.empty_of_full hlen (by simp)] at hmem
    cases hmem
  all_goals exact hworker.1

theorem PoolOp.Returns.not_pop {p : TaskPtr} {ret : PoolRet} (h : (push p).Returns ret) :
    ¬ pop.Returns ret := by
  cases ret with
  | unit => exact id
  | task p => exact fun _ => h
  | size n => exact id
  | flag b => exact id

theorem PoolPc.Doing.not_pop {p : TaskPtr} {pc : PoolPc} (h : pc.Doing (.push p)) :
    ¬ pc.Doing .pop := by
  cases pc with
  | idle => exact id
  | call op =>
    rintro rfl
    cases h
  | locked op =>
    rintro rfl
    cases h
  | linked =>
    rintro ⟨q, hq⟩
    cases hq
  | unlinked q => cases h
  | unlock ret => exact fun hpop => PoolOp.Returns.not_pop (p := p) h.1 hpop.1
  | done ret => exact PoolOp.Returns.not_pop (p := p) h

theorem State.FoundFull.not_pop {s : State P} (hfull : s.FoundFull) (hok : s.ThreadOk .acceptor) :
    ¬ (s.pc .acceptor).Doing .pop := by
  intro hpop
  have hacc := hok.2
  unfold State.FoundFull at hfull
  cases haccept : s.acceptPc <;> rw [haccept] at hacc hfull
  case draining =>
    rcases hfull with h | h <;> rw [h] at hpop
    · exact hpop.1
    · exact hpop
  case shutdown n =>
    rw [show s.pc .acceptor = .idle from hacc] at hpop
    exact hpop
  case done =>
    rw [show s.pc .acceptor = .idle from hacc] at hpop
    exact hpop
  all_goals exact hfull

/-- When nobody spawns from outside and the acceptor does not pop, nobody pops a
full pool. -/
theorem State.AllPooled.no_pop {s : State P} (hall : s.AllPooled) (hok : ∀ th, s.ThreadOk th)
    (houtside : ∀ n, s.spawnPc (.ext n) = .idle) (hacc : ¬ (s.pc .acceptor).Doing .pop)
    (th : Tid) : ¬ (s.pc th).Doing .pop := by
  intro hpop
  cases th with
  | acceptor => exact hacc hpop
  | worker i =>
    have hworker := hok (.worker i)
    rw [State.ThreadOk, hall.idle hok i] at hworker
    cases hpc : (s.workers i).pc <;> rw [hpc] at hworker
    case running p =>
      rw [show s.pc (.worker i) = .idle from hworker] at hpop
      exact hpop
    case pushing =>
      obtain ⟨-, p, hpush⟩ := hworker
      exact hpush.not_pop hpop
    all_goals
      rw [hworker.2] at hpop
      exact hpop
  | ext n =>
    have hext := hok (.ext n)
    rw [State.ThreadOk, houtside n] at hext
    rw [show s.pc (.ext n) = .idle from hext] at hpop
    exact hpop

theorem poolStep_hand {T : Type} [DecidableEq T] {s t : PoolState T} {th : T}
    (h : poolStep s th = some t) (hpop : ¬ (s.pc th).Doing .pop) (hhand : (s.pc th).hand = []) :
    (t.pc th).hand = [] := by
  cases poolStep_turn h with
  | enter op hpc hlock =>
    rw [PoolState.setPc_same]
    rw [hpc] at hhand
    cases op <;> first | rfl | cases hhand
  | popNone hpc | unlink _ hpc | uncount _ hpc => exact absurd (by rw [hpc]; rfl) hpop
  | leave ret hpc =>
    rw [PoolState.setPc_same]
    rw [hpc] at hhand
    rcases ret with _ | (_ | p) | n | b <;> first | rfl | cases hhand
  | link | count | size | isEmpty | isFull =>
    rw [PoolState.setPc_same]
    rfl

section Step

variable {cfg : Config} {s t : State P} {a : Action}

theorem State.AllPooled.step (h : s.AllPooled) (hst : serverStep cfg s a = some t)
    (hpop : ∀ th, ¬ (s.pc th).Doing .pop) : t.AllPooled := by
  have hhand := h.hand
  obtain ⟨l, hi, hlen⟩ := h
  have hcap := serverStep_capacity hst hi
  rcases (serverStep_effect hst).inv hi with ht | ⟨th, u, hu, rfl⟩
  · exact ⟨l, ht, by rw [hcap, hlen]⟩
  · obtain ⟨l', hi'⟩ := hi.pool_step hu
    refine ⟨l', hi', ?_⟩
    have hpc : (s.pc th).hand = [] := (List.append_eq_nil_iff.mp (hhand th)).1
    obtain ⟨l'', hpool, hmove, -⟩ := poolStep_inv hu hi.pool (hi.pool_nodup th)
    obtain rfl := hpool.chain.unique hi'.pool.chain
    rw [hcap, ← hlen]
    cases hmove with
    | stay => rfl
    | push p hold => cases hpc.symm.trans hold
    | pop p l' hl hold hnew =>
      have hnil := poolStep_hand hu (hpop th) hpc
      cases hnil.symm.trans hnew

theorem allPooled_of_size {l : List TaskPtr} (hi : Inv s l) {th : Tid}
    (hpc : s.pc th = .locked .isFull) (hsize : s.size = s.capacity) : s.AllPooled := by
  have hcounts := hi.pool.held th (hi.pool.owner th (by rw [hpc]; rfl))
  rw [hpc] at hcounts
  exact ⟨l, hi, hcounts.symm.trans hsize⟩

theorem State.FoundFull.congr (h : t.FoundFull) (haccept : t.acceptPc = s.acceptPc)
    (hpc : t.pc .acceptor = s.pc .acceptor) : s.FoundFull := by
  unfold State.FoundFull at h ⊢
  rwa [haccept, hpc] at h

/-- The last test of the pool sees it full only if its counter is the capacity. -/
theorem poolStep_isFull {T : Type} [DecidableEq T] {s t : PoolState T} {th : T}
    (hst : poolStep s th = some t) (hdoing : (s.pc th).Doing .isFull)
    (hflag : t.pc th = .unlock (.flag true) ∨ t.pc th = .done (.flag true)) :
    s.pc th = .unlock (.flag true) ∨ s.pc th = .locked .isFull ∧ s.size = s.capacity := by
  cases poolStep_turn hst with
  | enter op hpc hlock =>
    rw [PoolState.setPc_same] at hflag
    rcases hflag with h | h <;> cases h
  | count hpc =>
    rw [hpc] at hdoing
    obtain ⟨p, hp⟩ := hdoing
    cases hp
  | isFull hpc =>
    rw [PoolState.setPc_same] at hflag
    rcases hflag with h | h
    · exact .inr ⟨hpc, by simpa using h⟩
    · cases h
  | leave ret hpc =>
    rw [PoolState.setPc_same] at hflag
    rcases hflag with h | h
    · cases h
    · exact .inl (by rw [hpc, PoolPc.done.inj h])
  | link _ hpc | popNone hpc _ | unlink _ hpc | uncount _ hpc | size hpc | isEmpty hpc =>
    rw [hpc] at hdoing
    cases hdoing

theorem poolStep_foundFull {u : PoolState Tid} (hok : s.ThreadOk .acceptor)
    (hu : poolStep s.toPoolState .acceptor = some u)
    (hfull : State.FoundFull { s with toPoolState := u }) :
    s.FoundFull ∨ s.pc .acceptor = .locked .isFull ∧ s.size = s.capacity := by
  unfold State.FoundFull at hfull ⊢
  dsimp only at hfull
  cases haccept : s.acceptPc <;> rw [haccept] at hfull
  case shutdown n => exact .inl trivial
  case done => exact .inl trivial
  case draining =>
    have hdoing : (s.pc .acceptor).Doing .isFull := by
      have h := hok.2
      rwa [haccept] at h
    exact (poolStep_isFull hu hdoing hfull).imp_left .inl
  all_goals exact hfull.elim

theorem acceptTurn_foundFull (hst : AcceptTurn cfg s a t) (hfull : t.FoundFull) : s.FoundFull := by
  have hdrain : ¬ State.FoundFull
      { s.setPc .acceptor (.call .isFull) with acceptPc := .draining } := by
    have hcall : (s.setPc .acceptor (.call .isFull)).pc .acceptor = .call .isFull :=
      s.setPc_same _ _
    rintro (h | h) <;> cases hcall.symm.trans h
  cases hst with
  | fails | stops => exact (hdrain hfull).elim
  | waits version haccept =>
    refine (hdrain ?_).elim
    rwa [← haccept]
  | full version haccept hdone =>
    unfold State.FoundFull
    rw [haccept]
    exact .inr hdone
  | tells version n haccept | ends version n haccept =>
    unfold State.FoundFull
    rw [haccept]
    trivial
  | accepted | nothing | aborted | goes | empty | nonempty | setup | send | tries | again | wakes =>
    exact hfull.elim

/-- The acceptor never calls `law_spawn`. -/
theorem acceptor_moves (hst : serverStep cfg s a = some t) (hok : s.ThreadOk .acceptor)
    (hmover : a.mover = some .acceptor) :
    (∃ u, a = .pool .acceptor ∧ poolStep s.toPoolState .acceptor = some u ∧
      t = { s with toPoolState := u }) ∨ AcceptTurn cfg s a t := by
  cases serverStep_turn hst with
  | pool th u hu =>
    obtain rfl := Option.some.inj hmover
    exact .inl ⟨u, rfl, hu, rfl⟩
  | spawn th callback data hmay =>
    obtain rfl := Option.some.inj hmover
    exact hmay.elim
  | spawnStep th version _ hturn =>
    obtain rfl := Option.some.inj hmover
    exact absurd hok.1 hturn.spawning
  | accept result _ hturn | acceptStep version _ hturn => exact .inr hturn
  | worker | release | wakeup | stop => cases hmover

theorem serverStep_foundFull (hst : serverStep cfg s a = some t) (hok : s.ThreadOk .acceptor)
    (hfull : t.FoundFull) :
    s.FoundFull ∨ s.pc .acceptor = .locked .isFull ∧ s.size = s.capacity := by
  by_cases hmover : a.mover = some .acceptor
  · rcases acceptor_moves hst hok hmover with ⟨u, rfl, hu, rfl⟩ | hturn
    · exact poolStep_foundFull hok hu hfull
    · exact .inl (acceptTurn_foundFull hturn hfull)
  · have b := serverStep_bystander hst hmover
    exact .inl (hfull.congr (b.accept rfl) b.pc)

/-- A step keeps the threads outside the server out of `law_spawn`. -/
theorem serverStep_outside (hst : serverStep cfg s a = some t) (ha : ¬ SpawnsOutside a) {n : ℕ}
    (hidle : s.spawnPc (.ext n) = .idle) : t.spawnPc (.ext n) = .idle := by
  by_cases hmover : a.mover = some (.ext n)
  · cases serverStep_turn hst with
    | pool th u hu => exact hidle
    | spawn th callback data =>
      obtain rfl := Option.some.inj hmover
      exact absurd trivial ha
    | spawnStep th version _ hturn =>
      obtain rfl := Option.some.inj hmover
      exact absurd hidle hturn.spawning
    | accept | acceptStep | worker | release | wakeup | stop => cases hmover
  · rw [(serverStep_bystander hst hmover).spawn]
    exact hidle

/-- The step leaves the messages and `reloop` alone, and does not leave the loops. -/
structure View.Stays (v v' : View P) : Prop where
  messages : v'.messages = v.messages
  reloop : v'.worker.reloop = v.worker.reloop
  pc : v'.worker.pc ≠ .exited

theorem View.Told.stays {v v' : View P} (ht : v'.Told) (h : v.Stays v') : v.Told :=
  ht.imp (h.messages ▸ ·) fun ht => .inl (h.reloop ▸ ht.resolve_right h.pc)

/-- The loop over the messages takes `LAW_MSG_SHUTDOWN`, and the thread leaves its
loops only after it has read it. -/
theorem Turn.told {v v' : View P} (hturn : Turn cfg v v') (ht : v'.Told) : v.Told := by
  cases hturn with
  | timer e timer hpc htakes hdue hpop =>
    refine ht.stays ⟨View.deliver_messages .., View.deliver_reloop .., ?_⟩
    rw [View.deliver_pc]
    simp [hpc]
  | timersDone hpc htakes hlate => exact ht.stays ⟨rfl, rfl, by simp⟩
  | event ev batch hpc htakes hcons =>
    refine ht.stays ⟨View.deliver_messages .., View.deliver_reloop .., ?_⟩
    rw [View.deliver_pc]
    simp [hpc]
  | eventsDone hpc htakes hnil => exact ht.stays ⟨rfl, rfl, by simp⟩
  | message msg messages reloop hpc htakes hcons hreloop =>
    rw [View.Told, View.deliver_messages, View.deliver_reloop, View.deliver_pc] at ht
    rw [View.Told, hcons]
    rcases ht with ht | ht | ht
    · exact .inl (List.mem_cons_of_mem _ ht)
    · rcases hreloop with rfl | rfl
      · exact .inr (.inl ht)
      · exact .inl List.mem_cons_self
    · exact .inr (.inr ht)
  | messagesDone hpc htakes hnil => exact ht.stays ⟨rfl, rfl, by simp⟩
  | take p incoming hpc htakes hsize hcons => exact ht.stays ⟨rfl, rfl, by simp⟩
  | admitDone hpc htakes => exact ht.stays ⟨rfl, rfl, by simp⟩
  | insert p table hpc htakes hins => exact ht.stays ⟨rfl, rfl, by simp⟩
  | done pc heap ready hpc htakes hpop hpc' =>
    rcases hpc' with rfl | ⟨rfl, hreloop⟩
    · exact ht.stays ⟨rfl, rfl, by simp⟩
    · exact .inr (.inl hreloop)
  | run p heap ready f hpc htakes hpop hf => exact ht.stays ⟨rfl, rfl, by simp⟩

theorem workerStep_told {v v' : View P} {act : WorkerAct} (hst : workerStep cfg v act = some v')
    (ht : v'.Told) : v.Told := by
  cases act with
  | begin polled now batch =>
    simp only [workerStep, beginTick] at hst
    split_ifs at hst
    obtain rfl := Option.some.inj hst
    rcases ht with h | h | h
    · exact .inl h
    · cases h
    · cases h
  | turn => exact (workerTurn_turn hst).told ht
  | task act =>
    obtain ⟨p, hpc, hran⟩ := workerStep_ran hst
    refine ht.stays ⟨hran.messages, hran.reloop, ?_⟩
    rcases hran.pc with h | h | h <;> simp [h]

/-- A step that is not the worker's own sends it at most one message, and the
acceptor sends its message past its last test. -/
theorem serverStep_sends (hst : serverStep cfg s a = some t) {i : ℕ}
    (ha : ∀ act, a ≠ .worker i act) : t.messages i = s.messages i ∨
      ∃ msg, t.messages i = s.messages i ++ [msg] ∧ (msg = .shutdown → t.acceptPc.Stopping) := by
  have hsend : ∀ (j : ℕ) (msg : Msg),
      Function.update s.messages j (s.messages j ++ [msg]) i = s.messages i ∨
        i = j ∧ Function.update s.messages j (s.messages j ++ [msg]) i = s.messages i ++ [msg] := by
    intro j msg
    by_cases hj : i = j
    · subst hj
      exact .inr ⟨rfl, Function.update_self ..⟩
    · exact .inl (Function.update_of_ne hj ..)
  cases serverStep_turn hst with
  | pool | spawn | stop => exact .inl rfl
  | spawnStep th version _ hturn => cases hturn <;> exact .inl rfl
  | accept result _ hturn => cases hturn <;> exact .inl rfl
  | acceptStep version _ hturn =>
    cases hturn with
    | tells _ n => exact (hsend n .shutdown).imp_right fun h => ⟨_, h.2, fun _ => trivial⟩
    | _ => exact .inl rfl
  | worker j act v =>
    have hij : i ≠ j := by
      rintro rfl
      exact ha act rfl
    exact .inl (Function.update_of_ne hij ..)
  | release j _ hturn => cases hturn <;> exact .inl rfl
  | wakeup j id =>
    exact (hsend j (.wakeup id)).imp_right fun h => ⟨_, h.2, fun h => by cases h⟩

theorem serverStep_reloop (hst : serverStep cfg s a = some t) {i : ℕ}
    (ha : ∀ act, a ≠ .worker i act) : (t.workers i).reloop = (s.workers i).reloop ∧
      ((t.workers i).pc = .exited → (s.workers i).pc = .exited) := by
  have hcontrol : ∀ {u : State P}, Control u t → u.workers = s.workers →
      (t.workers i).reloop = (s.workers i).reloop ∧
        ((t.workers i).pc = .exited → (s.workers i).pc = .exited) := by
    intro u hc hu
    rcases hc.workers i with h | ⟨pc, h, hpc, -⟩
    · rw [h, hu]
      exact ⟨rfl, id⟩
    · rw [h, hu]
      refine ⟨rfl, fun hexit => ?_⟩
      rw [show pc = .exited from hexit] at hpc
      rcases hpc with h | h <;> cases h
  cases serverStep_effect hst with
  | pool th u hu => exact ⟨rfl, id⟩
  | control _ hc => exact hcontrol hc rfl
  | setup th p callback data version _ hp hc => exact hcontrol hc rfl
  | send th j p _ hp hc => exact hcontrol hc rfl
  | drop th p _ hfail hc => exact hcontrol hc rfl
  | worker j act v hj hact hv =>
    have hij : i ≠ j := by
      rintro rfl
      exact ha act hact
    rw [show (s.setView j v).workers i = s.workers i from Function.update_of_ne hij ..]
    exact ⟨rfl, id⟩

theorem serverStep_told (hst : serverStep cfg s a = some t) {i : ℕ} (ht : (t.view i).Told) :
    (s.view i).Told ∨ t.acceptPc.Stopping := by
  by_cases hown : ∃ act, a = .worker i act
  · obtain ⟨act, rfl⟩ := hown
    obtain ⟨-, -, -, v, hv, rfl⟩ := serverStep_worker hst
    refine .inl (workerStep_told hv ?_)
    simpa only [View.Told, State.view, State.setView, Function.update_self] using ht
  · have ha : ∀ act, a ≠ .worker i act := fun act h => hown ⟨act, h⟩
    obtain ⟨hreloop, hexit⟩ := serverStep_reloop hst ha
    rcases ht with h | h | h
    · change Msg.shutdown ∈ t.messages i at h
      rcases serverStep_sends hst ha with hsame | ⟨msg, hmsg, hstop⟩
      · rw [hsame] at h
        exact .inl (.inl h)
      · rw [hmsg] at h
        rcases List.mem_append.mp h with h | h
        · exact .inl (.inl h)
        · exact .inr (hstop (List.mem_singleton.mp h).symm)
    · exact .inl (.inr (.inl (hreloop.symm.trans h)))
    · exact .inl (.inr (.inr (hexit h)))

theorem serverStep_stopping (hst : serverStep cfg s a = some t) (hok : s.ThreadOk .acceptor)
    (h : s.acceptPc.Stopping) : t.acceptPc.Stopping := by
  by_cases hmover : a.mover = some .acceptor
  · rcases acceptor_moves hst hok hmover with ⟨u, rfl, -, rfl⟩ | hturn
    · exact h
    · have hnot : ∀ {pc : AcceptPc}, s.acceptPc = pc → pc.Stopping := fun heq => heq ▸ h
      cases hturn with
      | tells | ends => trivial
      | accepted _ hpc | nothing _ hpc | aborted hpc | fails _ hpc | goes _ hpc | stops _ hpc
      | empty _ hpc | nonempty _ hpc | setup _ _ _ hpc | send _ _ _ _ hpc | tries _ _ _ hpc
      | again _ _ _ hpc | wakes _ hpc | full _ hpc | waits _ hpc => exact (hnot hpc).elim
  · rw [(serverStep_bystander hst hmover).accept rfl]
    exact h

theorem AcceptPc.Stopping.foundFull (h : s.acceptPc.Stopping) : s.FoundFull := by
  unfold State.FoundFull
  cases haccept : s.acceptPc <;> rw [haccept] at h
  case shutdown n => trivial
  case done => trivial
  all_goals exact h.elim

theorem State.FoundFull.step (h : s.FoundFull) (hst : serverStep cfg s a = some t)
    (hok : s.ThreadOk .acceptor) : t.FoundFull := by
  by_cases hstop : s.acceptPc.Stopping
  · exact (serverStep_stopping hst hok hstop).foundFull
  have haccept : s.acceptPc = .draining := by
    unfold State.FoundFull at h
    cases haccept : s.acceptPc <;> rw [haccept] at h hstop
    case shutdown n => exact absurd trivial hstop
    case done => exact absurd trivial hstop
    all_goals exact h.elim
  have hpc := h
  rw [State.FoundFull, haccept] at hpc
  by_cases hmover : a.mover = some .acceptor
  · rcases acceptor_moves hst hok hmover with ⟨u, rfl, hu, rfl⟩ | hturn
    · unfold State.FoundFull
      rw [show ({ s with toPoolState := u } : State P).acceptPc = .draining from haccept]
      rcases hpc with hpc | hpc
      · rw [poolStep, hpc] at hu
        obtain rfl := Option.some.inj hu
        exact .inr (PoolState.setPc_same ..)
      · rw [poolStep, hpc] at hu
        cases hu
    · cases hturn with
      | full => trivial
      | waits _ _ hdone => rcases hpc with hpc | hpc <;> cases hpc.symm.trans hdone
      | accepted _ h | nothing _ h | aborted h | fails _ h | goes _ h | stops _ h | empty _ h
      | nonempty _ h | setup _ _ _ h | send _ _ _ _ h | tries _ _ _ h | again _ _ _ h | wakes _ h
      | tells _ _ h | ends _ _ h => cases haccept.symm.trans h
  · have b := serverStep_bystander hst hmover
    unfold State.FoundFull
    rw [b.accept rfl, b.pc, haccept]
    exact hpc

/-- Each step of a run without outside spawners keeps the invariant. -/
theorem serverStep_drain (hst : serverStep cfg s a = some t) (ha : ¬ SpawnsOutside a)
    {l : List TaskPtr} (hi : Inv s l) (hok : ∀ th, s.ThreadOk th) (hd : DrainInv s) :
    DrainInv t where
  outside n := serverStep_outside hst ha (hd.outside n)
  full hfull := by
    rcases serverStep_foundFull hst (hok .acceptor) hfull with hs | ⟨hpc, hsize⟩
    · have hall := hd.full hs
      exact hall.step hst (hall.no_pop hok hd.outside (hs.not_pop (hok .acceptor)))
    · have hall := allPooled_of_size hi hpc hsize
      refine hall.step hst (hall.no_pop hok hd.outside ?_)
      rw [hpc]
      rintro ⟨⟩
  told i ht := by
    rcases serverStep_told hst ht with hs | hs
    · exact serverStep_stopping hst (hok .acceptor) (hd.told i hs)
    · exact hs

end Step

theorem serverCreate_drain (cfg : Config) (heap : Heap) :
    DrainInv (serverCreate P cfg heap) where
  outside _ := rfl
  full h := h.elim
  told i ht := by
    rcases ht with h | h | h <;> cases h

theorem drain_of_reach {cfg : Config} {s : State P}
    (h : (serverSystem P cfg).Reach (fun _ a => ¬ SpawnsOutside a) s) : DrainInv s :=
  h.invariant (P := DrainInv)
    (fun _ hs => by
      obtain ⟨heap, -, rfl⟩ := hs
      exact serverCreate_drain cfg heap)
    fun _ _ _ hr hd ha hst => by
      obtain ⟨l, hi⟩ := inv_of_reach hr
      exact serverStep_drain hst ha hi (threadOk_of_reach hr) hd

theorem State.AllPooled.drained {s : State P} (h : s.AllPooled) (i : ℕ) : s.Drained i := by
  obtain ⟨l, hi, hlen⟩ := h
  obtain ⟨r, hr⟩ := hi.workers i
  have htasks : (s.workers i).tasks = [] := hi.empty_of_full hlen (x := .table i) (by simp)
  have hready : r = [] := List.eq_nil_iff_forall_not_mem.mpr fun p hp => by
    have hmem := hr.listed p hp
    rw [htasks] at hmem
    cases hmem
  subst hready
  refine ⟨?_, htasks, hr.ready.chain, hi.empty_of_full hlen (x := .pipe i) (by simp)⟩
  rw [← Worker.tasks_length hr, htasks]
  rfl

/-- In every run in which only running tasks spawn, once the acceptor has left
its loop and has found the pool full, every worker's table, ready list and
incoming pipe is empty and stays empty; and a worker thread that has left its
loops left none of them filled. -/
theorem graceful_shutdown (P : Platform) (cfg : Config) {s : State P}
    (h : (serverSystem P cfg).Reach (fun _ a => ¬ SpawnsOutside a) s) :
    (s.FoundFull → ∀ t, ((serverSystem P cfg).after s).Reach (fun _ a => ¬ SpawnsOutside a) t →
      ∀ i, t.Drained i) ∧
    ∀ i, (s.workers i).pc = .exited → s.Drained i := by
  refine ⟨fun hfull t ht i => ?_, fun i hpc => ?_⟩
  · have hfull' : t.FoundFull := by
      induction ht with
      | init heq => exact heq ▸ hfull
      | step ht hok hst ih => exact ih.step hst (threadOk_of_reach (h.trans ht) .acceptor)
    exact ((drain_of_reach (h.trans ht)).full hfull').drained i
  · have hd := drain_of_reach h
    exact (hd.full (hd.told i (.inr (.inr hpc))).foundFull).drained i

instance : (a : Action) → Decidable (SpawnsOutside a)
  | .spawn .acceptor _ _ | .spawn (.worker _) _ _ => .isFalse id
  | .spawn (.ext _) _ _ => .isTrue trivial
  | .pool _ | .spawnStep _ _ | .accept _ | .acceptStep _ | .worker _ _ | .release _
  | .wakeup _ _ | .stop => .isFalse id

/-- The server is stopped when it waits for connections: the acceptor finds the
pool full and tells the two workers, and worker 1 leaves its loops. -/
def stopAll : List Action :=
  [[.stop], List.replicate 3 (.pool .acceptor), [.acceptStep 0, .accept .again],
    List.replicate 2 (.acceptStep 0), List.replicate 3 (.pool .acceptor),
    List.replicate 3 (.acceptStep 0), [.worker 1 (.begin 0 0 [])],
    List.replicate 6 (.worker 1 .turn)].flatten

/-- After one connection the server is stopped, and worker 1 leaves nothing behind. -/
theorem graceful_shutdown_accepted : ∃ s : State Platform.lists,
    s.FoundFull ∧ (s.workers 1).pc = .exited ∧
      (∀ t, ((serverSystem Platform.lists twoWorkers).after s).Reach
        (fun _ a => ¬ SpawnsOutside a) t → ∀ i, t.Drained i) ∧ s.Drained 1 := by
  have hrun : ((serverSystem Platform.lists twoWorkers).checkedRun
      (fun _ a => ¬ SpawnsOutside a) (serverCreate _ twoWorkers zeroHeap)
      (.acceptStep 0 :: acceptOne ++ tickOne 1 ++ [.worker 1 (.task (.ret 0))] ++ finishOne 1 ++
        stopAll)).map (fun s => (s.acceptPc, (s.workers 1).pc)) = some (.shutdown 2, .exited) := by
    decide
  obtain ⟨s, hs, heq⟩ := Option.map_eq_some_iff.mp hrun
  obtain ⟨haccept, hpc⟩ := Prod.mk.inj heq
  have hfull : s.FoundFull := by
    rw [State.FoundFull, haccept]
    trivial
  obtain ⟨hdrained, hexited⟩ := graceful_shutdown Platform.lists twoWorkers
    (System.Reach.checkedRun (.init ⟨zeroHeap, zeroHeap_fresh, rfl⟩) _ hs)
  exact ⟨s, hfull, hpc, hdrained hfull, hexited 1 hpc⟩

end Lawd

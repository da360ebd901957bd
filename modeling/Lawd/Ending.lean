import Lawd.Progress
import Lawd.Shutdown
import Mathlib.Algebra.Order.BigOperators.Group.Finset

/-!
# The end of a server

`law_start` returns when the acceptor has sent its messages and every worker
thread has left its loops. A worker that has been told to exit begins one more
tick at most. With the pool found full it has no task to run, so the steps that
are left to it are counted by its pipes, its timer and the loops of a tick.
-/
namespace Lawd

open Library

variable {P : Platform}

/-! ### The last tick -/

/-- The worker leaves its loops at the end of the tick it is in. -/
structure View.LastTick (v : View P) : Prop where
  ticks : v.worker.pc ≠ .start
  told : v.worker.reloop = false ∨ v.worker.pc.phase ≤ 2 ∧ .shutdown ∈ v.messages

instance (v : View P) : Decidable v.LastTick :=
  decidable_of_iff (v.worker.pc ≠ .start ∧
      (v.worker.reloop = false ∨ v.worker.pc.phase ≤ 2 ∧ .shutdown ∈ v.messages))
    ⟨fun h => ⟨h.1, h.2⟩, fun h => ⟨h.ticks, h.told⟩⟩

/-- The worker leaves its loops at the end of this tick or of the next one. -/
def View.WillExit (v : View P) : Prop := .shutdown ∈ v.messages ∨ v.LastTick

section Worker

variable {cfg : Config} {v v' : View P}

theorem workerTurn_start (h : workerTurn cfg v = some v') (hpc' : v'.worker.pc = .start) :
    v'.worker.reloop = true := by
  have hdispatch : v.worker.pc = .dispatch := by
    cases workerTurn_turn h with
    | timer e timer hpc | event ev batch hpc | message msg messages reloop hpc =>
      rw [View.deliver_pc] at hpc'
      cases hpc.symm.trans hpc'
    | done pc heap ready hpc => exact hpc
    | timersDone | eventsDone | messagesDone | take | admitDone | insert | run => cases hpc'
  simp only [workerTurn, hdispatch, dispatchTurn] at h
  split at h
  · obtain rfl := Option.some.inj h
    by_contra hreloop
    rw [if_neg hreloop] at hpc'
    cases hpc'
  · split_ifs at h
    split at h
    · obtain rfl := Option.some.inj h
      cases hpc'
    · obtain rfl := Option.some.inj h
      cases hpc'
    · cases h

/-- A turn of the loop over the messages takes one of them, and `LAW_MSG_SHUTDOWN`
ends the loops. -/
theorem workerTurn_message {msg : Msg} {messages : List Msg} (h : workerTurn cfg v = some v')
    (hpc : v.worker.pc = .messages) (hmsg : v.messages = msg :: messages) :
    v'.worker.pc = .messages ∧ v'.messages = messages ∧
      v'.worker.reloop = if msg = .shutdown then false else v.worker.reloop := by
  simp only [workerTurn, hpc, messageTurn, hmsg] at h
  cases msg with
  | shutdown =>
    obtain rfl := Option.some.inj h
    exact ⟨rfl, rfl, rfl⟩
  | wakeup id =>
    dsimp only at h
    split at h
    · obtain rfl := Option.some.inj h
      exact ⟨hpc, rfl, rfl⟩
    · obtain ⟨-, rfl⟩ := View.wake_some h
      exact ⟨hpc, rfl, rfl⟩

theorem View.LastTick.reloop (h : v.LastTick) (hlate : 2 < v.worker.pc.phase) :
    v.worker.reloop = false :=
  h.told.resolve_right fun hmsg => absurd hmsg.1 (by omega)

/-- The turns of the last tick are in the last tick, and the message is taken only
in a last tick. -/
theorem workerTurn_last (h : workerTurn cfg v = some v') :
    (v.LastTick → v'.LastTick) ∧ (v.WillExit → v'.WillExit) := by
  have hkeep : ∀ {u : View P}, u.worker.pc ≠ .start → u.worker.reloop = v.worker.reloop →
      u.messages = v.messages → u.worker.pc.phase ≤ 2 →
      (v.LastTick → u.LastTick) ∧ (v.WillExit → u.WillExit) := by
    intro u hpc hreloop hmsg hphase
    have hlast : v.LastTick → u.LastTick := fun hl =>
      ⟨hpc, hl.told.imp (hreloop.trans ·) fun hm => ⟨hphase, hmsg ▸ hm.2⟩⟩
    exact ⟨hlast, Or.imp (hmsg ▸ ·) hlast⟩
  have hlate : ∀ {u : View P}, (v.LastTick → v.worker.reloop = false) →
      u.worker.reloop = v.worker.reloop → u.messages = v.messages →
      (u.worker.pc = .start → u.worker.reloop = true) →
      (v.LastTick → u.LastTick) ∧ (v.WillExit → u.WillExit) := by
    intro u hended hreloop hmsg hstart
    have hlast : v.LastTick → u.LastTick := fun hl => by
      have hfalse : u.worker.reloop = false := hreloop.trans (hended hl)
      refine ⟨fun hpc => ?_, .inl hfalse⟩
      rw [hstart hpc] at hfalse
      cases hfalse
    exact ⟨hlast, Or.imp (hmsg ▸ ·) hlast⟩
  have hstart := workerTurn_start h
  cases workerTurn_turn h with
  | timer e timer hpc | event ev batch hpc =>
    refine hkeep ?_ (View.deliver_reloop ..) (View.deliver_messages ..) ?_ <;>
      rw [View.deliver_pc] <;> simp [hpc, WorkerPc.phase]
  | message msg messages reloop hpc htakes hcons =>
    obtain ⟨hpc', hrest, hreloop⟩ := workerTurn_message h hpc hcons
    generalize View.deliver _ _ = u at hpc' hrest hreloop ⊢
    have hticks : u.worker.pc ≠ .start := by simp [hpc']
    by_cases hmsg : msg = .shutdown
    · rw [if_pos hmsg] at hreloop
      have hlast : u.LastTick := ⟨hticks, .inl hreloop⟩
      exact ⟨fun _ => hlast, fun _ => .inr hlast⟩
    · rw [if_neg hmsg] at hreloop
      have hmem : .shutdown ∈ v.messages → .shutdown ∈ u.messages := fun hm => by
        rw [hcons] at hm
        rw [hrest]
        exact (List.mem_cons.mp hm).resolve_left (Ne.symm hmsg)
      have hlast : v.LastTick → u.LastTick := fun hl =>
        ⟨hticks, hl.told.imp (hreloop.trans ·) fun hm =>
          ⟨by simp [hpc', WorkerPc.phase], hmem hm.2⟩⟩
      exact ⟨hlast, Or.imp hmem hlast⟩
  | timersDone hpc | eventsDone hpc => exact hkeep (by simp) rfl rfl (by simp [WorkerPc.phase])
  | messagesDone hpc htakes hnil =>
    have hnone : ¬ .shutdown ∈ v.messages := by simp [hnil]
    exact hlate (fun hl => hl.told.resolve_right fun hm => hnone hm.2) rfl rfl hstart
  | take p incoming hpc | admitDone hpc | insert p table hpc | run p heap ready f hpc
  | done pc heap ready hpc =>
    exact hlate (View.LastTick.reloop · (by rw [hpc]; simp [WorkerPc.phase])) rfl rfl hstart

theorem beginTick_last {polled now : Time} {batch : List Event}
    (h : beginTick cfg v polled now batch = some v') :
    v.worker.pc = .start ∧ v'.worker.reloop = true ∧ (v.WillExit → v'.LastTick) := by
  unfold beginTick at h
  split_ifs at h with hg
  obtain rfl := Option.some.inj h
  refine ⟨hg.1, rfl, fun hw => ⟨by simp, .inr ⟨by simp [WorkerPc.phase], ?_⟩⟩⟩
  exact hw.resolve_right fun hl => hl.ticks hg.1

theorem workerStep_last {act : WorkerAct} (h : workerStep cfg v act = some v') :
    (v.LastTick → v'.LastTick) ∧ (v.WillExit → v'.WillExit) := by
  cases act with
  | begin polled now batch =>
    obtain ⟨hpc, -, hlast⟩ := beginTick_last h
    exact ⟨fun hl => absurd hpc hl.ticks, fun hw => .inr (hlast hw)⟩
  | turn => exact workerTurn_last h
  | task act =>
    obtain ⟨p, hpc, hran⟩ := workerStep_ran h
    have hticks : v'.worker.pc ≠ .start := by rcases hran.pc with h | h | h <;> simp [h]
    have hlast : v.LastTick → v'.LastTick := fun hl =>
      ⟨hticks, .inl (hran.reloop.trans (hl.reloop (by rw [hpc]; simp [WorkerPc.phase])))⟩
    exact ⟨hlast, Or.imp (hran.messages ▸ ·) hlast⟩

end Worker

/-- The acceptor has sent its message to the worker. -/
def AcceptPc.HasTold (cfg : Config) (i : ℕ) : AcceptPc → Prop
  | shutdown n => i < n ∧ i < cfg.workers
  | done => i < cfg.workers
  | _ => False

/-- The labels with which a worker begins a tick. -/
def Action.begins (i : ℕ) : Action → ℕ
  | worker j (.begin ..) => if j = i then 1 else 0
  | _ => 0

section Step

variable {cfg : Config} {s t : State P} {a : Action} {i : ℕ}

theorem serverStep_last (hst : serverStep cfg s a = some t) {l : List TaskPtr} (hi : Inv s l) :
    ((s.view i).LastTick → (t.view i).LastTick) ∧
      ((s.view i).WillExit → (t.view i).WillExit) := by
  by_cases hown : ∃ act, a = .worker i act
  · obtain ⟨act, rfl⟩ := hown
    obtain ⟨-, -, -, v, hv, rfl⟩ := serverStep_worker hst
    have hview : (s.setView i v).view i = v := s.view_setView i v
    rw [hview]
    exact workerStep_last hv
  have hframe : WorkerFrame s t i :=
    (serverStep_frame hst hi i).resolve_left fun h => by
      obtain ⟨act, _, hact, _⟩ := h
      exact hown ⟨act, hact⟩
  have hmsg : .shutdown ∈ (s.view i).messages → .shutdown ∈ (t.view i).messages := by
    change .shutdown ∈ s.messages i → .shutdown ∈ t.messages i
    rcases serverStep_sends hst (fun act h => hown ⟨act, h⟩) with hsame | ⟨msg, hmsg, -⟩
    · rw [hsame]
      exact id
    · rw [hmsg]
      exact List.mem_append_left _
  have hlast : (s.view i).LastTick → (t.view i).LastTick := by
    intro hl
    rcases hframe.worker with hw | ⟨pc, hw, hpc, hold⟩
    · have hworker : (t.view i).worker = (s.view i).worker := hw
      exact ⟨by rw [hworker]; exact hl.ticks, by
        rw [hworker]
        exact hl.told.imp_right fun h => ⟨h.1, hmsg h.2⟩⟩
    · have hworker : (t.view i).worker = { (s.view i).worker with pc := pc } := hw
      have hphase : 2 < (s.view i).worker.pc.phase := by
        rcases hold with ⟨p, h⟩ | h <;> simp [State.view, h, WorkerPc.phase]
      refine ⟨?_, .inl ?_⟩
      · rw [hworker]
        rcases hpc with rfl | rfl <;> simp
      · rw [hworker]
        exact hl.reloop hphase
  exact ⟨hlast, Or.imp hmsg hlast⟩

theorem serverStep_hasTold (hst : serverStep cfg s a = some t) (hok : s.ThreadOk .acceptor)
    (h : t.acceptPc.HasTold cfg i) : s.acceptPc.HasTold cfg i ∨ .shutdown ∈ t.messages i := by
  by_cases hmover : a.mover = some .acceptor
  · rcases acceptor_moves hst hok hmover with ⟨u, rfl, hu, rfl⟩ | hturn
    · exact .inl h
    · cases hturn with
      | tells version n haccept hn =>
        rw [haccept]
        rcases Nat.lt_succ_iff_lt_or_eq.mp h.1 with hlt | rfl
        · exact .inl ⟨hlt, h.2⟩
        · refine .inr ?_
          change .shutdown ∈ Function.update s.messages i _ i
          rw [Function.update_self]
          exact List.mem_append_right _ List.mem_cons_self
      | ends version n haccept hn =>
        rw [haccept]
        exact .inl ⟨Nat.lt_of_lt_of_le h hn, h⟩
      | full => exact absurd h.1 (Nat.not_lt_zero i)
      | waits version haccept =>
        change s.acceptPc.HasTold cfg i at h
        exact .inl h
      | accepted | nothing | aborted | fails | goes | stops | empty | nonempty | setup | send
      | tries | again | wakes => exact h.elim
  · rw [(serverStep_bystander hst hmover).accept rfl] at h
    exact .inl h

theorem serverStep_stillTold (hst : serverStep cfg s a = some t) (hok : s.ThreadOk .acceptor)
    (h : s.acceptPc.HasTold cfg i) : t.acceptPc.HasTold cfg i := by
  by_cases hmover : a.mover = some .acceptor
  · rcases acceptor_moves hst hok hmover with ⟨u, rfl, hu, rfl⟩ | hturn
    · exact h
    · have hnot : ∀ {pc : AcceptPc}, s.acceptPc = pc → pc.HasTold cfg i := fun heq => heq ▸ h
      cases hturn with
      | tells version n haccept => exact (hnot haccept).imp_left Nat.lt_succ_of_lt
      | ends version n haccept => exact (hnot haccept).2
      | waits => exact h
      | accepted _ hpc | nothing _ hpc | aborted hpc | fails _ hpc | goes _ hpc | stops _ hpc
      | empty _ hpc | nonempty _ hpc | setup _ _ _ hpc | send _ _ _ _ hpc | tries _ _ _ hpc
      | again _ _ _ hpc | wakes _ hpc | full _ hpc => exact (hnot hpc).elim
  · rw [(serverStep_bystander hst hmover).accept rfl]
    exact h

/-- A worker begins a tick only if it is not in its last one, and that tick is the
last if it has been told to exit. -/
theorem serverStep_begins (hst : serverStep cfg s a = some t) {l : List TaskPtr} (hi : Inv s l)
    (hw : (s.view i).WillExit) :
    (if (t.view i).LastTick then 0 else 1) + a.begins i ≤
      if (s.view i).LastTick then 0 else 1 := by
  obtain ⟨hlast, -⟩ := serverStep_last (i := i) hst hi
  by_cases hbegin : a.begins i = 0
  · rw [hbegin]
    split_ifs with ht hs hs
    · exact le_rfl
    · exact Nat.zero_le _
    · exact absurd (hlast hs) ht
    · exact le_rfl
  · obtain ⟨polled, now, batch, rfl⟩ :
        ∃ polled now batch, a = .worker i (.begin polled now batch) := by
      unfold Action.begins at hbegin
      split at hbegin
      · rename_i j polled now batch
        by_cases hj : j = i
        · exact ⟨polled, now, batch, by rw [hj]⟩
        · rw [if_neg hj] at hbegin
          exact absurd rfl hbegin
      · exact absurd rfl hbegin
    obtain ⟨-, -, -, v, hv, rfl⟩ := serverStep_worker hst
    obtain ⟨hpc, -, hlast'⟩ := beginTick_last hv
    have hview : (s.setView i v).view i = v := s.view_setView i v
    rw [hview, if_pos (hlast' hw), if_neg fun hl => hl.ticks hpc]
    simp [Action.begins]

end Step

theorem willExit_of_reach {cfg : Config} {ok : State P → Action → Prop} {s : State P}
    (h : (serverSystem P cfg).Reach ok s) {i : ℕ} (htold : s.acceptPc.HasTold cfg i) :
    (s.view i).WillExit := by
  revert htold
  refine h.invariant (P := fun s => s.acceptPc.HasTold cfg i → (s.view i).WillExit) ?_ ?_
  · rintro _ ⟨heap, -, rfl⟩ htold
    exact htold.elim
  · intro s a t hr hs _ hst htold
    obtain ⟨l, hi⟩ := inv_of_reach hr
    rcases serverStep_hasTold hst (threadOk_of_reach hr .acceptor) htold with hold | hmsg
    · exact (serverStep_last hst hi).2 (hs hold)
    · exact .inl hmsg

/-! ### A server with every task in its pool -/

/-- Where a worker thread can stand when every task is in the pool: in its loops,
or behind the counter of the pool with the last task that it has given back. -/
inductive WorkerPc.Standing : WorkerPc → PoolPc → Prop
  | start : Standing .start .idle
  | timers : Standing .timers .idle
  | events : Standing .events .idle
  | messages : Standing .messages .idle
  | admitting : Standing .admitting .idle
  | dispatch : Standing .dispatch .idle
  | exited : Standing .exited .idle
  | linked : Standing .pushing .linked
  | unlock : Standing .pushing (.unlock .unit)
  | pushed : Standing .pushing (.done .unit)

/-- The server has left its accept loop and has found its pool full, in a run in
which only running tasks spawn. -/
structure State.Ending (cfg : Config) (s : State P) : Prop where
  reach : (serverSystem P cfg).Reach (fun _ a => ¬ SpawnsOutside a) s
  full : s.FoundFull

namespace State.Ending

variable {cfg : Config} {s t : State P} {a : Action}

theorem step (h : s.Ending cfg) (ha : ¬ SpawnsOutside a) (hst : serverStep cfg s a = some t) :
    t.Ending cfg :=
  ⟨h.reach.step ha hst, h.full.step hst (threadOk_of_reach h.reach .acceptor)⟩

theorem allPooled (h : s.Ending cfg) : s.AllPooled := (drain_of_reach h.reach).full h.full

/-- No thread is in `law_spawn`. -/
theorem spawnPc (h : s.Ending cfg) (th : Tid) : s.spawnPc th = .idle := by
  cases th with
  | acceptor => exact (threadOk_of_reach h.reach .acceptor).1
  | worker i => exact h.allPooled.idle (threadOk_of_reach h.reach) i
  | ext n => exact (drain_of_reach h.reach).outside n

theorem standing (h : s.Ending cfg) (i : ℕ) : (s.workers i).pc.Standing (s.pc (.worker i)) := by
  have hok := threadOk_of_reach h.reach (.worker i)
  rw [State.ThreadOk, h.spawnPc] at hok
  obtain ⟨hpoolHand, hhands⟩ := List.append_eq_nil_iff.mp (h.allPooled.hand (.worker i))
  have hhand : (s.workers i).pc.hand = [] := (List.append_eq_nil_iff.mp hhands).2
  have hidle : ∀ {pc : WorkerPc}, pc.Standing .idle → s.pc (.worker i) = .idle →
      pc.Standing (s.pc (.worker i)) := fun hpc hpool => hpool ▸ hpc
  cases hpc : (s.workers i).pc <;> rw [hpc] at hok hhand
  case start => exact hidle .start hok.2
  case timers => exact hidle .timers hok.2
  case events => exact hidle .events hok.2
  case messages => exact hidle .messages hok.2
  case admitting => exact hidle .admitting hok.2
  case dispatch => exact hidle .dispatch hok.2
  case exited => exact hidle .exited hok.2
  case admitted p => cases hhand
  case removed p => cases hhand
  case running p =>
    obtain ⟨l, hi, -⟩ := h.allPooled
    obtain ⟨r, hr⟩ := hi.workers i
    have hmem := (hr.running p hpc).1
    rw [(h.allPooled.drained i).tasks] at hmem
    cases hmem
  case pushing =>
    obtain ⟨-, p, hdoing⟩ := hok
    cases hpool : s.pc (.worker i) <;> rw [hpool] at hdoing hpoolHand
    case linked => exact .linked
    case unlock ret =>
      cases ret with
      | unit => exact .unlock
      | _ => exact hdoing.1.elim
    case done ret =>
      cases ret with
      | unit => exact .pushed
      | _ => exact hdoing.elim
    case call op =>
      rw [show op = .push p from hdoing] at hpoolHand
      cases hpoolHand
    case locked op =>
      rw [show op = .push p from hdoing] at hpoolHand
      cases hpoolHand
    case unlinked q => cases hdoing
    case idle => exact hdoing.elim

end State.Ending

/-! ### The steps that are left -/

/-- The steps from inside the push of a finished task to the end of its tick. -/
def PoolPc.stepsLeft : PoolPc → ℕ
  | linked => 4
  | unlock _ => 3
  | done _ => 2
  | _ => 0

/-- The steps of a tick that takes every timer entry and every message. -/
def View.nextTick (v : View P) : ℕ :=
  (P.timers.entries v.worker.timer).length + v.messages.length + 6

/-- The turns that are left of this tick, and the next one if there is one. -/
def View.stepsLeft (v : View P) : ℕ := v.turnsLeft + if v.LastTick then 0 else v.nextTick

/-- The steps that a worker thread has left if nothing more arrives. -/
def State.stepsLeft (s : State P) (i : ℕ) : ℕ :=
  (s.view i).stepsLeft + (s.pc (.worker i)).stepsLeft

/-- The worker thread takes the step. -/
def Action.moves (i : ℕ) (a : Action) : ℕ := if a.mover = some (.worker i) then 1 else 0

/-- What arrives at a worker with the step: the events of its poll, or a message. -/
def Action.feeds (i : ℕ) : Action → ℕ
  | worker j (.begin _ _ batch) => if j = i then batch.length else 0
  | wakeup j _ => if j = i then 1 else 0
  | _ => 0

section Left

variable {cfg : Config} {v v' : View P}

theorem Turn.nextTick_le (ht : Turn cfg v v') : v'.nextTick ≤ v.nextTick := by
  cases ht with
  | timer e timer hpc htakes hdue hpop =>
    have hlen := (P.timers.pop_entries _ _ _ hpop).length_eq
    rw [List.length_cons] at hlen
    simp only [View.nextTick, View.deliver_timer, View.deliver_messages]
    omega
  | message msg messages reloop hpc htakes hcons =>
    simp only [View.nextTick, View.deliver_timer, View.deliver_messages, hcons, List.length_cons]
    omega
  | event => simp only [View.nextTick, View.deliver_timer, View.deliver_messages, le_refl]
  | timersDone | eventsDone | messagesDone | take | admitDone | insert | done | run => exact le_rfl

theorem workerTurn_stepsLeft (h : workerTurn cfg v = some v') : v'.stepsLeft + 1 ≤ v.stepsLeft := by
  have hturns := (workerTurn_turn h).turnsLeft_lt
  have hnext := (workerTurn_turn h).nextTick_le
  have hlast := (workerTurn_last h).1
  unfold View.stepsLeft
  split_ifs with hl' hl hl
  · omega
  · omega
  · exact absurd (hlast hl) hl'
  · omega

theorem beginTick_stepsLeft {polled now : Time} {batch : List Event}
    (h : beginTick cfg v polled now batch = some v') (hw : v.WillExit)
    (hincoming : v.incoming = []) :
    v'.stepsLeft + 1 ≤ v.stepsLeft + batch.length := by
  obtain ⟨hpc, -, hlast⟩ := beginTick_last h
  have hfirst : ¬ v.LastTick := fun hl => hl.ticks hpc
  rw [View.stepsLeft, View.stepsLeft, if_pos (hlast hw), if_neg hfirst]
  unfold beginTick at h
  split_ifs at h
  obtain rfl := Option.some.inj h
  simp only [View.turnsLeft, View.nextTick, hpc, hincoming, List.length_nil]
  omega

@[simp] theorem View.stepsLeft_heap (v : View P) (heap : Heap) :
    View.stepsLeft { v with heap := heap } = v.stepsLeft := by
  have hlast : View.LastTick { v with heap := heap } ↔ v.LastTick :=
    ⟨fun h => ⟨h.ticks, h.told⟩, fun h => ⟨h.ticks, h.told⟩⟩
  simp only [View.stepsLeft, hlast]
  rfl

theorem View.turnsLeft_message (v : View P) (msg : Msg) :
    View.turnsLeft { v with messages := v.messages ++ [msg] } ≤ v.turnsLeft + 1 ∧
      (2 < v.worker.pc.phase →
        View.turnsLeft { v with messages := v.messages ++ [msg] } = v.turnsLeft) := by
  unfold View.turnsLeft
  cases v.worker.pc <;> simp [WorkerPc.phase] <;> omega

theorem View.WillExit.stepsLeft_message (hw : v.WillExit) (msg : Msg) :
    View.stepsLeft { v with messages := v.messages ++ [msg] } ≤ v.stepsLeft + 1 := by
  obtain ⟨hle, hlate⟩ := v.turnsLeft_message msg
  unfold View.stepsLeft
  by_cases hl : v.LastTick
  · have hl' : View.LastTick { v with messages := v.messages ++ [msg] } :=
      ⟨hl.ticks, hl.told.imp_right fun h => ⟨h.1, List.mem_append_left _ h.2⟩⟩
    rw [if_pos hl, if_pos hl']
    omega
  · have hphase : 2 < v.worker.pc.phase := by
      by_contra hphase
      refine hl ⟨fun hpc => hphase ?_, .inr ⟨not_lt.mp hphase, hw.resolve_right hl⟩⟩
      rw [hpc]
      decide
    have hnext : View.nextTick { v with messages := v.messages ++ [msg] } = v.nextTick + 1 := by
      simp only [View.nextTick, List.length_append, List.length_cons, List.length_nil]
      omega
    rw [if_neg hl, hlate hphase, hnext]
    split_ifs <;> omega

theorem View.stepsLeft_pushed (hpc : v.worker.pc = .pushing) :
    View.stepsLeft { v with worker := { v.worker with pc := .dispatch } } ≤ v.stepsLeft + 1 := by
  have hlast : v.LastTick → View.LastTick { v with worker := { v.worker with pc := .dispatch } } :=
    fun hl => ⟨by simp, .inl (hl.reloop (by rw [hpc]; decide))⟩
  have hnext : View.nextTick { v with worker := { v.worker with pc := .dispatch } } =
      v.nextTick := rfl
  have hturns : View.turnsLeft { v with worker := { v.worker with pc := .dispatch } } = 1 := rfl
  unfold View.stepsLeft
  rw [hnext, hturns]
  split_ifs with hl' hl hl
  · omega
  · omega
  · exact absurd (hlast hl) hl'
  · omega

end Left

section Steps

variable {cfg : Config} {s t : State P} {a : Action} {i : ℕ}

/-- What arrives in the message pipe of a worker that has been told to exit. -/
theorem serverStep_arrives (hst : serverStep cfg s a = some t)
    (htold : s.acceptPc.HasTold cfg i) (hmover : a.mover ≠ some (.worker i)) :
    t.messages i = s.messages i ∨
      ∃ id, a = .wakeup i id ∧ t.messages i = s.messages i ++ [.wakeup id] := by
  cases serverStep_turn hst with
  | pool | spawn | stop => exact .inl rfl
  | spawnStep th version _ hturn => cases hturn <;> exact .inl rfl
  | accept result _ hturn => cases hturn <;> exact .inl rfl
  | acceptStep version _ hturn =>
    cases hturn with
    | tells _ n haccept =>
      rw [haccept] at htold
      exact .inl (Function.update_of_ne (Nat.ne_of_lt htold.1) ..)
    | _ => exact .inl rfl
  | worker j act v =>
    have hij : i ≠ j := by
      rintro rfl
      exact hmover rfl
    exact .inl (Function.update_of_ne hij ..)
  | release j _ hturn => cases hturn <;> exact .inl rfl
  | wakeup j id =>
    by_cases hij : i = j
    · subst hij
      exact .inr ⟨id, rfl, Function.update_self ..⟩
    · exact .inl (Function.update_of_ne hij ..)

namespace State.Ending

theorem incoming (h : s.Ending cfg) (i : ℕ) : s.incoming i = [] :=
  (h.allPooled.drained i).incoming

theorem willExit (h : s.Ending cfg) (htold : s.acceptPc.HasTold cfg i) : (s.view i).WillExit :=
  willExit_of_reach h.reach htold

theorem stepsLeft_other (h : s.Ending cfg) (ha : ¬ SpawnsOutside a)
    (hst : serverStep cfg s a = some t) (htold : s.acceptPc.HasTold cfg i)
    (hmover : a.mover ≠ some (.worker i)) : t.stepsLeft i ≤ s.stepsLeft i + a.feeds i := by
  have b := serverStep_bystander hst hmover
  have hin : t.incoming i = s.incoming i := by
    rw [h.incoming i, (h.step ha hst).incoming i]
  unfold State.stepsLeft
  rw [b.pc]
  rcases serverStep_arrives hst htold hmover with hmsg | ⟨id, rfl, hmsg⟩
  · have hview : t.view i = { s.view i with heap := t.heap } := by
      simp only [State.view, b.worker i rfl, hin, hmsg]
    rw [hview, View.stepsLeft_heap]
    exact Nat.le_add_right _ _
  · have hview : t.view i = { { s.view i with
        messages := (s.view i).messages ++ [Msg.wakeup id] } with heap := t.heap } := by
      simp only [State.view, b.worker i rfl, hin, hmsg]
    have hle := (h.willExit htold).stepsLeft_message (.wakeup id)
    rw [hview, View.stepsLeft_heap, Action.feeds, if_pos rfl]
    refine (Nat.add_le_add_right hle _).trans ?_
    omega

theorem stepsLeft_own (h : s.Ending cfg) (hst : serverStep cfg s a = some t)
    (htold : s.acceptPc.HasTold cfg i) (hmover : a.mover = some (.worker i)) :
    t.stepsLeft i + 1 ≤ s.stepsLeft i + a.feeds i := by
  have hstands := h.standing i
  unfold State.stepsLeft
  cases serverStep_turn hst with
  | pool th u hu =>
    obtain rfl := Option.some.inj hmover
    have hview : State.view { s with toPoolState := u } i = { s.view i with heap := u.heap } := rfl
    have hpool : (u.pc (.worker i)).stepsLeft + 1 ≤ (s.pc (.worker i)).stepsLeft := by
      generalize hpc : s.pc (.worker i) = pc at hstands
      rw [poolStep, hpc] at hu
      generalize (s.workers i).pc = wpc at hstands
      cases hstands with
      | linked | unlock =>
        obtain rfl := Option.some.inj hu
        rw [PoolState.setPc_same]
        exact le_rfl
      | pushed | start | timers | events | messages | admitting | dispatch | exited => cases hu
    rw [hview, View.stepsLeft_heap]
    change _ + (u.pc (.worker i)).stepsLeft + 1 ≤ _
    omega
  | spawn th callback data hmay =>
    obtain rfl := Option.some.inj hmover
    obtain ⟨-, p, -, hruns⟩ := hmay
    have hpc : (s.workers i).pc = .running p := hruns.1
    rw [hpc] at hstands
    cases hstands
  | spawnStep th version _ hturn => exact absurd (h.spawnPc th) hturn.spawning
  | worker j act v _ _ hidle hv =>
    obtain rfl := Tid.worker.inj (Option.some.inj hmover)
    have hview : (s.setView j v).view j = v := s.view_setView j v
    have hpool : (s.setView j v).pc (.worker j) = s.pc (.worker j) := rfl
    rw [hview, hpool, hidle]
    cases act with
    | begin polled now batch =>
      have hle := beginTick_stepsLeft hv (h.willExit htold) (h.incoming j)
      rw [Action.feeds, if_pos rfl]
      omega
    | turn =>
      have hle := workerTurn_stepsLeft hv
      omega
    | task act =>
      obtain ⟨p, hpc, -⟩ := workerStep_ran hv
      rw [show (s.workers j).pc = .running p from hpc] at hstands
      cases hstands
  | release j _ hturn =>
    obtain rfl := Tid.worker.inj (Option.some.inj hmover)
    cases hturn with
    | push p _ hpc =>
      rw [hpc] at hstands
      cases hstands
    | pushed _ hpc hdone =>
      have hle := View.stepsLeft_pushed (v := s.view j) hpc
      rw [hdone, State.setPc_same]
      have hview : (State.setPc { s with
          workers := Function.update s.workers j { s.workers j with pc := .dispatch } }
          (.worker j) .idle).view j =
          { s.view j with worker := { (s.view j).worker with pc := .dispatch } } := by
        simp only [State.view, State.setPc, PoolState.setPc, Function.update_self]
      rw [hview]
      refine (Nat.succ_le_succ hle).trans ?_
      simp only [PoolPc.stepsLeft]
      omega
  | accept | acceptStep | wakeup | stop => cases hmover

theorem stepsLeft_step (h : s.Ending cfg) (ha : ¬ SpawnsOutside a)
    (hst : serverStep cfg s a = some t) (htold : s.acceptPc.HasTold cfg i) :
    t.stepsLeft i + a.moves i ≤ s.stepsLeft i + a.feeds i := by
  unfold Action.moves
  split_ifs with hmover
  · exact h.stepsLeft_own hst htold hmover
  · exact h.stepsLeft_other ha hst htold hmover

theorem worker_moves (h : s.Ending cfg) (hon : cfg.onError = true) (hi : i < cfg.workers)
    (hpc : (s.workers i).pc ≠ .exited) : ∃ a t, a.mover = some (.worker i) ∧
      (∀ j, a.feeds j = 0) ∧ ¬ SpawnsOutside a ∧ serverStep cfg s a = some t := by
  have hstands := h.standing i
  obtain ⟨l, hinv, -⟩ := h.allPooled
  obtain ⟨r, hr⟩ := hinv.workers i
  have hown : ∀ {act : WorkerAct} {v : View P}, s.pc (.worker i) = .idle →
      workerStep cfg (s.view i) act = some v →
      serverStep cfg s (.worker i act) = some (s.setView i v) := fun hidle hv => by
    simp only [serverStep, hi, h.spawnPc, hidle, and_self, if_true, hv, Option.map_some]
  have hturn : s.pc (.worker i) = .idle → (workerTurn cfg (s.view i)).isSome →
      ∃ a t, a.mover = some (.worker i) ∧ (∀ j, a.feeds j = 0) ∧ ¬ SpawnsOutside a ∧
        serverStep cfg s a = some t := fun hidle hsome => by
    obtain ⟨v, hv⟩ := Option.isSome_iff_exists.mp hsome
    exact ⟨.worker i .turn, _, rfl, fun _ => rfl, id, hown hidle hv⟩
  have hempty : (s.workers i).tasks = [] := (h.allPooled.drained i).tasks
  have hpolls : s.pc (.worker i) = .idle → (s.workers i).pc.polling = true →
      ∃ a t, a.mover = some (.worker i) ∧ (∀ j, a.feeds j = 0) ∧ ¬ SpawnsOutside a ∧
        serverStep cfg s a = some t := fun hidle hpoll =>
    hturn hidle (pollingTurn_isSome hon hpoll fun p htarget => by
      have hmem : p ∈ (s.workers i).tasks := (pushTarget_mem htarget).2
      rw [hempty] at hmem
      cases hmem)
  have hview : (s.view i).worker.pc = (s.workers i).pc := rfl
  unfold workerTurn at hturn
  rw [hview] at hturn
  generalize hwpc : (s.workers i).pc = wpc at hstands hturn hview hpc
  generalize hpool : s.pc (.worker i) = pool at hstands hturn hown
  cases hstands with
  | start =>
    have hreports : (s.view i).worker.Reports [] := fun _ h => by cases h
    have hbegin : workerStep cfg (s.view i) (.begin 0 0 []) = some _ := if_pos ⟨hview, hreports⟩
    exact ⟨.worker i (.begin 0 0 []), _, rfl, fun j => by simp [Action.feeds], id, hown rfl hbegin⟩
  | timers | events | messages => exact hpolls hpool (by rw [hwpc]; rfl)
  | admitting => exact hturn rfl (admitTurn_isSome cfg _)
  | dispatch =>
    refine hturn rfl (dispatchTurn_isSome (v := s.view i) hr fun p hp => ?_)
    have hmem := hr.listed p hp
    rw [hempty] at hmem
    cases hmem
  | exited => exact absurd rfl hpc
  | linked | unlock =>
    obtain ⟨t, ht⟩ : ∃ t, serverStep cfg s (.pool (.worker i)) = some t := by
      simp [serverStep, poolStep, hpool]
    exact ⟨_, t, rfl, fun _ => rfl, id, ht⟩
  | pushed =>
    obtain ⟨t, ht⟩ : ∃ t, serverStep cfg s (.release i) = some t := by
      simp [serverStep, releaseStep, if_neg (not_le.mpr hi), hwpc, hpool]
    exact ⟨_, t, rfl, fun _ => rfl, id, ht⟩

end State.Ending

/-- The steps that the acceptor has left in a server that has found its pool full. -/
def State.acceptLeft (cfg : Config) (s : State P) : ℕ :=
  match s.acceptPc with
  | .draining => (if s.pc .acceptor = .done (.flag true) then 2 else 3) + cfg.workers
  | .shutdown n => cfg.workers - n + 1
  | _ => 0

theorem State.Ending.acceptor_moves (h : s.Ending cfg) (hpc : s.acceptPc ≠ .done) :
    ∃ a t, ¬ SpawnsOutside a ∧ serverStep cfg s a = some t ∧
      t.acceptLeft cfg < s.acceptLeft cfg := by
  have hfull := h.full
  unfold State.FoundFull at hfull
  unfold State.acceptLeft
  cases haccept : s.acceptPc <;> rw [haccept] at hfull hpc
  case draining =>
    rcases hfull with hunlock | hdone
    · have hst : serverStep cfg s (.pool .acceptor) = some { s with
          toPoolState :=
            { s.toPoolState with lock := none }.setPc .acceptor (.done (.flag true)) } := by
        simp only [serverStep, poolStep, hunlock, Option.map_some]
      refine ⟨_, _, id, hst, ?_⟩
      simp [haccept, hunlock, PoolState.setPc_same]
    · have hst : serverStep cfg s (.acceptStep 0) =
          some { s.setPc .acceptor .idle with acceptPc := .shutdown 0 } := by
        simp only [serverStep, acceptStep, haccept, hdone]
      refine ⟨_, _, id, hst, ?_⟩
      simp only [hdone, if_true]
      omega
  case shutdown n =>
    by_cases hn : n < cfg.workers
    · have hst : serverStep cfg s (.acceptStep 0) = some { s with
          messages := Function.update s.messages n (s.messages n ++ [.shutdown]),
          acceptPc := .shutdown (n + 1) } := by
        simp only [serverStep, acceptStep, haccept, if_pos hn]
      refine ⟨_, _, id, hst, ?_⟩
      dsimp only
      omega
    · have hst : serverStep cfg s (.acceptStep 0) = some { s with acceptPc := .done } := by
        simp only [serverStep, acceptStep, haccept, if_neg hn]
      refine ⟨_, _, id, hst, ?_⟩
      dsimp only
      omega
  case done => exact absurd rfl hpc
  all_goals exact hfull.elim

end Steps

/-- `law_server_run_threads` returns: the acceptor has left `law_server_spin`, and
all worker threads have ended. -/
def State.Ended (cfg : Config) (s : State P) : Prop :=
  s.acceptPc = .done ∧ ∀ i < cfg.workers, (s.workers i).pc = .exited

section End

variable {cfg : Config} {s : State P}

theorem State.Ending.accept_ends (h : s.Ending cfg) :
    ∃ as t, (serverSystem P cfg).run s as = some t ∧ t.Ending cfg ∧ t.acceptPc = .done := by
  obtain ⟨as, t, -, -, hrun, ht, hdone⟩ := System.leads_to_end (M := serverSystem P cfg)
    (State.Ending cfg) (fun s => s.acceptPc = .done) (fun _ => True) (State.acceptLeft cfg)
    (fun s hs hnot => by
      obtain ⟨a, t, ha, hst, hlt⟩ := hs.acceptor_moves hnot
      exact ⟨a, t, trivial, hst, hs.step ha hst, hlt⟩) h
  exact ⟨as, t, hrun, ht, hdone⟩

theorem State.Ending.workers_end (h : s.Ending cfg) (hon : cfg.onError = true)
    (hdone : s.acceptPc = .done) :
    ∃ as t, (serverSystem P cfg).run s as = some t ∧ t.Ended cfg := by
  let left (s : State P) : ℕ := ∑ i ∈ Finset.range cfg.workers, s.stepsLeft i
  obtain ⟨as, t, -, -, hrun, ⟨-, haccept⟩, hexited⟩ := System.leads_to_end (M := serverSystem P cfg)
    (fun s => s.Ending cfg ∧ s.acceptPc = .done)
    (fun s => ∀ i < cfg.workers, (s.workers i).pc = .exited) (fun _ => True) left
    (fun s ⟨hs, hdone⟩ hnot => by
      obtain ⟨i, hi, hpc⟩ : ∃ i < cfg.workers, (s.workers i).pc ≠ .exited := by
        simpa using hnot
      obtain ⟨a, t, hmover, hfeeds, ha, hst⟩ := hs.worker_moves hon hi hpc
      have hstep : ∀ j < cfg.workers, t.stepsLeft j + a.moves j ≤ s.stepsLeft j := fun j hj => by
        have htold : s.acceptPc.HasTold cfg j := by
          rw [hdone]
          exact hj
        have hle := hs.stepsLeft_step ha hst htold
        rwa [hfeeds j, Nat.add_zero] at hle
      have haccept : t.acceptPc = .done := by
        rw [(serverStep_bystander hst (by rw [hmover]; simp)).accept rfl, hdone]
      refine ⟨a, t, trivial, hst, ⟨hs.step ha hst, haccept⟩, ?_⟩
      refine Finset.sum_lt_sum (fun j hj => ?_) ⟨i, Finset.mem_range.mpr hi, ?_⟩
      · have hle := hstep j (Finset.mem_range.mp hj)
        omega
      · have hle := hstep i hi
        rw [Action.moves, if_pos hmover] at hle
        omega) ⟨h, hdone⟩
  exact ⟨as, t, hrun, haccept, hexited⟩

end End

/-- In every run in which only running tasks spawn, of a server with `on_error` set:
once the acceptor has found the pool full, the server can come to its end from
wherever its threads stand. And however they go on, a worker that has been told to
exit begins one more tick at most, and takes no more steps than it has left and
is given by its poll and its pipe. -/
theorem shutdown_ends (P : Platform) (cfg : Config) (hon : cfg.onError = true) {s : State P}
    (h : (serverSystem P cfg).Reach (fun _ a => ¬ SpawnsOutside a) s) (hfull : s.FoundFull) :
    (∃ as t, (serverSystem P cfg).run s as = some t ∧ t.Ended cfg) ∧
    ∀ as t, (∀ a ∈ as, ¬ SpawnsOutside a) → (serverSystem P cfg).run s as = some t →
      ∀ i, s.acceptPc.HasTold cfg i →
        (as.map (Action.begins i)).sum ≤ 1 ∧
        (as.map (Action.moves i)).sum ≤ s.stepsLeft i + (as.map (Action.feeds i)).sum := by
  have hending : s.Ending cfg := ⟨h, hfull⟩
  constructor
  · obtain ⟨as, t, hrun, ht, hdone⟩ := hending.accept_ends
    obtain ⟨bs, u, hrun', hended⟩ := ht.workers_end hon hdone
    refine ⟨as ++ bs, u, ?_, hended⟩
    rw [System.run_append, hrun, Option.bind_some, hrun']
  · intro as t has hrun i htold
    let I (s : State P) : Prop := s.Ending cfg ∧ s.acceptPc.HasTold cfg i
    have hkeep : ∀ s a t, I s → ¬ SpawnsOutside a → serverStep cfg s a = some t → I t :=
      fun s a t hs ha hst => ⟨hs.1.step ha hst,
        serverStep_stillTold hst (threadOk_of_reach hs.1.reach .acceptor) hs.2⟩
    constructor
    · have hcost := System.run_cost (M := serverSystem P cfg) I (¬ SpawnsOutside ·)
        (fun s => if (s.view i).LastTick then 0 else 1) (Action.begins i) (fun _ => 0)
        (fun s a t hs ha hst => by
          obtain ⟨l, hi⟩ := inv_of_reach hs.1.reach
          exact ⟨hkeep s a t hs ha hst, serverStep_begins hst hi (hs.1.willExit hs.2)⟩)
        ⟨hending, htold⟩ has hrun
      have hnone : (as.map fun _ => 0).sum = 0 := by simp
      have hone : (if (s.view i).LastTick then 0 else 1) ≤ 1 := by split_ifs <;> omega
      omega
    · have hcost := System.run_cost (M := serverSystem P cfg) I (¬ SpawnsOutside ·)
        (fun s => s.stepsLeft i) (Action.moves i) (Action.feeds i)
        (fun s a t hs ha hst => ⟨hkeep s a t hs ha hst, hs.1.stepsLeft_step ha hst hs.2⟩)
        ⟨hending, htold⟩ has hrun
      omega

/-- The server of one connection is stopped when worker 1 has left its loops:
worker 0 is told and can leave them too. -/
theorem shutdown_ends_stopped : ∃ s : State Platform.lists,
    (s.workers 0).pc = .start ∧ s.acceptPc.HasTold twoWorkers 0 ∧
      (∃ as t, (serverSystem Platform.lists twoWorkers).run s as = some t ∧ t.Ended twoWorkers) ∧
      ∀ as t, (∀ a ∈ as, ¬ SpawnsOutside a) →
        (serverSystem Platform.lists twoWorkers).run s as = some t →
        (as.map (Action.begins 0)).sum ≤ 1 := by
  have hrun : ((serverSystem Platform.lists twoWorkers).checkedRun
      (fun _ a => ¬ SpawnsOutside a) (serverCreate _ twoWorkers zeroHeap)
      (.acceptStep 0 :: acceptOne ++ tickOne 1 ++ [.worker 1 (.task (.ret 0))] ++ finishOne 1 ++
        stopAll)).map (fun s => (s.acceptPc, (s.workers 0).pc)) = some (.shutdown 2, .start) := by
    decide
  obtain ⟨s, hs, heq⟩ := Option.map_eq_some_iff.mp hrun
  obtain ⟨haccept, hpc⟩ := Prod.mk.inj heq
  have hfull : s.FoundFull := by
    rw [State.FoundFull, haccept]
    trivial
  have htold : s.acceptPc.HasTold twoWorkers 0 := by
    rw [haccept]
    exact ⟨by decide, by decide⟩
  obtain ⟨hends, hsteps⟩ := shutdown_ends Platform.lists twoWorkers rfl
    (System.Reach.checkedRun (.init ⟨zeroHeap, zeroHeap_fresh, rfl⟩) _ hs) hfull
  exact ⟨s, hpc, htold, hends, fun as t has hrun => (hsteps as t has hrun 0 htold).1⟩

end Lawd

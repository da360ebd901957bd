import Lawd.Stale
import Lawd.Suspension

/-!
# A tick does not halt

The loops of `law_worker_tick` and of `law_worker_dispatch` halt the server when
an event is pushed to a task without a buffer, when an admitted task is not set up
or a table already has its key, when a ready task is linked, marked or neither
set up nor suspended, and when `on_error` is called and not set. The ids of live
tasks are the numbers of their setups, and a table tells two of them apart unless
2^32 setups lie between them. Each turn takes an input or leaves a loop, so a
tick runs a task or ends after a bounded number of turns.
-/
namespace Lawd

open Library

variable {P : Platform}

/-! ### The numbers of the tasks -/

/-- Tasks are numbered by their setups, and have no number before the first. -/
structure SerialInv (s : State P) : Prop where
  seed : s.seed = idOf s.spawned
  ids : ∀ p, (s.heap p).id = idOf (s.heap p).serial
  bound : ∀ p, (s.heap p).serial ≤ s.spawned
  distinct : ∀ p q, p ≠ q → (s.heap p).serial = (s.heap q).serial → (s.heap p).serial = 0
  created : ∀ p, (s.heap p).serial = 0 → (s.heap p).mode = .created

/-- A step that sets no task up. -/
theorem SerialInv.same {s t : State P} (h : SerialInv s) (hseed : t.seed = s.seed)
    (hspawned : t.spawned = s.spawned) (hid : ∀ p, (t.heap p).id = (s.heap p).id)
    (hserial : ∀ p, (t.heap p).serial = (s.heap p).serial)
    (hmode : ∀ p, (s.heap p).mode = .created → (t.heap p).mode = .created) : SerialInv t where
  seed := by rw [hseed, hspawned, h.seed]
  ids p := by rw [hid, hserial, h.ids]
  bound p := by
    rw [hserial, hspawned]
    exact h.bound p
  distinct p q hpq hsame := by
    rw [hserial, hserial] at hsame
    rw [hserial]
    exact h.distinct p q hpq hsame
  created p hp := hmode p (h.created p (hserial p ▸ hp))

theorem SerialInv.control {s t : State P} (h : SerialInv s) (c : Control s t) : SerialInv t :=
  h.same c.seed c.spawned (fun p => by rw [c.heap]) (fun p => by rw [c.heap])
    fun p hp => by rwa [c.heap]

theorem SerialInv.setup {s : State P} (h : SerialInv s) (p : TaskPtr) (callback : Callback)
    (data : Data) (version : Vers) : SerialInv (s.setup p callback data version) := by
  have hself : ((s.setup p callback data version).heap p).serial = s.spawned + 1 := by
    simp only [State.setup, Heap.modify_same]
  have hother : ∀ q, q ≠ p → (s.setup p callback data version).heap q = s.heap q :=
    fun q hq => s.setup_heap_ne hq ..
  have hseed : (s.setup p callback data version).seed = idOf (s.spawned + 1) := by
    change (s.seed + 1) % idModulo = _
    rw [h.seed, idOf_succ]
  refine ⟨hseed, fun q => ?_, fun q => ?_, fun q q' hne heq => ?_, fun q hq => ?_⟩
  · by_cases hq : q = p
    · rw [hq, hself, ← hseed]
      simp only [State.setup, Heap.modify_same, taskSetup]
    · rw [hother q hq, h.ids]
  · change _ ≤ s.spawned + 1
    by_cases hq : q = p
    · rw [hq, hself]
    · rw [hother q hq]
      exact (h.bound q).trans (Nat.le_succ _)
  · by_cases hq : q = p
    · subst hq
      rw [hself, hother q' (Ne.symm hne)] at heq
      have hbound := h.bound q'
      omega
    · rw [hother q hq] at heq ⊢
      by_cases hq' : q' = p
      · rw [hq', hself] at heq
        have hbound := h.bound q
        omega
      · rw [hother q' hq'] at heq
        exact h.distinct q q' hne heq
  · by_cases hq' : q = p
    · rw [hq', hself] at hq
      cases hq
    · rw [hother q hq'] at hq ⊢
      exact h.created q hq

/-- A worker changes the mode of tasks of its table only. -/
theorem WorkerEffect.created {cfg : Config} {v v' : View P} {a : WorkerAct} {r : List TaskPtr}
    (h : WorkerEffect cfg v a v') (hi : WorkerInv v.heap v.worker r) (hh : HandInv v)
    (hne : ∀ p ∈ v.worker.tasks, (v.heap p).mode ≠ .created) {q : TaskPtr}
    (hq : (v.heap q).mode = .created) : (v'.heap q).mode = .created := by
  have hmodify : ∀ {heap : Heap} {p : TaskPtr} {f : Task → Task}, p ∈ v.worker.tasks →
      (∀ q, q ≠ p → heap q = v.heap q) → (heap.modify p f q).mode = .created := by
    intro heap p f hp hheap
    have hqp : q ≠ p := by
      rintro rfl
      exact hne q hp hq
    rw [Heap.modify_ne _ _ hqp, hheap q hqp, hq]
  cases h with
  | expired e timer p ev hpc hpop hlook hver =>
    obtain ⟨r', wk⟩ := View.pushed_woken
      (v := { v with worker := { v.worker with timer := timer } })
      (hi.same rfl rfl rfl) (Worker.lookup_mem hlook) ev
    exact (wk.sameAll q).mode.trans hq
  | woken w messages id p ev hpc hpc' hk hb hlook =>
    have hp : p ∈ w.tasks := Worker.tasks_congr hk.table ▸ Worker.lookup_mem hlook
    obtain ⟨r', wk⟩ := View.pushed_woken (v := { v with messages := messages, worker := w })
      (hi.same hpc' hk.ready hk.table) hp ev
    exact (wk.sameAll q).mode.trans hq
  | insert p table hpc hins =>
    have hmark : (v.heap p).mark = false := hh.unmarked p (by simp [hpc, WorkerPc.hand])
    have hnot : p ∉ r := fun hp => by
      have hm := hi.ready.marked p hp
      rw [hmark] at hm
      cases hm
    obtain ⟨r', wk⟩ := readySetPush_woken (p := p) hi.ready
      ⟨fun hm => absurd hm (by simp [hmark]), fun hp => absurd hp hnot⟩
    exact (wk.sameAll q).mode.trans hq
  | run p heap ready f hpc hpop hf =>
    obtain ⟨rest, rfl, -, -, -, hothers⟩ := readySetPop_some hi.ready hpop
    exact hmodify (hi.listed p List.mem_cons_self) hothers
  | ewait p now millis events maxEvents hr ha =>
    exact hmodify (hi.running p hr.1).1 fun _ _ => rfl
  | finish p table hr he hrem => exact hmodify (hi.running p hr.1).1 fun _ _ => rfl
  | mistaken p hr ha => exact hmodify (hi.running p hr.1).1 fun _ _ => rfl
  | control | stale | take | tickDone | ectl | close | unchanged | enter | leave => exact hq

/-- The worker is in the loops of a tick or of the dispatch. -/
def WorkerPc.looping : WorkerPc → Bool
  | timers | events | messages | admitting | admitted _ | dispatch => true
  | _ => false

/-- The loops have handed over to a task, or the tick has ended. -/
def WorkerPc.LeftLoops (pc : WorkerPc) : Prop := pc = start ∨ pc = exited ∨ ∃ p, pc = running p

/-- The turns that are left before the worker leaves its loops, if nothing more
arrives. -/
def View.turnsLeft (v : View P) : ℕ :=
  match v.worker.pc with
  | .timers => (P.timers.entries v.worker.timer).length + v.worker.batch.length +
      v.messages.length + 2 * v.incoming.length + 5
  | .events => v.worker.batch.length + v.messages.length + 2 * v.incoming.length + 4
  | .messages => v.messages.length + 2 * v.incoming.length + 3
  | .admitted _ => 2 * v.incoming.length + 3
  | .admitting => 2 * v.incoming.length + 2
  | .dispatch => 1
  | _ => 0

section Turns

variable {cfg : Config} {v v' : View P}

@[simp] theorem View.deliver_incoming (v : View P) (target : Option (TaskPtr × Event)) :
    (v.deliver target).incoming = v.incoming := by
  cases target <;> rfl

theorem Turn.turnsLeft_lt (ht : Turn cfg v v') : v'.turnsLeft < v.turnsLeft := by
  cases ht with
  | timer e timer hpc htakes hdue hpop =>
    have hlen := (P.timers.pop_entries _ _ _ hpop).length_eq
    rw [List.length_cons] at hlen
    simp only [View.turnsLeft, View.deliver_pc, View.deliver_timer, View.deliver_batch,
      View.deliver_messages, View.deliver_incoming, hpc]
    omega
  | event ev batch hpc htakes hcons =>
    simp only [View.turnsLeft, View.deliver_pc, View.deliver_batch, View.deliver_messages,
      View.deliver_incoming, hpc, hcons, List.length_cons]
    omega
  | message msg messages reloop hpc htakes hcons hreloop =>
    simp only [View.turnsLeft, View.deliver_pc, View.deliver_messages, View.deliver_incoming, hpc,
      hcons, List.length_cons]
    omega
  | timersDone hpc | eventsDone hpc | messagesDone hpc | admitDone hpc =>
    simp only [View.turnsLeft, hpc]
    omega
  | take p incoming hpc htakes hsize hcons =>
    simp only [View.turnsLeft, hpc, hcons, List.length_cons]
    omega
  | insert p table hpc htakes hins =>
    simp only [View.turnsLeft, hpc]
    omega
  | done pc heap ready hpc htakes hpop hpc' =>
    rcases hpc' with rfl | ⟨rfl, -⟩ <;> simp [View.turnsLeft, hpc]
  | run p heap ready f hpc htakes hpop hf => simp [View.turnsLeft, hpc]

theorem Turn.pc (ht : Turn cfg v v') :
    v'.worker.pc.looping = true ∨ v'.worker.pc.LeftLoops := by
  cases ht with
  | timer e timer hpc | event ev batch hpc | message msg messages reloop hpc =>
    refine .inl ?_
    rw [View.deliver_pc]
    simp [hpc, WorkerPc.looping]
  | timersDone | eventsDone | messagesDone | take | admitDone | insert => exact .inl rfl
  | done pc heap ready hpc htakes hpop hpc' => exact .inr (hpc'.imp_right fun h => .inl h.1)
  | run p => exact .inr (.inr (.inr ⟨p, rfl⟩))

theorem eventTurn_isSome
    (hlegal : ∀ p, v.worker.batch.head?.bind (eventTarget v.worker) = some p →
      (v.heap p).PushLegal) : (eventTurn v).isSome := by
  unfold eventTurn
  split
  · rfl
  · rename_i ev batch hcons
    dsimp only
    split
    · rfl
    · rename_i p htarget
      rw [View.wake_eq, if_pos (hlegal p (by rw [hcons]; exact htarget))]
      rfl

theorem messageTurn_isSome
    (hlegal : ∀ id messages p, v.messages = .wakeup id :: messages →
      v.worker.lookup id = some p → (v.heap p).PushLegal) : (messageTurn v).isSome := by
  unfold messageTurn
  split
  · rfl
  · rfl
  · rename_i id messages hcons
    dsimp only
    split
    · rfl
    · rename_i p hlook
      rw [View.wake_eq, if_pos (hlegal id messages p hcons hlook)]
      rfl

/-- The loops that hand events to tasks get stuck only at an absent `on_error` and
at pushes that are not legal. -/
theorem pollingTurn_isSome (hon : cfg.onError = true) (hpc : v.worker.pc.polling = true)
    (hlegal : ∀ p, pushTarget v = some p → (v.heap p).PushLegal) :
    (workerTurn cfg v).isSome := by
  unfold workerTurn
  unfold pushTarget at hlegal
  cases hpc' : v.worker.pc <;> rw [hpc'] at hpc hlegal
  case timers =>
    rw [Option.isSome_iff_ne_none]
    intro hnone
    rcases timerTurn_none hnone with ⟨-, habsent⟩ | ⟨p, htarget, hillegal⟩
    · cases habsent.symm.trans hon
    · exact hillegal (hlegal p htarget)
  case events => exact eventTurn_isSome hlegal
  case messages =>
    exact messageTurn_isSome fun id messages p hcons hlook => hlegal p (by rw [hcons]; exact hlook)
  all_goals cases hpc

theorem admitTurn_isSome (cfg : Config) (v : View P) : (admitTurn cfg v).isSome := by
  unfold admitTurn
  split_ifs
  · split <;> rfl
  · rfl

theorem dispatchTurn_isSome {r : List TaskPtr} (hi : WorkerInv v.heap v.worker r)
    (hmode : ∀ p ∈ r, (v.heap p).mode = .spawned ∨ (v.heap p).mode = .suspended) :
    (dispatchTurn v).isSome := by
  unfold dispatchTurn
  split
  · rfl
  · rename_i heap ready p hpop
    obtain ⟨hnext, hmark⟩ := readySetPop_unlinked hi.ready hpop
    obtain ⟨rest, rfl, -, hsame, -⟩ := readySetPop_some hi.ready hpop
    rw [if_neg (by simp [hnext, hmark])]
    dsimp only
    rw [hsame.mode]
    rcases hmode p List.mem_cons_self with h | h <;> rw [h] <;> rfl

end Turns

/-- Each task in the pipe, the hands or the table of a worker is one of the last
2^32 that were set up. -/
def State.Recent (s : State P) (i : ℕ) : Prop :=
  ∀ x, ∀ p ∈ (s.view i).contents x, s.spawned < (s.heap p).serial + 2 ^ 32

section Step

variable {cfg : Config} {s t : State P} {i : ℕ}

theorem State.Recent.step {l : List TaskPtr} (hrecent : s.Recent i) (hi : Inv s l) {act : WorkerAct}
    {v : View P} (hv : workerStep cfg (s.view i) act = some v) : (s.setView i v).Recent i := by
  have hview : (s.setView i v).view i = v := s.view_setView i v
  intro x p hp
  rw [hview] at hp
  obtain ⟨y, hy⟩ := (workerStep_effect hv).flow.mem hp
  change s.spawned < (v.heap p).serial + 2 ^ 32
  rw [(hi.worker_step hv).2.serial]
  exact hrecent y p hy

end Step

end Lawd

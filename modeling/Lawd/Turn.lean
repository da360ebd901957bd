import Lawd.Worker

/-!
# The turns of a tick

A turn of the loops of `law_worker_tick` takes an input, or leaves a loop that
has none left, and a turn of `law_worker_dispatch` runs a task or ends the tick.
All that is said of the loops is derived from this list of turns.
-/
namespace Lawd

open Library

variable {P : Platform}

/-- What the loops of a tick take. -/
inductive TickInput where
  | timer (e : TimerElem)
  | event (ev : Event)
  | message (msg : Msg)
  | task (p : TaskPtr)
  deriving DecidableEq, Repr

/-- What the next turn of the loops takes. -/
def View.takes (v : View P) : Option TickInput :=
  match v.worker.pc with
  | .timers => (P.timers.peek v.worker.timer).bind fun e =>
      if e.expiration > v.worker.now then none else some (.timer e)
  | .events => v.worker.batch.head?.map .event
  | .messages => v.messages.head?.map .message
  | .admitted p => some (.task p)
  | _ => none

/-- The task that an input is resolved to by `law_table_lookup`, if any, and the
event that it is handed. A timer entry must carry the version of the task. -/
def resolve (w : Worker P) (heap : Heap) : TickInput → Option (TaskPtr × Event)
  | .timer e => (w.lookup e.identifier).bind fun p =>
      if (heap p).version = e.version then some (p, ⟨evTim, 0⟩) else none
  | .event ev => (eventTarget w ev).map fun p => (p, ev)
  | .message (.wakeup id) => (w.lookup id).map fun p => (p, ⟨evWak, 0⟩)
  | .message .shutdown => none
  | .task _ => none

/-- Hand the event, if any, to a task that it may be pushed to. -/
def View.deliver (v : View P) : Option (TaskPtr × Event) → View P
  | none => v
  | some (p, ev) => v.pushed p ev

/-- The event, if any, may be pushed to its task. -/
def LegalPush (heap : Heap) (target : Option (TaskPtr × Event)) : Prop :=
  ∀ p ev, target = some (p, ev) → (heap p).PushLegal

@[simp] theorem legalPush_none (heap : Heap) : LegalPush heap none := by
  intro p ev h
  cases h

@[simp] theorem legalPush_some {heap : Heap} {p : TaskPtr} {ev : Event} :
    LegalPush heap (some (p, ev)) ↔ (heap p).PushLegal := by
  constructor
  · exact fun h => h p ev rfl
  · rintro h q ev' heq
    cases heq
    exact h

section Deliver

variable (v : View P) (target : Option (TaskPtr × Event))

@[simp] theorem View.deliver_pc : (v.deliver target).worker.pc = v.worker.pc := by
  cases target <;> rfl

@[simp] theorem View.deliver_reloop : (v.deliver target).worker.reloop = v.worker.reloop := by
  cases target <;> rfl

@[simp] theorem View.deliver_now : (v.deliver target).worker.now = v.worker.now := by
  cases target <;> rfl

@[simp] theorem View.deliver_timer : (v.deliver target).worker.timer = v.worker.timer := by
  cases target <;> rfl

@[simp] theorem View.deliver_batch : (v.deliver target).worker.batch = v.worker.batch := by
  cases target <;> rfl

@[simp] theorem View.deliver_table : (v.deliver target).worker.table = v.worker.table := by
  cases target <;> rfl

@[simp] theorem View.deliver_messages : (v.deliver target).messages = v.messages := by
  cases target <;> rfl

end Deliver

/-- The loops of a tick in turn, and then the dispatch. -/
def WorkerPc.phase : WorkerPc → ℕ
  | timers => 0
  | events => 1
  | messages => 2
  | admitting | admitted _ => 3
  | _ => 4

namespace TickInput

/-- The loop that takes the input. -/
def phase : TickInput → ℕ
  | timer _ => 0
  | event _ => 1
  | message _ => 2
  | task _ => 3

end TickInput

/-- The turns of a tick. -/
inductive Turn (cfg : Config) (v : View P) : View P → Prop
  | timer (e : TimerElem) (timer : P.timers.Queue) :
      v.worker.pc = .timers → v.takes = some (.timer e) → e.expiration ≤ v.worker.now →
      P.timers.pop v.worker.timer = some (e, timer) →
      LegalPush v.heap (resolve v.worker v.heap (.timer e)) →
      Turn cfg v (View.deliver { v with worker := { v.worker with timer := timer } }
        (resolve v.worker v.heap (.timer e)))
  | timersDone :
      v.worker.pc = .timers → v.takes = none →
      (∀ e ∈ P.timers.entries v.worker.timer, v.worker.now < e.expiration) →
      Turn cfg v { v with worker := { v.worker with pc := .events } }
  | event (ev : Event) (batch : List Event) :
      v.worker.pc = .events → v.takes = some (.event ev) → v.worker.batch = ev :: batch →
      LegalPush v.heap (resolve v.worker v.heap (.event ev)) →
      Turn cfg v (View.deliver { v with worker := { v.worker with batch := batch } }
        (resolve v.worker v.heap (.event ev)))
  | eventsDone :
      v.worker.pc = .events → v.takes = none → v.worker.batch = [] →
      Turn cfg v { v with worker := { v.worker with pc := .messages } }
  | message (msg : Msg) (messages : List Msg) (reloop : Bool) :
      v.worker.pc = .messages → v.takes = some (.message msg) → v.messages = msg :: messages →
      reloop = v.worker.reloop ∨ msg = .shutdown →
      LegalPush v.heap (resolve v.worker v.heap (.message msg)) →
      Turn cfg v (View.deliver
        { v with messages := messages, worker := { v.worker with reloop := reloop } }
        (resolve v.worker v.heap (.message msg)))
  | messagesDone :
      v.worker.pc = .messages → v.takes = none → v.messages = [] →
      Turn cfg v { v with worker := { v.worker with pc := .admitting } }
  | take (p : TaskPtr) (incoming : List TaskPtr) :
      v.worker.pc = .admitting → v.takes = none →
      tableSize P.tables v.worker.table ≤ cfg.workerTasks → v.incoming = p :: incoming →
      Turn cfg v { v with incoming := incoming, worker := { v.worker with pc := .admitted p } }
  | admitDone :
      v.worker.pc = .admitting → v.takes = none →
      Turn cfg v { v with worker := { v.worker with pc := .dispatch } }
  | insert (p : TaskPtr) (table : P.tables.Map) :
      v.worker.pc = .admitted p → v.takes = some (.task p) →
      tableInsert P.tables v.worker.table (v.heap p).id (some p) = (.success, table) →
      (v.heap p).mode = .spawned →
      Turn cfg v { v with heap := (readySetPush v.heap v.worker.ready p).1,
                          worker := { v.worker with
                            pc := .admitting, table := table,
                            ready := (readySetPush v.heap v.worker.ready p).2 } }
  | done (pc : WorkerPc) (heap : Heap) (ready : Option TaskPtr) :
      v.worker.pc = .dispatch → v.takes = none →
      readySetPop v.heap v.worker.ready = (heap, ready, none) →
      pc = .start ∨ pc = .exited ∧ v.worker.reloop = false →
      Turn cfg v { v with worker := { v.worker with pc := pc } }
  | run (p : TaskPtr) (heap : Heap) (ready : Option TaskPtr) (f : Task → Task) :
      v.worker.pc = .dispatch → v.takes = none →
      readySetPop v.heap v.worker.ready = (heap, ready, some p) →
      ((heap p).mode = .spawned ∧ f = startTask ∨ (heap p).mode = .suspended ∧ f = resumeTask) →
      Turn cfg v { v with heap := heap.modify p f,
                          worker := { v.worker with
                            pc := .running p, ready := ready, active := some p } }

theorem callOnError_some {σ : Type*} {cfg : Config} {s t : σ} (h : callOnError cfg s = some t) :
    t = s := by
  unfold callOnError at h
  split_ifs at h
  exact (Option.some.inj h).symm

theorem timerTurn_turn {cfg : Config} {v v' : View P} (hpc : v.worker.pc = .timers)
    (h : timerTurn cfg v = some v') : Turn cfg v v' := by
  unfold timerTurn at h
  split at h
  · rename_i hpeek
    obtain rfl := Option.some.inj h
    refine .timersDone hpc (by rw [View.takes, hpc]; simp only [hpeek, Option.bind_none]) ?_
    rw [(P.timers.peek_none _).mp hpeek]
    exact fun e he => by cases he
  · rename_i e hpeek
    have htakes : v.takes = if e.expiration > v.worker.now then none else some (.timer e) := by
      rw [View.takes, hpc]
      simp only [hpeek, Option.bind_some]
    split_ifs at h with hlate
    · obtain rfl := Option.some.inj h
      rw [if_pos hlate] at htakes
      exact .timersDone hpc htakes fun e' he' =>
        lt_of_lt_of_le hlate (P.timers.peek_least _ _ hpeek e' he')
    · rw [if_neg hlate] at htakes
      obtain ⟨timer, hpop, -⟩ := PriorityQueue.pop_of_peek hpeek
      have hturn : _ → Turn cfg v _ := Turn.timer e timer hpc htakes (not_lt.mp hlate) hpop
      rw [hpop] at h
      dsimp only at h
      have hlookup : ∀ id, Worker.lookup { v.worker with timer := timer } id =
          v.worker.lookup id := fun _ => rfl
      rw [hlookup] at h
      simp only [resolve] at hturn
      split at h
      · rename_i hnone
        obtain rfl := callOnError_some h
        rw [hnone] at hturn
        exact hturn (legalPush_none _)
      · rename_i p hsome
        rw [hsome, Option.bind_some] at hturn
        split_ifs at h with hver
        · obtain rfl := callOnError_some h
          rw [if_neg hver] at hturn
          exact hturn (legalPush_none _)
        · obtain ⟨hlegal, rfl⟩ := View.wake_some h
          rw [if_pos (not_not.mp hver)] at hturn
          exact hturn (legalPush_some.mpr hlegal)

theorem eventTurn_turn {cfg : Config} {v v' : View P} (hpc : v.worker.pc = .events)
    (h : eventTurn v = some v') : Turn cfg v v' := by
  unfold eventTurn at h
  split at h
  · rename_i hnil
    obtain rfl := Option.some.inj h
    exact .eventsDone hpc (by rw [View.takes, hpc]; simp only [hnil]; rfl) hnil
  · rename_i ev batch hcons
    have hturn : _ → Turn cfg v _ := Turn.event ev batch hpc
      (by rw [View.takes, hpc]; simp only [hcons]; rfl) hcons
    dsimp only at h
    have htarget : eventTarget { v.worker with batch := batch } ev = eventTarget v.worker ev := rfl
    rw [htarget] at h
    simp only [resolve] at hturn
    split at h
    · rename_i hnone
      obtain rfl := Option.some.inj h
      rw [hnone] at hturn
      exact hturn (legalPush_none _)
    · rename_i p hsome
      obtain ⟨hlegal, rfl⟩ := View.wake_some h
      rw [hsome] at hturn
      exact hturn (legalPush_some.mpr hlegal)

theorem messageTurn_turn {cfg : Config} {v v' : View P} (hpc : v.worker.pc = .messages)
    (h : messageTurn v = some v') : Turn cfg v v' := by
  have htakes : v.takes = v.messages.head?.map .message := by rw [View.takes, hpc]
  unfold messageTurn at h
  split at h
  · rename_i hnil
    obtain rfl := Option.some.inj h
    exact .messagesDone hpc (by rw [htakes, hnil]; rfl) hnil
  · rename_i messages hcons
    obtain rfl := Option.some.inj h
    exact .message .shutdown messages false hpc (by rw [htakes, hcons]; rfl) hcons (.inr rfl)
      (legalPush_none _)
  · rename_i id messages hcons
    have hturn : _ → Turn cfg v _ := Turn.message (.wakeup id) messages v.worker.reloop hpc
      (by rw [htakes, hcons]; rfl) hcons (.inl rfl)
    dsimp only at h
    simp only [resolve] at hturn
    split at h
    · rename_i hnone
      obtain rfl := Option.some.inj h
      rw [show v.worker.lookup id = none from hnone] at hturn
      exact hturn (legalPush_none _)
    · rename_i p hsome
      obtain ⟨hlegal, rfl⟩ := View.wake_some h
      rw [show v.worker.lookup id = some p from hsome] at hturn
      exact hturn (legalPush_some.mpr hlegal)

theorem workerTurn_turn {cfg : Config} {v v' : View P} (h : workerTurn cfg v = some v') :
    Turn cfg v v' := by
  unfold workerTurn at h
  split at h
  case h_1 hpc => exact timerTurn_turn hpc h
  case h_2 hpc => exact eventTurn_turn hpc h
  case h_3 hpc => exact messageTurn_turn hpc h
  case h_4 hpc =>
    have htakes : v.takes = none := by rw [View.takes, hpc]
    unfold admitTurn at h
    split_ifs at h with hsize
    · split at h
      · obtain rfl := Option.some.inj h
        exact .admitDone hpc htakes
      · rename_i p incoming hcons
        obtain rfl := Option.some.inj h
        exact .take p incoming hpc htakes hsize hcons
    · obtain rfl := Option.some.inj h
      exact .admitDone hpc htakes
  case h_5 p hpc =>
    unfold insertTurn at h
    split_ifs at h with hmode
    split at h
    · rename_i table hins
      obtain rfl := Option.some.inj h
      exact .insert p table hpc (by rw [View.takes, hpc]) hins (not_not.mp hmode)
    · cases h
  case h_6 hpc =>
    have htakes : v.takes = none := by rw [View.takes, hpc]
    unfold dispatchTurn at h
    split at h
    · rename_i heap ready hpop
      obtain rfl := Option.some.inj h
      refine .done _ heap ready hpc htakes hpop ?_
      split_ifs with hreloop
      · exact .inl rfl
      · exact .inr ⟨rfl, by simpa using hreloop⟩
    · rename_i heap ready p hpop
      split_ifs at h
      dsimp only at h
      split at h
      · rename_i hmode
        obtain rfl := Option.some.inj h
        exact .run p heap ready startTask hpc htakes hpop (.inl ⟨hmode, rfl⟩)
      · rename_i hmode
        obtain rfl := Option.some.inj h
        exact .run p heap ready resumeTask hpc htakes hpop (.inr ⟨hmode, rfl⟩)
      · cases h
  case h_7 => cases h

section Phase

variable {cfg : Config} {v v' : View P}

theorem View.takes_phase {x : TickInput} (h : v.takes = some x) :
    x.phase = v.worker.pc.phase := by
  unfold View.takes at h
  split at h
  · rename_i hpc
    obtain ⟨e, -, he⟩ := Option.bind_eq_some_iff.mp h
    split_ifs at he
    rw [hpc, ← Option.some.inj he]
    rfl
  · rename_i hpc
    obtain ⟨ev, -, rfl⟩ := Option.map_eq_some_iff.mp h
    rw [hpc]
    rfl
  · rename_i hpc
    obtain ⟨msg, -, rfl⟩ := Option.map_eq_some_iff.mp h
    rw [hpc]
    rfl
  · rename_i p hpc
    rw [hpc, ← Option.some.inj h]
    rfl
  · cases h

theorem Turn.phase_le (ht : Turn cfg v v') : v.worker.pc.phase ≤ v'.worker.pc.phase := by
  cases ht with
  | timer e timer hpc htakes hdue hpop => rw [View.deliver_pc]
  | timersDone hpc htakes hlate => rw [hpc]; exact Nat.zero_le _
  | event ev batch hpc htakes hcons => rw [View.deliver_pc]
  | eventsDone hpc htakes hnil => rw [hpc]; exact Nat.le_succ 1
  | message msg messages reloop hpc htakes hcons hreloop => rw [View.deliver_pc]
  | messagesDone hpc htakes hnil => rw [hpc]; exact Nat.le_succ 2
  | take p incoming hpc htakes hsize hcons => rw [hpc]; exact le_rfl
  | admitDone hpc htakes => rw [hpc]; exact Nat.le_succ 3
  | insert p table hpc htakes hins => rw [hpc]; exact le_rfl
  | done pc heap ready hpc htakes hpop hpc' =>
    rw [hpc]
    rcases hpc' with rfl | ⟨rfl, -⟩ <;> exact le_rfl
  | run p heap ready f hpc htakes hpop hf => rw [hpc]; exact le_rfl

end Phase

end Lawd

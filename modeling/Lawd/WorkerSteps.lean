import Lawd.Turn
import Lawd.Library.Placement

/-!
# What a step of a worker does

Every step of a worker is one of a few effects on its table, timer, ready set
and poll set. The invariants of the server are derived from these effects
alone. The first of them says that the ready set lists tasks of the table, each
once, and that only these are marked.
-/
namespace Lawd

open Library

variable {P : Platform}

/-- Inside the loops of a tick. -/
def WorkerPc.inTick : WorkerPc → Bool
  | timers | events | messages | admitting | dispatch => true
  | _ => false

/-- What the control of the loops never changes. -/
structure Worker.Kept (w w' : Worker P) : Prop where
  ready : w'.ready = w.ready
  active : w'.active = w.active
  table : w'.table = w.table
  timer : w'.timer = w.timer
  interest : w'.interest = w.interest
  group : w'.group = w.group
  entries : w'.entries = w.entries

/-- Polled events wait only during the first two loops, and carry values that
are registered. -/
def Worker.BatchOk (w : Worker P) : Prop :=
  w.Reports w.batch ∧ (w.batch ≠ [] → w.pc = .timers ∨ w.pc = .events)

/-- The effects of a worker's steps. -/
inductive WorkerEffect (cfg : Config) (v : View P) (a : WorkerAct) : View P → Prop
  | control (w : Worker P) (messages : List Msg) :
      v.worker.pc.inTick = true ∨ v.worker.pc = .start → w.pc.inTick = true →
      v.worker.Kept w → (v.worker.BatchOk → w.BatchOk) →
      WorkerEffect cfg v a { v with messages := messages, worker := w }
  | stale (e : TimerElem) (timer : P.timers.Queue) :
      v.worker.pc = .timers → P.timers.pop v.worker.timer = some (e, timer) →
      (∀ p, v.worker.lookup e.identifier = some p → (v.heap p).version ≠ e.version) →
      WorkerEffect cfg v a { v with worker := { v.worker with timer := timer } }
  | expired (e : TimerElem) (timer : P.timers.Queue) (p : TaskPtr) (ev : Event) :
      v.worker.pc = .timers → P.timers.pop v.worker.timer = some (e, timer) →
      v.worker.lookup e.identifier = some p → (v.heap p).version = e.version →
      (v.heap p).PushLegal →
      WorkerEffect cfg v a
        (View.pushed { v with worker := { v.worker with timer := timer } } p ev)
  | woken (w : Worker P) (messages : List Msg) (id : Id) (p : TaskPtr) (ev : Event) :
      v.worker.pc.inTick = true → w.pc = v.worker.pc → v.worker.Kept w →
      (v.worker.BatchOk → w.BatchOk) → v.worker.lookup id = some p → (v.heap p).PushLegal →
      WorkerEffect cfg v a (View.pushed { v with messages := messages, worker := w } p ev)
  | take (p : TaskPtr) (incoming : List TaskPtr) :
      v.worker.pc = .admitting → tableSize P.tables v.worker.table ≤ cfg.workerTasks →
      v.incoming = p :: incoming →
      WorkerEffect cfg v a
        { v with incoming := incoming, worker := { v.worker with pc := .admitted p } }
  | insert (p : TaskPtr) (table : P.tables.Map) :
      v.worker.pc = .admitted p →
      tableInsert P.tables v.worker.table (v.heap p).id (some p) = (.success, table) →
      (v.heap p).mode = .spawned →
      WorkerEffect cfg v a
        { v with heap := (readySetPush v.heap v.worker.ready p).1,
                 worker := { v.worker with
                   pc := .admitting, table := table,
                   ready := (readySetPush v.heap v.worker.ready p).2 } }
  | tickDone (pc : WorkerPc) (heap : Heap) (ready : Option TaskPtr) :
      v.worker.pc = .dispatch → readySetPop v.heap v.worker.ready = (heap, ready, none) →
      pc = .start ∨ pc = .exited →
      WorkerEffect cfg v a { v with worker := { v.worker with pc := pc } }
  | run (p : TaskPtr) (heap : Heap) (ready : Option TaskPtr) (f : Task → Task) :
      v.worker.pc = .dispatch → readySetPop v.heap v.worker.ready = (heap, ready, some p) →
      ((heap p).mode = .spawned ∧ f = startTask ∨ (heap p).mode = .suspended ∧ f = resumeTask) →
      WorkerEffect cfg v a
        { v with heap := heap.modify p f,
                 worker := { v.worker with pc := .running p, ready := ready, active := some p } }
  | ectl (p : TaskPtr) (fd : ℕ) (op : EvOp) (flags events : BitVec 32) (data : Int8)
      (fails : Bool) (interest : List Reg) :
      v.Runs p → v.worker.active = some p → a = .task (.ectl fd op flags events data fails) →
      (∀ r ∈ interest, r ∈ v.worker.interest ∨
        op ≠ .del ∧ r = ectlReg (v.heap p) fd flags events data) →
      WorkerEffect cfg v a { v with worker := { v.worker with interest := interest } }
  | close (p : TaskPtr) (interest : List Reg) :
      v.Runs p → (∀ r ∈ interest, r ∈ v.worker.interest) →
      WorkerEffect cfg v a { v with worker := { v.worker with interest := interest } }
  | unchanged (p : TaskPtr) : v.Runs p → WorkerEffect cfg v a v
  | ewait (p : TaskPtr) (now millis : Time) (events : Bool) (maxEvents : ℤ) :
      v.Runs p → a = .task (.ewait now millis events maxEvents false) →
      WorkerEffect cfg v a
        { v with heap := v.heap.modify p (suspendTask events maxEvents),
                 worker := { v.worker with
                   pc := .dispatch,
                   timer := P.timers.insert v.worker.timer
                     ⟨now + millis, (v.heap p).id, (v.heap p).version⟩ } }
  | enter (p : TaskPtr) :
      v.Runs p → ¬ v.worker.Entered p → a = .task .enter →
      WorkerEffect cfg v a
        { v with worker := { v.worker with
                   group := (htsEntryPop v.worker.group p).2,
                   entries := (htsEntryPop v.worker.group p).1 :: v.worker.entries } }
  | leave (p : TaskPtr) (e : HtsEntry) :
      v.Runs p → e ∈ v.worker.entries → e.task = p →
      WorkerEffect cfg v a
        { v with worker := { v.worker with
                   group := htsEntryPush v.worker.group e,
                   entries := v.worker.entries.erase e } }
  | finish (p : TaskPtr) (table : P.tables.Map) :
      v.Runs p → ¬ v.worker.Entered p →
      tableRemove P.tables v.worker.table (v.heap p).id = (some p, table) →
      WorkerEffect cfg v a
        { v with heap := v.heap.modify p fun task => { task with callee := .ended },
                 worker := { v.worker with pc := .removed p, table := table } }
  | mistaken (p : TaskPtr) :
      v.Runs p → a = .task (.ret modeSuspended) →
      WorkerEffect cfg v a
        { v with heap := v.heap.modify p fun task =>
                   { task with callee := .ended, mode := .suspended },
                 worker := { v.worker with pc := .dispatch } }

theorem beginTick_effect {cfg : Config} {v v' : View P} {a : WorkerAct} {now : Time}
    {batch : List Event} (h : beginTick cfg v polled now batch = some v') :
    WorkerEffect cfg v a v' := by
  simp only [beginTick] at h
  split_ifs at h with hg
  obtain rfl := Option.some.inj h
  exact .control _ v.messages (.inr hg.1) rfl ⟨rfl, rfl, rfl, rfl, rfl, rfl, rfl⟩
    fun _ => ⟨hg.2, fun _ => .inl rfl⟩

theorem eventTarget_lookup {w : Worker P} {ev : Event} {p : TaskPtr}
    (h : eventTarget w ev = some p) :
    ev.data ≠ 0 ∧ w.lookup (slotDecode .little ev.data).id = some p := by
  unfold eventTarget at h
  split_ifs at h with hz
  exact ⟨hz, h⟩

theorem resolve_timer {w : Worker P} {heap : Heap} {e : TimerElem} {p : TaskPtr} {ev : Event}
    (h : resolve w heap (.timer e) = some (p, ev)) :
    w.lookup e.identifier = some p ∧ (heap p).version = e.version := by
  obtain ⟨q, hq, hver⟩ := Option.bind_eq_some_iff.mp h
  split_ifs at hver with hv
  obtain ⟨rfl, -⟩ := Prod.mk.inj (Option.some.inj hver)
  exact ⟨hq, hv⟩

theorem resolve_lookup {w : Worker P} {heap : Heap} {x : TickInput} {p : TaskPtr} {ev : Event}
    (h : resolve w heap x = some (p, ev)) : ∃ id, w.lookup id = some p := by
  cases x with
  | timer e => exact ⟨_, (resolve_timer h).1⟩
  | event ev' =>
    obtain ⟨q, hq, heq⟩ := Option.map_eq_some_iff.mp h
    obtain ⟨rfl, -⟩ := Prod.mk.inj heq
    exact ⟨_, (eventTarget_lookup hq).2⟩
  | message msg =>
    cases msg with
    | shutdown => cases h
    | wakeup id =>
      obtain ⟨q, hq, heq⟩ := Option.map_eq_some_iff.mp h
      obtain ⟨rfl, -⟩ := Prod.mk.inj heq
      exact ⟨id, hq⟩
  | task q => cases h

/-- A turn that takes an input hands it to a task or drops it. -/
theorem deliver_effect {cfg : Config} {v : View P} {a : WorkerAct} {w : Worker P}
    {messages : List Msg} {x : TickInput} (hpc : v.worker.pc.inTick = true)
    (hpc' : w.pc = v.worker.pc) (hk : v.worker.Kept w) (hb : v.worker.BatchOk → w.BatchOk)
    (hlegal : LegalPush v.heap (resolve v.worker v.heap x)) :
    WorkerEffect cfg v a
      (View.deliver { v with messages := messages, worker := w } (resolve v.worker v.heap x)) := by
  cases hres : resolve v.worker v.heap x with
  | none => exact .control w messages (.inl hpc) (by rw [hpc', hpc]) hk hb
  | some target =>
    obtain ⟨id, hlook⟩ := resolve_lookup hres
    exact .woken w messages id target.1 target.2 hpc hpc' hk hb hlook (hlegal _ _ hres)

theorem Turn.effect {cfg : Config} {v v' : View P} {a : WorkerAct} (ht : Turn cfg v v') :
    WorkerEffect cfg v a v' := by
  have hlate : v.worker.pc ≠ .timers → v.worker.pc ≠ .events → ∀ w : Worker P,
      w.batch = v.worker.batch → w.interest = v.worker.interest →
      v.worker.BatchOk → w.BatchOk := by
    rintro htimers hevents w hbatch hint ⟨-, hne⟩
    have hnil : w.batch = [] := by
      by_contra hb
      exact (hne (hbatch ▸ hb)).elim htimers hevents
    refine ⟨fun ev hev => ?_, fun hb => absurd hnil hb⟩
    rw [hnil] at hev
    cases hev
  cases ht with
  | timer e timer hpc htakes hdue hpop hlegal =>
    cases hres : resolve v.worker v.heap (.timer e) with
    | none =>
      refine .stale e timer hpc hpop fun p hp hver => ?_
      simp only [resolve, hp, Option.bind_some, if_pos hver] at hres
      cases hres
    | some target =>
      obtain ⟨hlook, hver⟩ := resolve_timer hres
      exact .expired e timer target.1 target.2 hpc hpop hlook hver (hlegal _ _ hres)
  | timersDone hpc htakes hlater =>
    exact .control _ v.messages (.inl (by rw [hpc]; rfl)) rfl ⟨rfl, rfl, rfl, rfl, rfl, rfl, rfl⟩
      fun hb => ⟨hb.1, fun _ => .inr rfl⟩
  | event ev batch hpc htakes hcons hlegal =>
    refine deliver_effect (by rw [hpc]; rfl) rfl ⟨rfl, rfl, rfl, rfl, rfl, rfl, rfl⟩ ?_ hlegal
    rintro ⟨hr, -⟩
    refine ⟨fun e he => hr e ?_, fun _ => .inr hpc⟩
    rw [hcons]
    exact List.mem_cons_of_mem _ he
  | eventsDone hpc htakes hnil =>
    exact .control _ v.messages (.inl (by rw [hpc]; rfl)) rfl ⟨rfl, rfl, rfl, rfl, rfl, rfl, rfl⟩
      fun hb => ⟨hb.1, fun hne => absurd hnil hne⟩
  | message msg messages reloop hpc htakes hcons hreloop hlegal =>
    exact deliver_effect (by rw [hpc]; rfl) rfl ⟨rfl, rfl, rfl, rfl, rfl, rfl, rfl⟩
      (hlate (by simp [hpc]) (by simp [hpc]) _ rfl rfl) hlegal
  | messagesDone hpc htakes hnil =>
    exact .control _ v.messages (.inl (by rw [hpc]; rfl)) rfl ⟨rfl, rfl, rfl, rfl, rfl, rfl, rfl⟩
      (hlate (by simp [hpc]) (by simp [hpc]) _ rfl rfl)
  | take p incoming hpc htakes hsize hcons => exact .take p incoming hpc hsize hcons
  | admitDone hpc htakes =>
    exact .control _ v.messages (.inl (by rw [hpc]; rfl)) rfl ⟨rfl, rfl, rfl, rfl, rfl, rfl, rfl⟩
      (hlate (by simp [hpc]) (by simp [hpc]) _ rfl rfl)
  | insert p table hpc htakes hins hmode => exact .insert p table hpc hins hmode
  | done pc heap ready hpc htakes hpop hpc' =>
    exact .tickDone pc heap ready hpc hpop (hpc'.imp_right And.left)
  | run p heap ready f hpc htakes hpop hf => exact .run p heap ready f hpc hpop hf

theorem evoCtl_mem {interest interest' : List Reg} {op : EvOp} {reg : Reg}
    (h : evoCtl interest op reg = some interest') :
    ∀ r ∈ interest', r ∈ interest ∨ op ≠ .del ∧ r = reg := by
  intro r hr
  cases op <;> simp only [evoCtl] at h <;> split_ifs at h <;> obtain rfl := Option.some.inj h
  · exact (List.mem_cons.mp hr).elim (fun h => .inr ⟨by simp, h⟩) .inl
  · exact (List.mem_cons.mp hr).elim (fun h => .inr ⟨by simp, h⟩)
      fun h => .inl (List.mem_of_mem_filter h)
  · exact .inl (List.mem_of_mem_filter hr)

theorem taskStep_effect {cfg : Config} {v v' : View P} {p : TaskPtr} {act : TaskAct}
    (hact : v.worker.active = some p) (hruns : v.Runs p) (h : taskStep v p act = some v') :
    WorkerEffect cfg v (.task act) v' := by
  cases act with
  | ectl fd op flags events data fails =>
    simp only [taskStep] at h
    split_ifs at h
    · obtain rfl := Option.some.inj h
      exact .unchanged p hruns
    · split at h
      · obtain rfl := Option.some.inj h
        exact .unchanged p hruns
      · rename_i interest hctl
        obtain rfl := Option.some.inj h
        exact .ectl p fd op flags events data fails interest hruns hact rfl (evoCtl_mem hctl)
  | close fd =>
    obtain rfl := Option.some.inj h
    exact .close p _ hruns fun r hr => List.mem_of_mem_filter hr
  | ewait now millis events maxEvents oom =>
    simp only [taskStep] at h
    split_ifs at h with hmillis hoom
    · obtain rfl := Option.some.inj h
      exact .unchanged p hruns
    · obtain rfl := Option.some.inj h
      exact .ewait p now millis events maxEvents hruns (by simpa using hoom)
  | enter =>
    simp only [taskStep] at h
    split_ifs at h with hent
    obtain rfl := Option.some.inj h
    exact .enter p hruns hent rfl
  | leave =>
    simp only [taskStep] at h
    split at h
    · cases h
    · rename_i e he
      obtain rfl := Option.some.inj h
      exact .leave p e hruns (List.mem_of_find?_eq_some he) (by simpa using List.find?_some he)
  | ret value =>
    simp only [taskStep] at h
    split_ifs at h with hent hval
    · obtain rfl := Option.some.inj h
      exact .mistaken p hruns (by rw [hval])
    · split at h
      · rename_i q table hrem
        split_ifs at h with hq
        subst hq
        obtain rfl := Option.some.inj h
        exact .finish q table hruns hent hrem
      · cases h

theorem workerStep_effect {cfg : Config} {v v' : View P} {a : WorkerAct}
    (h : workerStep cfg v a = some v') : WorkerEffect cfg v a v' := by
  cases a with
  | begin polled now batch => exact beginTick_effect h
  | turn => exact (workerTurn_turn h).effect
  | task act =>
    simp only [workerStep] at h
    split at h
    · cases h
    · rename_i p hact
      split_ifs at h with hruns
      exact taskStep_effect hact hruns h

theorem WorkerEffect.incoming {cfg : Config} {v v' : View P} {a : WorkerAct}
    (h : WorkerEffect cfg v a v') : v'.incoming ⊆ v.incoming := by
  cases h with
  | take p incoming hpc hsize hcons =>
    rw [hcons]
    exact List.subset_cons_self p incoming
  | _ => exact List.Subset.refl _

theorem WorkerEffect.admitted {cfg : Config} {v v' : View P} {a : WorkerAct} {p : TaskPtr}
    (h : WorkerEffect cfg v a v') (hpc : v'.worker.pc = .admitted p) : p ∈ v.incoming := by
  have hnot : v.worker.pc ≠ .admitted p → v'.worker.pc = v.worker.pc → p ∈ v.incoming :=
    fun hne heq => absurd (heq.symm.trans hpc) hne
  have hruns : ∀ {q : TaskPtr}, v.Runs q → v.worker.pc ≠ .admitted p := fun hr => by
    rw [hr.1]
    simp
  cases h with
  | control w messages hpc₀ hpc' hk hb =>
    rw [show w.pc = .admitted p from hpc] at hpc'
    cases hpc'
  | stale e timer hpc₀ hpop hst => exact hnot (by rw [hpc₀]; simp) rfl
  | expired e timer q ev hpc₀ hpop hlook hver => exact hnot (by rw [hpc₀]; simp) rfl
  | woken w messages id q ev hpc₀ hpc' hk hb hlook =>
    refine hnot (fun h => ?_) hpc'
    rw [h] at hpc₀
    cases hpc₀
  | take q incoming hpc₀ hsize hcons =>
    obtain rfl : q = p := by simpa using hpc
    rw [hcons]
    exact List.mem_cons_self
  | insert q table hpc₀ hins => cases hpc
  | tickDone pc heap ready hpc₀ hpop hpc' =>
    rw [show pc = .admitted p from hpc] at hpc'
    rcases hpc' with h | h <;> cases h
  | run q heap ready f hpc₀ hpop hf => cases hpc
  | ectl q fd op flags events data fails interest hr hact ha hint => exact hnot (hruns hr) rfl
  | close q interest hr hint => exact hnot (hruns hr) rfl
  | unchanged q hr => exact hnot (hruns hr) rfl
  | ewait q now millis events maxEvents hr ha => cases hpc
  | enter q hr he ha => exact hnot (hruns hr) rfl
  | leave q e hr he hq => exact hnot (hruns hr) rfl
  | finish q table hr he hrem => cases hpc
  | mistaken q hr ha => cases hpc

theorem workerStep_turn {cfg : Config} {v v' : View P} {a : WorkerAct}
    (h : workerStep cfg v a = some v') (hstart : v.worker.pc ≠ .start)
    (hrun : ∀ p, v.worker.pc ≠ .running p) : a = .turn := by
  cases a with
  | begin polled now batch =>
    simp only [workerStep, beginTick] at h
    split_ifs at h with hbegin
    exact absurd hbegin.1 hstart
  | turn => rfl
  | task act =>
    simp only [workerStep] at h
    split at h
    · cases h
    · split_ifs at h with hruns
      exact absurd hruns.1 (hrun _)

end Lawd

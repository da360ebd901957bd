import Lawd.Conservation

/-!
# Events reach the task that asked for them

The value of a registration holds the id of its task, and a worker finds the
task of an event by that id. Ids are serial numbers modulo 2^56, and a table
compares their low 32 bits only. Routing is exact as long as no task is
admitted next to a registration of another task with the same low 32 bits, and
no registration stores the value 0.
-/
namespace Lawd

open Library

variable {P : Platform}

/-- The id of the task set up as number `serial`. -/
def idOf (serial : ℕ) : Id := BitVec.ofNat 64 (serial % 2 ^ 56)

@[simp] theorem idOf_toNat (serial : ℕ) : (idOf serial).toNat = serial % 2 ^ 56 := by
  rw [idOf, BitVec.toNat_ofNat]
  omega

theorem idOf_lt (serial : ℕ) : idOf serial < idModulo := by
  rw [BitVec.lt_def, idOf_toNat]
  exact Nat.mod_lt _ (by norm_num)

/-- `law_server_genid` counts the serial numbers. -/
theorem idOf_succ (serial : ℕ) : (idOf serial + 1) % idModulo = idOf (serial + 1) := by
  apply BitVec.eq_of_toNat_eq
  rw [BitVec.toNat_umod, BitVec.toNat_add, idOf_toNat, idOf_toNat]
  change (serial % 2 ^ 56 + 1) % 2 ^ 64 % 2 ^ 56 = _
  omega

/-- The registrations of a worker: what they store, and that a task of the
table that could be mistaken for the task of a registration is that task. -/
structure RegsOk (heap : Heap) (w : Worker P) : Prop where
  stored : ∀ r ∈ w.interest, r.value = slotEncode .little r.slot ∧ r.slot.id = idOf r.serial
  nonzero : ∀ r ∈ w.interest, ¬ (r.slot.id = 0 ∧ r.slot.data = 0)
  own : ∀ r ∈ w.interest, ∀ p ∈ w.tasks,
    (heap p).id.setWidth 32 = r.slot.id.setWidth 32 → (heap p).serial = r.serial
  batch : w.BatchOk

/-- The invariant of event routing. -/
structure EventInv (s : State P) : Prop where
  seed : s.seed = idOf s.spawned
  ids : ∀ p, (s.heap p).id = idOf (s.heap p).serial
  regs : ∀ i, RegsOk s.heap (s.workers i)

/-- The step neither admits a task whose low 32 id bits are those of a
registration of the worker, nor stores id 0 with data 0. -/
def Unconfused (s : State P) : Action → Prop
  | .worker i .turn => ∀ p ∈ (s.workers i).pc.hand, ∀ r ∈ (s.workers i).interest,
      r.slot.id.setWidth 32 ≠ (s.heap p).id.setWidth 32
  | .worker i (.task (.ectl _ op _ _ data _)) =>
      op ≠ .del → ∀ p ∈ (s.workers i).active, ¬ ((s.heap p).id = 0 ∧ data = 0)
  | _ => True

/-- What the events of a registration need: a value that is not taken for a
notification, that decodes to the task's id and data, and that finds the task
that registered it, if it is still in the table, and no other. -/
structure Routed (s : State P) (i : ℕ) (r : Reg) : Prop where
  nonzero : r.value ≠ 0
  decoded : slotDecode .little r.value = r.slot
  found : ∀ p, (s.workers i).lookup r.slot.id = some p ↔
    p ∈ (s.workers i).tasks ∧ (s.heap p).serial = r.serial
  delivered : ∀ events p, eventTarget (s.workers i) ⟨events, r.value⟩ = some p ↔
    p ∈ (s.workers i).tasks ∧ (s.heap p).serial = r.serial

theorem RegsOk.routed {s : State P} {i : ℕ} {rs : List TaskPtr}
    (h : RegsOk s.heap (s.workers i)) (hi : WorkerInv s.heap (s.workers i) rs)
    (hids : ∀ p, (s.heap p).id = idOf (s.heap p).serial) {r : Reg}
    (hr : r ∈ (s.workers i).interest) : Routed s i r := by
  obtain ⟨hvalue, hid⟩ := h.stored r hr
  have hlt : r.slot.id < idModulo := hid ▸ idOf_lt r.serial
  have hdec : slotDecode .little r.value = r.slot := by
    rw [hvalue, slotDecode_slotEncode _ _ hlt]
  have hne : r.value ≠ 0 := fun hz => by
    rw [hvalue, slotEncode_eq_zero _ _ hlt] at hz
    exact h.nonzero r hr hz
  have hfound : ∀ p, (s.workers i).lookup r.slot.id = some p ↔
      p ∈ (s.workers i).tasks ∧ (s.heap p).serial = r.serial := by
    intro p
    constructor
    · intro hl
      have hp := Worker.lookup_mem hl
      exact ⟨hp, h.own r hr p hp (hi.lookup_low hl)⟩
    · rintro ⟨hp, hser⟩
      have hl := hi.lookup_task hp
      rwa [hids p, hser, ← hid] at hl
  refine ⟨hne, hdec, hfound, fun events p => ?_⟩
  rw [eventTarget, if_neg hne, hdec]
  exact hfound p

theorem Worker.BatchOk.of_empty {w w' : Worker P} (h : w.BatchOk) (hpc : w.pc ≠ .timers)
    (hpc' : w.pc ≠ .events) (hbatch : w'.batch = w.batch) : w'.BatchOk := by
  have hnil : w'.batch = [] := by
    by_contra hne
    rcases h.2 (hbatch ▸ hne) with h | h
    · exact hpc h
    · exact hpc' h
  refine ⟨fun ev hev => ?_, fun hne => absurd hnil hne⟩
  rw [hnil] at hev
  cases hev

theorem Worker.BatchOk.congr {w w' : Worker P} (h : w.BatchOk) (hpc : w'.pc = w.pc)
    (hbatch : w'.batch = w.batch) (hint : w'.interest = w.interest) : w'.BatchOk := by
  refine ⟨fun ev hev => ?_, fun hne => ?_⟩
  · rw [hint]
    exact h.1 ev (hbatch ▸ hev)
  · rw [hpc]
    exact h.2 (hbatch ▸ hne)

/-- The same registrations, and tasks that were in the table before. -/
theorem RegsOk.congr {heap heap' : Heap} {w w' : Worker P} (h : RegsOk heap w)
    (hid : ∀ p ∈ w'.tasks, (heap' p).id = (heap p).id ∧ (heap' p).serial = (heap p).serial)
    (hint : ∀ r ∈ w'.interest, r ∈ w.interest) (htasks : ∀ p ∈ w'.tasks, p ∈ w.tasks)
    (hbatch : w'.BatchOk) : RegsOk heap' w' where
  stored r hr := h.stored r (hint r hr)
  nonzero r hr := h.nonzero r (hint r hr)
  own r hr p hp hlow := by
    rw [(hid p hp).1] at hlow
    rw [(hid p hp).2]
    exact h.own r (hint r hr) p (htasks p hp) hlow
  batch := hbatch

/-- Each effect of a worker keeps its registrations in order. -/
theorem WorkerEffect.regsOk {cfg : Config} {v v' : View P} {a : WorkerAct} {r : List TaskPtr}
    (h : WorkerEffect cfg v a v') (hi : WorkerInv v.heap v.worker r)
    (hids : ∀ p, (v.heap p).id = idOf (v.heap p).serial)
    (hframe : LocalFrame v v') (ho : RegsOk v.heap v.worker)
    (hfresh : ∀ p, v.worker.pc = .admitted p → ∀ r ∈ v.worker.interest,
      r.slot.id.setWidth 32 ≠ (v.heap p).id.setWidth 32)
    (hectl : ∀ p fd op flags events data fails, v.worker.active = some p →
      a = .task (.ectl fd op flags events data fails) → op ≠ .del →
        ¬ ((v.heap p).id = 0 ∧ data = 0)) :
    RegsOk v'.heap v'.worker := by
  have hsame : ∀ p, (v'.heap p).id = (v.heap p).id ∧ (v'.heap p).serial = (v.heap p).serial :=
    fun p => ⟨hframe.id p, hframe.serial p⟩
  have hrunning : ∀ {p : TaskPtr} {w : Worker P}, v.Runs p → w.batch = v.worker.batch → w.BatchOk :=
    fun hr hb => ho.batch.of_empty (by rw [hr.1]; simp) (by rw [hr.1]; simp) hb
  cases h with
  | control w messages hpc hpc' hk hb =>
    exact ho.congr (fun p _ => hsame p) (fun r hr => hk.interest ▸ hr)
      (fun p hp => Worker.tasks_congr hk.table ▸ hp) (hb ho.batch)
  | stale e timer hpc hpop hst =>
    exact ho.congr (fun p _ => hsame p) (fun _ hr => hr) (fun _ hp => hp)
      (ho.batch.congr rfl rfl rfl)
  | expired e timer p ev hpc hpop hlook hver =>
    exact ho.congr (fun p _ => hsame p) (fun _ hr => hr) (fun _ hp => hp)
      (ho.batch.congr rfl rfl rfl)
  | woken w messages id p ev hpc hpc' hk hb hlook =>
    exact ho.congr (fun p _ => hsame p) (fun r hr => hk.interest ▸ hr)
      (fun p hp => Worker.tasks_congr hk.table ▸ hp) ((hb ho.batch).congr rfl rfl rfl)
  | take p incoming hpc hsize hcons =>
    exact ho.congr (fun p _ => hsame p) (fun _ hr => hr) (fun _ hp => hp)
      (ho.batch.of_empty (by rw [hpc]; simp) (by rw [hpc]; simp) rfl)
  | insert p table hpc hins =>
    have hperm : (Worker.tasks { v.worker with table := table }).Perm (p :: v.worker.tasks) :=
      Worker.tasks_insert hins
    refine ⟨ho.stored, ho.nonzero, fun r hr q hq hlow => ?_,
      ho.batch.of_empty (by rw [hpc]; simp) (by rw [hpc]; simp) rfl⟩
    rw [(hsame q).1] at hlow
    rw [(hsame q).2]
    rcases List.mem_cons.mp (hperm.subset hq) with rfl | hq'
    · exact absurd hlow.symm (hfresh q hpc r hr)
    · exact ho.own r hr q hq' hlow
  | tickDone pc heap ready hpc hpop hpc' =>
    exact ho.congr (fun p _ => hsame p) (fun _ hr => hr) (fun _ hp => hp)
      (ho.batch.of_empty (by rw [hpc]; simp) (by rw [hpc]; simp) rfl)
  | run p heap ready f hpc hpop hf =>
    exact ho.congr (fun p _ => hsame p) (fun _ hr => hr) (fun _ hp => hp)
      (ho.batch.of_empty (by rw [hpc]; simp) (by rw [hpc]; simp) rfl)
  | ectl p fd op flags events data fails interest hr hact ha hint =>
    have hp := (hi.running p hr.1).1
    refine ⟨fun r hr' => ?_, fun r hr' => ?_, fun r hr' q hq hlow => ?_, hrunning hr rfl⟩
    · rcases hint r hr' with hold | ⟨-, rfl⟩
      · exact ho.stored r hold
      · exact ⟨rfl, hids p⟩
    · rcases hint r hr' with hold | ⟨hop, rfl⟩
      · exact ho.nonzero r hold
      · exact hectl p fd op flags events data fails hact ha hop
    · rcases hint r hr' with hold | ⟨-, rfl⟩
      · exact ho.own r hold q hq hlow
      · rw [hi.task_low_inj hq hp hlow]
        rfl
  | close p interest hr hint =>
    exact ho.congr (fun p _ => hsame p) hint (fun _ hp => hp) (hrunning hr rfl)
  | unchanged p hr => exact ho
  | ewait p now millis events maxEvents hr ha =>
    exact ho.congr (fun p _ => hsame p) (fun _ hr => hr) (fun _ hp => hp) (hrunning hr rfl)
  | enter p hr he ha =>
    exact ho.congr (fun p _ => hsame p) (fun _ hr => hr) (fun _ hp => hp) (hrunning hr rfl)
  | leave p e hr he hp =>
    exact ho.congr (fun p _ => hsame p) (fun _ hr => hr) (fun _ hp => hp) (hrunning hr rfl)
  | finish p table hr he hrem =>
    have hperm : v.worker.tasks.Perm (p :: Worker.tasks { v.worker with table := table }) :=
      Worker.tasks_remove _ hrem
    exact ho.congr (fun p _ => hsame p) (fun _ hr => hr)
      (fun q hq => hperm.symm.subset (List.mem_cons_of_mem _ hq)) (hrunning hr rfl)
  | mistaken p hr ha =>
    exact ho.congr (fun p _ => hsame p) (fun _ hr => hr) (fun _ hp => hp) (hrunning hr rfl)

theorem EventInv.control {s t : State P} (he : EventInv s) (c : Control s t) : EventInv t where
  seed := by rw [c.seed, c.spawned, he.seed]
  ids p := by rw [c.heap, he.ids]
  regs i := by
    rw [c.heap]
    rcases c.workers i with h | ⟨pc, h, -, hold⟩
    · rw [h]
      exact he.regs i
    · rw [h]
      have hpc : (s.workers i).pc ≠ .timers ∧ (s.workers i).pc ≠ .events := by
        rcases hold with ⟨p, hp⟩ | hp <;> rw [hp] <;> simp
      exact (he.regs i).congr (fun _ _ => ⟨rfl, rfl⟩) (fun _ hr => hr) (fun _ hp => hp)
        ((he.regs i).batch.of_empty hpc.1 hpc.2 rfl)

theorem EventInv.setup {s : State P} {l : List TaskPtr} (he : EventInv s) (hi : Inv s l)
    {th : Tid} {p : TaskPtr} (hp : p ∈ s.hand th) (callback : Callback) (data : Data)
    (version : Vers) : EventInv (s.setup p callback data version) where
  seed := by
    change (s.seed + 1) % idModulo = idOf (s.spawned + 1)
    rw [he.seed, idOf_succ]
  ids q := by
    by_cases hq : q = p
    · subst hq
      simp only [State.setup, Heap.modify_same]
      change (s.seed + 1) % idModulo = idOf (s.spawned + 1)
      rw [he.seed, idOf_succ]
    · rw [s.setup_heap_ne hq, he.ids]
  regs i := by
    have hne : ∀ q ∈ (s.workers i).tasks, (s.setup p callback data version).heap q = s.heap q := by
      intro q hq
      refine s.setup_heap_ne ?_ ..
      rintro rfl
      exact hi.not_mem (x := .hand th) (y := .table i) hp (by simp) hq
    exact (he.regs i).congr (fun q hq => by rw [hne q hq]; exact ⟨rfl, rfl⟩) (fun _ hr => hr)
      (fun _ hp => hp) (he.regs i).batch

theorem EventInv.worker {s : State P} {l : List TaskPtr} (he : EventInv s) (hi : Inv s l)
    {cfg : Config} {i : ℕ} {act : WorkerAct} {v : View P}
    (ha : Unconfused s (.worker i act)) (hv : workerStep cfg (s.view i) act = some v) :
    EventInv (s.setView i v) := by
  have heff := workerStep_effect hv
  have hframe := (hi.worker_step hv).2
  obtain ⟨r, hr⟩ := hi.workers i
  refine ⟨he.seed, fun p => ?_, fun j => ?_⟩
  · change (v.heap p).id = idOf (v.heap p).serial
    rw [hframe.id, hframe.serial]
    exact he.ids p
  · by_cases hj : j = i
    · subst hj
      change RegsOk v.heap (Function.update s.workers j v.worker j)
      rw [Function.update_self]
      refine heff.regsOk hr he.ids hframe (he.regs j) (fun p hpc => ?_) ?_
      · have hpc' : (s.workers j).pc = .admitted p := hpc
        obtain rfl := workerStep_turn hv (by simp [State.view, hpc']) (by simp [State.view, hpc'])
        exact ha p (by rw [show (s.workers j).pc = .admitted p from hpc]; simp [WorkerPc.hand])
      · rintro p fd op flags events data fails hact rfl hop
        exact ha hop p hact
    · change RegsOk v.heap (Function.update s.workers i v.worker j)
      rw [Function.update_of_ne hj]
      exact (he.regs j).congr (fun p _ => ⟨hframe.id p, hframe.serial p⟩) (fun _ hr => hr)
        (fun _ hp => hp) (he.regs j).batch

theorem serverStep_events {cfg : Config} {s t : State P} {a : Action} {l : List TaskPtr}
    (hst : serverStep cfg s a = some t) (ha : Unconfused s a) (hi : Inv s l) (he : EventInv s) :
    EventInv t := by
  cases serverStep_effect hst with
  | pool th u hu =>
    have hframe := hi.pool_frame hu
    refine ⟨he.seed, fun p => ?_, fun i => ?_⟩
    · rw [(hframe.same p).id, (hframe.same p).serial, he.ids]
    · exact (he.regs i).congr (fun p _ => ⟨(hframe.same p).id, (hframe.same p).serial⟩)
        (fun _ hr => hr) (fun _ hp => hp) (he.regs i).batch
  | control _ hc => exact he.control hc
  | setup th p callback data version _ hp hc =>
    exact (he.setup hi hp callback data version).control hc
  | send th i p _ hp hc =>
    have he' : EventInv { s with
        incoming := Function.update s.incoming i (s.incoming i ++ [p]) } :=
      ⟨he.seed, he.ids, he.regs⟩
    exact he'.control hc
  | drop th p _ hfail hc =>
    have he' : EventInv { s with lost := p :: s.lost } := ⟨he.seed, he.ids, he.regs⟩
    exact he'.control hc
  | worker i act v hi' ha' hv => exact he.worker hi (ha' ▸ ha) hv

theorem serverCreate_events {heap : Heap} (hheap : FreshHeap heap) (cfg : Config) :
    EventInv (serverCreate P cfg heap) := by
  obtain ⟨c, hc, -, -, -, -, -, hlinks⟩ :=
    poolFill_spec (T := Tid) heap (cfg.workerTasks * cfg.workers) (cfg.workerTasks * cfg.workers)
  refine ⟨rfl, fun p => ?_, fun i => ⟨?_, ?_, ?_, ?_, ?_⟩⟩
  · obtain ⟨next, hp⟩ := hlinks p
    obtain ⟨version, hv⟩ := hheap p
    simp only [serverCreate, poolCreate, hc, hp, hv]
    rfl
  · intro r hr
    cases hr
  · intro r hr
    cases hr
  · intro r hr
    cases hr
  · intro ev hev
    cases hev
  · intro hne
    exact absurd rfl hne

theorem events_of_reach {cfg : Config} {s : State P}
    (h : (serverSystem P cfg).Reach Unconfused s) : EventInv s :=
  h.invariant (P := EventInv)
    (fun _ hs => by
      obtain ⟨heap, hheap, rfl⟩ := hs
      exact serverCreate_events hheap cfg)
    fun _ _ _ hr he ha hst => by
      obtain ⟨l, hi⟩ := inv_of_reach hr
      exact serverStep_events hst ha hi he

/-- In every run of unconfused steps the events of each registration go to the
task that registered it and to no other, and polled events come from
registrations. -/
theorem events_routed (P : Platform) (cfg : Config) {s : State P}
    (h : (serverSystem P cfg).Reach Unconfused s) (i : ℕ) :
    (∀ r ∈ (s.workers i).interest, Routed s i r) ∧
    ∀ ev ∈ (s.workers i).batch, ev.data ≠ 0 →
      ∃ r ∈ (s.workers i).interest, r.value = ev.data := by
  have he := events_of_reach h
  obtain ⟨l, hi⟩ := inv_of_reach h
  obtain ⟨rs, hr⟩ := hi.workers i
  exact ⟨fun r hr' => (he.regs i).routed hr he.ids hr',
    fun ev hev hne => ((he.regs i).batch.1 ev hev).resolve_left hne⟩

instance (s : State P) : (a : Action) → Decidable (Unconfused s a)
  | .worker i .turn => inferInstanceAs (Decidable (∀ p ∈ (s.workers i).pc.hand,
      ∀ r ∈ (s.workers i).interest, r.slot.id.setWidth 32 ≠ (s.heap p).id.setWidth 32))
  | .worker i (.task (.ectl _ op _ _ data _)) => inferInstanceAs (Decidable (op ≠ .del →
      ∀ p ∈ (s.workers i).active, ¬ ((s.heap p).id = 0 ∧ data = 0)))
  | .worker _ (.task (.ret _)) | .worker _ (.task (.close _)) | .worker _ (.task (.ewait ..))
  | .worker _ (.task .enter) | .worker _ (.task .leave) | .worker _ (.begin ..) => .isTrue trivial
  | .pool _ | .spawn _ _ _ | .spawnStep _ _ | .accept _ | .acceptStep _ | .release _
  | .wakeup _ _ | .stop => .isTrue trivial

section Aliased

/-!
One worker with one task, which a thread outside the server spawns again and
again. Each task finishes before the next; only the first registers a
descriptor.
-/

/-- One worker with one task. -/
def oneWorker : Config := ⟨1, 1, true, 8, 5000⟩

/-- The transition system of that server. -/
abbrev loneSystem : System (State Platform.lists) Action := serverSystem Platform.lists oneWorker

/-- A call of `law_spawn` that succeeds. -/
def spawnOne : List Action :=
  .spawn (.ext 0) (.user 0) 0 :: List.replicate 4 (.pool (.ext 0)) ++
    List.replicate 2 (.spawnStep (.ext 0) 0)

/-- A tick of worker `i` up to the start of the one task in its pipe. -/
def tickOne (i : ℕ) : List Action :=
  .worker i (.begin 0 0 []) :: List.replicate 7 (.worker i .turn)

/-- A finished task goes back to the pool, and the tick of worker `i` ends. -/
def finishOne (i : ℕ) : List Action :=
  .release i :: List.replicate 4 (.pool (.worker i)) ++ [.release i, .worker i .turn]

/-- The registration of task 1. -/
def firstReg : Reg := ⟨7, 1, slotEncode .little ⟨1, 3⟩, ⟨1, 3⟩, 1⟩

/-- The task of the run with the given serial number. -/
def loneTask (callee : Callee) (seed : Id) (serial : ℕ) : Task where
  mode := .running
  mark := false
  maxEvents := 0
  numEvents := 0
  version := 1
  id := seed
  events := none
  next := none
  callee := callee
  callback := some (.user 0)
  data := 0
  received := []
  serial := serial

/-- The server when its pool lists `list`, and its worker is in `pc` with the
given table and registrations. -/
def loneServer (list : Option TaskPtr) (task : Task) (pc : WorkerPc)
    (table : Platform.lists.tables.Map) (interest : List Reg) : State Platform.lists where
  heap := Function.update zeroHeap 0 task
  lock := none
  list := list
  size := list.toList.length
  capacity := 1
  pc := fun _ => .idle
  mode := .running
  seed := task.id
  spawned := task.serial
  lost := []
  spawnPc := fun _ => .idle
  acceptPc := .spin
  incoming := fun _ => []
  messages := fun _ => []
  workers := Function.update (fun _ => workerCreate Platform.lists oneWorker) 0
    { workerCreate Platform.lists oneWorker with
      pc := pc, timeout := oneWorker.workerTimeout, active := some 0, table := table,
      interest := interest }

/-- The table of the worker while the task is in it. -/
def loneTable (seed : Id) : Platform.lists.tables.Map :=
  (tableInsert Platform.lists.tables Platform.lists.tables.empty seed (some 0)).2

/-- Between two tasks. -/
def idleServer (interest : List Reg) (seed : Id) (serial : ℕ) : State Platform.lists :=
  loneServer (some 0) (loneTask .ended seed serial) .start Platform.lists.tables.empty interest

/-- While the task runs. -/
def runningServer (interest : List Reg) (seed : Id) (serial : ℕ) : State Platform.lists :=
  loneServer none (loneTask .running seed serial) (.running 0) (loneTable seed) interest

/-- When the task has left the table. -/
def removedServer (interest : List Reg) (seed : Id) (serial : ℕ) : State Platform.lists :=
  loneServer none (loneTask .ended seed serial) (.removed 0) Platform.lists.tables.empty interest

theorem idle_to_running (interest : List Reg) (seed : Id) (serial : ℕ) :
    loneSystem.run (idleServer interest seed serial) (spawnOne ++ tickOne 0) =
      some (runningServer interest ((seed + 1) % idModulo) (serial + 1)) := by
  refine Option.eq_some_iff_get_eq.mpr ⟨rfl, State.ext_points rfl (fun th => ?_) fun i => ?_⟩
  · rcases th with _ | i | i <;> (try cases i) <;> exact ⟨rfl, rfl⟩
  · cases i <;> exact ⟨rfl, rfl, rfl, rfl⟩

theorem loneTable_remove (seed : Id) :
    tableRemove Platform.lists.tables (loneTable seed) seed =
      (some 0, Platform.lists.tables.empty) := by
  have hself : (tableIface TaskPtr Platform.lists.fnv).equals seed seed = true :=
    (tableEquals_iff seed seed).mpr rfl
  have hfind : (tableIface TaskPtr Platform.lists.fnv).find [⟨seed, some 0⟩] seed =
      some ⟨seed, some 0⟩ := List.find?_cons_of_pos hself
  have herase : (tableIface TaskPtr Platform.lists.fnv).erase [⟨seed, some 0⟩] seed = [] :=
    List.filter_cons_of_neg (by rw [Bool.not_eq_true', ← Bool.not_eq_true]; exact not_not.mpr hself)
  rw [tableRemove_eq]
  refine Prod.ext ?_ (Subtype.ext herase)
  exact congrArg (fun node => node.bind TableNode.pointer) hfind

/-- A callback that returns takes its task out of the table. -/
theorem taskStep_ret {v : View P} {p : TaskPtr} {n : ℤ} {table : P.tables.Map}
    (hent : ¬ v.worker.Entered p) (hval : n ≠ modeSuspended)
    (hrem : tableRemove P.tables v.worker.table (v.heap p).id = (some p, table)) :
    taskStep v p (.ret n) =
      some { v with heap := v.heap.modify p fun task => { task with callee := .ended },
                    worker := { v.worker with pc := .removed p, table := table } } := by
  simp only [taskStep, if_neg hent, if_neg hval, hrem, if_true]

theorem running_to_removed (interest : List Reg) (seed : Id) (serial : ℕ) :
    loneSystem.step (runningServer interest seed serial) (.worker 0 (.task (.ret 0))) =
      some (removedServer interest seed serial) := by
  have hret := taskStep_ret (v := (runningServer interest seed serial).view 0) (p := 0) (n := 0)
    (by rintro ⟨e, he, -⟩; cases he) (by decide) (loneTable_remove seed)
  have hstep : loneSystem.step (runningServer interest seed serial) (.worker 0 (.task (.ret 0))) =
      (taskStep ((runningServer interest seed serial).view 0) 0 (.ret 0)).map
        ((runningServer interest seed serial).setView 0) := rfl
  rw [hstep, hret]
  refine congrArg some (State.ext_points rfl (fun _ => ⟨rfl, rfl⟩) fun i => ?_)
  cases i <;> exact ⟨rfl, rfl, rfl, rfl⟩

theorem removed_to_idle (interest : List Reg) (seed : Id) (serial : ℕ) :
    loneSystem.run (removedServer interest seed serial) (finishOne 0) =
      some (idleServer interest seed serial) := by
  refine Option.eq_some_iff_get_eq.mpr ⟨rfl, State.ext_points rfl (fun th => ?_) fun i => ?_⟩
  · rcases th with _ | i | i <;> (try cases i) <;> exact ⟨rfl, rfl⟩
  · cases i <;> exact ⟨rfl, rfl, rfl, rfl⟩

theorem create_to_running :
    loneSystem.run (serverCreate Platform.lists oneWorker zeroHeap)
      (spawnOne ++ tickOne 0 ++ [.worker 0 (.task (.ectl 7 .add 0 1 3 false))]) =
      some (runningServer [firstReg] (idOf 1) 1) := by
  refine Option.eq_some_iff_get_eq.mpr ⟨rfl, State.ext_points rfl (fun th => ?_) fun i => ?_⟩
  · rcases th with _ | i | i <;> (try cases i) <;> exact ⟨rfl, rfl⟩
  · cases i <;> exact ⟨rfl, rfl, rfl, rfl⟩

theorem idle_of_running {interest : List Reg} {seed : Id} {serial : ℕ}
    (h : loneSystem.Reachable (runningServer interest seed serial)) :
    loneSystem.Reachable (idleServer interest seed serial) :=
  System.Reachable.run (.step h trivial (running_to_removed interest seed serial)) _
    (removed_to_idle interest seed serial)

/-- Any number of tasks may run one after the other, while the registration of
the first stays. -/
theorem idle_reachable (n : ℕ) :
    loneSystem.Reachable (idleServer [firstReg] (idOf (n + 1)) (n + 1)) := by
  induction n with
  | zero =>
    exact idle_of_running (System.Reachable.run (.init ⟨zeroHeap, zeroHeap_fresh, rfl⟩) _
      create_to_running)
  | succ n ih =>
    have hrun := System.Reachable.run ih _ (idle_to_running _ _ _)
    rw [idOf_succ] at hrun
    exact idle_of_running hrun

/-- When task 2^32 + 1 runs, the events of the descriptor that task 1 left
registered find it. -/
theorem events_confused : ∃ s, loneSystem.Reachable s ∧
    ∃ r ∈ (s.workers 0).interest, ¬ Routed s 0 r := by
  have hrun := System.Reachable.run (idle_reachable (2 ^ 32 - 1)) _ (idle_to_running _ _ _)
  rw [idOf_succ] at hrun
  refine ⟨_, hrun, firstReg, List.mem_singleton.mpr rfl, fun hr => ?_⟩
  have hserial := ((hr.found 0).mp (by decide)).2
  exact absurd hserial (by decide)

/-- While task 1 runs, the events of its descriptor are routed to it. -/
theorem events_routed_first : ∃ s : State Platform.lists,
    (∀ r ∈ (s.workers 0).interest, Routed s 0 r) ∧ firstReg ∈ (s.workers 0).interest := by
  have hrun : (loneSystem.checkedRun Unconfused (serverCreate Platform.lists oneWorker zeroHeap)
      (spawnOne ++ tickOne 0 ++ [.worker 0 (.task (.ectl 7 .add 0 1 3 false))])).map
      (fun s => (s.workers 0).interest) = some [firstReg] := by decide
  obtain ⟨s, hs, hint⟩ := Option.map_eq_some_iff.mp hrun
  exact ⟨s, (events_routed Platform.lists oneWorker
    (System.Reach.checkedRun (.init ⟨zeroHeap, zeroHeap_fresh, rfl⟩) _ hs) 0).1, by simp [hint]⟩

end Aliased

end Lawd

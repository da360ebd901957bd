import Lawd.WorkerSteps

/-!
# The invariant of a worker

The ready set lists tasks of the table and nothing else, a task is marked just
when it is listed, and the running task is in the table but not in the ready
set. A step of the worker moves at most one task between its pipe, its hand and
its table, and writes to no other task.
-/
namespace Lawd

open Library

variable {P : Platform}

/-- The ready set against the table, for the list `r` of ready tasks. -/
structure WorkerInv (heap : Heap) (w : Worker P) (r : List TaskPtr) : Prop where
  ready : ReadySet heap w.ready r
  listed : ∀ p ∈ r, p ∈ w.tasks
  marked : ∀ p ∈ w.tasks, (heap p).mark = true → p ∈ r
  running : ∀ p, w.pc = .running p → p ∈ w.tasks ∧ p ∉ r
  drained : w.pc = .start ∨ w.pc = .exited → r = []
  nodes : ∀ node ∈ P.tables.nodes w.table, ∃ p, node.pointer = some p ∧ (heap p).id = node.id

/-- The places a worker moves tasks between. -/
inductive LocalPlace where
  | incoming
  | hand
  | table
  deriving DecidableEq

/-- The tasks in each of them. -/
def View.contents (v : View P) : LocalPlace → List TaskPtr
  | .incoming => v.incoming
  | .hand => v.worker.pc.hand
  | .table => v.worker.tasks

/-- What a worker's step leaves as it is. -/
structure LocalFrame (v v' : View P) : Prop where
  heap : ∀ q, q ∉ v.worker.tasks → q ∉ v.worker.pc.hand → v'.heap q = v.heap q
  id : ∀ q, (v'.heap q).id = (v.heap q).id
  serial : ∀ q, (v'.heap q).serial = (v.heap q).serial
  unmarked : ∀ q, q ∈ v.worker.tasks ∨ q ∈ v.worker.pc.hand → q ∉ v'.worker.tasks →
    (v'.heap q).mark = false

theorem Worker.tasks_congr {w w' : Worker P} (h : w'.table = w.table) : w'.tasks = w.tasks := by
  rw [tasks, tasks, h]

theorem Worker.mem_tasks {w : Worker P} {p : TaskPtr} :
    p ∈ w.tasks ↔ ∃ node ∈ P.tables.nodes w.table, node.pointer = some p := List.mem_filterMap

theorem Worker.lookup_mem {w : Worker P} {id : Id} {p : TaskPtr} (h : w.lookup id = some p) :
    p ∈ w.tasks := by
  obtain ⟨node, hn, hp, -⟩ := tableLookup_some h
  exact mem_tasks.mpr ⟨node, hn, hp⟩

theorem Worker.tasks_insert {w w' : Worker P} {id : Id} {p : TaskPtr}
    (h : tableInsert P.tables w.table id (some p) = (.success, w'.table)) :
    w'.tasks.Perm (p :: w.tasks) := (tableInsert_success h).1.filterMap _

theorem Worker.tasks_remove {w : Worker P} (w' : Worker P) {id : Id} {p : TaskPtr}
    (h : tableRemove P.tables w.table id = (some p, w'.table)) :
    w.tasks.Perm (p :: w'.tasks) := by
  obtain ⟨node, hp, -, hperm⟩ := tableRemove_some h
  have hmap := hperm.filterMap TableNode.pointer
  rwa [List.filterMap_cons, hp] at hmap

/-- What a step of the running task leaves to its worker. -/
structure TaskRan (v v' : View P) (p : TaskPtr) : Prop where
  pc : v'.worker.pc = .running p ∨ v'.worker.pc = .dispatch ∨ v'.worker.pc = .removed p
  heap : ∀ q, q ≠ p → v'.heap q = v.heap q
  mark : (v'.heap p).mark = (v.heap p).mark
  tasks : v'.worker.tasks ⊆ v.worker.tasks
  kept : ∀ q ∈ v.worker.tasks, q ≠ p → q ∈ v'.worker.tasks
  messages : v'.messages = v.messages
  reloop : v'.worker.reloop = v.worker.reloop

theorem TaskRan.phase {v v' : View P} {p : TaskPtr} (h : TaskRan v v' p) :
    v'.worker.pc.phase = 4 := by
  rcases h.pc with hpc | hpc | hpc <;> rw [hpc] <;> rfl

theorem TaskRan.running {v v' : View P} {p q : TaskPtr} (h : TaskRan v v' p)
    (hq : v'.worker.pc = .running q) : q = p := by
  rcases h.pc with hpc | hpc | hpc <;> rw [hpc] at hq <;> cases hq
  rfl

theorem WorkerEffect.taskRan {cfg : Config} {v v' : View P} {a : WorkerAct} {p : TaskPtr}
    (h : WorkerEffect cfg v a v') (hpc : v.worker.pc = .running p) : TaskRan v v' p := by
  have hrunning : ∀ {q}, v.Runs q → q = p := fun hq => by
    cases hpc.symm.trans hq.1
    rfl
  cases h with
  | control w messages hpc₀ hpc' hk hb => rw [hpc] at hpc₀; rcases hpc₀ with h | h <;> cases h
  | stale e timer hpc₀ hpop hst => rw [hpc] at hpc₀; cases hpc₀
  | expired e timer q ev hpc₀ hpop hlook hver => rw [hpc] at hpc₀; cases hpc₀
  | woken w messages id q ev hpc₀ hpc' hk hb hlook => rw [hpc] at hpc₀; cases hpc₀
  | take q incoming hpc₀ hsize hcons => rw [hpc] at hpc₀; cases hpc₀
  | insert q table hpc₀ hins => rw [hpc] at hpc₀; cases hpc₀
  | tickDone pc heap ready hpc₀ hpop hpc' => rw [hpc] at hpc₀; cases hpc₀
  | run q heap ready f hpc₀ hpop hf => rw [hpc] at hpc₀; cases hpc₀
  | ectl q fd op flags events data fails interest hr hact ha hint =>
    exact ⟨.inl hpc, fun _ _ => rfl, rfl, List.Subset.refl _, fun _ hq _ => hq, rfl, rfl⟩
  | close q interest hr hint =>
    exact ⟨.inl hpc, fun _ _ => rfl, rfl, List.Subset.refl _, fun _ hq _ => hq, rfl, rfl⟩
  | unchanged q hr =>
    exact ⟨.inl hpc, fun _ _ => rfl, rfl, List.Subset.refl _, fun _ hq _ => hq, rfl, rfl⟩
  | enter q hr he ha =>
    exact ⟨.inl hpc, fun _ _ => rfl, rfl, List.Subset.refl _, fun _ hq _ => hq, rfl, rfl⟩
  | leave q e hr he hq =>
    exact ⟨.inl hpc, fun _ _ => rfl, rfl, List.Subset.refl _, fun _ hq _ => hq, rfl, rfl⟩
  | ewait q now millis events maxEvents hr ha =>
    obtain rfl := hrunning hr
    refine ⟨.inr (.inl rfl), fun q hq => ?_, ?_, List.Subset.refl _, fun _ hq _ => hq, rfl, rfl⟩
    · dsimp only
      rw [Heap.modify_ne _ _ hq]
    · dsimp only
      rw [Heap.modify_same]
      rfl
  | finish q table hr he hrem =>
    obtain rfl := hrunning hr
    have hperm := Worker.tasks_remove { v.worker with pc := .removed q, table := table } hrem
    refine ⟨.inr (.inr rfl), fun p hp => ?_, ?_,
      fun p hp => hperm.symm.subset (List.mem_cons_of_mem _ hp),
      fun p hp hq => (List.mem_cons.mp (hperm.subset hp)).resolve_left hq, rfl, rfl⟩
    · dsimp only
      rw [Heap.modify_ne _ _ hp]
    · dsimp only
      rw [Heap.modify_same]
  | mistaken q hr ha =>
    obtain rfl := hrunning hr
    refine ⟨.inr (.inl rfl), fun p hp => ?_, ?_, List.Subset.refl _, fun _ hq _ => hq, rfl, rfl⟩
    · dsimp only
      rw [Heap.modify_ne _ _ hp]
    · dsimp only
      rw [Heap.modify_same]

theorem workerStep_ran {cfg : Config} {v v' : View P} {act : TaskAct}
    (h : workerStep cfg v (.task act) = some v') :
    ∃ p, v.worker.pc = .running p ∧ TaskRan v v' p := by
  have heff := workerStep_effect h
  simp only [workerStep] at h
  split at h
  · cases h
  · rename_i p hact
    split_ifs at h with hruns
    exact ⟨p, hruns.1, heff.taskRan hruns.1⟩

theorem Worker.tasks_length {heap : Heap} {w : Worker P} {r : List TaskPtr}
    (hi : WorkerInv heap w r) : w.tasks.length = tableSize P.tables w.table := by
  rw [tableSize_eq, Worker.tasks]
  have hall : ∀ node ∈ P.tables.nodes w.table, node.pointer.isSome := fun node hn => by
    obtain ⟨p, hp, -⟩ := hi.nodes node hn
    simp [hp]
  exact List.filterMap_length_eq_length.mpr hall

theorem WorkerInv.mark_iff {heap : Heap} {w : Worker P} {r : List TaskPtr}
    (hi : WorkerInv heap w r) {p : TaskPtr} (hp : p ∈ w.tasks) :
    (heap p).mark = true ↔ p ∈ r := ⟨hi.marked p hp, hi.ready.marked p⟩

theorem WorkerInv.lookup_of_low {heap : Heap} {w : Worker P} {r : List TaskPtr}
    (hi : WorkerInv heap w r) {p : TaskPtr} (hp : p ∈ w.tasks) {id : Id}
    (h : id.setWidth 32 = (heap p).id.setWidth 32) : w.lookup id = some p := by
  obtain ⟨node, hn, hnp⟩ := Worker.mem_tasks.mp hp
  obtain ⟨q, hq, hid⟩ := hi.nodes node hn
  obtain rfl : q = p := Option.some.inj (hq.symm.trans hnp)
  rw [Worker.lookup, tableLookup_of_mem hn (by rw [← hid, h]), hnp]

theorem WorkerInv.lookup_task {heap : Heap} {w : Worker P} {r : List TaskPtr}
    (hi : WorkerInv heap w r) {p : TaskPtr} (hp : p ∈ w.tasks) :
    w.lookup (heap p).id = some p := hi.lookup_of_low hp rfl

theorem WorkerInv.lookup_low {heap : Heap} {w : Worker P} {r : List TaskPtr}
    (hi : WorkerInv heap w r) {id : Id} {p : TaskPtr} (h : w.lookup id = some p) :
    (heap p).id.setWidth 32 = id.setWidth 32 := by
  obtain ⟨node, hn, hnp, hlow⟩ := tableLookup_some h
  obtain ⟨q, hq, hid⟩ := hi.nodes node hn
  obtain rfl : q = p := Option.some.inj (hq.symm.trans hnp)
  rw [hid, hlow]

theorem WorkerInv.task_low_inj {heap : Heap} {w : Worker P} {r : List TaskPtr}
    (hi : WorkerInv heap w r) {p q : TaskPtr} (hp : p ∈ w.tasks) (hq : q ∈ w.tasks)
    (h : (heap p).id.setWidth 32 = (heap q).id.setWidth 32) : p = q := by
  obtain ⟨m, hm, hmp⟩ := Worker.mem_tasks.mp hp
  obtain ⟨n, hn, hnq⟩ := Worker.mem_tasks.mp hq
  obtain ⟨p', hp', hidm⟩ := hi.nodes m hm
  obtain ⟨q', hq', hidn⟩ := hi.nodes n hn
  obtain rfl : p' = p := Option.some.inj (hp'.symm.trans hmp)
  obtain rfl : q' = q := Option.some.inj (hq'.symm.trans hnq)
  obtain rfl := table_low_inj hm hn (by rw [← hidm, ← hidn, h])
  exact Option.some.inj (hmp.symm.trans hnq)

theorem WorkerInv.frame {heap heap' : Heap} {w : Worker P} {r : List TaskPtr}
    (hi : WorkerInv heap w r) (h : ∀ p ∈ w.tasks, heap' p = heap p) : WorkerInv heap' w r where
  ready := hi.ready.frame fun p hp => h p (hi.listed p hp)
  listed := hi.listed
  marked p hp hm := hi.marked p hp (h p hp ▸ hm)
  running := hi.running
  drained := hi.drained
  nodes node hn := by
    obtain ⟨p, hp, hid⟩ := hi.nodes node hn
    exact ⟨p, hp, by rw [h p (Worker.mem_tasks.mpr ⟨node, hn, hp⟩), hid]⟩

/-- Neither between two ticks nor in a task. -/
def WorkerPc.busy : WorkerPc → Bool
  | start | exited | running _ => false
  | _ => true

theorem WorkerPc.busy_of_inTick {pc : WorkerPc} (h : pc.inTick = true) : pc.busy = true := by
  cases pc <;> first | rfl | cases h

/-- A busy worker whose ready set and table did not change. -/
theorem WorkerInv.control {heap : Heap} {w w' : Worker P} {r : List TaskPtr}
    (hi : WorkerInv heap w r) (hpc : w'.pc.busy = true) (hready : w'.ready = w.ready)
    (htable : w'.table = w.table) : WorkerInv heap w' r where
  ready := hready ▸ hi.ready
  listed := Worker.tasks_congr htable ▸ hi.listed
  marked := Worker.tasks_congr htable ▸ hi.marked
  running p hp := by
    rw [hp] at hpc
    cases hpc
  drained hp := by rcases hp with hp | hp <;> rw [hp] at hpc <;> cases hpc
  nodes := htable ▸ hi.nodes

/-- A worker whose position, ready set and table did not change. -/
theorem WorkerInv.same {heap : Heap} {w w' : Worker P} {r : List TaskPtr}
    (hi : WorkerInv heap w r) (hpc : w'.pc = w.pc) (hready : w'.ready = w.ready)
    (htable : w'.table = w.table) : WorkerInv heap w' r where
  ready := hready ▸ hi.ready
  listed := Worker.tasks_congr htable ▸ hi.listed
  marked := Worker.tasks_congr htable ▸ hi.marked
  running := Worker.tasks_congr htable ▸ hpc ▸ hi.running
  drained := hpc ▸ hi.drained
  nodes := htable ▸ hi.nodes

/-- Making a task of the table ready. -/
theorem WorkerInv.woken {heap heap' : Heap} {w w' : Worker P} {r r' : List TaskPtr} {p : TaskPtr}
    (hi : WorkerInv heap w r) (hp : p ∈ w.tasks) (wk : Woken heap heap' w'.ready r p r')
    (hpc : w'.pc.inTick = true) (htable : w'.table = w.table) : WorkerInv heap' w' r' where
  ready := wk.ready
  listed q hq := by
    rw [Worker.tasks_congr htable]
    rcases (wk.mem q).mp hq with rfl | hq
    · exact hp
    · exact hi.listed q hq
  marked q hq hm := by
    rw [Worker.tasks_congr htable] at hq
    refine (wk.mem q).mpr ?_
    by_cases hqp : q = p
    · exact .inl hqp
    · rw [wk.others q hqp] at hm
      exact .inr (hi.marked q hq hm)
  running q hq := by
    rw [hq] at hpc
    cases hpc
  drained hq := by rcases hq with hq | hq <;> rw [hq] at hpc <;> cases hpc
  nodes node hn := by
    rw [htable] at hn
    obtain ⟨q, hq, hid⟩ := hi.nodes node hn
    exact ⟨q, hq, by rw [(wk.sameAll q).id, hid]⟩

theorem View.pushed_woken {v : View P} {r : List TaskPtr} (hi : WorkerInv v.heap v.worker r)
    {p : TaskPtr} (hp : p ∈ v.worker.tasks) (ev : Event) :
    ∃ r', Woken v.heap (v.pushed p ev).heap (v.pushed p ev).worker.ready r p r' :=
  Heap.pushed_woken hi.ready (hi.mark_iff hp) ev

/-- The task at hand is not in the table, and not marked. -/
structure HandInv (v : View P) : Prop where
  nodup : (v.worker.tasks ++ v.worker.pc.hand).Nodup
  unmarked : ∀ p ∈ v.worker.pc.hand, (v.heap p).mark = false

/-- What a change of one task must keep for the ready set not to notice. -/
structure Task.Quiet (f : Task → Task) : Prop where
  id : ∀ task, (f task).id = task.id
  serial : ∀ task, (f task).serial = task.serial
  mark : ∀ task, (f task).mark = task.mark
  next : ∀ task, (f task).next = task.next

theorem startTask_quiet : Task.Quiet startTask :=
  ⟨fun _ => rfl, fun _ => rfl, fun _ => rfl, fun _ => rfl⟩

theorem resumeTask_quiet : Task.Quiet resumeTask :=
  ⟨fun t => by unfold resumeTask; split_ifs <;> rfl,
    fun t => by unfold resumeTask; split_ifs <;> rfl,
    fun t => by unfold resumeTask; split_ifs <;> rfl,
    fun t => by unfold resumeTask; split_ifs <;> rfl⟩

theorem suspendTask_quiet (events : Bool) (maxEvents : ℤ) :
    Task.Quiet (suspendTask events maxEvents) :=
  ⟨fun _ => rfl, fun _ => rfl, fun _ => rfl, fun _ => rfl⟩

theorem Task.Quiet.modify {f : Task → Task} (hf : Task.Quiet f) (heap : Heap) (p q : TaskPtr) :
    (heap.modify p f q).id = (heap q).id ∧ (heap.modify p f q).serial = (heap q).serial ∧
      (heap.modify p f q).mark = (heap q).mark ∧ (heap.modify p f q).next = (heap q).next := by
  rw [Heap.modify_apply]
  split_ifs with h
  · subst h
    exact ⟨hf.id _, hf.serial _, hf.mark _, hf.next _⟩
  · exact ⟨rfl, rfl, rfl, rfl⟩

/-- The ready set does not notice such a change. -/
theorem WorkerInv.quiet {heap : Heap} {w : Worker P} {r : List TaskPtr}
    (hi : WorkerInv heap w r) {f : Task → Task} (hf : Task.Quiet f) (p : TaskPtr) :
    WorkerInv (heap.modify p f) w r where
  ready := ⟨hi.ready.chain.frame fun q _ => (hf.modify heap p q).2.2.2, hi.ready.nodup,
    fun q hq => by rw [(hf.modify heap p q).2.2.1]; exact hi.ready.marked q hq⟩
  listed := hi.listed
  marked q hq hm := hi.marked q hq (by rwa [(hf.modify heap p q).2.2.1] at hm)
  running := hi.running
  drained := hi.drained
  nodes node hn := by
    obtain ⟨q, hq, hid⟩ := hi.nodes node hn
    exact ⟨q, hq, by rw [(hf.modify heap p q).1, hid]⟩

theorem LocalFrame.of_heap {v v' : View P} (hheap : v'.heap = v.heap)
    (htable : v'.worker.table = v.worker.table) (hh : HandInv v) : LocalFrame v v' where
  heap _ _ _ := by rw [hheap]
  id _ := by rw [hheap]
  serial _ := by rw [hheap]
  unmarked q hq hq' := by
    rw [Worker.tasks_congr htable] at hq'
    rw [hheap]
    exact hq.elim (fun h => absurd h hq') (hh.unmarked q)

theorem LocalFrame.of_woken {v v' : View P} {r r' : List TaskPtr} {p : TaskPtr}
    {ready : Option TaskPtr}
    (wk : Woken v.heap v'.heap ready r p r') (hp : p ∈ v.worker.tasks ∨ p ∈ v.worker.pc.hand)
    (htasks : ∀ q, q ∈ v.worker.tasks ∨ q = p → q ∈ v'.worker.tasks) (hh : HandInv v) :
    LocalFrame v v' where
  heap q hq hq' := wk.others q (by rintro rfl; exact hp.elim hq hq')
  id q := (wk.sameAll q).id
  serial q := (wk.sameAll q).serial
  unmarked q hq hq' := by
    have hqp : q ≠ p := fun h => hq' (htasks q (.inr h))
    rw [wk.others q hqp]
    exact hq.elim (fun h => absurd (htasks q (.inl h)) hq') (hh.unmarked q)

theorem LocalFrame.of_quiet {v v' : View P} {f : Task → Task} {p : TaskPtr} {r : List TaskPtr}
    (hf : Task.Quiet f) (hheap : v'.heap = v.heap.modify p f) (hp : p ∈ v.worker.tasks)
    (hi : WorkerInv v.heap v.worker r) (hh : HandInv v)
    (hgone : ∀ q ∈ v.worker.tasks, q ∉ v'.worker.tasks → q ∉ r) : LocalFrame v v' where
  heap q hq _ := by
    rw [hheap, Heap.modify_ne]
    rintro rfl
    exact hq hp
  id q := by rw [hheap, (hf.modify ..).1]
  serial q := by rw [hheap, (hf.modify ..).2.1]
  unmarked q hq hq' := by
    rw [hheap, (hf.modify ..).2.2.1]
    rcases hq with hq | hq
    · have hnot : ¬ (v.heap q).mark = true := fun hm => hgone q hq hq' (hi.marked q hq hm)
      simpa using hnot
    · exact hh.unmarked q hq

theorem WorkerEffect.flow {cfg : Config} {v v' : View P} {a : WorkerAct}
    (h : WorkerEffect cfg v a v') : Flow v.contents v'.contents := by
  have hstay : ∀ {u : View P}, u.incoming = v.incoming → u.worker.pc.hand = v.worker.pc.hand →
      u.worker.table = v.worker.table → Flow v.contents u.contents := by
    intro u h1 h2 h3
    refine .stay ?_
    rintro (_ | _ | _)
    · exact .of_eq h1
    · exact .of_eq h2
    · exact .of_eq (Worker.tasks_congr h3)
  have htick : ∀ {pc : WorkerPc}, pc.inTick = true → pc.hand = [] := by
    rintro (_ | _ | _ | _ | _ | _ | _ | _ | _ | _ | _) h <;> first | rfl | cases h
  have hruns : ∀ {p : TaskPtr}, v.Runs p → v.worker.pc.hand = [] := fun hr => by
    rw [hr.1]
    rfl
  cases h with
  | control w messages hpc hpc' hk hb =>
    refine hstay rfl ?_ hk.table
    rcases hpc with hpc | hpc
    · rw [htick hpc, htick hpc']
    · rw [htick hpc', hpc]
      rfl
  | stale e timer hpc hpop hst => exact hstay rfl rfl rfl
  | expired e timer p ev hpc hpop hlook hver => exact hstay rfl rfl rfl
  | woken w messages id p ev hpc hpc' hk hb hlook =>
    exact hstay rfl (congrArg WorkerPc.hand hpc') hk.table
  | take p incoming hpc hsize hcons =>
    refine .move p .incoming .hand ⟨by simp, .of_eq hcons, ?_, ?_⟩
    · simp [View.contents, hpc, WorkerPc.hand]
    · rintro (_ | _ | _) h h'
      · exact absurd rfl h
      · exact absurd rfl h'
      · exact .refl _
  | insert p table hpc hins =>
    refine .move p .hand .table ⟨by simp, ?_, Worker.tasks_insert hins, ?_⟩
    · simp [View.contents, hpc, WorkerPc.hand]
    · rintro (_ | _ | _) h h'
      · exact .refl _
      · exact absurd rfl h
      · exact absurd rfl h'
  | tickDone pc heap ready hpc hpop hpc' =>
    refine hstay rfl ?_ rfl
    rw [hpc]
    rcases hpc' with rfl | rfl <;> rfl
  | run p heap ready f hpc hpop hf => exact hstay rfl (by rw [hpc]; rfl) rfl
  | ectl p fd op flags events data fails interest hr hact ha hi => exact hstay rfl rfl rfl
  | close p interest hr hi => exact hstay rfl rfl rfl
  | unchanged p hr => exact hstay rfl rfl rfl
  | ewait p now millis events maxEvents hr ha => exact hstay rfl (hruns hr).symm rfl
  | enter p hr he ha => exact hstay rfl rfl rfl
  | leave p e hr he hp => exact hstay rfl rfl rfl
  | finish p table hr he hrem =>
    refine .move p .table .hand ⟨by simp, Worker.tasks_remove _ hrem, ?_, ?_⟩
    · rw [show v.contents .hand = [] from hruns hr]
      exact .refl _
    · rintro (_ | _ | _) h h'
      · exact .refl _
      · exact absurd rfl h'
      · exact absurd rfl h
  | mistaken p hr ha => exact hstay rfl (hruns hr).symm rfl

/-- The admitted task enters the table and the ready set. -/
theorem WorkerInv.insert {v : View P} {r : List TaskPtr} {p : TaskPtr} {table : P.tables.Map}
    (hi : WorkerInv v.heap v.worker r) (hh : HandInv v) (hpc : v.worker.pc = .admitted p)
    (hins : tableInsert P.tables v.worker.table (v.heap p).id (some p) = (.success, table)) :
    (∃ r', WorkerInv (readySetPush v.heap v.worker.ready p).1
      { v.worker with pc := .admitting, table := table,
                      ready := (readySetPush v.heap v.worker.ready p).2 } r') ∧
    LocalFrame v { v with heap := (readySetPush v.heap v.worker.ready p).1,
                          worker := { v.worker with
                            pc := .admitting, table := table,
                            ready := (readySetPush v.heap v.worker.ready p).2 } } := by
  have hhand : p ∈ v.worker.pc.hand := by simp [hpc, WorkerPc.hand]
  have hmark : (v.heap p).mark = false := hh.unmarked p hhand
  have hnot : p ∉ r := fun hp => by
    have := hi.ready.marked p hp
    rw [hmark] at this
    cases this
  obtain ⟨hnodes, -⟩ := tableInsert_success hins
  have hperm : (Worker.tasks { v.worker with table := table }).Perm (p :: v.worker.tasks) :=
    Worker.tasks_insert hins
  obtain ⟨r', wk⟩ := readySetPush_woken (p := p) hi.ready
    ⟨fun hm => absurd hm (by simp [hmark]), fun hp => absurd hp hnot⟩
  refine ⟨⟨r', wk.ready, fun q hq => ?_, fun q hq hm => ?_, fun q hq => ?_, fun hq => ?_,
    fun node hn => ?_⟩, .of_woken wk (.inr hhand) (fun q hq => ?_) hh⟩
  · refine hperm.symm.subset (List.mem_cons.mpr ?_)
    exact ((wk.mem q).mp hq).imp_right (hi.listed q)
  · refine (wk.mem q).mpr ?_
    by_cases hqp : q = p
    · exact .inl hqp
    · have hq' := List.mem_cons.mp (hperm.subset hq)
      rw [wk.others q hqp] at hm
      exact .inr (hi.marked q (hq'.resolve_left hqp) hm)
  · cases hq
  · rcases hq with hq | hq <;> cases hq
  · rcases List.mem_cons.mp (hnodes.subset hn) with rfl | hn
    · exact ⟨p, rfl, wk.same.id⟩
    · obtain ⟨q, hq, hid⟩ := hi.nodes node hn
      exact ⟨q, hq, by rw [(wk.sameAll q).id, hid]⟩
  · exact hperm.symm.subset (List.mem_cons.mpr hq.symm)

/-- The first ready task leaves the ready set and runs. -/
theorem WorkerInv.run {v : View P} {r : List TaskPtr} {p : TaskPtr} {heap : Heap}
    {ready : Option TaskPtr} {f : Task → Task} (hi : WorkerInv v.heap v.worker r)
    (hpc : v.worker.pc = .dispatch)
    (hpop : readySetPop v.heap v.worker.ready = (heap, ready, some p))
    (hf : (heap p).mode = .spawned ∧ f = startTask ∨ (heap p).mode = .suspended ∧ f = resumeTask) :
    (∃ r', WorkerInv (heap.modify p f)
      { v.worker with pc := .running p, ready := ready, active := some p } r') ∧
    LocalFrame v { v with heap := heap.modify p f,
                          worker := { v.worker with
                            pc := .running p, ready := ready, active := some p } } := by
  have hquiet : Task.Quiet f := by
    rcases hf with ⟨-, rfl⟩ | ⟨-, rfl⟩
    · exact startTask_quiet
    · exact resumeTask_quiet
  obtain ⟨rest, rfl, hrest, hsamep, hmark, hothers⟩ := readySetPop_some hi.ready hpop
  have hp : p ∈ v.worker.tasks := hi.listed p (by simp)
  have hprest : p ∉ rest := (List.nodup_cons.mp hi.ready.nodup).1
  have hi' : WorkerInv heap { v.worker with pc := .running p, ready := ready,
                                            active := some p } rest := by
    refine ⟨hrest, fun q hq => hi.listed q (by simp [hq]), fun q hq hm => ?_, fun q hq => ?_,
      fun hq => ?_, fun node hn => ?_⟩
    · have hqp : q ≠ p := by
        rintro rfl
        rw [hmark] at hm
        cases hm
      rw [hothers q hqp] at hm
      simpa [hqp] using hi.marked q hq hm
    · obtain rfl : p = q := by simpa using hq
      exact ⟨hp, hprest⟩
    · rcases hq with hq | hq <;> cases hq
    · obtain ⟨q, hq, hid⟩ := hi.nodes node hn
      refine ⟨q, hq, ?_⟩
      by_cases hqp : q = p
      · subst hqp
        rw [hsamep.id, hid]
      · rw [hothers q hqp, hid]
  refine ⟨⟨rest, hi'.quiet hquiet p⟩, ⟨fun q hq _ => ?_, fun q => ?_, fun q => ?_,
    fun q hq hq' => ?_⟩⟩
  · have hqp : q ≠ p := by
      rintro rfl
      exact hq hp
    change heap.modify p f q = _
    rw [Heap.modify_ne _ _ hqp, hothers q hqp]
  · change (heap.modify p f q).id = _
    rw [(hquiet.modify ..).1]
    by_cases hqp : q = p
    · subst hqp
      exact hsamep.id
    · rw [hothers q hqp]
  · change (heap.modify p f q).serial = _
    rw [(hquiet.modify ..).2.1]
    by_cases hqp : q = p
    · subst hqp
      exact hsamep.serial
    · rw [hothers q hqp]
  · rcases hq with hq | hq
    · exact absurd hq hq'
    · rw [hpc] at hq
      cases hq

/-- The running task leaves the table. -/
theorem WorkerInv.finish {v : View P} {r : List TaskPtr} {p : TaskPtr} {table : P.tables.Map}
    (hi : WorkerInv v.heap v.worker r) (hh : HandInv v) (hr : v.Runs p)
    (hrem : tableRemove P.tables v.worker.table (v.heap p).id = (some p, table)) :
    (∃ r', WorkerInv (v.heap.modify p fun task => { task with callee := .ended })
      { v.worker with pc := .removed p, table := table } r') ∧
    LocalFrame v { v with heap := v.heap.modify p fun task => { task with callee := .ended },
                          worker := { v.worker with pc := .removed p, table := table } } := by
  have hrun := hi.running p hr.1
  have hquiet : Task.Quiet fun task => { task with callee := .ended } :=
    ⟨fun _ => rfl, fun _ => rfl, fun _ => rfl, fun _ => rfl⟩
  have hperm : v.worker.tasks.Perm (p :: Worker.tasks { v.worker with table := table }) :=
    Worker.tasks_remove _ hrem
  have hgone : ∀ q ∈ v.worker.tasks, q ∉ Worker.tasks { v.worker with table := table } → q = p :=
    fun q hq hq' => (List.mem_cons.mp (hperm.subset hq)).resolve_right hq'
  have hi' := hi.quiet hquiet p
  refine ⟨⟨r, hi'.ready, fun q hq => ?_, fun q hq hm => ?_, fun q hq => ?_, fun hq => ?_,
    fun node hn => ?_⟩, .of_quiet hquiet rfl hrun.1 hi hh fun q hq hq' => ?_⟩
  · by_contra hq'
    obtain rfl := hgone q (hi.listed q hq) hq'
    exact hrun.2 hq
  · exact hi'.marked q (hperm.symm.subset (List.mem_cons_of_mem _ hq)) hm
  · cases hq
  · rcases hq with hq | hq <;> cases hq
  · obtain ⟨removed, -, -, hnodes⟩ := tableRemove_some hrem
    exact hi'.nodes node (hnodes.symm.subset (List.mem_cons_of_mem _ hn))
  · rw [hgone q hq hq']
    exact hrun.2

theorem WorkerEffect.inv {cfg : Config} {v v' : View P} {a : WorkerAct} {r : List TaskPtr}
    (h : WorkerEffect cfg v a v') (hi : WorkerInv v.heap v.worker r) (hh : HandInv v) :
    (∃ r', WorkerInv v'.heap v'.worker r') ∧ LocalFrame v v' := by
  have hrun : ∀ {p : TaskPtr}, v.Runs p → p ∈ v.worker.tasks ∧ p ∉ r := fun hr => hi.running _ hr.1
  have hsame : ∀ {w : Worker P} {q : TaskPtr}, w.table = v.worker.table →
      q ∈ v.worker.tasks → q ∉ w.tasks → q ∉ r := fun ht hq hq' => by
    rw [Worker.tasks_congr ht] at hq'
    exact absurd hq hq'
  cases h with
  | control w messages hpc hpc' hk hb =>
    exact ⟨⟨r, hi.control (WorkerPc.busy_of_inTick hpc') hk.ready hk.table⟩,
      .of_heap rfl hk.table hh⟩
  | stale e timer hpc hpop hst =>
    exact ⟨⟨r, hi.same rfl rfl rfl⟩, .of_heap rfl rfl hh⟩
  | expired e timer p ev hpc hpop hlook hver =>
    have hp := Worker.lookup_mem hlook
    have hi' : WorkerInv v.heap { v.worker with timer := timer } r := hi.same rfl rfl rfl
    obtain ⟨r', wk⟩ := View.pushed_woken
      (v := { v with worker := { v.worker with timer := timer } })
      hi' hp ev
    refine ⟨⟨r', hi'.woken hp wk (by change v.worker.pc.inTick = true; rw [hpc]; rfl) rfl⟩,
      .of_woken wk (.inl hp) (fun q hq => ?_) hh⟩
    rcases hq with hq | rfl
    · exact hq
    · exact hp
  | woken w messages id p ev hpc hpc' hk hb hlook =>
    have hp : p ∈ w.tasks := Worker.tasks_congr hk.table ▸ Worker.lookup_mem hlook
    have hi' : WorkerInv v.heap w r := hi.same hpc' hk.ready hk.table
    obtain ⟨r', wk⟩ := View.pushed_woken (v := { v with messages := messages, worker := w })
      hi' hp ev
    refine ⟨⟨r', hi'.woken hp wk (by change w.pc.inTick = true; rw [hpc', hpc]) rfl⟩,
      .of_woken wk (.inl (Worker.lookup_mem hlook)) (fun q hq => ?_) hh⟩
    change q ∈ w.tasks
    rcases hq with hq | rfl
    · rwa [Worker.tasks_congr hk.table]
    · exact hp
  | take p incoming hpc hsize hcons =>
    refine ⟨⟨r, hi.ready, hi.listed, hi.marked, fun q hq => ?_, fun hq => ?_, hi.nodes⟩,
      .of_heap rfl rfl hh⟩
    · cases hq
    · rcases hq with hq | hq <;> cases hq
  | insert p table hpc hins => exact hi.insert hh hpc hins
  | tickDone pc heap ready hpc hpop hpc' =>
    have hnil : r = [] := readySetPop_none hi.ready hpop
    refine ⟨⟨r, hi.ready, hi.listed, hi.marked, fun q hq => ?_, fun _ => hnil, hi.nodes⟩,
      .of_heap rfl rfl hh⟩
    rcases hpc' with rfl | rfl <;> cases hq
  | run p heap ready f hpc hpop hf => exact hi.run hpc hpop hf
  | ectl p fd op flags events data fails interest hr hact ha hint =>
    exact ⟨⟨r, hi.same rfl rfl rfl⟩, .of_heap rfl rfl hh⟩
  | close p interest hr hint => exact ⟨⟨r, hi.same rfl rfl rfl⟩, .of_heap rfl rfl hh⟩
  | unchanged p hr => exact ⟨⟨r, hi⟩, .of_heap rfl rfl hh⟩
  | ewait p now millis events maxEvents hr ha =>
    have hi' := hi.quiet (suspendTask_quiet events maxEvents) p
    exact ⟨⟨r, hi'.control rfl rfl rfl⟩,
      .of_quiet (suspendTask_quiet events maxEvents) rfl (hrun hr).1 hi hh fun q => hsame rfl⟩
  | enter p hr he ha => exact ⟨⟨r, hi.same rfl rfl rfl⟩, .of_heap rfl rfl hh⟩
  | leave p e hr he hp => exact ⟨⟨r, hi.same rfl rfl rfl⟩, .of_heap rfl rfl hh⟩
  | finish p table hr he hrem => exact hi.finish hh hr hrem
  | mistaken p hr ha =>
    have hquiet : Task.Quiet fun task => { task with callee := .ended, mode := .suspended } :=
      ⟨fun _ => rfl, fun _ => rfl, fun _ => rfl, fun _ => rfl⟩
    have hi' := hi.quiet hquiet p
    exact ⟨⟨r, hi'.control rfl rfl rfl⟩,
      .of_quiet hquiet rfl (hrun hr).1 hi hh fun q => hsame rfl⟩

end Lawd

import Lawd.Shutdown
import Lawd.Tick
import Lawd.Waiting

/-!
# What a tick runs

The ready set of a tick is made of the tasks that an input is resolved to and of
those that are admitted. The mark keeps each of them in it once, and the dispatch
takes each of them out of it once. Tasks that have been run are not marked until
the next tick, whatever they do.
-/
namespace Lawd

open Library

variable {P : Platform}

/-! ### What the inputs ask for -/

/-- The event of an input for one task. -/
def eventFor (w : Worker P) (heap : Heap) (p : TaskPtr) (x : TickInput) : Option Event :=
  (resolve w heap x).bind fun target => if target.1 = p then some target.2 else none

/-- The events of the inputs for one task. -/
def delivered (w : Worker P) (heap : Heap) (inputs : List TickInput) (p : TaskPtr) : List Event :=
  inputs.filterMap (eventFor w heap p)

/-- The tasks among the inputs. -/
def admitted (inputs : List TickInput) : List TaskPtr :=
  inputs.filterMap fun
    | .task p => some p
    | _ => none

@[simp] theorem delivered_append (w : Worker P) (heap : Heap) (inputs : List TickInput)
    (x : TickInput) (p : TaskPtr) : delivered w heap (inputs ++ [x]) p =
      delivered w heap inputs p ++ (eventFor w heap p x).toList := by
  rw [delivered, List.filterMap_append]
  cases hx : eventFor w heap p x <;> simp [delivered, hx]

@[simp] theorem admitted_append (inputs inputs' : List TickInput) :
    admitted (inputs ++ inputs') = admitted inputs ++ admitted inputs' := List.filterMap_append

theorem eventFor_of_none {w : Worker P} {heap : Heap} {x : TickInput}
    (h : resolve w heap x = none) (p : TaskPtr) : eventFor w heap p x = none := by
  rw [eventFor, h, Option.bind_none]

theorem eventFor_of_some {w : Worker P} {heap : Heap} {x : TickInput} {q : TaskPtr} {ev : Event}
    (h : resolve w heap x = some (q, ev)) (p : TaskPtr) :
    eventFor w heap p x = if q = p then some ev else none := by
  rw [eventFor, h, Option.bind_some]

theorem resolve_mem {w : Worker P} {heap : Heap} {x : TickInput} {p : TaskPtr} {ev : Event}
    (h : resolve w heap x = some (p, ev)) : p ∈ w.tasks := by
  obtain ⟨id, hlook⟩ := resolve_lookup h
  exact Worker.lookup_mem hlook

theorem delivered_mem {w : Worker P} {heap : Heap} {inputs : List TickInput} {p : TaskPtr}
    (h : delivered w heap inputs p ≠ []) : p ∈ w.tasks := by
  obtain ⟨ev, hev⟩ := List.exists_mem_of_ne_nil _ h
  obtain ⟨x, -, hx⟩ := List.mem_filterMap.mp hev
  obtain ⟨target, hres, htarget⟩ := Option.bind_eq_some_iff.mp hx
  split_ifs at htarget with heq
  exact heq ▸ resolve_mem hres

/-! ### The schedule of a tick -/

/-- The tasks that a tick has run so far. -/
def TickLog.tasks (log : TickLog) : List TaskPtr := log.ran.map Prod.fst

/-- A tick that began in the view `start`, so far: the tasks of the table that
have not run still sleep, and each admitted task that has not run is ready. -/
structure Scheduled (start v : View P) (log : TickLog) : Prop where
  table : v.worker.pc.phase < 3 →
    v.worker.table = start.worker.table ∧ admitted log.inputs = []
  early : v.worker.pc.phase < 4 → log.ran = []
  tasks : ∀ p ∈ v.worker.tasks, p ∈ start.worker.tasks ∨ p ∈ admitted log.inputs
  slept : ∀ p ∈ start.worker.tasks, p ∉ log.tasks → p ∈ v.worker.tasks ∧
    Slept (start.heap p) (delivered start.worker start.heap log.inputs p) (v.heap p)
  fresh : ∀ p ∈ admitted log.inputs, p ∉ log.tasks →
    p ∈ v.worker.tasks ∧ (v.heap p).mark = true
  once : log.tasks.Nodup
  due : ∀ p ∈ log.tasks,
    p ∈ admitted log.inputs ∨ delivered start.worker start.heap log.inputs p ≠ []
  rested : ∀ p ∈ log.tasks, p ∈ v.worker.tasks → (v.heap p).mark = false
  found : ∀ x ∈ log.ran, x.1 ∈ start.worker.tasks →
    x.2 = (delivered start.worker start.heap log.inputs x.1).take (start.heap x.1).maxEvents.toNat
  running : ∀ p, v.worker.pc = .running p → p ∈ log.tasks

section Scheduled

variable {cfg : Config} {start v v' : View P} {log : TickLog} {r : List TaskPtr}

/-- A step that leaves alone the tasks that have yet to run. -/
theorem Scheduled.mono (h : Scheduled start v log)
    (hphase : v.worker.pc.phase ≤ v'.worker.pc.phase)
    (htable : v'.worker.pc.phase < 3 → v'.worker.table = v.worker.table)
    (htasks : v'.worker.tasks ⊆ v.worker.tasks)
    (hkeep : ∀ p ∈ v.worker.tasks, p ∉ log.tasks → p ∈ v'.worker.tasks ∧ v'.heap p = v.heap p)
    (hmark : ∀ p ∈ v'.worker.tasks, (v'.heap p).mark = (v.heap p).mark)
    (hrun : ∀ p, v'.worker.pc = .running p → v.worker.pc = .running p) :
    Scheduled start v' log where
  table hlt := by
    obtain ⟨hsame, hnone⟩ := h.table (by omega)
    exact ⟨(htable hlt).trans hsame, hnone⟩
  early hlt := h.early (by omega)
  tasks p hp := h.tasks p (htasks hp)
  slept p hp hran := by
    obtain ⟨hmem, hslept⟩ := h.slept p hp hran
    obtain ⟨hmem', hheap⟩ := hkeep p hmem hran
    exact ⟨hmem', hheap ▸ hslept⟩
  fresh p hp hran := by
    obtain ⟨hmem, hm⟩ := h.fresh p hp hran
    obtain ⟨hmem', hheap⟩ := hkeep p hmem hran
    exact ⟨hmem', hheap ▸ hm⟩
  once := h.once
  due := h.due
  rested p hran hp := by
    rw [hmark p hp]
    exact h.rested p hran (htasks hp)
  found := h.found
  running p hp := h.running p (hrun p hp)

/-- A turn that changes neither the heap nor the table. -/
theorem Scheduled.control (h : Scheduled start v log)
    (hphase : v.worker.pc.phase ≤ v'.worker.pc.phase) (hheap : v'.heap = v.heap)
    (htable : v'.worker.table = v.worker.table)
    (hrun : ∀ p, v'.worker.pc = .running p → v.worker.pc = .running p) :
    Scheduled start v' log := by
  have htasks := Worker.tasks_congr htable
  refine h.mono hphase (fun _ => htable) (by rw [htasks]; exact List.Subset.refl _)
    (fun p hp _ => ⟨by rwa [htasks], by rw [hheap]⟩) (fun p _ => by rw [hheap]) hrun

theorem Scheduled.resolve (h : Scheduled start v log) (hphase : v.worker.pc.phase < 3)
    (x : TickInput) : resolve v.worker v.heap x = resolve start.worker start.heap x := by
  obtain ⟨htable, -⟩ := h.table hphase
  have hlookup : ∀ id, v.worker.lookup id = start.worker.lookup id := fun id => by
    rw [Worker.lookup, htable]
    rfl
  have hran : log.tasks = [] := by rw [TickLog.tasks, h.early (by omega)]; rfl
  cases x with
  | timer e =>
    simp only [Lawd.resolve, hlookup]
    cases hp : start.worker.lookup e.identifier with
    | none => rfl
    | some p =>
      have hversion := (h.slept p (Worker.lookup_mem hp) (by simp [hran])).2.version
      simp only [Option.bind_some, hversion]
  | event ev => simp only [Lawd.resolve, eventTarget, hlookup]
  | message msg => cases msg <;> simp only [Lawd.resolve, hlookup]
  | task p => rfl

/-- An input goes to the buffer of the task that it is resolved to, and makes it
ready. -/
theorem Scheduled.deliver (h : Scheduled start v log) (hi : WorkerInv v.heap v.worker r)
    (hphase : v.worker.pc.phase < 3) {x : TickInput} (hx : x.phase < 3) :
    Scheduled start (v.deliver (Lawd.resolve v.worker v.heap x))
      ⟨log.inputs ++ [x], log.ran⟩ := by
  obtain ⟨htable, hnone⟩ := h.table hphase
  have hran : log.ran = [] := h.early (by omega)
  have hempty : ∀ p, p ∉ log.ran.map Prod.fst := by simp [hran]
  have hadm : admitted (log.inputs ++ [x]) = [] := by
    rw [admitted_append, hnone]
    cases x with
    | task p => exact absurd hx (lt_irrefl 3)
    | _ => rfl
  have hpc : (v.deliver (Lawd.resolve v.worker v.heap x)).worker.pc = v.worker.pc :=
    View.deliver_pc ..
  have htasks : (v.deliver (Lawd.resolve v.worker v.heap x)).worker.tasks = v.worker.tasks :=
    Worker.tasks_congr (View.deliver_table ..)
  refine ⟨fun _ => ⟨(View.deliver_table ..).trans htable, hadm⟩, fun _ => hran, fun p hp => ?_,
    fun p hp _ => ?_, fun p hp => ?_, h.once, fun p hp => absurd hp (hempty p),
    fun p hp => absurd hp (hempty p), fun y hy => ?_, fun p hp => ?_⟩
  · rw [htasks] at hp
    refine (h.tasks p hp).imp_right fun hp => ?_
    rw [hnone] at hp
    cases hp
  · obtain ⟨hmem, hslept⟩ := h.slept p hp (hempty p)
    refine ⟨by rwa [htasks], ?_⟩
    rw [delivered_append]
    cases hres : Lawd.resolve v.worker v.heap x with
    | none =>
      rw [eventFor_of_none ((h.resolve hphase x).symm.trans hres), Option.toList_none,
        List.append_nil]
      exact hslept
    | some target =>
      obtain ⟨q, ev⟩ := target
      have hq := resolve_mem hres
      obtain ⟨r', wk⟩ := View.pushed_woken hi hq ev
      rw [eventFor_of_some ((h.resolve hphase x).symm.trans hres)]
      by_cases hqp : q = p
      · subst hqp
        rw [if_pos rfl]
        have hrel := Heap.pushed_relinked v.heap v.worker.ready q q ev
        rw [Heap.modify_same] at hrel
        exact hslept.pushed ev hrel wk.mark
      · rw [if_neg hqp, Option.toList_none, List.append_nil]
        change Slept _ _ ((v.pushed q ev).heap p)
        rw [wk.others p (Ne.symm hqp)]
        exact hslept
  · rw [hadm] at hp
    cases hp
  · rw [hran] at hy
    cases hy
  · exact h.running p (hpc.symm.trans hp)

/-- An admitted task is ready. -/
theorem Scheduled.insert (h : Scheduled start v log) (hi : WorkerInv v.heap v.worker r)
    (hh : HandInv v) {p : TaskPtr} {table : P.tables.Map} (hpc : v.worker.pc = .admitted p)
    (hins : tableInsert P.tables v.worker.table (v.heap p).id (some p) = (.success, table)) :
    Scheduled start { v with heap := (readySetPush v.heap v.worker.ready p).1,
                             worker := { v.worker with
                               pc := .admitting, table := table,
                               ready := (readySetPush v.heap v.worker.ready p).2 } }
      ⟨log.inputs ++ [.task p], log.ran⟩ := by
  have hran : log.ran = [] := h.early (by rw [hpc]; exact Nat.lt_succ_self 3)
  have hempty : ∀ p, p ∉ log.ran.map Prod.fst := by simp [hran]
  have hhand : p ∈ v.worker.pc.hand := by simp [hpc, WorkerPc.hand]
  have hmark : (v.heap p).mark = false := hh.unmarked p hhand
  have hp : p ∉ v.worker.tasks := fun hp => List.disjoint_of_nodup_append hh.nodup hp hhand
  obtain ⟨r', wk⟩ := readySetPush_woken (p := p) hi.ready
    ⟨fun hm => absurd hm (by simp [hmark]), fun hr => absurd (hi.listed p hr) hp⟩
  have hperm : (Worker.tasks { v.worker with table := table }).Perm (p :: v.worker.tasks) :=
    Worker.tasks_insert hins
  have hadm : admitted (log.inputs ++ [.task p]) = admitted log.inputs ++ [p] := admitted_append ..
  have hdel : ∀ q, delivered start.worker start.heap (log.inputs ++ [.task p]) q =
      delivered start.worker start.heap log.inputs q := fun q => by
    rw [delivered_append, eventFor_of_none rfl, Option.toList_none, List.append_nil]
  have hkeep : ∀ q ∈ v.worker.tasks, q ∈ Worker.tasks { v.worker with table := table } ∧
      (readySetPush v.heap v.worker.ready p).1 q = v.heap q := fun q hq =>
    ⟨hperm.symm.subset (List.mem_cons_of_mem _ hq), wk.others q (by rintro rfl; exact hp hq)⟩
  refine ⟨fun hlt => absurd hlt (lt_irrefl 3), fun _ => hran, fun q hq => ?_, fun q hq _ => ?_,
    fun q hq _ => ?_, h.once, fun q hq => absurd hq (hempty q), fun q hq => absurd hq (hempty q),
    fun y hy => ?_, fun q hq => by cases hq⟩
  · rw [hadm]
    rcases List.mem_cons.mp (hperm.subset hq) with rfl | hq
    · exact .inr (List.mem_append_right _ (List.mem_singleton.mpr rfl))
    · exact (h.tasks q hq).imp_right (List.mem_append_left _)
  · obtain ⟨hmem, hslept⟩ := h.slept q hq (hempty q)
    obtain ⟨hmem', hheap⟩ := hkeep q hmem
    refine ⟨hmem', ?_⟩
    dsimp only
    rw [hdel, hheap]
    exact hslept
  · rw [hadm] at hq
    rcases List.mem_append.mp hq with hq | hq
    · obtain ⟨hmem, hm⟩ := h.fresh q hq (hempty q)
      obtain ⟨hmem', hheap⟩ := hkeep q hmem
      refine ⟨hmem', ?_⟩
      dsimp only
      rw [hheap]
      exact hm
    · obtain rfl := List.mem_singleton.mp hq
      exact ⟨hperm.symm.subset List.mem_cons_self, wk.mark⟩
  · rw [hran] at hy
    cases hy

/-- The dispatch takes a task out of the ready set and runs it. -/
theorem Scheduled.run (h : Scheduled start v log) (hi : WorkerInv v.heap v.worker r)
    {p : TaskPtr} {heap : Heap} {ready : Option TaskPtr} {f : Task → Task}
    (hpop : readySetPop v.heap v.worker.ready = (heap, ready, some p))
    (hf : (heap p).mode = .spawned ∧ f = startTask ∨ (heap p).mode = .suspended ∧ f = resumeTask) :
    Scheduled start { v with heap := heap.modify p f,
                             worker := { v.worker with
                               pc := .running p, ready := ready, active := some p } }
      ⟨log.inputs, log.ran ++ [(p, (f (heap p)).received)]⟩ := by
  have hrel := readySetPop_relinked hpop p
  obtain ⟨rest, hr, hrest, hsame, hmark, hothers⟩ := readySetPop_some hi.ready hpop
  have hready : p ∈ r := hr ▸ List.mem_cons_self
  have hmem : p ∈ v.worker.tasks := hi.listed p hready
  have hmarked : (v.heap p).mark = true := hi.ready.marked p hready
  have hnew : p ∉ log.tasks := fun hran => by
    have hm := h.rested p hran hmem
    rw [hmarked] at hm
    cases hm
  have hlog : TickLog.tasks ⟨log.inputs, log.ran ++ [(p, (f (heap p)).received)]⟩ =
      log.tasks ++ [p] := List.map_append
  have hquiet : (f (heap p)).mark = false := by
    rcases hf with ⟨-, rfl⟩ | ⟨-, rfl⟩
    · exact (startTask_quiet.mark _).trans hmark
    · exact (resumeTask_quiet.mark _).trans hmark
  have hheap : ∀ q, q ≠ p → heap.modify p f q = v.heap q := fun q hq => by
    rw [Heap.modify_ne _ _ hq, hothers q hq]
  have hrun : ∀ q, q ∉ log.tasks ++ [p] → q ∉ log.tasks ∧ q ≠ p := fun q hq =>
    ⟨fun h => hq (List.mem_append_left _ h),
      fun h => hq (List.mem_append_right _ (List.mem_singleton.mpr h))⟩
  refine ⟨fun hlt => absurd hlt (Nat.not_lt.mpr (Nat.le_succ 3)),
    fun hlt => absurd hlt (lt_irrefl 4), h.tasks, fun q hq hran => ?_,
    fun q hq hran => ?_, ?_, fun q hq => ?_, fun q hran hq => ?_, fun x hx hstart => ?_,
    fun q hq => ?_⟩
  · rw [hlog] at hran
    obtain ⟨hran, hqp⟩ := hrun q hran
    obtain ⟨hmem', hslept⟩ := h.slept q hq hran
    refine ⟨hmem', ?_⟩
    dsimp only
    rw [hheap q hqp]
    exact hslept
  · rw [hlog] at hran
    obtain ⟨hran, hqp⟩ := hrun q hran
    obtain ⟨hmem', hm⟩ := h.fresh q hq hran
    refine ⟨hmem', ?_⟩
    dsimp only
    rw [hheap q hqp]
    exact hm
  · rw [hlog]
    refine List.nodup_append.mpr ⟨h.once, List.nodup_singleton p, fun q hq q' hq' => ?_⟩
    rw [List.mem_singleton.mp hq']
    rintro rfl
    exact hnew hq
  · rw [hlog] at hq
    rcases List.mem_append.mp hq with hq | hq
    · exact h.due q hq
    · obtain rfl := List.mem_singleton.mp hq
      refine (h.tasks q hmem).elim (fun hstart => .inr ?_) .inl
      exact (h.slept q hstart hnew).2.mark.mp hmarked
  · rw [hlog] at hran
    dsimp only
    by_cases hqp : q = p
    · subst hqp
      rw [Heap.modify_same]
      exact hquiet
    · rw [hheap q hqp]
      refine h.rested q ((List.mem_append.mp hran).resolve_right fun hq' => hqp ?_) hq
      exact List.mem_singleton.mp hq'
  · rcases List.mem_append.mp hx with hx | hx
    · exact h.found x hx hstart
    · obtain rfl := List.mem_singleton.mp hx
      have hslept := (h.slept p hstart hnew).2
      have hmode : (heap p).mode = .suspended := hsame.mode.trans hslept.mode
      rcases hf with ⟨hspawned, -⟩ | ⟨-, rfl⟩
      · cases hspawned.symm.trans hmode
      · exact hslept.received hrel
  · obtain rfl : p = q := by simpa using hq
    rw [hlog]
    exact List.mem_append_right _ (List.mem_singleton.mpr rfl)

theorem View.ran_of_ne (h : v.worker.pc ≠ .dispatch) : v.ran v' = [] := by
  unfold View.ran
  split
  · rename_i hpc _
    exact absurd hpc h
  · rfl

theorem Scheduled.turn (h : Scheduled start v log) (ht : Turn cfg v v')
    (hi : WorkerInv v.heap v.worker r) (hh : HandInv v) :
    Scheduled start v' ⟨log.inputs ++ v.takes.toList, log.ran ++ v.ran v'⟩ := by
  have hphase := ht.phase_le
  have hcontrol : ∀ {u : View P}, v.worker.pc ≠ .dispatch → v.takes = none →
      Scheduled start u log →
        Scheduled start u ⟨log.inputs ++ v.takes.toList, log.ran ++ v.ran u⟩ := by
    intro u hpc htakes hu
    rw [View.ran_of_ne hpc, htakes, Option.toList_none, List.append_nil, List.append_nil]
    exact hu
  cases ht with
  | timer e timer hpc htakes hdue hpop =>
    rw [View.ran_of_ne (by rw [hpc]; decide), htakes, List.append_nil]
    have hu : Scheduled start { v with worker := { v.worker with timer := timer } } log :=
      h.control le_rfl rfl rfl fun _ hp => hp
    exact hu.deliver (x := .timer e) (hi.same rfl rfl rfl)
      (by change v.worker.pc.phase < 3; rw [hpc]; decide) (by simp [TickInput.phase])
  | timersDone hpc htakes hlate =>
    refine hcontrol (by rw [hpc]; decide) htakes (h.control hphase rfl rfl fun _ hp => ?_)
    cases hp
  | event ev batch hpc htakes hcons =>
    rw [View.ran_of_ne (by rw [hpc]; decide), htakes, List.append_nil]
    have hu : Scheduled start { v with worker := { v.worker with batch := batch } } log :=
      h.control le_rfl rfl rfl fun _ hp => hp
    exact hu.deliver (x := .event ev) (hi.same rfl rfl rfl)
      (by change v.worker.pc.phase < 3; rw [hpc]; decide) (by simp [TickInput.phase])
  | eventsDone hpc htakes hnil =>
    refine hcontrol (by rw [hpc]; decide) htakes (h.control hphase rfl rfl fun _ hp => ?_)
    cases hp
  | message msg messages reloop hpc htakes hcons hreloop =>
    rw [View.ran_of_ne (by rw [hpc]; decide), htakes, List.append_nil]
    have hu : Scheduled start
        { v with messages := messages, worker := { v.worker with reloop := reloop } } log :=
      h.control le_rfl rfl rfl fun _ hp => hp
    exact hu.deliver (x := .message msg) (hi.same rfl rfl rfl)
      (by change v.worker.pc.phase < 3; rw [hpc]; decide) (by simp [TickInput.phase])
  | messagesDone hpc htakes hnil =>
    refine hcontrol (by rw [hpc]; decide) htakes (h.control hphase rfl rfl fun _ hp => ?_)
    cases hp
  | take p incoming hpc htakes hsize hcons =>
    refine hcontrol (by rw [hpc]; decide) htakes (h.control hphase rfl rfl fun _ hp => ?_)
    cases hp
  | admitDone hpc htakes =>
    refine hcontrol (by rw [hpc]; decide) htakes (h.control hphase rfl rfl fun _ hp => ?_)
    cases hp
  | insert p table hpc htakes hins =>
    rw [View.ran_of_ne (by rw [hpc]; simp), htakes, List.append_nil]
    exact h.insert hi hh hpc hins
  | done pc heap ready hpc htakes hpop hpc' =>
    have hran : v.ran { v with worker := { v.worker with pc := pc } } = [] := by
      simp only [View.ran, hpc]
      rcases hpc' with rfl | ⟨rfl, -⟩ <;> rfl
    rw [hran, htakes, Option.toList_none, List.append_nil, List.append_nil]
    refine h.control hphase rfl rfl fun p hp => ?_
    rw [show pc = .running p from hp] at hpc'
    rcases hpc' with hpc' | ⟨hpc', -⟩ <;> cases hpc'
  | run p heap ready f hpc htakes hpop hf =>
    have hran : v.ran { v with heap := heap.modify p f,
                               worker := { v.worker with
                                 pc := .running p, ready := ready, active := some p } } =
        [(p, (f (heap p)).received)] := by
      simp only [View.ran, hpc, Heap.modify_same]
    rw [hran, htakes, Option.toList_none, List.append_nil]
    exact h.run hi hpop hf

end Scheduled

theorem Scheduled.taskRan {start v v' : View P} {log : TickLog} (h : Scheduled start v log)
    {p : TaskPtr} (hpc : v.worker.pc = .running p) (hr : TaskRan v v' p) :
    Scheduled start v' log := by
  have hphase : v.worker.pc.phase = 4 := by rw [hpc]; rfl
  have hran := h.running p hpc
  refine h.mono (by rw [hphase, hr.phase]) (fun hlt => ?_) hr.tasks (fun q hq hnot => ?_)
    (fun q _ => ?_) fun q hq => by rw [hr.running hq, hpc]
  · rw [hr.phase] at hlt
    omega
  · have hqp : q ≠ p := by
      rintro rfl
      exact hnot hran
    exact ⟨hr.kept q hq hqp, hr.heap q hqp⟩
  · by_cases hqp : q = p
    · rw [hqp, hr.mark]
    · rw [hr.heap q hqp]

theorem Scheduled.frame {start : View P} {s t : State P} {i : ℕ} {log : TickLog}
    (h : Scheduled start (s.view i) log) (hf : WorkerFrame s t i) :
    Scheduled start (t.view i) log := by
  have hpc : ((t.workers i).pc = (s.workers i).pc ∨ (t.workers i).pc.phase = 4 ∧
      (s.workers i).pc.phase = 4 ∧ ∀ p, (t.workers i).pc ≠ .running p) ∧
      (t.workers i).table = (s.workers i).table := by
    rcases hf.worker with hw | ⟨pc, hw, hpc, hold⟩
    · rw [hw]
      exact ⟨.inl rfl, rfl⟩
    · rw [hw]
      refine ⟨.inr ⟨?_, ?_, ?_⟩, rfl⟩
      · rcases hpc with rfl | rfl <;> rfl
      · rcases hold with ⟨q, hq⟩ | hq <;> rw [hq] <;> rfl
      · rcases hpc with rfl | rfl <;> simp
  obtain ⟨hpc, htable⟩ := hpc
  have htasks : (t.workers i).tasks = (s.workers i).tasks := Worker.tasks_congr htable
  refine h.mono ?_ (fun _ => htable) ?_ (fun p hp _ => ⟨?_, hf.heap p hp⟩) (fun p hp => ?_)
    fun p hp => ?_
  · change (s.workers i).pc.phase ≤ (t.workers i).pc.phase
    rcases hpc with hpc | ⟨h4, h4', -⟩
    · rw [hpc]
    · rw [h4, h4']
  · change (t.workers i).tasks ⊆ (s.workers i).tasks
    rw [htasks]
    exact List.Subset.refl _
  · change p ∈ (t.workers i).tasks
    rw [htasks]
    exact hp
  · change p ∈ (t.workers i).tasks at hp
    rw [htasks] at hp
    exact congrArg Task.mark (hf.heap p hp)
  · rcases hpc with hpc | ⟨-, -, hnot⟩
    · exact hpc ▸ hp
    · exact absurd hp (hnot p)

/-- The schedule of a tick and the account of its inputs. -/
structure TickInv (i : ℕ) (start : View P) (s : State P) (log : TickLog) : Prop where
  scheduled : Scheduled start (s.view i) log
  accounted : Accounted start (s.view i) log.inputs

section Step

variable {cfg : Config} {s t : State P} {a : Action} {i : ℕ} {start : View P} {log : TickLog}

theorem noteTick_other (ha : a ≠ .worker i .turn) : noteTick i log s a t = log := by
  unfold noteTick
  split
  · rename_i j
    rw [if_neg]
    rintro rfl
    exact ha rfl
  · rfl

theorem TickInv.step (h : TickInv i start s log) (hst : serverStep cfg s a = some t)
    (ha : WithinTick i a) {l : List TaskPtr} (hi : Inv s l) :
    TickInv i start t (noteTick i log s a t) := by
  obtain ⟨r, hr⟩ := hi.workers i
  by_cases hown : ∃ act, a = .worker i act
  · obtain ⟨act, rfl⟩ := hown
    obtain ⟨-, -, -, v, hv, rfl⟩ := serverStep_worker hst
    have hview : (s.setView i v).view i = v := s.view_setView i v
    cases act with
    | begin polled now batch => exact absurd rfl (ha polled now batch)
    | turn =>
      have hturn := workerTurn_turn hv
      have hnote : noteTick i log s (.worker i .turn) (s.setView i v) =
          ⟨log.inputs ++ (s.view i).takes.toList, log.ran ++ (s.view i).ran v⟩ := by
        rw [noteTick, if_pos rfl, hview]
      rw [hnote]
      refine ⟨?_, ?_⟩
      · rw [hview]
        exact h.scheduled.turn hturn hr (hi.hand_view i)
      · rw [hview]
        exact h.accounted.turn hturn
    | task act =>
      obtain ⟨p, hpc, hran⟩ := workerStep_ran hv
      have hphase : (s.view i).worker.pc.phase = 4 := by rw [hpc]; rfl
      rw [noteTick_other (by simp)]
      refine ⟨?_, ?_⟩
      · rw [hview]
        exact h.scheduled.taskRan hpc hran
      · rw [hview]
        exact h.accounted.late (by rw [hphase]; decide) (by rw [hphase, hran.phase])
  · have hother : ∀ act, a ≠ .worker i act := fun act heq => hown ⟨act, heq⟩
    rw [noteTick_other (hother .turn)]
    have hframe : WorkerFrame s t i := by
      refine (serverStep_frame hst hi i).resolve_left ?_
      rintro ⟨act, v, heq, -⟩
      exact hother act heq
    refine ⟨h.scheduled.frame hframe, ?_⟩
    rcases hframe.worker with hw | ⟨pc, hw, hpc, hold⟩
    · refine h.accounted.sent hw ?_
      change s.messages i <+: t.messages i
      rcases serverStep_sends hst hother with hsame | ⟨msg, hmsg, -⟩
      · rw [hsame]
      · rw [hmsg]
        exact List.prefix_append ..
    · have hphase : (s.view i).worker.pc.phase = 4 := by
        change (s.workers i).pc.phase = 4
        rcases hold with ⟨q, hq⟩ | hq <;> rw [hq] <;> rfl
      have hphase' : (t.view i).worker.pc.phase = 4 := by
        change (t.workers i).pc.phase = 4
        rw [hw]
        rcases hpc with rfl | rfl <;> rfl
      exact h.accounted.late (by rw [hphase]; decide) (by rw [hphase, hphase'])

end Step

/-- A tick of worker `i` that began in the state `s` with the clock at `now` and
the polled events `batch`, and has ended in the state `t`. -/
structure TickDone (s : State P) (i : ℕ) (now : Time) (batch : List Event) (t : State P)
    (log : TickLog) : Prop where
  order : log.inputs.Pairwise fun x y => x.phase ≤ y.phase
  timers : (log.inputs.filterMap TickInput.timer?).Perm
    ((P.timers.entries (s.workers i).timer).filter fun e => decide (e.expiration ≤ now))
  events : log.inputs.filterMap TickInput.event? = batch
  messages : s.messages i <+: log.inputs.filterMap TickInput.message?
  once : log.tasks.Nodup
  ran : ∀ p, p ∈ log.tasks ↔
    p ∈ admitted log.inputs ∨ delivered (s.workers i) s.heap log.inputs p ≠ []
  found : ∀ x ∈ log.ran, x.1 ∈ (s.workers i).tasks →
    x.2 = (delivered (s.workers i) s.heap log.inputs x.1).take (s.heap x.1).maxEvents.toNat
  ready : (t.workers i).ready = none
  unmarked : ∀ p, (∀ j, j ≠ i → p ∉ (t.workers j).tasks) → (t.heap p).mark = false

theorem serverStep_begin {cfg : Config} {s t : State P} {i : ℕ} {polled now : Time}
    {batch : List Event} (hst : serverStep cfg s (.worker i (.begin polled now batch)) = some t) :
    (s.workers i).pc = .start ∧ t.view i = { s.view i with
      worker := { s.workers i with
        pc := .timers, reloop := true,
        timeout := pollTimeout cfg.workerTimeout (s.workers i).timer polled,
        now := now, batch := batch } } := by
  obtain ⟨-, -, -, v, hv, rfl⟩ := serverStep_worker hst
  simp only [workerStep, beginTick] at hv
  split_ifs at hv with hg
  obtain rfl := Option.some.inj hv
  refine ⟨hg.1, ?_⟩
  simp only [State.view, State.setView, Function.update_self]

theorem TickInv.init {i : ℕ} {t : State P} (hpc : (t.workers i).pc = .timers)
    (hslept : ∀ p ∈ (t.workers i).tasks, Slept (t.heap p) [] (t.heap p)) :
    TickInv i (t.view i) t ⟨[], []⟩ where
  scheduled := ⟨fun _ => ⟨rfl, rfl⟩, fun _ => rfl, fun _ hp => .inl hp,
    fun p hp _ => ⟨hp, hslept p hp⟩, fun _ hp => (by cases hp), List.nodup_nil,
    fun _ hp => (by cases hp), fun _ hp => (by cases hp), fun _ hx => (by cases hx),
    fun p hp => by cases hpc.symm.trans hp⟩
  accounted := ⟨.nil, fun _ hx => (by cases hx), .refl _, rfl, List.prefix_refl _⟩

/-- Between two ticks a task that waits with an array for its events sleeps. -/
theorem slept_of_waiting {cfg : Config} {s : State P} {i : ℕ}
    (hs : (serverSystem P cfg).Reachable s)
    (hstart : (s.workers i).pc = .start)
    (hwait : ∀ p ∈ (s.workers i).tasks, (s.heap p).mode = .suspended ∧ (s.heap p).events ≠ none) :
    ∀ p ∈ (s.workers i).tasks, Slept (s.heap p) [] (s.heap p) := by
  obtain ⟨l, hi⟩ := inv_of_reach hs
  obtain ⟨r, hr⟩ := hi.workers i
  obtain rfl := hr.drained (.inl hstart)
  intro p hp
  have hmark : (s.heap p).mark = false := by
    by_contra hm
    exact List.not_mem_nil (hr.marked p hp (by simpa using hm))
  exact (buffered_of_reach hs p).slept (hwait p hp).1 (hwait p hp).2 hmark

theorem tick_reachable {cfg : Config} {t : State P} {i : ℕ} (ht : (serverSystem P cfg).Reachable t)
    {x : State P × TickLog} (hx : (tickSystem P cfg i t).Reach (fun _ a => WithinTick i a) x) :
    (serverSystem P cfg).Reachable x.1 := by
  have hafter : ((serverSystem P cfg).after t).Reach (fun _ a => WithinTick i a) x.1 :=
    System.Reach.of_record hx
  exact System.Reach.trans ht (hafter.mono fun _ _ _ => trivial)

/-- Every state of a tick keeps both. -/
theorem tickInv_of_reach {cfg : Config} {t : State P} {i : ℕ}
    (ht : (serverSystem P cfg).Reachable t)
    (hpc : (t.workers i).pc = .timers)
    (hslept : ∀ p ∈ (t.workers i).tasks, Slept (t.heap p) [] (t.heap p)) {x : State P × TickLog}
    (hx : (tickSystem P cfg i t).Reach (fun _ a => WithinTick i a) x) :
    TickInv i (t.view i) x.1 x.2 := by
  refine System.Reach.invariant (P := fun x => TickInv i (t.view i) x.1 x.2) (fun x hx => ?_)
    (fun x a y hr hx ha hst => ?_) hx
  · obtain ⟨x, log⟩ := x
    obtain ⟨rfl, rfl⟩ := hx
    exact .init hpc hslept
  · obtain ⟨u, hu, rfl⟩ := Option.map_eq_some_iff.mp hst
    obtain ⟨l, hi⟩ := inv_of_reach (tick_reachable ht hr)
    exact hx.step hu ha hi

/-- What the invariants say at the end of the tick, when no task is ready. -/
theorem TickInv.done {s t : State P} {i : ℕ} {timeout : Int32} {now : Time} {batch : List Event}
    {log : TickLog} {l : List TaskPtr}
    (h : TickInv i { s.view i with
      worker := { s.workers i with
        pc := .timers, reloop := true, timeout := timeout, now := now, batch := batch } } t log)
    (hi : Inv t l) (hend : (t.workers i).pc = .start ∨ (t.workers i).pc = .exited) :
    TickDone s i now batch t log := by
  obtain ⟨r, hr⟩ := hi.workers i
  obtain rfl := hr.drained hend
  have hphase : 2 < (t.view i).worker.pc.phase := by
    change 2 < (t.workers i).pc.phase
    rcases hend with hend | hend <;> rw [hend] <;> decide
  obtain ⟨hdue, hpolled, hpending⟩ := View.taken_of_phase hphase
  have hunmarked : ∀ p ∈ (t.workers i).tasks, ¬ (t.heap p).mark = true := fun p hp hm =>
    List.not_mem_nil (hr.marked p hp hm)
  have hscheduled := h.scheduled
  have haccounted := h.accounted
  refine ⟨haccounted.order, ?_, ?_, ?_, hscheduled.once, fun p => ⟨hscheduled.due p, fun hp => ?_⟩,
    fun x hx hstart => hscheduled.found x hx hstart, hr.ready.chain, fun p hp => ?_⟩
  · have htimers := haccounted.timers
    rwa [hdue, List.append_nil] at htimers
  · have hevents := haccounted.events
    rwa [hpolled, List.append_nil] at hevents
  · have hmessages := haccounted.messages
    rwa [hpending, List.append_nil] at hmessages
  · by_contra hran
    rcases hp with hp | hp
    · obtain ⟨hmem, hm⟩ := hscheduled.fresh p hp hran
      exact hunmarked p hmem hm
    · obtain ⟨hmem, hslept⟩ := hscheduled.slept p (delivered_mem hp) hran
      exact hunmarked p hmem (hslept.mark.mpr hp)
  · by_cases hmem : p ∈ (t.workers i).tasks
    · simpa using hunmarked p hmem
    · refine hi.unmarked p fun j => ?_
      by_cases hj : j = i
      · rw [hj]
        exact hmem
      · exact hp j hj

/-- In a tick that begins with all tasks of the table suspended, each with an
array for its events, no task is run twice, the tasks that are run are those
that were admitted and those that an input was resolved to, and each task that
is resumed finds its events in the order in which they were taken. At the end
no task is ready or marked. -/
theorem tick_runs_ready_once (P : Platform) (cfg : Config) {s t t' : State P} {i : ℕ}
    {polled now : Time} {batch : List Event} {log : TickLog} (hs : (serverSystem P cfg).Reachable s)
    (hwait : ∀ p ∈ (s.workers i).tasks, (s.heap p).mode = .suspended ∧ (s.heap p).events ≠ none)
    (hbegin : serverStep cfg s (.worker i (.begin polled now batch)) = some t)
    (htick : (tickSystem P cfg i t).Reach (fun _ a => WithinTick i a) (t', log))
    (hend : (t'.workers i).pc = .start ∨ (t'.workers i).pc = .exited) :
    TickDone s i now batch t' log := by
  obtain ⟨hstart, hview⟩ := serverStep_begin hbegin
  have ht : (serverSystem P cfg).Reachable t := by
    have hst : (serverSystem P cfg).step s (.worker i (.begin polled now batch)) = some t := hbegin
    exact hs.step trivial hst
  have hheap : t.heap = s.heap := congrArg View.heap hview
  have hworker := congrArg View.worker hview
  have htable : (t.workers i).table = (s.workers i).table := (congrArg Worker.table hworker :)
  have hslept : ∀ p ∈ (t.workers i).tasks, Slept (t.heap p) [] (t.heap p) := by
    rw [hheap, Worker.tasks_congr htable]
    exact slept_of_waiting hs hstart hwait
  have hinv := tickInv_of_reach ht (congrArg Worker.pc hworker) hslept htick
  rw [hview] at hinv
  obtain ⟨l, hi⟩ := inv_of_reach (tick_reachable ht htick)
  exact hinv.done hi hend

instance (i : ℕ) : (a : Action) → Decidable (WithinTick i a)
  | .worker j (.begin polled now batch) =>
    if h : j = i then .isFalse fun ha => ha polled now batch (h ▸ rfl)
    else .isTrue fun _ _ _ heq => h (by cases heq; rfl)
  | .worker _ .turn | .worker _ (.task _) | .pool _ | .spawn _ _ _ | .spawnStep _ _ | .accept _
  | .acceptStep _ | .release _ | .wakeup _ _ | .stop => .isTrue fun _ _ _ heq => by cases heq

/-- A task waits for ten milliseconds, the next tick finds its entry expired and
resumes it, and it waits again. -/
theorem tick_runs_ready_once_resumed : ∃ (s t' : State Platform.lists) (log : TickLog),
    log.ran = [(1, [⟨evTim, 0⟩])] ∧ TickDone s 1 20 [] t' log := by
  have hrun : (((serverSystem Platform.lists twoWorkers).run (serverCreate _ twoWorkers zeroHeap)
      (.acceptStep 0 :: acceptOne ++ tickStart 1 ++
        [.worker 1 (.task (.ewait 0 10 true 4 false)), .worker 1 .turn])).bind fun s =>
      (serverStep twoWorkers s (.worker 1 (.begin 20 20 []))).bind fun t =>
      ((tickSystem Platform.lists twoWorkers 1 t).checkedRun (fun _ a => WithinTick 1 a)
        (t, ⟨[], []⟩) (List.replicate 6 (.worker 1 .turn) ++
          [.worker 1 (.task (.ewait 20 10 true 4 false)), .worker 1 .turn])).map fun x =>
        ((s.workers 1).tasks, (s.heap 1).mode, (s.heap 1).events, (x.1.workers 1).pc, x.2.ran)) =
      some ([1], .suspended, some [], .start, [(1, [⟨evTim, 0⟩])]) := rfl
  obtain ⟨s, hs, hrun⟩ := Option.bind_eq_some_iff.mp hrun
  obtain ⟨t, ht, hrun⟩ := Option.bind_eq_some_iff.mp hrun
  obtain ⟨x, hx, hall⟩ := Option.map_eq_some_iff.mp hrun
  simp only [Prod.mk.injEq] at hall
  obtain ⟨htasks, hmode, hevents, hpc, hran⟩ := hall
  have hinit : (tickSystem Platform.lists twoWorkers 1 t).initial (t, ⟨[], []⟩) := ⟨rfl, rfl⟩
  refine ⟨s, x.1, x.2, hran, tick_runs_ready_once Platform.lists twoWorkers
    (System.Reachable.run (.init ⟨zeroHeap, zeroHeap_fresh, rfl⟩) _ hs) (fun p hp => ?_) ht
    (System.Reach.checkedRun (.init hinit) _ hx) (.inl hpc)⟩
  rw [htasks, List.mem_singleton] at hp
  rw [hp, hmode, hevents]
  exact ⟨rfl, by simp⟩

end Lawd

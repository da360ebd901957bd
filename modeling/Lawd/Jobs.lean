import Lawd.Shutdown

/-!
# Every task is started once

What `law_task_setup` is given is a job. Between its setup and the first call of
its coroutine a task has the mode `LAW_MODE_SPAWNED` and stands for its job, in
the hands of its spawner, in a pipe, in the hands of the worker that admits it,
or in a ready set. No step changes the job that a task stands for, so each job is
started once, with the callback and the data that it was given. A `law_spawn` that
fails drops the task that it has set up, and with it its job.
-/
namespace Lawd

open Library

variable {P : Platform}

/-- What `law_task_setup` is given, with the number of its setup. -/
@[ext]
structure Job where
  serial : ℕ
  callback : Option Callback
  data : Data
  deriving DecidableEq, Repr

/-- What the coroutine of a task is called with. -/
def Task.job (task : Task) : Job := ⟨task.serial, task.callback, task.data⟩

/-- The job that a task has yet to start. -/
def Task.job? (task : Task) : Option Job := if task.mode = .spawned then some task.job else none

/-- The jobs that have been given and started, in order. -/
structure JobLog where
  given : List Job
  started : List Job

/-- The job that a turn of `law_worker_dispatch` starts. -/
def View.started (v v' : View P) : List Job :=
  match v.worker.pc, v'.worker.pc with
  | .dispatch, .running p => if (v.heap p).mode = .spawned then [(v'.heap p).job] else []
  | _, _ => []

/-- The calls of `law_task_setup` and the first calls of a coroutine go into the
log. -/
def JobLog.note (log : JobLog) (s : State P) (a : Action) (t : State P) : JobLog :=
  match a with
  | .spawnStep th _ =>
    match s.spawnPc th, t.spawnPc th with
    | .popping callback data, .trying _ _ =>
      { log with given := log.given ++ [⟨s.spawned + 1, some callback, data⟩] }
    | _, _ => log
  | .acceptStep _ =>
    match s.acceptPc, t.acceptPc with
    | .popping fd, .pushing _ _ =>
      { log with given := log.given ++ [⟨s.spawned + 1, some .accept, BitVec.ofNat 64 fd⟩] }
    | _, _ => log
  | .worker i _ => { log with started := log.started ++ (s.view i).started (t.view i) }
  | _ => log

/-- The runs of a server with the log of its jobs. -/
def jobSystem (P : Platform) (cfg : Config) : System (State P × JobLog) Action :=
  (serverSystem P cfg).record JobLog.note ⟨[], []⟩

/-- The jobs of the tasks, some of which may have been dropped. -/
def State.jobs (s : State P) : List Job :=
  (List.range s.capacity).filterMap fun p => (s.heap p).job?

/-- The jobs that are still to be started. -/
def State.waiting (s : State P) : List Job :=
  ((List.range s.capacity).filter (· ∉ s.lost)).filterMap fun p => (s.heap p).job?

/-- The jobs of the tasks that a failed `law_spawn` dropped. -/
def State.dropped (s : State P) : List Job :=
  ((List.range s.capacity).filter (· ∈ s.lost)).filterMap fun p => (s.heap p).job?

/-- Where a task can be that has been set up and is still to be started. -/
inductive Waiting (s : State P) (p : TaskPtr) : Prop
  | outbound (th : Tid) : p ∈ s.outbound th → Waiting s p
  | incoming (i : ℕ) : p ∈ s.incoming i → Waiting s p
  | admitted (i : ℕ) : (s.workers i).pc = .admitted p → Waiting s p
  | ready (i : ℕ) (r : List TaskPtr) :
      s.heap.Chain (s.workers i).ready r → p ∈ r → Waiting s p

/-- Every job is started once, or one task that is still to be started stands for it,
or a failed `law_spawn` has dropped it. -/
structure JobsOnce (s : State P) (log : JobLog) : Prop where
  numbered : log.given.map Job.serial = List.range' 1 s.spawned
  once : log.given.Perm (log.started ++ (s.waiting ++ s.dropped))
  waiting : ∀ p < s.capacity, (s.heap p).mode = .spawned → p ∉ s.lost → Waiting s p

theorem State.jobs_perm (s : State P) : s.jobs.Perm (s.waiting ++ s.dropped) := by
  have hsplit : (List.range s.capacity).Perm ((List.range s.capacity).filter (· ∉ s.lost) ++
      (List.range s.capacity).filter (· ∈ s.lost)) := by
    have hperm := List.filter_append_perm (fun p => decide (p ∉ s.lost)) (List.range s.capacity)
    simpa using hperm.symm
  have hjobs := hsplit.filterMap fun p => (s.heap p).job?
  rwa [List.filterMap_append] at hjobs

/-! ### The job of a task -/

@[simp] theorem Task.job?_eq_none {task : Task} : task.job? = none ↔ task.mode ≠ .spawned := by
  simp [job?]

theorem Task.job?_of_ne {task : Task} (h : task.mode ≠ .spawned) : task.job? = none :=
  Task.job?_eq_none.mpr h

theorem Task.Same.job? {t u : Task} (h : t.Same u) : u.job? = t.job? := by
  simp only [Task.job?, Task.job, h.mode, h.serial, h.callback, h.data]

/-- What a step does to the jobs that the tasks stand for. -/
inductive JobStep (capacity : ℕ) (heap heap' : Heap) : List Job → List Job → Prop
  | keeps : (∀ p, (heap' p).job? = (heap p).job?) → JobStep capacity heap heap' [] []
  | gives (p : TaskPtr) (job : Job) : p < capacity → (heap p).job? = none →
      (heap' p).job? = some job → (∀ q, q ≠ p → (heap' q).job? = (heap q).job?) →
      JobStep capacity heap heap' [job] []
  | starts (p : TaskPtr) (job : Job) : p < capacity → (heap p).job? = some job →
      (heap' p).job? = none → (∀ q, q ≠ p → (heap' q).job? = (heap q).job?) →
      JobStep capacity heap heap' [] [job]

/-- The tasks that have no job to start: those in the pool and in calls on it,
and those that run or have finished. A task with a job in a table is ready. -/
structure JobInv (s : State P) (l : List TaskPtr) : Prop where
  pool : ∀ p ∈ l, (s.heap p).job? = none
  call : ∀ th, ∀ p ∈ (s.pc th).hand, (s.heap p).job? = none
  ran : ∀ i p, (s.workers i).pc = .running p ∨ (s.workers i).pc = .removed p →
    (s.heap p).job? = none
  ready : ∀ i, ∀ p ∈ (s.workers i).tasks, (s.heap p).job? ≠ none → (s.heap p).mark = true

/-! ### The steps of a worker -/

/-- What a step of a worker does to the jobs of its tasks. -/
structure JobTurn (v v' : View P) : Prop where
  jobs : (∀ q, (v'.heap q).job? = (v.heap q).job?) ∧ v.started v' = [] ∨
    ∃ p ∈ v.worker.tasks, ∃ job, (v.heap p).job? = some job ∧ (v'.heap p).job? = none ∧
      (∀ q, q ≠ p → (v'.heap q).job? = (v.heap q).job?) ∧ v.started v' = [job]
  ran : ∀ p, v'.worker.pc = .running p ∨ v'.worker.pc = .removed p → (v'.heap p).job? = none
  ready : ∀ p ∈ v'.worker.tasks, (v'.heap p).job? ≠ none → (v'.heap p).mark = true

section Worker

variable {cfg : Config} {v v' : View P} {a : WorkerAct} {r : List TaskPtr}

theorem View.started_eq_nil (h : v.worker.pc ≠ .dispatch ∨ ∀ p, v'.worker.pc ≠ .running p) :
    v.started v' = [] := by
  unfold View.started
  split
  · rename_i p hpc hpc'
    exact h.elim (fun h => absurd hpc h) fun h => absurd hpc' (h p)
  · rfl

/-- A step that starts no task, and keeps the job of each. -/
theorem JobTurn.keep (hran : ∀ p, v.worker.pc = .running p → (v.heap p).job? = none)
    (hready : ∀ p ∈ v.worker.tasks, (v.heap p).job? ≠ none → (v.heap p).mark = true)
    (hjob : ∀ q, (v'.heap q).job? = (v.heap q).job?)
    (hmark : ∀ q, (v.heap q).mark = true → (v'.heap q).mark = true)
    (htasks : v'.worker.tasks ⊆ v.worker.tasks)
    (hpc : ∀ p, v'.worker.pc = .running p ∨ v'.worker.pc = .removed p → v.worker.pc = .running p)
    (hstart : v.worker.pc ≠ .dispatch ∨ ∀ p, v'.worker.pc ≠ .running p) : JobTurn v v' where
  jobs := .inl ⟨hjob, View.started_eq_nil hstart⟩
  ran p hp := by rw [hjob, hran p (hpc p hp)]
  ready p hp hne := hmark p (hready p (htasks hp) (by rwa [hjob] at hne))

theorem job?_modify {heap : Heap} {p : TaskPtr} {f : Task → Task}
    (hold : (heap p).job? = none) (hnew : (f (heap p)).job? = none) (q : TaskPtr) :
    (heap.modify p f q).job? = (heap q).job? := by
  rw [Heap.modify_apply]
  split_ifs with h
  · rw [h, hold, hnew]
  · rfl

theorem WorkerPc.not_ran {pc : WorkerPc} (h : pc.inTick = true) (p : TaskPtr) :
    ¬ (pc = .running p ∨ pc = .removed p) := by
  rintro (rfl | rfl) <;> cases h

theorem WorkerPc.not_running {pc : WorkerPc} (h : pc.inTick = true) (p : TaskPtr) :
    pc ≠ .running p := fun hp => WorkerPc.not_ran h p (.inl hp)

/-- Waking a task keeps the job of each. -/
theorem JobTurn.woken {heap' : Heap} {w : Worker P} {incoming : List TaskPtr} {messages : List Msg}
    {list' : Option TaskPtr} {r' : List TaskPtr} {p : TaskPtr}
    (wk : Woken v.heap heap' list' r p r')
    (hran : ∀ p, v.worker.pc = .running p → (v.heap p).job? = none)
    (hready : ∀ p ∈ v.worker.tasks, (v.heap p).job? ≠ none → (v.heap p).mark = true)
    (htasks : w.tasks ⊆ v.worker.tasks) (hpc : w.pc.inTick = true) :
    JobTurn v ⟨heap', incoming, messages, w⟩ := by
  refine .keep hran hready (fun q => (wk.sameAll q).job?) (fun q hq => ?_) htasks
    (fun q hq => absurd hq (WorkerPc.not_ran hpc q)) (.inr (WorkerPc.not_running hpc))
  by_cases hqp : q = p
  · exact hqp ▸ wk.mark
  · exact (congrArg Task.mark (wk.others q hqp)).trans hq

/-- The admitted task keeps its job, and is ready. -/
theorem JobTurn.insert {p : TaskPtr} {table : P.tables.Map} (hi : WorkerInv v.heap v.worker r)
    (hh : HandInv v)
    (hready : ∀ p ∈ v.worker.tasks, (v.heap p).job? ≠ none → (v.heap p).mark = true)
    (hpc : v.worker.pc = .admitted p)
    (hins : tableInsert P.tables v.worker.table (v.heap p).id (some p) = (.success, table)) :
    JobTurn v { v with heap := (readySetPush v.heap v.worker.ready p).1,
                       worker := { v.worker with
                         pc := .admitting, table := table,
                         ready := (readySetPush v.heap v.worker.ready p).2 } } := by
  have hmark : (v.heap p).mark = false := hh.unmarked p (by simp [hpc, WorkerPc.hand])
  have hnot : p ∉ r := fun hp => by
    have hm := hi.ready.marked p hp
    rw [hmark] at hm
    cases hm
  obtain ⟨r', wk⟩ := readySetPush_woken (p := p) hi.ready
    ⟨fun hm => absurd hm (by simp [hmark]), fun hp => absurd hp hnot⟩
  have hperm : (Worker.tasks { v.worker with table := table }).Perm (p :: v.worker.tasks) :=
    Worker.tasks_insert hins
  refine ⟨.inl ⟨fun q => (wk.sameAll q).job?, View.started_eq_nil (.inl (by simp [hpc]))⟩,
    fun q hq => absurd hq (WorkerPc.not_ran rfl q), fun q hq hne => ?_⟩
  by_cases hqp : q = p
  · exact hqp ▸ wk.mark
  · have hq' := (List.mem_cons.mp (hperm.subset hq)).resolve_left hqp
    dsimp only at hne ⊢
    rw [wk.others q hqp] at hne ⊢
    exact hready q hq' hne

/-- The dispatch starts the job of a task that was set up, and of no other. -/
theorem JobTurn.run {p : TaskPtr} {heap : Heap} {ready : Option TaskPtr} {f : Task → Task}
    (hi : WorkerInv v.heap v.worker r)
    (hready : ∀ p ∈ v.worker.tasks, (v.heap p).job? ≠ none → (v.heap p).mark = true)
    (hpc : v.worker.pc = .dispatch)
    (hpop : readySetPop v.heap v.worker.ready = (heap, ready, some p))
    (hf : (heap p).mode = .spawned ∧ f = startTask ∨ (heap p).mode = .suspended ∧ f = resumeTask) :
    JobTurn v { v with heap := heap.modify p f,
                       worker := { v.worker with
                         pc := .running p, ready := ready, active := some p } } := by
  obtain ⟨rest, rfl, -, hsame, -, hothers⟩ := readySetPop_some hi.ready hpop
  have hp : p ∈ v.worker.tasks := hi.listed p List.mem_cons_self
  have hrunning : (f (heap p)).job? = none := by
    refine Task.job?_of_ne ?_
    rcases hf with ⟨-, rfl⟩ | ⟨-, rfl⟩
    · simp [startTask]
    · unfold resumeTask
      split_ifs <;> simp
  have hothers' : ∀ q, q ≠ p → heap.modify p f q = v.heap q := fun q hq => by
    rw [Heap.modify_ne _ _ hq, hothers q hq]
  have hstarted : v.started { v with heap := heap.modify p f,
                                     worker := { v.worker with
                                       pc := .running p, ready := ready, active := some p } } =
      if (v.heap p).mode = .spawned then [(f (heap p)).job] else [] := by
    simp only [View.started, hpc, Heap.modify_same]
  refine ⟨?_, fun q hq => ?_, fun q hq hne => ?_⟩
  · rw [hstarted]
    rcases hf with ⟨hmode, rfl⟩ | ⟨hmode, rfl⟩
    · have hmode' : (v.heap p).mode = .spawned := hsame.mode.symm.trans hmode
      refine .inr ⟨p, hp, (heap p).job, ?_, ?_, fun q hq => congrArg _ (hothers' q hq),
        if_pos hmode'⟩
      · rw [← hsame.job?, Task.job?, if_pos hmode]
      · dsimp only
        rw [Heap.modify_same]
        exact hrunning
    · have hmode' : (v.heap p).mode ≠ .spawned := by
        rw [← hsame.mode, hmode]
        simp
      refine .inl ⟨fun q => ?_, if_neg hmode'⟩
      by_cases hq : q = p
      · rw [hq, Task.job?_of_ne hmode']
        dsimp only
        rw [Heap.modify_same]
        exact hrunning
      · exact congrArg _ (hothers' q hq)
  · obtain rfl : p = q := by simpa using hq
    dsimp only
    rw [Heap.modify_same]
    exact hrunning
  · by_cases hqp : q = p
    · subst hqp
      dsimp only at hne
      rw [Heap.modify_same] at hne
      exact absurd hrunning hne
    · dsimp only at hne ⊢
      rw [hothers' q hqp] at hne ⊢
      exact hready q hq hne

/-- Each effect of a worker keeps the jobs, or starts one. -/
theorem WorkerEffect.jobs (h : WorkerEffect cfg v a v') (hi : WorkerInv v.heap v.worker r)
    (hh : HandInv v) (hran : ∀ p, v.worker.pc = .running p → (v.heap p).job? = none)
    (hready : ∀ p ∈ v.worker.tasks, (v.heap p).job? ≠ none → (v.heap p).mark = true) :
    JobTurn v v' := by
  have htask : ∀ {w : Worker P} {q : TaskPtr}, v.Runs q → w.pc = .running q →
      w.table = v.worker.table → JobTurn v { v with worker := w } := by
    intro w q hr hpc htable
    refine .keep hran hready (fun _ => rfl) (fun _ h => h)
      (by rw [show Worker.tasks _ = _ from Worker.tasks_congr htable]; exact List.Subset.refl _)
      (fun p hp => ?_) (.inl (by rw [hr.1]; simp))
    rcases hp with hp | hp
    · exact hr.1.trans (hpc.symm.trans hp)
    · cases hpc.symm.trans hp
  have hends : ∀ {w : Worker P} {q : TaskPtr} {f : Task → Task}, v.Runs q →
      (w.pc = .dispatch ∨ w.pc = .removed q) → w.tasks ⊆ v.worker.tasks →
      (f (v.heap q)).mode ≠ .spawned → (f (v.heap q)).mark = (v.heap q).mark →
      JobTurn v { v with heap := v.heap.modify q f, worker := w } := by
    intro w q f hr hpc htasks hmode hmark
    refine .keep hran hready (job?_modify (hran q hr.1) (Task.job?_of_ne hmode)) (fun p hp => ?_)
      htasks (fun p hp => ?_) (.inl (by rw [hr.1]; simp))
    · dsimp only
      rw [Heap.modify_apply]
      split_ifs with heq
      · rw [hmark, ← heq, hp]
      · exact hp
    · rcases hpc with hpc | hpc <;> rcases hp with hp | hp <;> cases hpc.symm.trans hp
      exact hr.1
  cases h with
  | control w messages hpc hpc' hk hb =>
    exact .keep hran hready (fun _ => rfl) (fun _ h => h)
      (by rw [show Worker.tasks _ = _ from Worker.tasks_congr hk.table]; exact List.Subset.refl _)
      (fun p hp => absurd hp (WorkerPc.not_ran hpc' p)) (.inr (WorkerPc.not_running hpc'))
  | stale e timer hpc hpop hst =>
    refine .keep hran hready (fun _ => rfl) (fun _ h => h) (List.Subset.refl _) (fun p hp => ?_)
      (.inl (by simp [hpc]))
    exact absurd hp (WorkerPc.not_ran (by dsimp only; rw [hpc]; rfl) p)
  | expired e timer p ev hpc hpop hlook hver =>
    obtain ⟨r', wk⟩ := View.pushed_woken
      (v := { v with worker := { v.worker with timer := timer } })
      (hi.same rfl rfl rfl) (Worker.lookup_mem hlook) ev
    exact .woken wk hran hready (List.Subset.refl _) (by dsimp only; rw [hpc]; rfl)
  | woken w messages id p ev hpc hpc' hk hb hlook =>
    have htasks : w.tasks = v.worker.tasks := Worker.tasks_congr hk.table
    obtain ⟨r', wk⟩ := View.pushed_woken (v := { v with messages := messages, worker := w })
      (hi.same hpc' hk.ready hk.table) (htasks ▸ Worker.lookup_mem hlook) ev
    refine .woken wk hran hready ?_ (by dsimp only; rw [hpc', hpc])
    exact (htasks ▸ List.Subset.refl _ : w.tasks ⊆ v.worker.tasks)
  | take p incoming hpc hsize hcons =>
    refine .keep hran hready (fun _ => rfl) (fun _ h => h) (List.Subset.refl _) (fun q hq => ?_)
      (.inl (by simp [hpc]))
    rcases hq with hq | hq <;> cases hq
  | insert p table hpc hins => exact .insert hi hh hready hpc hins
  | tickDone pc heap ready hpc hpop hpc' =>
    have hne : ∀ q, ¬ (pc = .running q ∨ pc = .removed q) := by
      rcases hpc' with rfl | rfl <;> simp
    exact .keep hran hready (fun _ => rfl) (fun _ h => h) (List.Subset.refl _)
      (fun q hq => absurd hq (hne q)) (.inr fun q hq => hne q (.inl hq))
  | run p heap ready f hpc hpop hf => exact .run hi hready hpc hpop hf
  | ectl p fd op flags events data fails interest hr hact ha hint => exact htask hr hr.1 rfl
  | close p interest hr hint => exact htask hr hr.1 rfl
  | unchanged p hr => exact htask hr hr.1 rfl
  | enter p hr he ha => exact htask hr hr.1 rfl
  | leave p e hr he hq => exact htask hr hr.1 rfl
  | ewait p now millis events maxEvents hr ha =>
    exact hends hr (.inl rfl) (List.Subset.refl _) (by simp [suspendTask]) rfl
  | finish p table hr he hrem =>
    have hperm := Worker.tasks_remove { v.worker with pc := .removed p, table := table } hrem
    exact hends hr (.inr rfl) (fun q hq => hperm.symm.subset (List.mem_cons_of_mem _ hq))
      (Task.job?_eq_none.mp (hran p hr.1)) rfl
  | mistaken p hr ha =>
    exact hends hr (.inl rfl) (List.Subset.refl _) (by simp) rfl

end Worker

/-! ### The steps of the server -/

section Step

variable {cfg : Config} {s t : State P} {a : Action} {l : List TaskPtr}

theorem hand_of_pc {th : Tid} {p : TaskPtr} (hp : p ∈ (s.pc th).hand) : p ∈ s.hand th :=
  List.mem_append_left _ hp

theorem hand_of_removed {i : ℕ} {p : TaskPtr} (hpc : (s.workers i).pc = .removed p) :
    p ∈ s.hand (.worker i) := by
  refine List.mem_append_right _ (List.mem_append_right _ ?_)
  simp [State.workerHand, hpc, WorkerPc.hand]

/-- A step that leaves the heap alone, and moves a task into a call on the pool
only from the hands of the worker that finished it. -/
theorem JobInv.still (hj : JobInv s l) (hheap : t.heap = s.heap)
    (hcall : ∀ th, ∀ p ∈ (t.pc th).hand,
      p ∈ (s.pc th).hand ∨ ∃ i, (s.workers i).pc = .removed p)
    (hran : ∀ i p, (t.workers i).pc = .running p ∨ (t.workers i).pc = .removed p →
      (s.workers i).pc = .running p ∨ (s.workers i).pc = .removed p)
    (htable : ∀ i, (t.workers i).table = (s.workers i).table) : JobInv t l where
  pool p hp := by
    rw [hheap]
    exact hj.pool p hp
  call th p hp := by
    rw [hheap]
    rcases hcall th p hp with hp | ⟨i, hp⟩
    · exact hj.call th p hp
    · exact hj.ran i p (.inr hp)
  ran i p hp := by
    rw [hheap]
    exact hj.ran i p (hran i p hp)
  ready i p hp := by
    rw [hheap]
    exact hj.ready i p (Worker.tasks_congr (htable i) ▸ hp)

theorem JobInv.moves (hj : JobInv s l) {th : Tid} {pc : PoolPc} (hheap : t.heap = s.heap)
    (hpc : t.pc = Function.update s.pc th pc) (hhand : pc.hand = [])
    (hworkers : t.workers = s.workers) : JobInv t l := by
  refine hj.still hheap (fun th' p hp => .inl ?_) (fun i p hp => by rwa [hworkers] at hp)
    fun i => by rw [hworkers]
  by_cases h : th' = th
  · rw [hpc, h, Function.update_self, hhand] at hp
    cases hp
  · rwa [hpc, Function.update_of_ne h] at hp

theorem JobInv.pool_step (hj : JobInv s l) (hi : Inv s l) {th : Tid} {u : PoolState Tid}
    (hu : poolStep s.toPoolState th = some u) :
    ∃ l', Inv { s with toPoolState := u } l' ∧ JobInv { s with toPoolState := u } l' := by
  obtain ⟨l', hpool, hmove, hframe⟩ := poolStep_inv hu hi.pool (hi.pool_nodup th)
  obtain ⟨l'', hi'⟩ := hi.pool_step hu
  obtain rfl := hpool.chain.unique hi'.pool.chain
  have hjob : ∀ q, (u.heap q).job? = (s.heap q).job? := fun q => (hframe.same q).job?
  have hmoved : ∀ p, (p ∈ l' ∨ p ∈ (u.pc th).hand) → p ∈ l ∨ p ∈ (s.pc th).hand := by
    intro p hp
    cases hmove with
    | stay heq => exact heq ▸ hp
    | push q hold hnew =>
      rw [hnew] at hp
      rw [hold]
      simpa [or_comm] using hp
    | pop q l'' hl hold hnew =>
      rw [hnew] at hp
      rw [hl, hold]
      simpa [or_comm] using hp
  have hnone : ∀ p, p ∈ l ∨ p ∈ (s.pc th).hand → (s.heap p).job? = none := fun p hp =>
    hp.elim (hj.pool p) (hj.call th p)
  refine ⟨l', hi', fun p hp => ?_, fun th' p hp => ?_, fun i p hp => ?_, fun i p hp hne => ?_⟩
  · exact (hjob p).trans (hnone p (hmoved p (.inl hp)))
  · by_cases h : th' = th
    · subst h
      exact (hjob p).trans (hnone p (hmoved p (.inr hp)))
    · have hp' : p ∈ (s.pc th').hand := hframe.pc th' h ▸ hp
      exact (hjob p).trans (hj.call th' p hp')
  · exact (hjob p).trans (hj.ran i p hp)
  · change (u.heap p).mark = true
    rw [hframe.mark]
    refine hj.ready i p hp ?_
    rwa [← hjob p]

/-- A popped task is set up and leaves the call. -/
theorem JobInv.setup (hj : JobInv s l) (hi : Inv s l) {th : Tid} {p : TaskPtr}
    {callback : Callback} {data : Data} {version : Vers}
    (hdone : s.pc th = .done (.task (some p)))
    (hheap : t.heap = (s.setup p callback data version).heap)
    (hpc : t.pc = Function.update s.pc th .idle) (hworkers : t.workers = s.workers) :
    JobInv t l := by
  have hp : p ∈ s.hand th := hand_of_pc (by rw [hdone]; exact List.mem_singleton.mpr rfl)
  have hkeep : ∀ q, q ≠ p → t.heap q = s.heap q := fun q hq => by
    rw [hheap, s.setup_heap_ne hq]
  have hother : ∀ x, x ≠ .hand th → ∀ q ∈ s.contents l x, q ≠ p := by
    rintro x hx q hq rfl
    exact hi.not_mem (x := .hand th) hp hx hq
  refine ⟨fun q hq => ?_, fun th' q hq => ?_, fun i q hq => ?_, fun i q hq => ?_⟩
  · rw [hkeep q (hother .pool (by simp) q hq)]
    exact hj.pool q hq
  · by_cases h : th' = th
    · rw [hpc, h, Function.update_self] at hq
      cases hq
    · rw [hpc, Function.update_of_ne h] at hq
      rw [hkeep q (hother (.hand th') (by simpa using h) q (hand_of_pc hq))]
      exact hj.call th' q hq
  · rw [hworkers] at hq
    have hqp : q ≠ p := by
      rintro rfl
      rcases hq with hq | hq
      · obtain ⟨r, hr⟩ := hi.workers i
        exact hother (.table i) (by simp) q (hr.running q hq).1 rfl
      · by_cases h : th = .worker i
        · subst h
          have hnd := hi.nodup (.hand (.worker i))
          have hcall : q ∈ (s.pc (.worker i)).hand := by
            rw [hdone]
            exact List.mem_singleton.mpr rfl
          refine List.disjoint_of_nodup_append hnd hcall (List.mem_append_right _ ?_)
          simp [State.workerHand, hq, WorkerPc.hand]
        · exact hother (.hand (.worker i)) (by simpa using Ne.symm h) q (hand_of_removed hq) rfl
    rw [hkeep q hqp]
    exact hj.ran i q hq
  · rw [hworkers] at hq
    rw [hkeep q (hother (.table i) (by simp) q hq)]
    exact hj.ready i q hq

theorem JobInv.turn (hj : JobInv s l) (hi : Inv s l) {i : ℕ} {act : WorkerAct} {v : View P}
    (hv : workerStep cfg (s.view i) act = some v) : JobTurn (s.view i) v := by
  obtain ⟨r, hr⟩ := hi.workers i
  exact (workerStep_effect hv).jobs hr (hi.hand_view i) (fun p hp => hj.ran i p (.inl hp))
    (hj.ready i)

theorem JobInv.worker (hj : JobInv s l) (hi : Inv s l) {i : ℕ} {act : WorkerAct} {v : View P}
    (hidle : s.pc (.worker i) = .idle) (hv : workerStep cfg (s.view i) act = some v) :
    JobInv (s.setView i v) l := by
  have hturn := hj.turn hi hv
  have hframe := (hi.worker_step hv).2
  have hkeep : ∀ x, x ≠ .table i → x ≠ .hand (.worker i) → ∀ q ∈ s.contents l x,
      v.heap q = s.heap q := fun x hx hx' q hq => hi.view_frame hframe hx hx' hq
  have hworker : ∀ j, (s.setView i v).workers j = if j = i then v.worker else s.workers j :=
    fun j => Function.update_apply ..
  refine ⟨fun q hq => ?_, fun th q hq => ?_, fun j q hq => ?_, fun j q hq hne => ?_⟩
  · change (v.heap q).job? = none
    rw [hkeep .pool (by simp) (by simp) q hq]
    exact hj.pool q hq
  · change (v.heap q).job? = none
    have hth : th ≠ .worker i := by
      rintro rfl
      rw [show (s.setView i v).pc (.worker i) = .idle from hidle] at hq
      cases hq
    rw [hkeep (.hand th) (by simp) (by simpa using hth) q (hand_of_pc hq)]
    exact hj.call th q hq
  · change (v.heap q).job? = none
    rw [hworker] at hq
    split_ifs at hq with h
    · exact hturn.ran q hq
    · have hsame : v.heap q = s.heap q := by
        rcases hq with hq | hq
        · obtain ⟨r, hr⟩ := hi.workers j
          exact hkeep (.table j) (by simpa using h) (by simp) q (hr.running q hq).1
        · exact hkeep (.hand (.worker j)) (by simp) (by simpa using h) q (hand_of_removed hq)
      rw [hsame]
      exact hj.ran j q hq
  · change (v.heap q).mark = true
    change (v.heap q).job? ≠ none at hne
    rw [hworker] at hq
    split_ifs at hq with h
    · exact hturn.ready q hq hne
    · rw [hkeep (.table j) (by simpa using h) (by simp) q hq] at hne ⊢
      exact hj.ready j q hq hne

theorem JobInv.release (hj : JobInv s l) {i : ℕ} (hst : ReleaseTurn cfg s i t) : JobInv t l := by
  have hset : ∀ (pc : WorkerPc) (pc' : PoolPc), (∀ p, ¬ (pc = .running p ∨ pc = .removed p)) →
      (∀ p ∈ pc'.hand, (s.workers i).pc = .removed p) →
      JobInv (State.setPc { s with
        workers := Function.update s.workers i { s.workers i with pc := pc } }
          (.worker i) pc') l := by
    intro pc pc' hne hhand
    refine hj.still rfl (fun th p hp => ?_) (fun j p hp => ?_) fun j => ?_
    · by_cases h : th = .worker i
      · subst h
        rw [State.setPc_same] at hp
        exact .inr ⟨i, hhand p hp⟩
      · rw [State.setPc_ne _ _ h] at hp
        exact .inl hp
    · change (Function.update s.workers i _ j).pc = _ ∨
        (Function.update s.workers i _ j).pc = _ at hp
      rw [Function.update_apply] at hp
      split_ifs at hp with h
      · exact absurd hp (hne p)
      · exact hp
    · change (Function.update s.workers i _ j).table = _
      rw [Function.update_apply]
      split_ifs with h
      · rw [h]
      · rfl
  cases hst with
  | push p hi hpc =>
    refine hset .pushing (.call (.push p)) (by simp) fun q hq => ?_
    rw [List.mem_singleton.mp hq, hpc]
  | pushed => exact hset .dispatch .idle (by simp) fun q hq => by cases hq

theorem serverStep_jobInv (hst : serverStep cfg s a = some t) (hi : Inv s l) (hj : JobInv s l) :
    ∃ l', Inv t l' ∧ JobInv t l' := by
  rcases (serverStep_effect hst).inv hi with ht | ⟨th, u, hu, rfl⟩
  · have hmoves : ∀ {u : State P} {th : Tid} {pc : PoolPc}, u.heap = s.heap →
        u.pc = Function.update s.pc th pc → pc.hand = [] → u.workers = s.workers → JobInv u l :=
      fun hheap hpc hhand hworkers => hj.moves hheap hpc hhand hworkers
    have hstays : ∀ {u : State P}, u.heap = s.heap → u.pc = s.pc → u.workers = s.workers →
        JobInv u l := fun hheap hpc hworkers =>
      hj.still hheap (fun th p hp => .inl (hpc ▸ hp)) (fun i p hp => by rwa [hworkers] at hp)
        fun i => by rw [hworkers]
    cases serverStep_turn hst with
    | pool th u hu => exact hj.pool_step hi hu
    | spawn th callback data => exact ⟨l, ht, hmoves rfl rfl rfl rfl⟩
    | spawnStep th version _ hturn =>
      refine ⟨l, ht, ?_⟩
      cases hturn with
      | limit => exact hmoves rfl rfl rfl rfl
      | setup callback data p _ hdone => exact hj.setup hi hdone rfl rfl rfl
      | send | full | wantw => exact hstays rfl rfl rfl
    | accept result _ hturn =>
      refine ⟨l, ht, ?_⟩
      cases hturn with
      | nothing => exact hstays rfl rfl rfl
      | accepted | aborted | fails => exact hmoves rfl rfl rfl rfl
    | acceptStep version _ hturn =>
      refine ⟨l, ht, ?_⟩
      cases hturn with
      | setup _ fd p _ hdone => exact hj.setup hi hdone rfl rfl rfl
      | tries | again | wakes | tells | ends => exact hstays rfl rfl rfl
      | goes | stops | empty | nonempty | send | full | waits => exact hmoves rfl rfl rfl rfl
    | worker i act v _ _ hidle hv => exact ⟨l, ht, hj.worker hi hidle hv⟩
    | release i _ hturn => exact ⟨l, ht, hj.release hturn⟩
    | wakeup | stop => exact ⟨l, ht, hstays rfl rfl rfl⟩
  · exact hj.pool_step hi hu

/-- The task that is set up stands for the job that it was given. -/
theorem JobInv.gives (hj : JobInv s l) (hi : Inv s l) {th : Tid} {p : TaskPtr}
    {callback : Callback} {data : Data} {version : Vers}
    (hdone : s.pc th = .done (.task (some p))) :
    JobStep s.capacity s.heap (s.setup p callback data version).heap
      [⟨s.spawned + 1, some callback, data⟩] [] := by
  have hp : p ∈ (s.pc th).hand := by
    rw [hdone]
    exact List.mem_singleton.mpr rfl
  refine .gives p _ (hi.owned (.hand th) p (hand_of_pc hp)) (hj.call th p hp) ?_
    fun q hq => by rw [s.setup_heap_ne hq]
  simp only [State.setup, Heap.modify_same]
  rfl

/-- The log against the jobs that the tasks stand for. -/
theorem serverStep_jobs (hst : serverStep cfg s a = some t) (hi : Inv s l) (hj : JobInv s l)
    (log : JobLog) : ∃ given started, JobStep s.capacity s.heap t.heap given started ∧
      log.note s a t = ⟨log.given ++ given, log.started ++ started⟩ ∧
      given.map Job.serial = List.range' (s.spawned + 1) given.length ∧
      t.spawned = s.spawned + given.length := by
  have hkeeps : ∀ {u : State P} {b : Action}, u.heap = s.heap → u.spawned = s.spawned →
      log.note s b u = log → ∃ given started, JobStep s.capacity s.heap u.heap given started ∧
        log.note s b u = ⟨log.given ++ given, log.started ++ started⟩ ∧
        given.map Job.serial = List.range' (s.spawned + 1) given.length ∧
        u.spawned = s.spawned + given.length := by
    intro u b hheap hspawned hnote
    refine ⟨[], [], .keeps fun p => by rw [hheap], ?_, rfl, hspawned⟩
    rw [hnote, List.append_nil, List.append_nil]
  cases serverStep_turn hst with
  | pool th u hu =>
    refine ⟨[], [], .keeps fun p => ((hi.pool_frame hu).same p).job?, ?_, rfl, rfl⟩
    rw [List.append_nil, List.append_nil]
    rfl
  | spawnStep th version _ hturn =>
    cases hturn with
    | setup callback data p hspawn hdone =>
      refine ⟨_, [], hj.gives hi hdone, ?_, rfl, rfl⟩
      simp only [JobLog.note, hspawn, State.setSpawn_same, List.append_nil]
    | limit callback data hspawn =>
      refine hkeeps rfl rfl ?_
      simp only [JobLog.note, hspawn, State.setSpawn_same]
    | send p x hspawn | full p x hspawn | wantw p x hspawn =>
      exact hkeeps rfl rfl (by simp only [JobLog.note, hspawn])
  | acceptStep version _ hturn =>
    cases hturn with
    | setup _ fd p haccept hdone =>
      refine ⟨_, [], hj.gives hi hdone, ?_, rfl, rfl⟩
      simp only [JobLog.note, haccept, List.append_nil]
    | waits _ haccept =>
      exact hkeeps rfl rfl (by simp only [JobLog.note, haccept])
    | goes _ haccept | stops _ haccept | empty _ haccept | nonempty _ haccept
    | send _ _ _ _ haccept | tries _ _ _ haccept | again _ _ _ haccept | wakes _ haccept
    | full _ haccept | tells _ _ haccept | ends _ _ haccept =>
      exact hkeeps rfl rfl (by simp only [JobLog.note, haccept])
  | worker i act v _ _ _ hv =>
    have hview : (s.setView i v).view i = v := s.view_setView i v
    have hnote : log.note s (.worker i act) (s.setView i v) =
        ⟨log.given ++ [], log.started ++ (s.view i).started v⟩ := by
      rw [JobLog.note, hview, List.append_nil]
    rw [hnote]
    rcases (hj.turn hi hv).jobs with ⟨hkeep, hnone⟩ | ⟨p, hp, job, hold, hnew, hothers, hstarted⟩
    · exact ⟨[], [], .keeps hkeep, by rw [hnone], rfl, rfl⟩
    · exact ⟨[], [job], .starts p job (hi.owned (.table i) p hp) hold hnew hothers,
        by rw [hstarted], rfl, rfl⟩
  | accept result _ hturn => cases hturn <;> exact hkeeps rfl rfl rfl
  | release i _ hturn => cases hturn <;> exact hkeeps rfl rfl rfl
  | spawn | wakeup | stop => exact hkeeps rfl rfl rfl

/-- A step keeps each job given, started or waiting, in one place. -/
theorem JobStep.perm {capacity : ℕ} {heap heap' : Heap} {given started : List Job}
    (h : JobStep capacity heap heap' given started) :
    (given ++ (List.range capacity).filterMap fun p => (heap p).job?).Perm
      (started ++ (List.range capacity).filterMap fun p => (heap' p).job?) := by
  have hnd : (List.range capacity).Nodup := List.nodup_range
  cases h with
  | keeps hkeep =>
    refine .of_eq ?_
    simp only [hkeep]
  | gives p job hp hold hnew hothers =>
    exact (filterMap_gain hnd (List.mem_range.mpr hp) hold hnew hothers).symm
  | starts p job hp hold hnew hothers =>
    exact filterMap_gain hnd (List.mem_range.mpr hp) hnew hold fun q hq => (hothers q hq).symm

end Step

/-! ### The runs of the server -/

/-- The log of the jobs against the server. -/
structure JobLogInv (s : State P) (log : JobLog) : Prop where
  jobs : ∃ l, Inv s l ∧ JobInv s l
  numbered : log.given.map Job.serial = List.range' 1 s.spawned
  once : log.given.Perm (log.started ++ s.jobs)

theorem serverCreate_jobInv {heap : Heap} (hheap : FreshHeap heap) (cfg : Config) :
    JobLogInv (serverCreate P cfg heap) ⟨[], []⟩ := by
  obtain ⟨c, hc, -, -, -, -, hpc, hlinks⟩ :=
    poolFill_spec (T := Tid) heap (cfg.workerTasks * cfg.workers) (cfg.workerTasks * cfg.workers)
  have hcreate : poolCreate heap (cfg.workerTasks * cfg.workers) = c := hc
  have hnone : ∀ p, ((serverCreate P cfg heap).heap p).job? = none := by
    intro p
    simp only [serverCreate, hcreate]
    obtain ⟨next, hp⟩ := hlinks p
    obtain ⟨version, hv⟩ := hheap p
    rw [hp, hv]
    rfl
  refine ⟨⟨_, serverCreate_inv hheap cfg, fun p _ => hnone p, fun _ p _ => hnone p,
    fun _ p _ => hnone p, fun _ p _ hne => absurd (hnone p) hne⟩, rfl, ?_⟩
  rw [State.jobs, List.filterMap_eq_nil_iff.mpr fun p _ => hnone p]
  exact .refl _

theorem JobLogInv.step {cfg : Config} {s t : State P} {a : Action} {log : JobLog}
    (h : JobLogInv s log) (hst : serverStep cfg s a = some t) :
    JobLogInv t (log.note s a t) := by
  obtain ⟨l, hi, hj⟩ := h.jobs
  obtain ⟨given, started, hjobs, hnote, hserials, hspawned⟩ := serverStep_jobs hst hi hj log
  rw [hnote]
  refine ⟨serverStep_jobInv hst hi hj, ?_, ?_⟩
  · rw [List.map_append, h.numbered, hserials, hspawned, Nat.add_comm s.spawned 1]
    exact List.range'_append_1
  · have hperm := hjobs.perm
    rw [State.jobs, serverStep_capacity hst hi]
    calc (log.given ++ given).Perm ((log.started ++ s.jobs) ++ given) := h.once.append_right _
      _ = log.started ++ (s.jobs ++ given) := List.append_assoc ..
      List.Perm _ (log.started ++ (given ++ s.jobs)) := List.perm_append_comm.append_left _
      List.Perm _ (log.started ++ (started ++ _)) := hperm.append_left _
      _ = log.started ++ started ++ _ := (List.append_assoc ..).symm

theorem jobLogInv_of_reach {cfg : Config} {ok : State P × JobLog → Action → Prop}
    {s : State P × JobLog} (h : (jobSystem P cfg).Reach ok s) : JobLogInv s.1 s.2 := by
  refine h.invariant (P := fun s => JobLogInv s.1 s.2) ?_ ?_
  · rintro ⟨s, log⟩ ⟨⟨heap, hheap, rfl⟩, rfl⟩
    exact serverCreate_jobInv hheap cfg
  · rintro ⟨s, log⟩ a ⟨t, log'⟩ - hs - hst
    obtain ⟨t, ht, heq⟩ := Option.map_eq_some_iff.mp hst
    obtain ⟨rfl, rfl⟩ := Prod.mk.inj heq
    exact hs.step ht

theorem JobInv.waiting {s : State P} {l : List TaskPtr} (hj : JobInv s l) (hi : Inv s l)
    {p : TaskPtr} (hp : p < s.capacity) (hmode : (s.heap p).mode = .spawned)
    (hkept : p ∉ s.lost) : Waiting s p := by
  have hjob : (s.heap p).job? ≠ none := fun h => Task.job?_eq_none.mp h hmode
  obtain ⟨x, hx⟩ := hi.placed p hp
  have hmem : p ∈ s.contents l x := (hx.mem_iff x).mpr rfl
  cases x with
  | pool => exact absurd (hj.pool p hmem) hjob
  | hand th =>
    rcases List.mem_append.mp hmem with hcall | hmem
    · exact absurd (hj.call th p hcall) hjob
    rcases List.mem_append.mp hmem with hout | hown
    · exact .outbound th hout
    cases th with
    | acceptor => cases hown
    | ext n => cases hown
    | worker i =>
      change p ∈ (s.workers i).pc.hand at hown
      cases hpc : (s.workers i).pc <;> rw [hpc] at hown
      case admitted q =>
        obtain rfl := List.mem_singleton.mp hown
        exact .admitted i hpc
      case removed q =>
        obtain rfl := List.mem_singleton.mp hown
        exact absurd (hj.ran i p (.inr hpc)) hjob
      all_goals cases hown
  | pipe i => exact .incoming i hmem
  | table i =>
    obtain ⟨r, hr⟩ := hi.workers i
    exact .ready i r hr.ready.chain (hr.marked p hmem (hj.ready i p hmem hjob))
  | lost => exact absurd hmem hkept

/-- In every run the jobs are numbered in the order in which they are given, and
each of them has either been started, once, with the callback and the data that
it was given, or one task that is still to be started stands for it, or the call of
`law_spawn` that gave it has failed. Where no call fails, none is dropped. -/
theorem started_once (P : Platform) (cfg : Config) {ok : State P × JobLog → Action → Prop}
    {s : State P × JobLog} (h : (jobSystem P cfg).Reach ok s) :
    JobsOnce s.1 s.2 ∧ ((∀ s a, ok s a → ¬ SpawnFails cfg s.1 a) → s.1.dropped = []) := by
  have hinv := jobLogInv_of_reach h
  obtain ⟨l, hi, hj⟩ := hinv.jobs
  refine ⟨⟨hinv.numbered, hinv.once.trans (s.1.jobs_perm.append_left _),
    fun p hp hmode hkept => hj.waiting hi hp hmode hkept⟩, fun hok => ?_⟩
  have hlost : s.1.lost = [] := by
    refine h.invariant (P := fun s => s.1.lost = []) ?_ ?_
    · rintro ⟨s, log⟩ ⟨⟨heap, -, rfl⟩, -⟩
      rfl
    · rintro ⟨s, log⟩ a ⟨t, log'⟩ - ih ha hst
      obtain ⟨t, ht, heq⟩ := Option.map_eq_some_iff.mp hst
      obtain ⟨rfl, -⟩ := Prod.mk.inj heq
      exact (serverStep_lost ht (hok _ _ ha)).trans ih
  simp [State.dropped, hlost]

/-- The task of a connection is started and spawns another, which lies in a pipe. -/
theorem started_once_spawned : ∃ s : State Platform.lists × JobLog,
    s.2.started = [⟨1, some .accept, 5⟩] ∧
      s.2.given = [⟨1, some .accept, 5⟩, ⟨2, some (.user 0), 7⟩] ∧ JobsOnce s.1 s.2 ∧
      s.1.dropped = [] := by
  have hrun : ((jobSystem Platform.lists twoWorkers).checkedRun
      (fun s a => ¬ SpawnFails twoWorkers s.1 a) (serverCreate _ twoWorkers zeroHeap, ⟨[], []⟩)
      (.acceptStep 0 :: acceptOne ++ tickOne 1 ++ .spawn (.worker 1) (.user 0) 7 ::
        List.replicate 4 (.pool (.worker 1)) ++ List.replicate 2 (.spawnStep (.worker 1) 0))).map
      (fun s => (s.2.started, s.2.given)) =
      some ([⟨1, some .accept, 5⟩], [⟨1, some .accept, 5⟩, ⟨2, some (.user 0), 7⟩]) := by decide
  obtain ⟨s, hs, heq⟩ := Option.map_eq_some_iff.mp hrun
  obtain ⟨hstarted, hgiven⟩ := Prod.mk.inj heq
  obtain ⟨honce, hdropped⟩ := started_once Platform.lists twoWorkers
    (System.Reach.checkedRun (.init ⟨⟨zeroHeap, zeroHeap_fresh, rfl⟩, rfl⟩) _ hs)
  exact ⟨s, hstarted, hgiven, honce, hdropped fun _ _ h => h⟩

theorem State.AllPooled.jobs {s : State P} (h : s.AllPooled)
    (hj : ∀ l, Inv s l → ∀ p ∈ l, (s.heap p).job? = none) : s.jobs = [] := by
  obtain ⟨l, hi, hlen⟩ := h
  refine List.filterMap_eq_nil_iff.mpr fun p hp => hj l hi p ?_
  obtain ⟨x, hx⟩ := hi.placed p (List.mem_range.mp hp)
  have hmem : p ∈ s.contents l x := (hx.mem_iff x).mpr rfl
  by_cases hpool : x = .pool
  · subst hpool
    exact hmem
  · rw [hi.empty_of_full hlen hpool] at hmem
    cases hmem

/-- In every run in which only running tasks spawn, once the acceptor has left
its loop and has found the pool full, every job that was ever given has been
started, and none of them twice. -/
theorem shutdown_started_all (P : Platform) (cfg : Config) {s : State P × JobLog}
    (h : (jobSystem P cfg).Reach (fun _ a => ¬ SpawnsOutside a) s) (hfull : s.1.FoundFull) :
    s.2.given.Perm s.2.started ∧ (s.2.started.map Job.serial).Nodup := by
  have hinv := jobLogInv_of_reach h
  have hall := (drain_of_reach (System.Reach.of_record h)).full hfull
  obtain ⟨l, hi, hj⟩ := hinv.jobs
  have hjobs : s.1.jobs = [] := hall.jobs fun l' hi' p hp =>
    hj.pool p (hi'.pool.chain.unique hi.pool.chain ▸ hp)
  have hperm : s.2.given.Perm s.2.started := by
    have honce := hinv.once
    rwa [hjobs, List.append_nil] at honce
  refine ⟨hperm, (hperm.map Job.serial).nodup_iff.mp ?_⟩
  rw [hinv.numbered]
  exact List.nodup_range'

/-- After one connection the server is stopped, and its job has been started. -/
theorem shutdown_started_all_accepted : ∃ s : State Platform.lists × JobLog,
    s.2.started = [⟨1, some .accept, 5⟩] ∧
      s.2.given.Perm s.2.started ∧ (s.2.started.map Job.serial).Nodup := by
  have hrun : ((jobSystem Platform.lists twoWorkers).checkedRun (fun _ a => ¬ SpawnsOutside a)
      (serverCreate _ twoWorkers zeroHeap, ⟨[], []⟩)
      (.acceptStep 0 :: acceptOne ++ tickOne 1 ++ [.worker 1 (.task (.ret 0))] ++ finishOne 1 ++
        stopAll)).map (fun s => (s.1.acceptPc, s.2.started)) =
      some (.shutdown 2, [⟨1, some .accept, 5⟩]) := by decide
  obtain ⟨s, hs, heq⟩ := Option.map_eq_some_iff.mp hrun
  obtain ⟨haccept, hstarted⟩ := Prod.mk.inj heq
  have hfull : s.1.FoundFull := by
    rw [State.FoundFull, haccept]
    trivial
  exact ⟨s, hstarted, shutdown_started_all Platform.lists twoWorkers
    (System.Reach.checkedRun (.init ⟨⟨zeroHeap, zeroHeap_fresh, rfl⟩, rfl⟩) _ hs) hfull⟩

end Lawd

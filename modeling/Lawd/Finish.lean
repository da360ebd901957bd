import Lawd.Push
import Lawd.Threads

/-!
# Finished tasks

A yield and the return of a callback reach the dispatcher through one value. As
long as no callback returns the value of a yield, the tasks of a table are about
to start, running or yielded, and a task whose callback has returned is in no
table: its worker holds it, and next pushes it to the pool.
-/
namespace Lawd

open Library

variable {P : Platform}

/-- The mode of a task agrees with its coroutine. -/
inductive Task.Consistent (task : Task) : Prop
  | starts : task.mode = .spawned → task.callee = .ended → task.Consistent
  | runs : task.mode = .running → task.callee = .running → task.Consistent
  | waits : task.mode = .suspended → task.callee = .yielded → task.Consistent

/-- The callback of the task has returned, and the task has not been set up again. -/
def Task.Finished (task : Task) : Prop :=
  task.callee = .ended ∧ task.mode ≠ .created ∧ task.mode ≠ .spawned

/-- Tasks of a table are consistent, and outside of the tables no coroutine is live. -/
structure FinishInv (s : State P) : Prop where
  tasks : ∀ i, ∀ p ∈ (s.workers i).tasks, (s.heap p).Consistent
  rest : ∀ p, (∀ i, p ∉ (s.workers i).tasks) → (s.heap p).callee = .ended

theorem Task.Consistent.same {t u : Task} (h : t.Consistent) (hmode : u.mode = t.mode)
    (hcallee : u.callee = t.callee) : u.Consistent := by
  cases h with
  | starts hm hc => exact .starts (hmode.trans hm) (hcallee.trans hc)
  | runs hm hc => exact .runs (hmode.trans hm) (hcallee.trans hc)
  | waits hm hc => exact .waits (hmode.trans hm) (hcallee.trans hc)

theorem Task.Relinked.consistent {t u : Task} (h : t.Relinked u) (ht : t.Consistent) :
    u.Consistent := ht.same h.same.mode h.same.callee

theorem consistent_run {task : Task} (h : task.Consistent) {f : Task → Task}
    (hf : task.mode = .spawned ∧ f = startTask ∨ task.mode = .suspended ∧ f = resumeTask) :
    (f task).Consistent := by
  rcases hf with ⟨-, rfl⟩ | ⟨hmode, rfl⟩
  · exact .runs rfl rfl
  · cases h with
    | starts hm hc => cases hm.symm.trans hmode
    | runs hm hc => cases hm.symm.trans hmode
    | waits hm hc =>
      unfold resumeTask
      rw [if_pos hc]
      exact .runs rfl rfl

section Step

variable {cfg : Config} {s t : State P} {a : Action}

/-- Each effect of a worker but the mistaken suspension keeps the tasks of its
table consistent. -/
theorem WorkerEffect.consistent {v v' : View P} {a : WorkerAct}
    (h : WorkerEffect cfg v a v') (ha : a ≠ .task (.ret modeSuspended))
    (hnd : v.worker.tasks.Nodup)
    (hadm : ∀ p, v.worker.pc = .admitted p → (v.heap p).Consistent)
    (hc : ∀ p ∈ v.worker.tasks, (v.heap p).Consistent) :
    ∀ p ∈ v'.worker.tasks, (v'.heap p).Consistent := by
  cases h with
  | control w messages hpc hpc' hk hb =>
    intro p hp
    rw [show Worker.tasks _ = _ from Worker.tasks_congr hk.table] at hp
    exact hc p hp
  | stale e timer hpc hpop hst => exact hc
  | expired e timer q ev hpc hpop hlook hver =>
    exact fun p hp => (hc p hp).same (Heap.pushed_same ..).mode (Heap.pushed_same ..).callee
  | woken w messages id q ev hpc hpc' hk hb hlook =>
    intro p hp
    have hp' : p ∈ v.worker.tasks := Worker.tasks_congr hk.table ▸ hp
    exact (hc p hp').same (Heap.pushed_same ..).mode (Heap.pushed_same ..).callee
  | take q incoming hpc hsize hcons => exact hc
  | insert q table hpc hins =>
    intro p hp
    have hperm : (Worker.tasks { v.worker with table := table }).Perm (q :: v.worker.tasks) :=
      Worker.tasks_insert hins
    refine (readySetPush_relinked v.heap v.worker.ready q p).consistent ?_
    rcases List.mem_cons.mp (hperm.subset hp) with rfl | hmem
    · exact hadm p hpc
    · exact hc p hmem
  | tickDone pc heap ready hpc hpop hpc' => exact hc
  | run q heap ready f hpc hpop hf =>
    intro p hp
    change (heap.modify q f p).Consistent
    have hp' := (readySetPop_relinked hpop p).consistent (hc p hp)
    rw [Heap.modify_apply]
    split_ifs with hpq
    · subst hpq
      exact consistent_run hp' hf
    · exact hp'
  | ectl q fd op flags events data fails interest hr hact ha' hint => exact hc
  | close q interest hr hint => exact hc
  | unchanged q hr => exact hc
  | ewait q now millis events maxEvents hr ha' =>
    intro p hp
    change (v.heap.modify q _ p).Consistent
    rw [Heap.modify_apply]
    split_ifs with hpq
    · exact .waits rfl rfl
    · exact hc p hp
  | enter q hr he ha' => exact hc
  | leave q e hr he hq => exact hc
  | finish q table hr he hrem =>
    intro p hp
    have hperm := Worker.tasks_remove { v.worker with table := table } hrem
    have hpq : p ≠ q := by
      rintro rfl
      exact (List.nodup_cons.mp (hperm.nodup_iff.mp hnd)).1 hp
    dsimp only
    rw [Heap.modify_ne _ _ hpq]
    exact hc p (hperm.symm.subset (List.mem_cons_of_mem _ hp))
  | mistaken q hr ha' => exact absurd ha' ha

theorem WorkerInv.popped {heap heap' : Heap} {w : Worker P} {r : List TaskPtr}
    (hi : WorkerInv heap w r) {ready : Option TaskPtr} {p : TaskPtr}
    (hpop : readySetPop heap w.ready = (heap', ready, some p)) : p ∈ w.tasks := by
  obtain ⟨rest, rfl, -⟩ := readySetPop_some hi.ready hpop
  exact hi.listed p List.mem_cons_self

/-- A worker's step leaves only ended coroutines outside its table. -/
theorem WorkerEffect.callee {v v' : View P} {a : WorkerAct} {r : List TaskPtr}
    (h : WorkerEffect cfg v a v') (hi : WorkerInv v.heap v.worker r) {p : TaskPtr}
    (hp : p ∉ v'.worker.tasks) :
    (v'.heap p).callee = .ended ∨
      p ∉ v.worker.tasks ∧ (v'.heap p).callee = (v.heap p).callee := by
  have hne : ∀ {q : TaskPtr}, v.Runs q → p ∉ v.worker.tasks → p ≠ q := by
    rintro q hr hp rfl
    exact hp (hi.running p hr.1).1
  cases h with
  | control w messages hpc hpc' hk hb =>
    rw [show Worker.tasks _ = _ from Worker.tasks_congr hk.table] at hp
    exact .inr ⟨hp, rfl⟩
  | stale e timer hpc hpop hst => exact .inr ⟨hp, rfl⟩
  | expired e timer q ev hpc hpop hlook hver => exact .inr ⟨hp, (Heap.pushed_same ..).callee⟩
  | woken w messages id q ev hpc hpc' hk hb hlook =>
    have hp' : p ∉ v.worker.tasks := Worker.tasks_congr hk.table ▸ hp
    exact .inr ⟨hp', (Heap.pushed_same ..).callee⟩
  | take q incoming hpc hsize hcons => exact .inr ⟨hp, rfl⟩
  | insert q table hpc hins =>
    have hperm : (Worker.tasks { v.worker with table := table }).Perm (q :: v.worker.tasks) :=
      Worker.tasks_insert hins
    refine .inr ⟨fun h => hp (hperm.symm.subset (List.mem_cons_of_mem _ h)), ?_⟩
    exact (readySetPush_relinked v.heap v.worker.ready q p).same.callee
  | tickDone pc heap ready hpc hpop hpc' => exact .inr ⟨hp, rfl⟩
  | run q heap ready f hpc hpop hf =>
    have hq := hi.popped hpop
    have hpq : p ≠ q := by
      rintro rfl
      exact hp hq
    refine .inr ⟨hp, ?_⟩
    dsimp only
    rw [Heap.modify_ne _ _ hpq]
    exact (readySetPop_relinked hpop p).same.callee
  | ectl q fd op flags events data fails interest hr hact ha' hint => exact .inr ⟨hp, rfl⟩
  | close q interest hr hint => exact .inr ⟨hp, rfl⟩
  | unchanged q hr => exact .inr ⟨hp, rfl⟩
  | ewait q now millis events maxEvents hr ha' =>
    refine .inr ⟨hp, ?_⟩
    dsimp only
    rw [Heap.modify_ne _ _ (hne hr hp)]
  | enter q hr he ha' => exact .inr ⟨hp, rfl⟩
  | leave q e hr he hq => exact .inr ⟨hp, rfl⟩
  | finish q table hr he hrem =>
    have hperm := Worker.tasks_remove { v.worker with table := table } hrem
    dsimp only
    by_cases hpq : p = q
    · subst hpq
      rw [Heap.modify_same]
      exact .inl rfl
    · rw [Heap.modify_ne _ _ hpq]
      refine .inr ⟨fun h => ?_, rfl⟩
      exact hp ((List.mem_cons.mp (hperm.subset h)).resolve_left hpq)
  | mistaken q hr ha' =>
    refine .inr ⟨hp, ?_⟩
    dsimp only
    rw [Heap.modify_ne _ _ (hne hr hp)]

theorem Inv.admitted_not_mem {l : List TaskPtr} (hi : Inv s l) {i : ℕ} {p : TaskPtr}
    (hpc : (s.workers i).pc = .admitted p) (j : ℕ) : p ∉ (s.workers j).tasks := by
  refine hi.not_mem (x := .hand (.worker i)) (y := .table j) ?_ (by simp)
  refine List.mem_append_right _ (List.mem_append_right _ ?_)
  simp [State.workerHand, hpc, WorkerPc.hand]

theorem serverStep_callee (hst : serverStep cfg s a = some t) {l : List TaskPtr} (hi : Inv s l)
    (hrest : ∀ p, (∀ i, p ∉ (s.workers i).tasks) → (s.heap p).callee = .ended) (p : TaskPtr)
    (hp : ∀ i, p ∉ (t.workers i).tasks) : (t.heap p).callee = .ended := by
  have hcontrol : ∀ {u : State P}, Control u t → u.heap = s.heap → u.workers = s.workers →
      (t.heap p).callee = .ended := by
    intro u hc hheap hworkers
    rw [hc.heap, hheap]
    refine hrest p fun i => ?_
    rw [← hworkers, ← hc.tasks i]
    exact hp i
  cases serverStep_effect hst with
  | pool th u hu =>
    have hframe := hi.pool_frame hu
    exact (hframe.same p).callee.trans (hrest p hp)
  | control _ hc => exact hcontrol hc rfl rfl
  | setup th q callback data version _ hq hc =>
    have hp' : ∀ i, p ∉ (s.workers i).tasks := fun i => by
      rw [show (s.workers i).tasks = (t.workers i).tasks from (hc.tasks i).symm]
      exact hp i
    rw [hc.heap]
    by_cases hpq : p = q
    · subst hpq
      simp only [State.setup, Heap.modify_same]
      exact hrest p hp'
    · rw [s.setup_heap_ne hpq]
      exact hrest p hp'
  | send th i q _ hq hc => exact hcontrol hc rfl rfl
  | drop th q _ hfail hc => exact hcontrol hc rfl rfl
  | worker i act v hi' ha' hv =>
    obtain ⟨r, hr⟩ := hi.workers i
    have hself : p ∉ v.worker.tasks := by
      have h := hp i
      change p ∉ (Function.update s.workers i v.worker i).tasks at h
      rwa [Function.update_self] at h
    rcases (workerStep_effect hv).callee hr hself with h | ⟨hold, h⟩
    · exact h
    · refine h.trans (hrest p fun j => ?_)
      by_cases hj : j = i
      · rw [hj]
        exact hold
      · have h := hp j
        change p ∉ (Function.update s.workers i v.worker j).tasks at h
        rwa [Function.update_of_ne hj] at h

/-- Every step but a mistaken suspension keeps the invariant. -/
theorem serverStep_finish (hst : serverStep cfg s a = some t) (ha : ¬ ReturnsSuspended a)
    {l : List TaskPtr} (hi : Inv s l) (hs : SuspensionInv s) (hf : FinishInv s) :
    FinishInv t where
  tasks i := by
    rcases serverStep_frame hst hi i with ⟨act, v, rfl, hv, rfl⟩ | hframe
    · have hact : act ≠ .task (.ret modeSuspended) := by
        rintro rfl
        exact ha rfl
      have hadm : ∀ p, (s.workers i).pc = .admitted p → (s.heap p).Consistent := fun p hp =>
        .starts (hs.admitted i p hp) (hf.rest p fun j => hi.admitted_not_mem hp j)
      have hc := (workerStep_effect hv).consistent hact (hi.nodup (.table i)) hadm (hf.tasks i)
      change ∀ p ∈ (Function.update s.workers i v.worker i).tasks, (v.heap p).Consistent
      rwa [Function.update_self]
    · intro p hp
      have hp' : p ∈ (s.workers i).tasks := by
        rcases hframe.worker with h | ⟨pc, h, -⟩
        · rwa [h] at hp
        · rw [h] at hp
          exact hp
      rw [hframe.heap p hp']
      exact hf.tasks i p hp'
  rest p hp := serverStep_callee hst hi hf.rest p hp

end Step

theorem serverCreate_callee {heap : Heap} (hheap : FreshHeap heap) (cfg : Config) (p : TaskPtr) :
    ((serverCreate P cfg heap).heap p).callee = .ended := by
  obtain ⟨c, hc, -, -, -, -, -, hlinks⟩ := poolFill_spec (T := Tid) heap
    (cfg.workerTasks * cfg.workers) (cfg.workerTasks * cfg.workers)
  obtain ⟨next, hp⟩ := hlinks p
  obtain ⟨version, hv⟩ := hheap p
  simp only [serverCreate, poolCreate, hc, hp, hv]
  rfl

theorem callee_of_reach {cfg : Config} {ok : State P → Action → Prop} {s : State P}
    (h : (serverSystem P cfg).Reach ok s) (p : TaskPtr) (hp : ∀ i, p ∉ (s.workers i).tasks) :
    (s.heap p).callee = .ended := by
  refine h.invariant (P := fun s => ∀ p, (∀ i, p ∉ (s.workers i).tasks) →
    (s.heap p).callee = .ended) (fun s hs p _ => ?_) (fun s a t hr ih _ hst p hp => ?_) p hp
  · obtain ⟨heap, hheap, rfl⟩ := hs
    exact serverCreate_callee hheap cfg p
  · obtain ⟨l, hi⟩ := inv_of_reach hr
    exact serverStep_callee hst hi ih p hp

theorem serverCreate_finish {heap : Heap} (hheap : FreshHeap heap) (cfg : Config) :
    FinishInv (serverCreate P cfg heap) where
  tasks i p hp := by
    change p ∈ (workerCreate P cfg).tasks at hp
    rw [workerCreate_tasks] at hp
    cases hp
  rest p _ := serverCreate_callee hheap cfg p

theorem finish_of_reach {cfg : Config} {s : State P}
    (h : (serverSystem P cfg).Reach (fun _ a => ¬ ReturnsSuspended a) s) : FinishInv s :=
  h.invariant (P := FinishInv)
    (fun _ hs => by
      obtain ⟨heap, hheap, rfl⟩ := hs
      exact serverCreate_finish hheap cfg)
    fun _ _ _ hr hf ha hst => by
      obtain ⟨l, hi⟩ := inv_of_reach hr
      exact serverStep_finish hst ha hi (suspension_of_reach hr) hf

/-- The next step of the worker thread is to push the task to the pool. -/
structure Releases (cfg : Config) (s : State P) (i : ℕ) (p : TaskPtr) : Prop where
  push : ∃ t, serverStep cfg s (.release i) = some t ∧ t.pc (.worker i) = .call (.push p)
  only : ∀ act, serverStep cfg s (.worker i act) = none

/-- What the dispatcher relies on. -/
structure Dispatched (cfg : Config) (s : State P) : Prop where
  /-- A task of a table is marked as suspended just when it has yielded. -/
  suspended : ∀ i, ∀ p ∈ (s.workers i).tasks,
    (s.heap p).mode = .suspended ↔ (s.heap p).callee = .yielded
  /-- A task whose callback has returned is in no table, and no worker resumes it. -/
  removed : ∀ p, (s.heap p).Finished → ∀ i, p ∉ (s.workers i).tasks ∧
    ∀ heap ready, readySetPop s.heap (s.workers i).ready ≠ (heap, ready, some p)
  /-- A resumed task has yielded. -/
  resumed : ∀ i heap ready p, readySetPop s.heap (s.workers i).ready = (heap, ready, some p) →
    (s.heap p).mode = .suspended → (s.heap p).callee = .yielded
  /-- A worker pushes the task it has removed. -/
  released : ∀ i < cfg.workers, ∀ p, (s.workers i).pc = .removed p → Releases cfg s i p

theorem Task.Consistent.suspended_iff {task : Task} (h : task.Consistent) :
    task.mode = .suspended ↔ task.callee = .yielded := by
  cases h with
  | starts hm hc => simp [hm, hc]
  | runs hm hc => simp [hm, hc]
  | waits hm hc => simp [hm, hc]

theorem Task.Consistent.not_finished {task : Task} (h : task.Consistent) : ¬ task.Finished := by
  rintro ⟨hended, -, hspawned⟩
  cases h with
  | starts hm hc => exact hspawned hm
  | runs hm hc => cases hc.symm.trans hended
  | waits hm hc => cases hc.symm.trans hended

theorem releases_of_removed {cfg : Config} {s : State P} {i : ℕ} {p : TaskPtr}
    (hi : i < cfg.workers)
    (hok : s.ThreadOk (.worker i)) (hpc : (s.workers i).pc = .removed p) : Releases cfg s i p := by
  rw [State.ThreadOk, hpc] at hok
  let s' : State P := { s with
    workers := Function.update s.workers i { s.workers i with pc := .pushing } }
  refine ⟨⟨s'.setPc (.worker i) (.call (.push p)), ?_, State.setPc_same _ _ _⟩, fun act => ?_⟩
  · simp only [serverStep, releaseStep, hpc, show s.pc (.worker i) = .idle from hok.2]
    rw [if_neg (not_le.mpr hi)]
  · have hnone : workerStep cfg (s.view i) act = none := by
      cases act with
      | begin polled now batch =>
        simp only [workerStep, beginTick]
        rw [if_neg]
        rintro ⟨hstart, -⟩
        cases hpc.symm.trans hstart
      | turn =>
        simp only [workerStep, workerTurn]
        rw [show (s.view i).worker.pc = .removed p from hpc]
      | task act =>
        simp only [workerStep]
        split
        · rfl
        · rw [if_neg]
          rintro ⟨hrun, -⟩
          cases hpc.symm.trans hrun
    simp only [serverStep, hnone, Option.map_none, ite_self]

/-- In every run in which no callback returns the value of a yield, a task is
kept in a table as suspended just when it has yielded, and a task whose callback
has returned is removed, pushed to the pool and never resumed. -/
theorem finished_never_suspended (P : Platform) (cfg : Config) {s : State P}
    (h : (serverSystem P cfg).Reach (fun _ a => ¬ ReturnsSuspended a) s) : Dispatched cfg s := by
  obtain ⟨l, hi⟩ := inv_of_reach h
  have hf := finish_of_reach h
  have hmem : ∀ {i heap ready p}, readySetPop s.heap (s.workers i).ready = (heap, ready, some p) →
      p ∈ (s.workers i).tasks := by
    intro i heap ready p hpop
    obtain ⟨r, hr⟩ := hi.workers i
    exact hr.popped hpop
  refine ⟨fun i p hp => (hf.tasks i p hp).suspended_iff, fun p hp i => ⟨fun hp' => ?_, ?_⟩, ?_, ?_⟩
  · exact (hf.tasks i p hp').not_finished hp
  · exact fun heap ready hpop => (hf.tasks i p (hmem hpop)).not_finished hp
  · exact fun i heap ready p hpop => (hf.tasks i p (hmem hpop)).suspended_iff.mp
  · exact fun i hi' p hpc => releases_of_removed hi' (threadOk_of_reach h (.worker i)) hpc

/-- The callback of the first connection's task returns 6, and the task stays in
the table as if it had yielded. -/
theorem finished_taken_for_suspended : ∃ s : State Platform.lists,
    (serverSystem _ twoWorkers).Reachable s ∧ (s.heap 1).Finished ∧
      1 ∈ (s.workers 1).tasks ∧ (s.heap 1).mode = .suspended ∧ ¬ Dispatched twoWorkers s := by
  have hrun : ((serverSystem Platform.lists twoWorkers).run (serverCreate _ twoWorkers zeroHeap)
      (.acceptStep 0 :: acceptOne ++ tickStart 1 ++ [.worker 1 (.task (.ret 6))])).map
      (fun s => ((s.workers 1).tasks, (s.heap 1).mode, (s.heap 1).callee)) =
      some ([1], .suspended, .ended) := by decide
  obtain ⟨s, hs, hall⟩ := Option.map_eq_some_iff.mp hrun
  simp only [Prod.mk.injEq] at hall
  obtain ⟨htasks, hmode, hcallee⟩ := hall
  have hmem : 1 ∈ (s.workers 1).tasks := by simp [htasks]
  have hfinished : (s.heap 1).Finished := ⟨hcallee, by simp [hmode], by simp [hmode]⟩
  exact ⟨s, System.Reachable.run (.init ⟨zeroHeap, zeroHeap_fresh, rfl⟩) _ hs, hfinished, hmem,
    hmode, fun h => (h.removed 1 hfinished 1).1 hmem⟩

/-- A callback that returns 0 leaves its task to be pushed. -/
theorem finished_never_suspended_accepted : ∃ s : State Platform.lists,
    (s.heap 1).Finished ∧ Releases twoWorkers s 1 1 ∧ Dispatched twoWorkers s := by
  have hrun : ((serverSystem Platform.lists twoWorkers).checkedRun
      (fun _ a => ¬ ReturnsSuspended a) (serverCreate _ twoWorkers zeroHeap)
      (.acceptStep 0 :: acceptOne ++ tickStart 1 ++ [.worker 1 (.task (.ret 0))])).map
      (fun s => ((s.workers 1).pc, (s.heap 1).mode, (s.heap 1).callee)) =
      some (.removed 1, .running, .ended) := by decide
  obtain ⟨s, hs, hall⟩ := Option.map_eq_some_iff.mp hrun
  simp only [Prod.mk.injEq] at hall
  obtain ⟨hpc, hmode, hcallee⟩ := hall
  have hdispatched := finished_never_suspended Platform.lists twoWorkers
    (System.Reach.checkedRun (.init ⟨zeroHeap, zeroHeap_fresh, rfl⟩) _ hs)
  exact ⟨s, ⟨hcallee, by simp [hmode], by simp [hmode]⟩,
    hdispatched.released 1 (by decide) 1 hpc, hdispatched⟩

end Lawd

import Lawd.Conservation

/-!
# No suspended task is forgotten

A task in a table is about to start and ready, or running, or suspended; a
suspended one is ready or has a timer entry for its id and its version. A
version changes only when a task runs, and an entry for a current version is
only taken from the timer when its task becomes ready. Between two ticks
nothing is ready and nothing runs, so every task has its entry.
-/
namespace Lawd

open Library

variable {P : Platform}

/-- The timer holds an entry for the task as it is now. -/
def Worker.Timed (w : Worker P) (task : Task) : Prop :=
  ∃ e ∈ P.timers.entries w.timer, e.identifier = task.id ∧ e.version = task.version

/-- What becomes of a task of the table. -/
inductive Attended (heap : Heap) (w : Worker P) (p : TaskPtr) : Prop
  | starts : (heap p).mode = .spawned → (heap p).mark = true → Attended heap w p
  | runs : (heap p).mode = .running → w.pc = .running p → Attended heap w p
  | waits : (heap p).mode = .suspended → (heap p).mark = true ∨ w.Timed (heap p) →
      Attended heap w p

/-- Every task of the table is attended to, and tasks on their way to a table
are still to be started. -/
structure SuspensionInv (s : State P) : Prop where
  tasks : ∀ i, ∀ p ∈ (s.workers i).tasks, Attended s.heap (s.workers i) p
  outbound : ∀ th, ∀ p ∈ s.outbound th, (s.heap p).mode = .spawned
  incoming : ∀ i, ∀ p ∈ s.incoming i, (s.heap p).mode = .spawned
  admitted : ∀ i p, (s.workers i).pc = .admitted p → (s.heap p).mode = .spawned

/-- A callback returns the value that signals a yield. -/
def ReturnsSuspended : Action → Prop
  | .worker _ (.task (.ret value)) => value = modeSuspended
  | _ => False

theorem Worker.Timed.congr {w w' : Worker P} {t t' : Task} (h : w.Timed t)
    (htimer : ∀ e ∈ P.timers.entries w.timer, e ∈ P.timers.entries w'.timer)
    (hid : t'.id = t.id) (hversion : t'.version = t.version) : w'.Timed t' := by
  obtain ⟨e, he, heid, hever⟩ := h
  exact ⟨e, htimer e he, by rw [heid, hid], by rw [hever, hversion]⟩

/-- A task that nobody touched, at a worker that has lost none of its timer entries. -/
theorem Attended.congr {heap heap' : Heap} {w w' : Worker P} {p : TaskPtr}
    (h : Attended heap w p) (hsame : (heap p).Same (heap' p))
    (hmark : (heap p).mark = true → (heap' p).mark = true)
    (htimer : ∀ e ∈ P.timers.entries w.timer, e ∈ P.timers.entries w'.timer)
    (hpc : w.pc = .running p → w'.pc = .running p) : Attended heap' w' p := by
  cases h with
  | starts hm hk => exact .starts (hsame.mode ▸ hm) (hmark hk)
  | runs hm hp => exact .runs (hsame.mode ▸ hm) (hpc hp)
  | waits hm hk =>
    exact .waits (hsame.mode ▸ hm)
      (hk.imp hmark fun ht => ht.congr htimer hsame.id hsame.version)

theorem Attended.congr_heap {heap heap' : Heap} {w w' : Worker P} {p : TaskPtr}
    (h : Attended heap w p) (hheap : heap' p = heap p)
    (htimer : ∀ e ∈ P.timers.entries w.timer, e ∈ P.timers.entries w'.timer)
    (hpc : w.pc = .running p → w'.pc = .running p) : Attended heap' w' p :=
  h.congr (hheap ▸ .refl _) (fun hm => hheap ▸ hm) htimer hpc

theorem Attended.woken {heap heap' : Heap} {w w' : Worker P} {p : TaskPtr}
    (h : Attended heap w p) (hsame : (heap p).Same (heap' p)) (hmark : (heap' p).mark = true)
    (hpc : w.pc ≠ .running p) : Attended heap' w' p := by
  cases h with
  | starts hm hk => exact .starts (hsame.mode ▸ hm) hmark
  | runs hm hp => exact absurd hp hpc
  | waits hm hk => exact .waits (hsame.mode ▸ hm) (.inl hmark)

/-- Taking an entry from the timer concerns only the task found under its id. -/
theorem Attended.pop {heap : Heap} {w : Worker P} {p : TaskPtr} {e : TimerElem}
    {timer : P.timers.Queue} {r : List TaskPtr} (hi : WorkerInv heap w r) (hp : p ∈ w.tasks)
    (hpop : P.timers.pop w.timer = some (e, timer))
    (hother : w.lookup e.identifier = some p → (heap p).version ≠ e.version)
    (h : Attended heap w p) : Attended heap { w with timer := timer } p := by
  cases h with
  | starts hm hk => exact .starts hm hk
  | runs hm hpc => exact .runs hm hpc
  | waits hm hk =>
    refine .waits hm (hk.imp_right ?_)
    rintro ⟨e', he', hid, hver⟩
    refine ⟨e', ?_, hid, hver⟩
    rcases List.mem_cons.mp ((P.timers.pop_entries _ _ _ hpop).subset he') with rfl | hmem
    · have hlook := hi.lookup_task hp
      rw [← hid] at hlook
      exact absurd hver.symm (hother hlook)
    · exact hmem

/-- A task that enters the table is to be started. -/
theorem attended_insert {v : View P} {r : List TaskPtr} {q : TaskPtr} {table : P.tables.Map}
    (hi : WorkerInv v.heap v.worker r) (hpc : v.worker.pc = .admitted q)
    (hmark : (v.heap q).mark = false)
    (hins : tableInsert P.tables v.worker.table (v.heap q).id (some q) = (.success, table))
    (hmode : (v.heap q).mode = .spawned)
    (ht : ∀ p ∈ v.worker.tasks, Attended v.heap v.worker p) :
    ∀ p ∈ Worker.tasks { v.worker with table := table },
      Attended (readySetPush v.heap v.worker.ready q).1 { v.worker with
        pc := .admitting, table := table,
        ready := (readySetPush v.heap v.worker.ready q).2 } p := by
  have hnot : q ∉ r := fun hq => by
    have hm := hi.ready.marked q hq
    rw [hmark] at hm
    cases hm
  obtain ⟨r', wk⟩ := readySetPush_woken (p := q) hi.ready
    ⟨fun hm => absurd hm (by simp [hmark]), fun hq => absurd hq hnot⟩
  have hperm : (Worker.tasks { v.worker with table := table }).Perm (q :: v.worker.tasks) :=
    Worker.tasks_insert hins
  intro p hp
  by_cases hpq : p = q
  · subst hpq
    exact .starts (wk.same.mode.trans hmode) wk.mark
  · have hp' := (List.mem_cons.mp (hperm.subset hp)).resolve_left hpq
    refine (ht p hp').congr_heap (wk.others p hpq) (fun _ he => he) fun hrun => ?_
    rw [hpc] at hrun
    cases hrun

/-- The task that is taken from the ready set runs. -/
theorem attended_run {v : View P} {r : List TaskPtr} {p q : TaskPtr} {heap : Heap}
    {ready : Option TaskPtr} {f : Task → Task} (hi : WorkerInv v.heap v.worker r)
    (hpc : v.worker.pc = .dispatch)
    (hpop : readySetPop v.heap v.worker.ready = (heap, ready, some q))
    (hf : f = startTask ∨ f = resumeTask) (ht : Attended v.heap v.worker p) :
    Attended (heap.modify q f)
      { v.worker with pc := .running q, ready := ready, active := some q } p := by
  obtain ⟨-, -, -, -, -, hothers⟩ := readySetPop_some hi.ready hpop
  by_cases hpq : p = q
  · subst hpq
    refine .runs ?_ rfl
    rw [Heap.modify_same]
    obtain rfl | rfl := hf
    · rfl
    · unfold resumeTask
      split_ifs <;> rfl
  · refine ht.congr_heap ?_ (fun _ he => he) fun hrun => ?_
    · rw [Heap.modify_ne _ _ hpq, hothers p hpq]
    · rw [hpc] at hrun
      cases hrun

/-- Each effect of a worker but the mistaken suspension attends to the tasks of
its table. -/
theorem WorkerEffect.attended {cfg : Config} {v v' : View P} {a : WorkerAct} {r : List TaskPtr}
    (h : WorkerEffect cfg v a v') (ha : a ≠ .task (.ret modeSuspended))
    (hi : WorkerInv v.heap v.worker r) (hh : HandInv v)
    (hadm : ∀ p, v.worker.pc = .admitted p → (v.heap p).mode = .spawned)
    (ht : ∀ p ∈ v.worker.tasks, Attended v.heap v.worker p) :
    ∀ p ∈ v'.worker.tasks, Attended v'.heap v'.worker p := by
  cases h with
  | control w messages hpc hpc' hk hb =>
    intro p hp
    rw [show Worker.tasks _ = _ from Worker.tasks_congr hk.table] at hp
    refine (ht p hp).congr_heap rfl (fun e he => hk.timer.symm ▸ he) fun hrun => ?_
    rcases hpc with hpc | hpc <;> rw [hrun] at hpc <;> cases hpc
  | stale e timer hpc hpop hst =>
    exact fun p hp => (ht p hp).pop hi hp hpop (hst p)
  | expired e timer q ev hpc hpop hlook hver =>
    have hq := Worker.lookup_mem hlook
    obtain ⟨r', wk⟩ := View.pushed_woken
      (v := { v with worker := { v.worker with timer := timer } })
      (hi.same rfl rfl rfl) hq ev
    intro p hp
    by_cases hpq : p = q
    · subst hpq
      exact (ht p hp).woken wk.same wk.mark (by rw [hpc]; simp)
    · have hpop' := (ht p hp).pop hi hp hpop fun hl =>
        absurd (Option.some.inj (hl.symm.trans hlook)) hpq
      exact hpop'.congr_heap (wk.others p hpq) (fun _ he => he) fun hrun => hrun
  | woken w messages id q ev hpc hpc' hk hb hlook =>
    have hq : q ∈ w.tasks := Worker.tasks_congr hk.table ▸ Worker.lookup_mem hlook
    obtain ⟨r', wk⟩ := View.pushed_woken (v := { v with messages := messages, worker := w })
      (hi.same hpc' hk.ready hk.table) hq ev
    intro p hp
    have hp' : p ∈ v.worker.tasks := Worker.tasks_congr hk.table ▸ hp
    by_cases hpq : p = q
    · subst hpq
      refine (ht p hp').woken wk.same wk.mark fun hrun => ?_
      rw [hrun] at hpc
      cases hpc
    · exact (ht p hp').congr_heap (wk.others p hpq) (fun e he => hk.timer.symm ▸ he)
        fun hrun => hpc'.trans hrun
  | take q incoming hpc hsize hcons =>
    exact fun p hp => (ht p hp).congr_heap rfl (fun _ he => he) fun hrun => by
      rw [hpc] at hrun
      cases hrun
  | insert q table hpc hins =>
    exact attended_insert hi hpc (hh.unmarked q (by simp [hpc, WorkerPc.hand])) hins (hadm q hpc) ht
  | tickDone pc heap ready hpc hpop hpc' =>
    exact fun p hp => (ht p hp).congr_heap rfl (fun _ he => he) fun hrun => by
      rw [hpc] at hrun
      cases hrun
  | run q heap ready f hpc hpop hf =>
    exact fun p hp => attended_run hi hpc hpop (hf.imp And.right And.right) (ht p hp)
  | ectl q fd op flags events data fails interest hr hact ha hint =>
    exact fun p hp => (ht p hp).congr_heap rfl (fun _ he => he) fun hrun => hrun
  | close q interest hr hint =>
    exact fun p hp => (ht p hp).congr_heap rfl (fun _ he => he) fun hrun => hrun
  | unchanged q hr => exact ht
  | ewait q now millis events maxEvents hr ha' =>
    intro p hp
    by_cases hpq : p = q
    · subst hpq
      refine .waits ?_ (.inr ⟨⟨now + millis, (v.heap p).id, (v.heap p).version⟩,
        PriorityQueue.mem_insert.mpr (.inl rfl), ?_, ?_⟩)
      all_goals
        dsimp only
        rw [Heap.modify_same]
        rfl
    · refine (ht p hp).congr_heap ?_ (fun e he => PriorityQueue.mem_insert.mpr (.inr he))
        fun hrun => ?_
      · exact Heap.modify_ne _ _ hpq
      · rw [hr.1] at hrun
        cases hrun
        exact absurd rfl hpq
  | enter q hr he ha =>
    exact fun p hp => (ht p hp).congr_heap rfl (fun _ he => he) fun hrun => hrun
  | leave q e hr he hq =>
    exact fun p hp => (ht p hp).congr_heap rfl (fun _ he => he) fun hrun => hrun
  | finish q table hr he hrem =>
    have hperm : v.worker.tasks.Perm (q :: Worker.tasks { v.worker with table := table }) :=
      Worker.tasks_remove _ hrem
    have hnd := hperm.nodup_iff.mp (List.nodup_append.mp hh.nodup).1
    intro p hp
    have hpq : p ≠ q := by
      rintro rfl
      exact (List.nodup_cons.mp hnd).1 hp
    refine (ht p (hperm.symm.subset (List.mem_cons_of_mem _ hp))).congr_heap ?_
      (fun _ he => he) fun hrun => ?_
    · dsimp only
      rw [Heap.modify_ne _ _ hpq]
    · rw [hr.1] at hrun
      cases hrun
      exact absurd rfl hpq
  | mistaken q hr ha' => exact absurd ha' ha

/-- A step of the pool or of the control of a thread attends to the same tasks. -/
theorem SuspensionInv.control {s t : State P} (hs : SuspensionInv s) (c : Control s t)
    (hout : ∀ th, ∀ p ∈ t.outbound th, (s.heap p).mode = .spawned)
    (hin : ∀ i, ∀ p ∈ t.incoming i, (s.heap p).mode = .spawned) : SuspensionInv t where
  tasks i p hp := by
    rw [c.tasks i] at hp
    rcases c.workers i with h | ⟨pc, h, -, hold⟩
    · rw [h, c.heap]
      exact hs.tasks i p hp
    · rw [h, c.heap]
      refine (hs.tasks i p hp).congr_heap rfl (fun _ he => he) fun hrun => ?_
      rw [hrun] at hold
      rcases hold with ⟨q, hq⟩ | hq <;> cases hq
  outbound th p hp := by
    rw [c.heap]
    exact hout th p hp
  incoming i p hp := by
    rw [c.heap]
    exact hin i p hp
  admitted i p hp := by
    rw [c.heap]
    rcases c.workers i with h | ⟨pc, h, hpc, -⟩
    · exact hs.admitted i p (by rw [← h, hp])
    · rw [h] at hp
      rcases hpc with rfl | rfl <;> cases hp

theorem State.setup_mode (s : State P) (p q : TaskPtr) (callback : Callback) (data : Data)
    (version : Vers) (h : q = p ∨ (s.heap q).mode = .spawned) :
    ((s.setup p callback data version).heap q).mode = .spawned := by
  by_cases hq : q = p
  · subst hq
    simp only [State.setup, Heap.modify_same]
    rfl
  · rw [s.setup_heap_ne hq]
    exact h.resolve_left hq

theorem SuspensionInv.setup {s : State P} {l : List TaskPtr} (hs : SuspensionInv s) (hi : Inv s l)
    {th : Tid} {p : TaskPtr} (hp : p ∈ s.hand th) (callback : Callback) (data : Data)
    (version : Vers) : SuspensionInv (s.setup p callback data version) where
  tasks i q hq := by
    have hqp : q ≠ p := by
      rintro rfl
      exact hi.not_mem (x := .hand th) (y := .table i) hp (by simp) hq
    exact (hs.tasks i q hq).congr_heap (s.setup_heap_ne hqp ..) (fun _ he => he) fun h => h
  outbound th' q hq := s.setup_mode p q _ _ _ (.inr (hs.outbound th' q hq))
  incoming i q hq := s.setup_mode p q _ _ _ (.inr (hs.incoming i q hq))
  admitted i q hq := s.setup_mode p q _ _ _ (.inr (hs.admitted i q hq))

theorem SuspensionInv.worker {s : State P} {l : List TaskPtr} (hs : SuspensionInv s) (hi : Inv s l)
    {cfg : Config} {i : ℕ} {act : WorkerAct} {v : View P} (ha : act ≠ .task (.ret modeSuspended))
    (hst : workerStep cfg (s.view i) act = some v) : SuspensionInv (s.setView i v) := by
  have heff := workerStep_effect hst
  obtain ⟨r, hr⟩ := hi.workers i
  have hframe := (heff.inv hr (hi.hand_view i)).2
  have hself := heff.attended ha hr (hi.hand_view i) (hs.admitted i) (hs.tasks i)
  have hout : ∀ th, ∀ p ∈ s.outbound th, v.heap p = s.heap p := by
    intro th p hp
    have hp' : p ∈ s.hand th := List.mem_append_right _ (List.mem_append_left _ hp)
    refine hframe.heap p (hi.not_mem (x := .hand th) (y := .table i) hp' (by simp)) fun hmine => ?_
    have hmine' : p ∈ s.workerHand (.worker i) := hmine
    by_cases hth : th = .worker i
    · subst hth
      have hnd := (List.nodup_append.mp (hi.nodup (.hand (.worker i)))).2.1
      exact (List.disjoint_of_nodup_append hnd) hp hmine'
    · exact hi.not_mem (x := .hand th) (y := .hand (.worker i)) hp' (by simpa using Ne.symm hth)
        (List.mem_append_right _ (List.mem_append_right _ hmine'))
  have hin : ∀ j, ∀ p ∈ s.incoming j, v.heap p = s.heap p := fun j p hp =>
    hi.view_frame hframe (x := .pipe j) (by simp) (by simp) hp
  have hview : (s.setView i v).workers i = v.worker := Function.update_self ..
  have hother : ∀ j, j ≠ i → (s.setView i v).workers j = s.workers j := fun j hj =>
    Function.update_of_ne hj ..
  refine ⟨fun j p hp => ?_, fun th p hp => ?_, fun j p hp => ?_, fun j p hp => ?_⟩
  · by_cases hj : j = i
    · subst hj
      rw [hview] at hp ⊢
      exact hself p hp
    · rw [hother j hj] at hp ⊢
      refine (hs.tasks j p hp).congr_heap ?_ (fun _ he => he) fun h => h
      exact hi.view_frame hframe (x := .table j) (by simpa using hj) (by simp) hp
  · have hp' : p ∈ s.outbound th := by cases th <;> exact hp
    change (v.heap p).mode = .spawned
    rw [hout th p hp']
    exact hs.outbound th p hp'
  · have hp' : p ∈ s.incoming j := by
      by_cases hj : j = i
      · subst hj
        change p ∈ Function.update s.incoming j v.incoming j at hp
        rw [Function.update_self] at hp
        exact heff.incoming hp
      · change p ∈ Function.update s.incoming i v.incoming j at hp
        rwa [Function.update_of_ne hj] at hp
    change (v.heap p).mode = .spawned
    rw [hin j p hp']
    exact hs.incoming j p hp'
  · change (v.heap p).mode = .spawned
    by_cases hj : j = i
    · subst hj
      rw [hview] at hp
      have hp' : p ∈ s.incoming j := heff.admitted hp
      rw [hin j p hp']
      exact hs.incoming j p hp'
    · rw [hother j hj] at hp
      have hp' : p ∈ s.hand (.worker j) := by
        refine List.mem_append_right _ (List.mem_append_right _ ?_)
        simp [State.workerHand, hp, WorkerPc.hand]
      rw [hi.view_frame hframe (x := .hand (.worker j)) (by simp) (by simpa using hj) hp']
      exact hs.admitted j p hp

theorem serverStep_suspension {cfg : Config} {s t : State P} {a : Action} {l : List TaskPtr}
    (hst : serverStep cfg s a = some t) (ha : ¬ ReturnsSuspended a) (hi : Inv s l)
    (hs : SuspensionInv s) : SuspensionInv t := by
  cases serverStep_effect hst with
  | pool th u hu =>
    have hframe := hi.pool_frame hu
    have hmode : ∀ q, (s.heap q).mode = .spawned → (u.heap q).mode = .spawned := fun q hq =>
      (hframe.same q).mode.trans hq
    exact ⟨fun i p hp =>
        (hs.tasks i p hp).congr (hframe.same p) (fun hm => (hframe.mark p).trans hm)
        (fun _ he => he) fun h => h,
      fun th' p hp => hmode p (hs.outbound th' p (by cases th' <;> exact hp)),
      fun i p hp => hmode p (hs.incoming i p hp), fun i p hp => hmode p (hs.admitted i p hp)⟩
  | control _ hc hout hhand =>
    refine hs.control hc (fun th p hp => hs.outbound th p (hout th ▸ hp)) fun i p hp => ?_
    rw [hc.incoming] at hp
    exact hs.incoming i p hp
  | setup th p callback data version _ hp hc hout hhand =>
    have hs' := hs.setup hi hp callback data version
    refine hs'.control hc (fun th' q hq => ?_) fun i q hq => ?_
    · exact s.setup_mode p q _ _ _ ((hout th' q hq).imp_right (hs.outbound th' q))
    · rw [hc.incoming] at hq
      exact hs'.incoming i q hq
  | send th i p _ hp hc hout hhand hothers =>
    have hs' : SuspensionInv { s with
        incoming := Function.update s.incoming i (s.incoming i ++ [p]) } := by
      refine ⟨hs.tasks, fun th' q hq => hs.outbound th' q (by cases th' <;> exact hq),
        fun j q hq => ?_, hs.admitted⟩
      by_cases hj : j = i
      · subst hj
        simp only [Function.update_self] at hq
        rcases List.mem_append.mp hq with hq | hq
        · exact hs.incoming j q hq
        · rw [List.mem_singleton.mp hq]
          exact hs.outbound th p hp
      · simp only [Function.update_of_ne hj] at hq
        exact hs.incoming j q hq
    refine hs'.control hc (fun th' q hq => hs.outbound th' q (hout th' hq)) fun j q hq => ?_
    rw [hc.incoming] at hq
    exact hs'.incoming j q hq
  | drop th p _ hfail hc hout hhand hothers =>
    have hs' : SuspensionInv { s with lost := p :: s.lost } :=
      ⟨hs.tasks, fun th' q hq => hs.outbound th' q (by cases th' <;> exact hq), hs.incoming,
        hs.admitted⟩
    refine hs'.control hc (fun th' q hq => hs.outbound th' q (hout th' hq)) fun j q hq => ?_
    rw [hc.incoming] at hq
    exact hs.incoming j q hq
  | worker i act v hi' ha' hv =>
    refine hs.worker hi (fun h => ha ?_) hv
    rw [ha', h]
    rfl

theorem serverCreate_suspension (cfg : Config) (heap : Heap) :
    SuspensionInv (serverCreate P cfg heap) where
  tasks i p hp := by
    change p ∈ (workerCreate P cfg).tasks at hp
    rw [workerCreate_tasks] at hp
    cases hp
  outbound th p hp := by cases th <;> cases hp
  incoming i p hp := by cases hp
  admitted i p hp := by cases hp

theorem suspension_of_reach {cfg : Config} {s : State P}
    (h : (serverSystem P cfg).Reach (fun _ a => ¬ ReturnsSuspended a) s) : SuspensionInv s :=
  h.invariant (P := SuspensionInv)
    (fun _ hs => by
      obtain ⟨heap, -, rfl⟩ := hs
      exact serverCreate_suspension cfg heap)
    fun _ _ _ hr hs ha hst => by
      obtain ⟨l, hi⟩ := inv_of_reach hr
      exact serverStep_suspension hst ha hi hs

/-- At the start of every tick each task of the table is suspended, unmarked and
not ready, and the timer holds an entry for its id and its current version. -/
theorem suspended_task_timed (P : Platform) (cfg : Config) {s : State P}
    (h : (serverSystem P cfg).Reach (fun _ a => ¬ ReturnsSuspended a) s) (i : ℕ)
    (hpc : (s.workers i).pc = .start) (p : TaskPtr) (hp : p ∈ (s.workers i).tasks) :
    (s.heap p).mode = .suspended ∧ (s.heap p).mark = false ∧
      (∃ r, s.heap.Chain (s.workers i).ready r ∧ p ∉ r) ∧
      ∃ e ∈ P.timers.entries (s.workers i).timer,
        e.identifier = (s.heap p).id ∧ e.version = (s.heap p).version := by
  obtain ⟨l, hi⟩ := inv_of_reach h
  obtain ⟨r, hr⟩ := hi.workers i
  obtain rfl := hr.drained (.inl hpc)
  have hmark : ¬ (s.heap p).mark = true := fun hm => by simpa using hr.marked p hp hm
  refine match (suspension_of_reach h).tasks i p hp with
    | .starts _ hm => absurd hm hmark
    | .runs _ hrun => ?_
    | .waits hmode hw =>
      ⟨hmode, by simpa using hmark, ⟨[], hr.ready.chain, by simp⟩, hw.resolve_left hmark⟩
  rw [hpc] at hrun
  cases hrun

instance : (a : Action) → Decidable (ReturnsSuspended a)
  | .worker _ (.task (.ret value)) => inferInstanceAs (Decidable (value = modeSuspended))
  | .worker _ (.task (.ectl ..)) | .worker _ (.task (.close _)) | .worker _ (.task (.ewait ..))
  | .worker _ (.task .enter) | .worker _ (.task .leave) => .isFalse id
  | .worker _ (.begin ..) | .worker _ .turn => .isFalse id
  | .pool _ | .spawn _ _ _ | .spawnStep _ _ | .accept _ | .acceptStep _ | .release _
  | .wakeup _ _ | .stop => .isFalse id

/-- A tick of worker `i` that reads one task from its pipe and starts it. -/
def tickStart (i : ℕ) : List Action :=
  .worker i (.begin 0 0 []) :: List.replicate 7 (.worker i .turn)

/-- The task of one accepted connection waits for ten milliseconds, and its
worker begins the next tick with an entry in its timer. -/
theorem suspended_task_timed_accepted : ∃ s : State Platform.lists,
    1 ∈ (s.workers 1).tasks ∧ (s.heap 1).mode = .suspended ∧ (s.heap 1).mark = false ∧
      (∃ r, s.heap.Chain (s.workers 1).ready r ∧ 1 ∉ r) ∧
      ∃ e ∈ Platform.lists.timers.entries (s.workers 1).timer,
        e.identifier = (s.heap 1).id ∧ e.version = (s.heap 1).version := by
  have hrun : ((serverSystem Platform.lists twoWorkers).checkedRun
      (fun _ a => ¬ ReturnsSuspended a) (serverCreate _ twoWorkers zeroHeap)
      (.acceptStep 0 :: acceptOne ++ tickStart 1 ++
        [.worker 1 (.task (.ewait 0 10 true 4 false)), .worker 1 .turn])).map
      (fun s => ((s.workers 1).pc, (s.workers 1).tasks)) = some (.start, [1]) := by decide
  obtain ⟨s, hs, heq⟩ := Option.map_eq_some_iff.mp hrun
  obtain ⟨hpc, htasks⟩ := Prod.mk.inj heq
  have hmem : 1 ∈ (s.workers 1).tasks := by simp [htasks]
  exact ⟨s, hmem, suspended_task_timed Platform.lists twoWorkers
    (System.Reach.checkedRun (.init ⟨zeroHeap, zeroHeap_fresh, rfl⟩) _ hs) 1 hpc 1 hmem⟩

end Lawd

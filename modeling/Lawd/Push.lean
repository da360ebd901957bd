import Lawd.Suspension

/-!
# Pushes of events

`law_task_push_event` asserts that the task has a buffer of events that is not
overfull. What `law_ewait` was called with decides it: with a buffer every later
push is legal, and with none, as in `law_sync_wait`, no push is.
-/
namespace Lawd

open Library

variable {P : Platform}

/-- The task that the timer loop hands the next expired entry to, if it is not
stale. -/
def timerTarget (v : View P) : Option TaskPtr :=
  match P.timers.peek v.worker.timer with
  | none => none
  | some e =>
    if e.expiration > v.worker.now then none
    else
      match v.worker.lookup e.identifier with
      | none => none
      | some p => if (v.heap p).version ≠ e.version then none else some p

/-- The task that the next turn of the loops of a tick hands an event to. -/
def pushTarget (v : View P) : Option TaskPtr :=
  match v.worker.pc with
  | .timers => timerTarget v
  | .events => v.worker.batch.head?.bind (eventTarget v.worker)
  | .messages =>
    match v.messages with
    | .wakeup id :: _ => v.worker.lookup id
    | _ => none
  | _ => none

/-- The loops that hand events to tasks. -/
def WorkerPc.polling : WorkerPc → Bool
  | timers | events | messages => true
  | _ => false

/-- What a turn writes, given the task it hands an event to. -/
def Pushes (v v' : View P) (target : Option TaskPtr) : Prop :=
  match target with
  | none => v'.heap = v.heap
  | some p => ∃ ev ready, wake v.heap v.worker.ready p ev = some (v'.heap, ready)

theorem timerTarget_eq (v : View P) : timerTarget v = ((P.timers.peek v.worker.timer).bind fun e =>
    if e.expiration > v.worker.now then none
    else (resolve v.worker v.heap (.timer e)).map Prod.fst) := by
  unfold timerTarget
  cases P.timers.peek v.worker.timer with
  | none => rfl
  | some e =>
    simp only [Option.bind_some, resolve]
    congr 1
    cases v.worker.lookup e.identifier with
    | none => rfl
    | some p =>
      simp only [Option.bind_some, ne_eq, ite_not]
      split_ifs <;> rfl

theorem pushTarget_eq (v : View P) :
    pushTarget v = (v.takes.bind (resolve v.worker v.heap)).map Prod.fst := by
  unfold pushTarget View.takes
  cases v.worker.pc
  case timers =>
    dsimp only
    rw [timerTarget_eq]
    cases P.timers.peek v.worker.timer with
    | none => rfl
    | some e =>
      simp only [Option.bind_some]
      split_ifs <;> rfl
  case events =>
    cases v.worker.batch with
    | nil => rfl
    | cons ev batch =>
      simp only [List.head?_cons, Option.bind_some, Option.map_some, resolve, Option.map_map]
      exact Option.map_id'.symm
  case messages =>
    rcases v.messages with _ | ⟨_ | id, messages⟩
    · rfl
    · rfl
    · simp only [List.head?_cons, Option.bind_some, Option.map_some, resolve, Option.map_map]
      exact Option.map_id'.symm
  all_goals rfl

theorem deliver_pushes {v : View P} {w : Worker P} {messages : List Msg}
    (hready : w.ready = v.worker.ready) {target : Option (TaskPtr × Event)}
    (hlegal : LegalPush v.heap target) :
    Pushes v (View.deliver { v with messages := messages, worker := w } target)
      (target.map Prod.fst) := by
  cases target with
  | none => rfl
  | some target =>
    refine ⟨target.2, (v.heap.pushed v.worker.ready target.1 target.2).2, ?_⟩
    rw [wake_eq, if_pos (hlegal _ _ rfl), ← hready]
    rfl

/-- A turn of these loops pushes an event to its target, if it has one, and
otherwise writes to no task. -/
theorem workerTurn_pushes {cfg : Config} {v v' : View P} (hpc : v.worker.pc.polling = true)
    (h : workerTurn cfg v = some v') : Pushes v v' (pushTarget v) := by
  rw [pushTarget_eq]
  cases workerTurn_turn h with
  | timer e timer hpc' htakes hdue hpop hlegal =>
    rw [htakes]
    exact deliver_pushes (w := { v.worker with timer := timer }) rfl hlegal
  | event ev batch hpc' htakes hcons hlegal =>
    rw [htakes]
    exact deliver_pushes (w := { v.worker with batch := batch }) rfl hlegal
  | message msg messages reloop hpc' htakes hcons hreloop hlegal =>
    rw [htakes]
    exact deliver_pushes (w := { v.worker with reloop := reloop }) rfl hlegal
  | timersDone hpc' htakes | eventsDone hpc' htakes | messagesDone hpc' htakes =>
    rw [htakes]
    rfl
  | take _ _ hpc' | admitDone hpc' | insert _ _ hpc' | done _ _ _ hpc' | run _ _ _ _ hpc' =>
    rw [hpc'] at hpc
    cases hpc

theorem timerTarget_some {v : View P} {p : TaskPtr} (h : timerTarget v = some p) :
    ∃ e, P.timers.peek v.worker.timer = some e ∧ e.expiration ≤ v.worker.now ∧
      v.worker.lookup e.identifier = some p ∧ (v.heap p).version = e.version := by
  unfold timerTarget at h
  split at h
  · cases h
  · rename_i e hpeek
    split_ifs at h with hlate
    split at h
    · cases h
    · rename_i q hlook
      split_ifs at h with hver
      obtain rfl := Option.some.inj h
      exact ⟨e, hpeek, not_lt.mp hlate, hlook, not_not.mp hver⟩

theorem pushTarget_mem {v : View P} {p : TaskPtr} (h : pushTarget v = some p) :
    v.worker.pc.polling = true ∧ p ∈ v.worker.tasks := by
  unfold pushTarget at h
  cases hpc : v.worker.pc <;> rw [hpc] at h
  case timers =>
    obtain ⟨e, -, -, hlook, -⟩ := timerTarget_some h
    exact ⟨rfl, Worker.lookup_mem hlook⟩
  case events =>
    refine ⟨rfl, ?_⟩
    obtain ⟨ev, -, hev⟩ := Option.bind_eq_some_iff.mp h
    exact Worker.lookup_mem (eventTarget_lookup hev).2
  case messages =>
    refine ⟨rfl, ?_⟩
    simp only at h
    split at h
    · exact Worker.lookup_mem h
    · cases h
  all_goals cases h

/-- Only the link and the mark of a task have changed. -/
def Task.Relinked (t u : Task) : Prop := u = { t with mark := u.mark, next := u.next }

theorem Task.Relinked.refl (t : Task) : t.Relinked t := rfl

theorem readySetPush_relinked (heap : Heap) (list : Option TaskPtr) (p q : TaskPtr) :
    (heap q).Relinked ((readySetPush heap list p).1 q) := by
  unfold readySetPush
  split_ifs
  · exact .refl _
  · simp only [taskLlnIface, NodeIface.pushFront, Heap.modify_apply]
    split_ifs with h
    · subst h
      rfl
    · rfl

theorem readySetPop_relinked {heap heap' : Heap} {list rest : Option TaskPtr} {p : Option TaskPtr}
    (h : readySetPop heap list = (heap', rest, p)) (q : TaskPtr) :
    (heap q).Relinked (heap' q) := by
  unfold readySetPop at h
  cases list with
  | none =>
    simp only [NodeIface.removeFirst, Prod.mk.injEq] at h
    rw [← h.1]
    rfl
  | some first =>
    simp only [taskLlnIface, NodeIface.removeFirst, Prod.mk.injEq] at h
    rw [← h.1]
    simp only [Heap.modify_apply]
    split_ifs with hq
    · subst hq
      rfl
    · rfl

theorem Heap.pushed_relinked (heap : Heap) (list : Option TaskPtr) (p q : TaskPtr) (ev : Event) :
    (heap.modify p (Task.pushed ev) q).Relinked ((heap.pushed list p ev).1 q) :=
  readySetPush_relinked ..

/-- The task may be pushed to if it is suspended. -/
def Task.Ready (task : Task) : Prop := task.mode = .suspended → task.PushLegal

theorem Task.Relinked.same {t u : Task} (h : t.Relinked u) : t.Same u := by
  rw [h]
  exact ⟨rfl, rfl, rfl, rfl, rfl, rfl, rfl⟩

theorem Task.Relinked.ready {t u : Task} (h : t.Relinked u) (ht : t.Ready) : u.Ready := by
  rw [h]
  exact ht

theorem Task.pushed_ready (ev : Event) {t : Task} (h : t.Ready) : (t.pushed ev).Ready := by
  intro hmode
  rw [(Task.pushed_same ev t).mode] at hmode
  obtain ⟨hevents, hnum⟩ := h hmode
  unfold Task.pushed
  split_ifs with hlt
  · exact ⟨by simpa using hevents, by change t.numEvents + 1 ≤ t.maxEvents; omega⟩
  · exact ⟨hevents, hnum⟩

theorem Heap.pushed_ready {heap : Heap} (list : Option TaskPtr) (p : TaskPtr) (ev : Event)
    {q : TaskPtr}
    (h : (heap q).Ready) : ((heap.pushed list p ev).1 q).Ready := by
  refine (Heap.pushed_relinked heap list p q ev).ready ?_
  rw [Heap.modify_apply]
  split_ifs with hq
  · subst hq
    exact Task.pushed_ready ev h
  · exact h

theorem Heap.pushed_same (heap : Heap) (list : Option TaskPtr) (p q : TaskPtr) (ev : Event) :
    (heap q).Same ((heap.pushed list p ev).1 q) := by
  refine Task.Same.trans ?_ (Heap.pushed_relinked heap list p q ev).same
  rw [Heap.modify_apply]
  split_ifs with hq
  · subst hq
    exact Task.pushed_same ev _
  · exact .refl _

/-- A step that waits with no buffer, or with a negative size, or that a yield
is mistaken for, does not set the next push up. -/
def WorkerAct.WaitsLegally : WorkerAct → Prop
  | .task (.ewait _ _ events maxEvents oom) => oom = true ∨ events = true ∧ 0 ≤ maxEvents
  | .task (.ret value) => value ≠ modeSuspended
  | _ => True

/-- The same for a step of the server. -/
def WaitsLegally : Action → Prop
  | .worker _ act => act.WaitsLegally
  | _ => True

/-- What the loops of a tick may rely on. -/
structure Pushable (heap : Heap) (w : Worker P) : Prop where
  ready : ∀ p ∈ w.tasks, (heap p).Ready
  waiting : w.pc.polling = true → ∀ p ∈ w.tasks, (heap p).mode = .suspended

theorem WorkerPc.polling_iff {pc : WorkerPc} : pc.polling = true ↔ pc.phase < 3 := by
  cases pc <;> simp [polling, phase]

theorem workerStep_polling {cfg : Config} {v v' : View P} {act : WorkerAct}
    (h : workerStep cfg v act = some v') (hpc : v'.worker.pc.polling = true) :
    v.worker.pc = .start ∨ v.worker.pc.polling = true := by
  rw [WorkerPc.polling_iff] at hpc ⊢
  cases act with
  | begin polled now batch =>
    simp only [workerStep, beginTick] at h
    split_ifs at h with hg
    exact .inl hg.1
  | turn => exact .inr ((workerTurn_turn h).phase_le.trans_lt hpc)
  | task act =>
    obtain ⟨p, -, hran⟩ := workerStep_ran h
    rw [hran.phase] at hpc
    omega

/-- Nothing happens to the tasks of the table. -/
theorem Pushable.same {heap : Heap} {w w' : Worker P} (h : Pushable heap w)
    (htasks : w'.tasks = w.tasks)
    (hwait : w'.pc.polling = true → ∀ p ∈ w.tasks, (heap p).mode = .suspended) :
    Pushable heap w' where
  ready p hp := h.ready p (htasks ▸ hp)
  waiting hpc p hp := hwait hpc p (htasks ▸ hp)

/-- A task of the table is handed an event. -/
theorem Pushable.wake {v v' : View P} (p : TaskPtr) (ev : Event)
    (h : ∀ q ∈ v.worker.tasks, (v.heap q).Ready) (htasks : v'.worker.tasks = v.worker.tasks)
    (hheap : v'.heap = (v.heap.pushed v.worker.ready p ev).1)
    (hwait : v'.worker.pc.polling = true → ∀ q ∈ v.worker.tasks, (v.heap q).mode = .suspended) :
    Pushable v'.heap v'.worker where
  ready q hq := by
    rw [hheap]
    exact Heap.pushed_ready _ p ev (h q (htasks ▸ hq))
  waiting hpc q hq := by
    rw [hheap, (Heap.pushed_same ..).mode]
    exact hwait hpc q (htasks ▸ hq)

/-- Each effect but a wait without a buffer keeps the tasks ready for a push. -/
theorem WorkerEffect.pushable {cfg : Config} {v v' : View P} {a : WorkerAct}
    (h : WorkerEffect cfg v a v') (ha : a.WaitsLegally)
    (hq : Pushable v.heap v.worker)
    (hwait : v'.worker.pc.polling = true → ∀ p ∈ v.worker.tasks, (v.heap p).mode = .suspended) :
    Pushable v'.heap v'.worker := by
  cases h with
  | control w messages hpc hpc' hk hb => exact hq.same (Worker.tasks_congr hk.table) hwait
  | stale e timer hpc hpop hst => exact hq.same rfl hwait
  | expired e timer p ev hpc hpop hlook hver => exact Pushable.wake p _ hq.ready rfl rfl hwait
  | woken w messages id p ev hpc hpc' hk hb hlook =>
    refine Pushable.wake p ev hq.ready (Worker.tasks_congr hk.table) ?_ hwait
    rw [← hk.ready]
    rfl
  | take p incoming hpc hsize hcons => exact hq.same rfl hwait
  | insert p table hpc hins hspawned =>
    refine ⟨fun q hq' => ?_, fun hpc => by cases hpc⟩
    have hperm : (Worker.tasks { v.worker with table := table }).Perm (p :: v.worker.tasks) :=
      Worker.tasks_insert hins
    refine (readySetPush_relinked v.heap v.worker.ready p q).ready ?_
    rcases List.mem_cons.mp (hperm.subset hq') with rfl | hmem
    · intro hmode
      cases hspawned.symm.trans hmode
    · exact hq.ready q hmem
  | tickDone pc heap ready hpc hpop hpc' => exact hq.same rfl hwait
  | run p heap ready f hpc hpop hf =>
    refine ⟨fun q hq' => ?_, fun hpc => by cases hpc⟩
    change (heap.modify p f q).Ready
    rw [Heap.modify_apply]
    split_ifs with hqp
    · intro hmode
      have hrun : (f (heap p)).mode = .running := by
        rcases hf with ⟨-, rfl⟩ | ⟨-, rfl⟩
        · rfl
        · unfold resumeTask
          split_ifs <;> rfl
      rw [hrun] at hmode
      cases hmode
    · exact (readySetPop_relinked hpop q).ready (hq.ready q hq')
  | ectl p fd op flags events data fails interest hr hact ha' hint => exact hq.same rfl hwait
  | close p interest hr hint => exact hq.same rfl hwait
  | unchanged p hr => exact hq.same rfl hwait
  | ewait p now millis events maxEvents hr ha' =>
    refine ⟨fun q hq' => ?_, fun hpc => by cases hpc⟩
    change (v.heap.modify p _ q).Ready
    rw [Heap.modify_apply]
    split_ifs with hqp
    · rw [ha'] at ha
      obtain ⟨hevents, hmax⟩ := ha.resolve_left (by simp)
      exact fun _ => ⟨by rw [hevents]; rfl, hmax⟩
    · exact hq.ready q hq'
  | enter p hr he ha' => exact hq.same rfl hwait
  | leave p e hr he hp => exact hq.same rfl hwait
  | finish p table hr he hrem =>
    refine ⟨fun q hq' => ?_, fun hpc => by cases hpc⟩
    have hmem : q ∈ v.worker.tasks :=
      (Worker.tasks_remove { v.worker with table := table } hrem).symm.subset
        (List.mem_cons_of_mem _ hq')
    change (v.heap.modify p _ q).Ready
    rw [Heap.modify_apply]
    split_ifs with hqp
    · subst hqp
      exact hq.ready q hmem
    · exact hq.ready q hmem
  | mistaken p hr ha' =>
    rw [ha'] at ha
    exact absurd rfl ha

theorem Pushable.frame {s t : State P} {i : ℕ} (hf : WorkerFrame s t i)
    (h : Pushable s.heap (s.workers i)) : Pushable t.heap (t.workers i) := by
  have hpush : ∀ w : Worker P, w.tasks = (s.workers i).tasks →
      (w.pc.polling = true → (s.workers i).pc.polling = true) → Pushable t.heap w := by
    intro w htasks hpc
    refine ⟨fun p hp => ?_, fun hpoll p hp => ?_⟩
    · rw [htasks] at hp
      rw [hf.heap p hp]
      exact h.ready p hp
    · rw [htasks] at hp
      rw [hf.heap p hp]
      exact h.waiting (hpc hpoll) p hp
  rcases hf.worker with hw | ⟨pc, hw, hpc, -⟩
  · rw [hw]
    exact hpush _ rfl id
  · rw [hw]
    refine hpush _ rfl fun hpoll => ?_
    rcases hpc with rfl | rfl <;> cases hpoll

theorem SuspensionInv.at_start {s : State P} (hs : SuspensionInv s) {l : List TaskPtr}
    (hi : Inv s l) {i : ℕ} (hpc : (s.workers i).pc = .start) {p : TaskPtr}
    (hp : p ∈ (s.workers i).tasks) : (s.heap p).mode = .suspended := by
  obtain ⟨r, hr⟩ := hi.workers i
  obtain rfl := hr.drained (.inl hpc)
  cases hs.tasks i p hp with
  | starts _ hmark => exact absurd (hr.marked p hp hmark) List.not_mem_nil
  | runs _ hrun =>
    rw [hpc] at hrun
    cases hrun
  | waits hmode _ => exact hmode

theorem WaitsLegally.not_returnsSuspended {a : Action} (h : WaitsLegally a) :
    ¬ ReturnsSuspended a := by
  cases a with
  | worker i act =>
    cases act with
    | task act => cases act <;> first | exact id | exact h
    | _ => exact id
  | _ => exact id

theorem pushable_of_reach {cfg : Config} {s : State P}
    (h : (serverSystem P cfg).Reach (fun _ a => WaitsLegally a) s) :
    ∀ i, Pushable s.heap (s.workers i) := by
  refine worker_invariant (Q := Pushable) (fun heap => ?_) (fun _ _ _ hf hq => hq.frame hf)
    (fun s i act v hs ha hst hq => ?_) h
  · refine ⟨fun p hp => ?_, fun hpc => by cases hpc⟩
    rw [workerCreate_tasks] at hp
    cases hp
  · have hsusp := suspension_of_reach (hs.mono fun _ _ => WaitsLegally.not_returnsSuspended)
    refine (workerStep_effect hst).pushable ha hq fun hpc => ?_
    rcases workerStep_polling hst hpc with hstart | hpoll
    · obtain ⟨l, hi⟩ := inv_of_reach hs
      exact fun p hp => hsusp.at_start hi hstart hp
    · exact hq.waiting hpoll

/-- In every run in which every `law_ewait` is given a buffer and no callback
returns the value of a yield, each push of an event meets the assertion of
`law_task_push_event`. -/
theorem pushes_legal (P : Platform) (cfg : Config) {s : State P}
    (h : (serverSystem P cfg).Reach (fun _ a => WaitsLegally a) s) (i : ℕ) (p : TaskPtr)
    (hp : pushTarget (s.view i) = some p) : (s.heap p).PushLegal := by
  obtain ⟨hpoll, hmem⟩ := pushTarget_mem hp
  have hpush := pushable_of_reach h i
  exact hpush.ready p hmem (hpush.waiting hpoll p hmem)

/-- `law_sync_wait`. -/
def lawSyncWait (fd : ℕ) (events : BitVec 32) (now timeout : Time) : List TaskAct :=
  [.ectl fd .mod 0 events 0 false, .ewait now timeout false 0 false]

/-- The task of one connection waits for its descriptor with `law_sync`. -/
def waitInSync : List Action :=
  .acceptStep 0 :: acceptOne ++ tickStart 1 ++
    (.ectl 5 .add 0 0 0 false :: lawSyncWait 5 1 0 10).map (fun act => .worker 1 (.task act)) ++
    [.worker 1 .turn]

/-- When the descriptor becomes ready, its event is pushed to no buffer, and the
worker halts. -/
theorem sync_push_illegal : ∃ s : State Platform.lists,
    (serverSystem _ twoWorkers).Reachable s ∧ pushTarget (s.view 1) = some 1 ∧
      ¬ (s.heap 1).PushLegal ∧ serverStep twoWorkers s (.worker 1 .turn) = none := by
  have hrun : ((serverSystem Platform.lists twoWorkers).run (serverCreate _ twoWorkers zeroHeap)
      (waitInSync ++ [.worker 1 (.begin 0 0 [⟨1, slotEncode .little ⟨1, 0⟩⟩]),
        .worker 1 .turn])).map
      (fun s => (pushTarget (s.view 1), (s.heap 1).events,
        (serverStep twoWorkers s (.worker 1 .turn)).isNone)) =
      some (some 1, none, true) := by decide
  obtain ⟨s, hs, hall⟩ := Option.map_eq_some_iff.mp hrun
  obtain ⟨htarget, hevents, hhalts⟩ : _ ∧ _ ∧ _ := by simpa only [Prod.mk.injEq] using hall
  refine ⟨s, System.Reachable.run (.init ⟨zeroHeap, zeroHeap_fresh, rfl⟩) _ hs, htarget, ?_,
    Option.isNone_iff_eq_none.mp hhalts⟩
  rintro ⟨hsome, -⟩
  rw [hevents] at hsome
  cases hsome

instance : (act : WorkerAct) → Decidable act.WaitsLegally
  | .task (.ewait _ _ events maxEvents oom) =>
    inferInstanceAs (Decidable (oom = true ∨ events = true ∧ 0 ≤ maxEvents))
  | .task (.ret value) => inferInstanceAs (Decidable (value ≠ modeSuspended))
  | .task (.ectl ..) | .task (.close _) | .task .enter | .task .leave => .isTrue trivial
  | .begin .. | .turn => .isTrue trivial

instance : (a : Action) → Decidable (WaitsLegally a)
  | .worker _ act => inferInstanceAs (Decidable act.WaitsLegally)
  | .pool _ | .spawn _ _ _ | .spawnStep _ _ | .accept _ | .acceptStep _ | .release _
  | .wakeup _ _ | .stop => .isTrue trivial

/-- The task of one connection waits with a buffer for four events, and its
time is up. -/
theorem pushes_legal_accepted : ∃ s : State Platform.lists,
    pushTarget (s.view 1) = some 1 ∧ (s.heap 1).PushLegal := by
  have hrun : ((serverSystem Platform.lists twoWorkers).checkedRun (fun _ a => WaitsLegally a)
      (serverCreate _ twoWorkers zeroHeap) (.acceptStep 0 :: acceptOne ++ tickStart 1 ++
        [.worker 1 (.task (.ewait 0 10 true 4 false)), .worker 1 .turn,
          .worker 1 (.begin 10 10 [])])).map (fun s => pushTarget (s.view 1)) =
      some (some 1) := by decide
  obtain ⟨s, hs, htarget⟩ := Option.map_eq_some_iff.mp hrun
  exact ⟨s, htarget, pushes_legal Platform.lists twoWorkers
    (System.Reach.checkedRun (.init ⟨zeroHeap, zeroHeap_fresh, rfl⟩) _ hs) 1 1 htarget⟩

end Lawd

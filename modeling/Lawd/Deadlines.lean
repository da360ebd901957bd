import Lawd.Events
import Lawd.Finish

/-!
# Deadlines

A wait that is cancelled leaves its entry in the timer, and only the low 32 bits
of the id and a 32-bit version tell the entry from those of later waits. No task
is woken before the deadline of the wait it is blocked in as long as no wait
begins while an earlier entry with its id and version is pending, or ends at no
time that there is.
-/
namespace Lawd

open Library

variable {P : Platform}

/-- The deadline of each task's last wait, as a number: it may lie behind the
greatest time. -/
abbrev Deadlines := TaskPtr → ℤ

/-- A call of `law_ewait` that suspends its task sets the task's deadline. -/
def noteWait (due : Deadlines) (s : State P) : Action → Deadlines
  | .worker i (.task (.ewait now millis _ _ false)) =>
    match (s.workers i).active with
    | none => due
    | some p => Function.update due p (now.toInt + millis.toInt)
  | _ => due

/-- The server, with a record of the deadlines. -/
def waitSystem (P : Platform) (cfg : Config) : System (State P × Deadlines) Action :=
  (serverSystem P cfg).record (fun due s a _ => noteWait due s a) fun _ => 0

/-- The entry carries the id, as far as a table compares it, and the version of
the task. -/
def TimerElem.Fits (e : TimerElem) (task : Task) : Prop :=
  e.identifier.setWidth 32 = task.id.setWidth 32 ∧ e.version = task.version

/-- The step begins no wait that ends behind the greatest time, and none while an
earlier entry that fits the task is in the timer. -/
def WaitsAlone (s : State P) : Action → Prop
  | .worker i (.task (.ewait now millis _ _ false)) =>
    now.toInt + millis.toInt < 2 ^ 63 ∧
      ∀ p ∈ (s.workers i).active, ∀ e ∈ P.timers.entries (s.workers i).timer,
        e.Fits (s.heap p) → now + millis ≤ e.expiration
  | _ => True

/-- No entry of the timer that fits a waiting task is earlier than its deadline. -/
def Punctual (due : Deadlines) (heap : Heap) (w : Worker P) : Prop :=
  ∀ p ∈ w.tasks, (heap p).callee = .yielded → ∀ e ∈ P.timers.entries w.timer,
    e.Fits (heap p) → due p ≤ e.expiration.toInt

theorem TimerElem.Fits.congr {e : TimerElem} {t u : Task} (h : e.Fits u) (hid : u.id = t.id)
    (hversion : u.version = t.version) : e.Fits t := ⟨hid ▸ h.1, hversion ▸ h.2⟩

/-- The waiting tasks waited before, and the entries were in the timer before. -/
theorem Punctual.congr {due : Deadlines} {heap heap' : Heap} {w w' : Worker P}
    (h : Punctual due heap w) (hheap : ∀ p ∈ w'.tasks, (heap' p).callee = .yielded →
      p ∈ w.tasks ∧ (heap p).callee = .yielded ∧ (heap' p).id = (heap p).id ∧
        (heap' p).version = (heap p).version)
    (htimer : ∀ e ∈ P.timers.entries w'.timer, e ∈ P.timers.entries w.timer) :
    Punctual due heap' w' := by
  intro p hp hyield e he hfits
  obtain ⟨hp', hyield', hid, hversion⟩ := hheap p hp hyield
  exact h p hp' hyield' e (htimer e he) (hfits.congr hid hversion)

/-- The heap has not changed where the waiting tasks are. -/
theorem Punctual.same {due : Deadlines} {heap : Heap} {w w' : Worker P}
    (h : Punctual due heap w) (htasks : ∀ p ∈ w'.tasks, p ∈ w.tasks)
    (htimer : ∀ e ∈ P.timers.entries w'.timer, e ∈ P.timers.entries w.timer) :
    Punctual due heap w' :=
  h.congr (fun p hp hy => ⟨htasks p hp, hy, rfl, rfl⟩) htimer

theorem run_not_yielded {task : Task} {f : Task → Task}
    (hf : task.mode = .spawned ∧ f = startTask ∨ task.mode = .suspended ∧ f = resumeTask) :
    (f task).callee ≠ .yielded := by
  rcases hf with ⟨-, rfl⟩ | ⟨-, rfl⟩
  · simp [startTask]
  · unfold resumeTask
    split_ifs with h
    · simp
    · exact h

/-- Each effect but a new wait leaves the timer punctual. -/
theorem WorkerEffect.punctual {cfg : Config} {v v' : View P} {a : WorkerAct} {due : Deadlines}
    (h : WorkerEffect cfg v a v')
    (ha : ∀ now millis events maxEvents, a ≠ .task (.ewait now millis events maxEvents false))
    (hadm : ∀ p, v.worker.pc = .admitted p → (v.heap p).callee = .ended)
    (hd : Punctual due v.heap v.worker) : Punctual due v'.heap v'.worker := by
  cases h with
  | control w messages hpc hpc' hk hb =>
    exact hd.same (fun p hp => Worker.tasks_congr hk.table ▸ hp) fun e he => hk.timer ▸ he
  | stale e timer hpc hpop hst =>
    exact hd.same (fun _ hp => hp) fun e' he =>
      (P.timers.pop_entries _ _ _ hpop).symm.subset (List.mem_cons_of_mem _ he)
  | expired e timer q ev hpc hpop hlook hver =>
    refine hd.congr (fun p hp hy => ⟨hp, (Heap.pushed_same ..).callee.symm.trans hy, ?_⟩)
      fun e' he =>
      (P.timers.pop_entries _ _ _ hpop).symm.subset (List.mem_cons_of_mem _ he)
    exact ⟨(Heap.pushed_same ..).id, (Heap.pushed_same ..).version⟩
  | woken w messages id q ev hpc hpc' hk hb hlook =>
    refine hd.congr (fun p hp hy => ⟨Worker.tasks_congr hk.table ▸ hp,
      (Heap.pushed_same ..).callee.symm.trans hy, ?_⟩) fun e he => hk.timer ▸ he
    exact ⟨(Heap.pushed_same ..).id, (Heap.pushed_same ..).version⟩
  | take q incoming hpc hsize hcons => exact hd.same (fun _ hp => hp) fun _ he => he
  | insert q table hpc hins =>
    have hperm : (Worker.tasks { v.worker with table := table }).Perm (q :: v.worker.tasks) :=
      Worker.tasks_insert hins
    refine hd.congr (fun p hp hy => ?_) fun _ he => he
    have hsame := (readySetPush_relinked v.heap v.worker.ready q p).same
    have hy' : (v.heap p).callee = .yielded := hsame.callee.symm.trans hy
    refine ⟨(List.mem_cons.mp (hperm.subset hp)).resolve_left ?_, hy', hsame.id, hsame.version⟩
    rintro rfl
    cases hy'.symm.trans (hadm p hpc)
  | tickDone pc heap ready hpc hpop hpc' => exact hd.same (fun _ hp => hp) fun _ he => he
  | run q heap ready f hpc hpop hf =>
    refine hd.congr (fun p hp hy => ?_) fun _ he => he
    have hsame := (readySetPop_relinked hpop p).same
    have hpq : p ≠ q := by
      rintro rfl
      refine run_not_yielded hf ?_
      rw [← Heap.modify_same heap p f]
      exact hy
    simp only [Heap.modify_ne _ _ hpq] at hy ⊢
    exact ⟨hp, hsame.callee.symm.trans hy, hsame.id, hsame.version⟩
  | ectl q fd op flags events data fails interest hr hact ha' hint =>
    exact hd.same (fun _ hp => hp) fun _ he => he
  | close q interest hr hint => exact hd.same (fun _ hp => hp) fun _ he => he
  | unchanged q hr => exact hd
  | ewait q now millis events maxEvents hr ha' => exact absurd ha' (ha now millis events maxEvents)
  | enter q hr he ha' => exact hd.same (fun _ hp => hp) fun _ he => he
  | leave q e hr he hq => exact hd.same (fun _ hp => hp) fun _ he => he
  | finish q table hr he hrem =>
    have hperm : v.worker.tasks.Perm (q :: Worker.tasks { v.worker with table := table }) :=
      Worker.tasks_remove _ hrem
    refine hd.congr (fun p hp hy => ?_) fun _ he => he
    have hpq : p ≠ q := by
      rintro rfl
      simp at hy
    simp only [Heap.modify_ne _ _ hpq] at hy ⊢
    exact ⟨hperm.symm.subset (List.mem_cons_of_mem _ hp), hy, trivial, trivial⟩
  | mistaken q hr ha' =>
    refine hd.congr (fun p hp hy => ?_) fun _ he => he
    have hpq : p ≠ q := by
      rintro rfl
      simp at hy
    simp only [Heap.modify_ne _ _ hpq] at hy ⊢
    exact ⟨hp, hy, trivial, trivial⟩

/-- What a wait that suspends its task does. -/
theorem workerStep_ewait {cfg : Config} {v v' : View P} {now millis : Time} {events : Bool}
    {maxEvents : ℤ}
    (h : workerStep cfg v (.task (.ewait now millis events maxEvents false)) = some v') :
    ∃ p, v.worker.active = some p ∧ v.Runs p ∧ 0 ≤ millis ∧
      v' = { v with heap := v.heap.modify p (suspendTask events maxEvents),
                    worker := { v.worker with
                      pc := .dispatch,
                      timer := P.timers.insert v.worker.timer
                        ⟨now + millis, (v.heap p).id, (v.heap p).version⟩ } } := by
  simp only [workerStep] at h
  split at h
  · cases h
  · rename_i p hact
    split_ifs at h with hruns
    simp only [taskStep, Bool.false_eq_true, if_false] at h
    split_ifs at h with hmillis
    exact ⟨p, hact, hruns, not_lt.mp hmillis, (Option.some.inj h).symm⟩

/-- A wait that begins alone leaves the timer punctual. -/
theorem Punctual.ewait {v : View P} {r : List TaskPtr} {due : Deadlines} {p : TaskPtr}
    {now millis : Time} (events : Bool) (maxEvents : ℤ)
    (hd : Punctual due v.heap v.worker) (hi : WorkerInv v.heap v.worker r)
    (hp : p ∈ v.worker.tasks) (hmillis : 0 ≤ millis)
    (htime : now.toInt + millis.toInt < 2 ^ 63)
    (halone : ∀ e ∈ P.timers.entries v.worker.timer, e.Fits (v.heap p) →
      now + millis ≤ e.expiration) :
    Punctual (Function.update due p (now.toInt + millis.toInt))
      (v.heap.modify p (suspendTask events maxEvents))
      { v.worker with
        pc := .dispatch,
        timer := P.timers.insert v.worker.timer
          ⟨now + millis, (v.heap p).id, (v.heap p).version⟩ } := by
  rw [Int64.le_iff_toInt_le, Int64.toInt_zero] at hmillis
  have hends : (now + millis).toInt = now.toInt + millis.toInt :=
    time_add (by have := now.le_toInt; omega) htime
  intro q hq hyield e he hfits
  by_cases hqp : q = p
  · subst hqp
    rw [Function.update_self, ← hends]
    rcases PriorityQueue.mem_insert.mp he with rfl | he
    · exact le_rfl
    · refine Int64.le_iff_toInt_le.mp (halone e he (hfits.congr ?_ ?_))
      · rw [Heap.modify_same]
        rfl
      · rw [Heap.modify_same]
        rfl
  · rw [Function.update_of_ne hqp]
    rw [Heap.modify_ne _ _ hqp] at hyield hfits
    rcases PriorityQueue.mem_insert.mp he with rfl | he
    · exact absurd (hi.task_low_inj hq hp hfits.1.symm) hqp
    · exact hd q hq hyield e he hfits

section Step

variable {cfg : Config} {s t : State P} {a : Action} {l : List TaskPtr} {due : Deadlines}

theorem noteWait_of_heap (hst : serverStep cfg s a = some t) {p : TaskPtr}
    (hp : t.heap p = s.heap p) : noteWait due s a p = due p := by
  unfold noteWait
  split
  · rename_i i now millis events maxEvents
    obtain ⟨-, -, -, v, hv, rfl⟩ := serverStep_worker hst
    obtain ⟨q, hact, hruns, -, rfl⟩ := workerStep_ewait hv
    rw [show (s.workers i).active = some q from hact]
    refine Function.update_of_ne ?_ ..
    rintro rfl
    have hcallee := congrArg Task.callee hp
    change ((s.heap.modify p _) p).callee = _ at hcallee
    rw [Heap.modify_same] at hcallee
    cases hcallee.trans hruns.2.1
  · rfl

theorem Punctual.frame {due' : Deadlines} {i : ℕ} (hf : WorkerFrame s t i)
    (hdue : ∀ p ∈ (s.workers i).tasks, due' p = due p)
    (hd : Punctual due s.heap (s.workers i)) : Punctual due' t.heap (t.workers i) := by
  have hkeep : ∀ w : Worker P, w.tasks = (s.workers i).tasks → w.timer = (s.workers i).timer →
      Punctual due' t.heap w := by
    intro w htasks htimer p hp hyield e he hfits
    rw [htasks] at hp
    rw [hf.heap p hp] at hyield hfits
    rw [hdue p hp]
    exact hd p hp hyield e (htimer ▸ he) hfits
  rcases hf.worker with hw | ⟨pc, hw, -, -⟩
  · rw [hw]
    exact hkeep _ rfl rfl
  · rw [hw]
    exact hkeep _ rfl rfl

/-- Every step whose wait, if any, begins alone and ends in time leaves the timers
punctual. -/
theorem serverStep_punctual (hst : serverStep cfg s a = some t) (ha : WaitsAlone s a)
    (hi : Inv s l) (hrest : ∀ p, (∀ i, p ∉ (s.workers i).tasks) → (s.heap p).callee = .ended)
    (hd : ∀ i, Punctual due s.heap (s.workers i)) (i : ℕ) :
    Punctual (noteWait due s a) t.heap (t.workers i) := by
  rcases serverStep_frame hst hi i with ⟨act, v, rfl, hv, rfl⟩ | hframe
  · change Punctual _ v.heap (Function.update s.workers i v.worker i)
    rw [Function.update_self]
    by_cases hwait : ∃ now millis events maxEvents,
        act = .task (.ewait now millis events maxEvents false)
    · obtain ⟨now, millis, events, maxEvents, rfl⟩ := hwait
      obtain ⟨p, hact, hruns, hmillis, rfl⟩ := workerStep_ewait hv
      obtain ⟨r, hr⟩ := hi.workers i
      have hact' : (s.workers i).active = some p := hact
      simp only [noteWait, hact']
      exact (hd i).ewait (v := s.view i) events maxEvents hr (hr.running p hruns.1).1 hmillis ha.1
        (ha.2 p hact)
    · have hnote : noteWait due s (.worker i act) = due := by
        unfold noteWait
        split
        · rename_i heq
          cases heq
          exact absurd ⟨_, _, _, _, rfl⟩ hwait
        · rfl
      rw [hnote]
      refine (workerStep_effect hv).punctual (fun now millis events maxEvents h => ?_)
        (fun p hp => hrest p fun j => hi.admitted_not_mem hp j) (hd i)
      exact hwait ⟨now, millis, events, maxEvents, h⟩
  · exact (hd i).frame hframe fun p hp => noteWait_of_heap hst (hframe.heap p hp)

end Step

theorem punctual_of_reach {cfg : Config} {x : State P × Deadlines}
    (h : (waitSystem P cfg).Reach (fun x a => WaitsAlone x.1 a) x) (i : ℕ) :
    Punctual x.2 x.1.heap (x.1.workers i) := by
  refine h.invariant (P := fun x => ∀ i, Punctual x.2 x.1.heap (x.1.workers i))
    (fun x hx i => ?_) (fun x a y hr hd ha hst i => ?_) i
  · obtain ⟨⟨heap, -, hx⟩, -⟩ := hx
    rw [hx]
    intro p hp
    change p ∈ (workerCreate P cfg).tasks at hp
    rw [workerCreate_tasks] at hp
    cases hp
  · obtain ⟨t, ht, rfl⟩ := Option.map_eq_some_iff.mp hst
    have hr' := hr.of_record
    obtain ⟨l, hi⟩ := inv_of_reach hr'
    exact serverStep_punctual ht ha hi (callee_of_reach hr') hd i

/-- In every run in which each wait begins alone and ends in time, the timer loop
hands an event to a task that is blocked in `law_ewait` only when the deadline of
that call has passed. -/
theorem timers_wake_on_time (P : Platform) (cfg : Config) {x : State P × Deadlines}
    (h : (waitSystem P cfg).Reach (fun x a => WaitsAlone x.1 a) x) (i : ℕ) (p : TaskPtr)
    (hp : timerTarget (x.1.view i) = some p) (hblocked : (x.1.heap p).callee = .yielded) :
    x.2 p ≤ (x.1.workers i).now.toInt := by
  obtain ⟨e, hpeek, hdue, hlook, hver⟩ := timerTarget_some hp
  obtain ⟨l, hi⟩ := inv_of_reach h.of_record
  obtain ⟨r, hr⟩ := hi.workers i
  obtain ⟨timer, -, hperm⟩ := PriorityQueue.pop_of_peek hpeek
  have hmem : e ∈ P.timers.entries (x.1.workers i).timer :=
    hperm.symm.subset (List.mem_cons.mpr (.inl rfl))
  have hfits : e.Fits (x.1.heap p) := ⟨(hr.lookup_low hlook).symm, hver.symm⟩
  exact (punctual_of_reach h i p (Worker.lookup_mem hlook) hblocked e hmem hfits).trans
    (Int64.le_iff_toInt_le.mp hdue)

section Wrapped

/-!
One worker with one task, whose first wait, for ten million seconds, is cancelled
at once. Waits for a millisecond each then take the version round to where it was.
-/

/-- The server, with a record of the deadlines. -/
abbrev loneWaits : System (State Platform.lists × Deadlines) Action :=
  waitSystem Platform.lists oneWorker

/-- When the first wait was to end. -/
def firstDue : Time := 10000000000

/-- The deadlines, when that of the task is `time`. -/
def lastDue (time : ℤ) : Deadlines := Function.update (fun _ => 0) 0 time

/-- The task, as it runs. -/
def runningTask (version : Vers) : Task := { loneTask .running 1 1 with version := version }

/-- The task, as it waits. -/
def waitingTask (version : Vers) : Task := suspendTask true 0 (runningTask version)

/-- The server when its worker holds the task. -/
def timedServer (task : Task) (pc : WorkerPc) (timeout : Int32) (now : Time)
    (ready : Option TaskPtr)
    (timer : Platform.lists.timers.Queue) : State Platform.lists :=
  { loneServer none task pc (loneTable 1) [] with
    workers := Function.update (fun _ => workerCreate Platform.lists oneWorker) 0
      { workerCreate Platform.lists oneWorker with
        pc := pc, timeout := timeout, now := now, ready := ready, active := some 0,
        table := loneTable 1,
        timer := timer } }

/-- What the first wait has left in the timer. -/
def leftTimer : Platform.lists.timers.Queue :=
  Platform.lists.timers.insert Platform.lists.timers.empty ⟨firstDue, 1, 1⟩

/-- The task runs. -/
def tasking (version : Vers) (timeout : Int32) (now : Time) : State Platform.lists :=
  timedServer (runningTask version) (.running 0) timeout now none leftTimer

/-- The task waits, its time is up, and the next tick has begun. -/
def waiting (version : Vers) (timeout : Int32) (now : Time) : State Platform.lists :=
  timedServer (waitingTask version) .timers timeout now none
    (Platform.lists.timers.insert leftTimer ⟨now, 1, version⟩)

/-- The task has been woken. -/
def woken (version : Vers) (timeout : Int32) (now : Time) (pc : WorkerPc) :
    State Platform.lists :=
  timedServer { waitingTask version with mark := true } pc timeout now (some 0) leftTimer

theorem tasking_to_waiting (version : Vers) (timeout : Int32) (now : Time) (time : ℤ) :
    loneWaits.run (tasking version timeout now, lastDue time)
      [.worker 0 (.task (.ewait now 1 true 0 false)), .worker 0 .turn,
        .worker 0 (.begin (now + 1) (now + 1) [])] =
      some (waiting version (pollTimeout oneWorker.workerTimeout
        (Platform.lists.timers.insert leftTimer ⟨now + 1, 1, version⟩) (now + 1)) (now + 1),
        lastDue (now.toInt + 1)) := by
  refine Option.eq_some_iff_get_eq.mpr ⟨rfl, Prod.ext (State.ext_points rfl (fun _ => ⟨rfl, rfl⟩)
    fun i => ?_) (funext fun p => ?_)⟩
  · cases i <;> exact ⟨rfl, rfl, rfl, rfl⟩
  · cases p <;> rfl

/-- An entry that has expired wakes the task it fits. -/
theorem timerTurn_expired {cfg : Config} {v : View P} {e : TimerElem} {timer : P.timers.Queue}
    {p : TaskPtr} (hpop : P.timers.pop v.worker.timer = some (e, timer))
    (hdue : e.expiration ≤ v.worker.now) (hlook : v.worker.lookup e.identifier = some p)
    (hver : (v.heap p).version = e.version) (hlegal : (v.heap p).PushLegal) :
    timerTurn cfg v =
      some (View.pushed { v with worker := { v.worker with timer := timer } } p ⟨evTim, 0⟩) := by
  have hpeek : P.timers.peek v.worker.timer = some e := by
    rw [← P.timers.pop_fst, hpop]
    rfl
  have hlook' : Worker.lookup { v.worker with timer := timer } e.identifier = some p := hlook
  simp only [timerTurn, hpeek, hpop, hlook', hver, if_neg (not_lt.mpr hdue), ne_eq,
    not_true_eq_false, if_false]
  rw [View.wake_eq, if_pos hlegal]

theorem timerTurn_later {cfg : Config} {v : View P} {e : TimerElem}
    (hpeek : P.timers.peek v.worker.timer = some e) (hlate : v.worker.now < e.expiration) :
    timerTurn cfg v = some { v with worker := { v.worker with pc := .events } } := by
  simp only [timerTurn, hpeek, if_pos hlate]

theorem leftTimer_pop {version : Vers} {now : Time} (h : now < firstDue) :
    Platform.lists.timers.pop (Platform.lists.timers.insert leftTimer ⟨now, 1, version⟩) =
      some (⟨now, 1, version⟩, leftTimer) := by
  have hplace : Platform.lists.timers.insert leftTimer ⟨now, 1, version⟩ =
      ⟨[⟨now, 1, version⟩, ⟨firstDue, 1, 1⟩], by simpa using h.le⟩ :=
    Subtype.ext (if_neg (not_le.mpr h))
  rw [hplace]
  rfl

theorem loneTable_lookup : tableLookup Platform.lists.tables (loneTable 1) 1 = some 0 := by decide

theorem waiting_to_woken (version : Vers) (timeout : Int32) {now : Time} (h : now < firstDue)
    (due : Deadlines) :
    loneWaits.step (waiting version timeout now, due) (.worker 0 .turn) =
      some (woken version timeout now .timers, due) := by
  have hturn : timerTurn oneWorker ((waiting version timeout now).view 0) = some _ :=
    timerTurn_expired (p := 0) (leftTimer_pop h) le_rfl loneTable_lookup rfl ⟨rfl, le_rfl⟩
  have hstep : loneWaits.step (waiting version timeout now, due) (.worker 0 .turn) =
      ((timerTurn oneWorker ((waiting version timeout now).view 0)).map
        ((waiting version timeout now).setView 0)).map fun t => (t, due) := rfl
  rw [hstep, hturn]
  refine congrArg some (Prod.ext (State.ext_points rfl (fun _ => ⟨rfl, rfl⟩) fun i => ?_) rfl)
  cases i <;> exact ⟨rfl, rfl, rfl, rfl⟩

theorem woken_to_events (version : Vers) (timeout : Int32) {now : Time} (h : now < firstDue)
    (due : Deadlines) :
    loneWaits.step (woken version timeout now .timers, due) (.worker 0 .turn) =
      some (woken version timeout now .events, due) := by
  have hturn : timerTurn oneWorker ((woken version timeout now .timers).view 0) = some _ :=
    timerTurn_later (e := ⟨firstDue, 1, 1⟩) rfl h
  have hstep : loneWaits.step (woken version timeout now .timers, due) (.worker 0 .turn) =
      ((timerTurn oneWorker ((woken version timeout now .timers).view 0)).map
        ((woken version timeout now .timers).setView 0)).map fun t => (t, due) := rfl
  rw [hstep, hturn]
  refine congrArg some (Prod.ext (State.ext_points rfl (fun _ => ⟨rfl, rfl⟩) fun i => ?_) rfl)
  cases i <;> exact ⟨rfl, rfl, rfl, rfl⟩

theorem woken_to_tasking (version : Vers) (timeout : Int32) (now : Time) (due : Deadlines) :
    loneWaits.run (woken version timeout now .events, due) (List.replicate 4 (.worker 0 .turn)) =
      some (tasking (version + 1) timeout now, due) := by
  refine Option.eq_some_iff_get_eq.mpr ⟨rfl, Prod.ext (State.ext_points rfl (fun _ => ⟨rfl, rfl⟩)
    fun i => ?_) rfl⟩
  cases i <;> exact ⟨rfl, rfl, rfl, rfl⟩

/-- The first wait is cancelled by a message. -/
def cancelFirst : List Action :=
  [.worker 0 (.task (.ewait 0 firstDue true 0 false)), .worker 0 .turn, .wakeup 0 1,
    .worker 0 (.begin 0 0 [])] ++ List.replicate 6 (.worker 0 .turn)

theorem create_to_tasking :
    loneWaits.run (serverCreate Platform.lists oneWorker zeroHeap, fun _ => 0)
      (spawnOne ++ tickOne 0 ++ cancelFirst) =
        some (tasking 2 oneWorker.workerTimeout 0, lastDue firstDue.toInt) := by
  refine Option.eq_some_iff_get_eq.mpr ⟨rfl, Prod.ext (State.ext_points rfl (fun th => ?_)
    fun i => ?_) rfl⟩
  · rcases th with _ | i | i <;> (try cases i) <;> exact ⟨rfl, rfl⟩
  · cases i <;> exact ⟨rfl, rfl, rfl, rfl⟩

theorem ofNat_lt_firstDue {n : ℕ} (h : n < 10000000000) : Int64.ofNat n < firstDue := by
  rw [Int64.lt_iff_toInt_lt, Int64.toInt_ofNat_of_lt (by omega)]
  change (n : ℤ) < 10000000000
  omega

theorem tasking_reachable (n : ℕ) (h : n < 10000000000) :
    ∃ timeout time, loneWaits.Reachable
      (tasking (BitVec.ofNat 32 (n + 2)) timeout (Int64.ofNat n), lastDue time) := by
  induction n with
  | zero =>
    exact ⟨_, firstDue.toInt, System.Reachable.run (.init ⟨⟨zeroHeap, zeroHeap_fresh, rfl⟩, rfl⟩) _
      create_to_tasking⟩
  | succ n ih =>
    obtain ⟨timeout, time, ih⟩ := ih (by omega)
    have hnext : Int64.ofNat n + 1 < firstDue := by
      have hlt := ofNat_lt_firstDue h
      rwa [Int64.ofNat_add] at hlt
    have hwaiting := System.Reachable.run ih _ (tasking_to_waiting _ _ _ time)
    have hwoken := System.Reach.step hwaiting trivial (waiting_to_woken _ _ hnext _)
    have hevents := System.Reach.step hwoken trivial (woken_to_events _ _ hnext _)
    have htasking := System.Reachable.run hevents _ (woken_to_tasking _ _ _ _)
    have hsucc : BitVec.ofNat 32 (n + 2) + 1 = BitVec.ofNat 32 (n + 1 + 2) :=
      (BitVec.ofNat_add (n + 2) 1).symm
    rw [hsucc, show Int64.ofNat n + 1 = Int64.ofNat (n + 1) from (Int64.ofNat_add n 1).symm]
      at htasking
    exact ⟨_, _, htasking⟩

/-- After 2^32 waits the version is that of the first wait again, and its entry
wakes the task long before the end of a new wait. -/
theorem wrapped_timer_wakes : ∃ x, loneWaits.Reachable x ∧ (x.1.workers 0).pc = .timers ∧
    timerTarget (x.1.view 0) = some 0 ∧ (x.1.heap 0).callee = .yielded ∧
    (x.1.workers 0).now.toInt < x.2 0 := by
  obtain ⟨timeout, time, hreach⟩ := tasking_reachable (2 ^ 32 - 1) (by decide)
  have hrun : (loneWaits.run (tasking 1 timeout 4294967295, lastDue time)
      [.worker 0 (.task (.ewait 4294967295 firstDue true 0 false)), .worker 0 .turn,
        .worker 0 (.begin firstDue firstDue [])]).map (fun x => ((x.1.workers 0).pc,
        Platform.lists.timers.peek (x.1.workers 0).timer, (x.1.workers 0).lookup 1,
        (x.1.heap 0).version,
        (x.1.heap 0).callee, (x.1.workers 0).now, x.2 0)) =
      some (.timers, some ⟨firstDue, 1, 1⟩, some 0, 1, .yielded, firstDue,
        (4294967295 : Time).toInt + firstDue.toInt) := rfl
  obtain ⟨x, hx, hall⟩ := Option.map_eq_some_iff.mp hrun
  simp only [Prod.mk.injEq] at hall
  obtain ⟨hpc, hpeek, hlook, hver, hcallee, hnow, hdue⟩ := hall
  refine ⟨x, System.Reachable.run hreach _ hx, hpc, ?_, hcallee, ?_⟩
  · have hlate : ¬ firstDue > firstDue := lt_irrefl _
    simp only [timerTarget, State.view, hpeek, hlook, hver, hnow, if_neg hlate, ne_eq,
      not_true_eq_false, if_false]
  · rw [hnow, hdue]
    decide

/-- A wait for the greatest time, from 1 on, is over at once. -/
example : (loneWaits.run (serverCreate Platform.lists oneWorker zeroHeap, fun _ => 0)
      (spawnOne ++ tickOne 0 ++ [.worker 0 (.task (.ewait 1 Int64.maxValue true 4 false)),
        .worker 0 .turn, .worker 0 (.begin 1 1 [])])).map
    (fun x => (timerTarget (x.1.view 0), (x.1.workers 0).now, x.2 0)) =
      some (some 0, 1, 2 ^ 63) := by
  decide

end Wrapped

instance (task : Task) (e : TimerElem) : Decidable (e.Fits task) :=
  inferInstanceAs (Decidable (_ ∧ _))

instance (s : State P) : (a : Action) → Decidable (WaitsAlone s a)
  | .worker i (.task (.ewait now millis _ _ false)) =>
    inferInstanceAs (Decidable (now.toInt + millis.toInt < 2 ^ 63 ∧
      ∀ p ∈ (s.workers i).active, ∀ e ∈ P.timers.entries (s.workers i).timer,
        e.Fits (s.heap p) → now + millis ≤ e.expiration))
  | .worker _ (.task (.ewait _ _ _ _ true)) => .isTrue trivial
  | .worker _ (.task (.ret _)) | .worker _ (.task (.close _)) | .worker _ (.task (.ectl ..))
  | .worker _ (.task .enter) | .worker _ (.task .leave) | .worker _ (.begin ..)
  | .worker _ .turn => .isTrue trivial
  | .pool _ | .spawn _ _ _ | .spawnStep _ _ | .accept _ | .acceptStep _ | .release _
  | .wakeup _ _ | .stop => .isTrue trivial

/-- The second wait of a task ends at its own time, not at that of the first. -/
theorem timers_wake_on_time_accepted : ∃ x : State Platform.lists × Deadlines,
    timerTarget (x.1.view 0) = some 0 ∧ x.2 0 ≤ (x.1.workers 0).now.toInt := by
  have hrun : (loneWaits.checkedRun (fun x a => WaitsAlone x.1 a)
      (serverCreate Platform.lists oneWorker zeroHeap, fun _ => 0)
      (spawnOne ++ tickOne 0 ++ cancelFirst ++
        [.worker 0 (.task (.ewait 0 5 true 0 false)), .worker 0 .turn,
          .worker 0 (.begin 5 5 [])])).map
      (fun x => (timerTarget (x.1.view 0), (x.1.heap 0).callee)) = some (some 0, .yielded) := by
    decide
  obtain ⟨x, hx, hall⟩ := Option.map_eq_some_iff.mp hrun
  obtain ⟨htarget, hcallee⟩ := Prod.mk.inj hall
  exact ⟨x, htarget, timers_wake_on_time Platform.lists oneWorker
    (System.Reach.checkedRun (.init ⟨⟨zeroHeap, zeroHeap_fresh, rfl⟩, rfl⟩) _ hx) 0 0 htarget
    hcallee⟩

end Lawd

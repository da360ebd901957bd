import Lawd.Deadlines
import Lawd.Schedule

/-!
# No worker sleeps through a deadline

A task that waits has an entry in the timer that is no later than its deadline,
so the least entry bounds the time for which a worker may poll, and a tick whose
clock has reached the deadline runs the task.
-/
namespace Lawd

open Library

variable {P : Platform}

/-- The timer holds an entry for the task as it is now, no later than the time. -/
def Worker.TimedBy (w : Worker P) (task : Task) (time : ℤ) : Prop :=
  ∃ e ∈ P.timers.entries w.timer,
    e.identifier = task.id ∧ e.version = task.version ∧ e.expiration.toInt ≤ time

/-- A suspended task is ready or has an entry for its deadline. -/
def Timely (due : Deadlines) (heap : Heap) (w : Worker P) : Prop :=
  ∀ p ∈ w.tasks, (heap p).mode = .suspended →
    (heap p).mark = true ∨ w.TimedBy (heap p) (due p)

theorem Worker.TimedBy.congr {w w' : Worker P} {t t' : Task} {time : ℤ} (h : w.TimedBy t time)
    (htimer : ∀ e ∈ P.timers.entries w.timer, e ∈ P.timers.entries w'.timer)
    (hid : t'.id = t.id) (hversion : t'.version = t.version) : w'.TimedBy t' time := by
  obtain ⟨e, he, heid, hever, hle⟩ := h
  exact ⟨e, htimer e he, by rw [heid, hid], by rw [hever, hversion], hle⟩

/-- Only an entry that is resolved to the task takes its entry from the timer. -/
theorem Worker.TimedBy.pop {heap : Heap} {w : Worker P} {r : List TaskPtr} {p : TaskPtr}
    {e : TimerElem} {timer : P.timers.Queue} {time : ℤ} (h : w.TimedBy (heap p) time)
    (hi : WorkerInv heap w r) (hp : p ∈ w.tasks) (hpop : P.timers.pop w.timer = some (e, timer))
    (hother : w.lookup e.identifier = some p → (heap p).version ≠ e.version) :
    Worker.TimedBy { w with timer := timer } (heap p) time := by
  obtain ⟨e', he', hid, hver, hle⟩ := h
  refine ⟨e', ?_, hid, hver, hle⟩
  rcases List.mem_cons.mp ((P.timers.pop_entries _ _ _ hpop).subset he') with rfl | hmem
  · have hlook := hi.lookup_task hp
    rw [← hid] at hlook
    exact absurd hver.symm (hother hlook)
  · exact hmem

/-! ### The poll -/

/-- The timeout of a poll is between 0 and the one that the server is set up with,
and with an entry in the timer it does not reach behind that entry. -/
theorem pollTimeout_le {w : Worker P} {task : Task} {time : ℤ} {workerTimeout : Int32}
    {polled : Time} (h : w.TimedBy task time) (hw : 0 ≤ workerTimeout) (hpolled : 0 ≤ polled) :
    0 ≤ pollTimeout workerTimeout w.timer polled ∧
      pollTimeout workerTimeout w.timer polled ≤ workerTimeout ∧
      (pollTimeout workerTimeout w.timer polled).toInt ≤ max 0 (time - polled.toInt) := by
  obtain ⟨e, he, -, -, hle⟩ := h
  unfold pollTimeout
  split
  · rename_i hpeek
    rw [(P.timers.peek_none _).mp hpeek] at he
    cases he
  · rename_i least hpeek
    have hleast := Int64.le_iff_toInt_le.mp (P.timers.peek_least _ _ hpeek e he)
    dsimp only
    split_ifs with hdue hshort
    · exact ⟨by decide, hw, le_max_left _ _⟩
    all_goals
      have hlt : polled < least.expiration := not_le.mp hdue
      have hwake : (least.expiration - polled).toInt = least.expiration.toInt - polled.toInt :=
        time_sub (hpolled.trans hlt.le) hpolled
      rw [Int64.lt_iff_toInt_lt] at hlt
    · have hsame : workerTimeout.toInt64.toInt32 = workerTimeout := Int32.toInt32_toInt64 _
      rw [Int64.lt_iff_toInt_lt, Int32.toInt_toInt64, hwake] at hshort
      rw [hsame]
      exact ⟨hw, Int32.le_refl _, le_max_of_le_right (by omega)⟩
    · rw [Int64.lt_iff_toInt_lt, Int32.toInt_toInt64, not_lt] at hshort
      have hlimit := workerTimeout.toInt_lt
      have hcast :
          (least.expiration - polled).toInt32.toInt = (least.expiration - polled).toInt := by
        rw [Int64.toInt_toInt32]
        exact Int.bmod_eq_of_le (by omega) (by omega)
      rw [Int32.le_iff_toInt_le, Int32.le_iff_toInt_le, hcast, Int32.toInt_zero]
      exact ⟨by omega, hshort, le_max_of_le_right (by omega)⟩

/-! ### Runs -/

section Congr

variable {due : Deadlines} {heap heap' : Heap} {w w' : Worker P} {p : TaskPtr}

/-- What is asked of one task. -/
abbrev TimelyAt (due : Deadlines) (heap : Heap) (w : Worker P) (p : TaskPtr) : Prop :=
  (heap p).mode = .suspended → (heap p).mark = true ∨ w.TimedBy (heap p) (due p)

/-- A task that keeps its mark, at a worker that has lost none of its entries. -/
theorem TimelyAt.congr (h : TimelyAt due heap w p) (hsame : (heap p).Same (heap' p))
    (hmark : (heap p).mark = true → (heap' p).mark = true)
    (htimer : ∀ e ∈ P.timers.entries w.timer, e ∈ P.timers.entries w'.timer) :
    TimelyAt due heap' w' p := fun hmode =>
  (h (hsame.mode ▸ hmode)).imp hmark fun ht => ht.congr htimer hsame.id hsame.version

theorem TimelyAt.congr_heap (h : TimelyAt due heap w p) (hheap : heap' p = heap p)
    (htimer : ∀ e ∈ P.timers.entries w.timer, e ∈ P.timers.entries w'.timer) :
    TimelyAt due heap' w' p :=
  h.congr (hheap ▸ .refl _) (fun hm => hheap ▸ hm) htimer

end Congr

/-- Each effect but a new wait and the mistaken suspension keeps the entries of
the waiting tasks. -/
theorem WorkerEffect.timely {cfg : Config} {v v' : View P} {a : WorkerAct} {r : List TaskPtr}
    {due : Deadlines} (h : WorkerEffect cfg v a v') (ha : a ≠ .task (.ret modeSuspended))
    (hwait : ∀ now millis events maxEvents, a ≠ .task (.ewait now millis events maxEvents false))
    (hi : WorkerInv v.heap v.worker r) (hh : HandInv v)
    (ht : Timely due v.heap v.worker) : Timely due v'.heap v'.worker := by
  cases h with
  | control w messages hpc hpc' hk hb =>
    intro p hp
    rw [show Worker.tasks _ = _ from Worker.tasks_congr hk.table] at hp
    exact TimelyAt.congr_heap (ht p hp) rfl fun e he => hk.timer.symm ▸ he
  | stale e timer hpc hpop hst =>
    exact fun p hp hmode => (ht p hp hmode).imp_right fun htimed => htimed.pop hi hp hpop (hst p)
  | expired e timer q ev hpc hpop hlook hver =>
    obtain ⟨r', wk⟩ := View.pushed_woken
      (v := { v with worker := { v.worker with timer := timer } })
      (hi.same rfl rfl rfl) (Worker.lookup_mem hlook) ev
    intro p hp hmode
    by_cases hpq : p = q
    · subst hpq
      exact .inl wk.mark
    · rw [wk.others p hpq] at hmode ⊢
      refine (ht p hp hmode).imp_right fun htimed => htimed.pop hi hp hpop fun hl => ?_
      exact absurd (Option.some.inj (hl.symm.trans hlook)) hpq
  | woken w messages id q ev hpc hpc' hk hb hlook =>
    have hq : q ∈ w.tasks := Worker.tasks_congr hk.table ▸ Worker.lookup_mem hlook
    obtain ⟨r', wk⟩ := View.pushed_woken (v := { v with messages := messages, worker := w })
      (hi.same hpc' hk.ready hk.table) hq ev
    intro p hp
    have hp' : p ∈ v.worker.tasks := Worker.tasks_congr hk.table ▸ hp
    by_cases hpq : p = q
    · subst hpq
      exact fun _ => .inl wk.mark
    · exact TimelyAt.congr_heap (ht p hp') (wk.others p hpq) fun e he => hk.timer.symm ▸ he
  | insert q table hpc hins hspawned =>
    have hperm : (Worker.tasks { v.worker with table := table }).Perm (q :: v.worker.tasks) :=
      Worker.tasks_insert hins
    intro p hp hmode
    have hrel := readySetPush_relinked v.heap v.worker.ready q p
    by_cases hpq : p = q
    · subst hpq
      cases (hrel.same.mode.symm.trans hmode).symm.trans hspawned
    · have hp' := (List.mem_cons.mp (hperm.subset hp)).resolve_left hpq
      refine TimelyAt.congr (ht p hp') hrel.same (fun hm => ?_) (fun _ he => he) hmode
      exact (readySetPush_mark ..).trans (by rw [hm, Bool.or_true])
  | run q heap ready f hpc hpop hf =>
    obtain ⟨-, -, -, -, -, hothers⟩ := readySetPop_some hi.ready hpop
    intro p hp hmode
    by_cases hpq : p = q
    · subst hpq
      have hrun : ((heap.modify p f) p).mode = .running := by
        rw [Heap.modify_same]
        rcases hf with ⟨-, rfl⟩ | ⟨-, rfl⟩
        · rfl
        · unfold resumeTask
          split_ifs <;> rfl
      cases hrun.symm.trans hmode
    · refine TimelyAt.congr_heap (ht p hp) ?_ (fun _ he => he) hmode
      dsimp only
      rw [Heap.modify_ne _ _ hpq, hothers p hpq]
  | finish q table hr he hrem =>
    have hperm : v.worker.tasks.Perm (q :: Worker.tasks { v.worker with table := table }) :=
      Worker.tasks_remove _ hrem
    have hnd := hperm.nodup_iff.mp (List.nodup_append.mp hh.nodup).1
    intro p hp
    have hpq : p ≠ q := by
      rintro rfl
      exact (List.nodup_cons.mp hnd).1 hp
    refine TimelyAt.congr_heap (ht p (hperm.symm.subset (List.mem_cons_of_mem _ hp))) ?_
      fun _ he => he
    dsimp only
    rw [Heap.modify_ne _ _ hpq]
  | ewait q now millis events maxEvents hr ha' =>
    exact absurd ha' (hwait now millis events maxEvents)
  | mistaken q hr ha' => exact absurd ha' ha
  | take | tickDone | ectl | close | unchanged | enter | leave => exact ht

/-- A wait has an entry for its deadline. -/
theorem Timely.ewait {v : View P} {due : Deadlines} {p : TaskPtr} {now millis : Time}
    (events : Bool) (maxEvents : ℤ) (hmillis : 0 ≤ millis) (ht : Timely due v.heap v.worker) :
    Timely (Function.update due p (now.toInt + millis.toInt))
      (v.heap.modify p (suspendTask events maxEvents))
      { v.worker with
        pc := .dispatch,
        timer := P.timers.insert v.worker.timer
          ⟨now + millis, (v.heap p).id, (v.heap p).version⟩ } := by
  intro q hq
  by_cases hqp : q = p
  · subst hqp
    rw [Function.update_self, Heap.modify_same]
    exact fun _ => .inr ⟨_, PriorityQueue.mem_insert.mpr (.inl rfl), rfl, rfl,
      time_add_le now hmillis⟩
  · rw [Function.update_of_ne hqp]
    exact TimelyAt.congr_heap (ht q hq) (Heap.modify_ne _ _ hqp)
      fun e he => PriorityQueue.mem_insert.mpr (.inr he)

section Step

variable {cfg : Config} {s t : State P} {a : Action} {l : List TaskPtr} {due : Deadlines}

theorem Timely.frame {due' : Deadlines} {i : ℕ} (hf : WorkerFrame s t i)
    (hdue : ∀ p ∈ (s.workers i).tasks, due' p = due p)
    (ht : Timely due s.heap (s.workers i)) : Timely due' t.heap (t.workers i) := by
  have hkeep : ∀ w : Worker P, w.tasks = (s.workers i).tasks → w.timer = (s.workers i).timer →
      Timely due' t.heap w := by
    intro w htasks htimer p hp
    rw [htasks] at hp
    rw [hdue p hp]
    exact TimelyAt.congr_heap (ht p hp) (hf.heap p hp) fun e he => htimer.symm ▸ he
  rcases hf.worker with hw | ⟨pc, hw, -, -⟩
  · rw [hw]
    exact hkeep _ rfl rfl
  · rw [hw]
    exact hkeep _ rfl rfl

theorem serverStep_timely (hst : serverStep cfg s a = some t) (ha : ¬ ReturnsSuspended a)
    (hi : Inv s l) (ht : ∀ i, Timely due s.heap (s.workers i)) (i : ℕ) :
    Timely (noteWait due s a) t.heap (t.workers i) := by
  rcases serverStep_frame hst hi i with ⟨act, v, rfl, hv, rfl⟩ | hframe
  · change Timely _ v.heap (Function.update s.workers i v.worker i)
    rw [Function.update_self]
    by_cases hwait : ∃ now millis events maxEvents,
        act = .task (.ewait now millis events maxEvents false)
    · obtain ⟨now, millis, events, maxEvents, rfl⟩ := hwait
      obtain ⟨p, hact, hruns, hmillis, rfl⟩ := workerStep_ewait hv
      have hact' : (s.workers i).active = some p := hact
      simp only [noteWait, hact']
      exact (ht i).ewait (v := s.view i) events maxEvents hmillis
    · have hnote : noteWait due s (.worker i act) = due := by
        unfold noteWait
        split
        · rename_i heq
          cases heq
          exact absurd ⟨_, _, _, _, rfl⟩ hwait
        · rfl
      obtain ⟨r, hr⟩ := hi.workers i
      rw [hnote]
      refine (workerStep_effect hv).timely (fun h => ha ?_)
        (fun now millis events maxEvents h => hwait ⟨now, millis, events, maxEvents, h⟩) hr
        (hi.hand_view i) (ht i)
      rw [h]
      rfl
  · exact (ht i).frame hframe fun p hp => noteWait_of_heap hst (hframe.heap p hp)

end Step

theorem timely_of_reach {cfg : Config} {x : State P × Deadlines}
    (h : (waitSystem P cfg).Reach (fun _ a => ¬ ReturnsSuspended a) x) (i : ℕ) :
    Timely x.2 x.1.heap (x.1.workers i) := by
  refine h.invariant (P := fun x => ∀ i, Timely x.2 x.1.heap (x.1.workers i))
    (fun x hx i => ?_) (fun x a y hr ht ha hst i => ?_) i
  · obtain ⟨⟨heap, -, hx⟩, -⟩ := hx
    rw [hx]
    intro p hp
    change p ∈ (workerCreate P cfg).tasks at hp
    rw [workerCreate_tasks] at hp
    cases hp
  · obtain ⟨t, hst', rfl⟩ := Option.map_eq_some_iff.mp hst
    have hr' : (serverSystem P cfg).Reach (fun _ a => ¬ ReturnsSuspended a) x.1 :=
      System.Reach.of_record hr
    obtain ⟨l, hi⟩ := inv_of_reach hr'
    exact serverStep_timely hst' ha hi ht i

/-! ### The tick -/

/-- The task waits, and is ready or has an entry that the timer loop is still to
take. -/
structure Overdue (v : View P) (p : TaskPtr) : Prop where
  mem : p ∈ v.worker.tasks
  mode : (v.heap p).mode = .suspended
  woken : (v.heap p).mark = true ∨
    v.worker.pc = .timers ∧ v.worker.TimedBy (v.heap p) v.worker.now.toInt

section Overdue

variable {cfg : Config} {v v' : View P} {p : TaskPtr} {r : List TaskPtr}

theorem Overdue.marked (h : Overdue v p) (hpc : v.worker.pc ≠ .timers) :
    (v.heap p).mark = true := h.woken.resolve_right fun ht => hpc ht.1

theorem Overdue.ready (h : Overdue v p) (hpc : v.worker.pc ≠ .timers)
    (hmem : p ∈ v'.worker.tasks) (hsame : (v.heap p).Same (v'.heap p))
    (hmark : (v.heap p).mark = true → (v'.heap p).mark = true) : Overdue v' p :=
  ⟨hmem, hsame.mode.trans h.mode, .inl (hmark (h.marked hpc))⟩

/-- An input that is resolved to a task makes it ready, and leaves the others alone. -/
theorem View.deliver_heap (hi : WorkerInv v.heap v.worker r) {target : Option (TaskPtr × Event)}
    (htarget : ∀ q ev, target = some (q, ev) → q ∈ v.worker.tasks) (p : TaskPtr) :
    (v.heap p).Same ((v.deliver target).heap p) ∧
      ((v.heap p).mark = true → ((v.deliver target).heap p).mark = true) ∧
      ∀ ev, target = some (p, ev) → ((v.deliver target).heap p).mark = true := by
  cases target with
  | none => exact ⟨.refl _, id, fun _ h => by cases h⟩
  | some target =>
    obtain ⟨q, ev⟩ := target
    obtain ⟨r', wk⟩ := View.pushed_woken hi (htarget q ev rfl) ev
    refine ⟨wk.sameAll p, fun hm => ?_, fun ev' h => ?_⟩
    · by_cases hpq : p = q
      · subst hpq
        exact wk.mark
      · exact (congrArg Task.mark (wk.others p hpq)).trans hm
    · cases h
      exact wk.mark

theorem Overdue.deliver {u : View P} (h : Overdue v p) (hpc : v.worker.pc ≠ .timers)
    (hheap : u.heap = v.heap) (htable : u.worker.table = v.worker.table)
    (hi : WorkerInv u.heap u.worker r) {target : Option (TaskPtr × Event)}
    (htarget : ∀ q ev, target = some (q, ev) → q ∈ u.worker.tasks) :
    Overdue (u.deliver target) p := by
  obtain ⟨hsame, hmark, -⟩ := View.deliver_heap hi htarget p
  rw [hheap] at hsame hmark
  refine h.ready hpc ?_ hsame hmark
  rw [Worker.tasks_congr (View.deliver_table ..), Worker.tasks_congr htable]
  exact h.mem

theorem Overdue.turn (h : Overdue v p) (ht : Turn cfg v v') (hi : WorkerInv v.heap v.worker r) :
    p ∈ (v.ran v').map Prod.fst ∨ Overdue v' p := by
  cases ht with
  | timer e timer hpc htakes hdue hpop =>
    have hi' : WorkerInv v.heap { v.worker with timer := timer } r := hi.same rfl rfl rfl
    have hres : ∀ q ev, resolve v.worker v.heap (.timer e) = some (q, ev) → q ∈ v.worker.tasks :=
      fun q ev => resolve_mem
    obtain ⟨hsame, hmark, htarget⟩ := View.deliver_heap
      (v := { v with worker := { v.worker with timer := timer } }) hi' hres p
    refine .inr ⟨?_, hsame.mode.trans h.mode, ?_⟩
    · rw [Worker.tasks_congr (View.deliver_table ..)]
      exact h.mem
    · rw [View.deliver_pc, View.deliver_now]
      refine h.woken.elim (fun hm => .inl (hmark hm)) fun ⟨_, htimed⟩ => ?_
      -- an entry that is not the task's own leaves it its entry
      by_cases hown : v.worker.lookup e.identifier = some p ∧ (v.heap p).version = e.version
      · refine .inl (htarget ⟨evTim, 0⟩ ?_)
        rw [resolve, hown.1, Option.bind_some, if_pos hown.2]
      · refine .inr ⟨hpc, ?_⟩
        have hkept := htimed.pop hi h.mem hpop fun hl hver => hown ⟨hl, hver⟩
        exact hkept.congr (fun e' he' => (View.deliver_timer ..).symm ▸ he') hsame.id hsame.version
  | timersDone hpc htakes hlate =>
    refine .inr ⟨h.mem, h.mode, .inl (h.woken.resolve_right ?_)⟩
    rintro ⟨-, e, he, -, -, hle⟩
    exact absurd (hlate e he) (not_lt.mpr (Int64.le_iff_toInt_le.mpr hle))
  | event ev batch hpc htakes hcons =>
    have hres : ∀ q ev', resolve v.worker v.heap (.event ev) = some (q, ev') → q ∈ v.worker.tasks :=
      fun q ev' => resolve_mem
    exact .inr (h.deliver (u := { v with worker := { v.worker with batch := batch } })
      (by rw [hpc]; decide) rfl rfl (hi.same rfl rfl rfl) hres)
  | message msg messages reloop hpc htakes hcons hreloop =>
    have hres : ∀ q ev, resolve v.worker v.heap (.message msg) = some (q, ev) →
        q ∈ v.worker.tasks :=
      fun q ev => resolve_mem
    exact .inr (h.deliver
      (u := { v with messages := messages, worker := { v.worker with reloop := reloop } })
      (by rw [hpc]; decide) rfl rfl (hi.same rfl rfl rfl) hres)
  | eventsDone hpc | messagesDone hpc | take _ _ hpc | admitDone hpc =>
    exact .inr (h.ready (by rw [hpc]; decide) h.mem (.refl _) id)
  | insert q table hpc htakes hins =>
    have hperm : (Worker.tasks { v.worker with table := table }).Perm (q :: v.worker.tasks) :=
      Worker.tasks_insert hins
    refine .inr (h.ready (by rw [hpc]; simp)
      (hperm.symm.subset (List.mem_cons_of_mem _ h.mem))
      (readySetPush_relinked v.heap v.worker.ready q p).same fun hm => ?_)
    exact (readySetPush_mark ..).trans (by rw [hm, Bool.or_true])
  | done pc heap ready hpc htakes hpop hpc' =>
    have hmem := hi.marked p h.mem (h.marked (by rw [hpc]; decide))
    rw [readySetPop_none hi.ready hpop] at hmem
    cases hmem
  | run q heap ready f hpc htakes hpop hf =>
    obtain ⟨-, -, -, -, -, hothers⟩ := readySetPop_some hi.ready hpop
    by_cases hpq : p = q
    · refine .inl ?_
      simp only [View.ran, hpc, List.map_cons, List.map_nil, List.mem_singleton]
      exact hpq
    · have hheap : (heap.modify q f) p = v.heap p :=
        (Heap.modify_ne _ _ hpq).trans (hothers p hpq)
      refine .inr (h.ready (by rw [hpc]; decide) h.mem ?_ fun hm => ?_)
      · exact hheap ▸ .refl _
      · exact (congrArg Task.mark hheap).trans hm

theorem Overdue.taskRan {q : TaskPtr} (h : Overdue v p) (hi : WorkerInv v.heap v.worker r)
    (hpc : v.worker.pc = .running q) (hr : TaskRan v v' q) : Overdue v' p := by
  have hmark := h.marked (by rw [hpc]; simp)
  have hpq : p ≠ q := by
    rintro rfl
    exact (hi.running p hpc).2 (hi.marked p h.mem hmark)
  have hheap := hr.heap p hpq
  exact ⟨hr.kept p h.mem hpq, by rw [hheap, h.mode], .inl (by rw [hheap, hmark])⟩

theorem Overdue.frame {s t : State P} {i : ℕ} (h : Overdue (s.view i) p) (hf : WorkerFrame s t i) :
    Overdue (t.view i) p := by
  have hheap : (t.view i).heap p = (s.view i).heap p := hf.heap p h.mem
  rcases hf.worker with hw | ⟨pc, hw, -, hold⟩
  · have hw' : (t.view i).worker = (s.view i).worker := hw
    exact ⟨by rw [hw']; exact h.mem, by rw [hheap, h.mode], by rw [hheap, hw']; exact h.woken⟩
  · have hmem : p ∈ (t.workers i).tasks := by
      rw [hw]
      exact h.mem
    refine h.ready (fun hpc => ?_) hmem (hheap ▸ .refl _) fun hm => by rw [hheap, hm]
    have hpc' : (s.workers i).pc = .timers := hpc
    rcases hold with ⟨q, hq⟩ | hq <;> rw [hq] at hpc' <;> cases hpc'

end Overdue

/-- Every step of a tick runs the task or leaves it overdue. -/
theorem serverStep_overdue {cfg : Config} {s t : State P} {a : Action} {i : ℕ} {log : TickLog}
    {p : TaskPtr} {l : List TaskPtr} (hst : serverStep cfg s a = some t) (ha : WithinTick i a)
    (hi : Inv s l) (h : p ∈ log.tasks ∨ Overdue (s.view i) p) :
    p ∈ (noteTick i log s a t).tasks ∨ Overdue (t.view i) p := by
  obtain ⟨r, hr⟩ := hi.workers i
  by_cases hown : ∃ act, a = .worker i act
  · obtain ⟨act, rfl⟩ := hown
    obtain ⟨-, -, -, v, hv, rfl⟩ := serverStep_worker hst
    have hview : (s.setView i v).view i = v := s.view_setView i v
    cases act with
    | begin polled now batch => exact absurd rfl (ha polled now batch)
    | turn =>
      have htasks : (noteTick i log s (.worker i .turn) (s.setView i v)).tasks =
          log.tasks ++ ((s.view i).ran v).map Prod.fst := by
        simp only [noteTick, if_true, hview, TickLog.tasks, List.map_append]
      rw [htasks, hview, List.mem_append]
      rcases h with h | h
      · exact .inl (.inl h)
      · exact (h.turn (workerTurn_turn hv) hr).imp_left .inr
    | task act =>
      obtain ⟨q, hpc, hran⟩ := workerStep_ran hv
      rw [noteTick_other (by simp), hview]
      exact h.imp_right fun h => h.taskRan hr hpc hran
  · have hother : ∀ act, a ≠ .worker i act := fun act heq => hown ⟨act, heq⟩
    rw [noteTick_other (hother .turn)]
    refine h.imp_right fun h => h.frame ((serverStep_frame hst hi i).resolve_left ?_)
    rintro ⟨act, v, heq, -⟩
    exact hother act heq

/-- A tick that has ended has run every task that was overdue at its head. -/
theorem overdue_runs {cfg : Config} {t t' : State P} {i : ℕ} {log : TickLog} {p : TaskPtr}
    (ht : (serverSystem P cfg).Reachable t) (hp : Overdue (t.view i) p)
    (htick : (tickSystem P cfg i t).Reach (fun _ a => WithinTick i a) (t', log))
    (hend : (t'.workers i).pc = .start ∨ (t'.workers i).pc = .exited) : p ∈ log.tasks := by
  have hinv : p ∈ log.tasks ∨ Overdue (t'.view i) p := by
    refine System.Reach.invariant (P := fun x => p ∈ x.2.tasks ∨ Overdue (x.1.view i) p)
      (fun x hx => ?_) (fun x a y hr hx ha hst => ?_) htick
    · obtain ⟨x, log⟩ := x
      obtain ⟨rfl, -⟩ := hx
      exact .inr hp
    · obtain ⟨u, hu, rfl⟩ := Option.map_eq_some_iff.mp hst
      obtain ⟨l, hi⟩ := inv_of_reach (tick_reachable ht hr)
      exact serverStep_overdue hu ha hi hx
  refine hinv.resolve_right fun hover => ?_
  obtain ⟨l, hi⟩ := inv_of_reach (tick_reachable ht htick)
  obtain ⟨r, hr⟩ := hi.workers i
  obtain rfl := hr.drained hend
  have hne : (t'.view i).worker.pc ≠ .timers := fun hpc => by
    have hpc' : (t'.workers i).pc = .timers := hpc
    rw [hpc'] at hend
    rcases hend with hend | hend <;> cases hend
  exact List.not_mem_nil (hr.marked p hover.mem (hover.marked hne))

/-- In every run in which no callback returns the value of a yield, of a server
with a worker timeout that is not negative, in each tick and for each task in the
worker's table: the worker polls no longer than until the deadline of the wait
that the task is blocked in, and not at all when that has passed, and a tick whose
clock has reached the deadline has run the task when it ends. -/
theorem deadlines_met (P : Platform) (cfg : Config) (hw : 0 ≤ cfg.workerTimeout)
    {x : State P × Deadlines} (h : (waitSystem P cfg).Reach (fun _ a => ¬ ReturnsSuspended a) x)
    {i : ℕ} {polled now : Time} {batch : List Event} {t : State P} (hpolled : 0 ≤ polled)
    (hbegin : serverStep cfg x.1 (.worker i (.begin polled now batch)) = some t) {p : TaskPtr}
    (hp : p ∈ (x.1.workers i).tasks) :
    (0 ≤ (t.workers i).timeout ∧ (t.workers i).timeout ≤ cfg.workerTimeout ∧
      (t.workers i).timeout.toInt ≤ max 0 (x.2 p - polled.toInt)) ∧
    ∀ t' log, x.2 p ≤ now.toInt →
      (tickSystem P cfg i t).Reach (fun _ a => WithinTick i a) (t', log) →
      (t'.workers i).pc = .start ∨ (t'.workers i).pc = .exited → p ∈ log.tasks := by
  have hreach : (serverSystem P cfg).Reach (fun _ a => ¬ ReturnsSuspended a) x.1 :=
    System.Reach.of_record h
  obtain ⟨hpc, hview⟩ := serverStep_begin hbegin
  obtain ⟨l, hi⟩ := inv_of_reach hreach
  obtain ⟨r, hr⟩ := hi.workers i
  obtain rfl := hr.drained (.inl hpc)
  have hmark : ¬ (x.1.heap p).mark = true := fun hm => List.not_mem_nil (hr.marked p hp hm)
  have hmode : (x.1.heap p).mode = .suspended := by
    cases (suspension_of_reach hreach).tasks i p hp with
    | starts _ hm => exact absurd hm hmark
    | runs _ hrun => cases hpc.symm.trans hrun
    | waits hm _ => exact hm
  have htimed := (timely_of_reach h i p hp hmode).resolve_left hmark
  have htimeout : (t.workers i).timeout =
      pollTimeout cfg.workerTimeout (x.1.workers i).timer polled :=
    congrArg (fun v => v.worker.timeout) hview
  refine ⟨htimeout ▸ pollTimeout_le htimed hw hpolled, ?_⟩
  intro t' log hdue htick hend
  have ht : (serverSystem P cfg).Reachable t := by
    have hst : (serverSystem P cfg).step x.1 (.worker i (.begin polled now batch)) = some t :=
      hbegin
    exact (hreach.mono fun _ _ _ => trivial).step trivial hst
  refine overdue_runs ht ?_ htick hend
  obtain ⟨e, he, hid, hver, hle⟩ := htimed
  rw [hview]
  exact ⟨hp, hmode, .inr ⟨rfl, e, he, hid, hver, hle.trans hdue⟩⟩

/-- The task of a connection waits for ten milliseconds, and the tick that polls
four milliseconds later and reads the clock at twenty runs it. -/
theorem deadlines_met_resumed : ∃ (due : ℤ) (t : State Platform.lists) (log : TickLog),
    due = 10 ∧ (t.workers 1).timeout.toInt ≤ max 0 (due - 4) ∧ 1 ∈ log.tasks := by
  have hrun : (((waitSystem Platform.lists twoWorkers).checkedRun
      (fun _ a => ¬ ReturnsSuspended a) (serverCreate _ twoWorkers zeroHeap, fun _ => 0)
      (.acceptStep 0 :: acceptOne ++ tickStart 1 ++
        [.worker 1 (.task (.ewait 0 10 true 4 false)), .worker 1 .turn])).bind fun x =>
      (serverStep twoWorkers x.1 (.worker 1 (.begin 4 20 []))).bind fun t =>
      ((tickSystem Platform.lists twoWorkers 1 t).checkedRun (fun _ a => WithinTick 1 a)
        (t, ⟨[], []⟩) (List.replicate 6 (.worker 1 .turn) ++
          [.worker 1 (.task (.ewait 20 10 true 4 false)), .worker 1 .turn])).map fun y =>
        ((x.1.workers 1).tasks, x.2 1, (y.1.workers 1).pc)) = some ([1], 10, .start) := rfl
  obtain ⟨x, hx, hrun⟩ := Option.bind_eq_some_iff.mp hrun
  obtain ⟨t, ht, hrun⟩ := Option.bind_eq_some_iff.mp hrun
  obtain ⟨y, hy, hall⟩ := Option.map_eq_some_iff.mp hrun
  simp only [Prod.mk.injEq] at hall
  obtain ⟨htasks, hdue, hend⟩ := hall
  have hmem : 1 ∈ (x.1.workers 1).tasks := by simp [htasks]
  obtain ⟨hpoll, htick⟩ := deadlines_met Platform.lists twoWorkers (by decide)
    (System.Reach.checkedRun (.init ⟨⟨zeroHeap, zeroHeap_fresh, rfl⟩, rfl⟩) _ hx)
    (by decide : (0 : Time) ≤ 4) ht hmem
  have hinit : (tickSystem Platform.lists twoWorkers 1 t).initial (t, ⟨[], []⟩) := ⟨rfl, rfl⟩
  refine ⟨x.2 1, t, y.2, hdue, hpoll.2.2, ?_⟩
  exact htick y.1 y.2 (by rw [hdue]; decide) (System.Reach.checkedRun (.init hinit) _ hy)
    (.inl hend)

end Lawd

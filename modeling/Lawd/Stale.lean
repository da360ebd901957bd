import Lawd.Deadlines

/-!
# Stale timer entries

An entry of the timer is stale when no task of the table fits it any more. That
happens when a task runs again before the entry of its wait has expired. The
timer loop reports each stale entry to `on_error`, set or not.
-/
namespace Lawd

open Library

variable {P : Platform}

/-- Each entry of the timer is that of a wait that still lasts. -/
def Live (heap : Heap) (w : Worker P) : Prop :=
  ∀ e ∈ P.timers.entries w.timer, ∃ p ∈ w.tasks, (heap p).callee = .yielded ∧ e.Fits (heap p)

/-- The step does not run a task while an entry that fits the task is in the timer. -/
def RunsExpired (s : State P) : Action → Prop
  | .worker i .turn => (s.workers i).pc = .dispatch →
    ∀ p ∈ (readySetPop s.heap (s.workers i).ready).2.2,
      ∀ e ∈ P.timers.entries (s.workers i).timer, ¬ e.Fits (s.heap p)
  | _ => True

/-- The entries were there before, and the waiting tasks still wait. -/
theorem Live.congr {heap heap' : Heap} {w w' : Worker P} (h : Live heap w)
    (htimer : ∀ e ∈ P.timers.entries w'.timer, e ∈ P.timers.entries w.timer)
    (hheap : ∀ p ∈ w.tasks, (heap p).callee = .yielded →
      (∃ e ∈ P.timers.entries w'.timer, e.Fits (heap p)) →
      p ∈ w'.tasks ∧ (heap' p).callee = .yielded ∧ (heap' p).id = (heap p).id ∧
        (heap' p).version = (heap p).version) : Live heap' w' := by
  intro e he
  obtain ⟨p, hp, hyield, hfits⟩ := h e (htimer e he)
  obtain ⟨hp', hyield', hid, hversion⟩ := hheap p hp hyield ⟨e, he, hfits⟩
  exact ⟨p, hp', hyield', hfits.congr hid.symm hversion.symm⟩

theorem Live.same {heap : Heap} {w w' : Worker P} (h : Live heap w)
    (htimer : ∀ e ∈ P.timers.entries w'.timer, e ∈ P.timers.entries w.timer)
    (htasks : ∀ p ∈ w.tasks, p ∈ w'.tasks) : Live heap w' :=
  h.congr htimer fun p hp hy _ => ⟨htasks p hp, hy, rfl, rfl⟩

/-- Each effect but a run before its time leaves live entries in the timer. -/
theorem WorkerEffect.live {cfg : Config} {v v' : View P} {a : WorkerAct} {r : List TaskPtr}
    (h : WorkerEffect cfg v a v') (hi : WorkerInv v.heap v.worker r)
    (hrun : v.worker.pc = .dispatch → ∀ p ∈ (readySetPop v.heap v.worker.ready).2.2,
      ∀ e ∈ P.timers.entries v.worker.timer, ¬ e.Fits (v.heap p))
    (hl : Live v.heap v.worker) : Live v'.heap v'.worker := by
  cases h with
  | control w messages hpc hpc' hk hb =>
    exact hl.same (fun e he => hk.timer ▸ he) fun p hp => (Worker.tasks_congr hk.table).symm ▸ hp
  | stale e timer hpc hpop hst =>
    exact hl.same (fun e' he => (P.timers.pop_entries _ _ _ hpop).symm.subset
      (List.mem_cons_of_mem _ he)) fun _ hp => hp
  | expired e timer q ev hpc hpop hlook hver =>
    refine hl.congr (fun e' he => (P.timers.pop_entries _ _ _ hpop).symm.subset
      (List.mem_cons_of_mem _ he)) fun p hp hy _ => ⟨hp, (Heap.pushed_same ..).callee.trans hy, ?_⟩
    exact ⟨(Heap.pushed_same ..).id, (Heap.pushed_same ..).version⟩
  | woken w messages id q ev hpc hpc' hk hb hlook =>
    refine hl.congr (fun e he => hk.timer ▸ he) fun p hp hy _ =>
      ⟨(Worker.tasks_congr hk.table).symm ▸ hp, (Heap.pushed_same ..).callee.trans hy, ?_⟩
    exact ⟨(Heap.pushed_same ..).id, (Heap.pushed_same ..).version⟩
  | take q incoming hpc hsize hcons => exact hl.same (fun _ he => he) fun _ hp => hp
  | insert q table hpc hins =>
    have hperm : (Worker.tasks { v.worker with table := table }).Perm (q :: v.worker.tasks) :=
      Worker.tasks_insert hins
    refine hl.congr (fun _ he => he) fun p hp hy _ => ?_
    have hsame := (readySetPush_relinked v.heap v.worker.ready q p).same
    exact ⟨hperm.symm.subset (List.mem_cons_of_mem _ hp), hsame.callee.trans hy, hsame.id,
      hsame.version⟩
  | tickDone pc heap ready hpc hpop hpc' => exact hl.same (fun _ he => he) fun _ hp => hp
  | run q heap ready f hpc hpop hf =>
    refine hl.congr (fun _ he => he) fun p hp hy hfits => ?_
    obtain ⟨e, he, hfits⟩ := hfits
    have hpq : p ≠ q := by
      rintro rfl
      exact hrun hpc p (by rw [hpop]; rfl) e he hfits
    have hsame := (readySetPop_relinked hpop p).same
    simp only [Heap.modify_ne _ _ hpq]
    exact ⟨hp, hsame.callee.trans hy, hsame.id, hsame.version⟩
  | ectl q fd op flags events data fails interest hr hact ha' hint =>
    exact hl.same (fun _ he => he) fun _ hp => hp
  | close q interest hr hint => exact hl.same (fun _ he => he) fun _ hp => hp
  | unchanged q hr => exact hl
  | ewait q now millis events maxEvents hr ha' =>
    have hq := (hi.running q hr.1).1
    intro e he
    rcases PriorityQueue.mem_insert.mp he with rfl | he
    · refine ⟨q, hq, ?_, ?_, ?_⟩
      all_goals
        dsimp only
        rw [Heap.modify_same]
        rfl
    · obtain ⟨p, hp, hy, hfits⟩ := hl e he
      have hpq : p ≠ q := by
        rintro rfl
        cases hy.symm.trans hr.2.1
      refine ⟨p, hp, ?_⟩
      simp only [Heap.modify_ne _ _ hpq]
      exact ⟨hy, hfits⟩
  | enter q hr he ha' => exact hl.same (fun _ he => he) fun _ hp => hp
  | leave q e hr he hq => exact hl.same (fun _ he => he) fun _ hp => hp
  | finish q table hr he hrem =>
    have hperm : v.worker.tasks.Perm (q :: Worker.tasks { v.worker with table := table }) :=
      Worker.tasks_remove _ hrem
    refine hl.congr (fun _ he => he) fun p hp hy _ => ?_
    have hpq : p ≠ q := by
      rintro rfl
      cases hy.symm.trans hr.2.1
    simp only [Heap.modify_ne _ _ hpq]
    exact ⟨(List.mem_cons.mp (hperm.subset hp)).resolve_left hpq, hy, trivial, trivial⟩
  | mistaken q hr ha' =>
    refine hl.congr (fun _ he => he) fun p hp hy _ => ?_
    have hpq : p ≠ q := by
      rintro rfl
      cases hy.symm.trans hr.2.1
    simp only [Heap.modify_ne _ _ hpq]
    exact ⟨hp, hy, trivial, trivial⟩

theorem Live.frame {s t : State P} {i : ℕ} (hf : WorkerFrame s t i)
    (hl : Live s.heap (s.workers i)) : Live t.heap (t.workers i) := by
  have hkeep : ∀ w : Worker P, w.tasks = (s.workers i).tasks → w.timer = (s.workers i).timer →
      Live t.heap w := by
    intro w htasks htimer
    refine hl.congr (fun e he => htimer ▸ he) fun p hp hy _ => ?_
    rw [htasks, hf.heap p hp]
    exact ⟨hp, hy, rfl, rfl⟩
  rcases hf.worker with hw | ⟨pc, hw, -, -⟩
  · rw [hw]
    exact hkeep _ rfl rfl
  · rw [hw]
    exact hkeep _ rfl rfl

theorem live_of_reach {cfg : Config} {s : State P} (h : (serverSystem P cfg).Reach RunsExpired s) :
    ∀ i, Live s.heap (s.workers i) := by
  refine worker_invariant (Q := Live) (fun heap e he => ?_) (fun _ _ _ hf hl => hl.frame hf)
    (fun s i act v hs ha hst hl => ?_) h
  · change e ∈ P.timers.entries P.timers.empty at he
    rw [P.timers.entries_empty] at he
    cases he
  · obtain ⟨l, hi⟩ := inv_of_reach hs
    obtain ⟨r, hr⟩ := hi.workers i
    refine (workerStep_effect hst).live hr (fun hpc => ?_) hl
    obtain rfl := workerStep_turn hst (by rw [hpc]; simp) (by rw [hpc]; simp)
    exact ha hpc

/-- The next turn of the timer loop calls `on_error`: the entry that it takes is
not resolved to a task. -/
def timerReports (v : View P) : Bool :=
  match P.timers.peek v.worker.timer with
  | none => false
  | some e =>
    if e.expiration > v.worker.now then false
    else
      match v.worker.lookup e.identifier with
      | none => true
      | some p => (v.heap p).version ≠ e.version

/-- The timer loop gets stuck at an absent `on_error`, or at the assertion of a push. -/
theorem timerTurn_none {cfg : Config} {v : View P} (h : timerTurn cfg v = none) :
    timerReports v = true ∧ cfg.onError = false ∨
      ∃ p, timerTarget v = some p ∧ ¬ (v.heap p).PushLegal := by
  have hcall : ∀ {u : View P}, callOnError cfg u = none → cfg.onError = false := by
    intro u hu
    simpa [callOnError] using hu
  unfold timerTurn at h
  unfold timerReports timerTarget
  cases hpeek : P.timers.peek v.worker.timer with
  | none =>
    rw [hpeek] at h
    cases h
  | some e =>
    rw [hpeek] at h
    dsimp only at h
    split_ifs at h with hlate
    obtain ⟨timer, hpop, -⟩ := PriorityQueue.pop_of_peek hpeek
    simp only [hpop] at h
    simp only [if_neg hlate]
    have hlookup : Worker.lookup { v.worker with timer := timer } e.identifier =
        v.worker.lookup e.identifier := rfl
    rw [hlookup] at h
    cases hlook : v.worker.lookup e.identifier with
    | none =>
      rw [hlook] at h
      exact .inl ⟨rfl, hcall h⟩
    | some p =>
      rw [hlook] at h
      dsimp only at h ⊢
      split_ifs at h with hver
      · exact .inl ⟨decide_eq_true hver, hcall h⟩
      · rw [View.wake_eq] at h
        split_ifs at h with hlegal
        exact .inr ⟨p, if_neg hver, hlegal⟩

theorem timerReports_live {v : View P} {r : List TaskPtr} (hi : WorkerInv v.heap v.worker r)
    (hl : Live v.heap v.worker) : timerReports v = false := by
  unfold timerReports
  split
  · rfl
  · rename_i e hpeek
    split_ifs
    · rfl
    · obtain ⟨timer, -, hperm⟩ := PriorityQueue.pop_of_peek hpeek
      obtain ⟨p, hp, -, hid, hver⟩ := hl e (hperm.symm.subset (List.mem_cons.mpr (.inl rfl)))
      have hlook : v.worker.lookup e.identifier = some p := hi.lookup_of_low hp hid
      simp only [hlook, hver, ne_eq, not_true_eq_false, decide_false]

/-- In every run in which `on_error` is set, or each task runs again only when
the entry of its wait has expired, the timer loop never calls an absent
`on_error`: all it may get stuck at is the assertion of a push. -/
theorem on_error_present (P : Platform) (cfg : Config) {s : State P}
    (h : (serverSystem P cfg).Reach (fun s a => cfg.onError = true ∨ RunsExpired s a) s)
    (i : ℕ) : (timerReports (s.view i) = true → cfg.onError = true) ∧
      (timerTurn cfg (s.view i) = none →
        ∃ p, timerTarget (s.view i) = some p ∧ ¬ (s.heap p).PushLegal) := by
  have hset : timerReports (s.view i) = true → cfg.onError = true := by
    intro hreports
    by_contra hset
    obtain ⟨l, hi⟩ := inv_of_reach h
    obtain ⟨r, hr⟩ := hi.workers i
    have hlive := live_of_reach (h.mono fun _ _ ha => ha.resolve_left hset) i
    cases hreports.symm.trans (timerReports_live (v := s.view i) hr hlive)
  refine ⟨hset, fun hnone => (timerTurn_none hnone).resolve_left ?_⟩
  rintro ⟨hreports, habsent⟩
  cases habsent.symm.trans (hset hreports)

/-- `law_server_sanity`, with pipes of a page. -/
def serverSanity : Config := ⟨1, 4, false, 512, 5000⟩

/-- A task waits for ten milliseconds, is woken by a message and waits again. Its
first entry crashes the server ten milliseconds later. -/
theorem stale_entry_crashes : ∃ s, (serverSystem Platform.lists serverSanity).Reachable s ∧
    (s.workers 0).pc = .timers ∧ timerReports (s.view 0) = true ∧
      serverSanity.onError = false ∧ timerTurn serverSanity (s.view 0) = none := by
  have hrun : ((serverSystem Platform.lists serverSanity).run (serverCreate _ serverSanity zeroHeap)
      (spawnOne ++ tickOne 0 ++
        [.worker 0 (.task (.ewait 0 10 true 4 false)), .worker 0 .turn, .wakeup 0 1,
          .worker 0 (.begin 1 1 [])] ++ List.replicate 6 (.worker 0 .turn) ++
        [.worker 0 (.task (.ewait 1 5000 true 4 false)), .worker 0 .turn,
          .worker 0 (.begin 10 10 [])])).map
      (fun s => ((s.workers 0).pc, timerReports (s.view 0),
        (timerTurn serverSanity (s.view 0)).isNone)) = some (.timers, true, true) := by decide
  obtain ⟨s, hs, hall⟩ := Option.map_eq_some_iff.mp hrun
  obtain ⟨hpc, hreports, hnone⟩ : _ ∧ _ ∧ _ := by simpa only [Prod.mk.injEq] using hall
  exact ⟨s, System.Reachable.run (.init ⟨zeroHeap, zeroHeap_fresh, rfl⟩) _ hs, hpc, hreports, rfl,
    Option.isNone_iff_eq_none.mp hnone⟩

instance (s : State P) : (a : Action) → Decidable (RunsExpired s a)
  | .worker i .turn => inferInstanceAs (Decidable ((s.workers i).pc = .dispatch →
      ∀ p ∈ (readySetPop s.heap (s.workers i).ready).2.2,
        ∀ e ∈ P.timers.entries (s.workers i).timer, ¬ e.Fits (s.heap p)))
  | .worker _ (.begin ..) | .worker _ (.task _) => .isTrue trivial
  | .pool _ | .spawn _ _ _ | .spawnStep _ _ | .accept _ | .acceptStep _ | .release _
  | .wakeup _ _ | .stop => .isTrue trivial

/-- A task whose waits are over on time never needs `on_error`. -/
theorem on_error_present_sanity : ∃ s : State Platform.lists,
    (s.workers 0).pc = .timers ∧ timerTarget (s.view 0) = some 3 ∧
      (timerTurn serverSanity (s.view 0)).isSome = true := by
  have hrun : ((serverSystem Platform.lists serverSanity).checkedRun
      (fun s a => serverSanity.onError = true ∨ RunsExpired s a)
      (serverCreate _ serverSanity zeroHeap)
      (spawnOne ++ tickOne 0 ++ [.worker 0 (.task (.ewait 0 10 true 4 false)), .worker 0 .turn,
          .worker 0 (.begin 10 10 [])])).map
      (fun s => ((s.workers 0).pc, timerTarget (s.view 0), decide (s.heap 3).PushLegal)) =
      some (.timers, some 3, true) := by decide
  obtain ⟨s, hs, hall⟩ := Option.map_eq_some_iff.mp hrun
  obtain ⟨hpc, htarget, hlegal⟩ : _ ∧ _ ∧ _ := by simpa only [Prod.mk.injEq] using hall
  refine ⟨s, hpc, htarget, Option.isSome_iff_ne_none.mpr fun hnone => ?_⟩
  obtain ⟨p, hp, hillegal⟩ := (on_error_present Platform.lists serverSanity
    (System.Reach.checkedRun (.init ⟨zeroHeap, zeroHeap_fresh, rfl⟩) _ hs) 0).2 hnone
  obtain rfl := Option.some.inj (htarget.symm.trans hp)
  exact hillegal (of_decide_eq_true hlegal)

end Lawd

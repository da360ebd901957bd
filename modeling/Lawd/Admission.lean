import Lawd.Events

/-!
# Admission and the pools of the HTTP server

The pools of a worker start with as many elements as the worker may have tasks,
and a task takes one element of each while it is inside `law_hts_entry`. The
admission loop reads a task when the table holds at most that many, so it
admits one more than the pools can serve. As long as no worker reads a task
when its table is full, every table stays within the limit and every pop
returns an element.
-/
namespace Lawd

open Library

variable {P : Platform}

/-- The step does not read a task from the pipe of a worker whose table holds
`worker_tasks` tasks already. -/
def WithinLimit (cfg : Config) (s : State P) : Action → Prop
  | .worker i .turn => (s.workers i).pc = .admitting → s.incoming i ≠ [] →
      tableSize P.tables (s.workers i).table < cfg.workerTasks
  | _ => True

/-- What the HTTP server relies on: the table is within its limit, what
`law_hts_entry` has popped is there, and what it would pop next is there. -/
structure Served (cfg : Config) (s : State P) (i : ℕ) : Prop where
  size : tableSize P.tables (s.workers i).table ≤ cfg.workerTasks
  popped : ∀ e ∈ (s.workers i).entries, e.asserted = true
  pops : ∀ p, (s.view i).Runs p → ¬ (s.workers i).Entered p →
    (htsEntryPop (s.workers i).group p).1.asserted = true

/-- Each pool has `n` elements. -/
structure HtsPoolGroup.Holds (grp : HtsPoolGroup) (n : ℕ) : Prop where
  input : grp.inPool.length = n
  output : grp.outPool.length = n
  heap : grp.heapPool.length = n
  stack : grp.stackPool.length = n

theorem htsPoolGroupCreate_holds (n : ℕ) : (htsPoolGroupCreate n).Holds n := by
  constructor <;> simp [htsPoolGroupCreate]

theorem head_isSome_of_length {l : List ℕ} {n : ℕ} (h : l.length = n + 1) : l.head?.isSome := by
  cases l with
  | nil => simp at h
  | cons a l => rfl

theorem htsEntryPop_spec {grp : HtsPoolGroup} {n : ℕ} (h : grp.Holds (n + 1)) (p : TaskPtr) :
    (htsEntryPop grp p).1.asserted = true ∧ (htsEntryPop grp p).1.task = p ∧
      (htsEntryPop grp p).2.Holds n := by
  refine ⟨?_, rfl, ?_, ?_, ?_, ?_⟩
  · simp only [HtsEntry.asserted, htsEntryPop, head_isSome_of_length h.input,
      head_isSome_of_length h.output, head_isSome_of_length h.heap,
      head_isSome_of_length h.stack, Bool.and_self]
  · simp [htsEntryPop, h.input]
  · simp [htsEntryPop, h.output]
  · simp [htsEntryPop, h.heap]
  · simp [htsEntryPop, h.stack]

theorem htsEntryPush_holds {grp : HtsPoolGroup} {n : ℕ} (h : grp.Holds n) {e : HtsEntry}
    (he : e.asserted = true) : (htsEntryPush grp e).Holds (n + 1) := by
  have hlen : ∀ {o : Option ℕ}, o.isSome = true → o.toList.length = 1 := fun ho => by
    obtain ⟨a, rfl⟩ := Option.isSome_iff_exists.mp ho
    rfl
  simp only [HtsEntry.asserted, Bool.and_eq_true] at he
  obtain ⟨⟨⟨hin, hout⟩, hheap⟩, hstack⟩ := he
  constructor
  · rw [htsEntryPush, List.length_append, hlen hin, h.input, Nat.add_comm]
  · rw [htsEntryPush, List.length_append, hlen hout, h.output, Nat.add_comm]
  · rw [htsEntryPush, List.length_append, hlen hheap, h.heap, Nat.add_comm]
  · rw [htsEntryPush, List.length_append, hlen hstack, h.stack, Nat.add_comm]

/-- The pools of a worker against its table: what is not in the pools is with
tasks of the table, one element of each pool with each. -/
structure LimitOk (limit : ℕ) (w : Worker P) : Prop where
  size : w.tasks.length ≤ limit
  admitted : ∀ p, w.pc = .admitted p → w.tasks.length < limit
  group : ∃ n, w.group.Holds n ∧ n + w.entries.length = limit
  nodup : (w.entries.map HtsEntry.task).Nodup
  entered : ∀ e ∈ w.entries, e.task ∈ w.tasks
  popped : ∀ e ∈ w.entries, e.asserted = true

/-- Every task of the table outside `law_hts_entry` finds an element in each pool. -/
theorem LimitOk.spare {limit : ℕ} {w : Worker P} (h : LimitOk limit w) {p : TaskPtr}
    (hp : p ∈ w.tasks) (he : ¬ w.Entered p) :
    ∃ n, w.group.Holds (n + 1) ∧ n + 1 + w.entries.length = limit := by
  obtain ⟨n, hn, hsum⟩ := h.group
  have hnd : (p :: w.entries.map HtsEntry.task).Nodup := by
    refine List.nodup_cons.mpr ⟨fun hmem => he ?_, h.nodup⟩
    obtain ⟨e, he', rfl⟩ := List.mem_map.mp hmem
    exact ⟨e, he', rfl⟩
  have hsub : p :: w.entries.map HtsEntry.task ⊆ w.tasks := by
    intro q hq
    rcases List.mem_cons.mp hq with rfl | hq
    · exact hp
    · obtain ⟨e, he', rfl⟩ := List.mem_map.mp hq
      exact h.entered e he'
  have hlen := (List.subperm_of_subset hnd hsub).length_le
  have hsize := h.size
  simp only [List.length_cons, List.length_map] at hlen
  cases n with
  | zero => omega
  | succ n => exact ⟨n, hn, hsum⟩

/-- A worker whose table, pools and entries did not change. -/
theorem LimitOk.same {limit : ℕ} {w w' : Worker P} (h : LimitOk limit w)
    (htable : w'.table = w.table) (hgroup : w'.group = w.group) (hentries : w'.entries = w.entries)
    (hadm : ∀ p, w'.pc = .admitted p → w.tasks.length < limit) : LimitOk limit w' where
  size := by rw [Worker.tasks_congr htable]; exact h.size
  admitted p hp := by rw [Worker.tasks_congr htable]; exact hadm p hp
  group := by rw [hgroup, hentries]; exact h.group
  nodup := by rw [hentries]; exact h.nodup
  entered := by rw [hentries, Worker.tasks_congr htable]; exact h.entered
  popped := by rw [hentries]; exact h.popped

/-- Each effect of a worker that does not take a task over the limit keeps its
pools in step with its table. -/
theorem WorkerEffect.limitOk {cfg : Config} {v v' : View P} {a : WorkerAct} {r : List TaskPtr}
    {limit : ℕ} (h : WorkerEffect cfg v a v') (hi : WorkerInv v.heap v.worker r)
    (ho : LimitOk limit v.worker)
    (htake : v.worker.pc = .admitting → v.incoming ≠ [] →
      tableSize P.tables v.worker.table < limit) : LimitOk limit v'.worker := by
  have hsame : ∀ {w : Worker P}, w.table = v.worker.table → w.group = v.worker.group →
      w.entries = v.worker.entries → (∀ p, w.pc ≠ .admitted p) → LimitOk limit w :=
    fun ht hg he hpc => ho.same ht hg he fun p hp => absurd hp (hpc p)
  have hruns : ∀ {p : TaskPtr}, v.Runs p → ∀ q, v.worker.pc ≠ .admitted q := fun hr q => by
    rw [hr.1]
    simp
  cases h with
  | control w messages hpc hpc' hk hb =>
    refine hsame hk.table hk.group hk.entries fun p hp => ?_
    rw [hp] at hpc'
    cases hpc'
  | stale e timer hpc hpop hst => exact ho.same rfl rfl rfl ho.admitted
  | expired e timer p ev hpc hpop hlook hver => exact ho.same rfl rfl rfl ho.admitted
  | woken w messages id p ev hpc hpc' hk hb hlook =>
    exact ho.same hk.table hk.group hk.entries fun q hq => ho.admitted q (hpc' ▸ hq)
  | take p incoming hpc hsize hcons =>
    refine ho.same rfl rfl rfl fun q _ => ?_
    rw [Worker.tasks_length hi]
    exact htake hpc (by rw [hcons]; simp)
  | insert p table hpc hins =>
    have hperm : (Worker.tasks { v.worker with table := table }).Perm (p :: v.worker.tasks) :=
      Worker.tasks_insert hins
    refine ⟨?_, fun q hq => ?_, ho.group, ho.nodup, fun e he => ?_, ho.popped⟩
    · exact hperm.length_eq ▸ ho.admitted p hpc
    · cases hq
    · exact hperm.symm.subset (List.mem_cons_of_mem _ (ho.entered e he))
  | tickDone pc heap ready hpc hpop hpc' =>
    refine hsame rfl rfl rfl fun q hq => ?_
    rw [show pc = .admitted q from hq] at hpc'
    rcases hpc' with h | h <;> cases h
  | run p heap ready f hpc hpop hf => exact hsame rfl rfl rfl fun q hq => by cases hq
  | ectl p fd op flags events data fails interest hr hact ha hint =>
    exact hsame rfl rfl rfl (hruns hr)
  | close p interest hr hint => exact hsame rfl rfl rfl (hruns hr)
  | unchanged p hr => exact ho
  | ewait p now millis events maxEvents hr ha => exact hsame rfl rfl rfl fun q hq => by cases hq
  | enter p hr he ha =>
    have hp := (hi.running p hr.1).1
    obtain ⟨n, hn, hsum⟩ := ho.spare hp he
    obtain ⟨hass, htask, hpool⟩ := htsEntryPop_spec hn p
    refine ⟨ho.size, fun q hq => absurd hq (hruns hr q), ⟨n, hpool, ?_⟩, ?_, fun e he' => ?_,
      fun e he' => ?_⟩
    · simp only [List.length_cons]
      omega
    · refine List.nodup_cons.mpr ⟨fun hmem => he ?_, ho.nodup⟩
      obtain ⟨e, he', htask'⟩ := List.mem_map.mp hmem
      exact ⟨e, he', htask'⟩
    · rcases List.mem_cons.mp he' with rfl | he'
      · exact hp
      · exact ho.entered e he'
    · rcases List.mem_cons.mp he' with rfl | he'
      · exact hass
      · exact ho.popped e he'
  | leave p e hr he hp =>
    obtain ⟨n, hn, hsum⟩ := ho.group
    have hlen : 0 < v.worker.entries.length := List.length_pos_of_mem he
    refine ⟨ho.size, fun q hq => absurd hq (hruns hr q),
      ⟨n + 1, htsEntryPush_holds hn (ho.popped e he), ?_⟩,
      ho.nodup.sublist (List.erase_sublist.map _),
      fun e' he' => ho.entered e' (List.mem_of_mem_erase he'),
      fun e' he' => ho.popped e' (List.mem_of_mem_erase he')⟩
    simp only [List.length_erase_of_mem he]
    omega
  | finish p table hr he hrem =>
    have hperm : v.worker.tasks.Perm (p :: Worker.tasks { v.worker with table := table }) :=
      Worker.tasks_remove _ hrem
    have hsize := ho.size
    rw [hperm.length_eq, List.length_cons] at hsize
    refine ⟨Nat.le_of_succ_le hsize, fun q hq => ?_, ho.group, ho.nodup, fun e he' => ?_,
      ho.popped⟩
    · cases hq
    refine (List.mem_cons.mp (hperm.subset (ho.entered e he'))).resolve_left fun hp => he ?_
    exact ⟨e, he', hp⟩
  | mistaken p hr ha => exact hsame rfl rfl rfl fun q hq => by cases hq

theorem serverStep_limit {cfg : Config} {s t : State P} {a : Action} {l : List TaskPtr}
    (hst : serverStep cfg s a = some t) (ha : WithinLimit cfg s a) (hi : Inv s l)
    (ho : ∀ i, LimitOk cfg.workerTasks (s.workers i)) :
    ∀ i, LimitOk cfg.workerTasks (t.workers i) := by
  have hcontrol : ∀ {u : State P}, Control s u ∨ (∃ v, Control v u ∧ v.workers = s.workers) →
      ∀ i, LimitOk cfg.workerTasks (u.workers i) := by
    intro u hu i
    have hworker : u.workers i = s.workers i ∨ ∃ pc, u.workers i = { s.workers i with pc := pc } ∧
        (pc = .pushing ∨ pc = .dispatch) := by
      rcases hu with c | ⟨v, c, hv⟩
      · exact (c.workers i).imp_right fun ⟨pc, h, hpc, _⟩ => ⟨pc, h, hpc⟩
      · rw [← hv]
        exact (c.workers i).imp_right fun ⟨pc, h, hpc, _⟩ => ⟨pc, h, hpc⟩
    rcases hworker with h | ⟨pc, h, hpc⟩
    · rw [h]
      exact ho i
    · rw [h]
      refine (ho i).same rfl rfl rfl fun p hp => ?_
      rw [show pc = .admitted p from hp] at hpc
      rcases hpc with h | h <;> cases h
  cases serverStep_effect hst with
  | pool th u hu => exact ho
  | control _ hc => exact hcontrol (.inl hc)
  | setup th p callback data version _ hp hc => exact hcontrol (.inr ⟨_, hc, rfl⟩)
  | send th i p _ hp hc => exact hcontrol (.inr ⟨_, hc, rfl⟩)
  | drop th p _ hfail hc => exact hcontrol (.inr ⟨_, hc, rfl⟩)
  | worker i act v hi' ha' hv =>
    subst ha'
    obtain ⟨r, hr⟩ := hi.workers i
    have hself := (workerStep_effect hv).limitOk hr (ho i) fun hpc hne => by
      obtain rfl := workerStep_turn hv (by simp [hpc]) (by simp [hpc])
      exact ha hpc hne
    intro j
    by_cases hj : j = i
    · subst hj
      change LimitOk _ (Function.update s.workers j v.worker j)
      rwa [Function.update_self]
    · change LimitOk _ (Function.update s.workers i v.worker j)
      rw [Function.update_of_ne hj]
      exact ho j

theorem workerCreate_limit (cfg : Config) : LimitOk cfg.workerTasks (workerCreate P cfg) := by
  have htasks : (workerCreate P cfg).tasks = [] := by
    simp [workerCreate, Worker.tasks, P.tables.nodes_empty]
  have hentries : (workerCreate P cfg).entries = [] := rfl
  refine ⟨?_, fun p hp => ?_, ⟨cfg.workerTasks, htsPoolGroupCreate_holds _, rfl⟩, ?_, ?_, ?_⟩
  · rw [htasks]
    exact Nat.zero_le _
  · cases hp
  · rw [hentries]
    exact List.nodup_nil
  · rw [hentries]
    exact fun e he => absurd he List.not_mem_nil
  · rw [hentries]
    exact fun e he => absurd he List.not_mem_nil

theorem limit_of_reach {cfg : Config} {s : State P}
    (h : (serverSystem P cfg).Reach (WithinLimit cfg) s) :
    ∀ i, LimitOk cfg.workerTasks (s.workers i) := by
  refine h.invariant (P := fun s => ∀ i, LimitOk cfg.workerTasks (s.workers i))
    (fun s hs i => ?_) fun s a t hs ih ha hst => ?_
  · obtain ⟨heap, -, rfl⟩ := hs
    exact workerCreate_limit cfg
  · obtain ⟨l, hi⟩ := inv_of_reach hs
    exact serverStep_limit hst ha hi ih

/-- In every run in which no worker reads a task while its table is full, every
table stays within `worker_tasks` and every pop of `law_hts_entry` returns an
element. -/
theorem tables_within_limit (P : Platform) (cfg : Config) {s : State P}
    (h : (serverSystem P cfg).Reach (WithinLimit cfg) s) (i : ℕ) : Served cfg s i := by
  obtain ⟨l, hi⟩ := inv_of_reach h
  obtain ⟨r, hr⟩ := hi.workers i
  have hlimit := limit_of_reach h i
  refine ⟨?_, hlimit.popped, fun p hp he => ?_⟩
  · rw [← Worker.tasks_length hr]
    exact hlimit.size
  · obtain ⟨n, hn, -⟩ := hlimit.spare (hr.running p hp.1).1 he
    exact (htsEntryPop_spec hn p).1

instance (cfg : Config) (s : State P) : (a : Action) → Decidable (WithinLimit cfg s a)
  | .worker i .turn =>
    inferInstanceAs (Decidable ((s.workers i).pc = .admitting → s.incoming i ≠ [] →
      tableSize P.tables (s.workers i).table < cfg.workerTasks))
  | .worker _ (.begin ..) | .worker _ (.task _) | .pool _ | .spawn _ _ _ | .spawnStep _ _
  | .accept _ | .acceptStep _ | .release _ | .wakeup _ _ | .stop => .isTrue trivial

/-- Worker 1 admits the first accepted connection, whose task enters
`law_hts_entry` and waits there. -/
def admitOne : List Action :=
  .acceptStep 0 :: acceptOne ++ tickOne 1 ++
    [.worker 1 (.task .enter), .worker 1 (.task (.ewait 0 10 true 4 false)), .worker 1 .turn]

/-- The next connection goes to worker 0 and finishes there, which leaves a free
task for one more connection. That one goes to worker 1, whose table is full. -/
def admitTwo : List Action :=
  admitOne ++ acceptOne ++ tickOne 0 ++ [.worker 0 (.task (.ret 0))] ++ finishOne 0 ++
    acceptOne ++ tickOne 1

/-- The table of worker 1 then holds two tasks where one is the limit, and the
second finds the pools empty. -/
theorem table_over_limit : ∃ s : State Platform.lists,
    (serverSystem _ twoWorkers).Reachable s ∧
      tableSize Platform.lists.tables (s.workers 1).table = 2 ∧
      (s.view 1).Runs 0 ∧ ¬ (s.workers 1).Entered 0 ∧
      (htsEntryPop (s.workers 1).group 0).1.asserted = false ∧ ¬ Served twoWorkers s 1 := by
  have hrun : ((serverSystem Platform.lists twoWorkers).run
      (serverCreate _ twoWorkers zeroHeap) admitTwo).map (fun s =>
        (tableSize Platform.lists.tables (s.workers 1).table, decide ((s.view 1).Runs 0),
          decide ((s.workers 1).Entered 0), (htsEntryPop (s.workers 1).group 0).1.asserted)) =
      some (2, true, false, false) := by decide
  obtain ⟨s, hs, hall⟩ := Option.map_eq_some_iff.mp hrun
  simp only [Prod.mk.injEq, decide_eq_true_eq, decide_eq_false_iff_not] at hall
  obtain ⟨hsize, hruns, hentered, hpop⟩ := hall
  refine ⟨s, System.Reachable.run (.init ⟨zeroHeap, zeroHeap_fresh, rfl⟩) _ hs, hsize, hruns,
    hentered, hpop, fun hserved => ?_⟩
  have := hserved.size
  rw [hsize] at this
  exact absurd this (by decide)

/-- Until then the worker serves its task. -/
theorem tables_within_limit_admitted : ∃ s : State Platform.lists,
    tableSize Platform.lists.tables (s.workers 1).table = 1 ∧ Served twoWorkers s 1 := by
  have hrun : ((serverSystem Platform.lists twoWorkers).checkedRun
      (WithinLimit twoWorkers) (serverCreate _ twoWorkers zeroHeap) admitOne).map
      (fun s => tableSize Platform.lists.tables (s.workers 1).table) = some 1 := by decide
  obtain ⟨s, hs, hsize⟩ := Option.map_eq_some_iff.mp hrun
  exact ⟨s, hsize, tables_within_limit Platform.lists twoWorkers
    (System.Reach.checkedRun (.init ⟨zeroHeap, zeroHeap_fresh, rfl⟩) _ hs) 1⟩

end Lawd

import Lawd.Admission

/-!
# The buffers of two connections are never the same

Each buffer and each stack of a worker is in its pool or with exactly one task
inside `law_hts_entry`, whatever the order of the worker's tasks and of their
entries and leavings. So no two connections share a buffer, and none is lost.
-/
namespace Lawd

open Library

variable {P : Platform}

/-- What the four pops of `law_hts_entry` take. -/
inductive HtsPart where
  | input
  | output
  | heap
  | stack
  deriving DecidableEq, Repr

/-- The free elements of a part. -/
def HtsPart.pool : HtsPart → HtsPoolGroup → List ℕ
  | input, grp => grp.inPool
  | output, grp => grp.outPool
  | heap, grp => grp.heapPool
  | stack, grp => grp.stackPool

/-- The element of a part that a task holds. -/
def HtsPart.held : HtsPart → HtsEntry → Option ℕ
  | input, e => e.input
  | output, e => e.output
  | heap, e => e.heap
  | stack, e => e.stack

/-- The elements of a part, free or held. -/
def Worker.elements (w : Worker P) (part : HtsPart) : List ℕ :=
  part.pool w.group ++ w.entries.filterMap part.held

/-- The entries of a worker against its table, with every element of each part in
one place. -/
structure Isolated (limit : ℕ) (w : Worker P) : Prop where
  elements : ∀ part, (w.elements part).Perm (List.range limit)
  tasks : (w.entries.map HtsEntry.task).Nodup
  entered : ∀ e ∈ w.entries, e.task ∈ w.tasks

@[simp] theorem htsPoolGroupCreate_pool (part : HtsPart) (n : ℕ) :
    part.pool (htsPoolGroupCreate n) = (List.range n).reverse := by
  cases part <;> rfl

@[simp] theorem htsEntryPop_pool (part : HtsPart) (grp : HtsPoolGroup) (p : TaskPtr) :
    part.pool (htsEntryPop grp p).2 = (part.pool grp).tail := by
  cases part <;> rfl

@[simp] theorem htsEntryPop_held (part : HtsPart) (grp : HtsPoolGroup) (p : TaskPtr) :
    part.held (htsEntryPop grp p).1 = (part.pool grp).head? := by
  cases part <;> rfl

@[simp] theorem htsEntryPush_pool (part : HtsPart) (grp : HtsPoolGroup) (e : HtsEntry) :
    part.pool (htsEntryPush grp e) = (part.held e).toList ++ part.pool grp := by
  cases part <;> rfl

theorem filterMap_cons_toList {α β : Type*} (f : α → Option β) (a : α) (l : List α) :
    (a :: l).filterMap f = (f a).toList ++ l.filterMap f := by
  cases h : f a <;> simp [h]

theorem Worker.elements_enter (w : Worker P) (p : TaskPtr) (part : HtsPart) :
    (Worker.elements { w with
      group := (htsEntryPop w.group p).2,
      entries := (htsEntryPop w.group p).1 :: w.entries } part).Perm (w.elements part) := by
  simp only [Worker.elements, htsEntryPop_pool, filterMap_cons_toList, htsEntryPop_held]
  cases part.pool w.group with
  | nil => exact .refl _
  | cons a l => exact List.perm_middle

/-- The pushes move them back. -/
theorem Worker.elements_leave (w : Worker P) {e : HtsEntry} (he : e ∈ w.entries)
    (part : HtsPart) :
    (Worker.elements { w with
      group := htsEntryPush w.group e, entries := w.entries.erase e } part).Perm
      (w.elements part) := by
  have hperm := (List.perm_cons_erase he).filterMap part.held
  rw [filterMap_cons_toList] at hperm
  simp only [Worker.elements, htsEntryPush_pool]
  refine .trans ?_ (hperm.symm.append_left _)
  rw [← List.append_assoc]
  exact List.perm_append_comm.append_right _

theorem Isolated.same {limit : ℕ} {w w' : Worker P} (h : Isolated limit w)
    (htasks : ∀ p ∈ w.tasks, p ∈ w'.tasks) (hgroup : w'.group = w.group)
    (hentries : w'.entries = w.entries) : Isolated limit w' where
  elements part := by
    rw [Worker.elements, hgroup, hentries]
    exact h.elements part
  tasks := hentries ▸ h.tasks
  entered e he := htasks _ (h.entered e (hentries ▸ he))

theorem WorkerEffect.isolated {cfg : Config} {v v' : View P} {a : WorkerAct} {r : List TaskPtr}
    {limit : ℕ} (h : WorkerEffect cfg v a v') (hi : WorkerInv v.heap v.worker r)
    (ho : Isolated limit v.worker) : Isolated limit v'.worker := by
  cases h with
  | control w messages hpc hpc' hk hb | woken w messages id p ev hpc hpc' hk hb hlook =>
    exact ho.same (fun p hp => Worker.tasks_congr hk.table ▸ hp) hk.group hk.entries
  | insert p table hpc hins =>
    have hperm : (Worker.tasks { v.worker with table := table }).Perm (p :: v.worker.tasks) :=
      Worker.tasks_insert hins
    exact ho.same (fun q hq => hperm.symm.subset (List.mem_cons_of_mem _ hq)) rfl rfl
  | enter p hr he ha =>
    refine ⟨fun part => (v.worker.elements_enter p part).trans (ho.elements part),
      List.nodup_cons.mpr ⟨fun hmem => he ?_, ho.tasks⟩, fun e he' => ?_⟩
    · obtain ⟨e, he', htask⟩ := List.mem_map.mp hmem
      exact ⟨e, he', htask⟩
    · rcases List.mem_cons.mp he' with rfl | he'
      · exact (hi.running p hr.1).1
      · exact ho.entered e he'
  | leave p e hr he hp =>
    exact ⟨fun part => (v.worker.elements_leave he part).trans (ho.elements part),
      ho.tasks.sublist (List.erase_sublist.map _),
      fun e' he' => ho.entered e' (List.mem_of_mem_erase he')⟩
  | finish p table hr he hrem =>
    have hperm : v.worker.tasks.Perm (p :: Worker.tasks { v.worker with table := table }) :=
      Worker.tasks_remove _ hrem
    refine ⟨ho.elements, ho.tasks, fun e he' => ?_⟩
    refine (List.mem_cons.mp (hperm.subset (ho.entered e he'))).resolve_left fun hp => ?_
    exact he ⟨e, he', hp⟩
  | stale | expired | take | tickDone | run | ectl | close | unchanged | ewait | mistaken =>
    exact ho.same (fun _ hp => hp) rfl rfl

/-- A step of the server is a step of one worker, or moves no element. -/
theorem serverStep_isolated {cfg : Config} {s t : State P} {a : Action} {l : List TaskPtr}
    (hst : serverStep cfg s a = some t) (hi : Inv s l)
    (ho : ∀ i, Isolated cfg.workerTasks (s.workers i)) (i : ℕ) :
    Isolated cfg.workerTasks (t.workers i) := by
  rcases serverStep_frame hst hi i with ⟨act, v, -, hv, rfl⟩ | hframe
  · obtain ⟨r, hr⟩ := hi.workers i
    change Isolated _ (Function.update s.workers i v.worker i)
    rw [Function.update_self]
    exact (workerStep_effect hv).isolated hr (ho i)
  · rcases hframe.worker with hw | ⟨pc, hw, -, -⟩
    · rw [hw]
      exact ho i
    · rw [hw]
      exact (ho i).same (fun _ hp => hp) rfl rfl

theorem isolated_of_reach {cfg : Config} {s : State P} (h : (serverSystem P cfg).Reachable s)
    (i : ℕ) : Isolated cfg.workerTasks (s.workers i) := by
  refine System.Reach.invariant (P := fun s => ∀ i, Isolated cfg.workerTasks (s.workers i))
    (fun s hs i => ?_) (fun s a t hs ho _ hst i => ?_) h i
  · obtain ⟨heap, -, rfl⟩ := hs
    have hentries : ((serverCreate P cfg heap).workers i).entries = [] := rfl
    refine ⟨fun part => ?_, by rw [hentries]; exact List.nodup_nil, fun e he => ?_⟩
    · have hgroup : ((serverCreate P cfg heap).workers i).group =
        htsPoolGroupCreate cfg.workerTasks := rfl
      rw [Worker.elements, hgroup, hentries, htsPoolGroupCreate_pool, List.filterMap_nil,
        List.append_nil]
      exact List.reverse_perm _
    · rw [hentries] at he
      cases he
  · obtain ⟨l, hi⟩ := inv_of_reach hs
    exact serverStep_isolated hst hi ho i

/-- In every run, each element of each pool of a worker is free or held by one
task of its table, and no two tasks hold the same one. -/
theorem connections_isolated (P : Platform) (cfg : Config) {s : State P}
    (h : (serverSystem P cfg).Reachable s) (i : ℕ) (part : HtsPart) :
    (∀ n, n < cfg.workerTasks ↔ n ∈ part.pool (s.workers i).group ∨
      ∃ e ∈ (s.workers i).entries, part.held e = some n) ∧
    (∀ e ∈ (s.workers i).entries, e.task ∈ (s.workers i).tasks ∧
      ∀ n, part.held e = some n → n ∉ part.pool (s.workers i).group) ∧
    (s.workers i).entries.Pairwise fun e e' => e.task ≠ e'.task ∧
      ∀ n, part.held e = some n → part.held e' ≠ some n := by
  have ho := isolated_of_reach h i
  have hperm := ho.elements part
  have hnd : ((s.workers i).elements part).Nodup := hperm.nodup_iff.mpr List.nodup_range
  obtain ⟨-, hheld, hdisj⟩ := List.nodup_append.mp hnd
  refine ⟨fun n => ?_, fun e he => ⟨ho.entered e he, fun n hn hfree => ?_⟩, ?_⟩
  · rw [← List.mem_range, ← hperm.mem_iff, Worker.elements, List.mem_append, List.mem_filterMap]
  · exact hdisj n hfree n (List.mem_filterMap.mpr ⟨e, he, hn⟩) rfl
  · refine (List.pairwise_map.mp ho.tasks).and ?_
    refine (List.pairwise_filterMap.mp hheld).imp fun hne n hn hn' => ?_
    exact hne n hn n hn' rfl

/-- A task that waits inside `law_hts_entry` holds the one input buffer of its
worker. -/
theorem connections_isolated_admitted : ∃ (s : State Platform.lists) (e : HtsEntry),
    e ∈ (s.workers 1).entries ∧ e.input = some 0 ∧ 0 ∉ (s.workers 1).group.inPool := by
  have hrun : ((serverSystem Platform.lists twoWorkers).run
      (serverCreate _ twoWorkers zeroHeap) admitOne).map (fun s => (s.workers 1).entries) =
      some [⟨1, some 0, some 0, some 0, some 0⟩] := by decide
  obtain ⟨s, hs, hentries⟩ := Option.map_eq_some_iff.mp hrun
  have hmem : ⟨1, some 0, some 0, some 0, some 0⟩ ∈ (s.workers 1).entries := by simp [hentries]
  obtain ⟨-, hheld, -⟩ := connections_isolated Platform.lists twoWorkers
    (System.Reachable.run (.init ⟨zeroHeap, zeroHeap_fresh, rfl⟩) _ hs) 1 .input
  exact ⟨s, _, hmem, rfl, (hheld _ hmem).2 0 rfl⟩

end Lawd

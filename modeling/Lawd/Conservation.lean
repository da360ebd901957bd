import Lawd.ServerSteps
import Lawd.WorkerInv

/-!
# Tasks are neither lost nor duplicated

Every task of the server is in one place, there once: the pool, the hands of a
thread, a pipe, a table, or among the tasks that a failed `law_spawn` dropped.
Each step moves at most one task. Since the places of different threads are
disjoint, no thread writes to a task of another, and the intrusive lists of the
pool and of the ready sets stay intact.
-/
namespace Lawd

open Library

variable {P : Platform}

/-- Where a task can be. -/
inductive Place where
  | pool
  | hand (th : Tid)
  | pipe (i : ℕ)
  | table (i : ℕ)
  | lost
  deriving DecidableEq

/-- The tasks in each place, when the pool lists the tasks `l`. -/
def State.contents (s : State P) (l : List TaskPtr) : Place → List TaskPtr
  | .pool => l
  | .hand th => s.hand th
  | .pipe i => s.incoming i
  | .table i => (s.workers i).tasks
  | .lost => s.lost

/-- The invariant of the server. -/
structure Inv (s : State P) (l : List TaskPtr) : Prop where
  pool : PoolInv s.toPoolState l
  placed : ∀ p, p < s.capacity → Placed (s.contents l) p
  owned : ∀ x, ∀ p ∈ s.contents l x, p < s.capacity
  workers : ∀ i, ∃ r, WorkerInv s.heap (s.workers i) r
  unmarked : ∀ p, (∀ i, p ∉ (s.workers i).tasks) → (s.heap p).mark = false

theorem Inv.placed_of_mem {s : State P} {l : List TaskPtr} (hi : Inv s l) {x : Place}
    {p : TaskPtr} (hp : p ∈ s.contents l x) : Placed (s.contents l) p :=
  hi.placed p (hi.owned x p hp)

theorem Inv.not_mem {s : State P} {l : List TaskPtr} (hi : Inv s l) {x y : Place}
    {p : TaskPtr} (hp : p ∈ s.contents l x) (hxy : y ≠ x) : p ∉ s.contents l y :=
  (hi.placed_of_mem hp).not_mem hp hxy

theorem Inv.nodup {s : State P} {l : List TaskPtr} (hi : Inv s l) (x : Place) :
    (s.contents l x).Nodup := nodup_of_placed fun _ hp => hi.placed_of_mem hp

theorem Inv.nodup_append {s : State P} {l : List TaskPtr} (hi : Inv s l) {x y : Place}
    (hxy : y ≠ x) : (s.contents l x ++ s.contents l y).Nodup :=
  List.nodup_append.mpr ⟨hi.nodup x, hi.nodup y, fun _ hp _ hq heq =>
    hi.not_mem hp hxy (heq ▸ hq)⟩

theorem Inv.unmarked_of_mem {s : State P} {l : List TaskPtr} (hi : Inv s l) {x : Place}
    (hx : ∀ i, x ≠ .table i) {p : TaskPtr} (hp : p ∈ s.contents l x) :
    (s.heap p).mark = false :=
  hi.unmarked p fun i => hi.not_mem hp (hx i).symm

/-- A step that keeps the capacity and moves at most one task. -/
theorem Inv.flow {s t : State P} {l l' : List TaskPtr} (hi : Inv s l)
    (hpool : PoolInv t.toPoolState l') (hcap : t.capacity = s.capacity)
    (f : Flow (s.contents l) (t.contents l'))
    (hworkers : ∀ i, ∃ r, WorkerInv t.heap (t.workers i) r)
    (hunmarked : ∀ p, (∀ i, p ∉ (t.workers i).tasks) → (t.heap p).mark = false) : Inv t l' where
  pool := hpool
  placed p hp := (hi.placed p (hcap ▸ hp)).flow f
  owned x p hp := by
    obtain ⟨y, hy⟩ := f.mem hp
    rw [hcap]
    exact hi.owned y p hy
  workers := hworkers
  unmarked := hunmarked

section Control

theorem Control.table {s t : State P} (c : Control s t) (i : ℕ) :
    (t.workers i).table = (s.workers i).table := by
  rcases c.workers i with h | ⟨pc, h, -⟩ <;> rw [h]

theorem Control.tasks {s t : State P} (c : Control s t) (i : ℕ) :
    (t.workers i).tasks = (s.workers i).tasks := Worker.tasks_congr (c.table i)

theorem Control.pool {s t : State P} {l : List TaskPtr} (c : Control s t)
    (hi : PoolInv s.toPoolState l) : PoolInv t.toPoolState l := by
  have hcounts : ∀ th, (t.pc th).Counts s.size l.length ↔ (s.pc th).Counts s.size l.length := by
    intro th
    rcases c.pc th with h | ⟨h, h'⟩
    · rw [h]
    · rw [PoolPc.Counts.of_not_critical h, PoolPc.Counts.of_not_critical h']
  refine ⟨?_, fun th hc => ?_, fun hl => ?_, fun th hl => ?_⟩
  · rw [c.heap, c.list]
    exact hi.chain
  · rw [c.lock]
    rcases c.pc th with h | ⟨h, -⟩
    · exact hi.owner th (h ▸ hc)
    · rw [h] at hc
      cases hc
  · rw [c.size]
    exact hi.free (c.lock ▸ hl)
  · rw [c.size]
    exact (hcounts th).mpr (hi.held th (c.lock ▸ hl))

theorem Control.worker {s t : State P} {r : List TaskPtr} (c : Control s t) {i : ℕ}
    (hi : WorkerInv s.heap (s.workers i) r) : WorkerInv t.heap (t.workers i) r := by
  rw [c.heap]
  rcases c.workers i with h | ⟨pc, h, hpc, -⟩
  · rwa [h]
  · rw [h]
    exact hi.control (by rcases hpc with rfl | rfl <;> rfl) rfl rfl

/-- Control moves after a change of `s` that the pool and the workers do not notice. -/
theorem Inv.control {s u t : State P} {l : List TaskPtr} (hi : Inv s l) (c : Control u t)
    (hpool : u.toPoolState = s.toPoolState) (hworkers : u.workers = s.workers)
    (f : Flow (s.contents l) (t.contents l)) : Inv t l := by
  have hheap : u.heap = s.heap := congrArg PoolState.heap hpool
  refine hi.flow (c.pool (hpool ▸ hi.pool)) ?_ f (fun i => ?_) fun p hp => ?_
  · rw [c.capacity, hpool]
  · obtain ⟨r, hr⟩ := hi.workers i
    exact ⟨r, c.worker (by rwa [hworkers, hheap])⟩
  · rw [c.heap, hheap]
    refine hi.unmarked p fun i => ?_
    rw [← hworkers, ← c.tasks i]
    exact hp i

theorem Control.flow {s t : State P} {l : List TaskPtr} (c : Control s t)
    (hhand : ∀ th, (t.hand th).Perm (s.hand th)) : Flow (s.contents l) (t.contents l) := by
  refine .stay ?_
  rintro (_ | th | i | i | _)
  · exact .refl _
  · exact hhand th
  · exact .of_eq (congrFun c.incoming i)
  · exact .of_eq (c.tasks i)
  · exact .of_eq c.lost

theorem Control.flow_send {s t : State P} {l : List TaskPtr} {th : Tid} {i : ℕ} {p : TaskPtr}
    (c : Control { s with incoming := Function.update s.incoming i (s.incoming i ++ [p]) } t)
    (hhand : (s.hand th).Perm (p :: t.hand th))
    (hothers : ∀ th', th' ≠ th → t.hand th' = s.hand th') :
    Flow (s.contents l) (t.contents l) := by
  refine .move p (.hand th) (.pipe i) ⟨by simp, hhand, ?_, ?_⟩
  · have hpipe := congrFun c.incoming i
    simp only [Function.update_self] at hpipe
    change (t.incoming i).Perm _
    rw [hpipe]
    exact List.perm_append_singleton p _
  · rintro (_ | th' | j | j | _) h h'
    · exact .refl _
    · exact .of_eq (hothers th' (by rintro rfl; exact h rfl))
    · have hpipe := congrFun c.incoming j
      simp only [Function.update_of_ne (show j ≠ i by rintro rfl; exact h' rfl)] at hpipe
      exact .of_eq hpipe
    · exact .of_eq (c.tasks j)
    · exact .of_eq c.lost

theorem Control.flow_drop {s t : State P} {l : List TaskPtr} {th : Tid} {p : TaskPtr}
    (c : Control { s with lost := p :: s.lost } t) (hhand : (s.hand th).Perm (p :: t.hand th))
    (hothers : ∀ th', th' ≠ th → t.hand th' = s.hand th') :
    Flow (s.contents l) (t.contents l) := by
  refine .move p (.hand th) .lost ⟨by simp, hhand, .of_eq c.lost, ?_⟩
  rintro (_ | th' | j | j | _) h h'
  · exact .refl _
  · exact .of_eq (hothers th' (by rintro rfl; exact h rfl))
  · exact .of_eq (congrFun c.incoming j)
  · exact .of_eq (c.tasks j)
  · exact absurd rfl h'

end Control

theorem State.setup_heap_ne (s : State P) {p q : TaskPtr} (h : q ≠ p) (callback : Callback)
    (data : Data) (version : Vers) : (s.setup p callback data version).heap q = s.heap q := by
  simp only [State.setup, Heap.modify_ne _ _ h]

theorem Inv.setup {s : State P} {l : List TaskPtr} (hi : Inv s l) {th : Tid} {p : TaskPtr}
    (hp : p ∈ s.hand th) (callback : Callback) (data : Data) (version : Vers) :
    Inv (s.setup p callback data version) l := by
  have hne : ∀ x, x ≠ .hand th → ∀ q ∈ s.contents l x,
      (s.setup p callback data version).heap q = s.heap q := by
    intro x hx q hq
    have hqp : q ≠ p := by
      rintro rfl
      exact hi.not_mem (x := .hand th) hp hx hq
    exact State.setup_heap_ne s hqp ..
  refine hi.flow (hi.pool.frame (fun q hq => ?_) rfl rfl rfl rfl) rfl (.stay fun x => ?_)
    (fun i => ?_) fun q hq => ?_
  · exact congrArg Task.next (hne .pool (by simp) q hq)
  · cases x <;> exact .refl _
  · obtain ⟨r, hr⟩ := hi.workers i
    exact ⟨r, hr.frame (hne (.table i) (by simp))⟩
  · have hmark := hi.unmarked q hq
    change (Heap.modify s.heap p _ q).mark = false
    rw [Heap.modify_apply]
    split_ifs with h
    · exact h ▸ hmark
    · exact hmark

theorem Inv.pool_nodup {s : State P} {l : List TaskPtr} (hi : Inv s l) (th : Tid) :
    (l ++ (s.pc th).hand).Nodup := by
  have hnd := hi.nodup_append (x := .pool) (y := .hand th) (by simp)
  have hsub : (s.pc th).hand.Sublist (s.hand th) := List.sublist_append_left ..
  exact hnd.sublist (hsub.append_left _)

theorem Inv.pool_frame {s : State P} {l : List TaskPtr} (hi : Inv s l) {th : Tid}
    {t : PoolState Tid} (hst : poolStep s.toPoolState th = some t) :
    PoolFrame s.toPoolState t th l := by
  obtain ⟨_, -, -, hframe⟩ := poolStep_inv hst hi.pool (hi.pool_nodup th)
  exact hframe

theorem Inv.pool_step {s : State P} {l : List TaskPtr} (hi : Inv s l) {th : Tid}
    {t : PoolState Tid} (hst : poolStep s.toPoolState th = some t) :
    ∃ l', Inv { s with toPoolState := t } l' := by
  obtain ⟨l', hpool, hmove, hframe⟩ := poolStep_inv hst hi.pool (hi.pool_nodup th)
  have hout : ∀ th', State.outbound { s with toPoolState := t } th' = s.outbound th' := by
    rintro (_ | _ | _) <;> rfl
  have htable : ∀ i, ∀ q ∈ (s.workers i).tasks, t.heap q = s.heap q := by
    intro i q hq
    refine hframe.heap q (hi.not_mem (x := .table i) (y := .pool) hq (by simp)) fun hq' => ?_
    exact hi.not_mem (x := .table i) (y := .hand th) hq (by simp) (List.mem_append_left _ hq')
  refine ⟨l', hi.flow hpool hframe.capacity ?_ (fun i => ?_) fun p hp => ?_⟩
  · refine hmove.flow .pool (.hand th) (s.outbound th ++ s.workerHand th) (by simp)
      rfl rfl rfl ?_ ?_
    · change _ ++ (State.outbound { s with toPoolState := t } th ++ _) = _
      rw [hout]
      rfl
    · rintro (_ | th' | i | i | _) h h'
      · exact absurd rfl h
      · have hne : th' ≠ th := by rintro rfl; exact h' rfl
        change (t.pc th').hand ++ (State.outbound { s with toPoolState := t } th' ++ _) = _
        rw [hout, hframe.pc th' hne]
        rfl
      · rfl
      · rfl
      · rfl
  · obtain ⟨r, hr⟩ := hi.workers i
    exact ⟨r, hr.frame (htable i)⟩
  · change (t.heap p).mark = false
    rw [hframe.mark]
    exact hi.unmarked p hp

/-- A worker's places among those of the server. -/
def LocalPlace.toPlace (i : ℕ) : LocalPlace → Place
  | .incoming => .pipe i
  | .hand => .hand (.worker i)
  | .table => .table i

theorem Inv.hand_view {s : State P} {l : List TaskPtr} (hi : Inv s l) (i : ℕ) :
    HandInv (s.view i) where
  nodup := by
    have hnd := hi.nodup_append (x := .table i) (y := .hand (.worker i)) (by simp)
    have hsub : (s.workers i).pc.hand.Sublist (s.hand (.worker i)) :=
      (List.sublist_append_right ..).trans (List.sublist_append_right ..)
    exact hnd.sublist (hsub.append_left _)
  unmarked p hp := hi.unmarked_of_mem (x := .hand (.worker i)) (by simp)
    (List.mem_append_right _ (List.mem_append_right _ hp))

theorem State.setView_flow {s : State P} {l : List TaskPtr} {i : ℕ} {v : View P}
    (f : Flow (s.view i).contents v.contents) :
    Flow (s.contents l) ((s.setView i v).contents l) := by
  refine f.embed (e := LocalPlace.toPlace i) ?_
    (fun x => match x with
      | .hand => (s.pc (.worker i)).hand ++ s.outbound (.worker i)
      | _ => []) ?_ ?_ ?_
  · rintro (_ | _ | _) (_ | _ | _) h <;> first | rfl | cases h
  · rintro (_ | _ | _)
    · simp [LocalPlace.toPlace, State.contents, View.contents, State.view]
    · change ((s.pc (.worker i)).hand ++ (s.outbound (.worker i) ++ (s.workers i).pc.hand)).Perm _
      rw [← List.append_assoc]
      exact List.perm_append_comm
    · simp [LocalPlace.toPlace, State.contents, View.contents, State.view]
  · rintro (_ | _ | _)
    · simp [LocalPlace.toPlace, State.contents, View.contents, State.setView]
    · change ((s.pc (.worker i)).hand ++
        (s.outbound (.worker i) ++ (Function.update s.workers i v.worker i).pc.hand)).Perm _
      rw [← List.append_assoc, Function.update_self]
      exact List.perm_append_comm
    · simp [LocalPlace.toPlace, State.contents, View.contents, State.setView]
  · rintro (_ | th | j | j | _) h
    · exact .refl _
    · cases th with
      | acceptor => exact .refl _
      | ext n => exact .refl _
      | worker j =>
        have hj : j ≠ i := by rintro rfl; exact h .hand rfl
        refine .of_eq ?_
        change (s.pc (.worker j)).hand ++
          (s.outbound (.worker j) ++ (Function.update s.workers i v.worker j).pc.hand) = _
        rw [Function.update_of_ne hj]
        rfl
    · have hj : j ≠ i := by rintro rfl; exact h .incoming rfl
      exact .of_eq (Function.update_of_ne hj ..)
    · have hj : j ≠ i := by rintro rfl; exact h .table rfl
      refine .of_eq ?_
      change (Function.update s.workers i v.worker j).tasks = _
      rw [Function.update_of_ne hj]
      rfl
    · exact .refl _

theorem Inv.view_frame {s : State P} {l : List TaskPtr} (hi : Inv s l) {i : ℕ} {v : View P}
    (hf : LocalFrame (s.view i) v) {x : Place} (hx : x ≠ .table i) (hx' : x ≠ .hand (.worker i))
    {p : TaskPtr} (hp : p ∈ s.contents l x) : v.heap p = s.heap p := by
  refine hf.heap p (hi.not_mem hp hx.symm) fun hp' => ?_
  exact hi.not_mem hp hx'.symm (List.mem_append_right _ (List.mem_append_right _ hp'))

theorem Inv.worker_step {s : State P} {l : List TaskPtr} (hi : Inv s l) {cfg : Config} {i : ℕ}
    {act : WorkerAct} {v : View P} (hst : workerStep cfg (s.view i) act = some v) :
    Inv (s.setView i v) l ∧ LocalFrame (s.view i) v := by
  have heff := workerStep_effect hst
  obtain ⟨r, hr⟩ := hi.workers i
  obtain ⟨⟨r', hr'⟩, hframe⟩ := heff.inv hr (hi.hand_view i)
  refine ⟨hi.flow (hi.pool.frame (fun p hp => ?_) rfl rfl rfl rfl) rfl
    (State.setView_flow heff.flow) (fun j => ?_) fun p hp => ?_, hframe⟩
  · exact congrArg Task.next (hi.view_frame hframe (x := .pool) (by simp) (by simp) hp)
  · by_cases hj : j = i
    · subst hj
      refine ⟨r', ?_⟩
      change WorkerInv v.heap (Function.update s.workers j v.worker j) r'
      rwa [Function.update_self]
    · obtain ⟨q, hq⟩ := hi.workers j
      refine ⟨q, ?_⟩
      change WorkerInv v.heap (Function.update s.workers i v.worker j) q
      rw [Function.update_of_ne hj]
      exact hq.frame fun p hp =>
        hi.view_frame hframe (x := .table j) (by simpa using hj) (by simp) hp
  · have hi' : p ∉ v.worker.tasks := by
      have h := hp i
      change p ∉ (Function.update s.workers i v.worker i).tasks at h
      rwa [Function.update_self] at h
    change (v.heap p).mark = false
    by_cases hmine : p ∈ (s.view i).worker.tasks ∨ p ∈ (s.view i).worker.pc.hand
    · exact hframe.unmarked p hmine hi'
    · obtain ⟨h1, h2⟩ := not_or.mp hmine
      rw [hframe.heap p h1 h2]
      refine hi.unmarked p fun j => ?_
      by_cases hj : j = i
      · rw [hj]
        exact h1
      · have h := hp j
        change p ∉ (Function.update s.workers i v.worker j).tasks at h
        rwa [Function.update_of_ne hj] at h

theorem ServerEffect.inv {cfg : Config} {s t : State P} {a : Action} {l : List TaskPtr}
    (h : ServerEffect cfg s a t) (hi : Inv s l) :
    Inv t l ∨ ∃ th u, poolStep s.toPoolState th = some u ∧ t = { s with toPoolState := u } := by
  cases h with
  | pool th u hu => exact .inr ⟨th, u, hu, rfl⟩
  | control _ hc hout hhand => exact .inl (hi.control hc rfl rfl (hc.flow hhand))
  | setup th p callback data version _ hp hc hout hhand =>
    exact .inl ((hi.setup hp callback data version).control hc rfl rfl (hc.flow hhand))
  | send th i p _ hp hc hout hhand hothers =>
    exact .inl (hi.control hc rfl rfl (hc.flow_send hhand hothers))
  | drop th p _ hfail hc hout hhand hothers =>
    exact .inl (hi.control hc rfl rfl (hc.flow_drop hhand hothers))
  | worker i act v hi' ha hv => exact .inl (hi.worker_step hv).1

theorem serverStep_inv {cfg : Config} {s t : State P} {a : Action} {l : List TaskPtr}
    (hst : serverStep cfg s a = some t) (hi : Inv s l) : ∃ l', Inv t l' := by
  rcases (serverStep_effect hst).inv hi with ht | ⟨th, u, hu, rfl⟩
  · exact ⟨l, ht⟩
  · exact hi.pool_step hu

theorem workerCreate_inv (heap : Heap) (cfg : Config) : WorkerInv heap (workerCreate P cfg) [] where
  ready := ⟨rfl, List.nodup_nil, by simp⟩
  listed := by simp
  marked p hp := by
    have hnil : (workerCreate P cfg).tasks = [] := by
      rw [Worker.tasks, workerCreate, P.tables.nodes_empty]
      rfl
    rw [hnil] at hp
    cases hp
  running p hp := by cases hp
  drained _ := rfl
  nodes node hn := by
    rw [workerCreate, P.tables.nodes_empty] at hn
    cases hn

@[simp] theorem workerCreate_tasks (cfg : Config) : (workerCreate P cfg).tasks = [] := by
  rw [Worker.tasks, workerCreate, P.tables.nodes_empty]
  rfl

theorem serverCreate_inv {heap : Heap} (hheap : FreshHeap heap) (cfg : Config) :
    Inv (serverCreate P cfg heap) (List.range (cfg.workerTasks * cfg.workers)).reverse := by
  obtain ⟨c, hc, -, -, -, hcap, hpc, hlinks⟩ :=
    poolFill_spec (T := Tid) heap (cfg.workerTasks * cfg.workers) (cfg.workerTasks * cfg.workers)
  have hcreate : poolCreate heap (cfg.workerTasks * cfg.workers) = c := hc
  have hpool := poolCreate_inv (T := Tid) heap (cfg.workerTasks * cfg.workers)
  have hhand : ∀ th, (serverCreate P cfg heap).hand th = [] := by
    intro th
    rw [State.hand]
    simp only [serverCreate, hcreate, hpc]
    cases th <;> rfl
  have hcap' : (serverCreate P cfg heap).capacity = cfg.workerTasks * cfg.workers := by
    simp only [serverCreate, hcreate, hcap]
  have hempty : ∀ x, x ≠ .pool → (serverCreate P cfg heap).contents
      (List.range (cfg.workerTasks * cfg.workers)).reverse x = [] := by
    rintro (_ | th | i | i | _) hx
    · exact absurd rfl hx
    · exact hhand th
    · rfl
    · exact workerCreate_tasks cfg
    · rfl
  refine ⟨hpool, fun p hp => ⟨.pool, fun y => ?_⟩, fun x p hp => ?_,
    fun i => ⟨[], workerCreate_inv _ cfg⟩, fun p _ => ?_⟩
  · split_ifs with hy
    · rw [hcap'] at hp
      subst hy
      exact List.count_eq_one_of_mem (List.nodup_reverse.mpr List.nodup_range)
        (List.mem_reverse.mpr (List.mem_range.mpr hp))
    · rw [hempty y hy]
      rfl
  · by_cases hx : x = .pool
    · subst hx
      rw [hcap']
      simpa [State.contents] using hp
    · rw [hempty x hx] at hp
      cases hp
  · simp only [serverCreate, hcreate]
    obtain ⟨next, hp⟩ := hlinks p
    obtain ⟨version, hv⟩ := hheap p
    rw [hp, hv]
    rfl

theorem inv_of_reach {cfg : Config} {ok : State P → Action → Prop} {s : State P}
    (h : (serverSystem P cfg).Reach ok s) : ∃ l, Inv s l :=
  h.invariant (P := fun s => ∃ l, Inv s l)
    (fun _ hs => by
      obtain ⟨heap, hheap, rfl⟩ := hs
      exact ⟨_, serverCreate_inv hheap cfg⟩)
    fun _ _ _ _ ⟨_, hi⟩ _ hst => serverStep_inv hst hi

theorem serverStep_capacity {cfg : Config} {s t : State P} {a : Action} {l : List TaskPtr}
    (hst : serverStep cfg s a = some t) (hi : Inv s l) : t.capacity = s.capacity := by
  cases serverStep_effect hst with
  | pool th u hu =>
    have hframe := hi.pool_frame hu
    exact hframe.capacity
  | control _ hc => exact hc.capacity
  | setup th p callback data version _ hp hc => exact hc.capacity
  | send th i p _ hp hc => exact hc.capacity
  | drop th p _ hfail hc => exact hc.capacity
  | worker i act v hi' ha hv => rfl

theorem capacity_of_reach {cfg : Config} {ok : State P → Action → Prop} {s : State P}
    (h : (serverSystem P cfg).Reach ok s) : s.capacity = cfg.workerTasks * cfg.workers := by
  refine h.invariant (P := fun s => s.capacity = cfg.workerTasks * cfg.workers)
    (fun s hs => ?_) fun s a t hs ih _ hst => ?_
  · obtain ⟨heap, -, rfl⟩ := hs
    obtain ⟨c, hc, -, -, -, hcap, -⟩ := poolFill_spec (T := Tid) heap
      (cfg.workerTasks * cfg.workers) (cfg.workerTasks * cfg.workers)
    simp only [serverCreate, poolCreate, hc, hcap]
  · obtain ⟨l, hi⟩ := inv_of_reach hs
    rw [serverStep_capacity hst hi, ih]

/-- What a step does to a worker whose own step it is not: at most it moves the
worker on in the push of a finished task. -/
structure WorkerFrame (s t : State P) (i : ℕ) : Prop where
  worker : t.workers i = s.workers i ∨
    ∃ pc, t.workers i = { s.workers i with pc := pc } ∧ (pc = .pushing ∨ pc = .dispatch) ∧
      ((∃ p, (s.workers i).pc = .removed p) ∨ (s.workers i).pc = .pushing)
  heap : ∀ p ∈ (s.workers i).tasks, t.heap p = s.heap p

/-- A step is one of the worker's own, or leaves its table and the tasks in it alone. -/
theorem serverStep_frame {cfg : Config} {s t : State P} {a : Action} {l : List TaskPtr}
    (hst : serverStep cfg s a = some t) (hi : Inv s l) (i : ℕ) :
    (∃ act v, a = .worker i act ∧ workerStep cfg (s.view i) act = some v ∧ t = s.setView i v) ∨
      WorkerFrame s t i := by
  cases serverStep_effect hst with
  | pool th u hu =>
    have hframe := hi.pool_frame hu
    refine .inr ⟨.inl rfl, fun p hp => hframe.heap p ?_ fun hq => ?_⟩
    · exact hi.not_mem (x := .table i) (y := .pool) hp (by simp)
    · exact hi.not_mem (x := .table i) (y := .hand th) hp (by simp) (List.mem_append_left _ hq)
  | control _ hc => exact .inr ⟨hc.workers i, fun p _ => by rw [hc.heap]⟩
  | setup th p callback data version _ hp hc =>
    refine .inr ⟨hc.workers i, fun q hq => ?_⟩
    rw [hc.heap]
    refine s.setup_heap_ne ?_ _ _ _
    rintro rfl
    exact hi.not_mem (x := .hand th) (y := .table i) hp (by simp) hq
  | send th j p _ hp hc => exact .inr ⟨hc.workers i, fun p _ => by rw [hc.heap]⟩
  | drop th p _ hfail hc => exact .inr ⟨hc.workers i, fun p _ => by rw [hc.heap]⟩
  | worker j act v hj ha hv =>
    by_cases hij : i = j
    · subst hij
      exact .inl ⟨act, v, ha, hv, rfl⟩
    · have hframe := (hi.worker_step hv).2
      refine .inr ⟨.inl (Function.update_of_ne hij ..), fun p hp => ?_⟩
      exact hi.view_frame hframe (x := .table i) (by simpa using hij) (by simp) hp

/-- The invariant rule for what holds at every worker: it need only be kept by
the worker's own steps. -/
theorem worker_invariant {cfg : Config} {ok : State P → Action → Prop}
    {Q : Heap → Worker P → Prop} (hinit : ∀ heap, Q heap (workerCreate P cfg))
    (hframe : ∀ s t i, WorkerFrame s t i → Q s.heap (s.workers i) → Q t.heap (t.workers i))
    (hstep : ∀ s i act v, (serverSystem P cfg).Reach ok s → ok s (.worker i act) →
      workerStep cfg (s.view i) act = some v → Q s.heap (s.workers i) → Q v.heap v.worker)
    {s : State P} (h : (serverSystem P cfg).Reach ok s) : ∀ i, Q s.heap (s.workers i) := by
  refine h.invariant (P := fun s => ∀ i, Q s.heap (s.workers i)) (fun s hs i => ?_)
    fun s a t hs ih ha hst i => ?_
  · obtain ⟨heap, -, rfl⟩ := hs
    exact hinit _
  · obtain ⟨l, hi⟩ := inv_of_reach hs
    rcases serverStep_frame hst hi i with ⟨act, v, rfl, hv, rfl⟩ | hf
    · have hq := hstep s i act v hs ha hv (ih i)
      change Q v.heap (Function.update s.workers i v.worker i)
      rwa [Function.update_self]
    · exact hframe s t i hf (ih i)

/-- Only a failed `law_spawn` drops a task. -/
theorem serverStep_lost {cfg : Config} {s t : State P} {a : Action}
    (hst : serverStep cfg s a = some t) (ha : ¬ SpawnFails cfg s a) : t.lost = s.lost := by
  cases serverStep_effect hst with
  | pool th u hu => rfl
  | control _ hc => exact hc.lost
  | setup th p callback data version _ hp hc => exact hc.lost
  | send th i p _ hp hc => exact hc.lost
  | drop th p _ hfail => exact absurd hfail ha
  | worker i act v hi ha hv => rfl

/-- In every run in which every call of `law_spawn` succeeds, each task is in
one place, there once, and the pool's counter is the length of its list whenever
the lock is free. -/
theorem task_conservation (P : Platform) (cfg : Config) {s : State P}
    (h : (serverSystem P cfg).Reach (fun s a => ¬ SpawnFails cfg s a) s) :
    ∃ l, s.heap.Chain s.list l ∧
      (∀ p, p < cfg.workerTasks * cfg.workers →
        ∃ x, x ≠ .lost ∧ PlacedAt (s.contents l) p x) ∧
      (s.lock = none → s.size = l.length) := by
  obtain ⟨l, hi⟩ := inv_of_reach h
  have hlost : s.lost = [] := by
    refine h.invariant (P := fun s => s.lost = []) (fun s hs => ?_) fun s a t _ ih ha hst => ?_
    · obtain ⟨heap, -, rfl⟩ := hs
      rfl
    · rw [serverStep_lost hst ha, ih]
  refine ⟨l, hi.pool.chain, fun p hp => ?_, hi.pool.free⟩
  obtain ⟨x, hx⟩ := hi.placed p (by rwa [capacity_of_reach h])
  refine ⟨x, ?_, hx⟩
  rintro rfl
  have hmem := (hx.mem_iff .lost).mpr rfl
  simp [State.contents, hlost] at hmem

instance (cfg : Config) (s : State P) : (a : Action) → Decidable (SpawnFails cfg s a)
  | .spawnStep th _ =>
    match hpc : s.spawnPc th with
    | .idle => .isFalse (by simp [SpawnFails, hpc])
    | .popping _ _ =>
      decidable_of_iff (s.pc th = .done (.task none)) (by simp [SpawnFails, hpc])
    | .trying _ x => decidable_of_iff (cfg.workers ≤ x) (by simp [SpawnFails, hpc])
  | .pool _ | .spawn _ _ _ | .accept _ | .acceptStep _ | .worker _ _ | .release _ | .wakeup _ _
  | .stop => .isFalse id

/-- The acceptor finds the pool not empty, accepts a connection and sends its
task to a worker. -/
def acceptOne : List Action :=
  [.pool .acceptor, .pool .acceptor, .pool .acceptor, .acceptStep 0, .accept (.fd 5),
    .pool .acceptor, .pool .acceptor, .pool .acceptor, .pool .acceptor, .acceptStep 0,
    .acceptStep 0]

/-- Two workers with one task each. -/
def twoWorkers : Config := ⟨2, 1, true, 8, 5000⟩

/-- After one accepted connection its task lies in the pipe of worker 1. -/
theorem task_conservation_accepted : ∃ s : State Platform.lists,
    s.incoming 1 = [1] ∧ ∃ l, s.heap.Chain s.list l ∧
      (∀ p, p < 1 * 2 → ∃ x, x ≠ .lost ∧ PlacedAt (s.contents l) p x) ∧
      (s.lock = none → s.size = l.length) := by
  have hrun : ((serverSystem Platform.lists twoWorkers).checkedRun
      (fun s a => ¬ SpawnFails twoWorkers s a) (serverCreate _ twoWorkers zeroHeap)
      (.acceptStep 0 :: acceptOne)).map (fun s => s.incoming 1) = some [1] := by decide
  obtain ⟨s, hs, hpipe⟩ := Option.map_eq_some_iff.mp hrun
  exact ⟨s, hpipe, task_conservation Platform.lists twoWorkers
    (System.Reach.checkedRun (.init ⟨zeroHeap, zeroHeap_fresh, rfl⟩) _ hs)⟩

end Lawd

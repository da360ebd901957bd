import Lawd.Base
import Lawd.Library.Lifetime
import Mathlib.Data.Multiset.Lattice
import Mathlib.Order.Lattice.Nat

/-!
# Creating and destroying a server

`law_server_create` and the functions under it ask the system for memory, and for
the stack of each task for a mapping of `/dev/zero`. What a function has created
when a request is refused it destroys again, down a ladder of labels. One thing
escapes the ladders: a mapping that the system does not let be read and written.
-/
namespace Lawd.Creation

open Library

/-- What the system gives out: blocks of memory, mappings, and descriptors. -/
inductive CellKind where
  | block
  | mapping
  | file
  deriving DecidableEq, Repr

/-- `struct law_smem`, and where it is. -/
structure Smem where
  self : ℕ
  guard : ℕ
  length : ℕ
  address : ℕ
  deriving DecidableEq, Repr

/-- The memory of `law_task_t`. -/
structure TaskMem where
  self : ℕ
  callee : ℕ
  stack : Smem
  deriving DecidableEq, Repr

/-- `law_task_pool_t`. -/
structure TaskPoolMem where
  self : ℕ
  list : List TaskMem
  deriving DecidableEq, Repr

/-- `struct law_evo`. -/
structure EvoMem where
  self : ℕ
  events : ℕ
  deriving DecidableEq, Repr

/-- `law_timer_t`, around an array. -/
structure TimerMem (α : Type) where
  self : ℕ
  array : α

/-- `law_table_t`, around a hash map, and the nodes of its entries. -/
structure TableMem (β : Type) where
  self : ℕ
  map : β
  nodes : List ℕ

/-- The memory of `law_worker_t`. -/
structure WorkerMem (α β : Type) where
  self : ℕ
  id : ℕ
  caller : ℕ
  timer : TimerMem α
  evo : EvoMem
  table : TableMem β

/-- The memory of `law_server_t`: its arrays of threads and of pointers to the
workers, and what these point to. -/
structure ServerMem (α β : Type) where
  self : ℕ
  threads : ℕ
  workers : ℕ
  evo : EvoMem
  pool : TaskPoolMem
  worker : List (WorkerMem α β)

/-- The values of `law_server_cfg_t` that decide what is created, where the
assertions let them pass and the number of tasks is an `int`. -/
structure CreationCfg where
  workers : ℕ
  serverEvents : ℕ
  workerTasks : ℕ
  workerEvents : ℕ
  stack : ℕ
  guards : ℕ
  workers_asserted : 0 < workers ∧ workers < 0x1000
  serverEvents_asserted : 0 < serverEvents ∧ serverEvents < 0x1000
  workerEvents_asserted : 0 < workerEvents
  tasks_int : workerTasks * workers < 2 ^ 31

/-- `free`. -/
def free : ℕ → Accounts CellKind → Accounts CellKind := Accounts.release .block

section Calls

variable (p : Provider CellKind) {α β : Type}

/-- `calloc`. -/
def calloc : Accounts CellKind → Option ℕ × Accounts CellKind := p.acquire .block

/-- `law_smem_create`. `/dev/zero` is closed before the mapping is looked at; the
mapping is forgotten when `mprotect` fails. -/
def smemCreate (length guard : ℕ) (s : Accounts CellKind) : Option Smem × Accounts CellKind :=
  orUndo id (calloc p s) fun mem s =>
    orUndo (free mem) (p.acquire .file s) fun devz s =>
      let (address, s) := p.acquire .mapping s
      orUndo (free mem) (address, s.release .file devz) fun address s =>
        match p.request (.use .mapping address) s with
        | (true, s) => (some ⟨mem, guard, length, address⟩, s)
        | (false, s) => (none, free mem (s.lose .mapping address))

/-- `law_smem_destroy`. -/
def smemDestroy (mem : Smem) (s : Accounts CellKind) : Accounts CellKind :=
  free mem.self (s.release .mapping mem.address)

/-- `law_cor_create`. -/
def corCreate : Accounts CellKind → Option ℕ × Accounts CellKind := calloc p

/-- `law_cor_destroy`. -/
def corDestroy : ℕ → Accounts CellKind → Accounts CellKind := free

/-- `law_task_create`. -/
def taskCreate (stackLength stackGuard : ℕ) (s : Accounts CellKind) :
    Option TaskMem × Accounts CellKind :=
  orUndo id (calloc p s) fun task s =>
    orUndo (free task) (corCreate p s) fun callee s =>
      orUndo (fun s => free task (corDestroy callee s)) (smemCreate p stackLength stackGuard s)
        fun stack s => (some ⟨task, callee, stack⟩, s)

/-- `law_task_destroy`. -/
def taskDestroy (task : TaskMem) (s : Accounts CellKind) : Accounts CellKind :=
  free task.self (corDestroy task.callee (smemDestroy task.stack s))

/-- `law_task_pool_destroy`: the tasks of the list are popped and destroyed. -/
def taskPoolDestroy (pool : TaskPoolMem) (s : Accounts CellKind) : Accounts CellKind :=
  free pool.self (destroyEach taskDestroy pool.list s)

/-- `law_task_pool_create`: each task is pushed to the front of the list. -/
def taskPoolCreate (cfg : CreationCfg) (s : Accounts CellKind) :
    Option TaskPoolMem × Accounts CellKind :=
  orUndo id (calloc p s) fun pool s =>
    match createEach (fun _ => taskCreate p cfg.stack cfg.guards) (fun list task => task :: list)
        (cfg.workerTasks * cfg.workers) 0 [] s with
    | (true, list, s) => (some ⟨pool, list⟩, s)
    | (false, list, s) => (none, free pool (destroyEach taskDestroy list s))

/-- `law_evo_create`. -/
def evoCreate (s : Accounts CellKind) : Option EvoMem × Accounts CellKind :=
  orUndo id (calloc p s) fun evo s =>
    orUndo (free evo) (calloc p s) fun events s => (some ⟨evo, events⟩, s)

/-- `law_evo_destroy`. -/
def evoDestroy (evo : EvoMem) (s : Accounts CellKind) : Accounts CellKind :=
  free evo.self (free evo.events s)

variable {p} (array : Lifetime p ∅ α) (map : Lifetime p ∅ β)

/-- `law_timer_create`. -/
def timerCreate (s : Accounts CellKind) : Option (TimerMem α) × Accounts CellKind :=
  orUndo id (calloc p s) fun timer s =>
    orUndo (free timer) (array.create s) fun array s => (some ⟨timer, array⟩, s)

/-- `law_timer_destroy`. -/
def timerDestroy (timer : TimerMem α) (s : Accounts CellKind) : Accounts CellKind :=
  free timer.self (array.destroy timer.array s)

/-- `law_table_create`. -/
def tableCreate (s : Accounts CellKind) : Option (TableMem β) × Accounts CellKind :=
  orUndo id (calloc p s) fun table s =>
    orUndo (free table) (map.create s) fun map s => (some ⟨table, map, []⟩, s)

/-- `law_table_destroy`. -/
def tableDestroy (table : TableMem β) (s : Accounts CellKind) : Accounts CellKind :=
  free table.self (map.destroy table.map (destroyEach free table.nodes s))

/-- `law_worker_create`. -/
def workerCreate (id : ℕ) (s : Accounts CellKind) :
    Option (WorkerMem α β) × Accounts CellKind :=
  orUndo (fun s => s) (calloc p s) fun w s =>
    let freeWorker := free w
    orUndo freeWorker (corCreate p s) fun caller s =>
      let freeCaller := fun s => freeWorker (corDestroy caller s)
      orUndo freeCaller (timerCreate array s) fun timer s =>
        let freeTimer := fun s => freeCaller (timerDestroy array timer s)
        orUndo freeTimer (evoCreate p s) fun evo s =>
          let freeEvo := fun s => freeTimer (evoDestroy evo s)
          orUndo freeEvo (tableCreate map s) fun table s =>
            (some ⟨w, id, caller, timer, evo, table⟩, s)

/-- `law_worker_destroy`. -/
def workerDestroy (w : WorkerMem α β) (s : Accounts CellKind) : Accounts CellKind :=
  free w.self (corDestroy w.caller (timerDestroy array w.timer
    (evoDestroy w.evo (tableDestroy map w.table s))))

/-- `law_server_create`. -/
def serverCreate (cfg : CreationCfg) (s : Accounts CellKind) :
    Option (ServerMem α β) × Accounts CellKind :=
  orUndo id (calloc p s) fun server s =>
    let freeServer := free server
    orUndo freeServer (calloc p s) fun threads s =>
      let freePthreads := fun s => freeServer (free threads s)
      orUndo freePthreads (calloc p s) fun workers s =>
        let freeWorkerPtrs := fun s => freePthreads (free workers s)
        orUndo freeWorkerPtrs (evoCreate p s) fun evo s =>
          let freeEvo := fun s => freeWorkerPtrs (evoDestroy evo s)
          orUndo freeEvo (taskPoolCreate p cfg s) fun pool s =>
            match createEach (workerCreate array map) (fun ws w => ws ++ [w])
                cfg.workers 0 [] s with
            | (true, ws, s) => (some ⟨server, threads, workers, evo, pool, ws⟩, s)
            | (false, ws, s) =>
              (none, freeEvo (taskPoolDestroy pool (destroyEach (workerDestroy array map) ws s)))

/-- `law_server_destroy`. -/
def serverDestroy (srv : ServerMem α β) (s : Accounts CellKind) : Accounts CellKind :=
  free srv.self (free srv.threads (free srv.workers (evoDestroy srv.evo
    (taskPoolDestroy srv.pool (destroyEach (workerDestroy array map) srv.worker s)))))

end Calls

/-! ### What each of them holds -/

section Cells

variable {p : Provider CellKind} {α β : Type}

/-- A block of memory. -/
def blockCells (n : ℕ) : Multiset (CellKind × ℕ) := {(.block, n)}

def Smem.cells (mem : Smem) : Multiset (CellKind × ℕ) :=
  {(.mapping, mem.address)} + blockCells mem.self

def TaskMem.cells (task : TaskMem) : Multiset (CellKind × ℕ) :=
  task.stack.cells + (blockCells task.callee + blockCells task.self)

def TaskPoolMem.cells (pool : TaskPoolMem) : Multiset (CellKind × ℕ) :=
  cellsEach TaskMem.cells pool.list + blockCells pool.self

def EvoMem.cells (evo : EvoMem) : Multiset (CellKind × ℕ) :=
  blockCells evo.events + blockCells evo.self

variable (array : Lifetime p ∅ α) (map : Lifetime p ∅ β)

def TimerMem.cells (timer : TimerMem α) : Multiset (CellKind × ℕ) :=
  array.cells timer.array + blockCells timer.self

def TableMem.cells (table : TableMem β) : Multiset (CellKind × ℕ) :=
  cellsEach blockCells table.nodes + (map.cells table.map + blockCells table.self)

def WorkerMem.cells (w : WorkerMem α β) : Multiset (CellKind × ℕ) :=
  w.table.cells map +
    (w.evo.cells + (w.timer.cells array + (blockCells w.caller + blockCells w.self)))

def ServerMem.cells (srv : ServerMem α β) : Multiset (CellKind × ℕ) :=
  cellsEach (WorkerMem.cells array map) srv.worker + (srv.pool.cells + (srv.evo.cells +
    (blockCells srv.workers + (blockCells srv.threads + blockCells srv.self))))

end Cells

/-- What `law_smem_create` may lose. -/
def unprotected : Set (CellKind × ℕ) := {x | x.1 = .mapping}

section Specs

variable {p : Provider CellKind} {α β : Type} {base held : Multiset (CellKind × ℕ)}

theorem calloc_creates (p : Provider CellKind) : Creates p ∅ blockCells (calloc p) :=
  .acquire p .block

theorem free_destroys : Destroys blockCells free := fun n _ _ => .release CellKind.block n

theorem smemDestroy_destroys : Destroys Smem.cells smemDestroy := fun mem _ _ =>
  ((GivesBack.release .mapping mem.address).then (free_destroys mem.self)).congr
    (add_assoc ..)

theorem taskDestroy_destroys : Destroys TaskMem.cells taskDestroy := fun task _ _ =>
  ((smemDestroy_destroys task.stack).then ((free_destroys task.callee).then
    (free_destroys task.self))).congr (by simp only [TaskMem.cells, add_assoc])

theorem taskPoolDestroy_destroys : Destroys TaskPoolMem.cells taskPoolDestroy := fun pool _ _ =>
  ((taskDestroy_destroys.each pool.list).then (free_destroys pool.self)).congr
    (add_assoc ..)

theorem evoDestroy_destroys : Destroys EvoMem.cells evoDestroy := fun evo _ _ =>
  ((free_destroys evo.events).then (free_destroys evo.self)).congr (add_assoc ..)

theorem timerDestroy_destroys (array : Lifetime p ∅ α) :
    Destroys (TimerMem.cells array) (timerDestroy array) := fun timer _ _ =>
  ((array.destroys timer.array).then (free_destroys timer.self)).congr (add_assoc ..)

theorem tableDestroy_destroys (map : Lifetime p ∅ β) :
    Destroys (TableMem.cells map) (tableDestroy map) := fun table _ _ =>
  ((free_destroys.each table.nodes).then ((map.destroys table.map).then
    (free_destroys table.self))).congr (by simp only [TableMem.cells, add_assoc])

theorem workerDestroy_destroys (array : Lifetime p ∅ α) (map : Lifetime p ∅ β) :
    Destroys (WorkerMem.cells array map) (workerDestroy array map) := fun w _ _ =>
  ((tableDestroy_destroys map w.table).then ((evoDestroy_destroys w.evo).then
    ((timerDestroy_destroys array w.timer).then ((free_destroys w.caller).then
      (free_destroys w.self))))).congr (by simp only [WorkerMem.cells, add_assoc])

theorem serverDestroy_destroys (array : Lifetime p ∅ α) (map : Lifetime p ∅ β) :
    Destroys (ServerMem.cells array map) (serverDestroy array map) := fun srv _ _ =>
  (((workerDestroy_destroys array map).each srv.worker).then
    ((taskPoolDestroy_destroys srv.pool).then ((evoDestroy_destroys srv.evo).then
      ((free_destroys srv.workers).then ((free_destroys srv.threads).then
        (free_destroys srv.self)))))).congr (by simp only [ServerMem.cells, add_assoc])

theorem smemCreate_creates (p : Provider CellKind) (length guard : ℕ) :
    Creates p unprotected Smem.cells (smemCreate p length guard) := by
  intro base held s h
  refine ((calloc_creates p h).mono (Set.empty_subset _)).orUndo .nothing fun mem s₁ h₁ hl₁ => ?_
  rw [← hl₁]
  refine ((Creates.acquire p .file h₁).mono (Set.empty_subset _)).orUndo (free_destroys mem)
    fun devz s₂ h₂ hl₂ => ?_
  rw [← hl₂]
  refine ((Creates.acquire p .mapping h₂).mono (Set.empty_subset _)).finally.orUndo
    (free_destroys mem) fun address s₃ h₃ hl₃ => ?_
  rw [← hl₃]
  rcases hcall : p.request (.use .mapping address) s₃ with ⟨_ | _, s₄⟩
  · have hrefused := Provider.request_refused hcall
    obtain ⟨-, rfl⟩ := Prod.mk.inj hcall
    have h₄ := (h₃.request (p := p) (.use .mapping address)).congr (Multiset.singleton_add ..)
    exact (free_destroys mem).refused h₄.lose ⟨_, hrefused⟩
      (.inr ⟨(.mapping, address), rfl, hrefused, rfl⟩)
  · obtain ⟨-, rfl⟩ := Prod.mk.inj hcall
    exact .made ((h₃.request (p := p) _).congr (add_assoc ..).symm) rfl

theorem taskCreate_creates (p : Provider CellKind) (stackLength stackGuard : ℕ) :
    Creates p unprotected TaskMem.cells (taskCreate p stackLength stackGuard) := by
  intro base held s h
  refine ((calloc_creates p h).mono (Set.empty_subset _)).orUndo .nothing fun task s₁ h₁ hl₁ => ?_
  rw [← hl₁]
  refine ((calloc_creates p h₁).mono (Set.empty_subset _)).orUndo (free_destroys task)
    fun callee s₂ h₂ hl₂ => ?_
  rw [← hl₂]
  refine (smemCreate_creates p _ _ h₂).orUndo ((free_destroys callee).then (free_destroys task))
    fun stack s₃ h₃ hl₃ => ?_
  exact .made (h₃.congr (by simp only [TaskMem.cells, add_assoc])) hl₃

theorem taskPoolCreate_creates (p : Provider CellKind) (cfg : CreationCfg) :
    Creates p unprotected TaskPoolMem.cells (taskPoolCreate p cfg) := by
  intro base held s h
  refine ((calloc_creates p h).mono (Set.empty_subset _)).orUndo .nothing fun pool s₁ h₁ hl₁ => ?_
  rw [← hl₁]
  have hnone : Balanced base (cellsEach TaskMem.cells [] + (blockCells pool + held)) s₁ :=
    h₁.congr (by simp [cellsEach])
  have hstore : ∀ (l : List TaskMem) a, (a :: l).Perm (a :: l) := fun _ _ => .refl _
  have heach := Creates.each (fun _ => taskCreate_creates p cfg.stack cfg.guards) hstore
    (cfg.workerTasks * cfg.workers) 0 hnone
  generalize createEach _ _ _ _ _ _ = out at heach ⊢
  cases heach with
  | all h₂ hl₂ => exact .made (h₂.congr (add_assoc ..).symm) hl₂
  | refused h₂ hrefused hlost =>
    exact ((taskDestroy_destroys.each _).then (free_destroys pool)).refused h₂ hrefused hlost

theorem evoCreate_creates (p : Provider CellKind) : Creates p ∅ EvoMem.cells (evoCreate p) := by
  intro base held s h
  refine (calloc_creates p h).orUndo .nothing fun evo s₁ h₁ hl₁ => ?_
  rw [← hl₁]
  refine (calloc_creates p h₁).orUndo (free_destroys evo) fun events s₂ h₂ hl₂ => ?_
  exact .made (h₂.congr (add_assoc ..).symm) hl₂

theorem timerCreate_creates (array : Lifetime p ∅ α) :
    Creates p ∅ (TimerMem.cells array) (timerCreate array) := by
  intro base held s h
  refine (calloc_creates p h).orUndo .nothing fun timer s₁ h₁ hl₁ => ?_
  rw [← hl₁]
  refine (array.creates h₁).orUndo (free_destroys timer) fun _ s₂ h₂ hl₂ => ?_
  exact .made (h₂.congr (add_assoc ..).symm) hl₂

theorem tableCreate_creates (map : Lifetime p ∅ β) :
    Creates p ∅ (TableMem.cells map) (tableCreate map) := by
  intro base held s h
  refine (calloc_creates p h).orUndo .nothing fun table s₁ h₁ hl₁ => ?_
  rw [← hl₁]
  refine (map.creates h₁).orUndo (free_destroys table) fun _ s₂ h₂ hl₂ => ?_
  exact .made (h₂.congr (by simp [TableMem.cells, cellsEach, add_assoc])) hl₂

theorem workerCreate_creates (array : Lifetime p ∅ α) (map : Lifetime p ∅ β) (id : ℕ) :
    Creates p ∅ (WorkerMem.cells array map) (workerCreate array map id) := by
  intro base held s h
  refine (calloc_creates p h).orUndo .nothing fun w s₁ h₁ hl₁ => ?_
  rw [← hl₁]
  refine (calloc_creates p h₁).orUndo (free_destroys w) fun caller s₂ h₂ hl₂ => ?_
  have freeCaller : GivesBack base (blockCells caller + (blockCells w + held)) held _ :=
    (free_destroys caller).then (free_destroys w)
  rw [← hl₂]
  refine (timerCreate_creates array h₂).orUndo freeCaller fun timer s₃ h₃ hl₃ => ?_
  have freeTimer := (timerDestroy_destroys array timer).then freeCaller
  rw [← hl₃]
  refine (evoCreate_creates p h₃).orUndo freeTimer fun evo s₄ h₄ hl₄ => ?_
  have freeEvo := (evoDestroy_destroys evo).then freeTimer
  rw [← hl₄]
  refine (tableCreate_creates map h₄).orUndo freeEvo fun table s₅ h₅ hl₅ => ?_
  exact .made (h₅.congr (by simp only [WorkerMem.cells, add_assoc])) hl₅

theorem serverCreate_creates (array : Lifetime p ∅ α) (map : Lifetime p ∅ β) (cfg : CreationCfg) :
    Creates p unprotected (ServerMem.cells array map) (serverCreate array map cfg) := by
  intro base held s h
  refine ((calloc_creates p h).mono (Set.empty_subset _)).orUndo .nothing
    fun server s₁ h₁ hl₁ => ?_
  rw [← hl₁]
  refine ((calloc_creates p h₁).mono (Set.empty_subset _)).orUndo (free_destroys server)
    fun threads s₂ h₂ hl₂ => ?_
  have freePthreads : GivesBack base (blockCells threads + (blockCells server + held)) held _ :=
    (free_destroys threads).then (free_destroys server)
  rw [← hl₂]
  refine ((calloc_creates p h₂).mono (Set.empty_subset _)).orUndo freePthreads
    fun workers s₃ h₃ hl₃ => ?_
  have freeWorkerPtrs := (free_destroys workers).then freePthreads
  rw [← hl₃]
  refine ((evoCreate_creates p h₃).mono (Set.empty_subset _)).orUndo freeWorkerPtrs
    fun evo s₄ h₄ hl₄ => ?_
  have freeEvo := (evoDestroy_destroys evo).then freeWorkerPtrs
  rw [← hl₄]
  refine (taskPoolCreate_creates p cfg h₄).orUndo freeEvo fun pool s₅ h₅ hl₅ => ?_
  rw [← hl₅]
  have hnone : Balanced base (cellsEach (WorkerMem.cells array map) [] + (pool.cells +
      (evo.cells + (blockCells workers + (blockCells threads + (blockCells server + held)))))) s₅ :=
    h₅.congr (by simp [cellsEach])
  have heach := Creates.each (workerCreate_creates array map) (fun l a => l.perm_append_singleton a)
    cfg.workers 0 hnone
  generalize createEach _ _ _ _ _ _ = out at heach ⊢
  cases heach with
  | all h₆ hl₆ => exact .made (h₆.congr (by simp only [ServerMem.cells, add_assoc])) hl₆
  | refused h₆ hrefused hlost =>
    have hnothing : Accounts.LostUnused _ unprotected _ := .inl (hlost.resolve_right fun hlost => by
      obtain ⟨x, hx, -⟩ := hlost
      exact hx)
    exact (((workerDestroy_destroys array map).each _).then
      ((taskPoolDestroy_destroys pool).then freeEvo)).refused h₆ hrefused hnothing

/-- The assertion of `law_task_pool_create`, that its capacity is its size. -/
theorem taskPoolCreate_length {cfg : CreationCfg} {pool : TaskPoolMem} {s t : Accounts CellKind}
    (h : taskPoolCreate p cfg s = (some pool, t)) :
    pool.list.length = cfg.workerTasks * cfg.workers := by
  obtain ⟨self, s₁, -, h⟩ := orUndo_eq_some h
  split at h
  · next list u heach =>
    obtain ⟨hpool, -⟩ := Prod.mk.inj h
    obtain rfl := Option.some.inj hpool
    have hlength := createEach_length (fun _ _ => .refl _) heach
    rwa [List.length_nil, Nat.zero_add] at hlength
  · cases (Prod.mk.inj h).1

theorem serverCreate_length {array : Lifetime p ∅ α} {map : Lifetime p ∅ β} {cfg : CreationCfg}
    {srv : ServerMem α β} {s t : Accounts CellKind}
    (h : serverCreate array map cfg s = (some srv, t)) :
    srv.pool.list.length = cfg.workerTasks * cfg.workers ∧ srv.worker.length = cfg.workers := by
  obtain ⟨self, s₁, -, h⟩ := orUndo_eq_some h
  obtain ⟨threads, s₂, -, h⟩ := orUndo_eq_some h
  obtain ⟨workers, s₃, -, h⟩ := orUndo_eq_some h
  obtain ⟨evo, s₄, -, h⟩ := orUndo_eq_some h
  obtain ⟨pool, s₅, hpool, h⟩ := orUndo_eq_some h
  split at h
  · next ws u heach =>
    obtain ⟨hsrv, -⟩ := Prod.mk.inj h
    obtain rfl := Option.some.inj hsrv
    have hlength := createEach_length (fun l a => l.perm_append_singleton a) heach
    rw [List.length_nil, Nat.zero_add] at hlength
    exact ⟨taskPoolCreate_length hpool, hlength⟩
  · cases (Prod.mk.inj h).1

end Specs

/-- Nothing is freed that is not live, and nothing twice. A server that is created
holds all that was given out for it, with all its tasks and workers, and destroying
it gives everything back, in whatever order its tasks have come back to the pool.
Where there is no server, something was asked for and refused, and what is still live
is the mapping, if there is one, whose `mprotect` was. -/
theorem server_created_whole (p : Provider CellKind) {α β : Type} (array : Lifetime p ∅ α)
    (map : Lifetime p ∅ β) (cfg : CreationCfg) (live : Multiset (CellKind × ℕ))
    {out : Option (ServerMem α β)} {s : Accounts CellKind}
    (h : serverCreate array map cfg (.start live) = (out, s)) :
    balance s.ledger live = some s.live ∧
    (∀ srv, out = some srv → s.live = live + srv.cells array map ∧
      srv.pool.list.length = cfg.workerTasks * cfg.workers ∧ srv.worker.length = cfg.workers ∧
      ∀ list, list.Perm srv.pool.list →
        let t := serverDestroy array map { srv with pool := { srv.pool with list := list } } s
        balance t.ledger live = some live ∧ t.live = live) ∧
    (out = none → s.Refused ∧ (s.live = live ∨ ∃ address,
      (.use .mapping address, false) ∈ s.asked ∧ s.live = live + {(.mapping, address)})) := by
  have hmade := serverCreate_creates array map cfg (Balanced.start live)
  rw [h] at hmade
  obtain ⟨hledger, hheld, hnone⟩ := hmade.fresh
  refine ⟨hledger, fun srv hsrv => ?_, fun hout => ?_⟩
  · subst hsrv
    obtain ⟨htasks, hworkers⟩ := serverCreate_length h
    refine ⟨hheld srv rfl, htasks, hworkers, fun list hperm => ?_⟩
    refine (serverDestroy_destroys array map).all hmade ?_
    simp only [ServerMem.cells, TaskPoolMem.cells, cellsEach_perm hperm]
  · obtain ⟨hrefused, hleft⟩ := hnone hout
    exact ⟨hrefused, hleft.imp_right fun ⟨⟨_, address⟩, rfl, hleft⟩ => ⟨address, hleft⟩⟩

theorem counting_not_mem (live : Multiset (CellKind × ℕ)) (kind : CellKind) :
    (kind, (live.map Prod.snd).sup + 1) ∉ live := fun hmem => by
  have hle : (live.map Prod.snd).sup + 1 ≤ (live.map Prod.snd).sup :=
    Multiset.le_sup (Multiset.mem_map_of_mem Prod.snd hmem)
  omega

/-- A system that gives out one number after the other, and refuses one request. -/
def countingProvider (refused : ℕ) : Provider CellKind :=
  ⟨(· == refused), fun live _ => (live.map Prod.snd).sup + 1, counting_not_mem⟩

/-- An array or a map that is one block. -/
def blockLifetime (p : Provider CellKind) : Lifetime p ∅ ℕ :=
  ⟨blockCells, calloc p, free, calloc_creates p, free_destroys⟩

def oneTask : CreationCfg :=
  ⟨1, 32, 1, 32, 4096, 4096, by decide, by decide, by decide, by decide⟩

/-- The first task's stack cannot be used. -/
theorem server_created_whole_unprotected : ∃ s,
    serverCreate (blockLifetime (countingProvider 11)) (blockLifetime (countingProvider 11))
      oneTask (.start {(.file, 2)}) = (none, s) ∧
    ∃ address, (.use .mapping address, false) ∈ s.asked ∧
      s.live = {(.file, 2)} + {(.mapping, address)} := by
  have hnone : (serverCreate (blockLifetime (countingProvider 11))
      (blockLifetime (countingProvider 11)) oneTask (.start {(.file, 2)})).1.isSome = false := by
    decide
  have hlive : (serverCreate (blockLifetime (countingProvider 11))
      (blockLifetime (countingProvider 11)) oneTask (.start {(.file, 2)})).2.live ≠
        {(.file, 2)} := by
    decide
  rcases hrun : serverCreate (blockLifetime (countingProvider 11))
    (blockLifetime (countingProvider 11)) oneTask (.start {(.file, 2)}) with ⟨out, s⟩
  rw [hrun] at hnone hlive
  obtain rfl : out = none := Option.not_isSome_iff_eq_none.mp (by simpa using hnone)
  obtain ⟨-, -, hleft⟩ := server_created_whole _ _ _ _ _ hrun
  exact ⟨s, hrun, (hleft rfl).2.resolve_left hlive⟩

end Lawd.Creation

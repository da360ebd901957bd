import Lawd.PoolCalls
import Lawd.Worker

/-!
# The server

The acceptor thread, the worker threads and any other threads that call
`law_spawn` share the task pool and the pipes. A label names the thread that
moves and what its environment answers, so a run is any interleaving of any
number of threads. Pipes are written and read one pointer at a time, in order.
-/
namespace Lawd

open Library

/-- The threads: the acceptor, the workers, and callers of `law_spawn` outside
the server. -/
inductive Tid where
  | acceptor
  | worker (i : ℕ)
  | ext (n : ℕ)
  deriving DecidableEq, Repr

/-- Where a thread stands in `law_spawn`. -/
inductive SpawnPc where
  | idle
  | popping (callback : Callback) (data : Data)
  | trying (task : TaskPtr) (x : ℕ)
  deriving DecidableEq, Repr

/-- Where the acceptor stands in `law_server_spin` and `law_server_accept`. -/
inductive AcceptPc where
  | spin
  | checking
  | accept
  | popping (fd : ℕ)
  | pushing (task : TaskPtr) (x : ℕ)
  | waiting
  | draining
  | shutdown (n : ℕ)
  | done
  deriving DecidableEq, Repr

/-- The task a spawner holds between the pool pop and the pipe write. -/
def SpawnPc.hand : SpawnPc → List TaskPtr
  | trying p _ => [p]
  | _ => []

/-- The task the acceptor holds between the pool pop and the pipe write. -/
def AcceptPc.hand : AcceptPc → List TaskPtr
  | pushing p _ => [p]
  | _ => []

/-- `law_server_t` with its pool, its pipes and its workers, and where each
thread stands. The number of tasks ever set up and the tasks that a failed
`law_spawn` dropped are recorded; the code does not have them. -/
@[ext]
structure State (P : Platform) extends PoolState Tid where
  mode : Mode
  seed : Id
  spawned : ℕ
  lost : List TaskPtr
  spawnPc : Tid → SpawnPc
  acceptPc : AcceptPc
  incoming : ℕ → List TaskPtr
  messages : ℕ → List Msg
  workers : ℕ → Worker P

/-- States are equal if they agree on the single values, on every thread, and on
every task and worker. -/
theorem State.ext_points {s t : State P}
    (hdata : (s.lock, s.list, s.size, s.capacity, s.mode, s.seed, s.spawned, s.lost, s.acceptPc) =
      (t.lock, t.list, t.size, t.capacity, t.mode, t.seed, t.spawned, t.lost, t.acceptPc))
    (hthread : ∀ th, s.pc th = t.pc th ∧ s.spawnPc th = t.spawnPc th)
    (hplace : ∀ i, s.heap i = t.heap i ∧ s.incoming i = t.incoming i ∧
      s.messages i = t.messages i ∧ s.workers i = t.workers i) : s = t := by
  simp only [Prod.mk.injEq] at hdata
  obtain ⟨hlock, hlist, hsize, hcapacity, hmode, hseed, hspawned, hlost, haccept⟩ := hdata
  exact State.ext (funext fun i => (hplace i).1) hlock hlist hsize hcapacity
    (funext fun th => (hthread th).1) hmode hseed hspawned hlost (funext fun th => (hthread th).2)
    haccept (funext fun i => (hplace i).2.1) (funext fun i => (hplace i).2.2.1)
    (funext fun i => (hplace i).2.2.2)

/-- `law_server_create`, `law_open` and `law_start`. -/
def serverCreate (P : Platform) (cfg : Config) (heap : Heap) : State P where
  toPoolState := poolCreate heap (cfg.workerTasks * cfg.workers)
  mode := .running
  seed := 0
  spawned := 0
  lost := []
  spawnPc := fun _ => .idle
  acceptPc := .spin
  incoming := fun _ => []
  messages := fun _ => []
  workers := fun _ => workerCreate P cfg

/-- What `accept` and the two calls of `fcntl` answer. -/
inductive AcceptResult where
  | fd (fd : ℕ)
  | again
  | unreachable
  | aborted
  | fatal
  | fcntlFails
  deriving DecidableEq, Repr

/-- The labels. -/
inductive Action where
  /-- A step inside a call on the pool. -/
  | pool (th : Tid)
  /-- A call of `law_spawn`, and its next step; a set-up task gets a random version. -/
  | spawn (th : Tid) (callback : Callback) (data : Data)
  | spawnStep (th : Tid) (version : Vers)
  /-- A step of the acceptor. -/
  | accept (result : AcceptResult)
  | acceptStep (version : Vers)
  /-- A step of a worker, and its push of a finished task to the pool. -/
  | worker (i : ℕ) (act : WorkerAct)
  | release (i : ℕ)
  /-- `LAW_MSG_WAKEUP` arrives. -/
  | wakeup (i : ℕ) (id : Id)
  /-- `law_stop`. -/
  | stop

section Step

variable {P : Platform}

/-- A worker's view of the server. -/
def State.view (s : State P) (i : ℕ) : View P :=
  ⟨s.heap, s.incoming i, s.messages i, s.workers i⟩

/-- The server after a worker's step. -/
def State.setView (s : State P) (i : ℕ) (v : View P) : State P :=
  { s with heap := v.heap,
           incoming := Function.update s.incoming i v.incoming,
           messages := Function.update s.messages i v.messages,
           workers := Function.update s.workers i v.worker }

@[simp] theorem State.view_setView (s : State P) (i : ℕ) (v : View P) :
    (s.setView i v).view i = v := by
  simp only [State.view, State.setView, Function.update_self]

/-- A thread calls the pool, or takes what a call returned. -/
def State.setPc (s : State P) (th : Tid) (pc : PoolPc) : State P :=
  { s with toPoolState := s.toPoolState.setPc th pc }

/-- `law_server_genid` and `law_task_setup`. -/
def State.setup (s : State P) (p : TaskPtr) (callback : Callback) (data : Data)
    (version : Vers) : State P :=
  let id := (s.seed + 1) % idModulo
  { s with seed := id, spawned := s.spawned + 1,
           heap := s.heap.modify p fun task =>
             { taskSetup task id callback data version with serial := s.spawned + 1 } }

/-- `law_task_queue_push`; `none` is `LAW_ERR_WANTW`. -/
def State.pushIncoming (cfg : Config) (s : State P) (i : ℕ) (p : TaskPtr) : Option (State P) :=
  if (s.incoming i).length < cfg.pipeCapacity then
    some { s with incoming := Function.update s.incoming i (s.incoming i ++ [p]) }
  else none

/-- The threads that run code outside the server, or a task. -/
def State.MaySpawn (cfg : Config) (s : State P) : Tid → Prop
  | .acceptor => False
  | .ext _ => True
  | .worker i => i < cfg.workers ∧ ∃ p ∈ (s.workers i).active, (s.view i).Runs p

instance (cfg : Config) (s : State P) (th : Tid) : Decidable (s.MaySpawn cfg th) :=
  match th with
  | .acceptor => inferInstanceAs (Decidable False)
  | .ext _ => inferInstanceAs (Decidable True)
  | .worker i =>
    inferInstanceAs (Decidable (i < cfg.workers ∧ ∃ p ∈ (s.workers i).active, (s.view i).Runs p))

def State.setSpawn (s : State P) (th : Tid) (pc : SpawnPc) : State P :=
  { s with spawnPc := Function.update s.spawnPc th pc }

/-- The entry of `law_spawn`. -/
def spawnCall (cfg : Config) (s : State P) (th : Tid) (callback : Callback) (data : Data) :
    Option (State P) :=
  if s.MaySpawn cfg th ∧ s.spawnPc th = .idle ∧ s.pc th = .idle then
    some ((s.setPc th (.call .pop)).setSpawn th (.popping callback data))
  else none

/-- `law_spawn` after the pop: set the task up and try the workers in order. -/
def spawnStep (cfg : Config) (s : State P) (th : Tid) (version : Vers) : Option (State P) :=
  match s.spawnPc th with
  | .idle => none
  | .popping callback data =>
    match s.pc th with
    -- returns `LAW_ERR_LIMIT`
    | .done (.task none) => some ((s.setPc th .idle).setSpawn th .idle)
    | .done (.task (some p)) =>
      some (((s.setup p callback data version).setPc th .idle).setSpawn th (.trying p 0))
    | _ => none
  | .trying p x =>
    if s.pc th ≠ .idle then none
    else if x < cfg.workers then
      match s.pushIncoming cfg x p with
      | some s => some (s.setSpawn th .idle)
      | none => some (s.setSpawn th (.trying p (x + 1)))
    -- returns `LAW_ERR_WANTW`, and the task is in no place any more
    else some (State.setSpawn { s with lost := p :: s.lost } th .idle)

/-- `accept` and `fcntl` in `law_server_accept`. -/
def acceptStepResult (cfg : Config) (s : State P) (result : AcceptResult) : Option (State P) :=
  if s.acceptPc = .accept ∧ s.pc .acceptor = .idle then
    match result with
    | .fd fd => some { s.setPc .acceptor (.call .pop) with acceptPc := .popping fd }
    | .again => some { s with acceptPc := .waiting }
    | .unreachable => callOnError cfg { s with acceptPc := .waiting }
    | .aborted =>
      callOnError cfg { s.setPc .acceptor (.call .isEmpty) with acceptPc := .checking }
    | .fatal => callOnError cfg { s.setPc .acceptor (.call .isFull) with acceptPc := .draining }
    | .fcntlFails => some { s.setPc .acceptor (.call .isFull) with acceptPc := .draining }
  else none

/-- The worker that `law_spawn_dispatch_once` tries at turn `x`. -/
def dispatchIndex (cfg : Config) (id : Id) (x : ℕ) : ℕ := (x + id.toNat) % cfg.workers

/-- The other steps of `law_server_spin`, `law_server_accept` and
`law_spawn_dispatch`. -/
def acceptStep (cfg : Config) (s : State P) (version : Vers) : Option (State P) :=
  match s.acceptPc with
  | .spin =>
    if s.pc .acceptor ≠ .idle then none
    else if s.mode = .running then
      some { s.setPc .acceptor (.call .isEmpty) with acceptPc := .checking }
    else some { s.setPc .acceptor (.call .isFull) with acceptPc := .draining }
  | .checking =>
    match s.pc .acceptor with
    | .done (.flag true) => some { s.setPc .acceptor .idle with acceptPc := .waiting }
    | .done (.flag false) => some { s.setPc .acceptor .idle with acceptPc := .accept }
    | _ => none
  | .accept => none
  | .popping fd =>
    match s.pc .acceptor with
    | .done (.task (some p)) =>
      some { (s.setup p .accept (BitVec.ofNat 64 fd) version).setPc .acceptor .idle with
             acceptPc := .pushing p 0 }
    | _ => none
  | .pushing p x =>
    if s.pc .acceptor ≠ .idle then none
    else if x < cfg.workers then
      match s.pushIncoming cfg (dispatchIndex cfg (s.heap p).id x) p with
      | some s => some { s.setPc .acceptor (.call .isEmpty) with acceptPc := .checking }
      | none => some { s with acceptPc := .pushing p (x + 1) }
    -- all pipes are full: wait for one of them, and dispatch again
    else some { s with acceptPc := .pushing p 0 }
  | .waiting => some { s with acceptPc := .spin }
  | .draining =>
    match s.pc .acceptor with
    | .done (.flag true) => some { s.setPc .acceptor .idle with acceptPc := .shutdown 0 }
    | .done (.flag false) => some (s.setPc .acceptor (.call .isFull))
    | _ => none
  | .shutdown n =>
    if n < cfg.workers then
      some { s with messages := Function.update s.messages n (s.messages n ++ [.shutdown]),
                    acceptPc := .shutdown (n + 1) }
    else some { s with acceptPc := .done }
  | .done => none

/-- The push of a finished task at the end of `law_worker_dispatch`. -/
def releaseStep (cfg : Config) (s : State P) (i : ℕ) : Option (State P) :=
  let setPc (pc : WorkerPc) : State P :=
    { s with workers := Function.update s.workers i { s.workers i with pc := pc } }
  if cfg.workers ≤ i then none
  else
    match (s.workers i).pc, s.pc (.worker i) with
    | .removed p, .idle => some ((setPc .pushing).setPc (.worker i) (.call (.push p)))
    | .pushing, .done .unit => some ((setPc .dispatch).setPc (.worker i) .idle)
    | _, _ => none

/-- One step of the server. -/
def serverStep (cfg : Config) (s : State P) : Action → Option (State P)
  | .pool th => (poolStep s.toPoolState th).map fun t => { s with toPoolState := t }
  | .spawn th callback data => spawnCall cfg s th callback data
  | .spawnStep th version => spawnStep cfg s th version
  | .accept result => acceptStepResult cfg s result
  | .acceptStep version => acceptStep cfg s version
  | .worker i act =>
    if i < cfg.workers ∧ s.spawnPc (.worker i) = .idle ∧ s.pc (.worker i) = .idle then
      (workerStep cfg (s.view i) act).map (s.setView i)
    else none
  | .release i => releaseStep cfg s i
  | .wakeup i id =>
    some { s with messages := Function.update s.messages i (s.messages i ++ [.wakeup id]) }
  | .stop => if s.mode = .running then some { s with mode := .stopping } else none

end Step

/-- The runs of a server on newly created tasks. -/
def serverSystem (P : Platform) (cfg : Config) : System (State P) Action where
  initial s := ∃ heap, FreshHeap heap ∧ s = serverCreate P cfg heap
  step := serverStep cfg

end Lawd

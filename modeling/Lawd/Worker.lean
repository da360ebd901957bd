import Lawd.Table
import Lawd.Slot
import Lawd.Task
import Lawd.Library.PriorityQueue

/-!
# Workers

One turn of each loop of `law_worker_tick` and of `law_worker_dispatch`, and
what a running task may do. A worker works on its own table, timer, ready set
and poll set, on the tasks it owns, and on its two pipes.
-/
namespace Lawd

open Library

/-- `law_timer_elem_t`. -/
structure TimerElem where
  expiration : Time
  identifier : Id
  version : Vers
  deriving DecidableEq, Repr

/-- The hash map and the heap that the server is built with. -/
structure Platform where
  fnv : List UInt8 → ℕ
  tables : KeyedMap (tableIface TaskPtr fnv)
  timers : PriorityQueue TimerElem.expiration

/-- A platform whose hash map and heap are lists. -/
def Platform.lists : Platform := ⟨fun _ => 0, KeyedMap.ofList _, PriorityQueue.ofList _⟩

/-- The part of `law_server_cfg_t` that scheduling reads: whether `on_error` is
set, the timeout of a poll, and how many pointers fit in a pipe. -/
structure Config where
  workers : ℕ
  workerTasks : ℕ
  onError : Bool
  pipeCapacity : ℕ
  workerTimeout : Int32
  deriving Repr

/-- `law_msg_t`. -/
inductive Msg where
  | shutdown
  | wakeup (id : Id)
  deriving DecidableEq, Repr

/-- `enum law_ev_op`. -/
inductive EvOp where
  | add
  | mod
  | del
  deriving DecidableEq, Repr

/-- A registration in the poll set of a worker. The slot and the serial number
of the task that made it are recorded beside the stored value. -/
structure Reg where
  fd : ℕ
  events : BitVec 32
  value : BitVec 64
  slot : Slot
  serial : ℕ
  deriving DecidableEq

/-- `law_evo_ctl`; `none` is an error. -/
def evoCtl (interest : List Reg) (op : EvOp) (reg : Reg) : Option (List Reg) :=
  let known := interest.any fun r => r.fd == reg.fd
  match op with
  | .add => if known then none else some (reg :: interest)
  | .mod => if known then some (reg :: interest.filter fun r => r.fd != reg.fd) else none
  | .del => if known then some (interest.filter fun r => r.fd != reg.fd) else none

/-- `law_hts_pool_group_t`: the free buffers and stacks of a worker. -/
structure HtsPoolGroup where
  inPool : List ℕ
  outPool : List ℕ
  heapPool : List ℕ
  stackPool : List ℕ
  deriving Repr

/-- `law_hts_pool_group_create`: `worker_tasks` elements in each pool. -/
def htsPoolGroupCreate (workerTasks : ℕ) : HtsPoolGroup where
  inPool := (List.range workerTasks).reverse
  outPool := (List.range workerTasks).reverse
  heapPool := (List.range workerTasks).reverse
  stackPool := (List.range workerTasks).reverse

/-- The frame of `law_hts_entry` on the stack of a task: what its four pops
returned. -/
structure HtsEntry where
  task : TaskPtr
  input : Option ℕ
  output : Option ℕ
  heap : Option ℕ
  stack : Option ℕ
  deriving DecidableEq, Repr

/-- `SEL_ASSERT(in && out && heap && stack)`. -/
def HtsEntry.asserted (e : HtsEntry) : Bool :=
  e.input.isSome && e.output.isSome && e.heap.isSome && e.stack.isSome

/-- The four pops of `law_hts_entry`. -/
def htsEntryPop (grp : HtsPoolGroup) (task : TaskPtr) : HtsEntry × HtsPoolGroup :=
  (⟨task, grp.inPool.head?, grp.outPool.head?, grp.heapPool.head?, grp.stackPool.head?⟩,
    ⟨grp.inPool.tail, grp.outPool.tail, grp.heapPool.tail, grp.stackPool.tail⟩)

/-- The four pushes of `law_hts_entry`. -/
def htsEntryPush (grp : HtsPoolGroup) (e : HtsEntry) : HtsPoolGroup :=
  ⟨e.input.toList ++ grp.inPool, e.output.toList ++ grp.outPool, e.heap.toList ++ grp.heapPool,
    e.stack.toList ++ grp.stackPool⟩

/-- Where a worker thread stands. -/
inductive WorkerPc where
  | start
  | timers
  | events
  | messages
  | admitting
  | admitted (task : TaskPtr)
  | dispatch
  | running (task : TaskPtr)
  | removed (task : TaskPtr)
  | pushing
  | exited
  deriving DecidableEq, Repr

/-- The task a worker holds between a pipe read and the table insert, or between
the table removal and the pool push. -/
def WorkerPc.hand : WorkerPc → List TaskPtr
  | admitted p => [p]
  | removed p => [p]
  | _ => []

/-- `law_worker_t`, without its pipes, and the state of its loops. `timeout` is
what the last poll was given. -/
structure Worker (P : Platform) where
  pc : WorkerPc
  reloop : Bool
  timeout : Int32
  now : Time
  batch : List Event
  ready : Option TaskPtr
  active : Option TaskPtr
  table : P.tables.Map
  timer : P.timers.Queue
  interest : List Reg
  group : HtsPoolGroup
  entries : List HtsEntry

/-- `law_worker_create`, and the pool group of the HTTP server. -/
def workerCreate (P : Platform) (cfg : Config) : Worker P where
  pc := .start
  reloop := true
  timeout := 0
  now := 0
  batch := []
  ready := none
  active := none
  table := P.tables.empty
  timer := P.timers.empty
  interest := []
  group := htsPoolGroupCreate cfg.workerTasks
  entries := []

/-- What a worker thread works on: the tasks' memory, its incoming and message
pipes, and itself. -/
structure View (P : Platform) where
  heap : Heap
  incoming : List TaskPtr
  messages : List Msg
  worker : Worker P

section Tick

variable {P : Platform}

/-- The tasks in a worker's table. -/
def Worker.tasks (w : Worker P) : List TaskPtr :=
  (P.tables.nodes w.table).filterMap TableNode.pointer

/-- The task found in a worker's table under an id. -/
def Worker.lookup (w : Worker P) (id : Id) : Option TaskPtr := tableLookup P.tables w.table id

/-- Hand an event to a task and make it ready. -/
def View.wake (v : View P) (p : TaskPtr) (ev : Event) : Option (View P) :=
  (Lawd.wake v.heap v.worker.ready p ev).map fun out =>
    { v with heap := out.1, worker := { v.worker with ready := out.2 } }

/-- What `View.wake` leaves where the push is legal. -/
def View.pushed (v : View P) (p : TaskPtr) (ev : Event) : View P :=
  { v with heap := (v.heap.pushed v.worker.ready p ev).1,
           worker := { v.worker with ready := (v.heap.pushed v.worker.ready p ev).2 } }

theorem View.wake_eq (v : View P) (p : TaskPtr) (ev : Event) :
    v.wake p ev = if (v.heap p).PushLegal then some (v.pushed p ev) else none := by
  rw [View.wake, Lawd.wake_eq]
  split_ifs <;> rfl

theorem View.wake_some {v v' : View P} {p : TaskPtr} {ev : Event} (h : v.wake p ev = some v') :
    (v.heap p).PushLegal ∧ v' = v.pushed p ev := by
  rw [View.wake_eq] at h
  split_ifs at h with hlegal
  exact ⟨hlegal, (Option.some.inj h).symm⟩

/-- `law_evo_wait` may report registered values, and 0 for the worker's own pipes. -/
def Worker.Reports (w : Worker P) (batch : List Event) : Prop :=
  ∀ ev ∈ batch, ev.data = 0 ∨ ∃ r ∈ w.interest, r.value = ev.data

instance (w : Worker P) (batch : List Event) : Decidable (w.Reports batch) :=
  inferInstanceAs (Decidable (∀ ev ∈ batch, ev.data = 0 ∨ ∃ r ∈ w.interest, r.value = ev.data))

/-- The timeout that the head of `law_worker_tick` passes to `law_evo_wait`, with
the clock at `polled` when it is read. -/
def pollTimeout (workerTimeout : Int32) (timer : P.timers.Queue) (polled : Time) : Int32 :=
  let timeout : Time := workerTimeout.toInt64
  match P.timers.peek timer with
  | none => timeout.toInt32
  | some e =>
    if e.expiration ≤ polled then 0
    else
      let wake := e.expiration - polled
      if timeout < wake then timeout.toInt32 else wake.toInt32

/-- The head of `law_worker_tick`: poll, then read the clock. -/
def beginTick (cfg : Config) (v : View P) (polled now : Time) (batch : List Event) :
    Option (View P) :=
  if v.worker.pc = .start ∧ v.worker.Reports batch then
    some { v with worker := { v.worker with
                    pc := .timers, reloop := true,
                    timeout := pollTimeout cfg.workerTimeout v.worker.timer polled,
                    now := now, batch := batch } }
  else none

/-- A call of `on_error`, which crashes when it is not set. -/
def callOnError {σ : Type*} (cfg : Config) (s : σ) : Option σ :=
  if cfg.onError then some s else none

/-- One turn of the timer loop. -/
def timerTurn (cfg : Config) (v : View P) : Option (View P) :=
  match P.timers.peek v.worker.timer with
  | none => some { v with worker := { v.worker with pc := .events } }
  | some e =>
    if e.expiration > v.worker.now then
      some { v with worker := { v.worker with pc := .events } }
    else
      match P.timers.pop v.worker.timer with
      | none => none
      | some (_, timer) =>
        let v := { v with worker := { v.worker with timer := timer } }
        match v.worker.lookup e.identifier with
        | none => callOnError cfg v
        | some p =>
          if (v.heap p).version ≠ e.version then callOnError cfg v
          else v.wake p ⟨evTim, 0⟩

/-- The task that the event loop hands an event to, if any: the value 0 is a
notification of the worker's own pipes. -/
def eventTarget (w : Worker P) (ev : Event) : Option TaskPtr :=
  if ev.data = 0 then none else w.lookup (slotDecode .little ev.data).id

/-- One turn of the event loop. The data byte written to the event is the first
byte of the value already there. -/
def eventTurn (v : View P) : Option (View P) :=
  match v.worker.batch with
  | [] => some { v with worker := { v.worker with pc := .messages } }
  | ev :: batch =>
    let v := { v with worker := { v.worker with batch := batch } }
    match eventTarget v.worker ev with
    | none => some v
    | some p => v.wake p ev

/-- One turn of the message loop. -/
def messageTurn (v : View P) : Option (View P) :=
  match v.messages with
  | [] => some { v with worker := { v.worker with pc := .admitting } }
  | .shutdown :: messages =>
    some { v with messages := messages, worker := { v.worker with reloop := false } }
  | .wakeup id :: messages =>
    let v := { v with messages := messages }
    match v.worker.lookup id with
    | none => some v
    | some p => v.wake p ⟨evWak, 0⟩

/-- The head of the admission loop: its condition, and the read of the incoming
pipe. -/
def admitTurn (cfg : Config) (v : View P) : Option (View P) :=
  if tableSize P.tables v.worker.table ≤ cfg.workerTasks then
    match v.incoming with
    | [] => some { v with worker := { v.worker with pc := .dispatch } }
    | p :: incoming =>
      some { v with incoming := incoming, worker := { v.worker with pc := .admitted p } }
  else some { v with worker := { v.worker with pc := .dispatch } }

/-- The rest of the admission loop. -/
def insertTurn (v : View P) (p : TaskPtr) : Option (View P) :=
  if (v.heap p).mode ≠ .spawned then none
  else
    match tableInsert P.tables v.worker.table (v.heap p).id (some p) with
    | (.success, table) =>
      some { v with heap := (readySetPush v.heap v.worker.ready p).1,
                    worker := { v.worker with
                      pc := .admitting, table := table,
                      ready := (readySetPush v.heap v.worker.ready p).2 } }
    | _ => none

/-- A task's coroutine is called for the first time. -/
def startTask (task : Task) : Task :=
  { task with version := task.version + 1, mode := .running, callee := .running }

/-- A task's coroutine is resumed: `law_ewait` takes what it has received and
returns to the task, if the coroutine still has a frame. -/
def resumeTask (task : Task) : Task :=
  if task.callee = .yielded then
    { task with version := task.version + 1, mode := .running, callee := .running,
                received := task.events.getD [], maxEvents := 0, numEvents := 0, events := none }
  else { task with version := task.version + 1, mode := .running }

/-- One turn of `law_worker_dispatch`, up to the switch to the coroutine. The
tick, and with a shutdown the thread, ends when the ready set is empty. -/
def dispatchTurn (v : View P) : Option (View P) :=
  match readySetPop v.heap v.worker.ready with
  | (_, _, none) =>
    some { v with worker := { v.worker with pc := if v.worker.reloop then .start else .exited } }
  | (heap, ready, some p) =>
    if (heap p).next ≠ none ∨ (heap p).mark = true then none
    else
      let w := { v.worker with pc := .running p, ready := ready, active := some p }
      match (heap p).mode with
      | .spawned => some { v with heap := heap.modify p startTask, worker := w }
      | .suspended => some { v with heap := heap.modify p resumeTask, worker := w }
      | _ => none

/-- One turn of the loop the worker is in. -/
def workerTurn (cfg : Config) (v : View P) : Option (View P) :=
  match v.worker.pc with
  | .timers => timerTurn cfg v
  | .events => eventTurn v
  | .messages => messageTurn v
  | .admitting => admitTurn cfg v
  | .admitted p => insertTurn v p
  | .dispatch => dispatchTurn v
  | _ => none

end Tick

/-- What a running task may do. -/
inductive TaskAct where
  /-- `law_ectl`; the call may fail in the system. -/
  | ectl (fd : ℕ) (op : EvOp) (flags events : BitVec 32) (data : Int8) (fails : Bool)
  /-- Close a descriptor, which leaves the poll set. -/
  | close (fd : ℕ)
  /-- `law_ewait`, which yields unless the timer is out of memory. -/
  | ewait (now millis : Time) (events : Bool) (maxEvents : ℤ) (oom : Bool)
  /-- Enter and leave `law_hts_entry`. -/
  | enter
  | leave
  /-- The callback returns a value. -/
  | ret (value : ℤ)

section Run

variable {P : Platform}

/-- The task runs in its coroutine, and has not failed the assertion of
`law_hts_entry`. -/
def View.Runs (v : View P) (p : TaskPtr) : Prop :=
  v.worker.pc = .running p ∧ (v.heap p).callee = .running ∧
    ∀ e ∈ v.worker.entries, e.task = p → e.asserted = true

instance (v : View P) (p : TaskPtr) : Decidable (v.Runs p) :=
  inferInstanceAs (Decidable (_ ∧ _ ∧ ∀ e ∈ v.worker.entries, e.task = p → e.asserted = true))

/-- The task is inside `law_hts_entry`. -/
def Worker.Entered (w : Worker P) (p : TaskPtr) : Prop := ∃ e ∈ w.entries, e.task = p

instance (w : Worker P) (p : TaskPtr) : Decidable (w.Entered p) :=
  inferInstanceAs (Decidable (∃ e ∈ w.entries, e.task = p))

/-- `law_ectl`, as called by the active task. -/
def ectlReg (task : Task) (fd : ℕ) (flags events : BitVec 32) (data : Int8) : Reg where
  fd := fd
  events := flags ||| events
  value := slotEncode .little ⟨task.id, data⟩
  slot := ⟨task.id, data⟩
  serial := task.serial

/-- `law_ewait` up to the yield, and the branch of `law_worker_dispatch` that
takes its signal. -/
def suspendTask (events : Bool) (maxEvents : ℤ) (task : Task) : Task :=
  { task with maxEvents := maxEvents, numEvents := 0,
              events := if events then some [] else none,
              callee := .yielded, mode := .suspended }

/-- The step of a running task. -/
def taskStep (v : View P) (p : TaskPtr) : TaskAct → Option (View P)
  | .ectl fd op flags events data fails =>
    if fails then some v
    else
      match evoCtl v.worker.interest op (ectlReg (v.heap p) fd flags events data) with
      | none => some v
      | some interest => some { v with worker := { v.worker with interest := interest } }
  | .close fd =>
    some { v with worker := { v.worker with
                    interest := v.worker.interest.filter fun r => r.fd != fd } }
  | .ewait now millis events maxEvents oom =>
    if millis < 0 then none
    else if oom then some v
    else
      let e : TimerElem := ⟨now + millis, (v.heap p).id, (v.heap p).version⟩
      some { v with heap := v.heap.modify p (suspendTask events maxEvents),
                    worker := { v.worker with
                      pc := .dispatch, timer := P.timers.insert v.worker.timer e } }
  | .enter =>
    if v.worker.Entered p then none
    else
      let (e, group) := htsEntryPop v.worker.group p
      some { v with worker := { v.worker with group := group, entries := e :: v.worker.entries } }
  | .leave =>
    match v.worker.entries.find? fun e => e.task == p with
    | none => none
    | some e =>
      some { v with worker := { v.worker with
                      group := htsEntryPush v.worker.group e,
                      entries := v.worker.entries.erase e } }
  | .ret value =>
    if v.worker.Entered p then none
    else if value = modeSuspended then
      -- taken for the signal of a yield
      some { v with heap := v.heap.modify p fun task =>
                      { task with callee := .ended, mode := .suspended },
                    worker := { v.worker with pc := .dispatch } }
    else
      match tableRemove P.tables v.worker.table (v.heap p).id with
      | (some q, table) =>
        if q = p then
          some { v with heap := v.heap.modify p fun task => { task with callee := .ended },
                        worker := { v.worker with pc := .removed p, table := table } }
        else none
      | _ => none

end Run

/-- The labels of a worker's steps. -/
inductive WorkerAct where
  | begin (polled now : Time) (batch : List Event)
  | turn
  | task (act : TaskAct)

/-- A step of a worker thread, outside the pool and `law_spawn`. -/
def workerStep {P : Platform} (cfg : Config) (v : View P) : WorkerAct → Option (View P)
  | .begin polled now batch => beginTick cfg v polled now batch
  | .turn => workerTurn cfg v
  | .task act =>
    match v.worker.active with
    | none => none
    | some p => if v.Runs p then taskStep v p act else none

end Lawd

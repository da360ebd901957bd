import Lawd.Base
import Lawd.Library.Links
import Mathlib.Logic.Function.Basic

/-!
# Tasks and the ready set

The tasks of a server live in one heap from its creation to its end and are
addressed by pointers. A task carries its own list link, which the pool and the
ready set of a worker share.
-/
namespace Lawd

open Library

/-- `law_task_t *`, other than `NULL`. -/
abbrev TaskPtr := ℕ

/-- `law_data_t`, as its 64 bits. -/
abbrev Data := BitVec 64

/-- `enum law_server_mode`. -/
inductive Mode where
  | created
  | running
  | stopping
  | stopped
  | spawned
  | suspended
  deriving DecidableEq, Repr

/-- `LAW_MODE_SUSPENDED`, the signal of a coroutine that yields in `law_ewait`. -/
def modeSuspended : ℤ := 6

/-- `law_event_t`. -/
structure Event where
  events : BitVec 32
  data : Data
  deriving DecidableEq, Repr

/-- `LAW_EV_TIM`. -/
def evTim : BitVec 32 := 0x80000

/-- `LAW_EV_WAK`. -/
def evWak : BitVec 32 := 0x40000

/-- The callback of a task: `law_accept_callback`, or one given to `law_spawn`. -/
inductive Callback where
  | accept
  | user (f : ℕ)
  deriving DecidableEq, Repr

/-- What a task's coroutine stack holds: nothing live, a running frame, or a
frame that yielded. -/
inductive Callee where
  | ended
  | running
  | yielded
  deriving DecidableEq, Repr

/-- `law_task_t`. `events` is the user's array as far as it is filled;
`received` is what the last return of `law_ewait` left in it. The serial number
tells the runs of one task structure apart; the code does not have it. -/
structure Task where
  mode : Mode
  mark : Bool
  maxEvents : ℤ
  numEvents : ℤ
  version : Vers
  id : Id
  events : Option (List Event)
  next : Option TaskPtr
  callee : Callee
  callback : Option Callback
  data : Data
  received : List Event
  serial : ℕ
  deriving DecidableEq, Repr

/-- `law_task_create`; the version is a random number. -/
def taskCreate (version : Vers) : Task where
  mode := .created
  mark := false
  maxEvents := 0
  numEvents := 0
  version := version
  id := 0
  events := none
  next := none
  callee := .ended
  callback := none
  data := 0
  received := []
  serial := 0

/-- `law_task_setup`; the version is a random number. -/
def taskSetup (task : Task) (id : Id) (callback : Callback) (data : Data) (version : Vers) :
    Task :=
  { task with id := id, callback := some callback, data := data, version := version,
              mode := .spawned }

/-- The assertion of `law_task_push_event`. -/
def Task.PushLegal (task : Task) : Prop :=
  task.events.isSome = true ∧ task.numEvents ≤ task.maxEvents

instance (task : Task) : Decidable task.PushLegal := inferInstanceAs (Decidable (_ ∧ _))

/-- The rest of `law_task_push_event`. -/
def Task.pushed (ev : Event) (task : Task) : Task :=
  if task.numEvents < task.maxEvents then
    { task with events := task.events.map (· ++ [ev]), numEvents := task.numEvents + 1 }
  else task

/-- `law_task_push_event`. Without a result it halts. -/
def taskPushEvent (ev : Event) (task : Task) : Option Task :=
  if task.PushLegal then some (task.pushed ev) else none

/-- The memory of all tasks. -/
abbrev Heap := TaskPtr → Task

/-- Change one task in place. -/
def Heap.modify (heap : Heap) (p : TaskPtr) (f : Task → Task) : Heap :=
  Function.update heap p (f (heap p))

@[simp] theorem Heap.modify_same (heap : Heap) (p : TaskPtr) (f : Task → Task) :
    heap.modify p f p = f (heap p) := Function.update_self ..

@[simp] theorem Heap.modify_ne (heap : Heap) {p q : TaskPtr} (f : Task → Task) (h : q ≠ p) :
    heap.modify p f q = heap q := Function.update_of_ne h ..

theorem Heap.modify_apply (heap : Heap) (p q : TaskPtr) (f : Task → Task) :
    heap.modify p f q = if q = p then f (heap p) else heap q := by
  by_cases h : q = p
  · subst h; simp
  · simp [h]

/-- `law_task_lln_iface`. -/
def taskLlnIface : NodeIface Heap TaskPtr where
  getNext heap p := (heap p).next
  setNext heap p x := heap.modify p fun task => { task with next := x }
  getNext_setNext heap p x q := by
    rw [Heap.modify_apply]
    split_ifs <;> rfl

theorem taskLlnIface_setNext (heap : Heap) (p : TaskPtr) (x : Option TaskPtr) :
    taskLlnIface.setNext heap p x = heap.modify p fun task => { task with next := x } := rfl

/-- The tasks of an intrusive list. -/
abbrev Heap.Chain (heap : Heap) (list : Option TaskPtr) (l : List TaskPtr) : Prop :=
  taskLlnIface.Chain heap list l

/-- `law_ready_set_push`. -/
def readySetPush (heap : Heap) (list : Option TaskPtr) (p : TaskPtr) :
    Heap × Option TaskPtr :=
  if (heap p).mark then (heap, list)
  else taskLlnIface.pushFront (heap.modify p fun task => { task with mark := true }) list p

/-- `law_ready_set_pop`: the heap, the rest of the list, and the task, if any. -/
def readySetPop (heap : Heap) (list : Option TaskPtr) :
    Heap × Option TaskPtr × Option TaskPtr :=
  match taskLlnIface.removeFirst heap list with
  | (heap', rest, none) => (heap', rest, none)
  | (heap', rest, some p) => (heap'.modify p fun task => { task with mark := false }, rest, some p)

/-- Hand an event to a task and make it ready, as the three loops of a tick do. -/
def wake (heap : Heap) (list : Option TaskPtr) (p : TaskPtr) (ev : Event) :
    Option (Heap × Option TaskPtr) :=
  (taskPushEvent ev (heap p)).map fun task => readySetPush (heap.modify p fun _ => task) list p

/-- What `wake` leaves where the push is legal. -/
def Heap.pushed (heap : Heap) (list : Option TaskPtr) (p : TaskPtr) (ev : Event) :
    Heap × Option TaskPtr :=
  readySetPush (heap.modify p (Task.pushed ev)) list p

theorem wake_eq (heap : Heap) (list : Option TaskPtr) (p : TaskPtr) (ev : Event) :
    wake heap list p ev = if (heap p).PushLegal then some (heap.pushed list p ev) else none := by
  unfold wake taskPushEvent
  split_ifs <;> rfl

/-- What scheduling never changes in a task: all but its link, its mark and the
events it has received. -/
structure Task.Same (t u : Task) : Prop where
  mode : u.mode = t.mode
  version : u.version = t.version
  id : u.id = t.id
  callee : u.callee = t.callee
  callback : u.callback = t.callback
  data : u.data = t.data
  serial : u.serial = t.serial

theorem Task.Same.refl (t : Task) : t.Same t := ⟨rfl, rfl, rfl, rfl, rfl, rfl, rfl⟩

theorem Task.Same.trans {t u v : Task} (h : t.Same u) (h' : u.Same v) : t.Same v :=
  ⟨h'.mode.trans h.mode, h'.version.trans h.version, h'.id.trans h.id,
    h'.callee.trans h.callee, h'.callback.trans h.callback, h'.data.trans h.data,
    h'.serial.trans h.serial⟩

theorem Task.pushed_same (ev : Event) (t : Task) : t.Same (t.pushed ev) := by
  unfold Task.pushed
  split_ifs
  · exact ⟨rfl, rfl, rfl, rfl, rfl, rfl, rfl⟩
  · exact .refl t

@[simp] theorem Task.pushed_mark (ev : Event) (t : Task) :
    (t.pushed ev).mark = t.mark := by
  unfold Task.pushed
  split_ifs <;> rfl

@[simp] theorem Task.pushed_next (ev : Event) (t : Task) :
    (t.pushed ev).next = t.next := by
  unfold Task.pushed
  split_ifs <;> rfl

theorem Heap.Chain.frame {heap heap' : Heap} {list : Option TaskPtr} {l : List TaskPtr}
    (hc : heap.Chain list l) (h : ∀ p ∈ l, (heap' p).next = (heap p).next) :
    heap'.Chain list l := NodeIface.Chain.congr hc h

/-- The ready set lists each of its tasks once, and these are marked. -/
structure ReadySet (heap : Heap) (list : Option TaskPtr) (r : List TaskPtr) : Prop where
  chain : heap.Chain list r
  nodup : r.Nodup
  marked : ∀ p ∈ r, (heap p).mark = true

theorem ReadySet.frame {heap heap' : Heap} {list : Option TaskPtr} {r : List TaskPtr}
    (hr : ReadySet heap list r) (h : ∀ p ∈ r, heap' p = heap p) : ReadySet heap' list r :=
  ⟨hr.chain.frame fun p hp => by rw [h p hp], hr.nodup,
    fun p hp => by rw [h p hp]; exact hr.marked p hp⟩

/-- What `Heap.pushed` and `readySetPush` do: the task is listed and marked, no other
task changes, and the list gains no other task. -/
structure Woken (heap heap' : Heap) (list' : Option TaskPtr) (r : List TaskPtr) (p : TaskPtr)
    (r' : List TaskPtr) : Prop where
  ready : ReadySet heap' list' r'
  mem : ∀ q, q ∈ r' ↔ q = p ∨ q ∈ r
  same : (heap p).Same (heap' p)
  others : ∀ q, q ≠ p → heap' q = heap q

theorem Woken.sameAll {heap heap' : Heap} {list' : Option TaskPtr} {r r' : List TaskPtr}
    {p : TaskPtr} (w : Woken heap heap' list' r p r') (q : TaskPtr) :
    (heap q).Same (heap' q) := by
  by_cases hq : q = p
  · subst hq; exact w.same
  · rw [w.others q hq]; exact .refl _

theorem Woken.mark {heap heap' : Heap} {list' : Option TaskPtr} {r r' : List TaskPtr}
    {p : TaskPtr} (w : Woken heap heap' list' r p r') : (heap' p).mark = true :=
  w.ready.marked p ((w.mem p).mpr (.inl rfl))

theorem readySetPush_woken {heap : Heap} {list : Option TaskPtr} {r : List TaskPtr}
    (hr : ReadySet heap list r) {p : TaskPtr} (hp : (heap p).mark = true ↔ p ∈ r) :
    ∃ r', Woken heap (readySetPush heap list p).1 (readySetPush heap list p).2 r p r' := by
  unfold readySetPush
  by_cases hm : (heap p).mark = true
  · simp only [hm, if_true]
    have hmem : p ∈ r := hp.mp hm
    refine ⟨r, hr, fun q => ⟨.inr, ?_⟩, .refl _, fun _ _ => rfl⟩
    rintro (rfl | hq)
    · exact hmem
    · exact hq
  · have hnot : p ∉ r := fun h => hm (hp.mpr h)
    rw [if_neg hm]
    have hmark : (heap.modify p fun task => { task with mark := true }).Chain list r :=
      hr.chain.frame fun q hq => by
        rw [Heap.modify_ne]
        rintro rfl
        exact hnot hq
    refine ⟨p :: r, ⟨NodeIface.Chain.pushFront hmark hnot, List.nodup_cons.mpr ⟨hnot, hr.nodup⟩,
      ?_⟩, fun q => List.mem_cons, ?_, ?_⟩
    · intro q hq
      by_cases hqp : q = p
      · subst hqp
        simp [taskLlnIface, NodeIface.pushFront]
      · have hqr : q ∈ r := by simpa [hqp] using hq
        simpa [taskLlnIface, NodeIface.pushFront, hqp] using hr.marked q hqr
    · simp only [taskLlnIface, NodeIface.pushFront, Heap.modify_same]
      exact ⟨rfl, rfl, rfl, rfl, rfl, rfl, rfl⟩
    · intro q hq
      simp [taskLlnIface, NodeIface.pushFront, hq]

theorem Heap.pushed_woken {heap : Heap} {list : Option TaskPtr} {r : List TaskPtr}
    (hr : ReadySet heap list r) {p : TaskPtr} (hp : (heap p).mark = true ↔ p ∈ r) (ev : Event) :
    ∃ r', Woken heap (heap.pushed list p ev).1 (heap.pushed list p ev).2 r p r' := by
  have hpush : ReadySet (heap.modify p (Task.pushed ev)) list r := by
    refine ⟨hr.chain.frame fun q _ => ?_, hr.nodup, fun q hq => ?_⟩
    · rw [Heap.modify_apply]
      split_ifs with h
      · subst h; simp
      · rfl
    · rw [Heap.modify_apply]
      split_ifs with h
      · subst h; simpa using hr.marked q hq
      · exact hr.marked q hq
  obtain ⟨r', w⟩ := readySetPush_woken (p := p) hpush (by simpa using hp)
  refine ⟨r', w.ready, w.mem, ?_, fun q hq => ?_⟩
  · have hsame := w.same
    rw [Heap.modify_same] at hsame
    exact (Task.pushed_same ev _).trans hsame
  · have hoth := w.others q hq
    rwa [Heap.modify_ne _ _ hq] at hoth

/-- Popping the ready set takes its first task, unmarks and unlinks it. -/
theorem readySetPop_spec {heap : Heap} {list : Option TaskPtr} {r : List TaskPtr}
    (hr : ReadySet heap list r) :
    (r = [] ∧ readySetPop heap list = (heap, none, none)) ∨
    ∃ p rest heap' list', r = p :: rest ∧ readySetPop heap list = (heap', list', some p) ∧
      ReadySet heap' list' rest ∧ (heap p).Same (heap' p) ∧ (heap' p).mark = false ∧
      (heap' p).next = none ∧ ∀ q, q ≠ p → heap' q = heap q := by
  cases r with
  | nil =>
    obtain rfl : list = none := hr.chain
    exact .inl ⟨rfl, rfl⟩
  | cons p rest =>
    obtain rfl : list = some p := hr.chain.1
    obtain ⟨hnot, hnd⟩ := List.nodup_cons.mp hr.nodup
    refine .inr ⟨p, rest, (taskLlnIface.removeFirst heap (some p)).1.modify p
      (fun task => { task with mark := false }), (heap p).next, rfl, rfl, ⟨?_, hnd, ?_⟩, ?_, ?_,
      ?_, ?_⟩
    · refine Heap.Chain.frame (NodeIface.Chain.removeFirst hr.chain hnot) fun q hq => ?_
      rw [Heap.modify_ne]
      rintro rfl
      exact hnot hq
    · intro q hq
      have hqp : q ≠ p := by
        rintro rfl
        exact hnot hq
      simpa [taskLlnIface, NodeIface.removeFirst, hqp] using hr.marked q (by simp [hq])
    · simp only [taskLlnIface, NodeIface.removeFirst, Heap.modify_same]
      exact ⟨rfl, rfl, rfl, rfl, rfl, rfl, rfl⟩
    · simp
    · simp [taskLlnIface, NodeIface.removeFirst]
    · intro q hq
      simp [taskLlnIface, NodeIface.removeFirst, hq]

/-- A task that was popped was the first one. -/
theorem readySetPop_some {heap heap' : Heap} {list list' : Option TaskPtr} {r : List TaskPtr}
    {p : TaskPtr} (hr : ReadySet heap list r)
    (hpop : readySetPop heap list = (heap', list', some p)) :
    ∃ rest, r = p :: rest ∧ ReadySet heap' list' rest ∧ (heap p).Same (heap' p) ∧
      (heap' p).mark = false ∧ ∀ q, q ≠ p → heap' q = heap q := by
  rcases readySetPop_spec hr with ⟨-, hpop'⟩ | ⟨q, rest, heap₁, list₁, hcons, hpop', hrest, hsame,
    hmark, -, hothers⟩
  · rw [hpop] at hpop'
    simp at hpop'
  · rw [hpop] at hpop'
    obtain ⟨rfl, rfl, rfl⟩ : heap' = heap₁ ∧ list' = list₁ ∧ p = q := by simpa using hpop'
    exact ⟨rest, hcons, hrest, hsame, hmark, hothers⟩

/-- A task that was popped is on no list and unmarked. -/
theorem readySetPop_unlinked {heap heap' : Heap} {list list' : Option TaskPtr} {r : List TaskPtr}
    {p : TaskPtr} (hr : ReadySet heap list r)
    (hpop : readySetPop heap list = (heap', list', some p)) :
    (heap' p).next = none ∧ (heap' p).mark = false := by
  rcases readySetPop_spec hr with ⟨-, hpop'⟩ | ⟨q, rest, heap₁, list₁, -, hpop', -, -, hmark, hnext,
    -⟩
  · rw [hpop] at hpop'
    simp at hpop'
  · rw [hpop] at hpop'
    obtain ⟨rfl, rfl, rfl⟩ : heap' = heap₁ ∧ list' = list₁ ∧ p = q := by simpa using hpop'
    exact ⟨hnext, hmark⟩

theorem readySetPop_none {heap heap' : Heap} {list list' : Option TaskPtr} {r : List TaskPtr}
    (hr : ReadySet heap list r) (hpop : readySetPop heap list = (heap', list', none)) : r = [] := by
  rcases readySetPop_spec hr with ⟨hnil, -⟩ | ⟨p, rest, heap₁, list₁, -, hpop', -⟩
  · exact hnil
  · rw [hpop] at hpop'
    simp at hpop'

end Lawd

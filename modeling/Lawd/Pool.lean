import Lawd.Task
import Lawd.Library.System
import Lawd.Library.Placement

/-!
# The task pool

The pool is a stack of tasks behind a mutex. A call takes the lock, works on
the list and on the counter in separate steps, and releases the lock, so that
the calls of all threads interleave. Popping an empty pool returns early and
keeps the lock.
-/
namespace Lawd

open Library

/-- A call on the pool. -/
inductive PoolOp where
  | push (task : TaskPtr)
  | pop
  | size
  | isEmpty
  | isFull
  deriving DecidableEq, Repr

/-- What a call returns; `NULL` is `none`. -/
inductive PoolRet where
  | unit
  | task (task : Option TaskPtr)
  | size (size : ℕ)
  | flag (flag : Bool)
  deriving DecidableEq, Repr

/-- Where a thread stands in a call on the pool. -/
inductive PoolPc where
  | idle
  | call (op : PoolOp)
  | locked (op : PoolOp)
  | linked
  | unlinked (task : TaskPtr)
  | unlock (ret : PoolRet)
  | done (ret : PoolRet)
  deriving DecidableEq, Repr

/-- `law_task_pool_t`, the heap of its tasks, and where each thread stands. -/
@[ext]
structure PoolState (T : Type) where
  heap : Heap
  lock : Option T
  list : Option TaskPtr
  size : ℕ
  capacity : ℕ
  pc : T → PoolPc

namespace PoolPc

/-- Between `pthread_mutex_lock` and `pthread_mutex_unlock`. -/
def critical : PoolPc → Bool
  | locked _ => true
  | linked => true
  | unlinked _ => true
  | unlock _ => true
  | _ => false

/-- The task a call holds: before it is listed, or after it is taken off. -/
def hand : PoolPc → List TaskPtr
  | call (.push p) => [p]
  | locked (.push p) => [p]
  | unlinked p => [p]
  | unlock (.task (some p)) => [p]
  | done (.task (some p)) => [p]
  | _ => []

/-- The counter against the length of the list at this point. -/
def Counts (size length : ℕ) : PoolPc → Prop
  | linked => size + 1 = length
  | unlinked _ => size = length + 1
  | _ => size = length

theorem Counts.of_not_critical {size length : ℕ} {pc : PoolPc} (h : pc.critical = false) :
    pc.Counts size length ↔ size = length := by
  cases pc <;> simp_all [critical, Counts]

end PoolPc

section Step

variable {T : Type}

/-- The body of `law_task_pool_push` up to the counter: link the task. -/
def PoolState.link (s : PoolState T) (task : TaskPtr) : PoolState T :=
  { s with heap := (taskLlnIface.pushFront s.heap s.list task).1,
           list := (taskLlnIface.pushFront s.heap s.list task).2 }

/-- The body of `law_task_pool_pop` up to the counter: unlink the first task. -/
def PoolState.unlink (s : PoolState T) : PoolState T :=
  { s with heap := (taskLlnIface.removeFirst s.heap s.list).1,
           list := (taskLlnIface.removeFirst s.heap s.list).2.1 }

/-- `law_task_pool_create`: push `capacity` tasks to an empty pool. -/
def poolFill (s : PoolState T) : ℕ → PoolState T
  | 0 => s
  | n + 1 => { (poolFill s n).link n with size := (poolFill s n).size + 1 }

/-- `law_task_pool_create`, of `worker_tasks * workers` tasks. -/
def poolCreate (heap : Heap) (capacity : ℕ) : PoolState T :=
  poolFill ⟨heap, none, none, 0, capacity, fun _ => .idle⟩ capacity

@[simp] theorem PoolState.unlink_heap (s : PoolState T) {p : TaskPtr} (h : s.list = some p) :
    s.unlink.heap = taskLlnIface.setNext s.heap p none := by
  simp only [unlink, h, NodeIface.removeFirst]

variable [DecidableEq T]

/-- The thread moves on in its call. -/
def PoolState.setPc (s : PoolState T) (th : T) (pc : PoolPc) : PoolState T :=
  { s with pc := Function.update s.pc th pc }

/-- One step of a thread inside `law_task_pool_push`, `law_task_pool_pop`,
`law_task_pool_size`, `law_task_pool_is_empty` or `law_task_pool_is_full`. -/
def poolStep (s : PoolState T) (th : T) : Option (PoolState T) :=
  match s.pc th with
  | .idle => none
  | .call op =>
    match s.lock with
    | some _ => none
    | none => some ({ s with lock := some th }.setPc th (.locked op))
  | .locked (.push task) => some ((s.link task).setPc th .linked)
  | .linked => some ({ s with size := s.size + 1 }.setPc th (.unlock .unit))
  | .locked .pop =>
    match s.list with
    -- the early return, before `pthread_mutex_unlock`
    | none => some (s.setPc th (.done (.task none)))
    | some task => some (s.unlink.setPc th (.unlinked task))
  | .unlinked task => some ({ s with size := s.size - 1 }.setPc th (.unlock (.task (some task))))
  | .locked .size => some (s.setPc th (.unlock (.size s.size)))
  | .locked .isEmpty => some (s.setPc th (.unlock (.flag s.list.isNone)))
  | .locked .isFull => some (s.setPc th (.unlock (.flag (s.size == s.capacity))))
  | .unlock ret => some ({ s with lock := none }.setPc th (.done ret))
  | .done _ => none

/-- What a step of a call does. -/
inductive PoolTurn (s : PoolState T) (th : T) : PoolState T → Prop
  | enter (op : PoolOp) : s.pc th = .call op → s.lock = none →
      PoolTurn s th ({ s with lock := some th }.setPc th (.locked op))
  | link (p : TaskPtr) : s.pc th = .locked (.push p) →
      PoolTurn s th ((s.link p).setPc th .linked)
  | count : s.pc th = .linked →
      PoolTurn s th ({ s with size := s.size + 1 }.setPc th (.unlock .unit))
  | popNone : s.pc th = .locked .pop → s.list = none →
      PoolTurn s th (s.setPc th (.done (.task none)))
  | unlink (p : TaskPtr) : s.pc th = .locked .pop → s.list = some p →
      PoolTurn s th (s.unlink.setPc th (.unlinked p))
  | uncount (p : TaskPtr) : s.pc th = .unlinked p →
      PoolTurn s th ({ s with size := s.size - 1 }.setPc th (.unlock (.task (some p))))
  | size : s.pc th = .locked .size → PoolTurn s th (s.setPc th (.unlock (.size s.size)))
  | isEmpty : s.pc th = .locked .isEmpty →
      PoolTurn s th (s.setPc th (.unlock (.flag s.list.isNone)))
  | isFull : s.pc th = .locked .isFull →
      PoolTurn s th (s.setPc th (.unlock (.flag (s.size == s.capacity))))
  | leave (ret : PoolRet) : s.pc th = .unlock ret →
      PoolTurn s th ({ s with lock := none }.setPc th (.done ret))

theorem poolStep_turn {s t : PoolState T} {th : T} (h : poolStep s th = some t) :
    PoolTurn s th t := by
  unfold poolStep at h
  split at h
  case h_1 => cases h
  case h_2 op hpc =>
    split at h
    · cases h
    · rename_i hlock
      exact Option.some.inj h ▸ .enter op hpc hlock
  case h_3 p hpc => exact Option.some.inj h ▸ .link p hpc
  case h_4 hpc => exact Option.some.inj h ▸ .count hpc
  case h_5 hpc =>
    split at h
    · rename_i hnone
      exact Option.some.inj h ▸ .popNone hpc hnone
    · rename_i p hsome
      exact Option.some.inj h ▸ .unlink p hpc hsome
  case h_6 p hpc => exact Option.some.inj h ▸ .uncount p hpc
  case h_7 hpc => exact Option.some.inj h ▸ .size hpc
  case h_8 hpc => exact Option.some.inj h ▸ .isEmpty hpc
  case h_9 hpc => exact Option.some.inj h ▸ .isFull hpc
  case h_10 ret hpc => exact Option.some.inj h ▸ .leave ret hpc
  case h_11 => cases h

/-- The pool against the list `l` of its tasks: the links, who holds the lock,
and the counter. -/
structure PoolInv (s : PoolState T) (l : List TaskPtr) : Prop where
  chain : s.heap.Chain s.list l
  owner : ∀ th, (s.pc th).critical = true → s.lock = some th
  free : s.lock = none → s.size = l.length
  held : ∀ th, s.lock = some th → (s.pc th).Counts s.size l.length

/-- How a step of one call moves its task between the pool and the hand. -/
inductive PoolMove (l hand hand' : List TaskPtr) : List TaskPtr → Prop
  | stay : hand' = hand → PoolMove l hand hand' l
  | push (p : TaskPtr) : hand = [p] → hand' = [] → PoolMove l hand hand' (p :: l)
  | pop (p : TaskPtr) (l' : List TaskPtr) :
      l = p :: l' → hand = [] → hand' = [p] → PoolMove l hand hand' l'

/-- What a step of one call changes beside the pool itself: the link of one
task that is listed or in the caller's hand. -/
structure PoolFrame (s t : PoolState T) (th : T) (l : List TaskPtr) : Prop where
  heap : ∀ q, q ∉ l → q ∉ (s.pc th).hand → t.heap q = s.heap q
  same : ∀ q, (s.heap q).Same (t.heap q)
  mark : ∀ q, (t.heap q).mark = (s.heap q).mark
  pc : ∀ th', th' ≠ th → t.pc th' = s.pc th'
  capacity : t.capacity = s.capacity

theorem PoolState.setPc_apply (s : PoolState T) (th th' : T) (pc : PoolPc) :
    (s.setPc th pc).pc th' = if th' = th then pc else s.pc th' := Function.update_apply ..

@[simp] theorem PoolState.setPc_same (s : PoolState T) (th : T) (pc : PoolPc) :
    (s.setPc th pc).pc th = pc := Function.update_self ..

@[simp] theorem PoolState.setPc_ne (s : PoolState T) {th th' : T} (pc : PoolPc)
    (h : th' ≠ th) : (s.setPc th pc).pc th' = s.pc th' := Function.update_of_ne h ..

theorem PoolFrame.of_heap {s t : PoolState T} {th : T} {l : List TaskPtr} {pc : PoolPc}
    (hheap : t.heap = s.heap) (hpc : t.pc = Function.update s.pc th pc)
    (hcap : t.capacity = s.capacity) : PoolFrame s t th l where
  heap _ _ _ := by rw [hheap]
  same _ := by rw [hheap]; exact .refl _
  mark _ := by rw [hheap]
  pc _ h := by rw [hpc, Function.update_of_ne h]
  capacity := hcap

/-- Linking or unlinking a task writes its link and nothing else. -/
theorem PoolFrame.of_setNext {s t : PoolState T} {th : T} {l : List TaskPtr} {p : TaskPtr}
    {x : Option TaskPtr} {pc : PoolPc} (hheap : t.heap = taskLlnIface.setNext s.heap p x)
    (hp : p ∈ l ∨ p ∈ (s.pc th).hand) (hpc : t.pc = Function.update s.pc th pc)
    (hcap : t.capacity = s.capacity) : PoolFrame s t th l := by
  rw [taskLlnIface_setNext] at hheap
  have hne : ∀ q, q ≠ p → t.heap q = s.heap q := fun q hq => by
    rw [hheap, Heap.modify_ne _ _ hq]
  have heq : t.heap p = { s.heap p with next := x } := by rw [hheap, Heap.modify_same]
  refine ⟨fun q hl hh => hne q ?_, fun q => ?_, fun q => ?_,
    fun _ h => by rw [hpc, Function.update_of_ne h], hcap⟩
  · rintro rfl
    exact hp.elim hl hh
  · by_cases hq : q = p
    · subst hq
      rw [heq]
      exact ⟨rfl, rfl, rfl, rfl, rfl, rfl, rfl⟩
    · rw [hne q hq]
      exact .refl _
  · by_cases hq : q = p
    · subst hq
      rw [heq]
    · rw [hne q hq]

theorem PoolInv.setPc {s : PoolState T} {l : List TaskPtr} (hi : PoolInv s l) {th : T}
    {pc : PoolPc} (hold : (s.pc th).critical = false) (hnew : pc.critical = false) :
    PoolInv (s.setPc th pc) l := by
  refine ⟨hi.chain, fun th' hc => ?_, hi.free, fun th' hl => ?_⟩
  · rw [PoolState.setPc_apply] at hc
    split_ifs at hc with h
    · exact absurd hc (by simp [hnew])
    · exact hi.owner th' hc
  · rw [PoolState.setPc_apply]
    have hcounts := hi.held th' hl
    split_ifs with h
    · subst h
      exact (PoolPc.Counts.of_not_critical hnew).mpr
        ((PoolPc.Counts.of_not_critical hold).mp hcounts)
    · exact hcounts

omit [DecidableEq T] in
/-- The same for a change of the heap that keeps the links of the pool. -/
theorem PoolInv.frame {s t : PoolState T} {l : List TaskPtr} (hi : PoolInv s l)
    (hheap : ∀ p ∈ l, (t.heap p).next = (s.heap p).next) (hlist : t.list = s.list)
    (hsize : t.size = s.size) (hlock : t.lock = s.lock) (hpc : t.pc = s.pc) : PoolInv t l where
  chain := hlist ▸ Heap.Chain.frame hi.chain hheap
  owner := hpc ▸ hlock ▸ hi.owner
  free := hsize ▸ hlock ▸ hi.free
  held := hpc ▸ hsize ▸ hlock ▸ hi.held

/-- The holder of the lock moves on inside the critical section. -/
theorem PoolInv.of_holder {s t : PoolState T} {l l' : List TaskPtr} {th : T} {pc : PoolPc}
    (hi : PoolInv s l) (hcrit : (s.pc th).critical = true)
    (hchain : t.heap.Chain t.list l') (hlock : t.lock = s.lock)
    (hpc : t.pc = Function.update s.pc th pc) (hcounts : pc.Counts t.size l'.length) :
    PoolInv t l' := by
  have hown := hi.owner th hcrit
  refine ⟨hchain, fun th' hc => ?_, fun hl => ?_, fun th' hl => ?_⟩
  · by_cases h : th' = th
    · rw [hlock, hown, h]
    · rw [hpc, Function.update_of_ne h] at hc
      rw [hlock]
      exact hi.owner th' hc
  · rw [hlock, hown] at hl
    cases hl
  · rw [hlock, hown] at hl
    obtain rfl : th = th' := Option.some.inj hl
    rwa [hpc, Function.update_self]

/-- The holder of the lock moves on and leaves the list alone. -/
theorem PoolInv.of_holder_stays {s t : PoolState T} {l : List TaskPtr} {th : T} {pc pc' : PoolPc}
    (hi : PoolInv s l) (hold : s.pc th = pc) (hcrit : pc.critical = true)
    (hheap : t.heap = s.heap) (hlist : t.list = s.list) (hlock : t.lock = s.lock)
    (hpc : t.pc = Function.update s.pc th pc') (hcap : t.capacity = s.capacity)
    (hcounts : pc.Counts s.size l.length → pc'.Counts t.size l.length)
    (hhand : pc'.hand = pc.hand) :
    ∃ l', PoolInv t l' ∧ PoolMove l (s.pc th).hand (t.pc th).hand l' ∧ PoolFrame s t th l := by
  subst hold
  refine ⟨l, hi.of_holder hcrit ?_ hlock hpc (hcounts (hi.held th (hi.owner th hcrit))), .stay ?_,
    .of_heap hheap hpc hcap⟩
  · rw [hheap, hlist]
    exact hi.chain
  · rw [hpc, Function.update_self, hhand]

theorem poolStep_inv {s t : PoolState T} {th : T} {l : List TaskPtr}
    (hst : poolStep s th = some t) (hi : PoolInv s l) (hnd : (l ++ (s.pc th).hand).Nodup) :
    ∃ l', PoolInv t l' ∧ PoolMove l (s.pc th).hand (t.pc th).hand l' ∧ PoolFrame s t th l := by
  cases poolStep_turn hst with
  | enter op hpc hlock =>
    have hnone : ∀ th', (s.pc th').critical = false := by
      intro th'
      by_contra hc
      have hown := hi.owner th' (by simpa using hc)
      rw [hlock] at hown
      cases hown
    refine ⟨l, ⟨hi.chain, fun th' hc => ?_, fun hl => ?_, fun th' hl => ?_⟩, .stay ?_,
      .of_heap rfl rfl rfl⟩
    · rw [PoolState.setPc_apply] at hc
      split_ifs at hc with h
      · exact congrArg some h.symm
      · exact absurd hc (by simp [hnone th'])
    · cases hl
    · obtain rfl : th = th' := Option.some.inj hl
      rw [PoolState.setPc_same]
      exact hi.free hlock
    · rw [PoolState.setPc_same, hpc]
      cases op <;> rfl
  | link p hpc =>
    have hp : p ∉ l := by
      rw [hpc] at hnd
      exact fun hp => (List.disjoint_of_nodup_append hnd) hp (by simp [PoolPc.hand])
    have hcounts := hi.held th (hi.owner th (by rw [hpc]; rfl))
    rw [hpc] at hcounts
    refine ⟨p :: l, hi.of_holder (by rw [hpc]; rfl)
      (NodeIface.Chain.pushFront hi.chain hp) rfl rfl ?_,
      .push p (by rw [hpc]; rfl) (by rw [PoolState.setPc_same]; rfl),
      .of_setNext rfl (.inr (by rw [hpc]; simp [PoolPc.hand])) rfl rfl⟩
    exact congrArg (· + 1) hcounts
  | unlink p hpc hlist =>
    have hcounts := hi.held th (hi.owner th (by rw [hpc]; rfl))
    rw [hpc] at hcounts
    have hchain := hi.chain
    rw [hlist] at hchain
    obtain ⟨l', rfl, -⟩ := NodeIface.Chain.eq_cons hchain
    have hp : p ∉ l' := (List.nodup_cons.mp (List.nodup_append.mp hnd).1).1
    have hrem := NodeIface.Chain.removeFirst hchain hp
    rw [← hlist] at hrem
    refine ⟨l', hi.of_holder (by rw [hpc]; rfl) hrem rfl rfl hcounts,
      .pop p l' rfl (by rw [hpc]; rfl) (by rw [PoolState.setPc_same]; rfl),
      .of_setNext (s.unlink_heap hlist) (.inl List.mem_cons_self) rfl rfl⟩
  | uncount p hpc =>
    refine hi.of_holder_stays hpc rfl rfl rfl rfl rfl rfl (fun hsize => ?_) rfl
    have hsize' : s.size = l.length + 1 := hsize
    change s.size - 1 = l.length
    omega
  | leave ret hpc =>
    have hown := hi.owner th (by rw [hpc]; rfl)
    have hcounts := hi.held th hown
    rw [hpc] at hcounts
    refine ⟨l, ⟨hi.chain, fun th' hc => ?_, fun _ => hcounts, fun th' hl => ?_⟩,
      .stay ?_, .of_heap rfl rfl rfl⟩
    · rw [PoolState.setPc_apply] at hc
      split_ifs at hc with h
      · cases hc
      · have hown' := hi.owner th' hc
        rw [hown] at hown'
        exact absurd (Option.some.inj hown').symm h
    · cases hl
    · rw [PoolState.setPc_same, hpc]
      rcases ret with _ | (_ | p) | n | b <;> rfl
  | count hpc | popNone hpc _ | size hpc | isEmpty hpc | isFull hpc =>
    exact hi.of_holder_stays hpc rfl rfl rfl rfl rfl rfl id rfl

theorem poolStep_of_critical {s : PoolState T} {th : T} (h : (s.pc th).critical = true) :
    (poolStep s th).isSome := by
  unfold poolStep
  split <;> simp_all [PoolPc.critical]
  split <;> rfl

theorem poolStep_of_call {s : PoolState T} {th : T} {op : PoolOp} (h : s.pc th = .call op) :
    (poolStep s th).isSome ↔ s.lock = none := by
  simp only [poolStep, h]
  split <;> simp [*]

/-- A task moved by a call leaves every task placed. -/
theorem PoolMove.flow {π : Type*} {c c' : π → List TaskPtr} (pool hand : π)
    (rest : List TaskPtr) (hne : pool ≠ hand) {l l' h h' : List TaskPtr} (m : PoolMove l h h' l')
    (hl : c pool = l) (hl' : c' pool = l') (hh : c hand = h ++ rest)
    (hh' : c' hand = h' ++ rest) (ho : ∀ y, y ≠ pool → y ≠ hand → c' y = c y) : Flow c c' := by
  cases m with
  | stay heq =>
    refine .stay fun y => .of_eq ?_
    by_cases hy : y = pool
    · rw [hy, hl, hl']
    by_cases hy' : y = hand
    · rw [hy', hh, hh', heq]
    · exact ho y hy hy'
  | push p h1 h2 =>
    refine .move p hand pool ⟨hne.symm, ?_, ?_, fun y hy hy' => .of_eq (ho y hy' hy)⟩
    · rw [hh, hh', h1, h2]
      exact .refl _
    · rw [hl, hl']
  | pop p l' h0 h1 h2 =>
    refine .move p pool hand ⟨hne, ?_, ?_, fun y hy hy' => .of_eq (ho y hy hy')⟩
    · rw [hl, hl', h0]
    · rw [hh, hh', h1, h2]
      exact .refl _

end Step

section Create

variable {T : Type}

/-- Tasks as `law_task_create` makes them. -/
def FreshHeap (heap : Heap) : Prop := ∀ p, ∃ version, heap p = taskCreate version

/-- A filled pool lists its tasks, last created first, and has only set links. -/
theorem poolFill_spec (heap : Heap) (capacity n : ℕ) :
    ∃ s : PoolState T,
      poolFill ⟨heap, none, none, 0, capacity, fun _ => .idle⟩ n = s ∧
      s.heap.Chain s.list (List.range n).reverse ∧ s.lock = none ∧ s.size = n ∧
      s.capacity = capacity ∧ (∀ th, s.pc th = .idle) ∧
      ∀ p, ∃ next, s.heap p = { heap p with next := next } := by
  induction n with
  | zero => exact ⟨_, rfl, rfl, rfl, rfl, rfl, fun _ => rfl, fun p => ⟨(heap p).next, rfl⟩⟩
  | succ n ih =>
    obtain ⟨s, hs, hchain, hlock, hsize, hcap, hpc, hheap⟩ := ih
    refine ⟨_, rfl, ?_, ?_, ?_, ?_, ?_, ?_⟩
    · rw [poolFill, hs, List.range_succ, List.reverse_append]
      exact NodeIface.Chain.pushFront hchain (by simp)
    · rw [poolFill, hs]; exact hlock
    · rw [poolFill, hs]; exact congrArg (· + 1) hsize
    · rw [poolFill, hs]; exact hcap
    · rw [poolFill, hs]; exact hpc
    · intro p
      obtain ⟨next, hp⟩ := hheap p
      rw [poolFill, hs]
      change ∃ next, (taskLlnIface.setNext s.heap n s.list) p = _
      rw [taskLlnIface_setNext, Heap.modify_apply]
      split_ifs with h
      · subst h
        exact ⟨s.list, by rw [hp]⟩
      · exact ⟨next, hp⟩

theorem poolCreate_inv (heap : Heap) (capacity : ℕ) :
    PoolInv (poolCreate (T := T) heap capacity) (List.range capacity).reverse := by
  obtain ⟨s, hs, hchain, hlock, hsize, -, hpc, -⟩ := poolFill_spec (T := T) heap capacity capacity
  rw [poolCreate, hs]
  refine ⟨hchain, fun th hc => ?_, fun _ => by simp [hsize], fun th hl => ?_⟩
  · rw [hpc th] at hc
    cases hc
  · rw [hlock] at hl
    cases hl

end Create

end Lawd

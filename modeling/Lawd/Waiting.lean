import Lawd.Finish

/-!
# Tasks that wait

A task that waits may have an array for its events. The array is filled from its
front, up to its size, the events that arrive later are lost, and the first
event makes the task ready.
-/
namespace Lawd

open Library

variable {P : Platform}

/-- Only a coroutine that waits has a buffer. The buffer counts what is in it,
and is empty until its task is ready. -/
structure Task.Buffered (task : Task) : Prop where
  idle : task.callee ≠ .yielded ∨ task.mode = .spawned → task.events = none
  num : ∀ l, task.events = some l → task.numEvents = l.length
  empty : task.mark = false → ∀ l, task.events = some l → l = []

theorem Task.Buffered.of_none {task : Task} (h : task.events = none) : task.Buffered where
  idle _ := h
  num l hl := by rw [h] at hl; cases hl
  empty _ l hl := by rw [h] at hl; cases hl

theorem Task.Buffered.relinked {task task' : Task} (h : task.Buffered)
    (hr : task.Relinked task') (hmark : task'.mark = false → task.mark = false) :
    task'.Buffered := by
  refine ⟨fun hidle => ?_, fun l hl => ?_, fun hm l hl => ?_⟩
  · rw [hr] at hidle ⊢
    exact h.idle hidle
  · rw [hr] at hl ⊢
    exact h.num l hl
  · rw [hr] at hl
    exact h.empty (hmark hm) l hl

theorem Task.Buffered.push {task : Task} (h : task.Buffered) (ev : Event)
    (hmark : task.mark = true) : (task.pushed ev).Buffered := by
  unfold Task.pushed
  split_ifs with hroom
  · refine ⟨fun hidle => ?_, fun l hl => ?_, fun hm => ?_⟩
    · change task.events.map _ = none
      rw [h.idle hidle]
      rfl
    · obtain ⟨l', hl', rfl⟩ := Option.map_eq_some_iff.mp hl
      change task.numEvents + 1 = _
      rw [h.num l' hl', List.length_append]
      rfl
    · exact absurd hmark (by rw [show task.mark = false from hm]; decide)
  · exact h

theorem readySetPush_mark (heap : Heap) (list : Option TaskPtr) (p q : TaskPtr) :
    ((readySetPush heap list p).1 q).mark = (decide (q = p) || (heap q).mark) := by
  unfold readySetPush
  split_ifs with hmark
  · by_cases hq : q = p
    · subst hq
      simp [hmark]
    · simp [hq]
  · by_cases hq : q = p
    · subst hq
      simp [taskLlnIface, NodeIface.pushFront]
    · simp [taskLlnIface, NodeIface.pushFront, hq]

theorem readySetPush_buffered {heap : Heap} (h : ∀ q, (heap q).Buffered) (list : Option TaskPtr)
    (p q : TaskPtr) : ((readySetPush heap list p).1 q).Buffered := by
  refine (h q).relinked (readySetPush_relinked heap list p q) fun hm => ?_
  rw [readySetPush_mark, Bool.or_eq_false_iff] at hm
  exact hm.2

theorem Heap.pushed_buffered {heap : Heap} (h : ∀ q, (heap q).Buffered) (list : Option TaskPtr)
    (p : TaskPtr) (ev : Event) (q : TaskPtr) : ((heap.pushed list p ev).1 q).Buffered := by
  by_cases hq : q = p
  · subst hq
    have hrel := Heap.pushed_relinked heap list q q ev
    have hmark : ((heap.pushed list q ev).1 q).mark = true := by
      rw [Heap.pushed, readySetPush_mark]
      simp
    rw [Heap.modify_same] at hrel
    have hmarked : Task.Buffered { heap q with mark := true } :=
      ⟨(h q).idle, (h q).num, fun hm => by cases hm⟩
    refine (hmarked.push ev rfl).relinked ?_ fun hm => by rw [hmark] at hm; cases hm
    rw [hrel]
    unfold Task.pushed
    split_ifs
    · rfl
    · rfl
  · have hrel := Heap.pushed_relinked heap list p q ev
    rw [Heap.modify_ne _ _ hq] at hrel
    refine (h q).relinked hrel fun hm => ?_
    rw [Heap.pushed, readySetPush_mark, Heap.modify_ne _ _ hq, Bool.or_eq_false_iff] at hm
    exact hm.2

theorem Heap.modify_buffered {heap : Heap} (h : ∀ q, (heap q).Buffered) {p : TaskPtr}
    {f : Task → Task} (hf : (f (heap p)).Buffered) (q : TaskPtr) :
    (heap.modify p f q).Buffered := by
  rw [Heap.modify_apply]
  split_ifs
  · exact hf
  · exact h q

/-- Running a task takes its buffer. -/
theorem run_events {task task' : Task} (h : task.Buffered) (hr : task.Relinked task')
    {f : Task → Task}
    (hf : task'.mode = .spawned ∧ f = startTask ∨ task'.mode = .suspended ∧ f = resumeTask) :
    (f task').events = none := by
  have hidle : task'.callee ≠ .yielded ∨ task'.mode = .spawned → task'.events = none := by
    rw [hr]
    exact h.idle
  rcases hf with ⟨hmode, rfl⟩ | ⟨-, rfl⟩
  · exact hidle (.inr hmode)
  · unfold resumeTask
    split_ifs with hyield
    · rfl
    · exact hidle (.inl hyield)

theorem suspendTask_buffered (events : Bool) (maxEvents : ℤ) (task : Task) :
    (suspendTask events maxEvents task).Buffered := by
  refine ⟨fun hidle => ?_, fun l hl => ?_, fun _ l hl => ?_⟩
  · rcases hidle with h | h
    · exact absurd rfl h
    · cases h
  · cases events <;> cases hl
    rfl
  · cases events <;> cases hl
    rfl

theorem WorkerEffect.buffered {cfg : Config} {v v' : View P} {a : WorkerAct} {r : List TaskPtr}
    (h : WorkerEffect cfg v a v') (hi : WorkerInv v.heap v.worker r)
    (hb : ∀ p, (v.heap p).Buffered) : ∀ p, (v'.heap p).Buffered := by
  have hruns : ∀ {p : TaskPtr}, v.Runs p → (v.heap p).events = none := fun hr =>
    (hb _).idle (.inl (by rw [hr.2.1]; decide))
  cases h with
  | expired e timer p ev hpc hpop hlook hver => exact Heap.pushed_buffered hb _ p ev
  | woken w messages id p ev hpc hpc' hk hbatch hlook => exact Heap.pushed_buffered hb _ p ev
  | insert p table hpc hins => exact readySetPush_buffered hb _ p
  | run p heap ready f hpc hpop hf =>
    obtain ⟨-, -, -, -, -, hothers⟩ := readySetPop_some hi.ready hpop
    intro q
    by_cases hq : q = p
    · subst hq
      refine .of_none ?_
      change (heap.modify q f q).events = none
      rw [Heap.modify_same]
      exact run_events (hb q) (readySetPop_relinked hpop q) hf
    · change (heap.modify p f q).Buffered
      rw [Heap.modify_ne _ _ hq, hothers q hq]
      exact hb q
  | ewait p now millis events maxEvents hr ha =>
    exact Heap.modify_buffered hb (suspendTask_buffered ..)
  | finish p table hr he hrem =>
    exact Heap.modify_buffered hb (f := fun task => { task with callee := .ended })
      (.of_none (hruns hr))
  | mistaken p hr ha =>
    exact Heap.modify_buffered hb
      (f := fun task => { task with callee := .ended, mode := .suspended })
      (.of_none (hruns hr))
  | _ => exact hb

theorem poolStep_relinked {T : Type} [DecidableEq T] {s t : PoolState T} {th : T}
    (hst : poolStep s th = some t) (q : TaskPtr) :
    (s.heap q).Relinked (t.heap q) ∧ (t.heap q).mark = (s.heap q).mark := by
  have hlink : ∀ (heap : Heap) (p : TaskPtr) (x : Option TaskPtr),
      (heap q).Relinked (taskLlnIface.setNext heap p x q) ∧
        (taskLlnIface.setNext heap p x q).mark = (heap q).mark := by
    intro heap p x
    rw [taskLlnIface_setNext, Heap.modify_apply]
    split_ifs with hq
    · subst hq
      exact ⟨rfl, rfl⟩
    · exact ⟨rfl, rfl⟩
  cases poolStep_turn hst with
  | link p hpc => exact hlink ..
  | unlink p hpc hlist =>
    change (s.heap q).Relinked (s.unlink.heap q) ∧ (s.unlink.heap q).mark = _
    rw [s.unlink_heap hlist]
    exact hlink ..
  | enter | count | popNone | uncount | size | isEmpty | isFull | leave => exact ⟨rfl, rfl⟩

/-- Every step keeps the buffers. -/
theorem serverStep_buffered {cfg : Config} {s t : State P} {a : Action} {l : List TaskPtr}
    (hst : serverStep cfg s a = some t) (hi : Inv s l)
    (hrest : ∀ p, (∀ i, p ∉ (s.workers i).tasks) → (s.heap p).callee = .ended)
    (hb : ∀ p, (s.heap p).Buffered) : ∀ p, (t.heap p).Buffered := by
  cases serverStep_effect hst with
  | pool th u hu =>
    intro p
    obtain ⟨hrel, hmark⟩ := poolStep_relinked hu p
    exact (hb p).relinked hrel fun hm => hmark ▸ hm
  | control _ hc =>
    rw [hc.heap]
    exact hb
  | setup th p callback data version _ hp hc =>
    rw [hc.heap]
    have hended : (s.heap p).callee = .ended := hrest p fun j =>
      hi.not_mem (x := .hand th) (y := .table j) hp (by simp)
    have hnone : (s.heap p).events = none := (hb p).idle (.inl (by rw [hended]; decide))
    intro q
    by_cases hq : q = p
    · subst hq
      refine .of_none ?_
      simp only [State.setup, Heap.modify_same]
      exact hnone
    · rw [s.setup_heap_ne hq]
      exact hb q
  | send th i p _ hp hc =>
    rw [hc.heap]
    exact hb
  | drop th p _ hfail hc =>
    rw [hc.heap]
    exact hb
  | worker i act v hi' ha hv =>
    obtain ⟨r, hr⟩ := hi.workers i
    exact (workerStep_effect hv).buffered hr hb

theorem serverCreate_buffered {heap : Heap} (hheap : FreshHeap heap) (cfg : Config) (p : TaskPtr) :
    ((serverCreate P cfg heap).heap p).Buffered := by
  obtain ⟨c, hc, -, -, -, -, -, hlinks⟩ := poolFill_spec (T := Tid) heap
    (cfg.workerTasks * cfg.workers) (cfg.workerTasks * cfg.workers)
  obtain ⟨next, hp⟩ := hlinks p
  obtain ⟨version, hv⟩ := hheap p
  refine .of_none ?_
  simp only [serverCreate, poolCreate, hc, hp, hv]
  rfl

theorem buffered_of_reach {cfg : Config} {ok : State P → Action → Prop} {s : State P}
    (h : (serverSystem P cfg).Reach ok s) (p : TaskPtr) : (s.heap p).Buffered := by
  refine h.invariant (P := fun s => ∀ p, (s.heap p).Buffered) (fun s hs => ?_)
    (fun s a t hr hb _ hst => ?_) p
  · obtain ⟨heap, hheap, rfl⟩ := hs
    exact serverCreate_buffered hheap cfg
  · obtain ⟨l, hi⟩ := inv_of_reach hr
    exact serverStep_buffered hst hi (callee_of_reach hr) hb

/-- A task that sleeps in `law_ewait` with a buffer, and has been handed these
events since. -/
structure Slept (start : Task) (evs : List Event) (task : Task) : Prop where
  mode : task.mode = .suspended
  callee : task.callee = .yielded
  version : task.version = start.version
  max : task.maxEvents = start.maxEvents
  events : task.events = some (evs.take start.maxEvents.toNat)
  num : task.numEvents = (evs.take start.maxEvents.toNat).length
  mark : task.mark = true ↔ evs ≠ []

theorem Task.Buffered.slept {task : Task} (h : task.Buffered) (hmode : task.mode = .suspended)
    (hevents : task.events ≠ none) (hmark : task.mark = false) : Slept task [] task := by
  obtain ⟨l, hl⟩ := Option.ne_none_iff_exists'.mp hevents
  have hnil := h.empty hmark l hl
  have hyield : task.callee = .yielded := by
    by_contra hne
    exact hevents (h.idle (.inl hne))
  have hnum := h.num l hl
  subst hnil
  exact ⟨hmode, hyield, rfl, rfl, by rw [List.take_nil]; exact hl,
    by rw [List.take_nil]; exact hnum,
    by simp [hmark]⟩

theorem Slept.pushed {start task task' : Task} {evs : List Event} (h : Slept start evs task)
    (ev : Event) (hr : (task.pushed ev).Relinked task') (hmark : task'.mark = true) :
    Slept start (evs ++ [ev]) task' := by
  have hlen : (evs.take start.maxEvents.toNat).length = min start.maxEvents.toNat evs.length :=
    List.length_take ..
  have hmark' : task'.mark = true ↔ evs ++ [ev] ≠ [] := by simp [hmark]
  by_cases hroom : task.numEvents < task.maxEvents
  · have hlt : evs.length < start.maxEvents.toNat := by
      rw [h.num, h.max, hlen] at hroom
      omega
    have htake : (evs ++ [ev]).take start.maxEvents.toNat =
        evs.take start.maxEvents.toNat ++ [ev] := by
      rw [List.take_of_length_le (by simpa using hlt), List.take_of_length_le hlt.le]
    rw [Task.pushed, if_pos hroom] at hr
    rw [hr]
    refine ⟨h.mode, h.callee, h.version, h.max, ?_, ?_, hmark'⟩
    · change task.events.map (· ++ [ev]) = _
      rw [h.events, htake]
      rfl
    · change task.numEvents + 1 = _
      rw [h.num, htake, List.length_append]
      rfl
  · have hle : start.maxEvents.toNat ≤ evs.length := by
      rw [h.num, h.max, hlen] at hroom
      omega
    have htake : (evs ++ [ev]).take start.maxEvents.toNat = evs.take start.maxEvents.toNat :=
      List.take_append_of_le_length hle
    rw [Task.pushed, if_neg hroom] at hr
    rw [hr]
    exact ⟨h.mode, h.callee, h.version, h.max, by rw [htake]; exact h.events,
      by rw [htake]; exact h.num, hmark'⟩

theorem Slept.received {start task task' : Task} {evs : List Event} (h : Slept start evs task)
    (hr : task.Relinked task') :
    (resumeTask task').received = evs.take start.maxEvents.toNat := by
  have hevents : task'.events = task.events := by rw [hr]
  rw [resumeTask, if_pos (hr.same.callee.trans h.callee)]
  change task'.events.getD [] = _
  rw [hevents, h.events]
  rfl

end Lawd

import Lawd.Library.Registry
import Lawd.Server

/-!
# Dispatching an accepted task

`law_spawn_dispatch_once` tries the pipes of the workers in turn, beginning with
the one that the task's id selects. When all are full it waits for room in any of
them, with the write ends in the poll set of the server in place of the listening
socket.
-/
namespace Lawd

open Library

/-- `law_event_t`, as a poll set keeps it. -/
structure EvoEvent where
  events : BitVec 32
  data : BitVec 64
  deriving DecidableEq, Repr

/-- `LAW_EV_R`. -/
def evR : BitVec 32 := 1

/-- `LAW_EV_W`. -/
def evW : BitVec 32 := 4

/-- `law_evo_ctl` on the poll set of the server. -/
def serverEvoCtl (interest : Registry ℕ EvoEvent) (fd : ℕ) (op : EvOp) (flags : BitVec 32)
    (event : EvoEvent) : Option (Registry ℕ EvoEvent) :=
  match op with
  | .add => interest.add fd ⟨flags ||| event.events, event.data⟩
  | .mod => interest.modify fd ⟨flags ||| event.events, event.data⟩
  | .del => interest.remove fd

/-- What a server is given to dispatch with: its workers, whose number is an
`int`, the write ends of their pipes, and the listening socket. -/
structure Dispatcher where
  workers : ℕ
  workers_lt : workers < 2 ^ 31
  incoming : ℕ → ℕ
  socket : ℕ

/-- The pipes, the poll set, and the workers whose pipes were tried. -/
structure Dispatch where
  pipes : ℕ → List TaskPtr
  interest : Registry ℕ EvoEvent
  tried : List ℕ

/-- What `write` answers for a pipe. -/
inductive PipeAnswer where
  | written
  | again
  | failed
  deriving DecidableEq, Repr

/-- `law_task_queue_push` to the pipe of a worker. -/
def taskQueuePush (answer : PipeAnswer) (index : ℕ) (task : TaskPtr) (s : Dispatch) :
    Err × Dispatch :=
  let s := { s with tried := s.tried ++ [index] }
  match answer with
  | .written => (.ok, { s with pipes := Function.update s.pipes index (s.pipes index ++ [task]) })
  | .again => (.wantw, s)
  | .failed => (.sys, s)

section Once

variable (d : Dispatcher) (answer : ℕ → PipeAnswer) (id : Id) (task : TaskPtr)

/-- The index of turn `x`, computed in `size_t`. -/
def Dispatcher.index (x : ℕ) : ℕ := ((BitVec.ofNat 64 x + id) % BitVec.ofNat 64 d.workers).toNat

/-- The first loop of `law_spawn_dispatch_once`, with `n` turns to go from turn
`x` on; it halts on a failed write. -/
def dispatchTurns : ℕ → ℕ → Dispatch → Option (Bool × Dispatch)
  | 0, _, s => some (false, s)
  | n + 1, x, s =>
    match taskQueuePush (answer (d.index id x)) (d.index id x) task s with
    | (.wantw, s) => dispatchTurns n (x + 1) s
    | (.ok, s) => some (true, s)
    | _ => none

/-- The rest of `law_spawn_dispatch_once`, told whether `epoll_wait` succeeds. -/
def dispatchWait (waits : Bool) (s : Dispatch) : Option Dispatch := do
  let interest ← serverEvoCtl s.interest d.socket .del 0 ⟨0, 0⟩
  let interest ← ((List.range d.workers).map d.incoming).foldlM
    (fun interest fd => serverEvoCtl interest fd .add 0 ⟨evW, 0⟩) interest
  if !waits then none
  else
    let interest ← serverEvoCtl interest d.socket .add 0 ⟨evR, 0⟩
    let interest ← ((List.range d.workers).map d.incoming).foldlM
      (fun interest fd => serverEvoCtl interest fd .del 0 ⟨0, 0⟩) interest
    some { s with interest := interest }

/-- `law_spawn_dispatch_once`; without a result, a test has failed. -/
def spawnDispatchOnce (waits : Bool) (s : Dispatch) : Option (Bool × Dispatch) :=
  match dispatchTurns d answer id task d.workers 0 s with
  | some (false, s) => (dispatchWait d waits s).map fun s => (false, s)
  | out => out

end Once

/-! ### The turns -/

section Turns

variable {d : Dispatcher} {answer : ℕ → PipeAnswer} {id : Id} {task : TaskPtr} {s t : Dispatch}

/-- No sum of an id and a turn leaves `size_t`. -/
theorem Dispatcher.index_eq (hid : id < idModulo) {x : ℕ} (hx : x < d.workers) :
    d.index id x = (id.toNat + x) % d.workers := by
  have hlt := d.workers_lt
  have hid' : id.toNat < 2 ^ 56 := by simpa [idModulo, BitVec.lt_def] using hid
  simp only [index, BitVec.toNat_umod, BitVec.toNat_add, BitVec.toNat_ofNat]
  rw [Nat.mod_eq_of_lt (show d.workers < 2 ^ 64 by omega),
    Nat.mod_eq_of_lt (show x < 2 ^ 64 by omega),
    Nat.mod_eq_of_lt (show x + id.toNat < 2 ^ 64 by omega), Nat.add_comm]

theorem cyclic_perm (a n : ℕ) : ((List.range n).map fun x => (a + x) % n).Perm (List.range n) := by
  have hnodup : ((List.range n).map fun x => (a + x) % n).Nodup := by
    refine List.Nodup.map_on (fun x hx y hy h => ?_) List.nodup_range
    have hmod : x ≡ y [MOD n] := Nat.ModEq.add_left_cancel' a h
    exact hmod.eq_of_lt_of_lt (List.mem_range.mp hx) (List.mem_range.mp hy)
  have hsub : ((List.range n).map fun x => (a + x) % n) ⊆ List.range n := by
    intro i hi
    obtain ⟨x, hx, rfl⟩ := List.mem_map.mp hi
    exact List.mem_range.mpr (Nat.mod_lt _ (Nat.zero_lt_of_lt (List.mem_range.mp hx)))
  exact (List.subperm_of_subset hnodup hsub).perm_of_length_le (by simp)

/-- The task is written at the first turn that finds a pipe with room. -/
structure Written (d : Dispatcher) (answer : ℕ → PipeAnswer) (id : Id) (task : TaskPtr) (x k : ℕ)
    (s t : Dispatch) : Prop where
  full : ∀ j < k, answer (d.index id (x + j)) = .again
  room : answer (d.index id (x + k)) = .written
  pipes : t.pipes = Function.update s.pipes (d.index id (x + k))
    (s.pipes (d.index id (x + k)) ++ [task])
  interest : t.interest = s.interest
  tried : t.tried = s.tried ++ (List.range (k + 1)).map fun j => d.index id (x + j)

/-- All turns find full pipes. -/
structure Skipped (d : Dispatcher) (answer : ℕ → PipeAnswer) (id : Id) (x n : ℕ)
    (s t : Dispatch) : Prop where
  full : ∀ j < n, answer (d.index id (x + j)) = .again
  pipes : t.pipes = s.pipes
  interest : t.interest = s.interest
  tried : t.tried = s.tried ++ (List.range n).map fun j => d.index id (x + j)

theorem forall_lt_succ {P : ℕ → Prop} {n : ℕ} (h0 : P 0) (h : ∀ j < n, P (j + 1)) :
    ∀ j < n + 1, P j
  | 0, _ => h0
  | j + 1, hj => h j (Nat.lt_of_succ_lt_succ hj)

theorem tried_cons {f : ℕ → ℕ} {x m : ℕ} {l l' : List ℕ}
    (h : l' = l ++ [f x] ++ (List.range m).map fun j => f (x + 1 + j)) :
    l' = l ++ (List.range (m + 1)).map fun j => f (x + j) := by
  have hshift : (fun j => f (x + 1 + j)) = (fun j => f (x + j)) ∘ Nat.succ := by
    funext j
    rw [Function.comp_apply, Nat.add_assoc, Nat.add_comm 1 j]
  rw [h, List.range_succ_eq_map, List.map_cons, List.map_map, List.append_assoc, hshift]
  rfl

theorem dispatchTurns_cases (n x : ℕ) (s : Dispatch) :
    (∃ t k, dispatchTurns d answer id task n x s = some (true, t) ∧ k < n ∧
      Written d answer id task x k s t) ∨
    (∃ t, dispatchTurns d answer id task n x s = some (false, t) ∧ Skipped d answer id x n s t) ∨
    (dispatchTurns d answer id task n x s = none ∧
      ∃ j < n, answer (d.index id (x + j)) = .failed) := by
  induction n generalizing x s with
  | zero => exact .inr (.inl ⟨s, rfl, by simp, rfl, rfl, by simp⟩)
  | succ n ih =>
    have hshift : ∀ j, x + 1 + j = x + (j + 1) := fun j => by omega
    simp only [dispatchTurns]
    cases ha : answer (d.index id x) with
    | written =>
      refine .inl ⟨_, 0, rfl, Nat.succ_pos n, fun j hj => absurd hj (Nat.not_lt_zero j), ha, rfl,
        rfl, ?_⟩
      simp
    | failed => exact .inr (.inr ⟨rfl, 0, Nat.succ_pos n, ha⟩)
    | again =>
      dsimp only [taskQueuePush]
      obtain ⟨t, k, hrun, hk, hw⟩ | ⟨t, hrun, hs⟩ | ⟨hrun, j, hj, hfail⟩ :=
        ih (x + 1) { s with tried := s.tried ++ [d.index id x] }
      · refine .inl ⟨t, k + 1, hrun, Nat.succ_lt_succ hk, forall_lt_succ ha fun j hj => ?_, ?_, ?_,
          hw.interest, tried_cons hw.tried⟩
        · rw [← hshift]
          exact hw.full j hj
        · rw [← hshift]
          exact hw.room
        · rw [← hshift]
          exact hw.pipes
      · refine .inr (.inl ⟨t, hrun, forall_lt_succ ha fun j hj => ?_, hs.pipes, hs.interest,
          tried_cons hs.tried⟩)
        rw [← hshift]
        exact hs.full j hj
      · exact .inr (.inr ⟨hrun, j + 1, Nat.succ_lt_succ hj, by rw [← hshift]; exact hfail⟩)

end Turns

/-! ### The poll set -/

section PollSet

variable {d : Dispatcher} {waits : Bool} {s t : Dispatch}

/-- The poll set between two dispatches: the listening socket is in it for
reading, and no write end of a pipe is. -/
structure Listening (d : Dispatcher) (interest : Registry ℕ EvoEvent) : Prop where
  socket : interest d.socket = some ⟨evR, 0⟩
  outside : ∀ x < d.workers, interest (d.incoming x) = none
  distinct : ∀ x < d.workers, ∀ y < d.workers, d.incoming x = d.incoming y → x = y

theorem dispatchWait_eq (d : Dispatcher) (waits : Bool) (s : Dispatch) :
    dispatchWait d waits s = (s.interest.remove d.socket).bind fun r₁ =>
      (((List.range d.workers).map d.incoming).foldlM (fun r fd => Registry.add r fd ⟨evW, 0⟩)
        r₁).bind
        fun r₂ => if !waits then none else (r₂.add d.socket ⟨evR, 0⟩).bind fun r₃ =>
          (((List.range d.workers).map d.incoming).foldlM Registry.remove r₃).bind fun r₄ =>
            some { s with interest := r₄ } := rfl

theorem dispatchWait_restores (hsocket : s.interest d.socket = some ⟨evR, 0⟩)
    (h : dispatchWait d waits s = some t) : t = s := by
  rw [dispatchWait_eq] at h
  obtain ⟨r₁, h₁, h⟩ := Option.bind_eq_some_iff.mp h
  obtain ⟨r₂, h₂, h⟩ := Option.bind_eq_some_iff.mp h
  split_ifs at h
  obtain ⟨r₃, h₃, h⟩ := Option.bind_eq_some_iff.mp h
  obtain ⟨r₄, h₄, h⟩ := Option.bind_eq_some_iff.mp h
  rw [← Option.some.inj h, Registry.restored hsocket h₁ h₂ h₃ h₄]

theorem dispatchWait_some (h : Listening d s.interest) : ∃ t, dispatchWait d true s = some t := by
  have hnodup : ((List.range d.workers).map d.incoming).Nodup := by
    refine List.Nodup.map_on (fun x hx y hy heq => ?_) List.nodup_range
    exact h.distinct x (List.mem_range.mp hx) y (List.mem_range.mp hy) heq
  have hfree : ∀ fd ∈ (List.range d.workers).map d.incoming, s.interest fd = none := by
    intro fd hfd
    obtain ⟨x, hx, rfl⟩ := List.mem_map.mp hfd
    exact h.outside x (List.mem_range.mp hx)
  obtain ⟨r₁, r₂, r₃, r₄, h₁, h₂, h₃, h₄⟩ :=
    Registry.restores (v := (⟨evW, 0⟩ : EvoEvent)) h.socket hnodup hfree
  refine ⟨{ s with interest := r₄ }, ?_⟩
  rw [dispatchWait_eq, h₁, Option.bind_some, h₂, Option.bind_some, if_neg (by simp), h₃,
    Option.bind_some, h₄, Option.bind_some]

end PollSet

/-- The task is in one more pipe: the first that had room, from the one on that
its id selects. -/
structure ReachesOne (d : Dispatcher) (answer : ℕ → PipeAnswer) (id : Id) (task : TaskPtr)
    (s t : Dispatch) (k : ℕ) : Prop where
  lt : k < d.workers
  full : ∀ j < k, answer ((id.toNat + j) % d.workers) = .again
  room : answer ((id.toNat + k) % d.workers) = .written
  pipes : t.pipes = Function.update s.pipes ((id.toNat + k) % d.workers)
    (s.pipes ((id.toNat + k) % d.workers) ++ [task])
  tried : t.tried = s.tried ++ (List.range (k + 1)).map fun j => (id.toNat + j) % d.workers

/-- The task is in no pipe, and each was tried once. -/
structure ReachesNone (d : Dispatcher) (answer : ℕ → PipeAnswer) (s t : Dispatch) : Prop where
  full : ∀ i < d.workers, answer i = .again
  pipes : t.pipes = s.pipes
  tried : ∃ tries, t.tried = s.tried ++ tries ∧ tries.Perm (List.range d.workers)

section Reaches

variable {d : Dispatcher} {answer : ℕ → PipeAnswer} {id : Id} {task : TaskPtr} {s t : Dispatch}

theorem tried_eq (hid : id < idModulo) {n : ℕ} (hn : n ≤ d.workers) :
    ((List.range n).map fun j => d.index id (0 + j)) =
      (List.range n).map fun j => (id.toNat + j) % d.workers := by
  refine List.map_congr_left fun j hj => ?_
  rw [Nat.zero_add, d.index_eq hid ((List.mem_range.mp hj).trans_le hn)]

theorem Written.reachesOne (hid : id < idModulo) {k : ℕ} (hk : k < d.workers)
    (h : Written d answer id task 0 k s t) : ReachesOne d answer id task s t k := by
  have hindex : ∀ j ≤ k, d.index id (0 + j) = (id.toNat + j) % d.workers := fun j hj => by
    rw [Nat.zero_add, d.index_eq hid (hj.trans_lt hk)]
  refine ⟨hk, fun j hj => ?_, ?_, ?_, ?_⟩
  · rw [← hindex j hj.le]
    exact h.full j hj
  · rw [← hindex k le_rfl]
    exact h.room
  · rw [← hindex k le_rfl]
    exact h.pipes
  · rw [← tried_eq hid hk]
    exact h.tried

theorem Skipped.reachesNone (hid : id < idModulo) (h : Skipped d answer id 0 d.workers s t) :
    ReachesNone d answer s t := by
  have hperm := cyclic_perm id.toNat d.workers
  refine ⟨fun i hi => ?_, h.pipes, _, h.tried, ?_⟩
  · obtain ⟨j, hj, rfl⟩ := List.mem_map.mp (hperm.mem_iff.mpr (List.mem_range.mpr hi))
    have hlt := List.mem_range.mp hj
    rw [← d.index_eq hid hlt, ← Nat.zero_add j]
    exact h.full j hlt
  · rw [tried_eq hid le_rfl]
    exact hperm

/-- A call of `law_spawn_dispatch_once` that returns has written the task to the
first pipe with room, from that of worker `id % workers` on, or to none after it
tried each once; and the poll set is as it was. It returns unless a system call
fails. -/
theorem dispatch_once_reaches (d : Dispatcher) (answer : ℕ → PipeAnswer) (id : Id) (task : TaskPtr)
    (waits : Bool) (s : Dispatch) (hid : id < idModulo)
    (hsocket : s.interest d.socket = some ⟨evR, 0⟩) :
    (∀ r t, spawnDispatchOnce d answer id task waits s = some (r, t) → t.interest = s.interest ∧
      ((r = true ∧ ∃ k, ReachesOne d answer id task s t k) ∨
        (r = false ∧ ReachesNone d answer s t))) ∧
    (Listening d s.interest → (∀ i < d.workers, answer i ≠ .failed) → waits = true →
      ∃ r t, spawnDispatchOnce d answer id task waits s = some (r, t)) := by
  unfold spawnDispatchOnce
  obtain ⟨u, k, hrun, hk, hw⟩ | ⟨u, hrun, hs⟩ | ⟨hrun, j, hj, hfail⟩ :=
    @dispatchTurns_cases d answer id task d.workers 0 s
  · rw [hrun]
    refine ⟨fun r t h => ?_, fun _ _ _ => ⟨true, u, rfl⟩⟩
    obtain ⟨rfl, rfl⟩ := Prod.mk.inj (Option.some.inj h)
    exact ⟨hw.interest, .inl ⟨rfl, k, hw.reachesOne hid hk⟩⟩
  · rw [hrun]
    refine ⟨fun r t h => ?_, fun hl _ hwaits => ?_⟩
    · obtain ⟨v, hwait, heq⟩ := Option.map_eq_some_iff.mp h
      obtain ⟨rfl, rfl⟩ := Prod.mk.inj heq
      obtain rfl := dispatchWait_restores (by rw [hs.interest]; exact hsocket) hwait
      exact ⟨hs.interest, .inr ⟨rfl, hs.reachesNone hid⟩⟩
    · rw [← hs.interest] at hl
      obtain ⟨v, hwait⟩ := dispatchWait_some hl
      subst hwaits
      exact ⟨false, v, congrArg (Option.map fun s => (false, s)) hwait⟩
  · rw [hrun]
    refine ⟨fun r t h => (by cases h), fun _ hanswer _ => ?_⟩
    refine absurd hfail (hanswer _ ?_)
    rw [Nat.zero_add, d.index_eq hid hj]
    exact Nat.mod_lt _ (Nat.zero_lt_of_lt hj)

end Reaches

/-! ### The server's steps -/

/-- A pipe with its capacity answers so. -/
def pipeAnswer {P : Platform} (cfg : Config) (s : State P) (i : ℕ) : PipeAnswer :=
  if (s.incoming i).length < cfg.pipeCapacity then .written else .again

/-- A step of the acceptor that pushes a task is one turn of the loop. -/
theorem acceptStep_dispatchTurn {P : Platform} {cfg : Config} {d : Dispatcher} {s t : State P}
    {version : Vers} {p : TaskPtr} {x : ℕ} {interest : Registry ℕ EvoEvent} {tried : List ℕ}
    (hd : d.workers = cfg.workers) (hid : (s.heap p).id < idModulo) (hx : x < cfg.workers)
    (hpc : s.acceptPc = .pushing p x) (hst : acceptStep cfg s version = some t) :
    ∃ written,
      dispatchTurns d (pipeAnswer cfg s) (s.heap p).id p 1 x ⟨s.incoming, interest, tried⟩ =
        some (written, ⟨t.incoming, interest, tried ++ [dispatchIndex cfg (s.heap p).id x]⟩) ∧
      t.acceptPc = if written then .checking else .pushing p (x + 1) := by
  have hindex : d.index (s.heap p).id x = dispatchIndex cfg (s.heap p).id x := by
    rw [d.index_eq hid (hd ▸ hx), dispatchIndex, hd, Nat.add_comm]
  simp only [acceptStep, hpc, hx, if_true] at hst
  split_ifs at hst
  simp only [dispatchTurns, hindex, pipeAnswer]
  by_cases hroom : (s.incoming (dispatchIndex cfg (s.heap p).id x)).length < cfg.pipeCapacity
  · simp only [State.pushIncoming, hroom, if_true, Option.some.injEq] at hst ⊢
    subst hst
    exact ⟨true, rfl, rfl⟩
  · simp only [State.pushIncoming, hroom, if_false, Option.some.injEq] at hst ⊢
    subst hst
    exact ⟨false, rfl, rfl⟩

theorem threeWorkers_lt : 3 < 2 ^ 31 := by decide

/-- Three workers, the write ends of whose pipes are 5, 7 and 9. -/
def threeWorkers : Dispatcher := ⟨3, threeWorkers_lt, fun x => 2 * x + 5, 3⟩

/-- Only the socket is in the poll set. -/
def emptyPipes : Dispatch :=
  ⟨fun _ => [], fun fd => if fd = 3 then some ⟨evR, 0⟩ else none, []⟩

theorem dispatch_once_reaches_full : ∃ t,
    spawnDispatchOnce threeWorkers (fun _ => .again) 4 0 true emptyPipes = some (false, t) ∧
      t.interest = emptyPipes.interest ∧
      ReachesNone threeWorkers (fun _ => .again) emptyPipes t := by
  have h := dispatch_once_reaches threeWorkers (fun _ => .again) 4 0 true emptyPipes (by decide) rfl
  have hl : Listening threeWorkers emptyPipes.interest := by
    refine ⟨rfl, fun x _ => ?_, fun x _ y _ heq => ?_⟩
    · have hne : 2 * x + 5 ≠ 3 := by omega
      simp [emptyPipes, threeWorkers, hne]
    · simp only [threeWorkers] at heq
      omega
  obtain ⟨r, t, hrun⟩ := h.2 hl (fun _ _ => nofun) rfl
  obtain ⟨hsame, ⟨-, k, hone⟩ | ⟨rfl, hnone⟩⟩ := h.1 r t hrun
  · cases hone.room
  · exact ⟨t, hrun, hsame, hnone⟩

end Lawd

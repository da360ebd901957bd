import Lawd.Spawn

/-!
# The acceptor and its task

`law_server_accept` looks whether the pool is empty, accepts a connection and
then pops a task: three critical sections, between which a spawner may take the
last task. As long as none does, the pop returns a task, and the accepted
descriptors are handed to tasks one by one.
-/
namespace Lawd

open Library

variable {P : Platform}

/-- The acceptor has seen a task in the pool and has not popped one yet. -/
def State.Checked (s : State P) : Prop :=
  match s.acceptPc with
  | .checking => s.pc .acceptor = .unlock (.flag false) ∨ s.pc .acceptor = .done (.flag false)
  | .accept => True
  | .popping _ => s.pc .acceptor = .call .pop ∨ s.pc .acceptor = .locked .pop
  | _ => False

/-- No other thread takes the last task of the pool from under the acceptor. -/
def Undisturbed (s : State P) : Action → Prop
  | .pool th => ¬ (th ≠ .acceptor ∧ s.pc th = .locked .pop ∧ s.size = 1 ∧ s.Checked)
  | _ => True

/-- The acceptor's pop has returned `NULL`, and `SEL_TEST(task)` fails. -/
def State.AcceptHalts (s : State P) : Prop :=
  match s.acceptPc with
  | .popping _ => s.pc .acceptor = .done (.task none)
  | _ => False

/-- The descriptor that waits for a task. -/
def AcceptPc.pending : AcceptPc → List ℕ
  | popping fd => [fd]
  | _ => []

/-- The accepted descriptors, and the tasks set up for them, in order. -/
structure AcceptLog where
  accepted : List ℕ
  handed : List Task

/-- What a step adds to the log. -/
def AcceptLog.note (log : AcceptLog) (s : State P) (a : Action) (t : State P) : AcceptLog :=
  match a, s.acceptPc, t.acceptPc with
  | .accept (.fd fd), _, _ => { log with accepted := log.accepted ++ [fd] }
  | .acceptStep _, .popping _, .pushing p _ => { log with handed := log.handed ++ [t.heap p] }
  | _, _, _ => log

/-- The runs of a server with the log of its acceptor. -/
def acceptSystem (P : Platform) (cfg : Config) : System (State P × AcceptLog) Action :=
  (serverSystem P cfg).record AcceptLog.note ⟨[], []⟩

/-- Each accepted descriptor is handed to one task: the tasks set up by the
acceptor carry the descriptors in order, and are different tasks. -/
structure Handed (s : State P) (log : AcceptLog) : Prop where
  fds : log.accepted.map (BitVec.ofNat 64) =
    log.handed.map Task.data ++ s.acceptPc.pending.map (BitVec.ofNat 64)
  callbacks : ∀ task ∈ log.handed, task.callback = some .accept
  serials : (log.handed.map Task.serial).Pairwise (· < ·)

section Step

variable {cfg : Config} {s t : State P} {a : Action}

theorem poolStep_nonempty {T : Type} [DecidableEq T] {s t : PoolState T} {th : T}
    {l : List TaskPtr} (hst : poolStep s th = some t) (hi : PoolInv s l) (hlist : s.list ≠ none)
    (hlast : ¬ (s.pc th = .locked .pop ∧ s.size = 1)) : t.list ≠ none := by
  cases poolStep_turn hst with
  | link p hpc => exact Option.some_ne_none p
  | popNone hpc hnone => exact absurd hnone hlist
  | unlink p hpc hsome =>
    have hcounts := hi.held th (hi.owner th (by rw [hpc]; rfl))
    rw [hpc] at hcounts
    have hchain := hi.chain
    rw [hsome] at hchain
    obtain ⟨l', rfl, hrest⟩ := NodeIface.Chain.eq_cons hchain
    intro hnone
    have hnext : taskLlnIface.getNext s.heap p = none := by
      change s.unlink.list = none at hnone
      simpa only [PoolState.unlink, NodeIface.removeFirst, hsome] using hnone
    rw [hnext] at hrest
    obtain rfl := hrest.eq_nil
    exact hlast ⟨hpc, hcounts⟩
  | enter | count | uncount | size | isEmpty | isFull | leave => exact hlist

theorem serverStep_list (hst : serverStep cfg s a = some t) (ha : ∀ th, a ≠ .pool th) :
    t.list = s.list := by
  cases serverStep_turn hst with
  | pool th => exact absurd rfl (ha th)
  | spawnStep th version _ hturn => cases hturn <;> rfl
  | accept result _ hturn => cases hturn <;> rfl
  | acceptStep version _ hturn => cases hturn <;> rfl
  | release i _ hturn => cases hturn <;> rfl
  | spawn | worker | wakeup | stop => rfl

/-- The invariant of the acceptor: what it has seen still holds. -/
structure AcceptSafe (s : State P) : Prop where
  checked : s.Checked → s.list ≠ none
  halts : ¬ s.AcceptHalts

theorem AcceptSafe.bystander (hs : AcceptSafe s) (hst : serverStep cfg s a = some t)
    {l : List TaskPtr} (hi : Inv s l) (ha : Undisturbed s a) (hmover : a.mover ≠ some .acceptor) :
    AcceptSafe t := by
  have b := serverStep_bystander hst hmover
  have hchecked : t.Checked ↔ s.Checked := by rw [State.Checked, State.Checked, b.accept rfl, b.pc]
  have hhalts : t.AcceptHalts ↔ s.AcceptHalts := by
    rw [State.AcceptHalts, State.AcceptHalts, b.accept rfl, b.pc]
  refine ⟨fun h => ?_, fun h => hs.halts (hhalts.mp h)⟩
  have hc := hchecked.mp h
  by_cases hpool : ∃ th, a = .pool th
  · obtain ⟨th, rfl⟩ := hpool
    obtain ⟨u, hu, rfl⟩ := Option.map_eq_some_iff.mp hst
    refine poolStep_nonempty hu hi.pool (hs.checked hc) fun hlast => ha ⟨?_, hlast.1, hlast.2, hc⟩
    rintro rfl
    exact hmover rfl
  · rw [serverStep_list hst fun th h => hpool ⟨th, h⟩]
    exact hs.checked hc

/-- The test of the pool sees a task only if there is one. -/
theorem poolStep_isEmpty {T : Type} [DecidableEq T] {s t : PoolState T} {th : T}
    (hst : poolStep s th = some t) (hdoing : (s.pc th).Doing .isEmpty)
    (hflag : t.pc th = .unlock (.flag false) ∨ t.pc th = .done (.flag false)) :
    (s.pc th = .unlock (.flag false) ∨ s.list ≠ none) ∧ t.list = s.list := by
  cases poolStep_turn hst with
  | enter op hpc hlock =>
    rw [PoolState.setPc_same] at hflag
    rcases hflag with h | h <;> cases h
  | count hpc =>
    rw [hpc] at hdoing
    obtain ⟨p, hp⟩ := hdoing
    cases hp
  | isEmpty hpc =>
    rw [PoolState.setPc_same] at hflag
    refine ⟨.inr fun hnone => ?_, rfl⟩
    rw [hnone] at hflag
    rcases hflag with h | h <;> cases h
  | leave ret hpc =>
    rw [PoolState.setPc_same] at hflag
    rcases hflag with h | h
    · cases h
    · exact ⟨.inl (by rw [hpc, PoolPc.done.inj h]), rfl⟩
  | link _ hpc | popNone hpc _ | unlink _ hpc | uncount _ hpc | size hpc | isFull hpc =>
    rw [hpc] at hdoing
    cases hdoing

/-- The pop finds a task if there is one. -/
theorem poolStep_popping {T : Type} [DecidableEq T] {s t : PoolState T} {th : T}
    (hst : poolStep s th = some t) (hdoing : (s.pc th).Doing .pop) :
    (t.pc th = .call .pop ∨ t.pc th = .locked .pop → s.pc th = .call .pop ∧ t.list = s.list) ∧
      (t.pc th = .done (.task none) →
        s.pc th = .locked .pop ∧ s.list = none) := by
  cases poolStep_turn hst with
  | enter op hpc hlock =>
    rw [hpc] at hdoing
    rw [PoolState.setPc_same]
    exact ⟨fun _ => ⟨by rw [hpc, show op = .pop from hdoing], rfl⟩, fun h => by cases h⟩
  | count hpc =>
    rw [hpc] at hdoing
    obtain ⟨p, hp⟩ := hdoing
    cases hp
  | popNone hpc hnone =>
    rw [PoolState.setPc_same]
    exact ⟨fun h => (by rcases h with h | h <;> cases h), fun _ => ⟨hpc, hnone⟩⟩
  | unlink p hpc | uncount p hpc =>
    rw [PoolState.setPc_same]
    exact ⟨fun h => (by rcases h with h | h <;> cases h), fun h => by cases h⟩
  | leave ret hpc =>
    rw [hpc] at hdoing
    rw [PoolState.setPc_same]
    exact ⟨fun h => (by rcases h with h | h <;> cases h),
      fun h => absurd (PoolPc.done.inj h) hdoing.2⟩
  | link _ hpc | size hpc | isEmpty hpc | isFull hpc =>
    rw [hpc] at hdoing
    cases hdoing

theorem AcceptSafe.pool {u : PoolState Tid} (hs : AcceptSafe s) (hok : s.ThreadOk .acceptor)
    (hu : poolStep s.toPoolState .acceptor = some u) :
    AcceptSafe { s with toPoolState := u } := by
  have hdoing := hok.2
  have hchecked := hs.checked
  have hhalts := hs.halts
  unfold State.Checked at hchecked
  unfold State.AcceptHalts at hhalts
  refine ⟨fun h => ?_, fun h => ?_⟩
  · unfold State.Checked at h
    dsimp only at h
    cases haccept : s.acceptPc <;> rw [haccept] at h hdoing hchecked
    case checking =>
      obtain ⟨hold, hlist⟩ := poolStep_isEmpty hu hdoing h
      change u.list ≠ none
      rw [hlist]
      exact hold.elim (fun h => hchecked (.inl h)) id
    case accept =>
      simp only [poolStep, show s.pc .acceptor = .idle from hdoing] at hu
      cases hu
    case popping fd =>
      obtain ⟨hold, hlist⟩ := (poolStep_popping hu hdoing).1 h
      change u.list ≠ none
      rw [hlist]
      exact hchecked (.inl hold)
    all_goals exact h.elim
  · unfold State.AcceptHalts at h
    dsimp only at h
    cases haccept : s.acceptPc <;> rw [haccept] at h hdoing hchecked hhalts
    case popping fd =>
      obtain ⟨hpc, hlist⟩ := (poolStep_popping hu hdoing).2 h
      exact hchecked (.inr hpc) hlist
    all_goals exact h.elim

theorem AcceptSafe.turn (hs : AcceptSafe s) (hst : AcceptTurn cfg s a t) : AcceptSafe t := by
  have hcall : ∀ (u : State P) (op : PoolOp),
      (u.setPc .acceptor (.call op)).pc .acceptor = .call op := fun u op => u.setPc_same _ _
  have htest : ∀ u : State P, ¬ ((u.setPc .acceptor (.call .isEmpty)).pc .acceptor =
      .unlock (.flag false) ∨ (u.setPc .acceptor (.call .isEmpty)).pc .acceptor =
      .done (.flag false)) := by
    intro u h
    rw [hcall] at h
    rcases h with h | h <;> cases h
  have hlist : s.acceptPc = .accept → s.list ≠ none := fun haccept => by
    refine hs.checked ?_
    unfold State.Checked
    rw [haccept]
    trivial
  cases hst with
  | accepted fd haccept =>
    exact ⟨fun _ => hlist haccept, fun h => by cases (hcall s _).symm.trans h⟩
  | aborted haccept => exact ⟨fun _ => hlist haccept, id⟩
  | goes version haccept => exact ⟨fun h => absurd h (htest s), id⟩
  | send version p x i haccept => exact ⟨fun h => absurd h (htest _), id⟩
  | nonempty version haccept hdone =>
    refine ⟨fun _ => hs.checked ?_, id⟩
    unfold State.Checked
    rw [haccept]
    exact .inr hdone
  | waits version haccept =>
    unfold State.setPc
    refine ⟨fun h => ?_, fun h => ?_⟩
    · unfold State.Checked at h
      rw [show State.acceptPc _ = .draining from haccept] at h
      exact h.elim
    · unfold State.AcceptHalts at h
      rw [show State.acceptPc _ = .draining from haccept] at h
      exact h
  | nothing | fails | stops | empty | setup | tries | again | wakes | full | tells | ends =>
    exact ⟨False.elim, id⟩

theorem serverStep_acceptSafe (hst : serverStep cfg s a = some t) {l : List TaskPtr} (hi : Inv s l)
    (hok : s.ThreadOk .acceptor) (ha : Undisturbed s a) (hs : AcceptSafe s) : AcceptSafe t := by
  by_cases hmover : a.mover = some .acceptor
  · rcases acceptor_moves hst hok hmover with ⟨u, rfl, hu, rfl⟩ | hturn
    · exact hs.pool hok hu
    · exact hs.turn hturn
  · exact hs.bystander hst hi ha hmover

/-- The log of the acceptor against the server. -/
structure LogInv (s : State P) (log : AcceptLog) : Prop extends Handed s log where
  bound : ∀ task ∈ log.handed, task.serial ≤ s.spawned

theorem serverStep_spawned (hst : serverStep cfg s a = some t) : s.spawned ≤ t.spawned := by
  cases serverStep_effect hst with
  | pool th u hu => exact le_rfl
  | control _ hc => exact hc.spawned.ge
  | setup th p callback data version _ hp hc => exact (Nat.le_succ _).trans hc.spawned.ge
  | send th i p _ hp hc => exact hc.spawned.ge
  | drop th p _ hfail hc => exact hc.spawned.ge
  | worker i act v hi ha hv => exact le_rfl

theorem AcceptLog.note_bystander (log : AcceptLog) (h : a.mover ≠ some .acceptor) :
    log.note s a t = log := by
  cases a with
  | accept result => exact absurd rfl h
  | acceptStep version => exact absurd rfl h
  | _ => rfl

/-- A step that neither accepts a descriptor nor hands one out. -/
theorem LogInv.stay {log : AcceptLog} (h : LogInv s log)
    (hpending : t.acceptPc.pending = s.acceptPc.pending) (hspawned : s.spawned ≤ t.spawned) :
    LogInv t log where
  fds := by rw [hpending, h.fds]
  callbacks := h.callbacks
  serials := h.serials
  bound task ht := (h.bound task ht).trans hspawned

/-- The task that the acceptor sets up carries the descriptor it waits with. -/
theorem LogInv.hand {log : AcceptLog} (h : LogInv s log) {fd : ℕ}
    (haccept : s.acceptPc = .popping fd)
    {p : TaskPtr} {version : Vers}
    (hheap : t.heap = (s.setup p .accept (BitVec.ofNat 64 fd) version).heap)
    (hpc : t.acceptPc = .pushing p 0) (hspawned : t.spawned = s.spawned + 1) :
    LogInv t { log with handed := log.handed ++ [t.heap p] } := by
  have htask : t.heap p = { taskSetup (s.heap p) ((s.seed + 1) % idModulo) .accept
      (BitVec.ofNat 64 fd) version with serial := s.spawned + 1 } := by
    rw [hheap]
    simp only [State.setup, Heap.modify_same]
  have hfds := h.fds
  rw [haccept] at hfds
  refine ⟨⟨?_, fun task ht => ?_, ?_⟩, fun task ht => ?_⟩
  · rw [hpc, List.map_append, hfds, htask]
    simp [AcceptPc.pending, taskSetup]
  · rcases List.mem_append.mp ht with ht | ht
    · exact h.callbacks task ht
    · rw [List.mem_singleton.mp ht, htask]
      rfl
  · rw [List.map_append]
    refine List.pairwise_append.mpr ⟨h.serials, List.pairwise_singleton _ _, fun m hm n hn => ?_⟩
    obtain ⟨task, ht, rfl⟩ := List.mem_map.mp hm
    rw [List.mem_singleton.mp hn, htask]
    exact Nat.lt_succ_of_le (h.bound task ht)
  · rw [hspawned]
    rcases List.mem_append.mp ht with ht | ht
    · exact (h.bound task ht).trans (Nat.le_succ _)
    · rw [List.mem_singleton.mp ht, htask]

theorem AcceptLog.note_stay (log : AcceptLog) (ha : ∀ fd, a ≠ .accept (.fd fd))
    (hpc : ∀ fd, s.acceptPc ≠ .popping fd) : log.note s a t = log := by
  unfold AcceptLog.note
  split
  · rename_i fd
    exact absurd rfl (ha fd)
  · rename_i haccept _
    exact absurd haccept (hpc _)
  · rfl

theorem LogInv.turn {log : AcceptLog} (h : LogInv s log) (hst : AcceptTurn cfg s a t) :
    LogInv t (log.note s a t) := by
  have hstay : ∀ {u : State P} {b : Action} {pc : AcceptPc}, s.acceptPc = pc → pc.pending = [] →
      (∀ fd, b ≠ .accept (.fd fd)) → u.acceptPc.pending = [] → s.spawned ≤ u.spawned →
      LogInv u (log.note s b u) := by
    intro u b pc hpc hold hb hnew hspawned
    have hne : ∀ fd, s.acceptPc ≠ .popping fd := by
      rintro fd heq
      rw [heq] at hpc
      rw [← hpc] at hold
      cases hold
    rw [log.note_stay hb hne]
    exact h.stay (hnew.trans (hpc ▸ hold).symm) hspawned
  cases hst with
  | accepted fd haccept =>
    refine ⟨⟨?_, h.callbacks, h.serials⟩, h.bound⟩
    have hfds := h.fds
    rw [haccept] at hfds
    change (log.accepted ++ [fd]).map (BitVec.ofNat 64) =
      log.handed.map Task.data ++ [fd].map (BitVec.ofNat 64)
    rw [List.map_append, hfds]
    simp [AcceptPc.pending]
  | nothing result haccept _ hresult =>
    exact hstay haccept rfl (by rintro fd ⟨⟩; simp at hresult) rfl le_rfl
  | fails result haccept _ hresult =>
    exact hstay haccept rfl (by rintro fd ⟨⟩; simp at hresult) rfl le_rfl
  | setup version fd p haccept =>
    have hhand := h.hand (t := { (s.setup p .accept (BitVec.ofNat 64 fd) version).setPc
      .acceptor .idle with acceptPc := .pushing p 0 }) haccept rfl rfl rfl
    simpa only [AcceptLog.note, haccept] using hhand
  | waits version haccept =>
    exact hstay haccept rfl (by simp) (congrArg AcceptPc.pending haccept) le_rfl
  | aborted haccept | goes _ haccept | stops _ haccept | empty _ haccept | nonempty _ haccept
  | send _ _ _ _ haccept | tries _ _ _ haccept | again _ _ _ haccept | wakes _ haccept
  | full _ haccept | tells _ _ haccept | ends _ _ haccept =>
    exact hstay haccept rfl (by simp) rfl le_rfl

theorem serverStep_log {log : AcceptLog} (hst : serverStep cfg s a = some t)
    (hok : s.ThreadOk .acceptor) (h : LogInv s log) : LogInv t (log.note s a t) := by
  by_cases hmover : a.mover = some .acceptor
  · rcases acceptor_moves hst hok hmover with ⟨u, rfl, hu, rfl⟩ | hturn
    · exact h.stay rfl le_rfl
    · exact h.turn hturn
  · have haccept := (serverStep_bystander hst hmover).accept rfl
    rw [log.note_bystander hmover]
    exact h.stay (by rw [haccept]) (serverStep_spawned hst)

end Step

theorem serverCreate_accept (cfg : Config) (heap : Heap) :
    AcceptSafe (serverCreate P cfg heap) ∧ LogInv (serverCreate P cfg heap) ⟨[], []⟩ :=
  ⟨⟨False.elim, id⟩, ⟨⟨rfl, by simp, .nil⟩, by simp⟩⟩

/-- In every run in which no other thread takes the last task between the
acceptor's look at the pool and its pop, the pop returns a task, and the
accepted descriptors are handed, in order, to different tasks; the last one may
still wait for its task. -/
theorem accepted_get_task (P : Platform) (cfg : Config) {s : State P × AcceptLog}
    (h : (acceptSystem P cfg).Reach (fun s a => Undisturbed s.1 a) s) :
    ¬ s.1.AcceptHalts ∧ Handed s.1 s.2 := by
  have hinv : AcceptSafe s.1 ∧ LogInv s.1 s.2 := by
    refine h.invariant (P := fun s => AcceptSafe s.1 ∧ LogInv s.1 s.2) ?_ ?_
    · rintro ⟨s, log⟩ ⟨⟨heap, -, rfl⟩, rfl⟩
      exact serverCreate_accept cfg heap
    · rintro ⟨s, log⟩ a ⟨t, log'⟩ hr ⟨hsafe, hlog⟩ ha hst
      obtain ⟨t, ht, heq⟩ := Option.map_eq_some_iff.mp hst
      obtain ⟨rfl, rfl⟩ := Prod.mk.inj heq
      have hreach := System.Reach.of_record hr
      obtain ⟨l, hi⟩ := inv_of_reach hreach
      have hok := threadOk_of_reach hreach .acceptor
      exact ⟨serverStep_acceptSafe ht hi hok ha hsafe, serverStep_log ht hok hlog⟩
  exact ⟨hinv.1.halts, hinv.2.toHanded⟩

/-- One worker with two tasks. -/
def twoTasks : Config := ⟨1, 2, true, 8, 5000⟩

/-- While the first connection's task runs, the acceptor sees the other task in
the pool and accepts a second connection; then the running task spawns, and the
acceptor pops. -/
def spawnBetween : List Action :=
  [[.acceptStep 0], acceptOne, tickOne 0, List.replicate 3 (.pool .acceptor),
    [.acceptStep 0, .accept (.fd 6), .spawn (.worker 0) (.user 0) 0],
    List.replicate 4 (.pool (.worker 0)), List.replicate 2 (.pool .acceptor)].flatten

/-- The pop then returns `NULL`, and descriptor 6 has no task. -/
theorem accept_finds_none : ∃ s, (acceptSystem Platform.lists twoTasks).Reachable s ∧
    s.1.AcceptHalts ∧ s.2.accepted = [5, 6] ∧ s.2.handed.map Task.data = [5] := by
  have hrun : ((acceptSystem Platform.lists twoTasks).run
      (serverCreate _ twoTasks zeroHeap, ⟨[], []⟩) spawnBetween).map (fun s =>
        (s.1.acceptPc, s.1.pc .acceptor, s.2.accepted, s.2.handed.map Task.data)) =
      some (.popping 6, .done (.task none), [5, 6], [5]) := by decide
  obtain ⟨s, hs, hall⟩ := Option.map_eq_some_iff.mp hrun
  simp only [Prod.mk.injEq] at hall
  obtain ⟨haccept, hpc, haccepted, hhanded⟩ := hall
  refine ⟨s, System.Reachable.run (.init ⟨⟨zeroHeap, zeroHeap_fresh, rfl⟩, rfl⟩) _ hs, ?_,
    haccepted, hhanded⟩
  rw [State.AcceptHalts, haccept]
  exact hpc

instance (s : State P) : Decidable s.Checked := by
  unfold State.Checked
  cases s.acceptPc <;> infer_instance

instance (s : State P) : (a : Action) → Decidable (Undisturbed s a)
  | .pool th =>
    inferInstanceAs (Decidable (¬ (th ≠ .acceptor ∧ s.pc th = .locked .pop ∧ s.size = 1 ∧
      s.Checked)))
  | .spawn _ _ _ | .spawnStep _ _ | .accept _ | .acceptStep _ | .worker _ _ | .release _
  | .wakeup _ _ | .stop => .isTrue trivial

/-- The first accepted descriptor is handed to a task. -/
theorem accepted_get_task_first : ∃ s : State Platform.lists × AcceptLog,
    s.2.accepted = [5] ∧ ¬ s.1.AcceptHalts ∧ Handed s.1 s.2 := by
  have hrun : ((acceptSystem Platform.lists twoTasks).checkedRun (fun s a => Undisturbed s.1 a)
      (serverCreate _ twoTasks zeroHeap, ⟨[], []⟩) (.acceptStep 0 :: acceptOne)).map
      (fun s => s.2.accepted) = some [5] := by decide
  obtain ⟨s, hs, haccepted⟩ := Option.map_eq_some_iff.mp hrun
  exact ⟨s, haccepted, accepted_get_task Platform.lists twoTasks
    (System.Reach.checkedRun (.init ⟨⟨zeroHeap, zeroHeap_fresh, rfl⟩, rfl⟩) _ hs)⟩

end Lawd

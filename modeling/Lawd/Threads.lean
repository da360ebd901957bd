import Lawd.Conservation

/-!
# Where the threads stand

A thread is inside a call on the pool only where its code makes that call: the
acceptor for its two tests and its pop, a spawner for its pop, a worker for the
push of a finished task. A worker thread spawns only while a task runs on it.
-/
namespace Lawd

open Library

variable {P : Platform}

/-- The results of a call on the pool. -/
def PoolOp.Returns : PoolOp → PoolRet → Prop
  | push _, .unit => True
  | pop, .task _ => True
  | size, .size _ => True
  | isEmpty, .flag _ => True
  | isFull, .flag _ => True
  | _, _ => False

/-- The thread has called `op` and has not yet taken its result. -/
def PoolPc.Doing (op : PoolOp) : PoolPc → Prop
  | idle => False
  | call op' => op' = op
  | locked op' => op' = op
  | linked => ∃ p, op = .push p
  | unlinked _ => op = .pop
  | unlock ret => op.Returns ret ∧ ret ≠ .task none
  | done ret => op.Returns ret

theorem poolStep_doing {T : Type} [DecidableEq T] {s t : PoolState T} {th : T}
    (h : poolStep s th = some t) : s.pc th ≠ .idle ∧ ∃ pc, t.pc = Function.update s.pc th pc ∧
      ∀ op, (s.pc th).Doing op → pc.Doing op := by
  cases poolStep_turn h with
  | enter op hpc hlock =>
    exact ⟨by rw [hpc]; simp, _, rfl, fun op' hd => by rwa [hpc] at hd⟩
  | link p hpc =>
    refine ⟨by rw [hpc]; simp, _, rfl, fun op hd => ?_⟩
    rw [hpc] at hd
    exact ⟨p, hd.symm⟩
  | count hpc =>
    refine ⟨by rw [hpc]; simp, _, rfl, fun op hd => ?_⟩
    rw [hpc] at hd
    obtain ⟨p, rfl⟩ := hd
    exact ⟨trivial, by simp⟩
  | leave ret hpc =>
    refine ⟨by rw [hpc]; simp, _, rfl, fun op hd => ?_⟩
    rw [hpc] at hd
    exact hd.1
  | popNone hpc | unlink _ hpc =>
    refine ⟨by rw [hpc]; simp, _, rfl, fun op hd => ?_⟩
    rw [hpc] at hd
    subst hd
    trivial
  | uncount _ hpc | size hpc | isEmpty hpc | isFull hpc =>
    refine ⟨by rw [hpc]; simp, _, rfl, fun op hd => ?_⟩
    rw [hpc] at hd
    subst hd
    exact ⟨trivial, by simp⟩

/-- The thread that takes a step, if it is one of the server's or a spawner's. -/
def Action.mover : Action → Option Tid
  | pool th => some th
  | spawn th _ _ => some th
  | spawnStep th _ => some th
  | accept _ => some .acceptor
  | acceptStep _ => some .acceptor
  | worker i _ => some (.worker i)
  | release i => some (.worker i)
  | wakeup _ _ => none
  | stop => none

/-- The thread stands where it stood. -/
structure Bystander (s t : State P) (th : Tid) : Prop where
  pc : t.pc th = s.pc th
  spawn : t.spawnPc th = s.spawnPc th
  accept : th = .acceptor → t.acceptPc = s.acceptPc
  worker : ∀ i, th = .worker i → t.workers i = s.workers i

@[simp] theorem State.setPc_ne (s : State P) {th th' : Tid} (pc : PoolPc) (h : th' ≠ th) :
    (s.setPc th pc).pc th' = s.pc th' := PoolState.setPc_ne _ _ h

@[simp] theorem State.setSpawn_ne (s : State P) {th th' : Tid} (pc : SpawnPc) (h : th' ≠ th) :
    (s.setSpawn th pc).spawnPc th' = s.spawnPc th' := Function.update_of_ne h ..

theorem Bystander.of_acceptor {s t : State P} {th : Tid} (hne : th ≠ .acceptor)
    (hspawn : t.spawnPc = s.spawnPc) (hworkers : t.workers = s.workers)
    (hpc : t.pc th = s.pc th) : Bystander s t th :=
  ⟨hpc, by rw [hspawn], fun h => absurd h hne, fun i _ => by rw [hworkers]⟩

theorem serverStep_bystander {cfg : Config} {s t : State P} {a : Action}
    (hst : serverStep cfg s a = some t) {th : Tid} (hth : a.mover ≠ some th) :
    Bystander s t th := by
  have hne : ∀ {th'}, a.mover = some th' → th ≠ th' := by
    rintro th' h rfl
    exact hth h
  have hmove : ∀ {u : State P}, a.mover = some .acceptor → u.spawnPc = s.spawnPc →
      u.workers = s.workers → u.pc th = s.pc th → Bystander s u th :=
    fun ha => .of_acceptor (hne ha)
  cases serverStep_turn hst with
  | pool th' u hu =>
    refine ⟨?_, rfl, fun _ => rfl, fun _ _ => rfl⟩
    obtain ⟨-, pc, hpc, -⟩ := poolStep_doing hu
    change u.pc th = _
    rw [hpc, Function.update_of_ne (hne rfl)]
  | spawn th' callback data =>
    exact ⟨s.setPc_ne _ (hne rfl), State.setSpawn_ne _ _ (hne rfl), fun _ => rfl, fun _ _ => rfl⟩
  | spawnStep th' version _ hturn =>
    cases hturn with
    | limit =>
      exact ⟨s.setPc_ne _ (hne rfl), State.setSpawn_ne _ _ (hne rfl), fun _ => rfl, fun _ _ => rfl⟩
    | setup callback data p =>
      exact ⟨(s.setup p callback data version).setPc_ne _ (hne rfl),
        State.setSpawn_ne _ _ (hne rfl), fun _ => rfl, fun _ _ => rfl⟩
    | send | full | wantw =>
      exact ⟨rfl, State.setSpawn_ne _ _ (hne rfl), fun _ => rfl, fun _ _ => rfl⟩
  | accept result _ hturn =>
    cases hturn with
    | accepted | aborted | fails => exact hmove rfl rfl rfl (s.setPc_ne _ (hne rfl))
    | nothing => exact hmove rfl rfl rfl rfl
  | acceptStep version _ hturn =>
    cases hturn with
    | goes | stops | empty | nonempty | full | waits | send =>
      exact hmove rfl rfl rfl (s.setPc_ne _ (hne rfl))
    | setup _ fd p =>
      exact hmove rfl rfl rfl
        ((s.setup p .accept (BitVec.ofNat 64 fd) version).setPc_ne _ (hne rfl))
    | tries | again | wakes | tells | ends => exact hmove rfl rfl rfl rfl
  | worker i act v =>
    refine ⟨rfl, rfl, fun _ => rfl, fun j hj => Function.update_of_ne ?_ ..⟩
    rintro rfl
    exact hne rfl hj
  | release i _ hturn =>
    have hworkers : ∀ w j, th = .worker j → Function.update s.workers i w j = s.workers j := by
      rintro w j hj
      refine Function.update_of_ne ?_ ..
      rintro rfl
      exact hne rfl hj
    cases hturn with
    | push | pushed => exact ⟨State.setPc_ne _ _ (hne rfl), rfl, fun _ => rfl, hworkers _⟩
  | wakeup | stop => exact ⟨rfl, rfl, fun _ => rfl, fun _ _ => rfl⟩

/-- A thread in `law_spawn`, against its place in the pool. -/
def SpawnPc.Ok : SpawnPc → PoolPc → Prop
  | idle, pc => pc = .idle
  | popping _ _, pc => pc.Doing .pop
  | trying _ _, pc => pc = .idle

/-- The acceptor against its place in the pool. -/
def AcceptPc.Ok : AcceptPc → PoolPc → Prop
  | checking, pc => pc.Doing .isEmpty
  | popping _, pc => pc.Doing .pop
  | draining, pc => pc.Doing .isFull
  | _, pc => pc = .idle

/-- A worker against its place in `law_spawn` and in the pool. -/
def WorkerPc.Ok : WorkerPc → SpawnPc → PoolPc → Prop
  | running _, spawn, pc => spawn.Ok pc
  | pushing, spawn, pc => spawn = .idle ∧ ∃ p, pc.Doing (.push p)
  | _, spawn, pc => spawn = .idle ∧ pc = .idle

/-- A thread stands where its code can be. -/
def State.ThreadOk (s : State P) : Tid → Prop
  | .acceptor => s.spawnPc .acceptor = .idle ∧ s.acceptPc.Ok (s.pc .acceptor)
  | .worker i => (s.workers i).pc.Ok (s.spawnPc (.worker i)) (s.pc (.worker i))
  | .ext n => (s.spawnPc (.ext n)).Ok (s.pc (.ext n))

theorem Bystander.threadOk {s t : State P} {th : Tid} (b : Bystander s t th)
    (h : s.ThreadOk th) : t.ThreadOk th := by
  cases th with
  | acceptor =>
    rw [State.ThreadOk, b.spawn, b.pc, b.accept rfl]
    exact h
  | worker i =>
    rw [State.ThreadOk, b.spawn, b.pc, b.worker i rfl]
    exact h
  | ext n =>
    rw [State.ThreadOk, b.spawn, b.pc]
    exact h

theorem SpawnPc.Ok.move {spawn : SpawnPc} {pc pc' : PoolPc} (h : spawn.Ok pc)
    (hne : pc ≠ .idle) (hmove : ∀ op, pc.Doing op → pc'.Doing op) : spawn.Ok pc' := by
  cases spawn with
  | idle => exact absurd h hne
  | popping callback data => exact hmove _ h
  | trying p x => exact absurd h hne

/-- A thread that moves on in its call on the pool. -/
theorem State.ThreadOk.move {s t : State P} {th : Tid} (h : s.ThreadOk th)
    (hne : s.pc th ≠ .idle) (hmove : ∀ op, (s.pc th).Doing op → (t.pc th).Doing op)
    (hspawn : t.spawnPc = s.spawnPc) (haccept : t.acceptPc = s.acceptPc)
    (hworkers : t.workers = s.workers) : t.ThreadOk th := by
  cases th with
  | acceptor =>
    rw [State.ThreadOk, hspawn, haccept]
    refine ⟨h.1, ?_⟩
    have hok := h.2
    cases haccept' : s.acceptPc <;> rw [haccept'] at hok
    case checking => exact hmove _ hok
    case popping fd => exact hmove _ hok
    case draining => exact hmove _ hok
    all_goals exact absurd hok hne
  | worker i =>
    rw [State.ThreadOk, hspawn, hworkers]
    rw [State.ThreadOk] at h
    cases hworker : (s.workers i).pc <;> rw [hworker] at h
    case running p => exact SpawnPc.Ok.move h hne hmove
    case pushing =>
      obtain ⟨hidle, p, hp⟩ := h
      exact ⟨hidle, p, hmove _ hp⟩
    all_goals exact absurd h.2 hne
  | ext n =>
    rw [State.ThreadOk, hspawn]
    exact SpawnPc.Ok.move h hne hmove

theorem WorkerPc.Ok.of_idle {pc : WorkerPc} (h : pc ≠ .pushing) : pc.Ok .idle .idle := by
  cases pc
  case pushing => exact absurd rfl h
  case running p => exact (rfl : PoolPc.idle = .idle)
  all_goals exact ⟨rfl, rfl⟩

theorem WorkerEffect.not_pushing {cfg : Config} {v v' : View P} {a : WorkerAct}
    (h : WorkerEffect cfg v a v') : v'.worker.pc ≠ .pushing := by
  intro hpush
  have hruns : ∀ {p : TaskPtr}, v.Runs p → v.worker.pc ≠ .pushing := fun hr => by
    rw [hr.1]
    simp
  cases h with
  | control w messages hpc hpc' hk hb =>
    rw [show w.pc = .pushing from hpush] at hpc'
    cases hpc'
  | stale e timer hpc hpop hst => cases hpc.symm.trans hpush
  | expired e timer p ev hpc hpop hlook hver => cases hpc.symm.trans hpush
  | woken w messages id p ev hpc hpc' hk hb hlook =>
    rw [← hpc', show w.pc = .pushing from hpush] at hpc
    cases hpc
  | tickDone pc heap ready hpc hpop hpc' =>
    rw [show pc = .pushing from hpush] at hpc'
    rcases hpc' with h | h <;> cases h
  | ectl p fd op flags events data fails interest hr => exact hruns hr hpush
  | close p interest hr hint => exact hruns hr hpush
  | unchanged p hr => exact hruns hr hpush
  | enter p hr he ha => exact hruns hr hpush
  | leave p e hr he hp => exact hruns hr hpush
  | take | insert | run | ewait | finish | mistaken => cases hpush

section Step

variable {cfg : Config} {s t : State P} {th : Tid}

theorem State.ThreadOk.of_spawn (hmay : s.MaySpawn cfg th) (hworkers : t.workers = s.workers)
    (h : (t.spawnPc th).Ok (t.pc th)) : t.ThreadOk th := by
  cases th with
  | acceptor => exact hmay.elim
  | worker i =>
    obtain ⟨-, p, -, hruns⟩ := hmay
    rw [State.ThreadOk, hworkers, show (s.workers i).pc = .running p from hruns.1]
    exact h
  | ext n => exact h

/-- The same inside `law_spawn`, where the thread has called it before. -/
theorem State.ThreadOk.of_spawning (hok : s.ThreadOk th) (hspawn : s.spawnPc th ≠ .idle)
    (hworkers : t.workers = s.workers) (h : (t.spawnPc th).Ok (t.pc th)) :
    t.ThreadOk th := by
  cases th with
  | acceptor => exact absurd hok.1 hspawn
  | worker i =>
    rw [State.ThreadOk] at hok
    rw [State.ThreadOk, hworkers]
    cases hworker : (s.workers i).pc <;> rw [hworker] at hok
    case running p => exact h
    all_goals exact absurd hok.1 hspawn
  | ext n => exact h

theorem spawnTurn_threadOk {version : Vers} (hok : s.ThreadOk th)
    (hst : SpawnTurn cfg s th version t) : t.ThreadOk th := by
  have hmove : ∀ {pc : SpawnPc} {u : State P}, s.spawnPc th ≠ .idle → u.workers = s.workers →
      pc.Ok (u.pc th) → (u.setSpawn th pc).ThreadOk th := by
    intro pc u hspawn hworkers hpc
    refine hok.of_spawning hspawn hworkers ?_
    rw [State.setSpawn_same]
    exact hpc
  cases hst with
  | limit callback data hspawn | setup callback data p hspawn =>
    exact hmove (by simp [hspawn]) rfl (State.setPc_same ..)
  | send p x hspawn hidle | full p x hspawn hidle | wantw p x hspawn hidle =>
    exact hmove (by simp [hspawn]) rfl hidle

theorem acceptTurn_threadOk {a : Action} (hok : s.ThreadOk .acceptor)
    (hst : AcceptTurn cfg s a t) : t.ThreadOk .acceptor := by
  have hset : ∀ (u : State P) (pc : PoolPc) (pc' : AcceptPc), u.spawnPc = s.spawnPc →
      pc'.Ok pc → State.ThreadOk { u.setPc .acceptor pc with acceptPc := pc' } .acceptor := by
    intro u pc pc' hspawn hpc
    refine ⟨(congrFun hspawn _).trans hok.1, ?_⟩
    change pc'.Ok ((u.setPc .acceptor pc).pc .acceptor)
    rw [State.setPc_same]
    exact hpc
  have hpc := hok.2
  cases hst with
  | accepted | aborted | fails | goes | stops | empty | nonempty | full =>
    exact hset s _ _ rfl rfl
  | setup version fd p => exact hset (s.setup p .accept (BitVec.ofNat 64 fd) version) _ _ rfl rfl
  | send version p x i => exact hset { s with incoming := _ } _ _ rfl rfl
  | nothing _ _ hidle | tries _ _ _ _ hidle | again _ _ _ _ hidle => exact ⟨hok.1, hidle⟩
  | wakes _ haccept | tells _ n haccept | ends _ n haccept =>
    rw [haccept] at hpc
    exact ⟨hok.1, hpc⟩
  | waits _ haccept =>
    have h := hset s (.call .isFull) .draining rfl rfl
    rwa [← haccept] at h

theorem releaseTurn_threadOk {i : ℕ} (hok : s.ThreadOk (.worker i))
    (hst : ReleaseTurn cfg s i t) : t.ThreadOk (.worker i) := by
  have hset : ∀ (pc : WorkerPc) (pc' : PoolPc), pc.Ok (s.spawnPc (.worker i)) pc' →
      State.ThreadOk (State.setPc { s with
        workers := Function.update s.workers i { s.workers i with pc := pc } } (.worker i) pc')
        (.worker i) := by
    intro pc pc' hpc
    rw [State.ThreadOk, State.setPc_same]
    change (Function.update s.workers i _ i).pc.Ok (s.spawnPc (.worker i)) pc'
    rw [Function.update_self]
    exact hpc
  rw [State.ThreadOk] at hok
  cases hst with
  | push p _ hpc =>
    rw [hpc] at hok
    exact hset _ _ ⟨hok.1, p, rfl⟩
  | pushed _ hpc =>
    rw [hpc] at hok
    exact hset _ _ ⟨hok.1, rfl⟩

theorem serverStep_mover {a : Action} (hst : serverStep cfg s a = some t)
    (hth : a.mover = some th) (hok : s.ThreadOk th) : t.ThreadOk th := by
  cases serverStep_turn hst with
  | pool th' u hu =>
    obtain rfl := Option.some.inj hth
    obtain ⟨hne, pc, hpc, hmove⟩ := poolStep_doing hu
    refine hok.move hne (fun op hd => ?_) rfl rfl rfl
    change (u.pc th').Doing op
    rw [hpc, Function.update_self]
    exact hmove op hd
  | spawn th' callback data hmay =>
    obtain rfl := Option.some.inj hth
    refine .of_spawn hmay rfl ?_
    change ((s.setPc th' _).setSpawn th' (.popping callback data)).spawnPc th' |>.Ok
      ((s.setPc th' (.call .pop)).pc th')
    rw [State.setSpawn_same, State.setPc_same]
    rfl
  | spawnStep th' version _ hturn =>
    obtain rfl := Option.some.inj hth
    exact spawnTurn_threadOk hok hturn
  | accept result _ hturn | acceptStep version _ hturn =>
    obtain rfl := Option.some.inj hth
    exact acceptTurn_threadOk hok hturn
  | worker i act v _ hspawn hpc hv =>
    obtain rfl := Option.some.inj hth
    change (Function.update s.workers i v.worker i).pc.Ok (s.spawnPc (.worker i)) (s.pc (.worker i))
    rw [Function.update_self, hspawn, hpc]
    exact .of_idle (workerStep_effect hv).not_pushing
  | release i _ hturn =>
    obtain rfl := Option.some.inj hth
    exact releaseTurn_threadOk hok hturn
  | wakeup | stop => cases hth

theorem serverStep_threadOk {a : Action} (hst : serverStep cfg s a = some t)
    (h : ∀ th, s.ThreadOk th) (th : Tid) : t.ThreadOk th := by
  by_cases hth : a.mover = some th
  · exact serverStep_mover hst hth (h th)
  · exact (serverStep_bystander hst hth).threadOk (h th)

end Step

theorem serverCreate_threadOk (cfg : Config) (heap : Heap) (th : Tid) :
    (serverCreate P cfg heap).ThreadOk th := by
  obtain ⟨c, hc, -, -, -, -, hpc, -⟩ :=
    poolFill_spec (T := Tid) heap (cfg.workerTasks * cfg.workers) (cfg.workerTasks * cfg.workers)
  have hidle : ∀ th, (serverCreate P cfg heap).pc th = .idle := fun th => by
    simp only [serverCreate, poolCreate, hc, hpc]
  cases th with
  | acceptor => exact ⟨rfl, hidle _⟩
  | worker i => exact ⟨rfl, hidle _⟩
  | ext n => exact hidle _

theorem threadOk_of_reach {cfg : Config} {ok : State P → Action → Prop} {s : State P}
    (h : (serverSystem P cfg).Reach ok s) : ∀ th, s.ThreadOk th :=
  h.invariant (P := fun s => ∀ th, s.ThreadOk th)
    (fun _ hs => by
      obtain ⟨heap, -, rfl⟩ := hs
      exact serverCreate_threadOk cfg heap)
    fun _ _ _ _ hs _ hst => serverStep_threadOk hst hs

end Lawd

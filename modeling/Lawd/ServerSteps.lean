import Lawd.ServerTurn
import Lawd.WorkerSteps

/-!
# What a step of the server does

Outside the pool and the workers' own steps, a step sets a task up, sends one
down a pipe, drops one when `law_spawn` gives up, or moves only the control of
its thread. A task is outbound from its setup until it is sent.
-/
namespace Lawd

open Library

variable {P : Platform}

/-- The tasks that a thread has set up and not yet sent. -/
def State.outbound (s : State P) (th : Tid) : List TaskPtr :=
  (s.spawnPc th).hand ++
    match th with
    | .acceptor => s.acceptPc.hand
    | _ => []

/-- The tasks in the hands of a worker thread's own loops. -/
def State.workerHand (s : State P) : Tid → List TaskPtr
  | .worker i => (s.workers i).pc.hand
  | _ => []

/-- The tasks in the hands of a thread. -/
def State.hand (s : State P) (th : Tid) : List TaskPtr :=
  (s.pc th).hand ++ (s.outbound th ++ s.workerHand th)

/-- Only the control of threads moves, outside the critical section of the pool
and outside the loops of the workers. -/
structure Control (s t : State P) : Prop where
  heap : t.heap = s.heap
  list : t.list = s.list
  size : t.size = s.size
  lock : t.lock = s.lock
  capacity : t.capacity = s.capacity
  incoming : t.incoming = s.incoming
  lost : t.lost = s.lost
  seed : t.seed = s.seed
  spawned : t.spawned = s.spawned
  pc : ∀ th, t.pc th = s.pc th ∨ (t.pc th).critical = false ∧ (s.pc th).critical = false
  workers : ∀ i, t.workers i = s.workers i ∨
    ∃ pc, t.workers i = { s.workers i with pc := pc } ∧ (pc = .pushing ∨ pc = .dispatch) ∧
      ((∃ p, (s.workers i).pc = .removed p) ∨ (s.workers i).pc = .pushing)

/-- The step is a return of `law_spawn` other than `LAW_ERR_OK`. -/
def SpawnFails (cfg : Config) (s : State P) : Action → Prop
  | .spawnStep th _ =>
    match s.spawnPc th with
    | .idle => False
    | .popping _ _ => s.pc th = .done (.task none)
    | .trying _ x => cfg.workers ≤ x
  | _ => False

/-- The effects of the server's steps. -/
inductive ServerEffect (cfg : Config) (s : State P) (a : Action) : State P → Prop
  | pool (th : Tid) (t : PoolState Tid) :
      poolStep s.toPoolState th = some t → ServerEffect cfg s a { s with toPoolState := t }
  | control (t : State P) :
      Control s t → (∀ th, t.outbound th = s.outbound th) →
      (∀ th, (t.hand th).Perm (s.hand th)) →
      ServerEffect cfg s a t
  | setup (th : Tid) (p : TaskPtr) (callback : Callback) (data : Data) (version : Vers)
      (t : State P) :
      p ∈ s.hand th → Control (s.setup p callback data version) t →
      (∀ th', ∀ q ∈ t.outbound th', q = p ∨ q ∈ s.outbound th') →
      (∀ th, (t.hand th).Perm (s.hand th)) → ServerEffect cfg s a t
  | send (th : Tid) (i : ℕ) (p : TaskPtr) (t : State P) :
      p ∈ s.outbound th →
      Control { s with incoming := Function.update s.incoming i (s.incoming i ++ [p]) } t →
      (∀ th', t.outbound th' ⊆ s.outbound th') → (s.hand th).Perm (p :: t.hand th) →
      (∀ th', th' ≠ th → t.hand th' = s.hand th') → ServerEffect cfg s a t
  | drop (th : Tid) (p : TaskPtr) (t : State P) :
      SpawnFails cfg s a → Control { s with lost := p :: s.lost } t →
      (∀ th', t.outbound th' ⊆ s.outbound th') → (s.hand th).Perm (p :: t.hand th) →
      (∀ th', th' ≠ th → t.hand th' = s.hand th') → ServerEffect cfg s a t
  | worker (i : ℕ) (act : WorkerAct) (v : View P) :
      i < cfg.workers → a = .worker i act → workerStep cfg (s.view i) act = some v →
      ServerEffect cfg s a (s.setView i v)

/-- One thread moves on, outside the critical section of the pool. -/
structure ThreadMoves (s t : State P) (th : Tid) (pc : PoolPc) : Prop where
  pool : t.toPoolState = s.toPoolState.setPc th pc
  critical : pc = s.pc th ∨ pc.critical = false ∧ (s.pc th).critical = false
  incoming : t.incoming = s.incoming
  lost : t.lost = s.lost
  seed : t.seed = s.seed
  spawned : t.spawned = s.spawned
  workers : t.workers = s.workers
  spawn : ∀ th', th' ≠ th → t.spawnPc th' = s.spawnPc th'
  accept : th ≠ .acceptor → t.acceptPc = s.acceptPc

@[simp] theorem PoolState.setPc_self (s : PoolState Tid) (th : Tid) : s.setPc th (s.pc th) = s := by
  simp [PoolState.setPc]

theorem ThreadMoves.pc_apply {s t : State P} {th : Tid} {pc : PoolPc} (m : ThreadMoves s t th pc)
    (th' : Tid) : t.pc th' = if th' = th then pc else s.pc th' := by
  rw [m.pool, PoolState.setPc_apply]

theorem ThreadMoves.control {s t : State P} {th : Tid} {pc : PoolPc} (m : ThreadMoves s t th pc) :
    Control s t where
  heap := by rw [m.pool]; rfl
  list := by rw [m.pool]; rfl
  size := by rw [m.pool]; rfl
  lock := by rw [m.pool]; rfl
  capacity := by rw [m.pool]; rfl
  incoming := m.incoming
  lost := m.lost
  seed := m.seed
  spawned := m.spawned
  pc th' := by
    rw [m.pc_apply]
    split_ifs with h
    · subst h
      exact m.critical
    · exact .inl rfl
  workers i := .inl (congrFun m.workers i)

theorem ThreadMoves.others {s t : State P} {th : Tid} {pc : PoolPc} (m : ThreadMoves s t th pc)
    {th' : Tid} (h : th' ≠ th) : t.outbound th' = s.outbound th' ∧ t.hand th' = s.hand th' := by
  have hout : t.outbound th' = s.outbound th' := by
    unfold State.outbound
    rw [m.spawn th' h]
    cases th' with
    | acceptor => rw [m.accept h.symm]
    | worker i => rfl
    | ext n => rfl
  refine ⟨hout, ?_⟩
  unfold State.hand
  rw [m.pc_apply, if_neg h, hout]
  cases th' <;> simp only [State.workerHand, m.workers]

theorem ThreadMoves.workerHand {s t : State P} {th : Tid} {pc : PoolPc}
    (m : ThreadMoves s t th pc) (th' : Tid) : t.workerHand th' = s.workerHand th' := by
  cases th' <;> simp only [State.workerHand, m.workers]

theorem ThreadMoves.hand {s t : State P} {th : Tid} {pc : PoolPc} (m : ThreadMoves s t th pc) :
    t.hand th = pc.hand ++ (t.outbound th ++ s.workerHand th) := by
  rw [State.hand, m.workerHand, m.pc_apply, if_pos rfl]

theorem ThreadMoves.effect {cfg : Config} {s t : State P} {a : Action} {th : Tid} {pc : PoolPc}
    (m : ThreadMoves s t th pc) (hout : t.outbound th = s.outbound th)
    (hhand : pc.hand = (s.pc th).hand) : ServerEffect cfg s a t := by
  refine .control t m.control (fun th' => ?_) fun th' => ?_
  · by_cases h : th' = th
    · rw [h, hout]
    · exact (m.others h).1
  · by_cases h : th' = th
    · rw [h, m.hand, hhand, hout, State.hand]
    · rw [(m.others h).2]

@[simp] theorem State.setPc_same (s : State P) (th : Tid) (pc : PoolPc) :
    (s.setPc th pc).pc th = pc := PoolState.setPc_same ..

@[simp] theorem State.setSpawn_same (s : State P) (th : Tid) (pc : SpawnPc) :
    (s.setSpawn th pc).spawnPc th = pc := Function.update_self ..

theorem spawnCall_effect {cfg : Config} {s : State P} {a : Action} {th : Tid}
    {callback : Callback} {data : Data} (hspawn : s.spawnPc th = .idle) (hpc : s.pc th = .idle) :
    ServerEffect cfg s a ((s.setPc th (.call .pop)).setSpawn th (.popping callback data)) := by
  have m : ThreadMoves s ((s.setPc th (.call .pop)).setSpawn th (.popping callback data)) th
      (.call .pop) :=
    ⟨rfl, .inr ⟨rfl, by rw [hpc]; rfl⟩, rfl, rfl, rfl, rfl, rfl,
      fun _ h => Function.update_of_ne h .., fun _ => rfl⟩
  refine m.effect ?_ (by rw [hpc]; rfl)
  simp [State.outbound, State.setSpawn, hspawn, SpawnPc.hand, State.setPc]

theorem ThreadMoves.send {cfg : Config} {s t : State P} {a : Action} (th : Tid) (pc : PoolPc)
    {i : ℕ} {p : TaskPtr}
    (m : ThreadMoves { s with incoming := Function.update s.incoming i (s.incoming i ++ [p]) } t
      th pc)
    (hout : (s.outbound th).Perm (p :: t.outbound th)) (hhand : pc.hand = (s.pc th).hand) :
    ServerEffect cfg s a t := by
  have hothers : ∀ th', th' ≠ th →
      t.outbound th' = s.outbound th' ∧ t.hand th' = s.hand th' := fun th' h => m.others h
  refine .send th i p t (hout.symm.subset List.mem_cons_self) m.control (fun th' q hq => ?_) ?_
    fun th' h => (hothers th' h).2
  · by_cases h : th' = th
    · subst h
      exact hout.symm.subset (List.mem_cons_of_mem _ hq)
    · rwa [(hothers th' h).1] at hq
  · rw [m.hand, hhand, State.hand]
    exact ((hout.append_right _).append_left _).trans List.perm_middle

theorem ThreadMoves.drop {cfg : Config} {s t : State P} {a : Action} (th : Tid) (pc : PoolPc)
    {p : TaskPtr} (hfail : SpawnFails cfg s a)
    (m : ThreadMoves { s with lost := p :: s.lost } t th pc)
    (hout : (s.outbound th).Perm (p :: t.outbound th)) (hhand : pc.hand = (s.pc th).hand) :
    ServerEffect cfg s a t := by
  have hothers : ∀ th', th' ≠ th →
      t.outbound th' = s.outbound th' ∧ t.hand th' = s.hand th' := fun th' h => m.others h
  refine .drop th p t hfail m.control (fun th' q hq => ?_) ?_ fun th' h => (hothers th' h).2
  · by_cases h : th' = th
    · subst h
      exact hout.symm.subset (List.mem_cons_of_mem _ hq)
    · rwa [(hothers th' h).1] at hq
  · rw [m.hand, hhand, State.hand]
    exact ((hout.append_right _).append_left _).trans List.perm_middle

/-- A thread that has set up the task it popped. -/
theorem ThreadMoves.setup {cfg : Config} {s t : State P} {a : Action} {th : Tid} {p : TaskPtr}
    {callback : Callback} {data : Data} {version : Vers}
    (m : ThreadMoves (s.setup p callback data version) t th .idle)
    (hdone : s.pc th = .done (.task (some p)))
    (hout : (t.outbound th).Perm (p :: s.outbound th)) : ServerEffect cfg s a t := by
  have hothers : ∀ th', th' ≠ th →
      t.outbound th' = s.outbound th' ∧ t.hand th' = s.hand th' := fun th' h => m.others h
  refine .setup th p callback data version t ?_ m.control (fun th' q hq => ?_) fun th' => ?_
  · simp [State.hand, hdone, PoolPc.hand]
  · by_cases h : th' = th
    · subst h
      exact List.mem_cons.mp (hout.subset hq)
    · rw [(hothers th' h).1] at hq
      exact .inr hq
  · by_cases h : th' = th
    · subst h
      rw [m.hand, State.hand, hdone]
      exact hout.append_right _
    · rw [(hothers th' h).2]

/-- What a thread has outbound, when only its place in `law_spawn` moves. -/
theorem State.outbound_spawn (s : State P) (th : Tid) : ∃ rest, ∀ t : State P,
    t.acceptPc = s.acceptPc → t.outbound th = (t.spawnPc th).hand ++ rest := by
  cases th with
  | acceptor => exact ⟨s.acceptPc.hand, fun t h => by rw [State.outbound, h]⟩
  | worker i => exact ⟨[], fun t _ => rfl⟩
  | ext n => exact ⟨[], fun t _ => rfl⟩

theorem spawnTurn_effect {cfg : Config} {s t : State P} {th : Tid} {version : Vers}
    (h : SpawnTurn cfg s th version t) : ServerEffect cfg s (.spawnStep th version) t := by
  obtain ⟨rest, hrest⟩ := s.outbound_spawn th
  have hnew : ∀ (u : State P) (pc : SpawnPc), u.acceptPc = s.acceptPc →
      (u.setSpawn th pc).outbound th = pc.hand ++ rest := fun u pc hu => by
    rw [hrest (u.setSpawn th pc) hu, State.setSpawn_same]
  have hself : s.toPoolState = s.toPoolState.setPc th (s.pc th) :=
    (PoolState.setPc_self s.toPoolState th).symm
  have hold : s.outbound th = (s.spawnPc th).hand ++ rest := hrest s rfl
  cases h with
  | limit callback data hspawn hdone =>
    rw [hspawn] at hold
    have m : ThreadMoves s ((s.setPc th .idle).setSpawn th .idle) th .idle :=
      ⟨rfl, .inr ⟨rfl, by rw [hdone]; rfl⟩, rfl, rfl, rfl, rfl, rfl,
        fun _ h => Function.update_of_ne h .., fun _ => rfl⟩
    refine m.effect ?_ (by rw [hdone]; rfl)
    rw [hnew _ _ (by rfl), hold]
    rfl
  | setup callback data p hspawn hdone =>
    rw [hspawn] at hold
    have m : ThreadMoves (s.setup p callback data version)
        (((s.setup p callback data version).setPc th .idle).setSpawn th (.trying p 0)) th .idle :=
      ⟨rfl, .inr ⟨rfl, by change (s.pc th).critical = false; rw [hdone]; rfl⟩, rfl, rfl, rfl, rfl,
        rfl, fun _ h => Function.update_of_ne h .., fun _ => rfl⟩
    refine m.setup hdone ?_
    rw [hnew _ _ (by rfl), hold]
    exact .refl _
  | send p x hspawn =>
    rw [hspawn] at hold
    refine ThreadMoves.send th (s.pc th) (i := x) (p := p)
      ⟨hself, .inl rfl, rfl, rfl, rfl, rfl, rfl, fun _ h => Function.update_of_ne h ..,
        fun _ => rfl⟩ ?_ rfl
    rw [hnew _ _ (by rfl), hold]
    exact .refl _
  | full p x hspawn =>
    rw [hspawn] at hold
    have m : ThreadMoves s (s.setSpawn th (.trying p (x + 1))) th (s.pc th) :=
      ⟨hself, .inl rfl, rfl, rfl, rfl, rfl, rfl, fun _ h => Function.update_of_ne h ..,
        fun _ => rfl⟩
    refine m.effect ?_ rfl
    rw [hnew _ _ (by rfl), hold]
    rfl
  | wantw p x hspawn _ hx =>
    rw [hspawn] at hold
    refine ThreadMoves.drop th (s.pc th) (p := p) ?_
      ⟨hself, .inl rfl, rfl, rfl, rfl, rfl, rfl, fun _ h => Function.update_of_ne h ..,
        fun _ => rfl⟩ ?_ rfl
    · simpa only [SpawnFails, hspawn] using hx
    · rw [hnew _ _ (by rfl), hold]
      exact .refl _

theorem perm_snoc (l : List TaskPtr) (p : TaskPtr) : (l ++ [p]).Perm (p :: (l ++ [])) := by
  simp

/-- What the acceptor has outbound, when it is not in `law_spawn`. -/
theorem State.outbound_acceptor (s : State P) :
    s.outbound .acceptor = (s.spawnPc .acceptor).hand ++ s.acceptPc.hand := rfl

/-- The acceptor moves on. -/
theorem ThreadMoves.of_acceptor {s t : State P} {pc : PoolPc}
    (hpool : t.toPoolState = s.toPoolState.setPc .acceptor pc)
    (hcrit : pc = s.pc .acceptor ∨ pc.critical = false ∧ (s.pc .acceptor).critical = false)
    (hincoming : t.incoming = s.incoming) (hlost : t.lost = s.lost) (hseed : t.seed = s.seed)
    (hspawned : t.spawned = s.spawned) (hworkers : t.workers = s.workers)
    (hspawn : t.spawnPc = s.spawnPc) : ThreadMoves s t .acceptor pc :=
  ⟨hpool, hcrit, hincoming, hlost, hseed, hspawned, hworkers, fun _ _ => by rw [hspawn],
    fun h => absurd rfl h⟩

/-- The acceptor moves on with the tasks it has. -/
theorem acceptor_effect {cfg : Config} {s t : State P} {a : Action} {pc : PoolPc}
    (hpool : t.toPoolState = s.toPoolState.setPc .acceptor pc)
    (hcrit : pc = s.pc .acceptor ∨ pc.critical = false ∧ (s.pc .acceptor).critical = false)
    (hincoming : t.incoming = s.incoming) (hlost : t.lost = s.lost) (hseed : t.seed = s.seed)
    (hspawned : t.spawned = s.spawned) (hworkers : t.workers = s.workers)
    (hspawn : t.spawnPc = s.spawnPc) (haccept : t.acceptPc.hand = s.acceptPc.hand)
    (hhand : pc.hand = (s.pc .acceptor).hand) : ServerEffect cfg s a t := by
  refine (ThreadMoves.of_acceptor hpool hcrit hincoming hlost hseed hspawned hworkers
    hspawn).effect ?_ hhand
  rw [State.outbound_acceptor, State.outbound_acceptor, hspawn, haccept]

theorem acceptTurn_effect {cfg : Config} {s t : State P} {a : Action}
    (h : AcceptTurn cfg s a t) : ServerEffect cfg s a t := by
  have hself : s.toPoolState = s.toPoolState.setPc .acceptor (s.pc .acceptor) :=
    (PoolState.setPc_self s.toPoolState .acceptor).symm
  cases h with
  | accepted fd haccept hidle | aborted haccept hidle | fails result haccept hidle
  | goes version haccept hidle | stops version haccept hidle =>
    exact acceptor_effect rfl (.inr ⟨rfl, by rw [hidle]; rfl⟩) rfl rfl rfl rfl rfl rfl
      (by rw [haccept]; rfl) (by rw [hidle]; rfl)
  | nothing result haccept | tries version p x haccept | again version p x haccept
  | wakes version haccept | tells version n haccept | ends version n haccept =>
    exact acceptor_effect hself (.inl rfl) rfl rfl rfl rfl rfl rfl (by rw [haccept]; rfl) rfl
  | empty version haccept hdone | nonempty version haccept hdone | full version haccept hdone =>
    exact acceptor_effect rfl (.inr ⟨rfl, by rw [hdone]; rfl⟩) rfl rfl rfl rfl rfl rfl
      (by rw [haccept]; rfl) (by rw [hdone]; rfl)
  | waits version haccept hdone =>
    exact acceptor_effect rfl (.inr ⟨rfl, by rw [hdone]; rfl⟩) rfl rfl rfl rfl rfl rfl rfl
      (by rw [hdone]; rfl)
  | setup version fd p haccept hdone =>
    refine ThreadMoves.setup (p := p) (.of_acceptor rfl
      (.inr ⟨rfl, by change (s.pc .acceptor).critical = false; rw [hdone]; rfl⟩)
      rfl rfl rfl rfl rfl rfl) hdone ?_
    rw [State.outbound_acceptor, State.outbound_acceptor, haccept]
    exact perm_snoc _ p
  | send version p x i haccept hidle =>
    refine ThreadMoves.send _ _ (i := i) (p := p)
      (.of_acceptor rfl (.inr ⟨rfl, by change (s.pc .acceptor).critical = false; rw [hidle]; rfl⟩)
        rfl rfl rfl rfl rfl rfl) ?_ (by rw [hidle]; rfl)
    rw [State.outbound_acceptor, State.outbound_acceptor, haccept]
    exact perm_snoc _ p

theorem releaseTurn_effect {cfg : Config} {s t : State P} {a : Action} {i : ℕ}
    (h : ReleaseTurn cfg s i t) : ServerEffect cfg s a t := by
  have heffect : ∀ (pc : WorkerPc) (pc' : PoolPc),
      (pc = .pushing ∨ pc = .dispatch) →
      ((∃ p, (s.workers i).pc = .removed p) ∨ (s.workers i).pc = .pushing) →
      pc'.critical = false → (s.pc (.worker i)).critical = false →
      (pc'.hand ++ (s.outbound (.worker i) ++ pc.hand)).Perm (s.hand (.worker i)) →
      ServerEffect cfg s a (State.setPc { s with
        workers := Function.update s.workers i { s.workers i with pc := pc } }
        (.worker i) pc') := by
    intro pc pc' hpc hold hnew hcrit hhand
    have hne : ∀ th', th' ≠ .worker i → (State.setPc { s with
        workers := Function.update s.workers i { s.workers i with pc := pc } }
          (.worker i) pc').pc th' = s.pc th' := fun th' h => PoolState.setPc_ne _ _ h
    refine .control _ ⟨rfl, rfl, rfl, rfl, rfl, rfl, rfl, rfl, rfl, fun th' => ?_, fun j => ?_⟩
      (fun _ => rfl) fun th' => ?_
    · by_cases h : th' = .worker i
      · subst h
        rw [State.setPc_same]
        exact .inr ⟨hnew, hcrit⟩
      · exact .inl (hne th' h)
    · by_cases h : j = i
      · subst h
        exact .inr ⟨pc, Function.update_self .., hpc, hold⟩
      · exact .inl (Function.update_of_ne h ..)
    · by_cases h : th' = .worker i
      · subst h
        refine .trans (.of_eq ?_) hhand
        rw [State.hand, State.setPc_same]
        simp [State.workerHand, State.setPc, State.outbound]
      · rw [State.hand, hne th' h]
        cases th' with
        | acceptor => exact .refl _
        | ext n => exact .refl _
        | worker j =>
          have hj : j ≠ i := fun hj => h (by rw [hj])
          simp [State.hand, State.workerHand, State.outbound, State.setPc, hj]
  cases h with
  | push p _ hpc hidle =>
    refine heffect .pushing (.call (.push p)) (.inl rfl) (.inl ⟨p, hpc⟩) rfl (by rw [hidle]; rfl) ?_
    simp only [State.hand, State.workerHand, hpc, hidle]
    exact (perm_snoc _ p).symm
  | pushed _ hpc hdone =>
    refine heffect .dispatch .idle (.inr rfl) (.inr hpc) rfl (by rw [hdone]; rfl) ?_
    simp only [State.hand, State.workerHand, hpc, hdone]
    exact .refl _

theorem serverStep_effect {cfg : Config} {s t : State P} {a : Action}
    (h : serverStep cfg s a = some t) : ServerEffect cfg s a t := by
  cases serverStep_turn h with
  | pool th u hu => exact .pool th u hu
  | spawn th callback data _ hspawn hpc => exact spawnCall_effect hspawn hpc
  | spawnStep th version _ hturn => exact spawnTurn_effect hturn
  | accept result _ hturn => exact acceptTurn_effect hturn
  | acceptStep version _ hturn => exact acceptTurn_effect hturn
  | worker i act v hi _ _ hv => exact .worker i act v hi rfl hv
  | release i _ hturn => exact releaseTurn_effect hturn
  | wakeup | stop =>
    exact .control _ ⟨rfl, rfl, rfl, rfl, rfl, rfl, rfl, rfl, rfl, fun _ => .inl rfl,
      fun _ => .inl rfl⟩ (fun _ => rfl) fun _ => .refl _

end Lawd

import Lawd.Server
import Lawd.Turn

/-!
# The steps of the server, one by one

What each step of `law_spawn`, of the acceptor and of the push of a finished task
does, and where it is taken. All that is said of the threads is derived from
these lists.
-/
namespace Lawd

open Library

variable {P : Platform}

/-- The steps of `law_spawn` behind its entry. -/
inductive SpawnTurn (cfg : Config) (s : State P) (th : Tid) (version : Vers) : State P → Prop
  | limit (callback : Callback) (data : Data) :
      s.spawnPc th = .popping callback data → s.pc th = .done (.task none) →
      SpawnTurn cfg s th version ((s.setPc th .idle).setSpawn th .idle)
  | setup (callback : Callback) (data : Data) (p : TaskPtr) :
      s.spawnPc th = .popping callback data → s.pc th = .done (.task (some p)) →
      SpawnTurn cfg s th version
        (((s.setup p callback data version).setPc th .idle).setSpawn th (.trying p 0))
  | send (p : TaskPtr) (x : ℕ) :
      s.spawnPc th = .trying p x → s.pc th = .idle → x < cfg.workers →
      (s.incoming x).length < cfg.pipeCapacity →
      SpawnTurn cfg s th version (State.setSpawn
        { s with incoming := Function.update s.incoming x (s.incoming x ++ [p]) } th .idle)
  | full (p : TaskPtr) (x : ℕ) :
      s.spawnPc th = .trying p x → s.pc th = .idle → x < cfg.workers →
      cfg.pipeCapacity ≤ (s.incoming x).length →
      SpawnTurn cfg s th version (s.setSpawn th (.trying p (x + 1)))
  | wantw (p : TaskPtr) (x : ℕ) :
      s.spawnPc th = .trying p x → s.pc th = .idle → cfg.workers ≤ x →
      SpawnTurn cfg s th version (State.setSpawn { s with lost := p :: s.lost } th .idle)

/-- The steps of the acceptor outside its calls on the pool. -/
inductive AcceptTurn (cfg : Config) (s : State P) : Action → State P → Prop
  | accepted (fd : ℕ) : s.acceptPc = .accept → s.pc .acceptor = .idle →
      AcceptTurn cfg s (.accept (.fd fd))
        { s.setPc .acceptor (.call .pop) with acceptPc := .popping fd }
  | nothing (result : AcceptResult) : s.acceptPc = .accept → s.pc .acceptor = .idle →
      (result = .again ∨ result = .unreachable) →
      AcceptTurn cfg s (.accept result) { s with acceptPc := .waiting }
  | aborted : s.acceptPc = .accept → s.pc .acceptor = .idle →
      AcceptTurn cfg s (.accept .aborted)
        { s.setPc .acceptor (.call .isEmpty) with acceptPc := .checking }
  | fails (result : AcceptResult) : s.acceptPc = .accept → s.pc .acceptor = .idle →
      (result = .fatal ∨ result = .fcntlFails) →
      AcceptTurn cfg s (.accept result)
        { s.setPc .acceptor (.call .isFull) with acceptPc := .draining }
  | goes (version : Vers) : s.acceptPc = .spin → s.pc .acceptor = .idle → s.mode = .running →
      AcceptTurn cfg s (.acceptStep version)
        { s.setPc .acceptor (.call .isEmpty) with acceptPc := .checking }
  | stops (version : Vers) : s.acceptPc = .spin → s.pc .acceptor = .idle → s.mode ≠ .running →
      AcceptTurn cfg s (.acceptStep version)
        { s.setPc .acceptor (.call .isFull) with acceptPc := .draining }
  | empty (version : Vers) : s.acceptPc = .checking → s.pc .acceptor = .done (.flag true) →
      AcceptTurn cfg s (.acceptStep version) { s.setPc .acceptor .idle with acceptPc := .waiting }
  | nonempty (version : Vers) : s.acceptPc = .checking → s.pc .acceptor = .done (.flag false) →
      AcceptTurn cfg s (.acceptStep version) { s.setPc .acceptor .idle with acceptPc := .accept }
  | setup (version : Vers) (fd : ℕ) (p : TaskPtr) :
      s.acceptPc = .popping fd → s.pc .acceptor = .done (.task (some p)) →
      AcceptTurn cfg s (.acceptStep version)
        { (s.setup p .accept (BitVec.ofNat 64 fd) version).setPc .acceptor .idle with
          acceptPc := .pushing p 0 }
  | send (version : Vers) (p : TaskPtr) (x i : ℕ) :
      s.acceptPc = .pushing p x → s.pc .acceptor = .idle → x < cfg.workers →
      i = dispatchIndex cfg (s.heap p).id x → (s.incoming i).length < cfg.pipeCapacity →
      AcceptTurn cfg s (.acceptStep version)
        { State.setPc { s with
            incoming := Function.update s.incoming i (s.incoming i ++ [p]) }
            .acceptor (.call .isEmpty) with acceptPc := .checking }
  | tries (version : Vers) (p : TaskPtr) (x : ℕ) :
      s.acceptPc = .pushing p x → s.pc .acceptor = .idle → x < cfg.workers →
      cfg.pipeCapacity ≤ (s.incoming (dispatchIndex cfg (s.heap p).id x)).length →
      AcceptTurn cfg s (.acceptStep version) { s with acceptPc := .pushing p (x + 1) }
  | again (version : Vers) (p : TaskPtr) (x : ℕ) :
      s.acceptPc = .pushing p x → s.pc .acceptor = .idle → cfg.workers ≤ x →
      AcceptTurn cfg s (.acceptStep version) { s with acceptPc := .pushing p 0 }
  | wakes (version : Vers) : s.acceptPc = .waiting →
      AcceptTurn cfg s (.acceptStep version) { s with acceptPc := .spin }
  | full (version : Vers) : s.acceptPc = .draining → s.pc .acceptor = .done (.flag true) →
      AcceptTurn cfg s (.acceptStep version)
        { s.setPc .acceptor .idle with acceptPc := .shutdown 0 }
  | waits (version : Vers) : s.acceptPc = .draining → s.pc .acceptor = .done (.flag false) →
      AcceptTurn cfg s (.acceptStep version) (s.setPc .acceptor (.call .isFull))
  | tells (version : Vers) (n : ℕ) : s.acceptPc = .shutdown n → n < cfg.workers →
      AcceptTurn cfg s (.acceptStep version)
        { s with messages := Function.update s.messages n (s.messages n ++ [.shutdown]),
                 acceptPc := .shutdown (n + 1) }
  | ends (version : Vers) (n : ℕ) : s.acceptPc = .shutdown n → cfg.workers ≤ n →
      AcceptTurn cfg s (.acceptStep version) { s with acceptPc := .done }

/-- The steps of a worker thread around its push of a finished task. -/
inductive ReleaseTurn (cfg : Config) (s : State P) (i : ℕ) : State P → Prop
  | push (p : TaskPtr) : i < cfg.workers → (s.workers i).pc = .removed p →
      s.pc (.worker i) = .idle →
      ReleaseTurn cfg s i (State.setPc { s with
        workers := Function.update s.workers i { s.workers i with pc := .pushing } }
        (.worker i) (.call (.push p)))
  | pushed : i < cfg.workers → (s.workers i).pc = .pushing → s.pc (.worker i) = .done .unit →
      ReleaseTurn cfg s i (State.setPc { s with
        workers := Function.update s.workers i { s.workers i with pc := .dispatch } }
        (.worker i) .idle)

/-- The steps of the server. -/
inductive ServerTurn (cfg : Config) (s : State P) : Action → State P → Prop
  | pool (th : Tid) (u : PoolState Tid) : poolStep s.toPoolState th = some u →
      ServerTurn cfg s (.pool th) { s with toPoolState := u }
  | spawn (th : Tid) (callback : Callback) (data : Data) :
      s.MaySpawn cfg th → s.spawnPc th = .idle → s.pc th = .idle →
      ServerTurn cfg s (.spawn th callback data)
        ((s.setPc th (.call .pop)).setSpawn th (.popping callback data))
  | spawnStep (th : Tid) (version : Vers) (t : State P) : SpawnTurn cfg s th version t →
      ServerTurn cfg s (.spawnStep th version) t
  | accept (result : AcceptResult) (t : State P) : AcceptTurn cfg s (.accept result) t →
      ServerTurn cfg s (.accept result) t
  | acceptStep (version : Vers) (t : State P) : AcceptTurn cfg s (.acceptStep version) t →
      ServerTurn cfg s (.acceptStep version) t
  | worker (i : ℕ) (act : WorkerAct) (v : View P) :
      i < cfg.workers → s.spawnPc (.worker i) = .idle → s.pc (.worker i) = .idle →
      workerStep cfg (s.view i) act = some v →
      ServerTurn cfg s (.worker i act) (s.setView i v)
  | release (i : ℕ) (t : State P) : ReleaseTurn cfg s i t → ServerTurn cfg s (.release i) t
  | wakeup (i : ℕ) (id : Id) : ServerTurn cfg s (.wakeup i id)
      { s with messages := Function.update s.messages i (s.messages i ++ [.wakeup id]) }
  | stop : s.mode = .running → ServerTurn cfg s .stop { s with mode := .stopping }

section Turn

variable {cfg : Config} {s t : State P}

theorem pushIncoming_some {i : ℕ} {p : TaskPtr} (h : s.pushIncoming cfg i p = some t) :
    (s.incoming i).length < cfg.pipeCapacity ∧
      t = { s with incoming := Function.update s.incoming i (s.incoming i ++ [p]) } := by
  simp only [State.pushIncoming] at h
  split_ifs at h with hroom
  exact ⟨hroom, (Option.some.inj h).symm⟩

theorem pushIncoming_none {i : ℕ} {p : TaskPtr} (h : s.pushIncoming cfg i p = none) :
    cfg.pipeCapacity ≤ (s.incoming i).length := by
  simp only [State.pushIncoming] at h
  split_ifs at h with hroom
  exact not_lt.mp hroom

theorem spawnCall_some {th : Tid} {callback : Callback} {data : Data}
    (h : spawnCall cfg s th callback data = some t) :
    s.MaySpawn cfg th ∧ s.spawnPc th = .idle ∧ s.pc th = .idle ∧
      t = (s.setPc th (.call .pop)).setSpawn th (.popping callback data) := by
  simp only [spawnCall] at h
  split_ifs at h with hg
  exact ⟨hg.1, hg.2.1, hg.2.2, (Option.some.inj h).symm⟩

theorem spawnStep_turn {th : Tid} {version : Vers} (h : spawnStep cfg s th version = some t) :
    SpawnTurn cfg s th version t := by
  unfold spawnStep at h
  split at h
  case h_1 => cases h
  case h_2 callback data hspawn =>
    split at h
    · rename_i hdone
      exact Option.some.inj h ▸ .limit callback data hspawn hdone
    · rename_i p hdone
      exact Option.some.inj h ▸ .setup callback data p hspawn hdone
    · cases h
  case h_3 p x hspawn =>
    split_ifs at h with hidle hx
    · split at h
      · rename_i u hpush
        obtain ⟨hroom, rfl⟩ := pushIncoming_some hpush
        exact Option.some.inj h ▸ .send p x hspawn (not_not.mp hidle) hx hroom
      · rename_i hpush
        exact Option.some.inj h ▸ .full p x hspawn (not_not.mp hidle) hx (pushIncoming_none hpush)
    · exact Option.some.inj h ▸ .wantw p x hspawn (not_not.mp hidle) (not_lt.mp hx)

/-- The thread is in `law_spawn`. -/
theorem SpawnTurn.spawning {th : Tid} {version : Vers} (h : SpawnTurn cfg s th version t) :
    s.spawnPc th ≠ .idle := by
  cases h with
  | limit callback data h | setup callback data p h | send p x h | full p x h | wantw p x h =>
    rw [h]
    rintro ⟨⟩

theorem acceptStepResult_turn {result : AcceptResult}
    (h : acceptStepResult cfg s result = some t) : AcceptTurn cfg s (.accept result) t := by
  unfold acceptStepResult at h
  split_ifs at h with hg
  obtain ⟨haccept, hidle⟩ := hg
  cases result with
  | fd fd => exact Option.some.inj h ▸ .accepted fd haccept hidle
  | again => exact Option.some.inj h ▸ .nothing _ haccept hidle (.inl rfl)
  | unreachable => exact callOnError_some h ▸ .nothing _ haccept hidle (.inr rfl)
  | aborted => exact callOnError_some h ▸ .aborted haccept hidle
  | fatal => exact callOnError_some h ▸ .fails _ haccept hidle (.inl rfl)
  | fcntlFails => exact Option.some.inj h ▸ .fails _ haccept hidle (.inr rfl)

theorem acceptStep_turn {version : Vers} (h : acceptStep cfg s version = some t) :
    AcceptTurn cfg s (.acceptStep version) t := by
  unfold acceptStep at h
  split at h
  case h_1 haccept =>
    split_ifs at h with hidle hmode
    · exact Option.some.inj h ▸ .goes version haccept (not_not.mp hidle) hmode
    · exact Option.some.inj h ▸ .stops version haccept (not_not.mp hidle) hmode
  case h_2 haccept =>
    split at h
    · rename_i hdone
      exact Option.some.inj h ▸ .empty version haccept hdone
    · rename_i hdone
      exact Option.some.inj h ▸ .nonempty version haccept hdone
    · cases h
  case h_3 => cases h
  case h_4 fd haccept =>
    split at h
    · rename_i p hdone
      exact Option.some.inj h ▸ .setup version fd p haccept hdone
    · cases h
  case h_5 p x haccept =>
    split_ifs at h with hidle hx
    · split at h
      · rename_i u hpush
        obtain ⟨hroom, rfl⟩ := pushIncoming_some hpush
        exact Option.some.inj h ▸ .send version p x _ haccept (not_not.mp hidle) hx rfl hroom
      · rename_i hpush
        exact Option.some.inj h ▸
          .tries version p x haccept (not_not.mp hidle) hx (pushIncoming_none hpush)
    · exact Option.some.inj h ▸ .again version p x haccept (not_not.mp hidle) (not_lt.mp hx)
  case h_6 haccept => exact Option.some.inj h ▸ .wakes version haccept
  case h_7 haccept =>
    split at h
    · rename_i hdone
      exact Option.some.inj h ▸ .full version haccept hdone
    · rename_i hdone
      exact Option.some.inj h ▸ .waits version haccept hdone
    · cases h
  case h_8 n haccept =>
    split_ifs at h with hn
    · exact Option.some.inj h ▸ .tells version n haccept hn
    · exact Option.some.inj h ▸ .ends version n haccept (not_lt.mp hn)
  case h_9 => cases h

theorem releaseStep_turn {i : ℕ} (h : releaseStep cfg s i = some t) : ReleaseTurn cfg s i t := by
  simp only [releaseStep] at h
  split_ifs at h with hi
  split at h
  · rename_i p hpc hidle
    exact Option.some.inj h ▸ .push p (not_le.mp hi) hpc hidle
  · rename_i hpc hdone
    exact Option.some.inj h ▸ .pushed (not_le.mp hi) hpc hdone
  · cases h

theorem serverStep_worker {i : ℕ} {act : WorkerAct}
    (h : serverStep cfg s (.worker i act) = some t) :
    i < cfg.workers ∧ s.spawnPc (.worker i) = .idle ∧ s.pc (.worker i) = .idle ∧
      ∃ v, workerStep cfg (s.view i) act = some v ∧ t = s.setView i v := by
  simp only [serverStep] at h
  split_ifs at h with hg
  obtain ⟨v, hv, rfl⟩ := Option.map_eq_some_iff.mp h
  exact ⟨hg.1, hg.2.1, hg.2.2, v, hv, rfl⟩

theorem serverStep_turn {a : Action} (h : serverStep cfg s a = some t) : ServerTurn cfg s a t := by
  cases a with
  | pool th =>
    obtain ⟨u, hu, rfl⟩ := Option.map_eq_some_iff.mp h
    exact .pool th u hu
  | spawn th callback data =>
    obtain ⟨hmay, hspawn, hpc, rfl⟩ := spawnCall_some h
    exact .spawn th callback data hmay hspawn hpc
  | spawnStep th version => exact .spawnStep th version t (spawnStep_turn h)
  | accept result => exact .accept result t (acceptStepResult_turn h)
  | acceptStep version => exact .acceptStep version t (acceptStep_turn h)
  | worker i act =>
    obtain ⟨hi, hspawn, hpc, v, hv, rfl⟩ := serverStep_worker h
    exact .worker i act v hi hspawn hpc hv
  | release i => exact .release i t (releaseStep_turn h)
  | wakeup i id => exact Option.some.inj h ▸ .wakeup i id
  | stop =>
    simp only [serverStep] at h
    split_ifs at h with hmode
    exact Option.some.inj h ▸ .stop hmode

end Turn

end Lawd

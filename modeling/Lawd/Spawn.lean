import Lawd.Shutdown

/-!
# A spawn that fails

`law_spawn` takes a task from the pool before it looks for room in a pipe. When
it finds none it returns without the task, which is in no place from then on; a
pool without that task is never full again. When the pool is empty it returns
with the lock of the pool.
-/
namespace Lawd

open Library

variable {P : Platform}

/-- A step of a thread inside `law_spawn`. -/
def SpawnLabel (th : Tid) : Action → Prop
  | .pool th' => th' = th
  | .spawnStep th' _ => th' = th
  | _ => False

/-- A call of `law_spawn` in the state `s`, during which no other thread moves. -/
def spawnSystem (cfg : Config) (s : State P) (th : Tid) : System (State P) Action where
  initial t := ∃ callback data, spawnCall cfg s th callback data = some t
  step := serverStep cfg

/-- The states of such a call. -/
def Spawns (cfg : Config) (s : State P) (th : Tid) (u : State P) : Prop :=
  (spawnSystem cfg s th).Reach (fun _ a => SpawnLabel th a) u

/-- The call returns `LAW_ERR_LIMIT` or `LAW_ERR_WANTW`, in the state `t`. -/
def SpawnFailsTo (cfg : Config) (s : State P) (th : Tid) (t : State P) : Prop :=
  ∃ u a, Spawns cfg s th u ∧ SpawnLabel th a ∧ SpawnFails cfg u a ∧ serverStep cfg u a = some t

/-- The pool holds the tasks it held, and no pipe has gained one. -/
structure SpawnKept (s t : State P) : Prop where
  pool : ∀ l, s.heap.Chain s.list l → ∃ l', t.heap.Chain t.list l' ∧ l'.Perm l
  size : t.size = s.size
  incoming : t.incoming = s.incoming

/-- The failed call is as if it had not been made: the pool keeps its tasks and
can be used. -/
structure SpawnAtomic (s t : State P) : Prop extends SpawnKept s t where
  lock : t.lock = none

/-- Some worker's pipe has room. -/
def State.HasRoom (cfg : Config) (s : State P) : Prop :=
  ∃ x < cfg.workers, (s.incoming x).length < cfg.pipeCapacity

/-- The thread holds the task `p` and is about to try worker `x`; the pool
lists `l`, without the task. -/
structure Tries (s u : State P) (th : Tid) (p : TaskPtr) (x : ℕ) (l : List TaskPtr) : Prop where
  spawn : u.spawnPc th = .trying p x
  pc : u.pc th = .idle
  lock : u.lock = none
  chain : u.heap.Chain u.list l
  incoming : u.incoming = s.incoming

section Call

variable {cfg : Config} {s : State P} {th : Tid}

theorem Spawns.step {u t : State P} {a : Action} (h : Spawns cfg s th u) (ha : SpawnLabel th a)
    (hst : serverStep cfg u a = some t) : Spawns cfg s th t := System.Reach.step h ha hst

theorem Spawns.pool {u : State P} (h : Spawns cfg s th u) {t : PoolState Tid}
    (hst : poolStep u.toPoolState th = some t) : Spawns cfg s th { u with toPoolState := t } :=
  h.step (a := .pool th) rfl (by rw [serverStep, hst]; rfl)

theorem Bystander.trans {s t u : State P} {th : Tid} (h : Bystander s t th)
    (h' : Bystander t u th) : Bystander s u th where
  pc := h'.pc.trans h.pc
  spawn := h'.spawn.trans h.spawn
  accept hth := (h'.accept hth).trans (h.accept hth)
  worker i hth := (h'.worker i hth).trans (h.worker i hth)

theorem SpawnLabel.mover {a : Action} (ha : SpawnLabel th a) {th' : Tid} (hth : th' ≠ th) :
    a.mover ≠ some th' := by
  cases a <;> simp only [SpawnLabel] at ha
  · subst ha
    simpa [Action.mover] using hth.symm
  · subst ha
    simpa [Action.mover] using hth.symm

theorem Spawns.others {u : State P} (h : Spawns cfg s th u) (th' : Tid) (hth : th' ≠ th) :
    Bystander s u th' := by
  induction h with
  | init hs =>
    obtain ⟨callback, data, hcall⟩ := hs
    refine serverStep_bystander (a := .spawn th callback data) hcall ?_
    simpa [Action.mover] using hth.symm
  | step _ ha hst ih => exact ih.trans (serverStep_bystander hst (ha.mover hth))

/-- The call starts, and takes the lock if it is free. -/
theorem spawns_locked (hmay : s.MaySpawn cfg th) (hspawn : s.spawnPc th = .idle)
    (hpc : s.pc th = .idle) (hlock : s.lock = none) (callback : Callback) (data : Data) :
    ∃ u, Spawns cfg s th u ∧ u.spawnPc th = .popping callback data ∧ u.pc th = .locked .pop ∧
      u.lock = some th ∧ u.heap = s.heap ∧ u.list = s.list ∧ u.incoming = s.incoming := by
  have hcall : Spawns cfg s th ((s.setPc th (.call .pop)).setSpawn th (.popping callback data)) :=
    .init ⟨callback, data, by rw [spawnCall, if_pos ⟨hmay, hspawn, hpc⟩]⟩
  have hst : poolStep (s.toPoolState.setPc th (.call .pop)) th = some
      ({ s.toPoolState.setPc th (.call .pop) with lock := some th }.setPc th (.locked .pop)) := by
    simp only [poolStep, PoolState.setPc_same]
    rw [show (s.toPoolState.setPc th (.call .pop)).lock = none from hlock]
  exact ⟨_, hcall.pool hst, State.setSpawn_same .., PoolState.setPc_same .., rfl, rfl, rfl, rfl⟩

theorem spawns_empty (hmay : s.MaySpawn cfg th) (hspawn : s.spawnPc th = .idle)
    (hpc : s.pc th = .idle) (hlock : s.lock = none) (hlist : s.list = none) :
    ∃ t, SpawnFailsTo cfg s th t ∧ t.lock = some th := by
  obtain ⟨u, hu, hpop, hlocked, hown, -, hlist', -⟩ :=
    spawns_locked hmay hspawn hpc hlock (.user 0) 0
  have hst : poolStep u.toPoolState th = some (u.toPoolState.setPc th (.done (.task none))) := by
    simp only [poolStep, hlocked]
    rw [hlist', hlist]
  have hdone := hu.pool hst
  have hret : serverStep cfg { u with toPoolState := u.toPoolState.setPc th (.done (.task none)) }
      (.spawnStep th 0) = some (State.setSpawn (State.setPc
        { u with toPoolState := u.toPoolState.setPc th (.done (.task none)) }
          th .idle) th .idle) := by
    simp only [serverStep, spawnStep, hpop, PoolState.setPc_same]
  refine ⟨_, ⟨_, .spawnStep th 0, hdone, rfl, ?_, hret⟩, hown⟩
  simp only [SpawnFails, hpop, PoolState.setPc_same]

/-- A pop that holds the lock of a pool with a task takes the first one, and
releases the lock. -/
theorem pop_runs {T : Type} [DecidableEq T] {s : PoolState T} {th : T}
    (hpc : s.pc th = .locked .pop)
    {p : TaskPtr} {l : List TaskPtr} (hchain : s.heap.Chain s.list (p :: l)) (hp : p ∉ l) :
    ∃ s₁ s₂ s₃, poolStep s th = some s₁ ∧ poolStep s₁ th = some s₂ ∧ poolStep s₂ th = some s₃ ∧
      s₃.pc th = .done (.task (some p)) ∧ s₃.lock = none ∧ s₃.heap.Chain s₃.list l := by
  have hsome : s.list = some p := hchain.1
  have hstep : ∀ (u : PoolState T) (pc : PoolPc), (u.setPc th pc).pc th = pc := fun u pc =>
    u.setPc_same th pc
  have hunlink : poolStep s th = some (s.unlink.setPc th (.unlinked p)) := by
    simp only [poolStep, hpc, hsome]
  have hcount : ∀ u : PoolState T, u.pc th = .unlinked p → poolStep u th =
      some ({ u with size := u.size - 1 }.setPc th (.unlock (.task (some p)))) := fun u hu => by
    simp only [poolStep, hu]
  have hunlock : ∀ u : PoolState T, u.pc th = .unlock (.task (some p)) → poolStep u th =
      some ({ u with lock := none }.setPc th (.done (.task (some p)))) := fun u hu => by
    simp only [poolStep, hu]
  refine ⟨_, _, _, hunlink, hcount _ (hstep _ _), hunlock _ (hstep _ _), hstep _ _, rfl, ?_⟩
  change s.unlink.heap.Chain s.unlink.list l
  rw [PoolState.unlink, hsome]
  rw [hsome] at hchain
  exact NodeIface.Chain.removeFirst hchain hp

/-- With a task in the pool the call takes it and goes on to the first worker. -/
theorem spawns_tries (hmay : s.MaySpawn cfg th) (hspawn : s.spawnPc th = .idle)
    (hpc : s.pc th = .idle) (hlock : s.lock = none) {p : TaskPtr} {l : List TaskPtr}
    (hchain : s.heap.Chain s.list (p :: l)) (hp : p ∉ l) :
    ∃ u, Spawns cfg s th u ∧ Tries s u th p 0 l := by
  obtain ⟨u, hu, hpop, hlocked, -, hheap, hlist, hincoming⟩ :=
    spawns_locked hmay hspawn hpc hlock (.user 0) 0
  obtain ⟨w₁, w₂, w₃, h₁, h₂, h₃, hdone, hfree, hchain'⟩ :=
    pop_runs hlocked (p := p) (l := l) (by rwa [hheap, hlist]) hp
  have hu₃ := ((hu.pool h₁).pool h₂).pool h₃
  have hst : serverStep cfg { u with toPoolState := w₃ } (.spawnStep th 0) =
      some (((State.setup { u with toPoolState := w₃ } p (.user 0) 0 0).setPc th .idle).setSpawn th
        (.trying p 0)) := by
    simp only [serverStep, spawnStep, hpop, hdone]
  refine ⟨_, hu₃.step (a := .spawnStep th 0) rfl hst, State.setSpawn_same .., State.setPc_same ..,
    hfree, ?_, hincoming⟩
  refine Heap.Chain.frame hchain' fun q hq => ?_
  have hqp : q ≠ p := by
    rintro rfl
    exact hp hq
  exact congrArg Task.next (State.setup_heap_ne _ hqp _ _ _)

/-- A full pipe sends the call on to the next worker. -/
theorem Tries.next {u : State P} {p : TaskPtr} {x : ℕ} {l : List TaskPtr}
    (h : Tries s u th p x l) (hu : Spawns cfg s th u) (hx : x < cfg.workers)
    (hfull : cfg.pipeCapacity ≤ (s.incoming x).length) :
    ∃ v, Spawns cfg s th v ∧ Tries s v th p (x + 1) l := by
  have hst : serverStep cfg u (.spawnStep th 0) = some (u.setSpawn th (.trying p (x + 1))) := by
    simp only [serverStep, spawnStep, h.spawn, h.pc, State.pushIncoming, h.incoming]
    rw [if_neg (by simp), if_pos hx, if_neg (by omega)]
  exact ⟨_, hu.step (a := .spawnStep th 0) rfl hst, State.setSpawn_same .., h.pc, h.lock, h.chain,
    h.incoming⟩

theorem Tries.all {u : State P} {p : TaskPtr} {l : List TaskPtr} (h : Tries s u th p 0 l)
    (hu : Spawns cfg s th u) (hroom : ¬ s.HasRoom cfg) {x : ℕ} (hx : x ≤ cfg.workers) :
    ∃ v, Spawns cfg s th v ∧ Tries s v th p x l := by
  induction x with
  | zero => exact ⟨u, hu, h⟩
  | succ x ih =>
    obtain ⟨v, hv, ht⟩ := ih (by omega)
    refine ht.next hv (by omega) ?_
    by_contra hlt
    exact hroom ⟨x, by omega, by omega⟩

/-- With all pipes full the call fails, and the pool has lost its first task. -/
theorem spawns_full (hmay : s.MaySpawn cfg th) (hspawn : s.spawnPc th = .idle)
    (hpc : s.pc th = .idle) (hlock : s.lock = none) (hroom : ¬ s.HasRoom cfg) {p : TaskPtr}
    {l : List TaskPtr} (hchain : s.heap.Chain s.list (p :: l)) (hp : p ∉ l) :
    ∃ t, SpawnFailsTo cfg s th t ∧ t.heap.Chain t.list l ∧ t.lost ≠ [] := by
  obtain ⟨u, hu, htry⟩ := spawns_tries hmay hspawn hpc hlock hchain hp
  obtain ⟨v, hv, h⟩ := htry.all hu hroom le_rfl
  have hst : serverStep cfg v (.spawnStep th 0) =
      some (State.setSpawn { v with lost := p :: v.lost } th .idle) := by
    simp only [serverStep, spawnStep, h.spawn, h.pc]
    rw [if_neg (by simp), if_neg (by simp)]
  refine ⟨_, ⟨v, .spawnStep th 0, hv, rfl, ?_, hst⟩, h.chain, List.cons_ne_nil _ _⟩
  simp only [SpawnFails, h.spawn]
  exact le_rfl

/-- The pool has not changed since the call. -/
structure SamePool (s u : State P) : Prop where
  heap : u.heap = s.heap
  list : u.list = s.list
  size : u.size = s.size

/-- What the pop of the call has seen of the pool. -/
def PopKept (s u : State P) : PoolPc → Prop
  | .call .pop => SamePool s u
  | .locked .pop => SamePool s u
  | .done (.task none) => s.list = none ∧ SamePool s u
  | .unlinked _ => s.list ≠ none
  | .unlock (.task (some _)) => s.list ≠ none
  | .done (.task (some _)) => s.list ≠ none
  | _ => False

/-- The stages of a call. -/
inductive Spawning (cfg : Config) (s u : State P) (th : Tid) : Prop
  | pops (callback : Callback) (data : Data) :
      u.spawnPc th = .popping callback data → u.incoming = s.incoming →
      PopKept s u (u.pc th) → Spawning cfg s u th
  | tries (p : TaskPtr) (x : ℕ) :
      u.spawnPc th = .trying p x → u.pc th = .idle → u.incoming = s.incoming → s.list ≠ none →
      (∀ y < x, cfg.pipeCapacity ≤ (s.incoming y).length) → Spawning cfg s u th
  | returned : u.spawnPc th = .idle → u.pc th = .idle → Spawning cfg s u th

theorem Spawning.pool {u : State P} (h : Spawning cfg s u th) {t : PoolState Tid}
    (hst : poolStep u.toPoolState th = some t) :
    Spawning cfg s { u with toPoolState := t } th := by
  cases h with
  | pops callback data hpop hincoming hkept =>
    refine .pops callback data hpop hincoming ?_
    cases poolStep_turn hst with
    | enter op hpc hlock =>
      rw [hpc] at hkept
      cases op <;> try exact hkept.elim
      rw [PoolState.setPc_same]
      exact ⟨hkept.heap, hkept.list, hkept.size⟩
    | popNone hpc hnone =>
      rw [hpc] at hkept
      rw [PoolState.setPc_same]
      exact ⟨hkept.list ▸ hnone, hkept.heap, hkept.list, hkept.size⟩
    | unlink p hpc hsome =>
      rw [hpc] at hkept
      rw [PoolState.setPc_same]
      change s.list ≠ none
      rw [← hkept.list, hsome]
      simp
    | uncount p hpc =>
      rw [hpc] at hkept
      rw [PoolState.setPc_same]
      exact hkept
    | leave ret hpc =>
      rw [hpc] at hkept
      rw [PoolState.setPc_same]
      match ret, hkept with
      | .task (some _), hlist => exact hlist
    | link _ hpc | count hpc | size hpc | isEmpty hpc | isFull hpc =>
      rw [hpc] at hkept
      exact hkept.elim
  | tries p x htry hpc =>
    simp only [poolStep, hpc] at hst
    cases hst
  | returned hspawn hpc =>
    simp only [poolStep, hpc] at hst
    cases hst

theorem Spawning.turn {u t : State P} (h : Spawning cfg s u th) {version : Vers}
    (hst : SpawnTurn cfg u th version t) : Spawning cfg s t th := by
  cases hst with
  | limit callback data hspawn hdone =>
    exact .returned (State.setSpawn_same ..) (State.setPc_same ..)
  | setup callback data p hspawn hdone =>
    cases h with
    | pops _ _ hpop hincoming hkept =>
      rw [hdone] at hkept
      exact .tries p 0 (State.setSpawn_same ..) (State.setPc_same ..) hincoming hkept
        fun y hy => absurd hy (by omega)
    | tries q y h => cases hspawn.symm.trans h
    | returned h => cases hspawn.symm.trans h
  | full p x hspawn hpc hx hroom =>
    cases h with
    | pops _ _ h => cases hspawn.symm.trans h
    | tries q y htry _ hincoming hlist hfull =>
      cases hspawn.symm.trans htry
      refine .tries p (x + 1) (State.setSpawn_same ..) hpc hincoming hlist fun y hy => ?_
      rcases Nat.lt_succ_iff_lt_or_eq.mp hy with hy | rfl
      · exact hfull y hy
      · rwa [← hincoming]
    | returned h => cases hspawn.symm.trans h
  | send p x hspawn hpc | wantw p x hspawn hpc => exact .returned (State.setSpawn_same ..) hpc

theorem Spawns.spawning {u : State P} (h : Spawns cfg s th u) : Spawning cfg s u th := by
  induction h with
  | init hs =>
    obtain ⟨callback, data, hcall⟩ := hs
    obtain ⟨-, -, -, rfl⟩ := spawnCall_some hcall
    refine .pops callback data (State.setSpawn_same ..) rfl ?_
    rw [show ((s.setPc th (.call .pop)).setSpawn th (.popping callback data)).pc th = .call .pop
      from State.setPc_same ..]
    exact ⟨rfl, rfl, rfl⟩
  | @step u a t _ ha hst ih =>
    cases a <;> simp only [SpawnLabel] at ha
    · subst ha
      obtain ⟨v, hv, rfl⟩ := Option.map_eq_some_iff.mp hst
      exact ih.pool hv
    · subst ha
      exact ih.turn (spawnStep_turn hst)

/-- A call fails only when the pool is empty, and then leaves it alone, or when
all pipes are full. -/
theorem SpawnFailsTo.cases {t : State P} (h : SpawnFailsTo cfg s th t) :
    s.list = none ∧ SpawnKept s t ∨ s.list ≠ none ∧ ¬ s.HasRoom cfg := by
  obtain ⟨u, a, hu, ha, hfail, hst⟩ := h
  cases a <;> simp only [SpawnFails] at hfail
  subst ha
  rename_i th' version
  cases hu.spawning with
  | pops callback data hpop hincoming hkept =>
    rw [hpop] at hfail
    simp only at hfail
    rw [hfail] at hkept
    simp only [serverStep, Lawd.spawnStep, hpop, hfail] at hst
    obtain rfl := Option.some.inj hst
    obtain ⟨hlist, hsame⟩ := hkept
    refine .inl ⟨hlist, fun l hl => ⟨l, ?_, .refl l⟩, hsame.size, hincoming⟩
    change u.heap.Chain u.list l
    rw [hsame.heap, hsame.list]
    exact hl
  | tries p x htry hpc hincoming hlist hfull =>
    rw [htry] at hfail
    refine .inr ⟨hlist, ?_⟩
    rintro ⟨y, hy, hroom⟩
    exact absurd (hfull y (lt_of_lt_of_le hy hfail)) (by omega)
  | returned hspawn hpc =>
    rw [hspawn] at hfail
    exact hfail.elim

end Call

theorem SpawnKept.not_of_tail {s t : State P} {p : TaskPtr} {l : List TaskPtr}
    (hs : s.heap.Chain s.list (p :: l)) (ht : t.heap.Chain t.list l) : ¬ SpawnKept s t := by
  intro h
  obtain ⟨l', hl', hperm⟩ := h.pool _ hs
  rw [hl'.unique ht] at hperm
  simpa using hperm.length_eq

/-- A call of `law_spawn` that runs alone and fails keeps the pool's tasks and
its size and sends nothing just when the pool is empty or some pipe has room;
and it leaves a usable pool as well just when the pool is not empty and some
pipe has room, which is when it does not fail. -/
theorem spawn_atomic_iff (P : Platform) (cfg : Config) {s : State P} {th : Tid}
    {l : List TaskPtr} (hchain : s.heap.Chain s.list l) (hnd : l.Nodup)
    (hmay : s.MaySpawn cfg th) (hspawn : s.spawnPc th = .idle) (hpc : s.pc th = .idle)
    (hlock : s.lock = none) :
    ((∀ t, SpawnFailsTo cfg s th t → SpawnKept s t) ↔ s.list = none ∨ s.HasRoom cfg) ∧
    ((∀ t, SpawnFailsTo cfg s th t → SpawnAtomic s t) ↔ s.list ≠ none ∧ s.HasRoom cfg) := by
  have hfull : s.list ≠ none → ¬ s.HasRoom cfg →
      ∃ t, SpawnFailsTo cfg s th t ∧ ¬ SpawnKept s t := by
    intro hlist hroom
    cases l with
    | nil => exact absurd hchain hlist
    | cons p l =>
      obtain ⟨t, ht, hl, -⟩ := spawns_full hmay hspawn hpc hlock hroom hchain
        (List.nodup_cons.mp hnd).1
      exact ⟨t, ht, SpawnKept.not_of_tail hchain hl⟩
  refine ⟨⟨fun h => ?_, fun h t ht => ?_⟩, ⟨fun h => ?_, fun h t ht => ?_⟩⟩
  · by_contra hnot
    obtain ⟨hlist, hroom⟩ := not_or.mp hnot
    obtain ⟨t, ht, hkept⟩ := hfull hlist hroom
    exact hkept (h t ht)
  · rcases ht.cases with ⟨-, hkept⟩ | ⟨hlist, hroom⟩
    · exact hkept
    · exact absurd h (not_or.mpr ⟨hlist, hroom⟩)
  · have hlist : s.list ≠ none := by
      intro hlist
      obtain ⟨t, ht, hheld⟩ := spawns_empty hmay hspawn hpc hlock hlist
      rw [(h t ht).lock] at hheld
      cases hheld
    refine ⟨hlist, ?_⟩
    by_contra hroom
    obtain ⟨t, ht, hkept⟩ := hfull hlist hroom
    exact hkept (h t ht).toSpawnKept
  · rcases ht.cases with ⟨hlist, -⟩ | ⟨-, hroom⟩
    · exact absurd hlist h.1
    · exact absurd h.2 hroom

theorem serverStep_loses {cfg : Config} {s t : State P} {a : Action}
    (hst : serverStep cfg s a = some t) (h : s.lost ≠ []) : t.lost ≠ [] := by
  cases serverStep_effect hst with
  | pool th u hu => exact h
  | control _ hc => rwa [hc.lost]
  | setup th p callback data version _ hp hc => rwa [hc.lost]
  | send th i p _ hp hc => rwa [hc.lost]
  | drop th p _ hfail hc =>
    rw [hc.lost]
    exact List.cons_ne_nil _ _
  | worker i act v hi ha hv => exact h

theorem never_full {cfg : Config} {s t : State P} (hs : (serverSystem P cfg).Reachable s)
    (hlost : s.lost ≠ []) (hfull : ¬ s.FoundFull)
    (ht : ((serverSystem P cfg).after s).Reachable t) : t.lost ≠ [] ∧ ¬ t.FoundFull := by
  induction ht with
  | init heq =>
    subst heq
    exact ⟨hlost, hfull⟩
  | step hu _ hst ih =>
    obtain ⟨hlost', hfull'⟩ := ih
    have hreach := System.Reach.trans hs hu
    refine ⟨serverStep_loses hst hlost', fun h => ?_⟩
    rcases serverStep_foundFull hst (threadOk_of_reach hreach .acceptor) h with h | ⟨hpc, hsize⟩
    · exact hfull' h
    · obtain ⟨l, hi⟩ := inv_of_reach hreach
      obtain ⟨l', hi', hlen⟩ := allPooled_of_size hi hpc hsize
      exact hlost' (hi'.empty_of_full hlen (x := .lost) (by simp))

theorem Spawns.reachable {cfg : Config} {s u : State P} {th : Tid} (h : Spawns cfg s th u)
    (hs : (serverSystem P cfg).Reachable s) : (serverSystem P cfg).Reachable u := by
  induction h with
  | init hcall =>
    obtain ⟨callback, data, hcall⟩ := hcall
    have hst : (serverSystem P cfg).step s (.spawn th callback data) = some _ := hcall
    exact .step hs trivial hst
  | step _ _ hst ih => exact .step ih trivial hst

theorem SpawnFailsTo.others {cfg : Config} {s t : State P} {th : Tid}
    (h : SpawnFailsTo cfg s th t) (th' : Tid) (hth : th' ≠ th) : Bystander s t th' := by
  obtain ⟨u, a, hu, ha, -, hst⟩ := h
  exact (hu.others th' hth).trans (serverStep_bystander hst (ha.mover hth))

theorem SpawnFailsTo.reachable {cfg : Config} {s t : State P} {th : Tid}
    (h : SpawnFailsTo cfg s th t) (hs : (serverSystem P cfg).Reachable s) :
    (serverSystem P cfg).Reachable t := by
  obtain ⟨u, a, hu, -, -, hst⟩ := h
  exact .step (hu.reachable hs) trivial hst

/-- Outside the server a thread has made `n` calls, which have all found room in
the pipe of worker 0; the acceptor has not started yet. -/
structure Filled (cfg : Config) (s : State P) (n : ℕ) : Prop where
  reachable : (serverSystem P cfg).Reachable s
  lock : s.lock = none
  spawn : s.spawnPc (.ext 0) = .idle
  pc : s.pc (.ext 0) = .idle
  accept : s.acceptPc = .spin
  incoming : (s.incoming 0).length = n
  pool : ∃ l, s.heap.Chain s.list l ∧ l.Nodup ∧ l.length + n = cfg.workerTasks * cfg.workers

theorem filled_create (cfg : Config) : Filled cfg (serverCreate P cfg zeroHeap) 0 := by
  have hi := serverCreate_inv (P := P) zeroHeap_fresh cfg
  obtain ⟨c, hc, -, hlock, -, -, hpc, -⟩ := poolFill_spec (T := Tid) zeroHeap
    (cfg.workerTasks * cfg.workers) (cfg.workerTasks * cfg.workers)
  refine ⟨.init ⟨zeroHeap, zeroHeap_fresh, rfl⟩, ?_, rfl, ?_, rfl, rfl,
    _, hi.pool.chain, hi.nodup .pool, by simp⟩
  · simp only [serverCreate, poolCreate, hc, hlock]
  · simp only [serverCreate, poolCreate, hc, hpc]

theorem Filled.next {cfg : Config} {s : State P} {n : ℕ} (h : Filled cfg s n)
    (hworkers : 0 < cfg.workers) (hroom : n < cfg.pipeCapacity)
    (htasks : n < cfg.workerTasks * cfg.workers) : ∃ t : State P, Filled cfg t (n + 1) := by
  obtain ⟨l, hchain, hnd, hlen⟩ := h.pool
  cases l with
  | nil =>
    simp at hlen
    omega
  | cons p l =>
    obtain ⟨hp, hnd'⟩ := List.nodup_cons.mp hnd
    have hmay : s.MaySpawn cfg (.ext 0) := trivial
    obtain ⟨u, hu, htry⟩ := spawns_tries hmay h.spawn h.pc h.lock hchain hp
    have hst : (serverSystem P cfg).step u (.spawnStep (.ext 0) 0) = some (State.setSpawn { u with
        incoming := Function.update u.incoming 0 (u.incoming 0 ++ [p]) } (.ext 0) .idle) := by
      simp only [serverSystem, serverStep, spawnStep, htry.spawn, htry.pc, State.pushIncoming,
        htry.incoming]
      rw [if_neg (by simp), if_pos hworkers, if_pos (by rw [h.incoming]; exact hroom)]
    refine ⟨_, .step (hu.reachable h.reachable) trivial hst, htry.lock, State.setSpawn_same ..,
      htry.pc, ?_, ?_, l, htry.chain, hnd', ?_⟩
    · exact ((hu.others .acceptor (by simp)).accept rfl).trans h.accept
    · change (Function.update u.incoming 0 (u.incoming 0 ++ [p]) 0).length = n + 1
      rw [Function.update_self, htry.incoming, List.length_append, h.incoming]
      rfl
    · rw [List.length_cons] at hlen
      omega

theorem filled {cfg : Config} (hworkers : 0 < cfg.workers) {n : ℕ} (hn : n ≤ cfg.pipeCapacity)
    (htasks : n ≤ cfg.workerTasks * cfg.workers) : ∃ s : State P, Filled cfg s n := by
  induction n with
  | zero => exact ⟨_, filled_create cfg⟩
  | succ n ih =>
    obtain ⟨s, hs⟩ := ih (by omega) (by omega)
    exact hs.next hworkers (by omega) (by omega)

/-- One worker, with one task more than a pipe of 64 KiB has room for pointers. -/
def crowded : Config := ⟨1, 8193, true, 8192, 5000⟩

/-- When 8192 tasks wait in the worker's pipe the next call fails and the pool
has lost its last task, so that it is never found full again. -/
theorem spawn_loses_task : ∃ s t : State Platform.lists,
    (serverSystem _ crowded).Reachable s ∧ SpawnFailsTo crowded s (.ext 0) t ∧
      ¬ SpawnKept s t ∧ ∀ u, ((serverSystem _ crowded).after t).Reachable u → ¬ u.FoundFull := by
  obtain ⟨s, hs⟩ : ∃ s : State Platform.lists, Filled crowded s 8192 :=
    filled (by decide) (by decide) (by decide)
  have hroom : ¬ s.HasRoom crowded := by
    rintro ⟨x, hx, hlt⟩
    obtain rfl : x = 0 := Nat.lt_one_iff.mp hx
    rw [hs.incoming] at hlt
    exact absurd hlt (by decide)
  obtain ⟨l, hchain, hnd, hlen⟩ := hs.pool
  cases l with
  | nil => exact absurd hlen (by decide)
  | cons p l =>
    have hmay : s.MaySpawn crowded (.ext 0) := trivial
    obtain ⟨t, ht, hl, hlost⟩ := spawns_full hmay hs.spawn hs.pc hs.lock hroom hchain
      (List.nodup_cons.mp hnd).1
    refine ⟨s, t, hs.reachable, ht, SpawnKept.not_of_tail hchain hl, fun u hu => ?_⟩
    refine (never_full (ht.reachable hs.reachable) hlost ?_ hu).2
    have haccept : t.acceptPc = .spin :=
      ((ht.others .acceptor (by simp)).accept rfl).trans hs.accept
    rw [State.FoundFull, haccept]
    exact id

/-- The first call on a new server meets the condition, and does not fail. -/
theorem spawn_atomic_first :
    (∀ t, SpawnFailsTo oneWorker (serverCreate Platform.lists oneWorker zeroHeap) (.ext 0) t →
      SpawnAtomic (serverCreate Platform.lists oneWorker zeroHeap) t) ∧
    (serverCreate Platform.lists oneWorker zeroHeap).HasRoom oneWorker := by
  have hroom : (serverCreate Platform.lists oneWorker zeroHeap).HasRoom oneWorker :=
    ⟨0, by decide, by decide⟩
  have hchain : (serverCreate Platform.lists oneWorker zeroHeap).heap.Chain
      (serverCreate Platform.lists oneWorker zeroHeap).list [0] := ⟨rfl, rfl⟩
  have hmay : (serverCreate Platform.lists oneWorker zeroHeap).MaySpawn oneWorker (.ext 0) :=
    trivial
  exact ⟨(spawn_atomic_iff Platform.lists oneWorker hchain (by decide) hmay rfl rfl rfl).2.mpr
    ⟨by decide, hroom⟩, hroom⟩

end Lawd

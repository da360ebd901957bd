import Lawd.Pool

/-!
# The pool under arbitrary calls

Any number of threads call the pool in any order; only tasks popped earlier are
pushed back. Every call releases the lock as long as no pop meets an empty
pool. The first pop that does keeps the lock for good.
-/
namespace Lawd

open Library

/-- A pool and the tasks that its callers have popped. -/
structure PoolRun (T : Type) extends PoolState T where
  out : List TaskPtr

/-- A thread calls the pool, makes a step inside the call, or returns from it. -/
inductive PoolAct (T : Type) where
  | call (th : T) (op : PoolOp)
  | step (th : T)
  | ret (th : T)

variable {T : Type} [DecidableEq T]

/-- The tasks that a returning call hands to its caller. -/
def PoolRet.tasks : PoolRet → List TaskPtr
  | .task (some p) => [p]
  | _ => []

/-- Calls start only between calls, and push only tasks popped earlier. -/
def poolRunStep (s : PoolRun T) : PoolAct T → Option (PoolRun T)
  | .call th op =>
    if s.pc th = .idle ∧ ∀ p ∈ (PoolPc.call op).hand, p ∈ s.out then
      some ⟨s.setPc th (.call op), s.out.diff (PoolPc.call op).hand⟩
    else none
  | .step th => (poolStep s.toPoolState th).map fun t => ⟨t, s.out⟩
  | .ret th =>
    match s.pc th with
    | .done ret => some ⟨s.setPc th .idle, ret.tasks ++ s.out⟩
    | _ => none

/-- The runs of a pool created with the given capacity. -/
def poolSystem (T : Type) [DecidableEq T] (capacity : ℕ) : System (PoolRun T) (PoolAct T) where
  initial s := ∃ heap, FreshHeap heap ∧ s = ⟨poolCreate heap capacity, []⟩
  step := poolRunStep

/-- Where a task can be. -/
inductive PoolPlace (T : Type) where
  | pool
  | hand (th : T)
  | out
  deriving DecidableEq

/-- The tasks in each place, when the pool lists the tasks `l`. -/
def PoolRun.contents (s : PoolRun T) (l : List TaskPtr) : PoolPlace T → List TaskPtr
  | .pool => l
  | .hand th => (s.pc th).hand
  | .out => s.out

/-- Every task of the pool is in one place, and there are no others. -/
structure PoolRunInv (s : PoolRun T) (l : List TaskPtr) : Prop where
  pool : PoolInv s.toPoolState l
  placed : ∀ p, p < s.capacity → Placed (s.contents l) p
  owned : ∀ x, ∀ p ∈ s.contents l x, p < s.capacity

theorem PoolRunInv.nodup {s : PoolRun T} {l : List TaskPtr} (hi : PoolRunInv s l) (th : T) :
    (l ++ (s.pc th).hand).Nodup := by
  have hplaced : ∀ x, ∀ p ∈ s.contents l x, Placed (s.contents l) p :=
    fun x p hp => hi.placed p (hi.owned x p hp)
  refine List.nodup_append.mpr ⟨nodup_of_placed (hplaced .pool),
    nodup_of_placed (c := s.contents l) (x := .hand th) (hplaced (.hand th)),
    fun p hp q hq heq => ?_⟩
  subst heq
  have h := (hplaced .pool p hp).unique (x := .pool) (y := .hand th) hp hq
  cases h

/-- A step that keeps the pool and the capacity and moves at most one task keeps
the invariant. -/
theorem PoolRunInv.flow {s t : PoolRun T} {l l' : List TaskPtr} (hi : PoolRunInv s l)
    (hpool : PoolInv t.toPoolState l') (hcap : t.capacity = s.capacity)
    (f : Flow (s.contents l) (t.contents l')) : PoolRunInv t l' where
  pool := hpool
  placed p hp := (hi.placed p (hcap ▸ hp)).flow f
  owned x p hp := by
    obtain ⟨y, hy⟩ := f.mem hp
    rw [hcap]
    exact hi.owned y p hy

theorem PoolRunInv.size_le {s : PoolRun T} {l : List TaskPtr} (hi : PoolRunInv s l) :
    s.size ≤ s.capacity := by
  have hbound : ∀ th, (l ++ (s.pc th).hand).length ≤ s.capacity := by
    intro th
    have hsub : l ++ (s.pc th).hand ⊆ List.range s.capacity := by
      intro p hp
      rcases List.mem_append.mp hp with hp | hp
      · exact List.mem_range.mpr (hi.owned .pool p hp)
      · exact List.mem_range.mpr (hi.owned (.hand th) p hp)
    simpa using (List.subperm_of_subset (hi.nodup th) hsub).length_le
  cases hlock : s.lock with
  | none =>
    have hlen : l.length ≤ s.capacity := by
      have hsub : l ⊆ List.range s.capacity := fun p hp =>
        List.mem_range.mpr (hi.owned .pool p hp)
      have hnd : l.Nodup := nodup_of_placed (c := s.contents l) (x := .pool)
        fun p hp => hi.placed p (hi.owned .pool p hp)
      simpa using (List.subperm_of_subset hnd hsub).length_le
    rw [hi.pool.free hlock]
    exact hlen
  | some th =>
    have hcounts := hi.pool.held th hlock
    have hlen := hbound th
    rw [List.length_append] at hlen
    cases hpc : s.pc th <;> rw [hpc] at hcounts hlen <;>
      simp only [PoolPc.Counts, PoolPc.hand, List.length_singleton] at hcounts hlen <;> omega

theorem poolCall_flow {s : PoolRun T} {l : List TaskPtr} {th : T} {op : PoolOp}
    (hidle : s.pc th = .idle) (hout : ∀ p ∈ (PoolPc.call op).hand, p ∈ s.out) :
    Flow (s.contents l)
      (PoolRun.contents ⟨s.setPc th (.call op), s.out.diff (PoolPc.call op).hand⟩ l) := by
  have hothers : ∀ th', th' ≠ th →
      ((s.setPc th (.call op)).pc th').hand = (s.pc th').hand := fun th' h => by
    rw [PoolState.setPc_ne _ _ h]
  cases op with
  | push p =>
    refine .move p .out (.hand th) ⟨by simp, ?_, ?_, ?_⟩
    · have hp : p ∈ s.out := hout p (by simp [PoolPc.hand])
      simpa [PoolRun.contents, PoolPc.hand, List.diff_cons] using List.perm_cons_erase hp
    · simp [PoolRun.contents, hidle, PoolPc.hand]
    · rintro (_ | th' | _) h h'
      · exact .refl _
      · exact .of_eq (hothers th' (by rintro rfl; exact h' rfl))
      · exact absurd rfl h
  | pop | size | isEmpty | isFull =>
    refine .stay ?_
    rintro (_ | th' | _)
    · exact .refl _
    · by_cases h : th' = th
      · subst h
        simp [PoolRun.contents, hidle, PoolPc.hand]
      · exact .of_eq (hothers th' h)
    · exact .of_eq (by simp [PoolRun.contents, PoolPc.hand])

theorem poolRet_flow {s : PoolRun T} {l : List TaskPtr} {th : T} {ret : PoolRet}
    (hdone : s.pc th = .done ret) :
    Flow (s.contents l) (PoolRun.contents ⟨s.setPc th .idle, ret.tasks ++ s.out⟩ l) := by
  have hothers : ∀ th', th' ≠ th →
      ((s.setPc th .idle).pc th').hand = (s.pc th').hand := fun th' h => by
    rw [PoolState.setPc_ne _ _ h]
  rcases ret with _ | (_ | p) | n | b
  case task.some =>
    refine .move p (.hand th) .out ⟨by simp, ?_, ?_, ?_⟩
    · simp [PoolRun.contents, hdone, PoolPc.hand]
    · exact .refl _
    · rintro (_ | th' | _) h h'
      · exact .refl _
      · exact .of_eq (hothers th' (by rintro rfl; exact h rfl))
      · exact absurd rfl h'
  all_goals
    refine .stay ?_
    rintro (_ | th' | _)
    · exact .refl _
    · by_cases h : th' = th
      · subst h
        simp [PoolRun.contents, hdone, PoolPc.hand]
      · exact .of_eq (hothers th' h)
    · exact .refl _

theorem poolRunStep_inv {s t : PoolRun T} {a : PoolAct T} {l : List TaskPtr}
    (hst : poolRunStep s a = some t) (hi : PoolRunInv s l) : ∃ l', PoolRunInv t l' := by
  cases a with
  | call th op =>
    simp only [poolRunStep] at hst
    split_ifs at hst with h
    obtain rfl := Option.some.inj hst
    exact ⟨l, hi.flow (hi.pool.setPc (by rw [h.1]; rfl) rfl) rfl (poolCall_flow h.1 h.2)⟩
  | step th =>
    obtain ⟨u, hu, rfl⟩ := Option.map_eq_some_iff.mp hst
    obtain ⟨l', hpool, hmove, hframe⟩ := poolStep_inv hu hi.pool (hi.nodup th)
    refine ⟨l', hi.flow hpool hframe.capacity ?_⟩
    refine hmove.flow .pool (.hand th) [] (by simp) rfl rfl
      (by simp [PoolRun.contents]) (by simp [PoolRun.contents]) ?_
    rintro (_ | th' | _) h h'
    · exact absurd rfl h
    · exact congrArg PoolPc.hand (hframe.pc th' (by rintro rfl; exact h' rfl))
    · rfl
  | ret th =>
    simp only [poolRunStep] at hst
    split at hst
    · rename_i ret hdone
      obtain rfl := Option.some.inj hst
      exact ⟨l, hi.flow (hi.pool.setPc (by rw [hdone]; rfl) rfl) rfl (poolRet_flow hdone)⟩
    · cases hst

theorem poolRun_initial {capacity : ℕ} {s : PoolRun T} (h : (poolSystem T capacity).initial s) :
    PoolRunInv s (List.range capacity).reverse := by
  obtain ⟨heap, -, rfl⟩ := h
  obtain ⟨c, hc, -, -, -, hcap, hpc, -⟩ := poolFill_spec (T := T) heap capacity capacity
  have hinv := poolCreate_inv (T := T) heap capacity
  rw [poolCreate, hc] at hinv ⊢
  refine ⟨hinv, fun p hp => ⟨.pool, ?_⟩, ?_⟩
  · rintro (_ | th | _)
    · have hmem : p ∈ (List.range capacity).reverse := by
        rw [hcap] at hp
        simpa using hp
      exact List.count_eq_one_of_mem (List.nodup_reverse.mpr List.nodup_range) hmem
    · simp [PoolRun.contents, hpc, PoolPc.hand]
    · simp [PoolRun.contents]
  · rintro (_ | th | _) p hp
    · simpa [PoolRun.contents, hcap] using hp
    · simp [PoolRun.contents, hpc, PoolPc.hand] at hp
    · simp [PoolRun.contents] at hp

theorem poolRun_inv {capacity : ℕ} {ok : PoolRun T → PoolAct T → Prop} {s : PoolRun T}
    (h : (poolSystem T capacity).Reach ok s) : ∃ l, PoolRunInv s l :=
  h.invariant (P := fun s => ∃ l, PoolRunInv s l) (fun _ hs => ⟨_, poolRun_initial hs⟩)
    (fun _ _ _ _ ⟨_, hi⟩ _ hst => poolRunStep_inv hst hi)

/-- The step is a pop that holds the lock of an empty pool. -/
def PopsEmpty (s : PoolRun T) : PoolAct T → Prop
  | .step th => s.pc th = .locked .pop ∧ s.list = none
  | _ => False

/-- What the callers of a pool rely on. -/
structure PoolDiscipline (s : PoolRun T) : Prop where
  /-- Who holds the lock is inside a call: a call that has returned released it. -/
  released : ∀ th, s.lock = some th → (s.pc th).critical = true
  /-- Who holds the lock can go on, and so can who asks for a free one. -/
  proceeds : ∀ th, s.lock = some th → (poolStep s.toPoolState th).isSome
  enters : ∀ th op, s.pc th = .call op → s.lock = none → (poolStep s.toPoolState th).isSome
  /-- The counter, the list without repetition, and what a pop takes. -/
  list : ∃ l, s.heap.Chain s.list l ∧ l.Nodup ∧ (s.lock = none → s.size = l.length) ∧
    ∀ th t, s.pc th = .locked .pop → poolStep s.toPoolState th = some t →
      (t.pc th = .done (.task none) ↔ l = []) ∧
      ∀ p, t.pc th = .unlinked p ↔ l.head? = some p
  bounded : s.size ≤ s.capacity

/-- The lock is held only inside a call. -/
def Released (s : PoolRun T) : Prop := ∀ th, s.lock = some th → (s.pc th).critical = true

theorem poolRunStep_released {s t : PoolRun T} {a : PoolAct T}
    (hst : poolRunStep s a = some t) (ha : ¬ PopsEmpty s a) (hr : Released s) :
    Released t := by
  cases a with
  | call th op =>
    simp only [poolRunStep] at hst
    split_ifs at hst with h
    obtain rfl := Option.some.inj hst
    intro th' hl
    have hc := hr th' hl
    change ((s.setPc th (.call op)).pc th').critical = true
    rw [PoolState.setPc_ne]
    · exact hc
    · rintro rfl
      rw [h.1] at hc
      cases hc
  | step th =>
    obtain ⟨u, hu, rfl⟩ := Option.map_eq_some_iff.mp hst
    simp only [PopsEmpty, not_and] at ha
    have hsame : ∀ {pc : PoolPc}, (s.pc th).critical = true → pc.critical = true →
        u.lock = s.lock → u.pc = Function.update s.pc th pc →
        Released (⟨u, s.out⟩ : PoolRun T) := by
      intro pc _ hnew hlock hpc th' hl
      change (u.pc th').critical = true
      rw [hpc]
      by_cases h : th' = th
      · rw [h, Function.update_self, hnew]
      · rw [Function.update_of_ne h]
        exact hr th' (hlock ▸ hl)
    cases poolStep_turn hu with
    | enter op hpc hlock =>
      intro th' hl
      obtain rfl : th = th' := Option.some.inj hl
      change ((PoolState.setPc _ th (.locked op)).pc th).critical = true
      rw [PoolState.setPc_same]
      rfl
    | popNone hpc hnone => exact absurd hnone (ha hpc)
    | leave ret hpc =>
      intro th' hl
      cases hl
    | link p hpc | count hpc | unlink p hpc _ | uncount p hpc | size hpc | isEmpty hpc
    | isFull hpc =>
      exact hsame (by rw [hpc]; rfl) rfl rfl rfl
  | ret th =>
    simp only [poolRunStep] at hst
    split at hst
    · rename_i ret hdone
      obtain rfl := Option.some.inj hst
      intro th' hl
      have hc := hr th' hl
      change ((s.setPc th .idle).pc th').critical = true
      rw [PoolState.setPc_ne]
      · exact hc
      · rintro rfl
        rw [hdone] at hc
        cases hc
    · cases hst

theorem poolStep_pop {s t : PoolState T} {l : List TaskPtr} (hi : PoolInv s l) {th : T}
    (hpc : s.pc th = .locked .pop) (hst : poolStep s th = some t) :
    (t.pc th = .done (.task none) ↔ l = []) ∧ ∀ p, t.pc th = .unlinked p ↔ l.head? = some p := by
  have hchain := hi.chain
  simp only [poolStep, hpc] at hst
  split at hst
  · rename_i hnone
    obtain rfl := Option.some.inj hst
    rw [hnone] at hchain
    obtain rfl := NodeIface.Chain.eq_nil hchain
    simp
  · rename_i p hsome
    obtain rfl := Option.some.inj hst
    rw [hsome] at hchain
    obtain ⟨l', rfl, -⟩ := NodeIface.Chain.eq_cons hchain
    simp

theorem PoolRunInv.discipline {s : PoolRun T} {l : List TaskPtr} (hi : PoolRunInv s l)
    (hr : Released s) : PoolDiscipline s where
  released := hr
  proceeds th hl := poolStep_of_critical (hr th hl)
  enters _ _ hpc hl := (poolStep_of_call hpc).mpr hl
  list := ⟨l, hi.pool.chain,
    nodup_of_placed (c := s.contents l) (x := .pool) fun p hp => hi.placed p (hi.owned .pool p hp),
    hi.pool.free, fun _ _ hpc hst => poolStep_pop hi.pool hpc hst⟩
  bounded := hi.size_le

theorem released_of_reach {capacity : ℕ} {s : PoolRun T}
    (h : (poolSystem T capacity).Reach (fun s a => ¬ PopsEmpty s a) s) : Released s := by
  refine h.invariant (fun s hs => ?_) fun s a t _ hr hok hst => poolRunStep_released hst hok hr
  obtain ⟨heap, -, rfl⟩ := hs
  obtain ⟨c, hc, -, hlock, -⟩ := poolFill_spec (T := T) heap capacity capacity
  intro th hl
  rw [poolCreate, hc] at hl
  exact absurd hl (by simp [hlock])

/-- In every run in which no pop meets an empty pool, the pool keeps its
discipline; a pop that does meet one breaks it. -/
theorem pool_discipline (T : Type) [DecidableEq T] (capacity : ℕ) :
    (∀ s, (poolSystem T capacity).Reach (fun s a => ¬ PopsEmpty s a) s → PoolDiscipline s) ∧
    ∀ s a t, (poolSystem T capacity).Reach (fun s a => ¬ PopsEmpty s a) s → PopsEmpty s a →
      (poolSystem T capacity).step s a = some t → ¬ PoolDiscipline t := by
  constructor
  · intro s hs
    obtain ⟨l, hi⟩ := poolRun_inv hs
    exact hi.discipline (released_of_reach hs)
  · intro s a t hs ha hst hd
    obtain ⟨l, hi⟩ := poolRun_inv hs
    cases a with
    | step th =>
      obtain ⟨hpc, hnone⟩ := ha
      have hlock := hi.pool.owner th (by rw [hpc]; rfl)
      obtain ⟨u, hu, rfl⟩ := Option.map_eq_some_iff.mp hst
      simp only [poolStep, hpc, hnone] at hu
      obtain rfl := Option.some.inj hu
      have hcrit := hd.released th hlock
      change ((s.setPc th (.done (.task none))).pc th).critical = true at hcrit
      rw [PoolState.setPc_same] at hcrit
      cases hcrit
    | call th op => exact ha
    | ret th => exact ha

/-- The heap of tasks that were all created with version 0. -/
def zeroHeap : Heap := fun _ => taskCreate 0

theorem zeroHeap_fresh : FreshHeap zeroHeap := fun _ => ⟨0, rfl⟩

/-- A pool of one task, popped twice: the second pop returns `NULL` and the lock
stays with a thread that has left its call. -/
theorem empty_pop_keeps_lock : ∃ s, (poolSystem ℕ 1).Reachable s ∧ ¬ PoolDiscipline s := by
  let start : PoolRun ℕ := ⟨poolCreate zeroHeap 1, []⟩
  let pop : List (PoolAct ℕ) := [.call 0 .pop, .step 0, .step 0, .step 0, .step 0, .ret 0]
  let popEmpty : List (PoolAct ℕ) := [.call 0 .pop, .step 0, .step 0, .ret 0]
  have hstart : (poolSystem ℕ 1).Reachable start := .init ⟨zeroHeap, zeroHeap_fresh, rfl⟩
  have hrun : ((poolSystem ℕ 1).run start (pop ++ popEmpty)).map
      (fun s => (s.lock, (s.pc 0).critical)) = some (some 0, false) := by decide
  obtain ⟨s, hs, heq⟩ := Option.map_eq_some_iff.mp hrun
  obtain ⟨hlock, hpc⟩ := Prod.mk.inj heq
  refine ⟨s, System.Reachable.run hstart _ hs, fun hd => ?_⟩
  have hcrit := hd.released 0 hlock
  rw [hpc] at hcrit
  cases hcrit

end Lawd

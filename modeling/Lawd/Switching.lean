import Lawd.Coroutine
import Lawd.Library.System

/-!
# Runs of coroutines

A worker calls and resumes any number of coroutines through one environment of
its own, as `law_worker_dispatch` does. The code on each stack may set all
registers and write to its stack and to memory that no stack and no environment
occupies. Whatever it does, every switch that comes back does so in the context
it left.
-/
namespace Lawd

open Library

/-- `law_cor_call`, up to the assembly routine. An `int` is in the low half of
its register. -/
def lawCorCall (T : Text) (initEnv corEnv top f arg : Word) (m : Machine) : Machine :=
  let mem := m.mem.store corEnv top
  { regs := ((((m.set .rdi initEnv).set .rsi corEnv).set .rdx arg).set .rcx f).regs,
    rip := T.callEntry, mem := mem.store (corEnv + 8) (mem.load corEnv) }

/-- The arguments of `law_cor_swap_x86_64`. -/
def lawCorSwap (T : Text) (src dest signal : Word) (m : Machine) : Machine :=
  { ((m.set .rdi src).set .rsi dest).set .rdx signal with rip := T.swapEntry }

/-- `law_cor_resume`. -/
def lawCorResume (T : Text) (initEnv corEnv signal : Word) (m : Machine) : Machine :=
  lawCorSwap T initEnv corEnv signal m

/-- `law_cor_yield`. -/
def lawCorYield (T : Text) (initEnv corEnv signal : Word) (m : Machine) : Machine :=
  lawCorSwap T corEnv initEnv signal m

/-- What memory is set aside for: the environment and the stack of the worker,
and for each coroutine its environment, its stack and, at the top of it, the
return address of its function. -/
inductive Piece (ι : Type) where
  | callerEnv
  | callerStack
  | calleeEnv (k : ι)
  | stack (k : ι)
  | base (k : ι)
  deriving DecidableEq

/-- Where the pieces are. A byte that belongs to none of them is shared. -/
structure Layout (ι : Type) where
  owner : Word → Option (Piece ι)
  caller : Word
  callee : ι → Word
  top : ι → Word
  caller_owner : ∀ i < 16, owner (caller + BitVec.ofNat 64 i) = some .callerEnv
  callee_owner : ∀ k, ∀ i < 16, owner (callee k + BitVec.ofNat 64 i) = some (.calleeEnv k)
  base_owner : ∀ k, ∀ i < 8, owner (top k - 8 + BitVec.ofNat 64 i) = some (.base k)

variable {ι : Type}

namespace Layout

/-- All bytes of a range belong to a piece. -/
def Owns (L : Layout ι) (p : Piece ι) (a : Word) (n : ℕ) : Prop :=
  ∀ i < n, L.owner (a + BitVec.ofNat 64 i) = some p

instance [DecidableEq ι] (L : Layout ι) (p : Piece ι) (a : Word) (n : ℕ) :
    Decidable (L.Owns p a n) :=
  inferInstanceAs (Decidable (∀ i < n, L.owner (a + BitVec.ofNat 64 i) = some p))

/-- The stack of the running side: a coroutine, or else the worker. -/
def stackOf : Option ι → Piece ι
  | none => .callerStack
  | some k => .stack k

/-- A switch needs room for seven words below the stack pointer. -/
def Room (L : Layout ι) (side : Option ι) (rsp : Word) : Prop :=
  L.Owns (stackOf side) (rsp - 48) 48

instance [DecidableEq ι] (L : Layout ι) (side : Option ι) (rsp : Word) :
    Decidable (L.Room side rsp) :=
  inferInstanceAs (Decidable (L.Owns _ _ _))

/-- The running side may write its own stack, and shared memory. -/
def Writable (L : Layout ι) (side : Option ι) (x : Word) : Prop :=
  L.owner x = none ∨ L.owner x = some (stackOf side)

instance [DecidableEq ι] (L : Layout ι) (side : Option ι) (x : Word) :
    Decidable (L.Writable side x) :=
  inferInstanceAs (Decidable (_ ∨ _))

/-- The memory of all but some pieces is the same. -/
def Touches (L : Layout ι) (ps : List (Piece ι)) (mem mem' : Memory) : Prop :=
  ∀ x p, L.owner x = some p → p ∉ ps → mem' x = mem x

variable {L : Layout ι}

theorem Owns.owner {p : Piece ι} {a x : Word} {n : ℕ} (h : L.Owns p a n) (hx : Covers a n x) :
    L.owner x = some p := by
  have hx' : a + BitVec.ofNat 64 (x - a).toNat = x := by
    rw [BitVec.ofNat_toNat, BitVec.setWidth_eq, BitVec.add_comm, BitVec.sub_add_cancel]
  have := h (x - a).toNat hx
  rwa [hx'] at this

theorem Owns.sub {p : Piece ι} {a : Word} {n i k : ℕ} (h : L.Owns p a n) (hik : i + k ≤ n) :
    L.Owns p (a + BitVec.ofNat 64 i) k := fun j hj => by
  rw [BitVec.add_assoc, ← BitVec.ofNat_add]
  exact h (i + j) (by omega)

theorem Owns.apart {p q : Piece ι} {a b : Word} {n k : ℕ} (h : L.Owns p a n) (h' : L.Owns q b k)
    (hne : p ≠ q) : Apart a n b k := fun _ hx hx' =>
  hne (Option.some.inj ((h.owner hx).symm.trans (h'.owner hx')))

theorem Owns.touches {p : Piece ι} {a : Word} {n : ℕ} {ps : List (Piece ι)} {mem mem' : Memory}
    (h : L.Owns p a n) (ht : L.Touches ps mem mem') (hp : p ∉ ps) {x : Word}
    (hx : Covers a n x) : mem' x = mem x := ht x p (h.owner hx) hp

theorem Touches.trans {ps qs : List (Piece ι)} {mem mem' mem'' : Memory}
    (h : L.Touches ps mem mem') (h' : L.Touches qs mem' mem'') :
    L.Touches (ps ++ qs) mem mem'' := fun x p hx hp =>
  (h' x p hx fun hq => hp (List.mem_append_right _ hq)).trans
    (h x p hx fun hq => hp (List.mem_append_left _ hq))

theorem Touches.mono {ps qs : List (Piece ι)} {mem mem' : Memory} (h : L.Touches ps mem mem')
    (hsub : ∀ p ∈ ps, p ∈ qs) : L.Touches qs mem mem' :=
  fun x p hx hp => h x p hx fun hq => hp (hsub p hq)

theorem Owns.store {p : Piece ι} {a : Word} (h : L.Owns p a 8) (mem : Memory) (v : Word) :
    L.Touches [p] mem (mem.store a v) := fun x q hx hq => by
  refine Memory.store_of_not_covers _ _ fun hc => hq ?_
  rw [Option.some.inj (hx.symm.trans (h.owner hc))]
  exact List.mem_singleton.mpr rfl

theorem suspended_touches {ps : List (Piece ι)} {mem mem' : Memory} {p q : Piece ι} {env : Word}
    {c : Context} (h : Suspended mem env c) (ht : L.Touches ps mem mem')
    (hstack : L.Owns p (c.regs .rsp - 48) 48) (henv : L.Owns q env 16) (hp : p ∉ ps)
    (hq : q ∉ ps) : Suspended mem' env c :=
  h.congr (fun _ hx => hstack.touches ht hp hx) fun _ hx => henv.touches ht hq hx

theorem elsewhere_touches {mem mem' : Memory} {p q : Piece ι} {env : Word} {c : Context}
    (h : Elsewhere c env mem mem') (hstack : L.Owns p (c.regs .rsp - 48) 48)
    (henv : L.Owns q env 16) : L.Touches [p, q] mem mem' := fun x r hx hr => by
  refine h x (fun hc => hr ?_) fun hc => hr ?_
  · rw [Option.some.inj (hx.symm.trans (hstack.owner hc))]
    exact List.mem_cons_self
  · rw [Option.some.inj (hx.symm.trans (henv.owner hc))]
    exact List.mem_cons_of_mem _ List.mem_cons_self

end Layout

/-- A coroutine that is live has entered its function, and may be waiting in a yield. -/
inductive Status where
  | idle
  | live (entry : Reg → Word) (wait : Option Context)

/-- The machine, the coroutine that runs, if any, the context of the worker's
last call or resume, and the coroutines. -/
structure CorState (ι : Type) where
  machine : Machine
  running : Option ι
  caller : Context
  status : ι → Status

/-- What the running side does. -/
inductive CorAct (ι : Type) where
  /-- Any code but a switch. -/
  | user (regs : Reg → Word) (rip : Word) (writes : List (Word × UInt8))
  /-- The worker calls `law_cor_call` or `law_cor_resume`, to return to `ret`. -/
  | call (k : ι) (f arg ret : Word)
  | resume (k : ι) (signal ret : Word)
  /-- The coroutine calls `law_cor_yield`. -/
  | yield (signal ret : Word)
  /-- The coroutine's function returns. -/
  | finish (value : Word)

/-- Write single bytes. -/
def writeAll (mem : Memory) (writes : List (Word × UInt8)) : Memory :=
  writes.foldl (fun mem w => Function.update mem w.1 w.2) mem

theorem preserved_args : ∀ r ∈ preserved, r ≠ .rdi ∧ r ≠ .rsi ∧ r ≠ .rdx ∧ r ≠ .rcx := by decide

theorem lawCorSwap_called (T : Text) (src dest signal ret : Word) (m : Machine) :
    Called (lawCorSwap T src dest signal (m.pushWord ret)) ⟨m.regs, ret⟩ := by
  refine ⟨fun r hr hne => ?_, rfl, Memory.load_store ..⟩
  obtain ⟨hdi, hsi, hdx, -⟩ := preserved_args r hr
  simp only [lawCorSwap, Machine.set, Machine.pushWord, Function.update_of_ne hdi,
    Function.update_of_ne hsi, Function.update_of_ne hdx, Function.update_of_ne hne]

theorem pushWord_touches {L : Layout ι} {p : Piece ι} {m : Machine}
    (hroom : L.Owns p (m.regs .rsp - 48) 48) (ret : Word) :
    L.Touches [p] m.mem (m.pushWord ret).mem := by
  have hslot : m.regs .rsp - 48 + BitVec.ofNat 64 40 = m.regs .rsp - 8 := by bv_omega
  exact (hslot ▸ hroom.sub (i := 40) (k := 8) (by decide)).store m.mem ret

/-- A swap out of one side, whose stack has room, into another. -/
theorem swap_between {L : Layout ι} {T : Text} {m : Machine} {d : Context}
    {src dest : Word} {p q pe qe : Piece ι} (signal ret : Word)
    (hroom : L.Owns p (m.regs .rsp - 48) 48) (hsrc : L.Owns pe src 16)
    (hdest : L.Owns qe dest 16) (hd : Suspended m.mem dest d)
    (hframe : L.Owns q (d.regs .rsp - 48) 48) (hnodup : [p, pe, q, qe].Nodup) :
    ∃ m', Machine.steps T.code lawCorSwapX8664.length
        (lawCorSwap T src dest signal (m.pushWord ret)) = some m' ∧
      Returned m' d signal ∧ Suspended m'.mem src ⟨m.regs, ret⟩ ∧
      L.Touches [p, pe] m.mem m'.mem := by
  simp only [List.nodup_cons, List.mem_cons, not_or, List.not_mem_nil, not_false_eq_true,
    List.nodup_nil, and_true] at hnodup
  obtain ⟨⟨hppe, hpq, hpqe⟩, ⟨hpeq, hpeqe⟩, -⟩ := hnodup
  have hpush := pushWord_touches hroom ret
  have hd' : Suspended (m.pushWord ret).mem dest d :=
    Layout.suspended_touches hd hpush hframe hdest (by simpa using Ne.symm hpq)
      (by simpa using Ne.symm hpqe)
  have hsep : Separate ⟨m.regs, ret⟩ d src dest :=
    ⟨hroom.apart hsrc hppe, hroom.apart hdest hpqe, hroom.apart hframe hpq,
      hsrc.apart hdest hpeqe, hsrc.apart hframe hpeq⟩
  obtain ⟨m', hsteps, hret, hsusp, helse⟩ := swap_spec (T := T)
    (m := lawCorSwap T src dest signal (m.pushWord ret)) rfl
    (lawCorSwap_called T src dest signal ret m) hd' hsep
  refine ⟨m', hsteps, hret, hsusp,
    (hpush.trans (Layout.elsewhere_touches helse hroom hsrc)).mono ?_⟩
  simp

theorem lawCorCall_touches {L : Layout ι} {T : Text} {m : Machine} {p : Piece ι} {cor : Word}
    (hcor : L.Owns p cor 16) (init top f arg : Word) :
    L.Touches [p] m.mem (lawCorCall T init cor top f arg m).mem := by
  have hfirst : L.Owns p cor 8 := fun i hi => hcor i (by omega)
  have hsecond : L.Owns p (cor + 8) 8 := hcor.sub (i := 8) (by decide)
  have htouch : L.Touches ([p] ++ [p]) m.mem (lawCorCall T init cor top f arg m).mem :=
    (hfirst.store m.mem top).trans (hsecond.store _ _)
  exact htouch.mono (by simp)

/-- A call of a coroutine from a stack with room. -/
theorem call_between {L : Layout ι} {T : Text} {m : Machine} {init cor top : Word}
    {p pe qe b : Piece ι} (f arg ret : Word) (hroom : L.Owns p (m.regs .rsp - 48) 48)
    (hinit : L.Owns pe init 16) (hcor : L.Owns qe cor 16) (htop : L.Owns b (top - 8) 8)
    (hnodup : [p, pe, qe, b].Nodup) :
    ∃ m', Machine.steps T.code (callEnter.length + 1)
        (lawCorCall T init cor top f arg (m.pushWord ret)) = some m' ∧
      Entered T (lawCorCall T init cor top f arg (m.pushWord ret)) m' top ∧
      Suspended m'.mem init ⟨m.regs, ret⟩ ∧ L.Touches [p, pe, qe, b] m.mem m'.mem := by
  simp only [List.nodup_cons, List.mem_cons, not_or, List.not_mem_nil, not_false_eq_true,
    List.nodup_nil, and_true] at hnodup
  obtain ⟨⟨hppe, hpqe, hpb⟩, ⟨hpeqe, hpeb⟩, hqeb⟩ := hnodup
  have hpush := pushWord_touches hroom ret
  have hargs := lawCorCall_touches (T := T) (m := m.pushWord ret) hcor init top f arg
  have hslot : m.regs .rsp - 48 + BitVec.ofNat 64 40 = m.regs .rsp - 8 := by bv_omega
  have hret : L.Owns p (m.regs .rsp - 8) 8 := hslot ▸ hroom.sub (i := 40) (k := 8) (by decide)
  have hcalled : Called (lawCorCall T init cor top f arg (m.pushWord ret)) ⟨m.regs, ret⟩ := by
    refine ⟨fun r hr hne => ?_, rfl, ?_⟩
    · obtain ⟨hdi, hsi, hdx, hcx⟩ := preserved_args r hr
      simp only [lawCorCall, Machine.set, Machine.pushWord, Function.update_of_ne hdi,
        Function.update_of_ne hsi, Function.update_of_ne hdx, Function.update_of_ne hcx,
        Function.update_of_ne hne]
    · refine (Memory.load_congr fun x hx => ?_).trans (Memory.load_store m.mem _ ret)
      exact hret.touches hargs (by simpa using hpqe) hx
  have hwords : Apart cor 8 (cor + 8) 8 :=
    (Memory.apart_shift (a := cor) (n := 8) (k := 8) (by decide)).symm
  have hbase : (lawCorCall T init cor top f arg (m.pushWord ret)).mem.load cor = top := by
    simp only [lawCorCall]
    rw [Memory.load_store_apart _ _ hwords, Memory.load_store]
  have hstack : (lawCorCall T init cor top f arg (m.pushWord ret)).mem.load (cor + 8) = top := by
    simp only [lawCorCall, Memory.load_store]
  have hfresh : Fresh ⟨m.regs, ret⟩ init cor top :=
    ⟨hroom.apart hinit hppe, hroom.apart hcor hpqe, hinit.apart hcor hpeqe,
      hroom.apart htop hpb, hinit.apart htop hpeb⟩
  obtain ⟨m', hsteps, hent, hsusp, helse⟩ := call_spec (T := T)
    (m := lawCorCall T init cor top f arg (m.pushWord ret)) rfl hcalled hbase hstack hfresh
  refine ⟨m', hsteps, hent, hsusp, fun x q hx hq => ?_⟩
  simp only [List.mem_cons, not_or, List.not_mem_nil, not_false_eq_true, and_true] at hq
  obtain ⟨hqp, hqpe, hqqe, hqb⟩ := hq
  have hown : ∀ {r : Piece ι} {a : Word} {n : ℕ}, L.Owns r a n → q ≠ r → ¬ Covers a n x :=
    fun ho hne hc => hne (Option.some.inj (hx.symm.trans (ho.owner hc)))
  rw [helse x (hown htop hqb) (hown hroom hqp) (hown hinit hqpe)]
  exact (hpush.trans hargs) x q hx (by simp [hqp, hqqe])

/-- What holds between two steps. -/
structure CorInv (L : Layout ι) (T : Text) (s : CorState ι) : Prop where
  waits : ∀ k entry c, s.status k = .live entry (some c) →
    Suspended s.machine.mem (L.callee k) c ∧ L.Owns (.stack k) (c.regs .rsp - 48) 48
  live : ∀ k entry wait, s.status k = .live entry wait →
    s.machine.mem.load (L.top k - 8) = T.callReturn ∧ entry .rsp = L.top k - 8 ∧
      entry .r15 = L.caller
  caller : ∀ k, s.running = some k → Suspended s.machine.mem L.caller s.caller ∧
    L.Owns .callerStack (s.caller.regs .rsp - 48) 48
  active : ∀ k, s.running = some k → ∃ entry, s.status k = .live entry none

variable {L : Layout ι} {T : Text} {s t : CorState ι}

theorem writeAll_touches {side : Option ι} {writes : List (Word × UInt8)} (mem : Memory)
    (hw : ∀ w ∈ writes, L.Writable side w.1) :
    L.Touches [Layout.stackOf side] mem (writeAll mem writes) := by
  induction writes generalizing mem with
  | nil => exact fun _ _ _ _ => rfl
  | cons w writes ih =>
    intro x p hx hp
    have hne : x ≠ w.1 := by
      rintro rfl
      rcases hw w List.mem_cons_self with h | h
      · rw [h] at hx
        cases hx
      · exact hp (List.mem_singleton.mpr (Option.some.inj (hx.symm.trans h)))
    rw [writeAll, List.foldl_cons, ← writeAll,
      ih _ (fun v hv => hw v (List.mem_cons_of_mem _ hv)) x p hx hp, Function.update_of_ne hne]

theorem CorInv.user (hi : CorInv L T s) {m : Machine}
    (ht : L.Touches [Layout.stackOf s.running] s.machine.mem m.mem) :
    CorInv L T { s with machine := m } where
  waits k entry c hk := by
    obtain ⟨hsusp, hown⟩ := hi.waits k entry c hk
    refine ⟨Layout.suspended_touches hsusp ht hown (L.callee_owner k) ?_ ?_, hown⟩
    · intro hmem
      cases hrun : s.running with
      | none => simp [hrun, Layout.stackOf] at hmem
      | some j =>
        obtain ⟨entry', hj⟩ := hi.active j hrun
        obtain rfl : k = j := by simpa [hrun, Layout.stackOf] using hmem
        rw [hj] at hk
        cases hk
    · cases hrun : s.running <;> simp [Layout.stackOf]
  live k entry wait hk := by
    obtain ⟨hret, hentry⟩ := hi.live k entry wait hk
    refine ⟨(Memory.load_congr fun x hx =>
        Layout.Owns.touches (L.base_owner k) ht ?_ hx).trans hret,
      hentry⟩
    cases hrun : s.running <;> simp [Layout.stackOf]
  caller k hk := by
    obtain ⟨hsusp, hown⟩ := hi.caller k hk
    have hk' : s.running = some k := hk
    refine ⟨Layout.suspended_touches hsusp ht hown L.caller_owner ?_ ?_, hown⟩ <;>
      simp [hk', Layout.stackOf]
  active k hk := hi.active k hk

variable [DecidableEq ι]

instance (L : Layout ι) (running : Option ι) (writes : List (Word × UInt8)) :
    Decidable (∀ w ∈ writes, L.Writable running w.1) := List.decidableBAll ..

/-- A step of the running side; a switch runs its assembly routine. -/
def corStep (L : Layout ι) (T : Text) (s : CorState ι) : CorAct ι → Option (CorState ι)
  | .user regs rip writes =>
    if ∀ w ∈ writes, L.Writable s.running w.1 then
      some { s with machine := ⟨regs, rip, writeAll s.machine.mem writes⟩ }
    else none
  | .call k f arg ret =>
    match s.running, s.status k with
    | none, .idle =>
      if L.Room none (s.machine.regs .rsp) then
        (Machine.steps T.code (callEnter.length + 1) (lawCorCall T L.caller (L.callee k) (L.top k)
          f arg (s.machine.pushWord ret))).map fun m =>
            ⟨m, some k, ⟨s.machine.regs, ret⟩, Function.update s.status k (.live m.regs none)⟩
      else none
    | _, _ => none
  | .resume k signal ret =>
    match s.running, s.status k with
    | none, .live entry (some _) =>
      if L.Room none (s.machine.regs .rsp) then
        (Machine.steps T.code lawCorSwapX8664.length (lawCorResume T L.caller (L.callee k) signal
          (s.machine.pushWord ret))).map fun m =>
            ⟨m, some k, ⟨s.machine.regs, ret⟩, Function.update s.status k (.live entry none)⟩
      else none
    | _, _ => none
  | .yield signal ret =>
    match s.running with
    | none => none
    | some k =>
      match s.status k with
      | .live entry none =>
        if L.Room (some k) (s.machine.regs .rsp) then
          (Machine.steps T.code lawCorSwapX8664.length (lawCorYield T L.caller (L.callee k) signal
            (s.machine.pushWord ret))).map fun m =>
              ⟨m, none, s.caller,
                Function.update s.status k (.live entry (some ⟨s.machine.regs, ret⟩))⟩
        else none
      | _ => none
  | .finish value =>
    match s.running with
    | none => none
    | some k =>
      match s.status k with
      | .live entry none =>
        if ∀ r ∈ preserved, s.machine.regs r = entry r then
          (Machine.steps T.code ((restore .r15).length + 1)
            ((s.machine.set .rax value).exec .ret)).map fun m =>
              ⟨m, none, s.caller, Function.update s.status k .idle⟩
        else none
      | _ => none

/-- The runs that start with no live coroutine. -/
def corSystem (L : Layout ι) (T : Text) : System (CorState ι) (CorAct ι) where
  initial s := s.running = none ∧ ∀ k, s.status k = .idle
  step := corStep L T

theorem corStep_call_books {k : ι} {f arg ret : Word} (hrun : s.running = none)
    (hk : s.status k = .idle) (h : corStep L T s (.call k f arg ret) = some t) :
    t.running = some k ∧ t.caller = ⟨s.machine.regs, ret⟩ ∧
      t.status k = .live t.machine.regs none := by
  simp only [corStep, hrun, hk] at h
  split_ifs at h
  obtain ⟨m, -, rfl⟩ := Option.map_eq_some_iff.mp h
  exact ⟨rfl, rfl, Function.update_self ..⟩

theorem corStep_yield_books {k : ι} {entry : Reg → Word} {signal ret : Word}
    (hrun : s.running = some k) (hk : s.status k = .live entry none)
    (h : corStep L T s (.yield signal ret) = some t) :
    t.running = none ∧ t.status k = .live entry (some ⟨s.machine.regs, ret⟩) := by
  simp only [corStep, hrun, hk] at h
  split_ifs at h
  obtain ⟨m, -, rfl⟩ := Option.map_eq_some_iff.mp h
  exact ⟨rfl, Function.update_self ..⟩

theorem corStep_resume_books {k : ι} {entry : Reg → Word} {c : Context} {signal ret : Word}
    (hrun : s.running = none) (hk : s.status k = .live entry (some c))
    (h : corStep L T s (.resume k signal ret) = some t) :
    t.running = some k ∧ t.caller = ⟨s.machine.regs, ret⟩ ∧ t.status k = .live entry none := by
  simp only [corStep, hrun, hk] at h
  split_ifs at h
  obtain ⟨m, -, rfl⟩ := Option.map_eq_some_iff.mp h
  exact ⟨rfl, rfl, Function.update_self ..⟩

/-- A switch that concerns one coroutine keeps the invariant of the others. -/
theorem CorInv.switch (hi : CorInv L T s) {m : Machine} {k : ι} {st : Status}
    {running : Option ι} {caller : Context} {ps : List (Piece ι)}
    (ht : L.Touches ps s.machine.mem m.mem)
    (hother : ∀ j, j ≠ k → .stack j ∉ ps ∧ .calleeEnv j ∉ ps ∧ .base j ∉ ps)
    (hwait : ∀ entry c, st = .live entry (some c) →
      Suspended m.mem (L.callee k) c ∧ L.Owns (.stack k) (c.regs .rsp - 48) 48)
    (hlive : ∀ entry wait, st = .live entry wait → m.mem.load (L.top k - 8) = T.callReturn ∧
      entry .rsp = L.top k - 8 ∧ entry .r15 = L.caller)
    (hcaller : ∀ j, running = some j → Suspended m.mem L.caller caller ∧
      L.Owns .callerStack (caller.regs .rsp - 48) 48)
    (hactive : ∀ j, running = some j → j = k ∧ ∃ entry, st = .live entry none) :
    CorInv L T ⟨m, running, caller, Function.update s.status k st⟩ where
  waits j entry c hj := by
    by_cases hjk : j = k
    · subst hjk
      exact hwait entry c (by simpa using hj)
    · obtain ⟨hsusp, hown⟩ := hi.waits j entry c (by simpa [hjk] using hj)
      obtain ⟨hs, he, -⟩ := hother j hjk
      exact ⟨Layout.suspended_touches hsusp ht hown (L.callee_owner j) hs he, hown⟩
  live j entry wait hj := by
    by_cases hjk : j = k
    · subst hjk
      exact hlive entry wait (by simpa using hj)
    · obtain ⟨hret, hentry⟩ := hi.live j entry wait (by simpa [hjk] using hj)
      obtain ⟨-, -, hb⟩ := hother j hjk
      exact ⟨(Memory.load_congr fun x hx =>
        Layout.Owns.touches (L.base_owner j) ht hb hx).trans hret, hentry⟩
  caller := hcaller
  active j hj := by
    obtain ⟨rfl, entry, hst⟩ := hactive j hj
    exact ⟨entry, by simpa using hst⟩

/-- A yield comes back to the worker. -/
theorem corStep_yield (hi : CorInv L T s) {k : ι} (hrun : s.running = some k)
    (hroom : L.Room (some k) (s.machine.regs .rsp)) (signal ret : Word) :
    ∃ t, corStep L T s (.yield signal ret) = some t ∧ Returned t.machine s.caller signal ∧
      CorInv L T t := by
  obtain ⟨entry, hk⟩ := hi.active k hrun
  obtain ⟨hsusp, hown⟩ := hi.caller k hrun
  obtain ⟨m, hsteps, hret, hsaved, ht⟩ := swap_between (T := T) signal ret hroom
    (L.callee_owner k) L.caller_owner hsusp hown (by simp [Layout.stackOf])
  have hstep : corStep L T s (.yield signal ret) = some ⟨m, none, s.caller,
      Function.update s.status k (.live entry (some ⟨s.machine.regs, ret⟩))⟩ := by
    simp only [corStep, hrun, hk, if_pos hroom]
    exact Option.map_eq_some_iff.mpr ⟨m, hsteps, rfl⟩
  refine ⟨_, hstep, hret, ?_⟩
  · refine hi.switch ht (fun j hj => ?_) (fun entry' c h => ?_) (fun entry' wait h => ?_)
      (fun j h => by cases h) fun j h => by cases h
    · simp [Layout.stackOf, hj]
    · obtain ⟨-, rfl⟩ : entry = entry' ∧ _ = c := by simpa using h
      exact ⟨hsaved, hroom⟩
    · obtain ⟨rfl, -⟩ : entry = entry' ∧ _ = wait := by simpa using h
      obtain ⟨hload, hentry⟩ := hi.live k entry none hk
      refine ⟨(Memory.load_congr fun x hx => ?_).trans hload, hentry⟩
      exact Layout.Owns.touches (L.base_owner k) ht (by simp [Layout.stackOf]) hx

/-- A resume comes back to the coroutine. -/
theorem corStep_resume (hi : CorInv L T s) {k : ι} {entry : Reg → Word} {c : Context}
    (hrun : s.running = none) (hk : s.status k = .live entry (some c))
    (hroom : L.Room none (s.machine.regs .rsp)) (signal ret : Word) :
    ∃ t, corStep L T s (.resume k signal ret) = some t ∧ Returned t.machine c signal ∧
      CorInv L T t := by
  obtain ⟨hsusp, hown⟩ := hi.waits k entry c hk
  obtain ⟨m, hsteps, hret, hsaved, ht⟩ := swap_between (T := T) signal ret hroom
    L.caller_owner (L.callee_owner k) hsusp hown (by simp [Layout.stackOf])
  have hstep : corStep L T s (.resume k signal ret) = some ⟨m, some k, ⟨s.machine.regs, ret⟩,
      Function.update s.status k (.live entry none)⟩ := by
    simp only [corStep, hrun, hk, if_pos hroom]
    exact Option.map_eq_some_iff.mpr ⟨m, hsteps, rfl⟩
  refine ⟨_, hstep, hret, ?_⟩
  · refine hi.switch ht (fun j hj => by simp [Layout.stackOf]) (fun entry' c' h => by cases h)
      (fun entry' wait h => ?_) (fun j h => ⟨hsaved, hroom⟩) fun j h => ?_
    · obtain ⟨rfl, -⟩ : entry = entry' ∧ none = wait := by simpa using h
      obtain ⟨hload, hentry⟩ := hi.live k entry _ hk
      refine ⟨(Memory.load_congr fun x hx => ?_).trans hload, hentry⟩
      exact Layout.Owns.touches (L.base_owner k) ht (by simp [Layout.stackOf]) hx
    · exact ⟨(Option.some.inj h).symm, entry, rfl⟩

/-- A called coroutine enters its function. -/
theorem corStep_call (hi : CorInv L T s) {k : ι} (hrun : s.running = none)
    (hk : s.status k = .idle) (hroom : L.Room none (s.machine.regs .rsp)) (f arg ret : Word) :
    ∃ t, corStep L T s (.call k f arg ret) = some t ∧ t.running = some k ∧
      t.machine.rip = f ∧ t.machine.regs .rdi = L.caller ∧ t.machine.regs .rsi = L.callee k ∧
      t.machine.regs .rdx = arg ∧ t.machine.regs .rsp = L.top k - 8 ∧ CorInv L T t := by
  obtain ⟨m, hsteps, hent, hsaved, ht⟩ := call_between (T := T) f arg ret hroom
    L.caller_owner (L.callee_owner k) (L.base_owner k) (by simp [Layout.stackOf])
  have hstep : corStep L T s (.call k f arg ret) = some ⟨m, some k, ⟨s.machine.regs, ret⟩,
      Function.update s.status k (.live m.regs none)⟩ := by
    simp only [corStep, hrun, hk, if_pos hroom]
    exact Option.map_eq_some_iff.mpr ⟨m, hsteps, rfl⟩
  refine ⟨_, hstep, rfl, hent.rip, hent.args .rdi (by decide), hent.args .rsi (by decide),
    hent.args .rdx (by decide), hent.rsp, ?_⟩
  · refine hi.switch ht (fun j hj => by simp [Layout.stackOf, hj]) (fun entry' c' h => by cases h)
      (fun entry' wait h => ?_) (fun j h => ⟨hsaved, hroom⟩) fun j h => ?_
    · obtain ⟨rfl, -⟩ : m.regs = entry' ∧ none = wait := by simpa using h
      exact ⟨hent.ret, hent.rsp, hent.env⟩
    · exact ⟨(Option.some.inj h).symm, m.regs, rfl⟩

/-- A coroutine's function that keeps to the ABI returns to the worker. -/
theorem corStep_finish (hi : CorInv L T s) {k : ι} {entry : Reg → Word}
    (hrun : s.running = some k) (hk : s.status k = .live entry none)
    (habi : ∀ r ∈ preserved, s.machine.regs r = entry r) (value : Word) :
    ∃ t, corStep L T s (.finish value) = some t ∧ Returned t.machine s.caller value ∧
      CorInv L T t := by
  obtain ⟨hload, hrsp, hr15⟩ := hi.live k entry none hk
  obtain ⟨hsusp, hown⟩ := hi.caller k hrun
  have hrip : ((s.machine.set .rax value).exec .ret).rip = T.callReturn := by
    change s.machine.mem.load (Function.update s.machine.regs .rax value .rsp) = _
    rw [Function.update_of_ne (by decide), habi .rsp (by decide), hrsp, hload]
  have henv : ((s.machine.set .rax value).exec .ret).regs .r15 = L.caller := by
    simp only [Machine.exec, Machine.set]
    rw [Function.update_of_ne (by decide), Function.update_of_ne (by decide),
      habi .r15 (by decide), hr15]
  have hvalue : ((s.machine.set .rax value).exec .ret).regs .rax = value := by
    simp only [Machine.exec, Machine.set]
    rw [Function.update_of_ne (by decide), Function.update_self]
  obtain ⟨m, hsteps, hret, hmem⟩ := leave_spec hrip (henv ▸ hsusp)
  rw [hvalue] at hret
  have hstep : corStep L T s (.finish value) = some ⟨m, none, s.caller,
      Function.update s.status k .idle⟩ := by
    simp only [corStep, hrun, hk, if_pos habi]
    exact Option.map_eq_some_iff.mpr ⟨m, hsteps, rfl⟩
  refine ⟨_, hstep, hret, ?_⟩
  · have ht : L.Touches [] s.machine.mem m.mem := fun x p _ _ => congrFun hmem x
    exact hi.switch ht (fun j hj => by simp) (fun _ _ h => by cases h) (fun _ _ h => by cases h)
      (fun j h => by cases h) fun j h => by cases h

theorem corStep_inv {a : CorAct ι} (hst : corStep L T s a = some t) (hi : CorInv L T s) :
    CorInv L T t := by
  have hsame : ∀ {u}, corStep L T s a = some u → CorInv L T u → CorInv L T t := by
    intro u hu hinv
    obtain rfl := Option.some.inj (hst.symm.trans hu)
    exact hinv
  cases a with
  | user regs rip writes =>
    simp only [corStep] at hst
    split_ifs at hst with hw
    obtain rfl := Option.some.inj hst
    exact hi.user (writeAll_touches _ hw)
  | call k f arg ret =>
    have hst' := hst
    simp only [corStep] at hst'
    split at hst'
    · rename_i hrun hk
      split_ifs at hst' with hroom
      obtain ⟨u, hu, -, -, -, -, -, -, hinv⟩ := corStep_call hi hrun hk hroom f arg ret
      exact hsame hu hinv
    · cases hst'
  | resume k signal ret =>
    have hst' := hst
    simp only [corStep] at hst'
    split at hst'
    · rename_i entry c hrun hk
      split_ifs at hst' with hroom
      obtain ⟨u, hu, -, hinv⟩ := corStep_resume hi hrun hk hroom signal ret
      exact hsame hu hinv
    · cases hst'
  | yield signal ret =>
    have hst' := hst
    simp only [corStep] at hst'
    split at hst'
    · cases hst'
    · rename_i k hrun
      split at hst'
      · split_ifs at hst' with hroom
        obtain ⟨u, hu, -, hinv⟩ := corStep_yield hi hrun hroom signal ret
        exact hsame hu hinv
      · cases hst'
  | finish value =>
    have hst' := hst
    simp only [corStep] at hst'
    split at hst'
    · cases hst'
    · rename_i k hrun
      split at hst'
      · rename_i entry hk
        split_ifs at hst' with habi
        obtain ⟨u, hu, -, hinv⟩ := corStep_finish hi hrun hk habi value
        exact hsame hu hinv
      · cases hst'

theorem corInv_of_reach (h : (corSystem L T).Reachable s) : CorInv L T s :=
  h.invariant (P := CorInv L T)
    (fun s hs => ⟨fun k entry c hk => by simp [hs.2 k] at hk, fun k entry wait hk => by
      simp [hs.2 k] at hk, fun k hk => by simp [hs.1] at hk, fun k hk => by simp [hs.1] at hk⟩)
    fun _ _ _ _ hi _ hst => corStep_inv hst hi

/-- What the switches out of a state do: a yield and the end of a function
return their value in the context of the worker's last call or resume, a resume
returns its signal in the context of the coroutine's yield, and a call enters
the function on the coroutine's stack. -/
structure SwitchesBack (L : Layout ι) (T : Text) (s : CorState ι) : Prop where
  yield : ∀ k signal ret, s.running = some k → L.Room (some k) (s.machine.regs .rsp) →
    ∃ t, corStep L T s (.yield signal ret) = some t ∧ Returned t.machine s.caller signal
  finish : ∀ k entry value, s.running = some k → s.status k = .live entry none →
    (∀ r ∈ preserved, s.machine.regs r = entry r) →
    ∃ t, corStep L T s (.finish value) = some t ∧ Returned t.machine s.caller value
  resume : ∀ k entry c signal ret, s.running = none → s.status k = .live entry (some c) →
    L.Room none (s.machine.regs .rsp) →
    ∃ t, corStep L T s (.resume k signal ret) = some t ∧ Returned t.machine c signal
  call : ∀ k f arg ret, s.running = none → s.status k = .idle →
    L.Room none (s.machine.regs .rsp) →
    ∃ t, corStep L T s (.call k f arg ret) = some t ∧ t.running = some k ∧ t.machine.rip = f ∧
      t.machine.regs .rdi = L.caller ∧ t.machine.regs .rsi = L.callee k ∧
      t.machine.regs .rdx = arg ∧ t.machine.regs .rsp = L.top k - 8

/-- In every run of a worker and its coroutines, every switch that comes back
finds the preserved registers as they were when its side left, and the value
that it was given. -/
theorem switches_preserve (L : Layout ι) (T : Text) {s : CorState ι}
    (h : (corSystem L T).Reachable s) : SwitchesBack L T s := by
  have hi := corInv_of_reach h
  refine ⟨fun k signal ret hrun hroom => ?_, fun k entry value hrun hk habi => ?_,
    fun k entry c signal ret hrun hk hroom => ?_, fun k f arg ret hrun hk hroom => ?_⟩
  · obtain ⟨t, ht, hret, -⟩ := corStep_yield hi hrun hroom signal ret
    exact ⟨t, ht, hret⟩
  · obtain ⟨t, ht, hret, -⟩ := corStep_finish hi hrun hk habi value
    exact ⟨t, ht, hret⟩
  · obtain ⟨t, ht, hret, -⟩ := corStep_resume hi hrun hk hroom signal ret
    exact ⟨t, ht, hret⟩
  · obtain ⟨t, ht, hrun', hrip, hdi, hsi, hdx, hrsp, -⟩ :=
      corStep_call hi hrun hk hroom f arg ret
    exact ⟨t, ht, hrun', hrip, hdi, hsi, hdx, hrsp⟩

/-- Two coroutines, each with a page for its stack. -/
def twoStacks : Layout Bool where
  owner x :=
    match x.toNat / 4096 with
    | 1 => some .callerEnv
    | 2 => some .callerStack
    | 3 => some (.calleeEnv false)
    | 4 => some (.calleeEnv true)
    | 5 => if x.toNat % 4096 < 4088 then some (.stack false) else some (.base false)
    | 6 => if x.toNat % 4096 < 4088 then some (.stack true) else some (.base true)
    | _ => none
  caller := 0x1000
  callee k := if k then 0x4000 else 0x3000
  top k := if k then 0x7000 else 0x6000
  caller_owner := by decide
  callee_owner := by decide
  base_owner := by decide

/-- The two routines, one after the other. -/
def twoRoutines : Text where
  code a := (lawCorCallX8664 ++ lawCorSwapX8664)[a.toNat]?
  callEntry := 0
  swapEntry := 19
  call_code := by decide
  swap_code := by decide

/-- A worker with an empty stack. -/
def bareWorker : CorState Bool where
  machine := ⟨Function.update (fun _ => 0) .rsp 0x2800, 0x100, fun _ => 0⟩
  running := none
  caller := ⟨fun _ => 0, 0⟩
  status _ := .idle

/-- A worker calls a coroutine, which yields, is resumed and returns. -/
theorem switches_preserve_round : ∃ s t u v,
    corStep twoStacks twoRoutines bareWorker (.call true 0x200 0 0x101) = some s ∧
    corStep twoStacks twoRoutines s (.yield 6 0x201) = some t ∧
    Returned t.machine ⟨bareWorker.machine.regs, 0x101⟩ 6 ∧
    corStep twoStacks twoRoutines t (.resume true 7 0x102) = some u ∧
    Returned u.machine ⟨s.machine.regs, 0x201⟩ 7 ∧
    corStep twoStacks twoRoutines u (.finish 0) = some v ∧
    Returned v.machine ⟨t.machine.regs, 0x102⟩ 0 := by
  have switches : ∀ {s}, (corSystem twoStacks twoRoutines).Reachable s →
      SwitchesBack twoStacks twoRoutines s := switches_preserve twoStacks twoRoutines
  have next : ∀ {s t a}, (corSystem twoStacks twoRoutines).Reachable s →
      corStep twoStacks twoRoutines s a = some t → (corSystem twoStacks twoRoutines).Reachable t :=
    fun h hst => .step h trivial hst
  have h₀ : (corSystem twoStacks twoRoutines).Reachable bareWorker := .init ⟨rfl, fun _ => rfl⟩
  obtain ⟨s, hs, -, -, -, -, -, hrsp⟩ :=
    (switches h₀).call true 0x200 0 0x101 rfl rfl (by decide)
  obtain ⟨hrun, hcaller, hlive⟩ := corStep_call_books rfl rfl hs
  obtain ⟨t, ht, hyield⟩ := (switches (next h₀ hs)).yield true 6 0x201 hrun
    (by rw [hrsp]; decide)
  obtain ⟨hrun', hwaits⟩ := corStep_yield_books hrun hlive ht
  rw [hcaller] at hyield
  obtain ⟨u, hu, hresume⟩ := (switches (next (next h₀ hs) ht)).resume true _ _ 7 0x102 hrun' hwaits
    (by rw [hyield.regs .rsp (by decide)]; decide)
  obtain ⟨hrun'', hcaller', hlive'⟩ := corStep_resume_books hrun' hwaits hu
  obtain ⟨v, hv, hfinish⟩ := (switches (next (next (next h₀ hs) ht) hu)).finish true _ 0 hrun''
    hlive' hresume.regs
  rw [hcaller'] at hfinish
  exact ⟨s, t, u, v, hs, ht, hyield, hu, hresume, hv, hfinish⟩

end Lawd

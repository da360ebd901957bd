import Lawd.Library.Machine

/-!
# Coroutine switching

Each of the two assembly routines saves what a callee preserves: five registers
and the return address on the stack, the frame and stack pointers in an
environment of two words. A context saved by one of them can be restored by
either.
-/
namespace Lawd

open Library

/-- The registers that a function of the System V ABI leaves as they were. -/
def preserved : List Reg := [.rbx, .rbp, .rsp, .r12, .r13, .r14, .r15]

/-- `law_cor_call_x86_64`. -/
def lawCorCallX8664 : List Instr :=
  [.push .r15, .push .r14, .push .r13, .push .r12, .push .rbx,
    .mov .rdi .r15, .store .rbp 0 .r15, .store .rsp 8 .r15,
    .load 0 .rsi .rbp, .load 8 .rsi .rsp,
    .call .rcx,
    .load 0 .r15 .rbp, .load 8 .r15 .rsp,
    .pop .rbx, .pop .r12, .pop .r13, .pop .r14, .pop .r15,
    .ret]

/-- `law_cor_swap_x86_64`. -/
def lawCorSwapX8664 : List Instr :=
  [.push .r15, .push .r14, .push .r13, .push .r12, .push .rbx,
    .store .rbp 0 .rdi, .store .rsp 8 .rdi,
    .load 0 .rsi .rbp, .load 8 .rsi .rsp,
    .pop .rbx, .pop .r12, .pop .r13, .pop .r14, .pop .r15,
    .mov .rdx .rax,
    .ret]

/-- The code of the two routines, and where it is. -/
structure Text where
  code : Word → Option Instr
  callEntry : Word
  swapEntry : Word
  call_code : CodeAt code callEntry lawCorCallX8664
  swap_code : CodeAt code swapEntry lawCorSwapX8664

/-- The registers at a call, and the address to return to. -/
structure Context where
  regs : Reg → Word
  ret : Word

/-- The machine when a function called in the context begins, or is about to return. -/
structure Called (m : Machine) (c : Context) : Prop where
  regs : ∀ r ∈ preserved, r ≠ .rsp → m.regs r = c.regs r
  rsp : m.regs .rsp = c.regs .rsp - 8
  ret : m.mem.load (m.regs .rsp) = c.ret

/-- The machine when a function called in the context has returned a value. -/
structure Returned (m : Machine) (c : Context) (value : Word) : Prop where
  regs : ∀ r ∈ preserved, m.regs r = c.regs r
  rip : m.rip = c.ret
  value : m.regs .rax = value

/-- The context is saved in an environment and on its stack. -/
structure Suspended (mem : Memory) (env : Word) (c : Context) : Prop where
  base : mem.load env = c.regs .rbp
  stack : mem.load (env + 8) = c.regs .rsp - 48
  frame : mem.Holds (c.regs .rsp - 48) ([.rbx, .r12, .r13, .r14, .r15].map c.regs ++ [c.ret])

theorem Called.returned {m : Machine} {c : Context} (h : Called m c) :
    Returned (m.exec .ret) c (m.regs .rax) where
  regs r hr := by
    change Function.update m.regs .rsp (m.regs .rsp + 8) r = c.regs r
    by_cases hrsp : r = .rsp
    · subst hrsp
      rw [Function.update_self, h.rsp, BitVec.sub_add_cancel]
    · rw [Function.update_of_ne hrsp]
      exact h.regs r hr hrsp
  rip := h.ret
  value := by
    change Function.update m.regs .rsp (m.regs .rsp + 8) .rax = m.regs .rax
    rw [Function.update_of_ne (by decide)]

theorem covers_first {env x : Word} (h : Covers env 8 x) : Covers env 16 x :=
  Memory.covers_mono (by decide) h

theorem covers_second {env x : Word} (h : Covers (env + 8) 8 x) : Covers env 16 x :=
  Memory.covers_shift (n := 8) (k := 8) (by decide) h

theorem Suspended.congr {mem mem' : Memory} {env : Word} {c : Context} (h : Suspended mem env c)
    (hframe : ∀ x, Covers (c.regs .rsp - 48) 48 x → mem' x = mem x)
    (henv : ∀ x, Covers env 16 x → mem' x = mem x) : Suspended mem' env c where
  base := (Memory.load_congr fun x hx => henv x (covers_first hx)).trans h.base
  stack := (Memory.load_congr fun x hx => henv x (covers_second hx)).trans h.stack
  frame := h.frame.congr (by simp) hframe

/-- The stack part of a save. -/
def pushes : List Instr := [.push .r15, .push .r14, .push .r13, .push .r12, .push .rbx]

/-- Restore the context of the environment that a register points to. -/
def restore (e : Reg) : List Instr :=
  [.load 0 e .rbp, .load 8 e .rsp, .pop .rbx, .pop .r12, .pop .r13, .pop .r14, .pop .r15]

/-- A saved context is restored up to its return. -/
theorem block_restore (m : Machine) {e : Reg} (he : e ≠ .rbp) {c : Context}
    (h : Suspended m.mem (m.regs e) c) :
    Called (m.block (restore e)) c ∧ (m.block (restore e)).mem = m.mem ∧
      ∀ r, r ∉ preserved → (m.block (restore e)).regs r = m.regs r := by
  obtain ⟨m₂, hm₂⟩ : ∃ m₂, m₂ = m.block [.load 0 e .rbp, .load 8 e .rsp] := ⟨_, rfl⟩
  have hblock : m.block (restore e) = m₂.block ([.rbx, .r12, .r13, .r14, .r15].map .pop) := by
    rw [hm₂, ← Machine.block_append]
    rfl
  have hmem : m₂.mem = m.mem := by simp only [hm₂, Machine.block_cons, Machine.block_nil,
    Machine.exec_load_mem]
  have hregs : m₂.regs = Function.update (Function.update m.regs .rbp (c.regs .rbp)) .rsp
      (c.regs .rsp - 48) := by
    have hzero : m.regs e + 0 = m.regs e := BitVec.add_zero _
    simp only [hm₂, Machine.block_cons, Machine.block_nil, Machine.exec_load_mem,
      Machine.exec_load_regs]
    rw [Function.update_of_ne he, hzero, h.base, h.stack]
  have hrsp : m₂.regs .rsp = c.regs .rsp - 48 := by rw [hregs, Function.update_self]
  have hframe := h.frame
  rw [Memory.holds_append, ← hrsp] at hframe
  have hp : Machine.Popped [.rbx, .r12, .r13, .r14, .r15]
      ([.rbx, .r12, .r13, .r14, .r15].map c.regs) m₂ _ :=
    Machine.block_pop m₂ (by decide) (by decide) rfl (hmem ▸ hframe.1)
  rw [hblock]
  have htop : (m₂.block ([.rbx, .r12, .r13, .r14, .r15].map .pop)).regs .rsp = c.regs .rsp - 8 := by
    refine hp.top.trans ?_
    rw [hrsp]
    change c.regs .rsp - 48 + 40 = _
    bv_omega
  refine ⟨⟨fun r hr hne => ?_, htop, ?_⟩, hp.mem.trans hmem, fun r hr => ?_⟩
  · by_cases hbp : r = .rbp
    · subst hbp
      rw [hp.regs .rbp (by decide) (by decide), hregs, Function.update_of_ne (by decide),
        Function.update_self]
    · have hsaved : r ∈ [Reg.rbx, .r12, .r13, .r14, .r15] := by
        revert hr hne hbp
        cases r <;> decide
      exact List.map_inj_left.mp hp.popped r hsaved
  · rw [hp.top, hp.mem, hmem]
    exact hframe.2.1
  · have hne : r ≠ .rsp ∧ r ≠ .rbp ∧ r ∉ [Reg.rbx, .r12, .r13, .r14, .r15] := by
      revert hr
      cases r <;> decide
    rw [hp.regs r hne.1 hne.2.2, hregs, Function.update_of_ne hne.1, Function.update_of_ne hne.2.1]

/-- The pushes of a save, in a called function. -/
theorem block_pushes {m : Machine} {c : Context} (h : Called m c) :
    (m.block pushes).regs .rsp = c.regs .rsp - 48 ∧
      (∀ r, r ≠ .rsp → (m.block pushes).regs r = m.regs r) ∧
      (m.block pushes).mem.Holds (c.regs .rsp - 48)
        ([.rbx, .r12, .r13, .r14, .r15].map c.regs ++ [c.ret]) ∧
      ∀ x, ¬ Covers (c.regs .rsp - 48) 48 x → (m.block pushes).mem x = m.mem x := by
  have hp : Machine.Pushed [.r15, .r14, .r13, .r12, .rbx] m (m.block pushes) :=
    Machine.block_push m (by decide) (by decide)
  have hrsp : (m.block pushes).regs .rsp = c.regs .rsp - 48 := by
    refine hp.top.trans ?_
    rw [h.rsp]
    change c.regs .rsp - 8 - 40 = _
    bv_omega
  refine ⟨hrsp, hp.regs, ?_, fun x hx => hp.others x fun hc => hx ?_⟩
  · have hwords := hp.words
    have hothers := hp.others
    rw [hrsp] at hwords hothers
    rw [Memory.holds_append]
    have hmap : [Reg.rbx, .r12, .r13, .r14, .r15].map c.regs =
        [Reg.rbx, .r12, .r13, .r14, .r15].map m.regs :=
      List.map_congr_left fun r hr => (h.regs r (by revert hr; cases r <;> decide)
        (by rintro rfl; revert hr; decide)).symm
    have htop : c.regs .rsp - 48 + BitVec.ofNat 64 40 = m.regs .rsp := by
      rw [h.rsp]
      bv_omega
    refine ⟨hmap ▸ hwords, ?_, trivial⟩
    change (m.block pushes).mem.load (c.regs .rsp - 48 + BitVec.ofNat 64 40) = c.ret
    rw [htop, ← h.ret]
    refine Memory.load_congr fun x hx => hothers x ?_
    rw [← htop] at hx
    exact Memory.apart_shift (by decide) x hx
  · rw [hrsp] at hc
    exact Memory.covers_mono (by decide) hc

/-- The memory when the context has been saved in the environment. -/
def savedMem (m : Machine) (env : Word) (c : Context) : Memory :=
  ((m.block pushes).mem.store env (c.regs .rbp)).store (env + 8) (c.regs .rsp - 48)

theorem savedMem_suspended {m : Machine} {c : Context} (h : Called m c) {env : Word}
    (hapart : Apart (c.regs .rsp - 48) 48 env 16) :
    Suspended (savedMem m env c) env c ∧ ∀ x, ¬ Covers (c.regs .rsp - 48) 48 x →
      ¬ Covers env 16 x → savedMem m env c x = m.mem x := by
  obtain ⟨-, -, hframe, hothers⟩ := block_pushes h
  have hstores : ∀ x, ¬ Covers env 16 x → savedMem m env c x = (m.block pushes).mem x := by
    intro x hx
    rw [savedMem, Memory.store_of_not_covers _ _ fun hc => hx (covers_second hc),
      Memory.store_of_not_covers _ _ fun hc => hx (covers_first hc)]
  refine ⟨⟨?_, Memory.load_store .., ?_⟩, fun x hx henv => (hstores x henv).trans (hothers x hx)⟩
  · have hwords : Apart env 8 (env + 8) 8 :=
      (Memory.apart_shift (a := env) (n := 8) (k := 8) (by decide)).symm
    rw [savedMem, Memory.load_store_apart _ _ hwords, Memory.load_store]
  · exact hframe.congr (by simp) fun x hx => hstores x (hapart x hx)

/-- The ranges that a switch from one context to another works on do not overlap. -/
structure Separate (c d : Context) (src dst : Word) : Prop where
  frame_src : Apart (c.regs .rsp - 48) 48 src 16
  frame_dst : Apart (c.regs .rsp - 48) 48 dst 16
  frames : Apart (c.regs .rsp - 48) 48 (d.regs .rsp - 48) 48
  envs : Apart src 16 dst 16
  src_frame : Apart src 16 (d.regs .rsp - 48) 48

/-- The rest of the memory. -/
def Elsewhere (c : Context) (env : Word) (mem mem' : Memory) : Prop :=
  ∀ x, ¬ Covers (c.regs .rsp - 48) 48 x → ¬ Covers env 16 x → mem' x = mem x

/-- `law_cor_swap_x86_64` suspends the context it is called in and returns the
signal in the context that was suspended in its destination. -/
theorem swap_spec {T : Text} {m : Machine} {c d : Context} (hrip : m.rip = T.swapEntry)
    (hc : Called m c) (hd : Suspended m.mem (m.regs .rsi) d)
    (hsep : Separate c d (m.regs .rdi) (m.regs .rsi)) :
    ∃ m', Machine.steps T.code lawCorSwapX8664.length m = some m' ∧
      Returned m' d (m.regs .rdx) ∧ Suspended m'.mem (m.regs .rdi) c ∧
      Elsewhere c (m.regs .rdi) m.mem m'.mem := by
  have hsteps := Machine.steps_leave m
    (pushes ++ [.store .rbp 0 .rdi, .store .rsp 8 .rdi] ++ restore .rsi ++ [.mov .rdx .rax]) .ret
    (hrip ▸ T.swap_code) (by decide)
  obtain ⟨hrsp, hsame, -, -⟩ := block_pushes hc
  obtain ⟨hsaved, hother⟩ := savedMem_suspended hc hsep.frame_src
  obtain ⟨m₁, hm₁⟩ : ∃ m₁, m₁ = m.block (pushes ++ [.store .rbp 0 .rdi, .store .rsp 8 .rdi]) :=
    ⟨_, rfl⟩
  have hmem₁ : m₁.mem = savedMem m (m.regs .rdi) c := by
    have hzero : m.regs .rdi + 0 = m.regs .rdi := BitVec.add_zero _
    simp only [hm₁, Machine.block_append, Machine.block_cons, Machine.block_nil,
      Machine.exec_store_mem, Machine.exec_store_regs, hsame .rdi (by decide),
      hsame .rbp (by decide), hrsp, hzero, hc.regs .rbp (by decide) (by decide)]
    rfl
  have hregs₁ : ∀ r, r ≠ .rsp → m₁.regs r = m.regs r := fun r hr => by
    simp only [hm₁, Machine.block_append, Machine.block_cons, Machine.block_nil,
      Machine.exec_store_regs, hsame r hr]
  have hdst : Suspended m₁.mem (m₁.regs .rsi) d := by
    rw [hregs₁ .rsi (by decide), hmem₁]
    exact hd.congr (fun x hx => hother x (fun h => hsep.frames x h hx)
      fun h => hsep.src_frame x h hx) fun x hx => hother x (fun h => hsep.frame_dst x h hx)
      fun h => hsep.envs x h hx
  obtain ⟨hcalled, hmem₂, hregs₂⟩ := block_restore m₁ (by decide) hdst
  obtain ⟨m₂, hm₂⟩ : ∃ m₂, m₂ = (m₁.block (restore .rsi)).exec (.mov .rdx .rax) := ⟨_, rfl⟩
  have hcalled₂ : Called m₂ d := by
    have hkeep : ∀ r, r ≠ .rax → m₂.regs r = (m₁.block (restore .rsi)).regs r := fun r hr => by
      rw [hm₂, Machine.exec_mov_regs, Function.update_of_ne hr]
    refine ⟨fun r hr hne => ?_, ?_, ?_⟩
    · rw [hkeep r (by rintro rfl; revert hr; decide)]
      exact hcalled.regs r hr hne
    · rw [hkeep .rsp (by decide), hcalled.rsp]
    · rw [hkeep .rsp (by decide), hm₂, Machine.exec_mov_mem, hcalled.ret]
  have hmem : m₂.mem = savedMem m (m.regs .rdi) c := by
    rw [hm₂, Machine.exec_mov_mem, hmem₂, hmem₁]
  have hvalue : m₂.regs .rax = m.regs .rdx := by
    rw [hm₂, Machine.exec_mov_regs, Function.update_self, hregs₂ .rdx (by decide),
      hregs₁ .rdx (by decide)]
  have hend : m.block (pushes ++ [.store .rbp 0 .rdi, .store .rsp 8 .rdi] ++ restore .rsi ++
      [.mov .rdx .rax]) = m₂ := by
    rw [Machine.block_append, Machine.block_append, ← hm₁, hm₂]
    rfl
  rw [hend] at hsteps
  refine ⟨m₂.exec .ret, hsteps, hvalue ▸ hcalled₂.returned, ?_, ?_⟩
  · change Suspended m₂.mem _ _
    rw [hmem]
    exact hsaved
  · change Elsewhere c (m.regs .rdi) m.mem m₂.mem
    rw [hmem]
    exact hother

/-- The first half of `law_cor_call_x86_64`, up to its call. -/
def callEnter : List Instr :=
  pushes ++ [.mov .rdi .r15, .store .rbp 0 .r15, .store .rsp 8 .r15] ++
    [.load 0 .rsi .rbp, .load 8 .rsi .rsp]

/-- Where the function called by `law_cor_call_x86_64` returns to. -/
def Text.callReturn (T : Text) : Word := T.callEntry + 11

theorem Text.enter_code (T : Text) : CodeAt T.code T.callEntry (callEnter ++ [.call .rcx]) :=
  (CodeAt.append (callEnter ++ [.call .rcx]) (restore .r15 ++ [.ret]) T.call_code).1

theorem Text.leave_code (T : Text) : CodeAt T.code T.callReturn (restore .r15 ++ [.ret]) :=
  (CodeAt.append (callEnter ++ [.call .rcx]) (restore .r15 ++ [.ret]) T.call_code).2

/-- The coroutine's function begins on its own stack, with its arguments. -/
structure Entered (T : Text) (m m' : Machine) (top : Word) : Prop where
  rip : m'.rip = m.regs .rcx
  rsp : m'.regs .rsp = top - 8
  ret : m'.mem.load (top - 8) = T.callReturn
  env : m'.regs .r15 = m.regs .rdi
  args : ∀ r ∈ [Reg.rdi, .rsi, .rdx], m'.regs r = m.regs r

/-- The ranges that a call of a coroutine works on do not overlap. -/
structure Fresh (c : Context) (src dst top : Word) : Prop where
  frame_src : Apart (c.regs .rsp - 48) 48 src 16
  frame_dst : Apart (c.regs .rsp - 48) 48 dst 16
  envs : Apart src 16 dst 16
  frame_top : Apart (c.regs .rsp - 48) 48 (top - 8) 8
  src_top : Apart src 16 (top - 8) 8

/-- `law_cor_call_x86_64` suspends the context it is called in and calls the
function on the stack of its coroutine. -/
theorem call_spec {T : Text} {m : Machine} {c : Context} {top : Word} (hrip : m.rip = T.callEntry)
    (hc : Called m c) (hbase : m.mem.load (m.regs .rsi) = top)
    (hstack : m.mem.load (m.regs .rsi + 8) = top)
    (hfresh : Fresh c (m.regs .rdi) (m.regs .rsi) top) :
    ∃ m', Machine.steps T.code (callEnter.length + 1) m = some m' ∧ Entered T m m' top ∧
      Suspended m'.mem (m.regs .rdi) c ∧
      ∀ x, ¬ Covers (top - 8) 8 x → ¬ Covers (c.regs .rsp - 48) 48 x →
        ¬ Covers (m.regs .rdi) 16 x → m'.mem x = m.mem x := by
  have hsteps := Machine.steps_leave m callEnter (.call .rcx)
    (hrip ▸ T.enter_code) (by decide)
  obtain ⟨hrsp, hsame, -, -⟩ := block_pushes hc
  obtain ⟨hsaved, hother⟩ := savedMem_suspended hc hfresh.frame_src
  obtain ⟨m₁, hm₁⟩ : ∃ m₁, m₁ =
      m.block (pushes ++ [.mov .rdi .r15, .store .rbp 0 .r15, .store .rsp 8 .r15]) := ⟨_, rfl⟩
  have hr15 : m₁.regs .r15 = m.regs .rdi := by
    simp only [hm₁, Machine.block_append, Machine.block_cons, Machine.block_nil,
      Machine.exec_store_regs, Machine.exec_mov_regs, Function.update_self,
      hsame .rdi (by decide)]
  have hregs₁ : ∀ r, r ≠ .rsp → r ≠ .r15 → m₁.regs r = m.regs r := fun r hr hr' => by
    simp only [hm₁, Machine.block_append, Machine.block_cons, Machine.block_nil,
      Machine.exec_store_regs, Machine.exec_mov_regs, Function.update_of_ne hr', hsame r hr]
  have hmem₁ : m₁.mem = savedMem m (m.regs .rdi) c := by
    have hzero : m.regs .rdi + 0 = m.regs .rdi := BitVec.add_zero _
    simp only [hm₁, Machine.block_append, Machine.block_cons, Machine.block_nil,
      Machine.exec_store_mem, Machine.exec_store_regs, Machine.exec_mov_regs,
      Machine.exec_mov_mem, Function.update_self, hsame .rdi (by decide), hzero]
    rw [Function.update_of_ne (by decide), Function.update_of_ne (by decide),
      hsame .rbp (by decide), hrsp, hc.regs .rbp (by decide) (by decide)]
    rfl
  have hload : ∀ a, (∀ x, Covers a 8 x → Covers (m.regs .rsi) 16 x) →
      m₁.mem.load a = m.mem.load a := by
    intro a ha
    rw [hmem₁]
    exact Memory.load_congr fun x hx => hother x (fun h => hfresh.frame_dst x h (ha x hx))
      fun h => hfresh.envs x h (ha x hx)
  obtain ⟨m₂, hm₂⟩ : ∃ m₂, m₂ = m₁.block [.load 0 .rsi .rbp, .load 8 .rsi .rsp] := ⟨_, rfl⟩
  have hmem₂ : m₂.mem = savedMem m (m.regs .rdi) c := by
    simp only [hm₂, Machine.block_cons, Machine.block_nil, Machine.exec_load_mem, hmem₁]
  have hregs₂ : m₂.regs = Function.update (Function.update m₁.regs .rbp top) .rsp top := by
    have hzero : m.regs .rsi + 0 = m.regs .rsi := BitVec.add_zero _
    simp only [hm₂, Machine.block_cons, Machine.block_nil, Machine.exec_load_mem,
      Machine.exec_load_regs]
    rw [Function.update_of_ne (by decide), hregs₁ .rsi (by decide) (by decide), hzero,
      hload _ fun x hx => covers_first hx, hbase, hload _ fun x hx => covers_second hx, hstack]
  have hend : m.block callEnter = m₂ := by
    rw [callEnter, Machine.block_append, ← hm₁, hm₂]
  have hrip₂ : m₂.rip + 1 = T.callReturn := by
    rw [← hend, Machine.block_rip _ (by decide), hrip, Text.callReturn, BitVec.add_assoc]
    rfl
  rw [hend] at hsteps
  have hregs : ∀ r, r ≠ .rsp → r ≠ .rbp → (m₂.exec (.call .rcx)).regs r = m₁.regs r := by
    intro r hr hr'
    rw [Machine.exec_call_regs, Function.update_of_ne hr, hregs₂, Function.update_of_ne hr,
      Function.update_of_ne hr']
  have hrsp₂ : m₂.regs .rsp = top := by rw [hregs₂, Function.update_self]
  have hmem : (m₂.exec (.call .rcx)).mem =
      (savedMem m (m.regs .rdi) c).store (top - 8) T.callReturn := by
    rw [Machine.exec_call_mem, hmem₂, hrsp₂, hrip₂]
  refine ⟨_, hsteps, ⟨?_, ?_, ?_, ?_, ?_⟩, ?_, fun x htop hframe henv => ?_⟩
  · change m₂.regs .rcx = _
    rw [hregs₂, Function.update_of_ne (by decide), Function.update_of_ne (by decide)]
    exact hregs₁ .rcx (by decide) (by decide)
  · rw [Machine.exec_call_regs, Function.update_self, hrsp₂]
  · rw [hmem, Memory.load_store]
  · rw [hregs .r15 (by decide) (by decide), hr15]
  · intro r hr
    have hne : r ≠ .rsp ∧ r ≠ .rbp ∧ r ≠ .r15 := by
      revert hr
      cases r <;> decide
    rw [hregs r hne.1 hne.2.1, hregs₁ r hne.1 hne.2.2]
  · rw [hmem]
    exact hsaved.congr
      (fun x hx => Memory.store_of_not_covers _ _ fun h => hfresh.frame_top x hx h)
      fun x hx => Memory.store_of_not_covers _ _ fun h => hfresh.src_top x hx h
  · rw [hmem, Memory.store_of_not_covers _ _ htop]
    exact hother x hframe henv

/-- When its function has returned, `law_cor_call_x86_64` returns the value in
the context suspended in its first environment. -/
theorem leave_spec {T : Text} {m : Machine} {c : Context} (hrip : m.rip = T.callReturn)
    (hc : Suspended m.mem (m.regs .r15) c) :
    ∃ m', Machine.steps T.code ((restore .r15).length + 1) m = some m' ∧
      Returned m' c (m.regs .rax) ∧ m'.mem = m.mem := by
  have hsteps := Machine.steps_leave m (restore .r15) .ret
    (hrip ▸ T.leave_code) (by decide)
  obtain ⟨hcalled, hmem, hregs⟩ := block_restore m (by decide) hc
  refine ⟨_, hsteps, ?_, hmem⟩
  rw [← hregs .rax (by decide)]
  exact hcalled.returned

end Lawd

import Lawd.Library.Bytes
import Mathlib.Data.List.GetD
import Mathlib.Data.List.Nodup
import Mathlib.Logic.Function.Basic
import Mathlib.Tactic.SplitIfs

/-!
# A machine with a stack

The instructions of x86-64 that move words between registers and memory and
that transfer control. Memory is an array of bytes, words are little-endian, and
an address of code counts instructions. Runs of pushes and of pops are
summarised by the words they leave on the stack.
-/
namespace Lawd.Library

/-- A machine word, or an address. -/
abbrev Word := BitVec 64

/-- The general purpose registers. -/
inductive Reg where
  | rax | rbx | rcx | rdx | rsi | rdi | rbp | rsp
  | r8 | r9 | r10 | r11 | r12 | r13 | r14 | r15
  deriving DecidableEq, Repr

/-- The byte at `x` is one of the `n` bytes from `a` on. -/
def Covers (a : Word) (n : ℕ) (x : Word) : Prop := (x - a).toNat < n

instance (a : Word) (n : ℕ) (x : Word) : Decidable (Covers a n x) :=
  inferInstanceAs (Decidable ((x - a).toNat < n))

/-- No byte is in both ranges. -/
def Apart (a : Word) (n : ℕ) (b : Word) (k : ℕ) : Prop := ∀ x, Covers a n x → ¬ Covers b k x

theorem Apart.symm {a b : Word} {n k : ℕ} (h : Apart a n b k) : Apart b k a n :=
  fun x hb ha => h x ha hb

/-- Bytes of memory. -/
abbrev Memory := Word → UInt8

namespace Memory

/-- Read a word. -/
def load (mem : Memory) (a : Word) : Word :=
  BitVec.ofNat 64 (Endian.little.load ((List.range 8).map fun i => mem (a + BitVec.ofNat 64 i)))

/-- Write a word. -/
def store (mem : Memory) (a v : Word) : Memory := fun x =>
  (Endian.little.store 8 v.toNat).getD (x - a).toNat (mem x)

theorem sub_offset (a : Word) {i : ℕ} (h : i < 2 ^ 64) : (a + BitVec.ofNat 64 i - a).toNat = i := by
  have hcancel : a + BitVec.ofNat 64 i - a = BitVec.ofNat 64 i := by
    rw [BitVec.add_comm, BitVec.add_sub_cancel]
  rw [hcancel, BitVec.toNat_ofNat, Nat.mod_eq_of_lt h]

@[simp] theorem load_store (mem : Memory) (a v : Word) : (mem.store a v).load a = v := by
  have hbytes : (List.range 8).map (fun i => mem.store a v (a + BitVec.ofNat 64 i)) =
      Endian.little.store 8 v.toNat := by
    refine List.ext_getElem (by simp) fun i hi hi' => ?_
    simp only [List.length_map, List.length_range] at hi
    simp only [List.getElem_map, List.getElem_range, store, sub_offset a (show i < 2 ^ 64 by omega)]
    exact List.getD_eq_getElem _ _ hi'
  rw [load, hbytes, Endian.load_store_of_lt _ v.isLt, BitVec.ofNat_toNat, BitVec.setWidth_eq]

theorem store_of_not_covers (mem : Memory) {a x : Word} (v : Word) (h : ¬ Covers a 8 x) :
    mem.store a v x = mem x :=
  List.getD_eq_default _ _ (by simpa [Covers] using h)

theorem load_congr {mem mem' : Memory} {a : Word} (h : ∀ x, Covers a 8 x → mem' x = mem x) :
    mem'.load a = mem.load a := by
  refine congrArg (fun bytes => BitVec.ofNat 64 (Endian.little.load bytes)) ?_
  refine List.map_congr_left fun i hi => h _ ?_
  have hi' := List.mem_range.mp hi
  rw [Covers, sub_offset a (by omega)]
  exact hi'

theorem load_store_apart (mem : Memory) {a b : Word} (v : Word) (h : Apart a 8 b 8) :
    (mem.store b v).load a = mem.load a :=
  load_congr fun x hx => mem.store_of_not_covers v (h x hx)

/-- The words lie one after the other from `a` on. -/
def Holds (mem : Memory) (a : Word) : List Word → Prop
  | [] => True
  | w :: ws => mem.load a = w ∧ Holds mem (a + 8) ws

theorem covers_mono {a : Word} {n k : ℕ} (h : n ≤ k) {x : Word} (hx : Covers a n x) :
    Covers a k x := lt_of_lt_of_le hx h

/-- The bytes after the first `n`. -/
theorem covers_shift {a x : Word} {n k : ℕ} (hk : n + k < 2 ^ 64)
    (hx : Covers (a + BitVec.ofNat 64 n) k x) : Covers a (n + k) x := by
  unfold Covers at hx ⊢
  have hsub : (x - a).toNat = ((x - (a + BitVec.ofNat 64 n)).toNat + n) % 2 ^ 64 := by
    have hsplit : x - a = x - (a + BitVec.ofNat 64 n) + BitVec.ofNat 64 n := by
      rw [← BitVec.sub_sub, BitVec.sub_add_cancel]
    rw [hsplit, BitVec.toNat_add, BitVec.toNat_ofNat, Nat.add_mod_mod]
  rw [hsub, Nat.mod_eq_of_lt (by omega)]
  omega

theorem apart_shift {a : Word} {n k : ℕ} (hk : n + k < 2 ^ 64) :
    Apart (a + BitVec.ofNat 64 n) k a n := by
  intro x hx hx'
  unfold Covers at hx hx'
  have hsplit : x - a = x - (a + BitVec.ofNat 64 n) + BitVec.ofNat 64 n := by
    rw [← BitVec.sub_sub, BitVec.sub_add_cancel]
  rw [hsplit, BitVec.toNat_add, BitVec.toNat_ofNat, Nat.add_mod_mod,
    Nat.mod_eq_of_lt (by omega)] at hx'
  omega

theorem Holds.congr {mem mem' : Memory} {a : Word} {ws : List Word} (h : mem.Holds a ws)
    (hlen : 8 * ws.length < 2 ^ 64) (hmem : ∀ x, Covers a (8 * ws.length) x → mem' x = mem x) :
    mem'.Holds a ws := by
  induction ws generalizing a with
  | nil => trivial
  | cons w ws ih =>
    simp only [List.length_cons] at hlen hmem
    refine ⟨(load_congr fun x hx => hmem x (covers_mono (by omega) hx)).trans h.1,
      ih h.2 (by omega) fun x hx => hmem x ?_⟩
    have hshift := covers_shift (n := 8) (k := 8 * ws.length) (by omega) hx
    exact covers_mono (by omega) hshift

@[simp] theorem holds_append {mem : Memory} {a : Word} {ws vs : List Word} :
    mem.Holds a (ws ++ vs) ↔
      mem.Holds a ws ∧ mem.Holds (a + BitVec.ofNat 64 (8 * ws.length)) vs := by
  induction ws generalizing a with
  | nil => simp [Holds]
  | cons w ws ih =>
    have hnext : a + 8 + BitVec.ofNat 64 (8 * ws.length) =
        a + BitVec.ofNat 64 (8 * (w :: ws).length) := by
      rw [BitVec.add_assoc]
      refine congrArg (a + ·) ?_
      rw [List.length_cons, Nat.mul_succ, Nat.add_comm, BitVec.ofNat_add]
      rfl
    simp only [List.cons_append, Holds, ih, hnext, and_assoc]

end Memory

/-- Instructions, in the operand order of the assembler. -/
inductive Instr where
  | push (r : Reg)
  | pop (r : Reg)
  | mov (src dst : Reg)
  | store (src : Reg) (offset : Word) (base : Reg)
  | load (offset : Word) (base dst : Reg)
  | call (r : Reg)
  | ret
  deriving DecidableEq, Repr

/-- Registers, the address of the next instruction, and memory. -/
structure Machine where
  regs : Reg → Word
  rip : Word
  mem : Memory

namespace Machine

/-- Write a register. -/
def set (m : Machine) (r : Reg) (v : Word) : Machine :=
  { m with regs := Function.update m.regs r v }

/-- Put a word on the stack. -/
def pushWord (m : Machine) (v : Word) : Machine :=
  { m with regs := Function.update m.regs .rsp (m.regs .rsp - 8),
           mem := m.mem.store (m.regs .rsp - 8) v }

/-- Execute one instruction. -/
def exec (m : Machine) : Instr → Machine
  | .push r => { m.pushWord (m.regs r) with rip := m.rip + 1 }
  | .pop r =>
    { (m.set .rsp (m.regs .rsp + 8)).set r (m.mem.load (m.regs .rsp)) with rip := m.rip + 1 }
  | .mov src dst => { m.set dst (m.regs src) with rip := m.rip + 1 }
  | .store src offset base =>
    { m with mem := m.mem.store (m.regs base + offset) (m.regs src), rip := m.rip + 1 }
  | .load offset base dst =>
    { m.set dst (m.mem.load (m.regs base + offset)) with rip := m.rip + 1 }
  | .call r => { m.pushWord (m.rip + 1) with rip := m.regs r }
  | .ret => { m.set .rsp (m.regs .rsp + 8) with rip := m.mem.load (m.regs .rsp) }

/-- Execute the instruction that is next in the given code. -/
def step (code : Word → Option Instr) (m : Machine) : Option Machine := (code m.rip).map m.exec

/-- Execute a number of instructions. -/
def steps (code : Word → Option Instr) : ℕ → Machine → Option Machine
  | 0, m => some m
  | n + 1, m => (m.step code).bind (steps code n)

/-- Execute a piece of straight-line code. -/
def block (m : Machine) (is : List Instr) : Machine := is.foldl exec m

@[simp] theorem block_nil (m : Machine) : m.block [] = m := rfl

@[simp] theorem block_cons (m : Machine) (i : Instr) (is : List Instr) :
    m.block (i :: is) = (m.exec i).block is := rfl

@[simp] theorem block_append (m : Machine) (is js : List Instr) :
    m.block (is ++ js) = (m.block is).block js := List.foldl_append

end Machine

/-- The instruction goes on with the one after it. -/
def Instr.straight : Instr → Bool
  | call _ | ret => false
  | _ => true

/-- The code has the instructions one after the other from an address on. -/
def CodeAt (code : Word → Option Instr) (a : Word) : List Instr → Prop
  | [] => True
  | i :: is => code a = some i ∧ CodeAt code (a + 1) is

instance instDecidableCodeAt (code : Word → Option Instr) :
    (a : Word) → (is : List Instr) → Decidable (CodeAt code a is)
  | _, [] => .isTrue trivial
  | a, i :: is =>
    have := instDecidableCodeAt code (a + 1) is
    inferInstanceAs (Decidable (code a = some i ∧ CodeAt code (a + 1) is))

theorem CodeAt.append {code : Word → Option Instr} {a : Word} (is js : List Instr)
    (h : CodeAt code a (is ++ js)) :
    CodeAt code a is ∧ CodeAt code (a + BitVec.ofNat 64 is.length) js := by
  induction is generalizing a with
  | nil => exact ⟨trivial, by simpa using h⟩
  | cons i is ih =>
    obtain ⟨hi, hrest⟩ := h
    obtain ⟨his, hjs⟩ := ih hrest
    refine ⟨⟨hi, his⟩, ?_⟩
    have hnext : a + 1 + BitVec.ofNat 64 is.length = a + BitVec.ofNat 64 (i :: is).length := by
      rw [BitVec.add_assoc]
      refine congrArg (a + ·) ?_
      rw [List.length_cons, Nat.add_comm, BitVec.ofNat_add]
      rfl
    rwa [hnext] at hjs

namespace Machine

theorem steps_add (code : Word → Option Instr) (n k : ℕ) (m : Machine) :
    steps code (n + k) m = (steps code n m).bind (steps code k) := by
  induction n generalizing m with
  | zero => rw [Nat.zero_add]; rfl
  | succ n ih =>
    rw [Nat.succ_add]
    simp only [steps]
    cases step code m with
    | none => rfl
    | some m' => exact ih m'

@[simp] theorem exec_rip (m : Machine) {i : Instr} (h : i.straight = true) :
    (m.exec i).rip = m.rip + 1 := by
  cases i with
  | call r => cases h
  | ret => cases h
  | _ => rfl

theorem steps_block {code : Word → Option Instr} {is : List Instr} (m : Machine)
    (hcode : CodeAt code m.rip is) (hs : ∀ i ∈ is, i.straight = true) :
    steps code is.length m = some (m.block is) := by
  induction is generalizing m with
  | nil => rfl
  | cons i is ih =>
    obtain ⟨hi, hrest⟩ := hcode
    rw [List.length_cons, steps, step, hi]
    refine ih (m.exec i) ?_ fun j hj => hs j (List.mem_cons_of_mem _ hj)
    rwa [exec_rip m (hs i List.mem_cons_self)]

theorem block_rip (m : Machine) {is : List Instr} (hs : ∀ i ∈ is, i.straight = true) :
    (m.block is).rip = m.rip + BitVec.ofNat 64 is.length := by
  induction is generalizing m with
  | nil => simp
  | cons i is ih =>
    rw [block_cons, ih _ fun j hj => hs j (List.mem_cons_of_mem _ hj),
      exec_rip m (hs i List.mem_cons_self), BitVec.add_assoc]
    refine congrArg (m.rip + ·) ?_
    rw [List.length_cons, Nat.add_comm, BitVec.ofNat_add]
    rfl

theorem steps_leave {code : Word → Option Instr} (m : Machine) (is : List Instr) (j : Instr)
    (hcode : CodeAt code m.rip (is ++ [j])) (hs : ∀ i ∈ is, i.straight = true) :
    steps code (is.length + 1) m = some ((m.block is).exec j) := by
  obtain ⟨his, hj, -⟩ := hcode.append is [j]
  rw [← block_rip m hs] at hj
  rw [steps_add, steps_block m his hs, Option.bind_some, steps, step, hj]
  rfl

@[simp] theorem exec_push_regs (m : Machine) (r : Reg) :
    (m.exec (.push r)).regs = Function.update m.regs .rsp (m.regs .rsp - 8) := rfl

@[simp] theorem exec_push_mem (m : Machine) (r : Reg) :
    (m.exec (.push r)).mem = m.mem.store (m.regs .rsp - 8) (m.regs r) := rfl

@[simp] theorem exec_mov_regs (m : Machine) (src dst : Reg) :
    (m.exec (.mov src dst)).regs = Function.update m.regs dst (m.regs src) := rfl

@[simp] theorem exec_mov_mem (m : Machine) (src dst : Reg) :
    (m.exec (.mov src dst)).mem = m.mem := rfl

@[simp] theorem exec_store_regs (m : Machine) (src base : Reg) (offset : Word) :
    (m.exec (.store src offset base)).regs = m.regs := rfl

@[simp] theorem exec_store_mem (m : Machine) (src base : Reg) (offset : Word) :
    (m.exec (.store src offset base)).mem =
      m.mem.store (m.regs base + offset) (m.regs src) := rfl

@[simp] theorem exec_load_regs (m : Machine) (base dst : Reg) (offset : Word) :
    (m.exec (.load offset base dst)).regs =
      Function.update m.regs dst (m.mem.load (m.regs base + offset)) := rfl

@[simp] theorem exec_load_mem (m : Machine) (base dst : Reg) (offset : Word) :
    (m.exec (.load offset base dst)).mem = m.mem := rfl

@[simp] theorem exec_call_regs (m : Machine) (r : Reg) :
    (m.exec (.call r)).regs = Function.update m.regs .rsp (m.regs .rsp - 8) := rfl

@[simp] theorem exec_call_mem (m : Machine) (r : Reg) :
    (m.exec (.call r)).mem = m.mem.store (m.regs .rsp - 8) (m.rip + 1) := rfl

@[simp] theorem exec_pop_regs (m : Machine) (r : Reg) : (m.exec (.pop r)).regs =
    Function.update (Function.update m.regs .rsp (m.regs .rsp + 8)) r
      (m.mem.load (m.regs .rsp)) := rfl

/-- What pushing registers leaves: the words lie on the stack, the last one
pushed first, and nothing else has changed. -/
structure Pushed (rs : List Reg) (m m' : Machine) : Prop where
  top : m'.regs .rsp = m.regs .rsp - BitVec.ofNat 64 (8 * rs.length)
  regs : ∀ r, r ≠ .rsp → m'.regs r = m.regs r
  words : m'.mem.Holds (m'.regs .rsp) (rs.reverse.map m.regs)
  others : ∀ x, ¬ Covers (m'.regs .rsp) (8 * rs.length) x → m'.mem x = m.mem x

theorem block_push {rs : List Reg} (m : Machine) (hrs : Reg.rsp ∉ rs)
    (hlen : 8 * rs.length < 2 ^ 64) : Pushed rs m (m.block (rs.map .push)) := by
  induction rs generalizing m with
  | nil => exact ⟨by simp, fun _ _ => rfl, trivial, fun _ _ => rfl⟩
  | cons r rs ih =>
    rw [List.length_cons] at hlen
    have hr : Reg.rsp ∉ rs := fun h => hrs (List.mem_cons_of_mem _ h)
    have hsame : ∀ q, q ≠ Reg.rsp → (m.exec (.push r)).regs q = m.regs q :=
      fun q hq => by rw [exec_push_regs, Function.update_of_ne hq]
    have hrsp : (m.exec (.push r)).regs .rsp = m.regs .rsp - 8 := by
      rw [exec_push_regs, Function.update_self]
    have hp := ih (m.exec (.push r)) hr (by omega)
    rw [List.map_cons, block_cons]
    have hsub : m.regs .rsp - 8 - BitVec.ofNat 64 (8 * rs.length) =
        m.regs .rsp - BitVec.ofNat 64 (8 * (r :: rs).length) := by
      rw [BitVec.sub_sub, List.length_cons, Nat.mul_succ, Nat.add_comm, BitVec.ofNat_add]
      rfl
    have htop : ((m.exec (.push r)).block (rs.map .push)).regs .rsp +
        BitVec.ofNat 64 (8 * rs.length) = m.regs .rsp - 8 := by
      rw [hp.top, hrsp, BitVec.sub_add_cancel]
    refine ⟨by rw [hp.top, hrsp, hsub], fun q hq => (hp.regs q hq).trans (hsame q hq), ?_, ?_⟩
    · have hmap : rs.reverse.map (m.exec (.push r)).regs = rs.reverse.map m.regs :=
        List.map_congr_left fun q hq => hsame q fun h => hr (h ▸ List.mem_reverse.mp hq)
      have hwords := hp.words
      rw [hmap] at hwords
      rw [List.reverse_cons, List.map_append, Memory.holds_append]
      refine ⟨hwords, ?_, trivial⟩
      rw [List.length_map, List.length_reverse, htop]
      have hbase : (m.exec (.push r)).mem.load (m.regs .rsp - 8) = m.regs r := by
        rw [exec_push_mem, Memory.load_store]
      rw [← hbase]
      refine Memory.load_congr fun x hx => hp.others x ?_
      rw [← htop] at hx
      exact Memory.apart_shift (by omega) x hx
    · intro x hx
      rw [List.length_cons] at hx
      rw [hp.others x fun h => hx (Memory.covers_mono (by omega) h), exec_push_mem]
      refine Memory.store_of_not_covers _ _ fun h => hx ?_
      rw [← htop] at h
      exact Memory.covers_mono (by omega) (Memory.covers_shift (by omega) h)

/-- What popping registers leaves: they are the words that lay on the stack. -/
structure Popped (rs : List Reg) (ws : List Word) (m m' : Machine) : Prop where
  top : m'.regs .rsp = m.regs .rsp + BitVec.ofNat 64 (8 * rs.length)
  popped : rs.map m'.regs = ws
  regs : ∀ r, r ≠ .rsp → r ∉ rs → m'.regs r = m.regs r
  mem : m'.mem = m.mem

theorem block_pop {rs : List Reg} {ws : List Word} (m : Machine) (hrs : Reg.rsp ∉ rs)
    (hnd : rs.Nodup) (hlen : ws.length = rs.length) (hws : m.mem.Holds (m.regs .rsp) ws) :
    Popped rs ws m (m.block (rs.map .pop)) := by
  induction rs generalizing m ws with
  | nil =>
    obtain rfl : ws = [] := List.length_eq_zero_iff.mp hlen
    exact ⟨by simp, rfl, fun _ _ _ => rfl, rfl⟩
  | cons r rs ih =>
    cases ws with
    | nil => simp at hlen
    | cons w ws =>
      obtain ⟨hw, hrest⟩ := hws
      have hr : r ≠ .rsp := fun h => hrs (h ▸ List.mem_cons_self)
      have hnot : r ∉ rs := (List.nodup_cons.mp hnd).1
      have hrsp : (m.exec (.pop r)).regs .rsp = m.regs .rsp + 8 := by
        rw [exec_pop_regs, Function.update_of_ne hr.symm, Function.update_self]
      have hself : (m.exec (.pop r)).regs r = w := by
        rw [exec_pop_regs, Function.update_self, hw]
      have hother : ∀ q, q ≠ .rsp → q ≠ r → (m.exec (.pop r)).regs q = m.regs q := by
        intro q hq hqr
        rw [exec_pop_regs, Function.update_of_ne hqr, Function.update_of_ne hq]
      have hp := ih (m.exec (.pop r)) (fun h => hrs (List.mem_cons_of_mem _ h))
        (List.nodup_cons.mp hnd).2 (by simpa using hlen) (by rwa [hrsp])
      rw [List.map_cons, block_cons]
      refine ⟨?_, ?_, fun q hq hqs => ?_, hp.mem⟩
      · rw [hp.top, hrsp, BitVec.add_assoc]
        refine congrArg (m.regs .rsp + ·) ?_
        rw [List.length_cons, Nat.mul_succ, Nat.add_comm, BitVec.ofNat_add]
        rfl
      · rw [List.map_cons, hp.popped, hp.regs r hr hnot, hself]
      · rw [hp.regs q hq fun h => hqs (List.mem_cons_of_mem _ h)]
        exact hother q hq fun h => hqs (h ▸ List.mem_cons_self)

end Machine

end Lawd.Library

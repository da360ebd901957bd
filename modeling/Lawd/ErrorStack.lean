import Lawd.Base
import Lawd.Library.System
import Mathlib.Data.List.Count

/-!
# The error stack

Each thread keeps its last errors in an array of 16, of which those below
`offset` are on the stack. A pop that is given no place for the entry says that it
took one, and takes none.
-/
namespace Lawd

open Library

/-- `law_err_info_t`; the texts are null pointers until the entry is set. -/
structure ErrInfo where
  type : Err
  action : Option String
  file : Option String
  function : Option String
  line : Int32
  deriving DecidableEq, Repr

/-- `LAW_ERR_STACK_MAX`. -/
def errStackMax : ℕ := 16

/-- `law_err_stack_t`. -/
structure ErrStack where
  array : Vector ErrInfo errStackMax
  offset : ℕ
  deriving DecidableEq, Repr

/-- `law_errors` in a thread that starts: the memory is zero. -/
def errStart : ErrStack := ⟨Vector.replicate _ ⟨.ok, none, none, none, 0⟩, 0⟩

/-- `law_err_clear`. -/
def errClear (s : ErrStack) : Option ErrStack :=
  if s.offset ≤ errStackMax then some { s with offset := 0 } else none

/-- `law_err_pop`, told whether it is given a place for the entry: what it
returns, and what it stores there. -/
def errPop (info : Bool) (s : ErrStack) : Option (Bool × Option ErrInfo × ErrStack) :=
  if h : s.offset ≤ errStackMax then
    if h0 : s.offset = 0 then some (false, none, s)
    else if info then
      some (true, some (s.array[s.offset - 1]), { s with offset := s.offset - 1 })
    else some (true, none, s)
  else none

/-- `law_err_push`, which returns the type of the error. -/
def errPush (e : ErrInfo) (s : ErrStack) : Option (Err × ErrStack) :=
  if h : s.offset ≤ errStackMax then
    if h16 : s.offset = errStackMax then some (e.type, s)
    else some (e.type, ⟨s.array.set s.offset e, s.offset + 1⟩)
  else none

/-- The calls on the stack, and whether a pop is given a place for the entry. -/
inductive ErrCall where
  | push (e : ErrInfo)
  | pop (info : Bool)
  | clear
  deriving DecidableEq, Repr

/-- What a call returns, and what it stores in the place it is given. -/
inductive ErrAnswer where
  | type (type : Err)
  | popped (more : Bool) (info : Option ErrInfo)
  | cleared
  deriving DecidableEq, Repr

/-- A call; without an answer, the assertion that it begins with has failed. -/
def errStep (s : ErrStack) : ErrCall → Option (ErrAnswer × ErrStack)
  | .push e => (errPush e s).map fun out => (.type out.1, out.2)
  | .pop info => (errPop info s).map fun out => (.popped out.1 out.2.1, out.2.2)
  | .clear => (errClear s).map fun t => (.cleared, t)

/-- The calls of a thread, one after the other. -/
def errSystem : System ErrStack ErrCall where
  initial s := s = errStart
  step s call := (errStep s call).map Prod.snd

/-- Pop until there is nothing more. Without a result, the loop would go on after
these pops. -/
def popLoop : List Bool → ErrStack → Option ErrStack
  | [], _ => none
  | info :: infos, s =>
    match errPop info s with
    | some (true, _, t) => popLoop infos t
    | some (false, _, t) => some t
    | none => none

/-- The entries, newest first. -/
def ErrStack.entries (s : ErrStack) : List ErrInfo := (s.array.toList.take s.offset).reverse

/-- A last-in first-out store of bounded size. -/
inductive Lifo : List ErrInfo → ErrCall → ErrAnswer → List ErrInfo → Prop
  | push {l : List ErrInfo} (e : ErrInfo) : l.length < errStackMax →
      Lifo l (.push e) (.type e.type) (e :: l)
  | full {l : List ErrInfo} (e : ErrInfo) : l.length = errStackMax →
      Lifo l (.push e) (.type e.type) l
  | pop (e : ErrInfo) (l : List ErrInfo) (info : Bool) :
      Lifo (e :: l) (.pop info) (.popped true (if info then some e else none)) l
  | empty (info : Bool) : Lifo [] (.pop info) (.popped false none) []
  | clear (l : List ErrInfo) : Lifo l .clear .cleared []

theorem Lifo.pop_length {l l' : List ErrInfo} {info : Bool} {stored : Option ErrInfo}
    (h : Lifo l (.pop info) (.popped true stored) l') : l'.length + 1 = l.length := by
  cases h
  rfl

/-- The call answers and keeps the entries as a bounded store does. -/
def KeepsLifo (s : ErrStack) (call : ErrCall) : Prop := ∃ answer t,
  errStep s call = some (answer, t) ∧ t.offset ≤ errStackMax ∧
    Lifo s.entries call answer t.entries

/-- No entry is popped without a place for it. -/
def PopsToPlace (s : ErrStack) (call : ErrCall) : Prop := call = .pop false → s.offset = 0

/-! ### The array -/

theorem entries_length {s : ErrStack} (h : s.offset ≤ errStackMax) :
    s.entries.length = s.offset := by
  simp [ErrStack.entries, h]

@[simp] theorem entries_zero {s : ErrStack} (h : s.offset = 0) : s.entries = [] := by
  simp [ErrStack.entries, h]

theorem entries_succ {array : Vector ErrInfo errStackMax} {n : ℕ} (h : n < errStackMax) :
    ErrStack.entries ⟨array, n + 1⟩ = array[n] :: ErrStack.entries ⟨array, n⟩ := by
  simp [ErrStack.entries, List.take_add_one, h]

theorem entries_set {array : Vector ErrInfo errStackMax} {n : ℕ} (h : n < errStackMax)
    (e : ErrInfo) : ErrStack.entries ⟨array.set n e, n⟩ = ErrStack.entries ⟨array, n⟩ := by
  have htake := List.take_set_of_le (a := e) (l := array.toList) (Nat.le_refl n)
  simp [ErrStack.entries, Vector.toList_set, htake]

/-! ### The calls -/

variable {s t : ErrStack}

theorem errPush_keeps (h : s.offset ≤ errStackMax) (e : ErrInfo) : KeepsLifo s (.push e) := by
  by_cases hfull : s.offset = errStackMax
  · refine ⟨.type e.type, s, ?_, h, .full e (by rw [entries_length h, hfull])⟩
    simp [errStep, errPush, hfull]
  · have hlt : s.offset < errStackMax := by omega
    refine ⟨.type e.type, ⟨s.array.set s.offset e, s.offset + 1⟩, ?_, hlt, ?_⟩
    · simp [errStep, errPush, h, hfull]
    · rw [entries_succ hlt, entries_set hlt, Vector.getElem_set_self]
      exact .push e (by rw [entries_length h]; exact hlt)

@[simp] theorem errPop_empty (h : s.offset = 0) (info : Bool) :
    errPop info s = some (false, none, s) := by
  simp [errPop, h]

theorem errPop_info (h : s.offset ≤ errStackMax) (h0 : s.offset ≠ 0) : ∃ e t,
    errPop true s = some (true, some e, t) ∧ t.offset + 1 = s.offset ∧
      s.entries = e :: t.entries := by
  obtain ⟨array, offset⟩ := s
  obtain ⟨n, rfl⟩ := Nat.exists_eq_succ_of_ne_zero h0
  have hlt : n < errStackMax := h
  refine ⟨array[n], ⟨array, n⟩, ?_, rfl, entries_succ hlt⟩
  simp only [errPop]
  rw [dif_pos h, dif_neg h0]
  rfl

theorem errPop_null (h : s.offset ≤ errStackMax) (h0 : s.offset ≠ 0) :
    errPop false s = some (true, none, s) := by
  simp [errPop, h, h0]

theorem errPop_keeps_iff (h : s.offset ≤ errStackMax) (info : Bool) :
    KeepsLifo s (.pop info) ↔ PopsToPlace s (.pop info) := by
  by_cases h0 : s.offset = 0
  · refine ⟨fun _ _ => h0, fun _ => ⟨.popped false none, s, ?_, h, ?_⟩⟩
    · simp [errStep, errPop_empty h0]
    · rw [entries_zero h0]
      exact .empty info
  · cases info with
    | true =>
      obtain ⟨e, t, hpop, hoffset, hentries⟩ := errPop_info h h0
      refine ⟨fun _ => nofun, fun _ => ⟨.popped true (some e), t, ?_, by omega, ?_⟩⟩
      · simp [errStep, hpop]
      · rw [hentries]
        exact .pop e t.entries true
    | false =>
      refine ⟨?_, fun hplace => absurd (hplace rfl) h0⟩
      rintro ⟨answer, t, hstep, -, hlifo⟩
      simp only [errStep, errPop_null h h0, Option.map_some, Option.some.injEq,
        Prod.mk.injEq] at hstep
      obtain ⟨rfl, rfl⟩ := hstep
      have hlen := hlifo.pop_length
      omega

theorem errStep_keeps_iff (h : s.offset ≤ errStackMax) (call : ErrCall) :
    KeepsLifo s call ↔ PopsToPlace s call := by
  cases call with
  | push e => exact ⟨fun _ => nofun, fun _ => errPush_keeps h e⟩
  | pop info => exact errPop_keeps_iff h info
  | clear =>
    refine ⟨fun _ => nofun, fun _ => ⟨.cleared, { s with offset := 0 }, ?_, ?_, ?_⟩⟩
    · simp [errStep, errClear, h]
    · exact Nat.zero_le _
    · rw [entries_zero (s := { s with offset := 0 }) rfl]
      exact .clear _

/-! ### Runs -/

theorem errStep_bounded (call : ErrCall) (h : s.offset ≤ errStackMax) :
    ∃ answer t, errStep s call = some (answer, t) ∧ t.offset ≤ errStackMax := by
  by_cases hplace : PopsToPlace s call
  · obtain ⟨answer, t, hstep, hbound, -⟩ := (errStep_keeps_iff h call).mpr hplace
    exact ⟨answer, t, hstep, hbound⟩
  · obtain ⟨rfl, h0⟩ : call = .pop false ∧ s.offset ≠ 0 := by
      simpa [PopsToPlace] using hplace
    exact ⟨.popped true none, s, by simp [errStep, errPop_null h h0], h⟩

theorem errSystem_bounded (h : errSystem.Reachable s) : s.offset ≤ errStackMax := by
  refine System.Reach.invariant (P := fun s => s.offset ≤ errStackMax) ?_ ?_ h
  · rintro s rfl
    exact Nat.zero_le _
  · intro s call t _ hs _ hst
    obtain ⟨answer, t', hstep, hbound⟩ := errStep_bounded call hs
    obtain rfl : t' = t := by simpa [errSystem, hstep] using hst
    exact hbound

theorem popLoop_iff (infos : List Bool) (info : Bool) (h : s.offset ≤ errStackMax) :
    (popLoop (infos ++ [info]) s).isSome = true ↔ s.offset ≤ infos.count true := by
  induction infos generalizing s with
  | nil =>
    by_cases h0 : s.offset = 0
    · simp [popLoop, h0]
    · cases info with
      | true =>
        obtain ⟨e, t, hpop, -, -⟩ := errPop_info h h0
        simp [popLoop, hpop, h0]
      | false => simp [popLoop, errPop_null h h0, h0]
  | cons info' infos ih =>
    by_cases h0 : s.offset = 0
    · simp [popLoop, h0]
    · cases info' with
      | true =>
        obtain ⟨e, t, hpop, hoffset, -⟩ := errPop_info h h0
        have hrest := ih (s := t) (by omega)
        simp only [List.cons_append, popLoop, hpop, List.count_cons_self]
        rw [hrest]
        omega
      | false =>
        simp only [List.cons_append, popLoop, errPop_null h h0, ih h]
        simp

theorem errSystem_run (h : errSystem.Reachable s) (calls : List ErrCall) :
    ∃ t, errSystem.run s calls = some t ∧ errSystem.Reachable t := by
  induction calls generalizing s with
  | nil => exact ⟨s, rfl, h⟩
  | cons call calls ih =>
    obtain ⟨answer, t, hstep, -⟩ := errStep_bounded call (errSystem_bounded h)
    have hst : errSystem.step s call = some t := by simp [errSystem, hstep]
    obtain ⟨u, hrun, hu⟩ := ih (.step h trivial hst)
    exact ⟨u, by simp [System.run, hst, hrun], hu⟩

/-- A run behaves as a bounded store does, step for step, as long as no entry is
popped without a place for it, and no longer. Its state never exceeds the bound,
and a loop of pops ends within 16 of them if enough of these have a place. -/
theorem err_stack_lifo_iff (calls : List ErrCall) :
    (errSystem.Along KeepsLifo errStart calls ↔ errSystem.Along PopsToPlace errStart calls) ∧
    ∃ s, errSystem.run errStart calls = some s ∧ s.offset ≤ errStackMax ∧
      ∀ (infos : Vector Bool errStackMax) (info : Bool),
        (popLoop (infos.toList ++ [info]) s).isSome = true ↔
          s.offset ≤ infos.toList.count true := by
  have hstart : errSystem.Reachable errStart := .init rfl
  obtain ⟨s, hrun, hs⟩ := errSystem_run hstart calls
  have hbound := errSystem_bounded hs
  refine ⟨?_, s, hrun, hbound, fun infos info => popLoop_iff infos.toList info hbound⟩
  refine hstart.along_congr (fun s call hs => ?_) calls
  exact errStep_keeps_iff (errSystem_bounded hs) call

/-- One entry, popped without a place: the stack is as before, and a loop of such
pops never ends. -/
theorem err_pop_null_stays :
    ¬ errSystem.Along KeepsLifo errStart [.push ⟨.oom, none, none, none, 0⟩, .pop false] ∧
    ∃ s, errSystem.run errStart [.push ⟨.oom, none, none, none, 0⟩] = some s ∧
      ∀ n, popLoop (List.replicate n false) s = none := by
  obtain ⟨s, hrun, hbound, h0⟩ : ∃ s, errSystem.run errStart
      [.push ⟨.oom, none, none, none, 0⟩] = some s ∧ s.offset ≤ errStackMax ∧ s.offset ≠ 0 :=
    ⟨_, rfl, by decide, by decide⟩
  refine ⟨?_, s, hrun, fun n => ?_⟩
  · rintro ⟨-, h⟩
    have hpop := (h s (by simpa [System.run] using hrun)).1
    exact h0 ((errPop_keeps_iff hbound false).mp hpop rfl)
  · induction n with
    | zero => rfl
    | succ n ih =>
      rw [List.replicate_succ, popLoop, errPop_null hbound h0]
      exact ih

end Lawd

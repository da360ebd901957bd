import Mathlib.Algebra.Ring.Nat
import Mathlib.Data.Option.Basic
import Mathlib.Tactic.SplitIfs

/-!
# Labelled transition systems and their invariants

A step is a partial function of a label: the label carries every choice the
environment makes, so that a run is a list of labels. An invariant is proved
once from its step lemma; a property of the runs that keep a side condition is
an invariant of the states reached under that condition.
-/
namespace Lawd.Library

/-- A transition system: its initial states, and what each label does. -/
structure System (σ α : Type*) where
  initial : σ → Prop
  step : σ → α → Option σ

namespace System

variable {σ α : Type*} (M : System σ α)

/-- States reached by the runs whose steps all meet `ok` in the state before. -/
inductive Reach (ok : σ → α → Prop) : σ → Prop
  | init {s : σ} : M.initial s → Reach ok s
  | step {s : σ} {a : α} {t : σ} : Reach ok s → ok s a → M.step s a = some t → Reach ok t

/-- States reached by any run at all. -/
def Reachable (s : σ) : Prop := M.Reach (fun _ _ => True) s

variable {M}

/-- The invariant rule: the step lemma may use that the state before is reached. -/
theorem Reach.invariant {ok : σ → α → Prop} {P : σ → Prop}
    (hinit : ∀ s, M.initial s → P s)
    (hstep : ∀ s a t, M.Reach ok s → P s → ok s a → M.step s a = some t → P t)
    {s : σ} (h : M.Reach ok s) : P s := by
  induction h with
  | init hs => exact hinit _ hs
  | step hr hok hst ih => exact hstep _ _ _ hr ih hok hst

theorem Reach.mono {ok ok' : σ → α → Prop} (himp : ∀ s a, ok s a → ok' s a)
    {s : σ} (h : M.Reach ok s) : M.Reach ok' s := by
  induction h with
  | init hs => exact .init hs
  | step _ hok hst ih => exact .step ih (himp _ _ hok) hst

variable (M)

/-- The system started in a given state. -/
def after (s : σ) : System σ α := ⟨fun t => t = s, M.step⟩

variable {M}

theorem Reach.trans {ok : σ → α → Prop} {s t : σ} (h : M.Reach ok s)
    (ht : (M.after s).Reach ok t) : M.Reach ok t := by
  induction ht with
  | init heq => exact heq ▸ h
  | step _ hok hst ih => exact .step ih hok hst

variable (M)

/-- The system with a record of what its steps have done. -/
def record {η : Type*} (note : η → σ → α → σ → η) (start : η) : System (σ × η) α where
  initial s := M.initial s.1 ∧ s.2 = start
  step s a := (M.step s.1 a).map fun t => (t, note s.2 s.1 a t)

variable {M}

theorem Reach.of_record {η : Type*} {note : η → σ → α → σ → η} {start : η} {ok : σ → α → Prop}
    {s : σ × η} (h : (M.record note start).Reach (fun s a => ok s.1 a) s) : M.Reach ok s.1 := by
  induction h with
  | init hs => exact .init hs.1
  | step _ hok hst ih =>
    obtain ⟨t, ht, rfl⟩ := Option.map_eq_some_iff.mp hst
    exact .step ih hok ht

variable (M)

/-- Execute a list of labels. -/
def run (s : σ) : List α → Option σ
  | [] => some s
  | a :: as => (M.step s a).bind fun t => run t as

@[simp] theorem run_nil (s : σ) : M.run s [] = some s := rfl

/-- Every step of a run meets a condition in the state before it. -/
def Along (Q : σ → α → Prop) (s : σ) : List α → Prop
  | [] => True
  | a :: as => Q s a ∧ ∀ t, M.step s a = some t → Along Q t as

/-- Execute a list of labels as long as they meet a condition. -/
def checkedRun (ok : σ → α → Prop) [∀ s a, Decidable (ok s a)] (s : σ) : List α → Option σ
  | [] => some s
  | a :: as => if ok s a then (M.step s a).bind fun t => checkedRun ok t as else none

variable {M}

theorem Reachable.run {s t : σ} (h : M.Reachable s) (as : List α)
    (hrun : M.run s as = some t) : M.Reachable t := by
  induction as generalizing s with
  | nil =>
    obtain rfl : s = t := by simpa using hrun
    exact h
  | cons a as ih =>
    obtain ⟨u, hu, ht⟩ := Option.bind_eq_some_iff.mp hrun
    exact ih (.step h trivial hu) ht

theorem Reachable.along_congr {Q Q' : σ → α → Prop}
    (hQ : ∀ s a, M.Reachable s → (Q s a ↔ Q' s a)) {s : σ} (h : M.Reachable s) (as : List α) :
    M.Along Q s as ↔ M.Along Q' s as := by
  induction as generalizing s with
  | nil => exact Iff.rfl
  | cons a as ih =>
    simp only [System.Along, hQ s a h]
    refine and_congr_right fun _ => forall_congr' fun t => forall_congr' fun hst => ?_
    exact ih (.step h trivial hst)

theorem Reach.checkedRun {ok : σ → α → Prop} [∀ s a, Decidable (ok s a)] {s t : σ}
    (h : M.Reach ok s) (as : List α) (hrun : M.checkedRun ok s as = some t) : M.Reach ok t := by
  induction as generalizing s with
  | nil =>
    obtain rfl : s = t := Option.some.inj hrun
    exact h
  | cons a as ih =>
    simp only [System.checkedRun] at hrun
    split_ifs at hrun with hok
    obtain ⟨u, hu, ht⟩ := Option.bind_eq_some_iff.mp hrun
    exact ih (.step h hok hu) ht

@[simp] theorem run_append (s : σ) (as bs : List α) :
    M.run s (as ++ bs) = (M.run s as).bind fun t => M.run t bs := by
  induction as generalizing s with
  | nil => rfl
  | cons a as ih =>
    simp only [List.cons_append, System.run, Option.bind_assoc]
    exact Option.bind_congr fun t _ => ih t

/-- The termination rule: where from each state some allowed step keeps the
invariant and lowers the measure, such steps lead to an end. -/
theorem leads_to_end (I done : σ → Prop) (ok : α → Prop) (μ : σ → ℕ)
    (hstep : ∀ s, I s → ¬ done s → ∃ a t, ok a ∧ M.step s a = some t ∧ I t ∧ μ t < μ s)
    {s : σ} (hs : I s) :
    ∃ as t, (∀ a ∈ as, ok a) ∧ as.length ≤ μ s ∧ M.run s as = some t ∧ I t ∧ done t := by
  induction hμ : μ s using Nat.strongRecOn generalizing s with
  | ind m ih =>
    by_cases hdone : done s
    · exact ⟨[], s, by simp, Nat.zero_le _, rfl, hs, hdone⟩
    · obtain ⟨a, t, ha, hst, ht, hlt⟩ := hstep s hs hdone
      obtain ⟨as, u, has, hlen, hrun, hu⟩ := ih (μ t) (hμ ▸ hlt) ht rfl
      refine ⟨a :: as, u, List.forall_mem_cons.mpr ⟨ha, has⟩, ?_, ?_, hu⟩
      · rw [List.length_cons]
        omega
      · rw [System.run, hst, Option.bind_some, hrun]

/-- The amortised rule: where no allowed step costs more than what it is given and
what it takes from a potential, no run costs more than what its steps are given
and the potential it starts with. -/
theorem run_cost (I : σ → Prop) (ok : α → Prop) (μ : σ → ℕ) (cost gain : α → ℕ)
    (hstep : ∀ s a t, I s → ok a → M.step s a = some t → I t ∧ μ t + cost a ≤ μ s + gain a)
    {as : List α} {s t : σ} (hs : I s) (has : ∀ a ∈ as, ok a) (hrun : M.run s as = some t) :
    μ t + (as.map cost).sum ≤ μ s + (as.map gain).sum := by
  induction as generalizing s with
  | nil =>
    obtain rfl : s = t := Option.some.inj hrun
    exact Nat.le_refl _
  | cons a as ih =>
    obtain ⟨u, hu, hrest⟩ := Option.bind_eq_some_iff.mp hrun
    obtain ⟨ha, has⟩ := List.forall_mem_cons.mp has
    obtain ⟨hIu, hcost⟩ := hstep s a u hs ha hu
    have hle := ih hIu has hrest
    simp only [List.map_cons, List.sum_cons]
    omega

end System

end Lawd.Library

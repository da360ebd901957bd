import Mathlib.Data.Nat.Notation

/-!
# Repeated calls

A call that asks to be made again is made again on the state it left. The
states between the calls keep whatever one call keeps, and if every call that
asks again makes the state smaller, the calls end.
-/
namespace Lawd.Library

variable {ε σ : Type*}

/-- Call until the result does not ask for another call. -/
def retry (call : σ → ε × σ) (again : ε → Bool) : ℕ → σ → Option (ε × σ)
  | 0, _ => none
  | n + 1, s =>
    let (e, s') := call s
    if again e then retry call again n s' else some (e, s')

/-- The states in which a call is made, from a first one on. -/
inductive Retries (call : σ → ε × σ) (again : ε → Bool) (s : σ) : σ → Prop
  | first : Retries call again s s
  | next {t : σ} : Retries call again s t → again (call t).1 = true →
      Retries call again s (call t).2

variable {call : σ → ε × σ} {again : ε → Bool}

theorem Retries.invariant {P : σ → Prop} {s t : σ} (h : Retries call again s t) (hs : P s)
    (hstep : ∀ u, P u → again (call u).1 = true → P (call u).2) : P t := by
  induction h with
  | first => exact hs
  | next h hagain ih => exact hstep _ ih hagain

theorem Retries.trans {s t u : σ} (h : Retries call again s t) (h' : Retries call again t u) :
    Retries call again s u := by
  induction h' with
  | first => exact h
  | next _ hagain ih => exact ih.next hagain

theorem Retries.of_retry {n : ℕ} {s s' : σ} {e : ε} (h : retry call again n s = some (e, s')) :
    ∃ t, Retries call again s t ∧ call t = (e, s') ∧ again e = false := by
  induction n generalizing s with
  | zero => cases h
  | succ n ih =>
    simp only [retry] at h
    split at h
    · next hagain =>
      obtain ⟨t, ht, hcall, hlast⟩ := ih h
      exact ⟨t, (Retries.first.next hagain).trans ht, hcall, hlast⟩
    · next hagain =>
      have hcall : call s = (e, s') := Option.some.inj h
      rw [hcall, Bool.not_eq_true] at hagain
      exact ⟨s, .first, hcall, hagain⟩

/-- Calls that make the state smaller when they ask again come to an end. -/
theorem retry_terminates {P : σ → Prop} (size : σ → ℕ)
    (hstep : ∀ s, P s → again (call s).1 = true → P (call s).2 ∧ size (call s).2 < size s)
    {n : ℕ} {s : σ} (hs : P s) (hn : size s < n) :
    ∃ e s', retry call again n s = some (e, s') := by
  induction n generalizing s with
  | zero => exact absurd hn (Nat.not_lt_zero _)
  | succ n ih =>
    simp only [retry]
    split
    · next hagain =>
      obtain ⟨hP, hlt⟩ := hstep s hs hagain
      exact ih hP (by omega)
    · exact ⟨_, _, rfl⟩

/-- The calls come to an end with the given result. -/
def Settles (call : σ → ε × σ) (again : ε → Bool) (s : σ) (out : ε × σ) : Prop :=
  ∃ n, retry call again n s = some out

theorem retry_mono {n m : ℕ} {s : σ} {out : ε × σ} (h : retry call again n s = some out)
    (hnm : n ≤ m) : retry call again m s = some out := by
  induction n generalizing m s with
  | zero => cases h
  | succ n ih =>
    obtain ⟨m, rfl⟩ := Nat.exists_eq_add_of_le'
      (Nat.le_trans (Nat.succ_le_succ (Nat.zero_le n)) hnm)
    simp only [retry] at h ⊢
    split at h
    · next hagain =>
      rw [if_pos hagain]
      exact ih h (Nat.le_of_succ_le_succ hnm)
    · next hagain =>
      rw [if_neg hagain]
      exact h

theorem Settles.unique {s : σ} {out out' : ε × σ} (h : Settles call again s out)
    (h' : Settles call again s out') : out = out' := by
  obtain ⟨n, hn⟩ := h
  obtain ⟨m, hm⟩ := h'
  have hn' := retry_mono hn (Nat.le_max_left n m)
  rw [retry_mono hm (Nat.le_max_right n m)] at hn'
  exact (Option.some.inj hn').symm

/-- A call that only translates the result of another one. -/
theorem Settles.map {ε' : Type*} {f : ε → ε'} {again' : ε' → Bool}
    (hf : ∀ e, again' (f e) = again e) {s : σ} {out : ε × σ} :
    Settles call again s out →
      Settles (fun u => (f (call u).1, (call u).2)) again' s (f out.1, out.2) := by
  rintro ⟨n, hn⟩
  refine ⟨n, ?_⟩
  induction n generalizing s with
  | zero => cases hn
  | succ n ih =>
    simp only [retry, hf] at hn ⊢
    split at hn
    · next hagain =>
      rw [if_pos hagain]
      exact ih hn
    · next hagain =>
      rw [if_neg hagain]
      obtain rfl := Option.some.inj hn
      rfl

/-- A call that asks again whenever another one does, and does then what that one
does, ends in the state in which the other one ends. -/
theorem Settles.then {ε' : Type*} {call' : σ → ε' × σ} {again' : ε' → Bool} {P : σ → Prop}
    {s : σ} {out : ε × σ} (hs : P s)
    (hwait : ∀ u, P u → again (call u).1 = true →
      P (call u).2 ∧ again' (call' u).1 = true ∧ (call' u).2 = (call u).2)
    (hend : ∀ u, P u → again (call u).1 = false → again' (call' u).1 = false) :
    Settles call again s out →
      ∃ t, P t ∧ call t = out ∧ again out.1 = false ∧ Settles call' again' s (call' t) := by
  rintro ⟨n, hn⟩
  induction n generalizing s with
  | zero => cases hn
  | succ n ih =>
    simp only [retry] at hn
    split at hn
    · next hagain =>
      obtain ⟨hP, hagain', hsame⟩ := hwait s hs hagain
      obtain ⟨t, ht, hcall, hlast, m, hm⟩ := ih hP hn
      refine ⟨t, ht, hcall, hlast, m + 1, ?_⟩
      simp only [retry, hagain', if_true, hsame]
      exact hm
    · next hagain =>
      obtain rfl := Option.some.inj hn
      have hlast : again (call s).1 = false := by simpa using hagain
      refine ⟨s, hs, rfl, hlast, 1, ?_⟩
      simp only [retry, hend s hs hlast, Bool.false_eq_true, if_false]

end Lawd.Library

import Mathlib.Data.List.Basic

/-!
# Transducers

A function with a state of its own transforms a word symbol by symbol. A word
that comes in pieces is transformed as the whole word is, and where the state
tells the position, so does the transformed symbol.
-/
namespace Lawd.Library

variable {σ α β : Type*}

/-- Transform the symbols one after the other. -/
def transduce (step : σ → α → σ × β) : σ → List α → σ × List β
  | s, [] => (s, [])
  | s, a :: as =>
    let (t, b) := step s a
    let (u, bs) := transduce step t as
    (u, b :: bs)

section Transduce

variable (step : σ → α → σ × β)

@[simp] theorem transduce_cons (s : σ) (a : α) (as : List α) :
    transduce step s (a :: as) = ((transduce step (step s a).1 as).1,
      (step s a).2 :: (transduce step (step s a).1 as).2) := rfl

theorem transduce_append (s : σ) (as bs : List α) :
    transduce step s (as ++ bs) = ((transduce step (transduce step s as).1 bs).1,
      (transduce step s as).2 ++ (transduce step (transduce step s as).1 bs).2) := by
  induction as generalizing s with
  | nil => rfl
  | cons a as ih => simp only [List.cons_append, transduce_cons, ih]

/-- The pieces of a word, transformed one after the other. -/
theorem transduce_flatten (s : σ) (pieces : List (List α)) :
    transduce step s pieces.flatten =
      ((transduce (transduce step) s pieces).1,
        (transduce (transduce step) s pieces).2.flatten) := by
  induction pieces generalizing s with
  | nil => rfl
  | cons piece pieces ih =>
    rw [List.flatten_cons, transduce_append, transduce_cons, ih]
    rfl

variable {step}

/-- A state that tells the position, and an output that depends on no more. -/
theorem transduce_mapIdx {At : ℕ → σ → Prop} {f : ℕ → α → β}
    (hstep : ∀ n s a, At n s → At (n + 1) (step s a).1 ∧ (step s a).2 = f n a)
    {n : ℕ} {s : σ} (hs : At n s) (as : List α) :
    (transduce step s as).2 = as.mapIdx fun i => f (n + i) := by
  induction as generalizing n s with
  | nil => rfl
  | cons a as ih =>
    obtain ⟨hnext, hout⟩ := hstep n s a hs
    have hshift : ∀ i, n + 1 + i = n + (i + 1) := fun i => by omega
    simp only [transduce_cons, List.mapIdx_cons, ih hnext, hout, hshift, Nat.add_zero]

end Transduce

end Lawd.Library

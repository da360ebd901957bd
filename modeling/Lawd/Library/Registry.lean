import Mathlib.Data.List.Nodup
import Mathlib.Logic.Function.Basic

/-!
# Registries

Values registered under keys. A key that is taken cannot be added, and one that
is not cannot be removed. A registration that makes way for others is restored
when it is added again and these are removed.
-/
namespace Lawd.Library

/-- The value under each key that has one. -/
abbrev Registry (κ ν : Type*) := κ → Option ν

namespace Registry

variable {κ ν : Type*} [DecidableEq κ]

/-- Set what is under a key, if what is there allows it. -/
def replace (P : Option ν → Prop) [DecidablePred P] (w : Option ν) (r : Registry κ ν) (k : κ) :
    Option (Registry κ ν) :=
  if P (r k) then some (Function.update r k w) else none

/-- Register a value under a free key. -/
def add (r : Registry κ ν) (k : κ) (v : ν) : Option (Registry κ ν) :=
  r.replace (· = none) (some v) k

/-- Replace the value under a taken key. -/
def modify (r : Registry κ ν) (k : κ) (v : ν) : Option (Registry κ ν) :=
  r.replace (· ≠ none) (some v) k

/-- Free a taken key. -/
def remove (r : Registry κ ν) (k : κ) : Option (Registry κ ν) := r.replace (· ≠ none) none k

variable {r r' r₁ r₂ r₃ : Registry κ ν} {k : κ} {v : ν} {ks : List κ}

theorem replace_eq_some {P : Option ν → Prop} [DecidablePred P] {w : Option ν} :
    r.replace P w k = some r' ↔ P (r k) ∧ r' = Function.update r k w := by
  by_cases h : P (r k) <;> simp [replace, h, eq_comm]

/-- The same under several keys, which must differ where what is set does not
allow it again. -/
theorem replaceAll_eq_some {P : Option ν → Prop} [DecidablePred P] {w : Option ν} (hw : ¬ P w) :
    ks.foldlM (replace P w) r = some r' ↔
      ks.Nodup ∧ (∀ k ∈ ks, P (r k)) ∧ r' = fun k => if k ∈ ks then w else r k := by
  induction ks generalizing r with
  | nil => simp [eq_comm]
  | cons k ks ih =>
    have hupdate : ∀ j, j ≠ k → Function.update r k w j = r j := fun j hj => by simp [hj]
    have hset : k ∉ ks → (fun j => if j ∈ ks then w else Function.update r k w j) =
        fun j => if j ∈ k :: ks then w else r j := by
      intro hnot
      funext j
      by_cases hj : j = k <;> simp [hj, hnot]
    simp only [List.foldlM_cons, Option.bind_eq_bind, Option.bind_eq_some_iff, replace_eq_some, ih]
    constructor
    · rintro ⟨_, ⟨hk, rfl⟩, hnodup, hall, rfl⟩
      have hnot : k ∉ ks := fun hmem => hw (by simpa using hall k hmem)
      refine ⟨List.nodup_cons.mpr ⟨hnot, hnodup⟩, fun j hj => ?_, hset hnot⟩
      obtain rfl | hj := List.mem_cons.mp hj
      · exact hk
      · rw [← hupdate j fun h => hnot (h ▸ hj)]
        exact hall j hj
    · rintro ⟨hnodup, hall, rfl⟩
      obtain ⟨hnot, hnodup⟩ := List.nodup_cons.mp hnodup
      refine ⟨_, ⟨hall k List.mem_cons_self, rfl⟩, hnodup, fun j hj => ?_, (hset hnot).symm⟩
      rw [hupdate j fun h => hnot (h ▸ hj)]
      exact hall j (List.mem_cons_of_mem _ hj)

@[simp] theorem add_eq_some :
    r.add k v = some r' ↔ r k = none ∧ r' = Function.update r k (some v) :=
  replace_eq_some

@[simp] theorem remove_eq_some :
    r.remove k = some r' ↔ r k ≠ none ∧ r' = Function.update r k none :=
  replace_eq_some

theorem addAll_eq_some : ks.foldlM (fun r k => add r k v) r = some r' ↔
    ks.Nodup ∧ (∀ k ∈ ks, r k = none) ∧ r' = fun k => if k ∈ ks then some v else r k :=
  replaceAll_eq_some (by simp)

theorem removeAll_eq_some : ks.foldlM remove r = some r' ↔
    ks.Nodup ∧ (∀ k ∈ ks, r k ≠ none) ∧ r' = fun k => if k ∈ ks then none else r k :=
  replaceAll_eq_some (P := (· ≠ none)) (by simp)

theorem restored {u : ν} (hu : r k = some u) (h₁ : r.remove k = some r₁)
    (h₂ : ks.foldlM (fun r k => add r k v) r₁ = some r₂) (h₃ : r₂.add k u = some r₃)
    (h₄ : ks.foldlM remove r₃ = some r') : r' = r := by
  obtain ⟨-, rfl⟩ := remove_eq_some.mp h₁
  obtain ⟨-, hfree, rfl⟩ := addAll_eq_some.mp h₂
  obtain ⟨hk, rfl⟩ := add_eq_some.mp h₃
  obtain ⟨-, -, rfl⟩ := removeAll_eq_some.mp h₄
  have hnot : k ∉ ks := fun hmem => by simp [hmem] at hk
  funext j
  by_cases hj : j ∈ ks
  · have hne : j ≠ k := fun h => hnot (h ▸ hj)
    have hnone := hfree j hj
    rw [Function.update_of_ne hne] at hnone
    simp [hj, hnone]
  · by_cases hjk : j = k
    · rw [if_neg hj, hjk, Function.update_self, hu]
    · simp [hj, hjk]

theorem restores {u : ν} (hu : r k = some u) (hnodup : ks.Nodup) (hfree : ∀ j ∈ ks, r j = none) :
    ∃ r₁ r₂ r₃ r', r.remove k = some r₁ ∧ ks.foldlM (fun r k => add r k v) r₁ = some r₂ ∧
      r₂.add k u = some r₃ ∧ ks.foldlM remove r₃ = some r' := by
  have hnot : k ∉ ks := fun hmem => by rw [hfree k hmem] at hu; cases hu
  refine ⟨_, _, _, _, remove_eq_some.mpr ⟨by simp [hu], rfl⟩,
    addAll_eq_some.mpr ⟨hnodup, fun j hj => ?_, rfl⟩, add_eq_some.mpr ⟨by simp [hnot], rfl⟩,
    removeAll_eq_some.mpr ⟨hnodup, fun j hj => ?_, rfl⟩⟩
  · have hne : j ≠ k := fun h => hnot (h ▸ hj)
    simpa [hne] using hfree j hj
  · have hne : j ≠ k := fun h => hnot (h ▸ hj)
    simp [hne, hj]

end Registry

end Lawd.Library

import Mathlib.Algebra.Order.Group.Multiset

/-!
# Ledgers

What a computation acquires and releases, in order. A computation that fails
releases what it has acquired, after which it acquires nothing more; so its
ledger is a list of acquisitions and then a list of releases.
-/
namespace Lawd.Library

/-- An entry of a ledger. -/
inductive Entry (ρ : Type*) where
  | acquired (x : ρ)
  | released (x : ρ)
  deriving DecidableEq, Repr

/-- The acquisitions are listed, and some of what was acquired is held; the rest
was released since, each once. -/
def Holds {ρ : Type*} (ledger : List (Entry ρ)) (acquired : List ρ) (held : Multiset ρ) : Prop :=
  ∃ released : List ρ, ledger = acquired.map .acquired ++ released.map .released ∧
    (acquired : Multiset ρ) = (released : Multiset ρ) + held

namespace Holds

variable {ρ : Type*} {ledger : List (Entry ρ)} {acquired : List ρ} {held : Multiset ρ} {x : ρ}

theorem start : Holds (ρ := ρ) [] [] 0 := ⟨[], rfl, rfl⟩

theorem kept (h : Holds ledger acquired (acquired : Multiset ρ)) :
    ledger = acquired.map .acquired := by
  obtain ⟨released, rfl, heq⟩ := h
  obtain rfl : released = [] := by simpa using right_eq_add.mp heq
  simp

theorem acquire (h : Holds ledger acquired (acquired : Multiset ρ)) (x : ρ) :
    Holds (ledger ++ [.acquired x]) (acquired ++ [x]) ((acquired ++ [x] : List ρ) : Multiset ρ) :=
  ⟨[], by simp [h.kept], by simp⟩

theorem release [DecidableEq ρ] (h : Holds ledger acquired held) (hx : x ∈ held) :
    Holds (ledger ++ [.released x]) acquired (held.erase x) := by
  obtain ⟨released, rfl, heq⟩ := h
  refine ⟨released ++ [x], by simp, ?_⟩
  rw [heq, ← Multiset.coe_add, Multiset.coe_singleton, add_assoc, Multiset.singleton_add,
    Multiset.cons_erase hx]

theorem returned (h : Holds ledger acquired 0) : ∃ released : List ρ,
    ledger = acquired.map .acquired ++ released.map .released ∧ released.Perm acquired := by
  obtain ⟨released, hledger, heq⟩ := h
  rw [add_zero] at heq
  exact ⟨released, hledger, (Multiset.coe_eq_coe.mp heq).symm⟩

end Holds

end Lawd.Library

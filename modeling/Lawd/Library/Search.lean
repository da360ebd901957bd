import Mathlib.Data.List.Infix

/-!
# Finding a pattern

The first occurrence of a pattern in a list, at or after an index. A list may
grow at its end while it is searched: what was found stays found, and a search
that failed can resume where an occurrence could still begin.
-/
namespace Lawd.Library

variable {α : Type*}

/-- The pattern occurs at an index of the list. -/
def OccursAt (d w : List α) (i : ℕ) : Prop := d <+: w.drop i

/-- The first occurrence of the pattern at or after index `o`. -/
structure FirstAt (d w : List α) (o i : ℕ) : Prop where
  le : o ≤ i
  occurs : OccursAt d w i
  least : ∀ j, o ≤ j → j < i → ¬ OccursAt d w j

/-- Search a list from its head. -/
def search [DecidableEq α] (d : List α) : List α → Option ℕ
  | [] => if d = [] then some 0 else none
  | a :: w => if d <+: a :: w then some 0 else (search d w).map (· + 1)

variable {d w m : List α} {o i j : ℕ}

theorem OccursAt.add_length_le (h : OccursAt d w i) (hd : d ≠ []) : i + d.length ≤ w.length := by
  have hlen := h.length_le
  have hpos := List.length_pos_iff.mpr hd
  rw [List.length_drop] at hlen
  omega

theorem OccursAt.append (h : OccursAt d w i) (hd : d ≠ []) : OccursAt d (w ++ m) i := by
  have hle := h.add_length_le hd
  rw [OccursAt, List.drop_append_of_le_length (by omega)]
  exact h.trans (List.prefix_append _ _)

theorem OccursAt.of_append (h : OccursAt d (w ++ m) i) (hi : i + d.length ≤ w.length) :
    OccursAt d w i := by
  rw [OccursAt, List.drop_append_of_le_length (by omega)] at h
  refine List.prefix_of_prefix_length_le h (List.prefix_append _ _) ?_
  rw [List.length_drop]
  omega

@[simp] theorem occursAt_drop : OccursAt d (w.drop o) i ↔ OccursAt d w (o + i) := by
  rw [OccursAt, OccursAt, List.drop_drop]

theorem OccursAt.head {a : α} (h : OccursAt (a :: d) w i) : w[i]? = some a := by
  obtain ⟨r, hr⟩ := h
  have hget := congrArg (fun l => l[0]?) hr
  simpa using hget.symm

namespace FirstAt

theorem unique (h : FirstAt d w o i) (h' : FirstAt d w o j) : i = j := by
  rcases lt_trichotomy i j with hlt | heq | hgt
  · exact absurd h.occurs (h'.least i h.le hlt)
  · exact heq
  · exact absurd h'.occurs (h.least j h'.le hgt)

theorem append (h : FirstAt d w o i) (hd : d ≠ []) : FirstAt d (w ++ m) o i := by
  refine ⟨h.le, h.occurs.append hd, fun j hj hlt hocc => h.least j hj hlt ?_⟩
  have hle := h.occurs.add_length_le hd
  exact hocc.of_append (by omega)

theorem of_drop (h : FirstAt d (w.drop o) 0 i) : FirstAt d w o (o + i) := by
  refine ⟨Nat.le_add_right o i, occursAt_drop.mp h.occurs, fun j hj hlt hocc => ?_⟩
  obtain ⟨k, rfl⟩ := Nat.exists_eq_add_of_le hj
  exact h.least k (Nat.zero_le k) (by omega) (occursAt_drop.mpr hocc)

/-- After a failed search, a later one may begin where an occurrence could
still be incomplete. -/
theorem resume (hnone : ∀ j, o ≤ j → ¬ OccursAt d w j) :
    FirstAt d (w ++ m) (max o (w.length - (d.length - 1))) i ↔ FirstAt d (w ++ m) o i := by
  have hskip : ∀ j, o ≤ j → OccursAt d (w ++ m) j → w.length - (d.length - 1) ≤ j := by
    intro j hj hocc
    by_contra hlt
    exact hnone j hj (hocc.of_append (by omega))
  constructor
  · intro h
    have hle := h.le
    refine ⟨by omega, h.occurs, fun j hj hlt hocc => ?_⟩
    exact h.least j (max_le hj (hskip j hj hocc)) hlt hocc
  · intro h
    refine ⟨max_le h.le (hskip i h.le h.occurs), h.occurs, fun j hj hlt hocc => ?_⟩
    exact h.least j (by omega) hlt hocc

theorem skip {a : α} {t : List α} (ht : a ∉ t) (h : FirstAt (a :: d) w 0 i) :
    FirstAt (a :: d) (t ++ w) 0 (t.length + i) := by
  have hdrop : (t ++ w).drop t.length = w := List.drop_left
  refine ⟨Nat.zero_le _, occursAt_drop.mp (hdrop.symm ▸ h.occurs), fun j _ hlt hocc => ?_⟩
  by_cases hj : j < t.length
  · have hhead := hocc.head
    rw [List.getElem?_append_left hj] at hhead
    exact ht (List.mem_of_getElem? hhead)
  · obtain ⟨k, rfl⟩ := Nat.exists_eq_add_of_le (Nat.not_lt.mp hj)
    have hocc' := occursAt_drop.mpr hocc
    rw [hdrop] at hocc'
    exact h.least k (Nat.zero_le k) (by omega) hocc'

theorem behind {a : α} {t : List α} (ht : a ∉ t) (u : List α) :
    FirstAt (a :: d) (t ++ (a :: d ++ u)) 0 t.length := by
  have hzero : FirstAt (a :: d) (a :: d ++ u) 0 0 :=
    ⟨le_rfl, ⟨u, rfl⟩, fun j _ hlt => absurd hlt (Nat.not_lt_zero j)⟩
  exact hzero.skip ht

end FirstAt

variable [DecidableEq α]

theorem search_some (h : search d w = some i) : FirstAt d w 0 i := by
  induction w generalizing i with
  | nil =>
    simp only [search] at h
    split_ifs at h with hd
    obtain rfl := Option.some.inj h
    exact ⟨le_rfl, by simp [OccursAt, hd], fun j _ hlt => absurd hlt (Nat.not_lt_zero j)⟩
  | cons a w ih =>
    simp only [search] at h
    split_ifs at h with hd
    · obtain rfl := Option.some.inj h
      exact ⟨le_rfl, hd, fun j _ hlt => absurd hlt (Nat.not_lt_zero j)⟩
    · obtain ⟨k, hk, rfl⟩ := Option.map_eq_some_iff.mp h
      have hfirst := ih hk
      refine ⟨Nat.zero_le _, hfirst.occurs, fun j _ hlt hocc => ?_⟩
      cases j with
      | zero => exact hd hocc
      | succ j => exact hfirst.least j (Nat.zero_le j) (by omega) hocc

theorem search_none (h : search d w = none) (i : ℕ) : ¬ OccursAt d w i := by
  induction w generalizing i with
  | nil =>
    simp only [search] at h
    split_ifs at h with hd
    simpa [OccursAt] using hd
  | cons a w ih =>
    simp only [search] at h
    split_ifs at h with hd
    cases i with
    | zero => exact hd
    | succ i => exact ih (Option.map_eq_none_iff.mp h) i

end Lawd.Library

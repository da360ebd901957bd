import Mathlib.Data.List.Nodup
import Mathlib.Data.List.Perm.Basic

/-!
# Tokens in places

A family of lists says which tokens lie in which place. A token is placed when
one place lists it once and no other place lists it. Moving one token from a
place to another keeps every token placed; this is the conservation argument of
any system that hands tokens around.
-/
namespace Lawd.Library

variable {π τ : Type*}

/-- One token leaves the place `a` for the place `b`; the others stay. -/
structure Moved (c c' : π → List τ) (p : τ) (a b : π) : Prop where
  ne : a ≠ b
  source : (c a).Perm (p :: c' a)
  target : (c' b).Perm (p :: c b)
  others : ∀ y, y ≠ a → y ≠ b → (c' y).Perm (c y)

theorem Moved.mem_source {c c' : π → List τ} {p : τ} {a b : π} (m : Moved c c' p a b) :
    p ∈ c a := m.source.symm.subset (by simp)

/-- What one step of a system does to its places: it keeps their contents, or
moves one token. -/
inductive Flow (c c' : π → List τ) : Prop
  | stay : (∀ y, (c' y).Perm (c y)) → Flow c c'
  | move (p : τ) (a b : π) : Moved c c' p a b → Flow c c'

theorem Flow.mem {c c' : π → List τ} (f : Flow c c') {q : τ} {y : π} (hq : q ∈ c' y) :
    ∃ x, q ∈ c x := by
  rcases f with hstay | ⟨p, a, b, m⟩
  · exact ⟨y, (hstay y).subset hq⟩
  · by_cases hp : q = p
    · subst hp
      exact ⟨a, m.mem_source⟩
    by_cases ha : y = a
    · subst ha
      exact ⟨y, m.source.symm.subset (List.mem_cons_of_mem _ hq)⟩
    by_cases hb : y = b
    · subst hb
      exact ⟨y, by simpa [hp] using m.target.subset hq⟩
    · exact ⟨y, (m.others y ha hb).subset hq⟩

/-- A step of a part of a system, seen in the whole: the places of the part hold
some more tokens that the step leaves alone. -/
theorem Flow.embed {π' : Type*} {c c' : π → List τ} {d d' : π' → List τ} (f : Flow c c')
    {e : π → π'} (he : Function.Injective e) (rest : π → List τ)
    (hd : ∀ x, (d (e x)).Perm (c x ++ rest x)) (hd' : ∀ x, (d' (e x)).Perm (c' x ++ rest x))
    (ho : ∀ y, (∀ x, y ≠ e x) → (d' y).Perm (d y)) : Flow d d' := by
  have hsame : ∀ x, (c' x).Perm (c x) → (d' (e x)).Perm (d (e x)) := fun x hx =>
    (hd' x).trans ((hx.append_right _).trans (hd x).symm)
  rcases f with hstay | ⟨p, a, b, m⟩
  · refine .stay fun y => ?_
    by_cases hy : ∃ x, y = e x
    · obtain ⟨x, rfl⟩ := hy
      exact hsame x (hstay x)
    · exact ho y fun x hx => hy ⟨x, hx⟩
  · refine .move p (e a) (e b) ⟨fun h => m.ne (he h), ?_, ?_, fun y hya hyb => ?_⟩
    · exact (hd a).trans ((m.source.append_right _).trans ((hd' a).symm.cons p))
    · exact (hd' b).trans ((m.target.append_right _).trans ((hd b).symm.cons p))
    · by_cases hy : ∃ x, y = e x
      · obtain ⟨x, rfl⟩ := hy
        exact hsame x (m.others x (fun h => hya (by rw [h])) fun h => hyb (by rw [h]))
      · exact ho y fun x hx => hy ⟨x, hx⟩

theorem filterMap_gain {ι : Type*} [DecidableEq τ] {l : List τ} (hnd : l.Nodup) {f g : τ → Option ι}
    {p : τ} {x : ι} (hp : p ∈ l) (hf : f p = none) (hg : g p = some x)
    (ho : ∀ q, q ≠ p → g q = f q) : (l.filterMap g).Perm (x :: l.filterMap f) := by
  have hrest : (l.erase p).filterMap g = (l.erase p).filterMap f :=
    List.filterMap_congr fun q hq => ho q (hnd.mem_erase_iff.mp hq).1
  have hperm := List.perm_cons_erase hp
  have hg' := hperm.filterMap g
  have hf' := hperm.filterMap f
  rw [List.filterMap_cons, hg, hrest] at hg'
  rw [List.filterMap_cons, hf] at hf'
  exact hg'.trans (hf'.symm.cons x)

section
variable [DecidableEq π] [DecidableEq τ]

/-- The token `p` lies in the place `x`, there once, and nowhere else. -/
def PlacedAt (c : π → List τ) (p : τ) (x : π) : Prop :=
  ∀ y, (c y).count p = if y = x then 1 else 0

/-- The token `p` lies in exactly one place, and there exactly once. -/
def Placed (c : π → List τ) (p : τ) : Prop := ∃ x, PlacedAt c p x

theorem PlacedAt.mem_iff {c : π → List τ} {p : τ} {x : π} (h : PlacedAt c p x) (y : π) :
    p ∈ c y ↔ y = x := by
  rw [← List.count_pos_iff, h y]
  split_ifs with hy <;> simp [hy]

theorem Placed.at_of_mem {c : π → List τ} {p : τ} (h : Placed c p) {x : π} (hx : p ∈ c x) :
    PlacedAt c p x := by
  obtain ⟨z, hz⟩ := h
  obtain rfl := (hz.mem_iff x).mp hx
  exact hz

theorem Placed.unique {c : π → List τ} {p : τ} (h : Placed c p) {x y : π}
    (hx : p ∈ c x) (hy : p ∈ c y) : x = y :=
  (((h.at_of_mem hx).mem_iff y).mp hy).symm

theorem Placed.not_mem {c : π → List τ} {p : τ} (h : Placed c p) {x y : π}
    (hx : p ∈ c x) (hxy : y ≠ x) : p ∉ c y :=
  fun hy => hxy (h.unique hy hx)

theorem Placed.count_le_one {c : π → List τ} {p : τ} (h : Placed c p) (x : π) :
    (c x).count p ≤ 1 := by
  obtain ⟨z, hz⟩ := h
  rw [hz x]
  split_ifs <;> omega

theorem nodup_of_placed {c : π → List τ} {x : π} (h : ∀ p ∈ c x, Placed c p) : (c x).Nodup :=
  List.nodup_iff_count.mpr fun p => by
    by_cases hp : p ∈ c x
    · exact (h p hp).count_le_one x
    · rw [List.count_eq_zero_of_not_mem hp]
      omega

theorem Placed.congr {c c' : π → List τ} {p : τ} (hc : ∀ y, (c' y).Perm (c y))
    (h : Placed c p) : Placed c' p := by
  obtain ⟨x, hx⟩ := h
  exact ⟨x, fun y => by rw [(hc y).count_eq, hx y]⟩

theorem Moved.count {c c' : π → List τ} {p : τ} {a b : π} (m : Moved c c' p a b)
    (q : τ) (y : π) : (c' y).count q + (if y = a ∧ p = q then 1 else 0) =
      (c y).count q + (if y = b ∧ p = q then 1 else 0) := by
  by_cases ha : y = a
  · subst ha
    have hs := m.source.count_eq q
    rw [List.count_cons] at hs
    simp only [beq_iff_eq] at hs
    simp only [true_and, m.ne, false_and, if_false]
    omega
  by_cases hb : y = b
  · subst hb
    have ht := m.target.count_eq q
    rw [List.count_cons] at ht
    simp only [beq_iff_eq] at ht
    simp only [ha, true_and, false_and, if_false]
    omega
  · simp [ha, hb, (m.others y ha hb).count_eq q]

theorem Placed.moved {c c' : π → List τ} {p q : τ} {a b : π} (h : Placed c q)
    (m : Moved c c' p a b) : Placed c' q := by
  by_cases hq : p = q
  · subst hq
    refine ⟨b, fun y => ?_⟩
    have hc := m.count p y
    rw [h.at_of_mem m.mem_source y] at hc
    simp only [and_true] at hc
    omega
  · obtain ⟨x, hx⟩ := h
    refine ⟨x, fun y => ?_⟩
    have hc := m.count q y
    simp only [hq, and_false, if_false, Nat.add_zero] at hc
    rw [hc, hx y]

theorem Placed.flow {c c' : π → List τ} {q : τ} (h : Placed c q) (f : Flow c c') :
    Placed c' q := by
  rcases f with hstay | ⟨p, a, b, m⟩
  · exact h.congr hstay
  · exact h.moved m

end

end Lawd.Library

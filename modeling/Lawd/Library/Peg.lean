import Mathlib.Data.List.Basic

/-!
# Parsing expressions

Expressions over sets of symbols: sequence, ordered choice, greedy bounded
repetition without backtracking, and capture. A parse takes symbols from the
front of the input and returns the captured values with what is left; where it
fails, it has taken nothing. No expression looks ahead, so a symbol that none of
its sets accepts is to it the end of the input.
-/
namespace Lawd.Library

/-- Parsing expressions over symbols `α` that capture values `ν`. -/
inductive Peg (α ν : Type) where
  | set (p : α → Bool)
  | seq (g h : Peg α ν)
  | alt (g h : Peg α ν)
  | rep (lo hi : ℕ) (g : Peg α ν)
  | cap (f : List α → List ν → ν) (g : Peg α ν)

namespace Peg

variable {α ν : Type}

/-- Parse as often as possible, at most `n` times. -/
def greedy (p : List α → Option (List ν × List α)) : ℕ → List α → List ν × List α × ℕ
  | 0, s => ([], s, 0)
  | n + 1, s =>
    match p s with
    | none => ([], s, 0)
    | some (vs, r) =>
      let (ws, r', k) := greedy p n r
      (vs ++ ws, r', k + 1)

/-- Parse the front of the input. -/
def parse : Peg α ν → List α → Option (List ν × List α)
  | set p, s =>
    match s with
    | [] => none
    | a :: r => if p a then some ([], r) else none
  | seq g h, s =>
    match parse g s with
    | none => none
    | some (vs, r) =>
      match parse h r with
      | none => none
      | some (ws, r') => some (vs ++ ws, r')
  | alt g h, s =>
    match parse g s with
    | none => parse h s
    | some out => some out
  | rep lo hi g, s =>
    let (vs, r, k) := greedy (parse g) hi s
    if lo ≤ k then some (vs, r) else none
  | cap f g, s =>
    match parse g s with
    | none => none
    | some (vs, r) => some ([f (s.take (s.length - r.length)) vs], r)

/-- A sequence of several expressions. -/
def seqs (g : Peg α ν) (hs : List (Peg α ν)) : Peg α ν := hs.foldl seq g

/-- A choice between several expressions. -/
def alts (g : Peg α ν) (hs : List (Peg α ν)) : Peg α ν := hs.foldl alt g

/-- No set of the expression accepts the symbol. -/
def avoids (b : α) : Peg α ν → Bool
  | set p => !p b
  | seq g h => avoids b g && avoids b h
  | alt g h => avoids b g && avoids b h
  | rep _ _ g => avoids b g
  | cap _ g => avoids b g

/-- The expression captures nothing. -/
def silent : Peg α ν → Bool
  | set _ => true
  | seq g h => silent g && silent h
  | alt g h => silent g && silent h
  | rep _ _ g => silent g
  | cap _ _ => false

/-- Whatever the expression captures satisfies `Q`. -/
def Yields (Q : ν → Prop) : Peg α ν → Prop
  | set _ => True
  | seq g h => Yields Q g ∧ Yields Q h
  | alt g h => Yields Q g ∧ Yields Q h
  | rep _ _ g => Yields Q g
  | cap f _ => ∀ text vs, Q (f text vs)

/-- Whatever the expression captures when it is parsed satisfies `Q`. -/
def Captures (Q : ν → Prop) : Peg α ν → Prop
  | set _ => True
  | seq g h => Captures Q g ∧ Captures Q h
  | alt g h => Captures Q g ∧ Captures Q h
  | rep _ _ g => Captures Q g
  | cap f g => ∀ s vs r, parse g s = some (vs, r) → Q (f (s.take (s.length - r.length)) vs)

/-- The parse with more input behind it. -/
def extend (u : List α) (out : List ν × List α) : List ν × List α := (out.1, out.2 ++ u)

section Parse

variable {g h : Peg α ν} {s r u : List α} {vs : List ν} {p : List α → Option (List ν × List α)}

attribute [local simp] parse greedy

theorem parse_seq : parse (seq g h) s = some (vs, r) ↔ ∃ ws t ws', parse g s = some (ws, t) ∧
    parse h t = some (ws', r) ∧ vs = ws ++ ws' := by
  constructor
  · intro hp
    simp only [parse] at hp
    split at hp
    · cases hp
    · next ws t hg =>
      split at hp
      · cases hp
      · next ws' t' hh =>
        obtain ⟨rfl, rfl⟩ := Prod.mk.inj (Option.some.inj hp)
        exact ⟨ws, t, ws', hg, hh, rfl⟩
  · rintro ⟨ws, t, ws', hg, hh, rfl⟩
    simp only [parse, hg, hh]

theorem parse_cap {f : List α → List ν → ν} (hp : parse (cap f g) s = some (vs, r)) :
    ∃ ws, parse g s = some (ws, r) ∧ vs = [f (s.take (s.length - r.length)) ws] := by
  simp only [parse] at hp
  split at hp
  · cases hp
  · next ws t hg =>
    obtain ⟨rfl, rfl⟩ := Prod.mk.inj (Option.some.inj hp)
    exact ⟨ws, hg, rfl⟩

theorem parse_cap_some {f : List α → List ν → ν} (hp : parse g s = some (vs, r)) :
    parse (cap f g) s = some ([f (s.take (s.length - r.length)) vs], r) := by
  simp only [parse, hp]

theorem parse_cap_none {f : List α → List ν → ν} (hp : parse g s = none) :
    parse (cap f g) s = none := by
  simp only [parse, hp]

theorem parse_cap_append {f : List α → List ν → ν} {t : List α}
    (hp : parse g (t ++ r) = some (vs, r)) : parse (cap f g) (t ++ r) = some ([f t vs], r) := by
  rw [parse_cap_some hp]
  simp

theorem parse_alt (hp : parse (alt g h) s = some (vs, r)) :
    parse g s = some (vs, r) ∨ parse h s = some (vs, r) := by
  simp only [parse] at hp
  split at hp
  · exact .inr hp
  · next out hg => exact .inl (hg.trans hp)

theorem parse_rep {lo hi : ℕ} (hp : parse (rep lo hi g) s = some (vs, r)) :
    ∃ k, greedy (parse g) hi s = (vs, r, k) ∧ lo ≤ k := by
  simp only [parse] at hp
  rcases hgreedy : greedy (parse g) hi s with ⟨ws, t, k⟩
  rw [hgreedy] at hp
  dsimp only at hp
  split_ifs at hp with hlo
  obtain ⟨rfl, rfl⟩ := Prod.mk.inj (Option.some.inj hp)
  exact ⟨k, rfl, hlo⟩

theorem parse_rep_of_greedy {lo hi k : ℕ} (h : greedy (parse g) hi s = (vs, r, k))
    (hlo : lo ≤ k) : parse (rep lo hi g) s = some (vs, r) := by
  simp only [parse, h, if_pos hlo]

theorem parse_rep_some (hi : ℕ) (g : Peg α ν) (s : List α) :
    ∃ out, parse (rep 0 hi g) s = some out := by
  simp only [parse, Nat.zero_le, if_true]
  exact ⟨_, rfl⟩

theorem greedy_none {n : ℕ} (hp : p s = none) : greedy p n s = ([], s, 0) := by
  cases n with
  | zero => rfl
  | succ n => simp only [greedy, hp]

/-- A repetition stops, or parses once and goes on. -/
theorem greedy_succ {n k : ℕ} (h : greedy p (n + 1) s = (vs, r, k)) :
    (p s = none ∧ vs = [] ∧ r = s ∧ k = 0) ∨
    ∃ ws t ws' k', p s = some (ws, t) ∧ greedy p n t = (ws', r, k') ∧
      vs = ws ++ ws' ∧ k = k' + 1 := by
  simp only [greedy] at h
  split at h
  · next hp =>
    simp only [Prod.mk.injEq] at h
    exact .inl ⟨hp, h.1.symm, h.2.1.symm, h.2.2.symm⟩
  · next ws t hp =>
    simp only [Prod.mk.injEq] at h
    refine .inr ⟨ws, t, (greedy p n t).1, (greedy p n t).2.2, hp, ?_, h.1.symm, h.2.2.symm⟩
    rw [← h.2.1]

/-- The repetition of a set stops at its bound, or in front of a symbol that the
set does not accept. -/
theorem greedy_set {q : α → Bool} {n k : ℕ}
    (h : greedy (parse (set q : Peg α ν)) n s = (vs, r, k)) :
    ∃ t, s = t ++ r ∧ vs = [] ∧ t.length ≤ n ∧ (∀ a ∈ t, q a = true) ∧
      (t.length = n ∨ ∀ a ∈ r.head?, q a = false) := by
  induction n generalizing s vs k with
  | zero =>
    simp only [greedy, Prod.mk.injEq] at h
    obtain ⟨rfl, rfl, -⟩ := h
    exact ⟨[], rfl, rfl, Nat.le_refl 0, by simp, .inl rfl⟩
  | succ n ih =>
    rcases greedy_succ h with ⟨hnone, rfl, rfl, -⟩ | ⟨ws, u, ws', k', hone, hrest, rfl, -⟩
    · refine ⟨[], rfl, rfl, Nat.zero_le _, by simp, .inr fun a ha => ?_⟩
      obtain ⟨u, rfl⟩ := List.head?_eq_some_iff.mp ha
      by_contra hq
      simp [hq] at hnone
    · obtain ⟨t, rfl, rfl, hlen, hall, hstop⟩ := ih hrest
      cases s with
      | nil => cases hone
      | cons a s =>
        simp only [parse] at hone
        split_ifs at hone with ha
        obtain ⟨rfl, rfl⟩ := Prod.mk.inj (Option.some.inj hone)
        refine ⟨a :: t, rfl, rfl, Nat.succ_le_succ hlen, ?_, hstop.imp (congrArg Nat.succ) id⟩
        simpa [ha] using hall

theorem parse_rep_set {q : α → Bool} {lo hi : ℕ}
    (hp : parse (rep lo hi (set q) : Peg α ν) s = some (vs, r)) :
    ∃ t, s = t ++ r ∧ vs = [] ∧ t.length ≤ hi ∧ (∀ a ∈ t, q a = true) ∧
      (t.length = hi ∨ ∀ a ∈ r.head?, q a = false) := by
  obtain ⟨k, hgreedy, -⟩ := parse_rep hp
  exact greedy_set hgreedy

theorem parse_alt_set (q q' : α → Bool) :
    parse (alt (set q) (set q') : Peg α ν) = parse (set fun a => q a || q' a) := by
  funext s
  cases s with
  | nil => rfl
  | cons a s => cases hq : q a <;> simp [hq]

theorem parse_rep_congr {lo hi : ℕ} (hgh : parse g = parse h) :
    parse (rep lo hi g) = parse (rep lo hi h) := by
  funext s
  simp only [parse, hgh]

theorem greedy_all {Q : ν → Prop} (hp : ∀ s vs r, p s = some (vs, r) → ∀ v ∈ vs, Q v)
    {n k : ℕ} (h : greedy p n s = (vs, r, k)) : ∀ v ∈ vs, Q v := by
  induction n generalizing s vs k with
  | zero =>
    obtain ⟨rfl, -⟩ := Prod.mk.inj h
    simp
  | succ n ih =>
    rcases greedy_succ h with ⟨-, rfl, -, -⟩ | ⟨ws, t, ws', k', hps, hrest, rfl, -⟩
    · simp
    · intro v hv
      rcases List.mem_append.mp hv with hv | hv
      · exact hp s ws t hps v hv
      · exact ih hrest v hv

theorem greedy_suffix (hp : ∀ s vs r, p s = some (vs, r) → ∃ t, s = t ++ r)
    {n k : ℕ} (h : greedy p n s = (vs, r, k)) : ∃ t, s = t ++ r := by
  induction n generalizing s vs k with
  | zero =>
    obtain ⟨-, h⟩ := Prod.mk.inj h
    obtain ⟨rfl, -⟩ := Prod.mk.inj h
    exact ⟨[], rfl⟩
  | succ n ih =>
    rcases greedy_succ h with ⟨-, -, rfl, -⟩ | ⟨ws, t, ws', k', hps, hrest, -, -⟩
    · exact ⟨[], rfl⟩
    · obtain ⟨t₁, rfl⟩ := hp s ws t hps
      obtain ⟨t₂, rfl⟩ := ih hrest
      exact ⟨t₁ ++ t₂, (List.append_assoc _ _ _).symm⟩

theorem captures {Q : ν → Prop} (hq : Captures Q g) (hp : parse g s = some (vs, r)) :
    ∀ v ∈ vs, Q v := by
  induction g generalizing s vs r with
  | set q =>
    cases s with
    | nil => cases hp
    | cons a s =>
      simp only [parse] at hp
      split_ifs at hp
      obtain ⟨rfl, -⟩ := Prod.mk.inj (Option.some.inj hp)
      simp
  | seq g h ihg ihh =>
    obtain ⟨ws, t, ws', hg, hh, rfl⟩ := parse_seq.mp hp
    intro v hv
    rcases List.mem_append.mp hv with hv | hv
    · exact ihg hq.1 hg v hv
    · exact ihh hq.2 hh v hv
  | alt g h ihg ihh =>
    rcases parse_alt hp with hp | hp
    · exact ihg hq.1 hp
    · exact ihh hq.2 hp
  | rep lo hi g ih =>
    obtain ⟨k, hgreedy, -⟩ := parse_rep hp
    exact greedy_all (fun s vs r => ih hq) hgreedy
  | cap f g ih =>
    obtain ⟨ws, hg, rfl⟩ := parse_cap hp
    intro v hv
    rw [List.mem_singleton.mp hv]
    exact hq s ws r hg

theorem Yields.captures {Q : ν → Prop} (hq : Yields Q g) : Captures Q g := by
  induction g with
  | set q => trivial
  | seq g h ihg ihh => exact ⟨ihg hq.1, ihh hq.2⟩
  | alt g h ihg ihh => exact ⟨ihg hq.1, ihh hq.2⟩
  | rep lo hi g ih => exact ih hq
  | cap f g ih => exact fun _ _ _ _ => hq _ _

theorem yields {Q : ν → Prop} (hq : Yields Q g) (hp : parse g s = some (vs, r)) :
    ∀ v ∈ vs, Q v := captures hq.captures hp

theorem yields_of_silent (hs : silent g = true) : Yields (fun _ => False) g := by
  induction g with
  | set q => trivial
  | seq g h ihg ihh =>
    simp only [silent, Bool.and_eq_true] at hs
    exact ⟨ihg hs.1, ihh hs.2⟩
  | alt g h ihg ihh =>
    simp only [silent, Bool.and_eq_true] at hs
    exact ⟨ihg hs.1, ihh hs.2⟩
  | rep lo hi g ih => exact ih hs
  | cap f g ih => cases hs

theorem silent_nil (hs : silent g = true) (hp : parse g s = some (vs, r)) : vs = [] :=
  List.eq_nil_iff_forall_not_mem.mpr fun v hv => yields (yields_of_silent hs) hp v hv

theorem parse_suffix (hp : parse g s = some (vs, r)) : ∃ t, s = t ++ r := by
  induction g generalizing s vs r with
  | set q =>
    cases s with
    | nil => cases hp
    | cons a s =>
      simp only [parse] at hp
      split_ifs at hp
      obtain ⟨-, rfl⟩ := Prod.mk.inj (Option.some.inj hp)
      exact ⟨[a], rfl⟩
  | seq g h ihg ihh =>
    obtain ⟨ws, t, ws', hg, hh, -⟩ := parse_seq.mp hp
    obtain ⟨t₁, rfl⟩ := ihg hg
    obtain ⟨t₂, rfl⟩ := ihh hh
    exact ⟨t₁ ++ t₂, (List.append_assoc _ _ _).symm⟩
  | alt g h ihg ihh =>
    rcases parse_alt hp with hp | hp
    · exact ihg hp
    · exact ihh hp
  | rep lo hi g ih =>
    obtain ⟨k, hrep, -⟩ := parse_rep hp
    exact greedy_suffix (fun s vs r => ih) hrep
  | cap f g ih =>
    obtain ⟨ws, hg, -⟩ := parse_cap hp
    exact ih hg

theorem greedy_barrier (hp : ∀ s, p (s ++ u) = (p s).map (extend u)) (n : ℕ) (s : List α) :
    greedy p n (s ++ u) =
      ((greedy p n s).1, (greedy p n s).2.1 ++ u, (greedy p n s).2.2) := by
  induction n generalizing s with
  | zero => rfl
  | succ n ih =>
    simp only [greedy, hp]
    cases hps : p s with
    | none => rfl
    | some out => simp only [Option.map_some, extend, ih]

theorem parse_barrier {b : α} (ha : avoids b g = true) (s u : List α) :
    parse g (s ++ b :: u) = (parse g s).map (extend (b :: u)) := by
  induction g generalizing s with
  | set q =>
    cases s with
    | nil =>
      have hb : q b = false := by simpa [avoids] using ha
      simp [parse, hb]
    | cons a s =>
      simp only [List.cons_append, parse]
      split_ifs <;> rfl
  | seq g h ihg ihh =>
    simp only [avoids, Bool.and_eq_true] at ha
    simp only [parse, ihg ha.1]
    cases hg : parse g s with
    | none => rfl
    | some out =>
      simp only [Option.map_some, extend, ihh ha.2]
      cases hh : parse h out.2 with
      | none => rfl
      | some out' => rfl
  | alt g h ihg ihh =>
    simp only [avoids, Bool.and_eq_true] at ha
    simp only [parse, ihg ha.1, ihh ha.2]
    cases hg : parse g s with
    | none => rfl
    | some out => rfl
  | rep lo hi g ih =>
    simp only [parse, greedy_barrier (ih ha) hi s]
    split_ifs <;> rfl
  | cap f g ih =>
    simp only [parse, ih ha]
    cases hg : parse g s with
    | none => rfl
    | some out =>
      obtain ⟨vs, r⟩ := out
      obtain ⟨t, rfl⟩ := parse_suffix hg
      simp [extend]

end Parse

end Peg

end Lawd.Library

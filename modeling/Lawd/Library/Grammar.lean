import Lawd.Library.Peg
import Mathlib.Algebra.Order.Ring.Nat

/-!
# Expressions as grammars

Parsing expressions read as a context-free grammar: a choice is free, and a
repetition makes any number of copies within its bounds. What is parsed is
derived. A derived text is parsed in full where no choice and no repetition
takes something else, and this depends on what may follow the text.
-/
namespace Lawd.Library.Peg

variable {α ν : Type}

/-- The texts derived from an expression, with the captured values. -/
inductive Derives : Peg α ν → List α → List ν → Prop
  | set {p : α → Bool} {a : α} : p a = true → Derives (.set p) [a] []
  | seq {g h : Peg α ν} {s t : List α} {vs ws : List ν} :
      Derives g s vs → Derives h t ws → Derives (.seq g h) (s ++ t) (vs ++ ws)
  | left {g h : Peg α ν} {t : List α} {vs : List ν} : Derives g t vs → Derives (.alt g h) t vs
  | right {g h : Peg α ν} {t : List α} {vs : List ν} : Derives h t vs → Derives (.alt g h) t vs
  | none {hi : ℕ} {g : Peg α ν} : Derives (.rep 0 hi g) [] []
  | copy {lo hi : ℕ} {g : Peg α ν} {s t : List α} {vs ws : List ν} :
      Derives g s vs → Derives (.rep (lo - 1) hi g) t ws →
      Derives (.rep lo (hi + 1) g) (s ++ t) (vs ++ ws)
  | cap {f : List α → List ν → ν} {g : Peg α ν} {t : List α} {vs : List ν} :
      Derives g t vs → Derives (.cap f g) t [f t vs]

/-- The texts of the grammar. -/
def Generates (g : Peg α ν) (t : List α) : Prop := ∃ vs, Derives g t vs

/-- The expression without its captures. -/
def strip : Peg α ν → Peg α ν
  | set p => set p
  | seq g h => seq (strip g) (strip h)
  | alt g h => alt (strip g) (strip h)
  | rep lo hi g => rep lo hi (strip g)
  | cap _ g => strip g

/-- The empty text may be derived. -/
def nullable : Peg α ν → Bool
  | set _ => false
  | seq g h => nullable g && nullable h
  | alt g h => nullable g || nullable h
  | rep lo _ g => lo == 0 || nullable g
  | cap _ g => nullable g

/-- The symbols that derived texts begin with. -/
def first : Peg α ν → α → Bool
  | set p, a => p a
  | seq g h, a => first g a || (nullable g && first h a)
  | alt g h, a => first g a || first h a
  | rep _ _ g, a => first g a
  | cap _ g, a => first g a

/-- The shortest derived texts. -/
def minLen : Peg α ν → ℕ
  | set _ => 1
  | seq g h => minLen g + minLen h
  | alt g h => min (minLen g) (minLen h)
  | rep lo _ g => lo * minLen g
  | cap _ g => minLen g

/-- The longest derived texts. -/
def maxLen : Peg α ν → ℕ
  | set _ => 1
  | seq g h => maxLen g + maxLen h
  | alt g h => max (maxLen g) (maxLen h)
  | rep _ hi g => hi * maxLen g
  | cap _ g => maxLen g

/-- Every symbol that a set of the expression accepts satisfies `P`. -/
def Over (P : α → Prop) : Peg α ν → Prop
  | set p => ∀ a, p a = true → P a
  | seq g h => Over P g ∧ Over P h
  | alt g h => Over P g ∧ Over P h
  | rep _ _ g => Over P g
  | cap _ g => Over P g

section Derives

variable {g h : Peg α ν} {s t r : List α} {vs : List ν}

theorem derives_of_greedy {p : List α → Option (List ν × List α)}
    (hp : ∀ s vs r, p s = some (vs, r) → ∃ t, s = t ++ r ∧ Derives g t vs) {n k : ℕ}
    (h : greedy p n s = (vs, r, k)) :
    ∃ t, s = t ++ r ∧ ∀ lo ≤ k, Derives (.rep lo n g) t vs := by
  induction n generalizing s vs k with
  | zero =>
    simp only [greedy, Prod.mk.injEq] at h
    obtain ⟨rfl, rfl, rfl⟩ := h
    refine ⟨[], rfl, fun lo hlo => ?_⟩
    rw [Nat.le_zero.mp hlo]
    exact .none
  | succ n ih =>
    rcases greedy_succ h with ⟨-, rfl, rfl, rfl⟩ | ⟨ws, u, ws', k', hps, hrest, rfl, rfl⟩
    · refine ⟨[], rfl, fun lo hlo => ?_⟩
      rw [Nat.le_zero.mp hlo]
      exact .none
    · obtain ⟨t₁, rfl, hfirst⟩ := hp s ws u hps
      obtain ⟨t₂, rfl, hcopies⟩ := ih hrest
      exact ⟨t₁ ++ t₂, (List.append_assoc _ _ _).symm,
        fun lo hlo => .copy hfirst (hcopies (lo - 1) (by omega))⟩

theorem derives_of_parse (hp : parse g s = some (vs, r)) :
    ∃ t, s = t ++ r ∧ Derives g t vs := by
  induction g generalizing s vs r with
  | set q =>
    cases s with
    | nil => cases hp
    | cons a s =>
      simp only [parse] at hp
      split_ifs at hp with ha
      obtain ⟨rfl, rfl⟩ := Prod.mk.inj (Option.some.inj hp)
      exact ⟨[a], rfl, .set ha⟩
  | seq g h ihg ihh =>
    obtain ⟨ws, u, ws', hg, hh, rfl⟩ := parse_seq.mp hp
    obtain ⟨t₁, rfl, hd₁⟩ := ihg hg
    obtain ⟨t₂, rfl, hd₂⟩ := ihh hh
    exact ⟨t₁ ++ t₂, (List.append_assoc _ _ _).symm, .seq hd₁ hd₂⟩
  | alt g h ihg ihh =>
    rcases parse_alt hp with hp | hp
    · obtain ⟨t, rfl, hd⟩ := ihg hp
      exact ⟨t, rfl, .left hd⟩
    · obtain ⟨t, rfl, hd⟩ := ihh hp
      exact ⟨t, rfl, .right hd⟩
  | rep lo hi g ih =>
    obtain ⟨k, hgreedy, hlo⟩ := parse_rep hp
    obtain ⟨t, rfl, hd⟩ := derives_of_greedy (fun s vs r => ih) hgreedy
    exact ⟨t, rfl, hd lo hlo⟩
  | cap f g ih =>
    obtain ⟨ws, hg, rfl⟩ := parse_cap hp
    obtain ⟨t, rfl, hd⟩ := ih hg
    refine ⟨t, rfl, ?_⟩
    have htext : (t ++ r).take ((t ++ r).length - r.length) = t := by simp
    rw [htext]
    exact .cap hd

theorem derives_of_full (hp : parse g t = some (vs, [])) : Derives g t vs := by
  obtain ⟨u, hu, hd⟩ := derives_of_parse hp
  rw [List.append_nil] at hu
  rwa [hu]

theorem derives_strip (hd : Derives g t vs) : Derives (strip g) t [] := by
  induction hd with
  | set ha => exact .set ha
  | seq _ _ ih ih' => exact .seq ih ih'
  | left _ ih => exact .left ih
  | right _ ih => exact .right ih
  | none => exact .none
  | copy _ _ ih ih' => exact .copy ih ih'
  | cap _ ih => exact ih

theorem generates_rep_strip {lo hi : ℕ} (ih : ∀ t vs, Derives (strip g) t vs → Generates g t)
    (hd : Derives (.rep lo hi (strip g)) t vs) : Generates (.rep lo hi g) t := by
  induction hi generalizing lo t vs with
  | zero =>
    cases hd
    exact ⟨[], .none⟩
  | succ hi ihi =>
    cases hd with
    | none => exact ⟨[], .none⟩
    | copy hd hrest =>
      obtain ⟨ws, hd⟩ := ih _ _ hd
      obtain ⟨ws', hrest⟩ := ihi hrest
      exact ⟨ws ++ ws', .copy hd hrest⟩

theorem generates_of_strip (hd : Derives (strip g) t vs) : Generates g t := by
  induction g generalizing t vs with
  | set p => exact ⟨vs, hd⟩
  | seq g h ihg ihh =>
    cases hd with
    | seq hd hd' =>
      obtain ⟨ws, hg⟩ := ihg hd
      obtain ⟨ws', hh⟩ := ihh hd'
      exact ⟨ws ++ ws', .seq hg hh⟩
  | alt g h ihg ihh =>
    cases hd with
    | left hd => exact (ihg hd).imp fun _ => .left
    | right hd => exact (ihh hd).imp fun _ => .right
  | rep lo hi g ih => exact generates_rep_strip (fun t vs => ih) hd
  | cap f g ih =>
    obtain ⟨ws, hg⟩ := ih hd
    exact ⟨[f t ws], .cap hg⟩

@[simp] theorem generates_strip : Generates (strip g) t ↔ Generates g t :=
  ⟨fun ⟨_, hd⟩ => generates_of_strip hd, fun ⟨_, hd⟩ => ⟨[], derives_strip hd⟩⟩

theorem Derives.first_or (hd : Derives g t vs) :
    (t = [] ∧ nullable g = true) ∨ ∃ a u, t = a :: u ∧ first g a = true := by
  induction hd with
  | set ha => exact .inr ⟨_, [], rfl, ha⟩
  | seq _ _ ih ih' =>
    obtain ⟨rfl, hnull⟩ | ⟨a, u, rfl, ha⟩ := ih
    · obtain ⟨rfl, hnull'⟩ | ⟨a, u, rfl, ha⟩ := ih'
      · exact .inl ⟨rfl, by simp [nullable, hnull, hnull']⟩
      · exact .inr ⟨a, u, rfl, by simp [Peg.first, hnull, ha]⟩
    · exact .inr ⟨a, _, rfl, by simp [Peg.first, ha]⟩
  | left _ ih =>
    obtain ⟨rfl, hnull⟩ | ⟨a, u, rfl, ha⟩ := ih
    · exact .inl ⟨rfl, by simp [nullable, hnull]⟩
    · exact .inr ⟨a, u, rfl, by simp [Peg.first, ha]⟩
  | right _ ih =>
    obtain ⟨rfl, hnull⟩ | ⟨a, u, rfl, ha⟩ := ih
    · exact .inl ⟨rfl, by simp [nullable, hnull]⟩
    · exact .inr ⟨a, u, rfl, by simp [Peg.first, ha]⟩
  | none => exact .inl ⟨rfl, by simp [nullable]⟩
  | copy _ _ ih ih' =>
    obtain ⟨rfl, hnull⟩ | ⟨a, u, rfl, ha⟩ := ih
    · obtain ⟨rfl, -⟩ | ⟨a, u, rfl, ha⟩ := ih'
      · exact .inl ⟨rfl, by simp [nullable, hnull]⟩
      · exact .inr ⟨a, u, rfl, ha⟩
    · exact .inr ⟨a, _, rfl, ha⟩
  | cap _ ih => exact ih

/-- A text of an expression that derives no empty text begins with one of its
first symbols. -/
theorem Derives.first (hd : Derives g t vs) (hnull : nullable g = false) :
    ∃ a u, t = a :: u ∧ first g a = true := by
  obtain ⟨-, h⟩ | h := hd.first_or
  · rw [hnull] at h
    cases h
  · exact h

theorem Derives.avoids {b : α} (hd : Derives g t vs) (ha : avoids b g = true) : b ∉ t := by
  induction hd with
  | set hp =>
    rintro hb
    rw [← List.mem_singleton.mp hb] at hp
    simp [Peg.avoids, hp] at ha
  | seq _ _ ih ih' =>
    simp only [Peg.avoids, Bool.and_eq_true] at ha
    simp [ih ha.1, ih' ha.2]
  | left _ ih =>
    simp only [Peg.avoids, Bool.and_eq_true] at ha
    exact ih ha.1
  | right _ ih =>
    simp only [Peg.avoids, Bool.and_eq_true] at ha
    exact ih ha.2
  | none => simp
  | copy _ _ ih ih' => simp [ih ha, ih' ha]
  | cap _ ih => exact ih ha

theorem Derives.over {P : α → Prop} (hd : Derives g t vs) (hg : Over P g) : ∀ a ∈ t, P a := by
  induction hd with
  | set ha =>
    intro a hmem
    rw [List.mem_singleton.mp hmem]
    exact hg _ ha
  | seq _ _ ih ih' =>
    intro a hmem
    obtain hmem | hmem := List.mem_append.mp hmem
    · exact ih hg.1 a hmem
    · exact ih' hg.2 a hmem
  | left _ ih => exact ih hg.1
  | right _ ih => exact ih hg.2
  | none => simp
  | copy _ _ ih ih' =>
    intro a hmem
    obtain hmem | hmem := List.mem_append.mp hmem
    · exact ih hg a hmem
    · exact ih' hg a hmem
  | cap _ ih => exact ih hg

theorem Derives.silent (hd : Derives g t vs) (hs : silent g = true) : vs = [] := by
  induction hd with
  | set => rfl
  | seq _ _ ih ih' =>
    simp only [Peg.silent, Bool.and_eq_true] at hs
    rw [ih hs.1, ih' hs.2, List.append_nil]
  | left _ ih =>
    simp only [Peg.silent, Bool.and_eq_true] at hs
    exact ih hs.1
  | right _ ih =>
    simp only [Peg.silent, Bool.and_eq_true] at hs
    exact ih hs.2
  | none => rfl
  | copy _ _ ih ih' => rw [ih hs, ih' hs, List.append_nil]
  | cap => cases hs

theorem Derives.length_le (hd : Derives g t vs) : t.length ≤ maxLen g := by
  induction hd with
  | set => simp [maxLen]
  | seq _ _ ih ih' =>
    simp only [List.length_append, maxLen]
    omega
  | left _ ih => exact ih.trans (le_max_left _ _)
  | right _ ih => exact ih.trans (le_max_right _ _)
  | none => exact Nat.zero_le _
  | copy _ _ ih ih' =>
    simp only [List.length_append, maxLen, Nat.succ_mul] at ih' ⊢
    omega
  | cap _ ih => exact ih

theorem Derives.le_length (hd : Derives g t vs) : minLen g ≤ t.length := by
  induction hd with
  | set => simp [minLen]
  | seq _ _ ih ih' =>
    simp only [List.length_append, minLen]
    omega
  | left _ ih => exact (min_le_left _ _).trans ih
  | right _ ih => exact (min_le_right _ _).trans ih
  | none => simp [minLen]
  | @copy lo hi g s t _ _ _ _ ih ih' =>
    simp only [List.length_append, minLen] at ih' ⊢
    cases lo with
    | zero => omega
    | succ lo =>
      rw [Nat.succ_mul]
      rw [Nat.add_sub_cancel] at ih'
      omega
  | cap _ ih => exact ih

theorem Derives.count_rep [DecidableEq α] {c : α} {n lo hi : ℕ}
    (hg : ∀ t vs, Derives g t vs → t.count c = n) (hd : Derives (.rep lo hi g) t vs) :
    ∃ k, lo ≤ k ∧ k ≤ hi ∧ t.count c = k * n := by
  induction hi generalizing lo t vs with
  | zero =>
    cases hd
    exact ⟨0, le_rfl, le_rfl, by simp⟩
  | succ hi ih =>
    cases hd with
    | none => exact ⟨0, le_rfl, Nat.zero_le _, by simp⟩
    | copy hd hrest =>
      obtain ⟨k, hlo, hhi, hcount⟩ := ih hrest
      refine ⟨k + 1, by omega, by omega, ?_⟩
      rw [List.count_append, hg _ _ hd, hcount, Nat.succ_mul, Nat.add_comm]

theorem Derives.copies {lo hi : ℕ} (hd : Derives (.rep lo hi g) t vs) :
    ∃ ps : List (List α × List ν), lo ≤ ps.length ∧ ps.length ≤ hi ∧
      (∀ p ∈ ps, Derives g p.1 p.2) ∧ t = ps.flatMap (·.1) ∧ vs = ps.flatMap (·.2) := by
  induction hi generalizing lo t vs with
  | zero =>
    cases hd
    exact ⟨[], le_rfl, le_rfl, by simp, rfl, rfl⟩
  | succ hi ih =>
    cases hd with
    | none => exact ⟨[], le_rfl, Nat.zero_le _, by simp, rfl, rfl⟩
    | @copy _ _ _ s u ws ws' hd hrest =>
      obtain ⟨ps, hlo, hhi, hps, rfl, rfl⟩ := ih hrest
      refine ⟨(s, ws) :: ps, ?_, Nat.succ_le_succ hhi, ?_, rfl, rfl⟩
      · rw [List.length_cons]
        omega
      · intro p hp
        obtain rfl | hp := List.mem_cons.mp hp
        · exact hd
        · exact hps p hp

theorem derives_of_copies {lo hi : ℕ} (ps : List (List α × List ν)) (hlo : lo ≤ ps.length)
    (hhi : ps.length ≤ hi) (h : ∀ p ∈ ps, Derives g p.1 p.2) :
    Derives (.rep lo hi g) (ps.flatMap (·.1)) (ps.flatMap (·.2)) := by
  induction ps generalizing lo hi with
  | nil =>
    rw [Nat.le_zero.mp hlo]
    exact .none
  | cons p ps ih =>
    obtain ⟨hi, rfl⟩ := Nat.exists_eq_add_of_le' (Nat.lt_of_lt_of_le (Nat.succ_pos _) hhi)
    rw [List.length_cons] at hlo hhi
    exact .copy (h p List.mem_cons_self)
      (ih (by omega) (by omega) fun q hq => h q (List.mem_cons_of_mem _ hq))

theorem generates_of_copies {lo hi : ℕ} {ts : List (List α)} (hlo : lo ≤ ts.length)
    (hhi : ts.length ≤ hi) (h : ∀ t ∈ ts, Generates g t) : Generates (.rep lo hi g) ts.flatten := by
  have hd : Derives (.rep lo hi (strip g)) _ _ :=
    derives_of_copies (ts.map fun t => (t, [])) (by simpa using hlo) (by simpa using hhi)
      fun p hp => by
        obtain ⟨t, ht, rfl⟩ := List.mem_map.mp hp
        exact derives_strip (h t ht).choose_spec
  have htext : (ts.map fun t => (t, ([] : List ν))).flatMap (·.1) = ts.flatten := by
    rw [List.flatMap_map, ← List.flatMap_id]
    rfl
  rw [htext] at hd
  exact generates_of_strip (g := .rep lo hi g) hd

theorem derives_rep_set {p : α → Bool} {lo hi : ℕ} :
    Derives (ν := ν) (.rep lo hi (.set p)) t vs ↔
      vs = [] ∧ lo ≤ t.length ∧ t.length ≤ hi ∧ ∀ a ∈ t, p a = true := by
  constructor
  · intro hd
    refine ⟨hd.silent rfl, ?_, ?_, ?_⟩
    · have hle := hd.le_length
      rwa [minLen, minLen, Nat.mul_one] at hle
    · have hle := hd.length_le
      rwa [maxLen, maxLen, Nat.mul_one] at hle
    · obtain ⟨ps, -, -, hps, rfl, -⟩ := hd.copies
      intro a ha
      obtain ⟨q, hq, ha⟩ := List.mem_flatMap.mp ha
      obtain ⟨u, us⟩ := q
      cases hps _ hq with
      | set hb => rwa [List.mem_singleton.mp ha]
  · rintro ⟨rfl, hlo, hhi, hp⟩
    have hd : Derives (ν := ν) (.rep lo hi (.set p)) _ _ :=
      derives_of_copies (t.map fun a => ([a], [])) (by simpa using hlo) (by simpa using hhi)
        fun q hq => by
          obtain ⟨a, ha, rfl⟩ := List.mem_map.mp hq
          exact .set (hp a ha)
    have hnil : (t.map fun a => ([a], ([] : List ν))).flatMap (·.2) = [] := by simp
    rw [hnil] at hd
    simpa [List.flatMap_map] using hd

/-! ### Texts of the forms of expressions -/

theorem generates_set {p : α → Bool} :
    Generates (ν := ν) (.set p) t ↔ ∃ a, p a = true ∧ t = [a] := by
  constructor
  · rintro ⟨vs, hd⟩
    cases hd with
    | set ha => exact ⟨_, ha, rfl⟩
  · rintro ⟨a, ha, rfl⟩
    exact ⟨[], .set ha⟩

theorem generates_seq :
    Generates (.seq g h) t ↔ ∃ s u, Generates g s ∧ Generates h u ∧ t = s ++ u := by
  constructor
  · rintro ⟨vs, hd⟩
    cases hd with
    | seq hd hd' => exact ⟨_, _, ⟨_, hd⟩, ⟨_, hd'⟩, rfl⟩
  · rintro ⟨s, u, ⟨vs, hd⟩, ⟨ws, hd'⟩, rfl⟩
    exact ⟨_, .seq hd hd'⟩

@[simp] theorem generates_alt : Generates (.alt g h) t ↔ Generates g t ∨ Generates h t := by
  constructor
  · rintro ⟨vs, hd⟩
    cases hd with
    | left hd => exact .inl ⟨_, hd⟩
    | right hd => exact .inr ⟨_, hd⟩
  · rintro (⟨vs, hd⟩ | ⟨vs, hd⟩)
    · exact ⟨_, .left hd⟩
    · exact ⟨_, .right hd⟩

theorem generates_rep {lo hi : ℕ} : Generates (.rep lo hi g) t ↔
    ∃ ts : List (List α), lo ≤ ts.length ∧ ts.length ≤ hi ∧ (∀ u ∈ ts, Generates g u) ∧
      t = ts.flatten := by
  constructor
  · rintro ⟨vs, hd⟩
    obtain ⟨ps, hlo, hhi, hps, rfl, -⟩ := hd.copies
    refine ⟨ps.map (·.1), by simpa using hlo, by simpa using hhi, fun u hu => ?_, ?_⟩
    · obtain ⟨p, hp, rfl⟩ := List.mem_map.mp hu
      exact ⟨_, hps p hp⟩
    · rw [List.flatMap_def]
  · rintro ⟨ts, hlo, hhi, hts, rfl⟩
    exact generates_of_copies hlo hhi hts

theorem generates_rep_of_iff {β : Type} {P : β → Prop} {f : β → List α} {lo hi : ℕ}
    (hg : ∀ u, Generates g u ↔ ∃ x, P x ∧ u = f x) : Generates (.rep lo hi g) t ↔
    ∃ xs : List β, lo ≤ xs.length ∧ xs.length ≤ hi ∧ (∀ x ∈ xs, P x) ∧ t = xs.flatMap f := by
  rw [generates_rep]
  constructor
  · rintro ⟨ts, hlo, hhi, hts, rfl⟩
    have hxs : ∃ xs : List β, (∀ x ∈ xs, P x) ∧ ts = xs.map f := by
      clear hlo hhi
      induction ts with
      | nil => exact ⟨[], by simp, rfl⟩
      | cons u ts ih =>
        obtain ⟨x, hx, rfl⟩ := (hg u).mp (hts u List.mem_cons_self)
        obtain ⟨xs, hxs, rfl⟩ := ih fun v hv => hts v (List.mem_cons_of_mem _ hv)
        exact ⟨x :: xs, List.forall_mem_cons.mpr ⟨hx, hxs⟩, rfl⟩
    obtain ⟨xs, hxs, rfl⟩ := hxs
    rw [List.length_map] at hlo hhi
    exact ⟨xs, hlo, hhi, hxs, List.flatMap_def.symm⟩
  · rintro ⟨xs, hlo, hhi, hxs, rfl⟩
    refine ⟨xs.map f, by simpa using hlo, by simpa using hhi, fun u hu => ?_, List.flatMap_def⟩
    obtain ⟨x, hx, rfl⟩ := List.mem_map.mp hu
    exact (hg _).mpr ⟨x, hxs x hx, rfl⟩

@[simp] theorem generates_opt : Generates (.rep 0 1 g) t ↔ t = [] ∨ Generates g t := by
  rw [generates_rep]
  constructor
  · rintro ⟨ts, -, hhi, hts, rfl⟩
    match ts with
    | [] => exact .inl rfl
    | [u] => exact .inr (by simpa using hts)
    | _ :: _ :: _ => simp at hhi
  · rintro (rfl | h)
    · exact ⟨[], le_rfl, Nat.zero_le 1, by simp, rfl⟩
    · exact ⟨[t], Nat.zero_le 1, le_rfl, by simpa using h, by simp⟩

@[simp] theorem generates_once : Generates (.rep 1 1 g) t ↔ Generates g t := by
  rw [generates_rep]
  constructor
  · rintro ⟨ts, hlo, hhi, hts, rfl⟩
    obtain ⟨u, rfl⟩ := List.length_eq_one_iff.mp (Nat.le_antisymm hhi hlo)
    simpa using hts
  · intro h
    exact ⟨[t], le_rfl, le_rfl, by simpa using h, by simp⟩

theorem generates_seq_assoc {k : Peg α ν} :
    Generates (.seq (.seq g h) k) t ↔ Generates (.seq g (.seq h k)) t := by
  simp only [generates_seq]
  constructor
  · rintro ⟨_, w, ⟨s, u, hs, hu, rfl⟩, hw, rfl⟩
    exact ⟨s, u ++ w, hs, ⟨u, w, hu, hw, rfl⟩, List.append_assoc _ _ _⟩
  · rintro ⟨s, _, hs, ⟨u, w, hu, hw, rfl⟩, rfl⟩
    exact ⟨s ++ u, w, ⟨s, u, hs, hu, rfl⟩, hw, (List.append_assoc _ _ _).symm⟩

end Derives

/-- Every derived text is parsed as derived, and no further, where one of these
rests follows it. -/
def Exact (F : List α → Prop) (g : Peg α ν) : Prop :=
  ∀ t vs r, Derives g t vs → F r → parse g (t ++ r) = some (vs, r)

/-- The rest is empty or begins with one of the symbols. -/
def Heads (cs : List α) (r : List α) : Prop := ∀ a ∈ r.head?, a ∈ cs

section Exact

variable {F G : List α → Prop} {g h : Peg α ν} {cs t r r' : List α} {vs ws : List ν}

theorem heads_nil : Heads cs [] := by
  intro a ha
  cases ha

theorem heads_cons {a : α} (ha : a ∈ cs) : Heads cs (a :: r) := by
  intro b hb
  obtain rfl := Option.some.inj hb
  exact ha

theorem Heads.mono {ds : List α} (hr : Heads cs r) (h : ∀ a ∈ cs, a ∈ ds) : Heads ds r :=
  fun a ha => h a (hr a ha)

theorem Derives.heads_append (hd : Derives g t vs) (hfirst : ∀ a, Peg.first g a = true → a ∈ cs)
    (hr : nullable g = true → Heads cs r) : Heads cs (t ++ r) := by
  obtain ⟨rfl, hnull⟩ | ⟨a, u, rfl, ha⟩ := hd.first_or
  · exact hr hnull
  · exact heads_cons (hfirst a ha)

theorem parse_none_of_heads (hnull : nullable g = false)
    (hcs : ∀ a ∈ cs, first g a = false) (hr : Heads cs r) : parse g r = none := by
  cases hp : parse g r with
  | none => rfl
  | some out =>
    obtain ⟨t, rfl, hd⟩ := derives_of_parse hp
    obtain ⟨a, u, rfl, ha⟩ := hd.first hnull
    have hfirst := hcs a (hr a rfl)
    rw [ha] at hfirst
    cases hfirst

theorem parse_none_of_first {a : α} {u : List α} (hnull : nullable g = false)
    (ha : first g a = false) : parse g (a :: u) = none := by
  refine parse_none_of_heads hnull (fun b hb => ?_) (heads_cons (List.mem_singleton_self a))
  rw [List.mem_singleton.mp hb, ha]

/-- A parse does not go past the text where the expression avoids the symbol
that follows. -/
theorem parse_within {out : List ν × List α} (hp : parse g (t ++ r) = some out)
    (ha : ∀ a ∈ r.head?, avoids a g = true) :
    ∃ x y, t = x ++ y ∧ out.2 = y ++ r ∧ Derives g x out.1 := by
  obtain ⟨ws, r'⟩ := out
  obtain ⟨x, hx, hd⟩ := derives_of_parse hp
  obtain ⟨y, hy, hr⟩ | ⟨y, hy, hr⟩ := List.append_eq_append_iff.mp hx
  · cases y with
    | nil => exact ⟨t, [], by simp, by simpa using hr.symm, by simpa [hy] using hd⟩
    | cons a y =>
      have hmem : a ∈ x := by simp [hy]
      exact absurd hmem (hd.avoids (ha a (by simp [hr])))
  · exact ⟨x, y, hy, hr, hd⟩

theorem exact_set {p : α → Bool} : Exact F (set p : Peg α ν) := by
  intro t vs r hd _
  cases hd with
  | set ha => simp [parse, ha]

theorem Exact.mono (hg : Exact G g) (h : ∀ r, F r → G r) : Exact F g :=
  fun t vs r hd hr => hg t vs r hd (h r hr)

theorem Exact.seq (hg : Exact G g) (hh : Exact F h)
    (hnext : ∀ t vs r, Derives h t vs → F r → G (t ++ r)) : Exact F (.seq g h) := by
  intro t vs r hd hr
  cases hd with
  | @seq _ _ s u _ _ hd hd' =>
    refine parse_seq.mpr ⟨_, u ++ r, _, ?_, hh _ _ r hd' hr, rfl⟩
    rw [List.append_assoc]
    exact hg _ _ _ hd (hnext _ _ r hd' hr)

theorem parse_alt_left {out : List ν × List α} (hp : parse g t = some out) :
    parse (.alt g h) t = some out := by
  simp only [parse, hp]

theorem parse_alt_right (hp : parse g t = none) : parse (.alt g h) t = parse h t := by
  simp only [parse, hp]

theorem parse_rep_none {hi : ℕ} (hp : parse g t = none) :
    parse (.rep 0 hi g) t = some ([], t) := by
  simp only [parse, greedy_none hp, if_pos le_rfl]

/-- A choice is exact if its first alternative takes nothing else from a text of
the second one. -/
theorem Exact.alt (hg : Exact F g) (hh : Exact F h)
    (hchoice : ∀ t vs r, Derives h t vs → F r →
      ∀ out, parse g (t ++ r) = some out → out = (vs, r)) : Exact F (.alt g h) := by
  intro t vs r hd hr
  cases hd with
  | left hd => exact parse_alt_left (hg t vs r hd hr)
  | right hd =>
    cases hp : parse g (t ++ r) with
    | none => rw [parse_alt_right hp, hh t vs r hd hr]
    | some out => rw [parse_alt_left hp, hchoice t vs r hd hr out hp]

theorem Exact.alt_of_first (hg : Exact F g) (hh : Exact F h) (hnull : nullable g = false)
    (hnull' : nullable h = false) (hfirst : ∀ a, first h a = true → first g a = false) :
    Exact F (.alt g h) := by
  refine hg.alt hh fun t vs r hd _ out hp => ?_
  obtain ⟨a, u, rfl, ha⟩ := hd.first hnull'
  have hnone : parse g (a :: u ++ r) = none := parse_none_of_first hnull (hfirst a ha)
  rw [hnone] at hp
  cases hp

/-- No text of the first alternative is the beginning of one of the second. -/
theorem Exact.alt_of_begin (hg : Exact F g) (hh : Exact F h)
    (havoid : ∀ r, F r → ∀ a ∈ r.head?, avoids a g = true)
    (hbegins : ∀ x y vs ws, Derives g x ws → Derives h (x ++ y) vs → False) :
    Exact F (.alt g h) := by
  refine hg.alt hh fun t vs r hd hr out hp => ?_
  obtain ⟨x, y, rfl, -, hx⟩ := parse_within hp (havoid r hr)
  exact (hbegins x y vs out.1 hx hd).elim

theorem Exact.alt_of_length (hg : Exact F g) (hh : Exact F h)
    (havoid : ∀ r, F r → ∀ a ∈ r.head?, avoids a g = true) (hlen : maxLen h ≤ minLen g)
    (hs : silent g = true) (hs' : silent h = true) : Exact F (.alt g h) := by
  refine hg.alt hh fun t vs r hd hr out hp => ?_
  obtain ⟨x, y, rfl, hout, hx⟩ := parse_within hp (havoid r hr)
  have hle := hd.length_le
  have hge := hx.le_length
  rw [List.length_append] at hle
  obtain rfl : y = [] := List.eq_nil_of_length_eq_zero (by omega)
  rw [hd.silent hs']
  exact Prod.ext (hx.silent hs) hout

/-- The copies of a repetition are parsed one after the other. -/
theorem greedy_exact (hg : Exact G g) (hcopy : ∀ t vs r, Derives g t vs → G r → G (t ++ r))
    {n lo : ℕ} (hd : Derives (.rep lo n g) t vs) (hr : G r)
    (hstop : lo < n → parse g r = none) :
    ∃ k, lo ≤ k ∧ greedy (parse g) n (t ++ r) = (vs, r, k) := by
  have hfollow : ∀ {n lo t vs}, Derives (.rep lo n g) t vs → G (t ++ r) := by
    intro n
    induction n with
    | zero =>
      intro lo t vs hd
      cases hd
      exact hr
    | succ n ih =>
      intro lo t vs hd
      cases hd with
      | none => exact hr
      | copy hd hrest =>
        rw [List.append_assoc]
        exact hcopy _ _ _ hd (ih hrest)
  induction n generalizing lo t vs with
  | zero =>
    cases hd
    exact ⟨0, le_rfl, rfl⟩
  | succ n ih =>
    cases hd with
    | none => exact ⟨0, le_rfl, greedy_none (hstop (Nat.succ_pos n))⟩
    | @copy _ _ _ s u _ _ hd hrest =>
      obtain ⟨k, hk, hgreedy⟩ := ih hrest fun hlt => hstop (by omega)
      refine ⟨k + 1, by omega, ?_⟩
      have hcall := hg _ _ _ hd (hfollow hrest)
      rw [← List.append_assoc] at hcall
      simp only [greedy, hcall, hgreedy]

/-- A repetition is exact if its copies are, and nothing that follows is parsed
as one more copy. -/
theorem Exact.rep {lo hi : ℕ} (hg : Exact G g)
    (hcopy : ∀ t vs r, Derives g t vs → G r → G (t ++ r)) (hF : ∀ r, F r → G r)
    (hstop : lo < hi → ∀ r, F r → parse g r = none) : Exact F (.rep lo hi g) := by
  intro t vs r hd hr
  obtain ⟨k, hk, hgreedy⟩ := greedy_exact hg hcopy hd (hF r hr) fun hlt => hstop hlt r hr
  simp only [parse, hgreedy, if_pos hk]

theorem Exact.opt (hg : Exact F g) (hstop : ∀ r, F r → parse g r = none) :
    Exact F (.rep 0 1 g) := by
  intro t vs r hd hr
  cases hd with
  | none => exact parse_rep_none (hstop r hr)
  | copy hd hrest =>
    cases hrest
    simp only [List.append_nil, parse, greedy, hg _ _ r hd hr, if_pos (Nat.zero_le _)]

theorem Exact.rep_of_any {lo hi : ℕ} (hg : Exact (fun _ => True) g)
    (hstop : lo < hi → ∀ r, F r → parse g r = none) : Exact F (.rep lo hi g) :=
  hg.rep (fun _ _ _ _ _ => trivial) (fun _ _ => trivial) hstop

theorem Exact.seq_of_heads (hg : Exact (Heads cs) g) (hh : Exact F h) (hnull : nullable h = false)
    (hfirst : ∀ a, first h a = true → a ∈ cs) : Exact F (.seq g h) :=
  hg.seq hh fun _ _ _ hd _ => hd.heads_append hfirst fun h => by rw [hnull] at h; cases h

theorem Exact.seq_of_any (hg : Exact (fun _ => True) g) (hh : Exact F h) : Exact F (.seq g h) :=
  hg.seq hh fun _ _ _ _ _ => trivial

theorem Exact.cap {f : List α → List ν → ν} (hg : Exact F g) : Exact F (.cap f g) := by
  intro t vs r hd hr
  cases hd with
  | cap hd => exact parse_cap_append (hg _ _ r hd hr)

end Exact

end Lawd.Library.Peg

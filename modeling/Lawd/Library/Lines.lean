import Lawd.Library.Peg
import Lawd.Library.Search

/-!
# Lines

Texts cut into lines by a pair of symbols, of which no line has the first one. A
parse that avoids that symbol and is followed by the pair has parsed a line, and
a repetition of it has parsed lines. An empty line ends them: where no line is
empty, the doubled pair is found there first.
-/
namespace Lawd.Library

open Peg

variable {α ν : Type}

/-- A line and what is captured from it. -/
structure IsLine (cr : α) (g : Peg α ν) (l : List α × List ν) : Prop where
  clean : cr ∉ l.1
  parse : parse g l.1 = some (l.2, [])

/-- The text of lines that each end with the pair. -/
def ended (cr lf : α) (ls : List (List α × List ν)) : List α :=
  ls.flatMap fun l => l.1 ++ [cr, lf]

/-- The text of lines that each begin with the pair. -/
def begun (cr lf : α) (ls : List (List α × List ν)) : List α :=
  ls.flatMap fun l => cr :: lf :: l.1

/-- What is captured from lines. -/
def captured (ls : List (List α × List ν)) : List ν := ls.flatMap fun l => l.2

variable {cr lf : α} {g : Peg α ν} {s r u : List α} {vs : List ν}
  {l : List α × List ν} {ls : List (List α × List ν)}

theorem ended_cons (u : List α) :
    ended cr lf (l :: ls) ++ u = l.1 ++ cr :: lf :: (ended cr lf ls ++ u) := by
  simp [ended]

theorem begun_cons (u : List α) :
    begun cr lf (l :: ls) ++ u = cr :: lf :: (l.1 ++ (begun cr lf ls ++ u)) := by
  simp [begun]

theorem ended_eq_begun (u : List α) :
    ended cr lf (l :: ls) ++ u = l.1 ++ (begun cr lf ls ++ cr :: lf :: u) := by
  induction ls generalizing l with
  | nil => simp [ended, begun]
  | cons l' ls ih => rw [ended_cons, ih, begun_cons]

/-- A parse that avoids the first symbol of the pair, with the pair behind it,
has parsed a line. -/
theorem isLine_of_parse (ha : avoids cr g = true)
    (hp : Peg.parse g s = some (vs, cr :: lf :: r)) :
    ∃ t, s = t ++ cr :: lf :: r ∧ IsLine cr g (t, vs) := by
  obtain ⟨t₀, rfl⟩ := parse_suffix hp
  obtain ⟨t, u, hs, ht⟩ := List.eq_append_cons_of_mem
    (show cr ∈ t₀ ++ cr :: lf :: r from by simp)
  rw [hs, parse_barrier ha, Option.map_eq_some_iff] at hp
  obtain ⟨⟨vs', r'⟩, hp, heq⟩ := hp
  obtain ⟨rfl, hr⟩ := Prod.mk.inj heq
  cases r' with
  | nil =>
    obtain rfl : u = lf :: r := (List.cons.inj hr).2
    exact ⟨t, hs, ht, hp⟩
  | cons a r' =>
    obtain ⟨t', ht'⟩ := parse_suffix hp
    obtain rfl : a = cr := (List.cons.inj hr).1
    exact absurd (by rw [ht']; simp) ht

theorem IsLine.parse_append (h : IsLine cr g l) (ha : avoids cr g = true) (u : List α) :
    Peg.parse g (l.1 ++ cr :: u) = some (l.2, cr :: u) := by
  rw [parse_barrier ha, h.parse]
  rfl

/-- The doubled pair is first found at the end of lines of which none is empty. -/
theorem first_blank (hcr : lf ≠ cr) (hl : IsLine cr g l) (hls : ∀ l ∈ ls, IsLine cr g l)
    (hne : ∀ l ∈ ls, l.1 ≠ []) (u : List α) :
    FirstAt [cr, lf, cr, lf] (ended cr lf (l :: ls) ++ cr :: lf :: u) 0
      ((ended cr lf (l :: ls)).length - 2) := by
  induction ls generalizing l with
  | nil =>
    have hbehind : FirstAt [cr, lf, cr, lf] (l.1 ++ ([cr, lf, cr, lf] ++ u)) 0 l.1.length :=
      FirstAt.behind hl.clean u
    have hlen : (ended cr lf [l]).length - 2 = l.1.length := by simp [ended]
    rw [ended_cons, hlen]
    exact hbehind
  | cons l' ls ih =>
    have hrest := ih (hls l' (by simp)) (fun m hm => hls m (by simp [hm]))
      (fun m hm => hne m (by simp [hm]))
    obtain ⟨a, t, hat⟩ := List.exists_cons_of_ne_nil (hne l' (by simp))
    have ha : a ≠ cr := fun h => (hls l' (by simp)).clean (by rw [hat, h]; simp)
    have hnext : ended cr lf (l' :: ls) ++ cr :: lf :: u =
        a :: (t ++ cr :: lf :: (ended cr lf ls ++ cr :: lf :: u)) := by
      rw [ended_cons, hat]
      rfl
    have htwo : FirstAt [cr, lf, cr, lf]
        (cr :: lf :: (ended cr lf (l' :: ls) ++ cr :: lf :: u)) 0
        (2 + ((ended cr lf (l' :: ls)).length - 2)) := by
      refine ⟨Nat.zero_le _, ?_, fun j _ hlt hocc => ?_⟩
      · rw [← occursAt_drop]
        exact hrest.occurs
      · rw [hnext] at hocc
        match j with
        | 0 =>
          obtain ⟨w, hw⟩ := hocc
          simp only [List.drop_zero, List.cons_append, List.cons.injEq] at hw
          exact ha hw.2.2.1.symm
        | 1 => exact hcr (Option.some.inj hocc.head)
        | j + 2 =>
          refine hrest.least j (Nat.zero_le j) (by omega) ?_
          rw [hnext]
          rwa [Nat.add_comm, ← occursAt_drop] at hocc
    have hskip := htwo.skip hl.clean
    rw [ended_cons]
    have hlen : (ended cr lf (l :: l' :: ls)).length - 2 =
        l.1.length + (2 + ((ended cr lf (l' :: ls)).length - 2)) := by
      simp only [ended, List.flatMap_cons, List.length_append, List.length_cons, List.length_nil]
      omega
    rw [hlen]
    exact hskip

variable [DecidableEq α]

/-- The expression for one symbol. -/
def Peg.sym (a : α) : Peg α ν := .set fun b => b == a

@[simp] theorem Peg.parse_sym {a : α} :
    Peg.parse (sym a) s = some (vs, r) ↔ vs = [] ∧ s = a :: r := by
  cases s with
  | nil => simp [sym, Peg.parse]
  | cons b s =>
    simp only [sym, Peg.parse]
    constructor
    · intro h
      split_ifs at h with hb
      obtain ⟨rfl, rfl⟩ := Prod.mk.inj (Option.some.inj h)
      rw [beq_iff_eq.mp hb]
      exact ⟨rfl, rfl⟩
    · rintro ⟨rfl, h⟩
      obtain ⟨rfl, rfl⟩ := List.cons.inj h
      simp

/-- The pair of symbols that ends a line. -/
def Peg.pair (cr lf : α) : Peg α ν := .seq (sym cr) (sym lf)

@[simp] theorem Peg.parse_pair :
    Peg.parse (pair cr lf) s = some (vs, r) ↔ vs = [] ∧ s = cr :: lf :: r := by
  simp only [pair, parse_seq, parse_sym]
  constructor
  · rintro ⟨_, _, _, ⟨rfl, rfl⟩, ⟨rfl, rfl⟩, rfl⟩
    exact ⟨rfl, rfl⟩
  · rintro ⟨rfl, rfl⟩
    exact ⟨[], lf :: r, [], ⟨rfl, rfl⟩, ⟨rfl, rfl⟩, rfl⟩

theorem isLine_of_parse_pair (ha : avoids cr g = true)
    (hp : Peg.parse (seq g (pair cr lf)) s = some (vs, r)) :
    ∃ t, s = t ++ cr :: lf :: r ∧ IsLine cr g (t, vs) := by
  obtain ⟨ws, t, ws', hg, hpair, rfl⟩ := parse_seq.mp hp
  obtain ⟨rfl, rfl⟩ := parse_pair.mp hpair
  rw [List.append_nil]
  exact isLine_of_parse ha hg

/-- A repetition of lines and their ends. -/
theorem lines_of_greedy (ha : avoids cr g = true) {n k : ℕ}
    (h : greedy (Peg.parse (seq g (pair cr lf))) n s = (vs, r, k)) :
    ∃ ls, ls.length ≤ n ∧ s = ended cr lf ls ++ r ∧ vs = captured ls ∧
      ∀ l ∈ ls, IsLine cr g l := by
  induction n generalizing s vs k with
  | zero =>
    simp only [greedy, Prod.mk.injEq] at h
    obtain ⟨rfl, rfl, -⟩ := h
    exact ⟨[], le_rfl, rfl, rfl, by simp⟩
  | succ n ih =>
    rcases greedy_succ h with ⟨-, rfl, rfl, -⟩ | ⟨ws, t, ws', k', hp, hrest, rfl, -⟩
    · exact ⟨[], Nat.zero_le _, rfl, rfl, by simp⟩
    · obtain ⟨line, rfl, hline⟩ := isLine_of_parse_pair ha hp
      obtain ⟨ls, hlen, rfl, rfl, hls⟩ := ih hrest
      refine ⟨(line, ws) :: ls, Nat.succ_le_succ hlen, (ended_cons (l := (line, ws)) _).symm, rfl,
        ?_⟩
      intro l hl
      rcases List.mem_cons.mp hl with rfl | hl
      · exact hline
      · exact hls l hl

/-- Lines with the pair in front of them are parsed until an empty line. -/
theorem greedy_of_lines (ha : avoids cr g = true) (hnil : Peg.parse g [] = none)
    (hls : ∀ l ∈ ls, IsLine cr g l) {n : ℕ} (hn : ls.length ≤ n) (u : List α) :
    greedy (Peg.parse (seq (pair cr lf) g)) n (begun cr lf ls ++ cr :: lf :: cr :: u) =
      (captured ls, cr :: lf :: cr :: u, ls.length) := by
  have hpair : ∀ t : List α, Peg.parse (pair cr lf) (cr :: lf :: t) = some (([] : List ν), t) :=
    fun t => parse_pair.mpr ⟨rfl, rfl⟩
  induction ls generalizing n with
  | nil =>
    change greedy _ n (cr :: lf :: cr :: u) = ([], cr :: lf :: cr :: u, 0)
    refine greedy_none ?_
    have hblank := parse_barrier ha [] u
    rw [hnil, List.nil_append] at hblank
    simp only [Peg.parse, hpair, hblank, Option.map_none]
  | cons l ls ih =>
    obtain ⟨n, rfl⟩ := Nat.exists_eq_add_of_le' (Nat.lt_of_lt_of_le (Nat.succ_pos _) hn)
    have hline := hls l (by simp)
    obtain ⟨t, ht⟩ : ∃ t, begun cr lf ls ++ cr :: lf :: cr :: u = cr :: t := by
      cases ls with
      | nil => exact ⟨_, rfl⟩
      | cons l' ls => exact ⟨_, begun_cons _⟩
    have hstep : Peg.parse (seq (pair cr lf) g) (begun cr lf (l :: ls) ++ cr :: lf :: cr :: u) =
        some (l.2, begun cr lf ls ++ cr :: lf :: cr :: u) := by
      rw [begun_cons, ht]
      simp only [Peg.parse, hpair, hline.parse_append ha, List.nil_append]
    have hrest := ih (fun m hm => hls m (by simp [hm]))
      (Nat.le_of_succ_le_succ hn)
    simp only [greedy, hstep, hrest]
    rfl

/-- Lines with their ends are parsed until a line is empty. -/
theorem greedy_of_ended (ha : avoids cr g = true) (hnil : Peg.parse g [] = none)
    (hls : ∀ l ∈ ls, IsLine cr g l) {n : ℕ} (hn : ls.length ≤ n) (u : List α) :
    greedy (Peg.parse (seq g (pair cr lf))) n (ended cr lf ls ++ cr :: u) =
      (captured ls, cr :: u, ls.length) := by
  induction ls generalizing n with
  | nil =>
    have hblank := parse_barrier ha [] u
    rw [hnil, List.nil_append] at hblank
    change greedy _ n (cr :: u) = ([], cr :: u, 0)
    refine greedy_none ?_
    simp only [Peg.parse, hblank, Option.map_none]
  | cons l ls ih =>
    obtain ⟨n, rfl⟩ := Nat.exists_eq_add_of_le' (Nat.lt_of_lt_of_le (Nat.succ_pos _) hn)
    have hstep : Peg.parse (seq g (pair cr lf)) (ended cr lf (l :: ls) ++ cr :: u) =
        some (l.2, ended cr lf ls ++ cr :: u) := by
      rw [ended_cons]
      exact parse_seq.mpr ⟨_, _, _, (hls l (by simp)).parse_append ha _,
        parse_pair.mpr ⟨rfl, rfl⟩, (List.append_nil _).symm⟩
    have hrest := ih (fun m hm => hls m (by simp [hm])) (Nat.le_of_succ_le_succ hn)
    simp only [greedy, hstep, hrest]
    rfl

end Lawd.Library

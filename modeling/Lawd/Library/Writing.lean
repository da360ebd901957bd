import Mathlib.Algebra.Order.Ring.Nat
import Mathlib.Data.List.Infix

/-!
# Calls that write

A call returns a code and the state it leaves, and a sequence of calls goes on
after a success only. A sequence that succeeds has written what its calls write,
one after the other, and it succeeds where there is room for all of it. Some calls
need more room than their text takes.
-/
namespace Lawd.Library

variable {ε σ α β : Type*}

section Calls

variable [DecidableEq ε] (ok : ε)

/-- The second call is made if the first one succeeds. -/
def andThen (f g : σ → ε × σ) (s : σ) : ε × σ := if (f s).1 = ok then g (f s).2 else f s

/-- One call for each item, as long as they succeed. -/
def forEach (f : β → σ → ε × σ) : List β → σ → ε × σ
  | [], s => (ok, s)
  | x :: xs, s => andThen ok (f x) (forEach f xs) s

end Calls

/-- A call that succeeds appends `bs` to the text. -/
def Emits (ok : ε) (text : σ → List α) (bs : List α) (f : σ → ε × σ) : Prop :=
  ∀ s, (f s).1 = ok → text (f s).2 = text s ++ bs

/-- A call that succeeds uses `n` of the room. -/
def Costs (ok : ε) (room : σ → ℕ) (n : ℕ) (f : σ → ε × σ) : Prop :=
  ∀ s, (f s).1 = ok → room s = room (f s).2 + n

/-- With room for `bs` and `k` more, a call succeeds and appends `bs`. -/
def Appends (ok : ε) (room : σ → ℕ) (text : σ → List α) (k : ℕ) (bs : List α) (f : σ → ε × σ) :
    Prop :=
  ∀ s, bs.length + k ≤ room s → (f s).1 = ok ∧ text (f s).2 = text s ++ bs ∧
    room s = room (f s).2 + bs.length

/-- Whatever a call returns, it has appended a first part of `bs`, of which the last
item may be another where no room is left. -/
def EmitsPart (ok : ε) (room : σ → ℕ) (text : σ → List α) (bs : List α) (f : σ → ε × σ) : Prop :=
  ∀ s, ∃ part, text (f s).2 = text s ++ part ∧ room s = room (f s).2 + part.length ∧
    (part <+: bs ∨ room (f s).2 = 0 ∧ part.dropLast <+: bs) ∧
    ((f s).1 = ok → part.length = bs.length)

variable {ok : ε} {text : σ → List α} {room : σ → ℕ} {bs cs : List α} {n m k k' : ℕ}
  {f g : σ → ε × σ}

theorem emits_skip : Emits ok text [] fun s => (ok, s) := fun _ _ => (List.append_nil _).symm

theorem costs_skip : Costs ok room 0 fun s => (ok, s) := fun _ _ => rfl

theorem appends_skip : Appends ok room text k [] fun s => (ok, s) :=
  fun _ _ => ⟨rfl, (List.append_nil _).symm, rfl⟩

theorem emitsPart_skip : EmitsPart ok room text [] fun s => (ok, s) :=
  fun _ => ⟨[], (List.append_nil _).symm, rfl, .inl List.prefix_rfl, fun _ => rfl⟩

variable [DecidableEq ε]

theorem Emits.andThen (hf : Emits ok text bs f) (hg : Emits ok text cs g) :
    Emits ok text (bs ++ cs) (andThen ok f g) := by
  intro s h
  unfold Library.andThen at h ⊢
  split_ifs at h ⊢ with hok
  · rw [hg _ h, hf s hok, List.append_assoc]
  · exact absurd h hok

theorem andThen_of {P : ε → Prop} (hf : ∀ s, P (f s).1) (hg : ∀ s, P (g s).1) (s : σ) :
    P (andThen ok f g s).1 := by
  unfold Library.andThen
  split_ifs
  · exact hg _
  · exact hf s

theorem forEach_of {P : ε → Prop} {f : β → σ → ε × σ} (hok : P ok) (hf : ∀ x s, P (f x s).1)
    (xs : List β) : ∀ s, P (forEach ok f xs s).1 := by
  induction xs with
  | nil => exact fun _ => hok
  | cons x xs ih => exact andThen_of (hf x) ih

theorem Costs.andThen (hf : Costs ok room n f) (hg : Costs ok room m g) :
    Costs ok room (n + m) (andThen ok f g) := by
  intro s h
  unfold Library.andThen at h ⊢
  split_ifs at h ⊢ with hok
  · rw [hf s hok, hg _ h]
    omega
  · exact absurd h hok

theorem Costs.forEach {f : β → σ → ε × σ} {size : β → ℕ}
    (hf : ∀ x, Costs ok room (size x) (f x)) (xs : List β) :
    Costs ok room (xs.map size).sum (forEach ok f xs) := by
  induction xs with
  | nil => exact costs_skip
  | cons x xs ih =>
    rw [List.map_cons, List.sum_cons]
    exact (hf x).andThen ih

theorem Appends.andThen (hf : Appends ok room text k bs f) (hg : Appends ok room text k' cs g)
    (hk : k ≤ cs.length + k') : Appends ok room text k' (bs ++ cs) (andThen ok f g) := by
  intro s h
  rw [List.length_append] at h ⊢
  obtain ⟨hok, htext, hroom⟩ := hf s (by omega)
  obtain ⟨hok', htext', hroom'⟩ := hg (f s).2 (by omega)
  unfold Library.andThen
  rw [if_pos hok]
  exact ⟨hok', by rw [htext', htext, List.append_assoc], by omega⟩

theorem Appends.forEach {f : β → σ → ε × σ} {line : β → List α}
    (hf : ∀ x, Appends ok room text k (line x) (f x)) (xs : List β) :
    Appends ok room text k (xs.flatMap line) (forEach ok f xs) := by
  induction xs with
  | nil => exact appends_skip
  | cons x xs ih => exact (hf x).andThen ih (Nat.le_add_left _ _)

theorem EmitsPart.andThen (hf : EmitsPart ok room text bs f) (hg : EmitsPart ok room text cs g) :
    EmitsPart ok room text (bs ++ cs) (andThen ok f g) := by
  intro s
  obtain ⟨part, htext, hroom, hpart, hlen⟩ := hf s
  unfold Library.andThen
  split_ifs with h
  · obtain ⟨part', htext', hroom', hpart', hlen'⟩ := hg (f s).2
    refine ⟨part ++ part', by rw [htext', htext, List.append_assoc],
      by rw [List.length_append]; omega, ?_, fun hok => ?_⟩
    · rcases hpart with hpart | ⟨hfull, hpart⟩
      · obtain rfl := hpart.eq_of_length (hlen h)
        rcases hpart' with hpart' | ⟨hfull', hpart'⟩
        · exact .inl ((List.prefix_append_right_inj part).mpr hpart')
        · by_cases hnil : part' = []
          · rw [hnil, List.append_nil]
            exact .inl (List.prefix_append part cs)
          · rw [List.dropLast_append_of_ne_nil hnil]
            exact .inr ⟨hfull', (List.prefix_append_right_inj part).mpr hpart'⟩
      · -- nothing is left for the second call
        obtain rfl : part' = [] := List.eq_nil_of_length_eq_zero (by omega)
        rw [List.append_nil]
        exact .inr ⟨by rw [List.length_nil] at hroom'; omega,
          hpart.trans (List.prefix_append bs cs)⟩
    · rw [List.length_append, List.length_append, hlen h, hlen' hok]
  · refine ⟨part, htext, hroom, ?_, fun hok => absurd hok h⟩
    exact hpart.imp (·.trans (List.prefix_append bs cs))
      fun hfull => ⟨hfull.1, hfull.2.trans (List.prefix_append bs cs)⟩

theorem EmitsPart.forEach {f : β → σ → ε × σ} {line : β → List α}
    (hf : ∀ x, EmitsPart ok room text (line x) (f x)) (xs : List β) :
    EmitsPart ok room text (xs.flatMap line) (forEach ok f xs) := by
  induction xs with
  | nil => exact emitsPart_skip
  | cons x xs ih => exact (hf x).andThen ih

end Lawd.Library

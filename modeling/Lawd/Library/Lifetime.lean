import Lawd.Library.Ledger
import Mathlib.Algebra.BigOperators.Group.List.Basic

/-!
# Lifetimes

A system gives out resources of several kinds, or refuses them. What is created
in steps, where a refusal undoes the steps before, is created whole or not at
all, and what is destroyed gives back what its creation took. A resource that
cannot be used and is not given back is lost.
-/
namespace Lawd.Library

/-! ### Ledgers that balance -/

/-- What is live after a ledger, if each acquisition is of something that is not
live, and each release of something that is. -/
def balance {ρ : Type*} [DecidableEq ρ] : List (Entry ρ) → Multiset ρ → Option (Multiset ρ)
  | [], live => some live
  | .acquired x :: ledger, live => if x ∈ live then none else balance ledger (x ::ₘ live)
  | .released x :: ledger, live => if x ∈ live then balance ledger (live.erase x) else none

@[simp] theorem balance_append {ρ : Type*} [DecidableEq ρ] (ledger rest : List (Entry ρ))
    (live : Multiset ρ) :
    balance (ledger ++ rest) live = (balance ledger live).bind (balance rest) := by
  induction ledger generalizing live with
  | nil => rfl
  | cons entry ledger ih =>
    cases entry with
    | acquired x | released x =>
      simp only [List.cons_append, balance]
      split_ifs
      · first | rfl | exact ih _
      · first | rfl | exact ih _

/-! ### Systems -/

variable {κ : Type*}

/-- A system: which requests it refuses, counted from the start, and what it gives
out, of each kind, given what is live. -/
structure Provider (κ : Type*) where
  refuses : ℕ → Bool
  fresh : Multiset (κ × ℕ) → κ → ℕ
  fresh_not_mem : ∀ live kind, (kind, fresh live kind) ∉ live

/-- What is asked for: a resource, or the use of one. -/
inductive Ask (κ : Type*) where
  | acquire (kind : κ)
  | use (kind : κ) (n : ℕ)
  deriving DecidableEq, Repr

/-- The requests made so far, each with the answer, what is live, what was given out
and given back, and what was lost. -/
structure Accounts (κ : Type*) where
  asked : List (Ask κ × Bool)
  live : Multiset (κ × ℕ)
  ledger : List (Entry (κ × ℕ))
  lost : Multiset (κ × ℕ)

/-- Nothing was asked for yet. -/
def Accounts.start (live : Multiset (κ × ℕ)) : Accounts κ := ⟨[], live, [], 0⟩

/-- Something was asked for and refused. -/
def Accounts.Refused (s : Accounts κ) : Prop := ∃ ask, (ask, false) ∈ s.asked

/-- A request: whether it succeeds. -/
def Provider.request (p : Provider κ) (ask : Ask κ) (s : Accounts κ) : Bool × Accounts κ :=
  (!p.refuses s.asked.length,
    { s with asked := s.asked ++ [(ask, !p.refuses s.asked.length)] })

theorem Provider.request_refused {p : Provider κ} {ask : Ask κ} {s t : Accounts κ}
    (h : p.request ask s = (false, t)) : (ask, false) ∈ t.asked := by
  obtain ⟨hrefused, rfl⟩ := Prod.mk.inj h
  rw [hrefused]
  exact List.mem_append_right _ (List.mem_singleton.mpr rfl)

/-- A request for a resource. -/
def Provider.acquire (p : Provider κ) (kind : κ) (s : Accounts κ) : Option ℕ × Accounts κ :=
  match p.request (.acquire kind) s with
  | (true, s) => (some (p.fresh s.live kind),
      { s with live := (kind, p.fresh s.live kind) ::ₘ s.live,
               ledger := s.ledger ++ [.acquired (kind, p.fresh s.live kind)] })
  | (false, s) => (none, s)

theorem Provider.acquire_refused {p : Provider κ} {kind : κ} {s t : Accounts κ}
    (h : p.acquire kind s = (none, t)) : (.acquire kind, false) ∈ t.asked := by
  unfold Provider.acquire at h
  split at h
  · cases (Prod.mk.inj h).1
  · next heq =>
    obtain ⟨-, rfl⟩ := Prod.mk.inj h
    exact Provider.request_refused heq

/-- A resource is given back. -/
def Accounts.release [DecidableEq κ] (kind : κ) (n : ℕ) (s : Accounts κ) : Accounts κ :=
  { s with live := s.live.erase (kind, n), ledger := s.ledger ++ [.released (kind, n)] }

/-- A resource is lost. -/
def Accounts.lose (kind : κ) (n : ℕ) (s : Accounts κ) : Accounts κ :=
  { s with lost := (kind, n) ::ₘ s.lost }

/-- Go on with what a call has created; when it has created nothing, undo what was
done before. -/
def orUndo {α β : Type*} (undo : Accounts κ → Accounts κ) (call : Option α × Accounts κ)
    (next : α → Accounts κ → Option β × Accounts κ) : Option β × Accounts κ :=
  match call with
  | (some a, s) => next a s
  | (none, s) => (none, undo s)

theorem orUndo_eq_some {α β : Type*} {undo : Accounts κ → Accounts κ}
    {call : Option α × Accounts κ} {next : α → Accounts κ → Option β × Accounts κ} {b : β}
    {t : Accounts κ} (h : orUndo undo call next = (some b, t)) :
    ∃ a s, call = (some a, s) ∧ next a s = (some b, t) := by
  obtain ⟨_ | a, s⟩ := call
  · cases (Prod.mk.inj h).1
  · exact ⟨a, s, rfl, h⟩

variable [DecidableEq κ]

/-- The ledger balances, and live is what was so before, what is held, and what is
lost. -/
structure Balanced (base held : Multiset (κ × ℕ)) (s : Accounts κ) : Prop where
  ledger : balance s.ledger base = some s.live
  live : s.live = base + held + s.lost

section Balanced

variable {p : Provider κ} {base held : Multiset (κ × ℕ)} {s : Accounts κ} {kind : κ} {n : ℕ}

theorem Balanced.start (base : Multiset (κ × ℕ)) : Balanced base 0 (Accounts.start base) :=
  ⟨rfl, by simp [Accounts.start]⟩

theorem Balanced.request (h : Balanced base held s) (ask : Ask κ) :
    Balanced base held (p.request ask s).2 :=
  ⟨h.ledger, h.live⟩

theorem Balanced.acquire (h : Balanced base held s) {t : Accounts κ}
    (hcall : p.acquire kind s = (some n, t)) :
    Balanced base ((kind, n) ::ₘ held) t ∧ t.lost = s.lost := by
  unfold Provider.acquire at hcall
  split at hcall
  · next u heq =>
    obtain ⟨-, rfl⟩ := Prod.mk.inj heq
    obtain ⟨hn, rfl⟩ := Prod.mk.inj hcall
    obtain rfl := Option.some.inj hn
    refine ⟨⟨?_, ?_⟩, rfl⟩
    · rw [balance_append, h.ledger, Option.bind_some, balance, if_neg (p.fresh_not_mem _ _)]
      rfl
    · dsimp only
      rw [h.live, Multiset.add_cons, Multiset.cons_add]
  · cases (Prod.mk.inj hcall).1

theorem Balanced.not_acquired (h : Balanced base held s) {t : Accounts κ}
    (hcall : p.acquire kind s = (none, t)) :
    Balanced base held t ∧ t.lost = s.lost := by
  unfold Provider.acquire at hcall
  split at hcall
  · cases (Prod.mk.inj hcall).1
  · next u heq =>
    obtain ⟨-, rfl⟩ := Prod.mk.inj hcall
    obtain ⟨-, rfl⟩ := Prod.mk.inj heq
    exact ⟨h.request (p := p) _, rfl⟩

theorem Balanced.release (h : Balanced base ((kind, n) ::ₘ held) s) :
    Balanced base held (s.release kind n) := by
  have hmem : (kind, n) ∈ s.live := by
    rw [h.live]
    simp
  refine ⟨?_, ?_⟩
  · simp only [Accounts.release]
    rw [balance_append, h.ledger, Option.bind_some, balance, if_pos hmem]
    rfl
  · simp only [Accounts.release]
    rw [h.live, Multiset.add_cons, Multiset.cons_add, Multiset.erase_cons_head]

theorem Balanced.lose (h : Balanced base ((kind, n) ::ₘ held) s) :
    Balanced base held (s.lose kind n) := by
  refine ⟨h.ledger, ?_⟩
  simp only [Accounts.lose]
  rw [h.live, Multiset.add_cons, Multiset.cons_add, Multiset.add_cons]

theorem Balanced.congr {held' : Multiset (κ × ℕ)} (h : Balanced base held s)
    (heq : held = held') : Balanced base held' s := heq ▸ h

end Balanced

/-! ### Creating and destroying -/

/-- Nothing more is lost than before, or one resource, of those allowed, whose use was
refused. -/
def Accounts.LostUnused (s : Accounts κ) (loss : Set (κ × ℕ)) (lost : Multiset (κ × ℕ)) : Prop :=
  s.lost = lost ∨ ∃ x ∈ loss, (.use x.1 x.2, false) ∈ s.asked ∧ s.lost = x ::ₘ lost

/-- What a call that creates may come to, on a system that had lost something
already: its creation is held, and no more is lost; or nothing more is held, since
a request was refused, and at most one resource is lost. -/
inductive Made {α : Type*} (p : Provider κ) (loss : Set (κ × ℕ)) (base held : Multiset (κ × ℕ))
    (cells : α → Multiset (κ × ℕ)) (lost : Multiset (κ × ℕ)) : Option α × Accounts κ → Prop
  | made {a : α} {t : Accounts κ} : Balanced base (cells a + held) t → t.lost = lost →
      Made p loss base held cells lost (some a, t)
  | refused {t : Accounts κ} : Balanced base held t → t.Refused → t.LostUnused loss lost →
      Made p loss base held cells lost (none, t)

/-- A call that creates, whatever else is held. -/
def Creates {α : Type*} (p : Provider κ) (loss : Set (κ × ℕ)) (cells : α → Multiset (κ × ℕ))
    (create : Accounts κ → Option α × Accounts κ) : Prop :=
  ∀ ⦃base held s⦄, Balanced base held s → Made p loss base held cells s.lost (create s)

/-- A call that gives back what is held, asks for nothing and loses nothing. -/
def GivesBack (base held held' : Multiset (κ × ℕ)) (undo : Accounts κ → Accounts κ) : Prop :=
  ∀ ⦃s⦄, Balanced base held s → Balanced base held' (undo s) ∧ (undo s).asked = s.asked ∧
    (undo s).lost = s.lost

/-- A call that destroys, whatever else is held. -/
def Destroys {α : Type*} (cells : α → Multiset (κ × ℕ)) (destroy : α → Accounts κ → Accounts κ) :
    Prop :=
  ∀ (a : α) {base held : Multiset (κ × ℕ)}, GivesBack base (cells a + held) held (destroy a)

/-- What is created and destroyed as one. -/
structure Lifetime (p : Provider κ) (loss : Set (κ × ℕ)) (α : Type*) where
  cells : α → Multiset (κ × ℕ)
  create : Accounts κ → Option α × Accounts κ
  destroy : α → Accounts κ → Accounts κ
  creates : Creates p loss cells create
  destroys : Destroys cells destroy

section Made

variable {α β : Type*} {p : Provider κ} {loss loss' : Set (κ × ℕ)}
  {base held held' held'' : Multiset (κ × ℕ)} {lost : Multiset (κ × ℕ)} {s : Accounts κ}
  {cells : α → Multiset (κ × ℕ)} {cells' : β → Multiset (κ × ℕ)}

theorem GivesBack.nothing : GivesBack base held held id := fun _ h => ⟨h, rfl, rfl⟩

theorem GivesBack.then {undo undo' : Accounts κ → Accounts κ} (h : GivesBack base held held' undo)
    (h' : GivesBack base held' held'' undo') :
    GivesBack base held held'' fun s => undo' (undo s) := by
  intro s hs
  obtain ⟨h₁, hasked₁, hlost₁⟩ := h hs
  obtain ⟨h₂, hasked₂, hlost₂⟩ := h' h₁
  exact ⟨h₂, hasked₂.trans hasked₁, hlost₂.trans hlost₁⟩

theorem GivesBack.congr {undo : Accounts κ → Accounts κ} (h : GivesBack base held held' undo)
    (heq : held'' = held) : GivesBack base held'' held' undo := heq ▸ h

theorem GivesBack.release (kind : κ) (n : ℕ) :
    GivesBack base ({(kind, n)} + held) held (Accounts.release kind n) :=
  fun _ h => ⟨(h.congr (Multiset.singleton_add ..)).release, rfl, rfl⟩

theorem Creates.acquire (p : Provider κ) (kind : κ) :
    Creates p ∅ (fun n => {(kind, n)}) (p.acquire kind) := by
  intro base held s h
  rcases hcall : p.acquire kind s with ⟨_ | n, t⟩
  · obtain ⟨ht, hlost⟩ := h.not_acquired hcall
    exact .refused ht ⟨_, Provider.acquire_refused hcall⟩ (.inl hlost)
  · obtain ⟨ht, hlost⟩ := h.acquire hcall
    exact .made (ht.congr (Multiset.singleton_add ..).symm) hlost

theorem Made.mono {out : Option α × Accounts κ} (h : Made p loss base held cells lost out)
    (hsub : loss ⊆ loss') : Made p loss' base held cells lost out := by
  cases h with
  | made h hlost => exact .made h hlost
  | refused h hrefused hlost =>
    exact .refused h hrefused (hlost.imp_right fun hlost => hlost.imp fun x hx =>
      ⟨hsub hx.1, hx.2⟩)

theorem GivesBack.refused {undo : Accounts κ → Accounts κ} (hundo : GivesBack base held held' undo)
    (h : Balanced base held s) (hrefused : s.Refused) (hlost : s.LostUnused loss lost) :
    Made p loss base held' cells lost (none, undo s) := by
  obtain ⟨hback, hasked, hsame⟩ := hundo h
  refine .refused hback ?_ ?_
  · rwa [Accounts.Refused, hasked]
  · rwa [Accounts.LostUnused, hasked, hsame]

/-- The step of a ladder: what is created next is held beside the rest, or the
rest is given back. -/
theorem Made.orUndo {call : Option α × Accounts κ} {undo : Accounts κ → Accounts κ}
    {next : α → Accounts κ → Option β × Accounts κ} (h : Made p loss base held cells lost call)
    (hundo : GivesBack base held held' undo)
    (hnext : ∀ a t, Balanced base (cells a + held) t → t.lost = lost →
      Made p loss base held' cells' lost (next a t)) :
    Made p loss base held' cells' lost (orUndo undo call next) := by
  cases h with
  | made h hlost => exact hnext _ _ h hlost
  | refused h hrefused hlost => exact hundo.refused h hrefused hlost

theorem Made.finally {call : Option α × Accounts κ} {kind : κ} {n : ℕ}
    (h : Made p loss base ({(kind, n)} + held) cells lost call) :
    Made p loss base held cells lost (call.1, call.2.release kind n) := by
  cases h with
  | made h hlost =>
    exact .made (GivesBack.release kind n (h.congr (add_left_comm ..))).1 hlost
  | refused h hrefused hlost => exact (GivesBack.release kind n).refused h hrefused hlost

/-- A creation on a system that has lost nothing yet: where nothing is created,
nothing is left but what is lost. -/
theorem Made.fresh {out : Option α} (h : Made p loss base 0 cells 0 (out, s)) :
    balance s.ledger base = some s.live ∧ (∀ a, out = some a → s.live = base + cells a) ∧
      (out = none → s.Refused ∧ (s.live = base ∨
        ∃ x ∈ loss, (.use x.1 x.2, false) ∈ s.asked ∧ s.live = base + {x})) := by
  cases h with
  | @made a _ h hlost =>
    refine ⟨h.ledger, fun a' ha => ?_, fun hnone => by cases hnone⟩
    obtain rfl := Option.some.inj ha
    rw [h.live, hlost, add_zero, add_zero]
  | refused h hrefused hlost =>
    refine ⟨h.ledger, fun a ha => (Option.some_ne_none _ ha.symm).elim, fun _ => ⟨hrefused, ?_⟩⟩
    rw [h.live, add_zero]
    rcases hlost with hlost | ⟨x, hx, hasked, hlost⟩
    · exact .inl (by rw [hlost, add_zero])
    · exact .inr ⟨x, hx, hasked, by rw [hlost]; rfl⟩

theorem Destroys.all {destroy : α → Accounts κ → Accounts κ} (hd : Destroys cells destroy)
    {a a' : α} (h : Made p loss base 0 cells 0 (some a, s)) (hsame : cells a' = cells a) :
    balance (destroy a' s).ledger base = some base ∧ (destroy a' s).live = base := by
  cases h with
  | made h hlost =>
    obtain ⟨ht, -, htlost⟩ := hd a' (h.congr (by rw [hsame]))
    have hback := ht.live
    rw [htlost, hlost, add_zero, add_zero] at hback
    exact ⟨ht.ledger.trans (congrArg some hback), hback⟩

end Made

/-! ### Several of a kind -/

/-- Create a number of things, each stored among those before; whether all could
be created. -/
def createEach {α : Type*} (create : ℕ → Accounts κ → Option α × Accounts κ)
    (store : List α → α → List α) : ℕ → ℕ → List α → Accounts κ → Bool × List α × Accounts κ
  | 0, _, made, s => (true, made, s)
  | m + 1, n, made, s =>
    match create n s with
    | (some a, s) => createEach create store m (n + 1) (store made a) s
    | (none, s) => (false, made, s)

/-- Destroy each of a list. -/
def destroyEach {α : Type*} (destroy : α → Accounts κ → Accounts κ) (l : List α)
    (s : Accounts κ) : Accounts κ :=
  l.foldl (fun s a => destroy a s) s

/-- What the things of a list hold. -/
def cellsEach {α : Type*} (cells : α → Multiset (κ × ℕ)) (l : List α) : Multiset (κ × ℕ) :=
  (l.map cells).sum

section Each

variable {α : Type*} {p : Provider κ} {loss : Set (κ × ℕ)} {base held : Multiset (κ × ℕ)}
  {lost : Multiset (κ × ℕ)} {s : Accounts κ} {cells : α → Multiset (κ × ℕ)}

omit [DecidableEq κ] in
theorem cellsEach_perm {l l' : List α} (h : l.Perm l') : cellsEach cells l = cellsEach cells l' :=
  (h.map cells).sum_eq

theorem Destroys.each {destroy : α → Accounts κ → Accounts κ} (h : Destroys cells destroy)
    (l : List α) : GivesBack base (cellsEach cells l + held) held (destroyEach destroy l) := by
  induction l with
  | nil => exact fun s hs => ⟨hs.congr (by simp [cellsEach]), rfl, rfl⟩
  | cons a l ih =>
    intro s hs
    obtain ⟨h₁, hasked₁, hlost₁⟩ := h a (hs.congr (by simp [cellsEach, add_assoc]) :
      Balanced base (cells a + (cellsEach cells l + held)) s)
    obtain ⟨h₂, hasked₂, hlost₂⟩ := ih h₁
    exact ⟨h₂, hasked₂.trans hasked₁, hlost₂.trans hlost₁⟩

/-- All of the things are held, or those before the first that could not be
created. -/
inductive MadeEach (p : Provider κ) (loss : Set (κ × ℕ)) (base held : Multiset (κ × ℕ))
    (cells : α → Multiset (κ × ℕ)) (lost : Multiset (κ × ℕ)) : Bool × List α × Accounts κ → Prop
  | all {l : List α} {t : Accounts κ} : Balanced base (cellsEach cells l + held) t →
      t.lost = lost → MadeEach p loss base held cells lost (true, l, t)
  | refused {l : List α} {t : Accounts κ} : Balanced base (cellsEach cells l + held) t →
      t.Refused → t.LostUnused loss lost →
      MadeEach p loss base held cells lost (false, l, t)

theorem Creates.each {create : ℕ → Accounts κ → Option α × Accounts κ}
    {store : List α → α → List α} (h : ∀ n, Creates p loss cells (create n))
    (hstore : ∀ l a, (store l a).Perm (a :: l)) (m n : ℕ) {made : List α}
    (hs : Balanced base (cellsEach cells made + held) s) :
    MadeEach p loss base held cells s.lost (createEach create store m n made s) := by
  induction m generalizing n made s with
  | zero => exact .all hs rfl
  | succ m ih =>
    have hmade := h n hs
    unfold createEach
    generalize create n s = out at hmade
    cases hmade with
    | @made a u hu hlost =>
      have hcells : cells a + (cellsEach cells made + held) =
          cellsEach cells (store made a) + held := by
        rw [cellsEach_perm (hstore made a), ← add_assoc]
        simp [cellsEach]
      have hrest := ih (n + 1) (hu.congr hcells)
      rwa [hlost] at hrest
    | refused hu hrefused hlost => exact .refused hu hrefused hlost

omit [DecidableEq κ] in
/-- As many are created as were asked for. -/
theorem createEach_length {create : ℕ → Accounts κ → Option α × Accounts κ}
    {store : List α → α → List α} (hstore : ∀ l a, (store l a).Perm (a :: l)) {m n : ℕ}
    {made l : List α} {t : Accounts κ} (h : createEach create store m n made s = (true, l, t)) :
    l.length = made.length + m := by
  induction m generalizing n made s with
  | zero =>
    obtain ⟨-, hrest⟩ := Prod.mk.inj h
    exact congrArg List.length (Prod.mk.inj hrest).1.symm
  | succ m ih =>
    unfold createEach at h
    split at h
    · rw [ih h, (hstore made _).length_eq, List.length_cons]
      omega
    · cases h

end Each

end Lawd.Library

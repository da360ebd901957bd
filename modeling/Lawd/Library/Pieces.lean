import Mathlib.Data.List.Basic

/-!
# Pieces

A list is cut at a separator into one piece more than it has separators. The
pieces of a list that are kept up to the first unwanted one are all the wanted
pieces if only unwanted ones follow it.
-/
namespace Lawd.Library

variable {α : Type*}

/-- The pieces with the separator in front of each. -/
def led (sep : α) (ps : List (List α)) : List α := ps.flatMap fun p => sep :: p

@[simp] theorem led_nil (sep : α) : led sep [] = [] := rfl

@[simp] theorem led_cons (sep : α) (p : List α) (ps : List (List α)) :
    led sep (p :: ps) = sep :: (p ++ led sep ps) := by
  simp [led]

@[simp] theorem led_append (sep : α) (ps qs : List (List α)) :
    led sep (ps ++ qs) = led sep ps ++ led sep qs := by
  simp [led]

theorem intercalate_cons (sep : α) (p : List α) (ps : List (List α)) :
    [sep].intercalate (p :: ps) = p ++ led sep ps := by
  induction ps generalizing p with
  | nil => simp
  | cons q ps ih =>
    rw [List.intercalate_cons_cons, ih, led_cons, List.append_assoc, List.singleton_append]

@[simp] theorem intercalate_append (sep : α) (ps : List (List α)) {qs : List (List α)}
    (hne : qs ≠ []) :
    [sep].intercalate (ps ++ qs) = ps.flatMap (· ++ [sep]) ++ [sep].intercalate qs := by
  induction ps with
  | nil => rfl
  | cons p ps ih =>
    obtain ⟨x, xs, hx⟩ := List.exists_cons_of_ne_nil (List.append_ne_nil_of_right_ne_nil ps hne)
    rw [hx] at ih
    rw [List.cons_append, hx, List.intercalate_cons_cons, ih, List.flatMap_cons]
    simp only [List.append_assoc]

section Split

variable [BEq α] {sep : α}

@[simp] theorem length_splitOn (sep : α) (xs : List α) :
    (xs.splitOn sep).length = xs.count sep + 1 := by
  induction xs with
  | nil => rfl
  | cons x xs ih =>
    rw [List.splitOn_cons_eq_if_modifyHead, List.count_cons]
    split_ifs
    · rw [List.length_cons, ih]
    · rw [List.length_modifyHead, ih]

theorem length_le_count_led [LawfulBEq α] (sep : α) (ps : List (List α)) :
    ps.length ≤ (led sep ps).count sep := by
  induction ps with
  | nil => exact Nat.zero_le _
  | cons p ps ih =>
    rw [led_cons, List.count_cons_self, List.count_append, List.length_cons]
    omega

theorem splitOn_pieces [LawfulBEq α] (xs : List α) :
    ∀ p ∈ xs.splitOn sep, sep ∉ p ∧ ∀ x ∈ p, x ∈ xs := by
  induction xs with
  | nil => simp
  | cons x xs ih =>
    rw [List.splitOn_cons_eq_if_modifyHead]
    split_ifs with hx
    · intro p hp
      obtain rfl | hp := List.mem_cons.mp hp
      · simp
      · exact ⟨(ih p hp).1, fun y hy => List.mem_cons_of_mem _ ((ih p hp).2 y hy)⟩
    · obtain ⟨q, qs, hsplit⟩ := List.exists_cons_of_ne_nil (List.splitOn_ne_nil sep xs)
      rw [hsplit] at ih ⊢
      have hne : sep ≠ x := fun h => hx (by rw [h]; exact beq_self_eq_true x)
      intro p hp
      rw [List.modifyHead_cons, List.mem_cons] at hp
      obtain rfl | hp := hp
      · obtain ⟨hsep, hmem⟩ := ih q List.mem_cons_self
        refine ⟨by simp [hne, hsep], fun y hy => ?_⟩
        obtain rfl | hy := List.mem_cons.mp hy
        · exact List.mem_cons_self
        · exact List.mem_cons_of_mem _ (hmem y hy)
      · obtain ⟨hsep, hmem⟩ := ih p (List.mem_cons_of_mem _ hp)
        exact ⟨hsep, fun y hy => List.mem_cons_of_mem _ (hmem y hy)⟩

theorem splitOn_led [LawfulBEq α] {ps : List (List α)} (h : ∀ p ∈ ps, sep ∉ p) :
    (led sep ps).splitOn sep = [] :: ps := by
  induction ps with
  | nil => rfl
  | cons p ps ih =>
    have hrest := ih fun q hq => h q (List.mem_cons_of_mem _ hq)
    have hcut := List.splitOn_append_cons_self (a := sep) [] (p ++ led sep ps)
    rw [led_cons, ← List.nil_append (sep :: (p ++ led sep ps)), hcut]
    refine congrArg (List.cons []) ?_
    cases ps with
    | nil =>
      rw [led_nil, List.append_nil]
      exact List.splitOn_eq_singleton (h p List.mem_cons_self)
    | cons q ps =>
      rw [led_cons] at hrest ⊢
      have hfirst := List.splitOn_append_cons_self (a := sep) [] (q ++ led sep ps)
      rw [List.nil_append, hrest] at hfirst
      rw [List.splitOn_append_cons_self_of_not_mem (h p List.mem_cons_self)]
      exact congrArg (List.cons p) (List.cons.inj hfirst).2.symm

theorem eq_of_append_cons [LawfulBEq α] {x y u v : List α} (h : x ++ sep :: u = y ++ sep :: v)
    (hx : sep ∉ x) (hy : sep ∉ y) : x = y := by
  have hcut := congrArg (List.splitOn sep) h
  rw [List.splitOn_append_cons_self_of_not_mem hx,
    List.splitOn_append_cons_self_of_not_mem hy] at hcut
  exact (List.cons.inj hcut).1

end Split

theorem exists_of_forall₂ {β : Type*} {R : α → β → Prop} {xs : List α} {ys : List β}
    (h : List.Forall₂ R xs ys) {y : β} (hy : y ∈ ys) : ∃ x ∈ xs, R x y := by
  induction h with
  | nil => cases hy
  | @cons x z xs ys hxz _ ih =>
    obtain rfl | hy := List.mem_cons.mp hy
    · exact ⟨x, List.mem_cons_self, hxz⟩
    · obtain ⟨w, hw, hwy⟩ := ih hy
      exact ⟨w, List.mem_cons_of_mem _ hw, hwy⟩

theorem forall₂_of_mapM {α β : Type} {f : α → Option β} {xs : List α} {ys : List β}
    (h : xs.mapM f = some ys) : List.Forall₂ (fun x y => f x = some y) xs ys := by
  induction xs generalizing ys with
  | nil =>
    cases h
    exact .nil
  | cons x xs ih =>
    rw [List.mapM_cons, Option.bind_eq_bind, Option.bind_eq_some_iff] at h
    obtain ⟨y, hy, h⟩ := h
    rw [Option.bind_eq_bind, Option.bind_eq_some_iff] at h
    obtain ⟨ys', hys, h⟩ := h
    cases h
    exact .cons hy (ih hys)

/-- What is kept up to the first unwanted item is all that is wanted if and only
if nothing wanted follows an unwanted item. -/
theorem takeWhile_eq_filter_iff {p : α → Bool} {l : List α} :
    l.takeWhile p = l.filter p ↔
      ∀ xs a ys, l = xs ++ a :: ys → p a = false → ∀ b ∈ ys, p b = false := by
  induction l with
  | nil => simp
  | cons a l ih =>
    cases ha : p a with
    | true =>
      rw [List.takeWhile_cons_of_pos ha, List.filter_cons_of_pos ha, List.cons.injEq,
        eq_self_iff_true, true_and, ih]
      constructor
      · intro h xs b ys hl hb
        cases xs with
        | nil =>
          rw [← (List.cons.inj hl).1, ha] at hb
          cases hb
        | cons x xs => exact h xs b ys (List.cons.inj hl).2 hb
      · intro h xs b ys hl hb
        exact h (a :: xs) b ys (by rw [hl]; rfl) hb
    | false =>
      rw [List.takeWhile_cons_of_neg (by simp [ha]), List.filter_cons_of_neg (by simp [ha])]
      constructor
      · intro h xs b ys hl hb c hc
        have hmem : c ∈ l := by
          cases xs with
          | nil =>
            rw [(List.cons.inj hl).2]
            exact hc
          | cons x xs =>
            rw [(List.cons.inj hl).2]
            simp [hc]
        have hnone := List.filter_eq_nil_iff.mp h.symm c hmem
        simpa using hnone
      · intro h
        refine (List.filter_eq_nil_iff.mpr fun b hb => ?_).symm
        simp [h [] a l rfl ha b hb]

end Lawd.Library

import Mathlib.Data.List.DropRight

/-!
# Trimming

A list without the unwanted items at its two ends. A reader that takes unwanted
items up to one bound, then any items up to another, and then unwanted ones again
finds the trimmed list between them only under a condition on the list.
-/
namespace Lawd.Library

variable {α : Type*} {p : α → Bool} {l t : List α}

/-- The list without the items in front and behind that satisfy `p`. -/
def trim (p : α → Bool) (l : List α) : List α := (l.dropWhile p).rdropWhile p

/-- What the reader takes from a list, where `p` holds of the unwanted items. -/
structure Cut (p : α → Bool) (m n : ℕ) (l front value back : List α) : Prop where
  text : l = front ++ (value ++ back)
  front_all : ∀ a ∈ front, p a = true
  front_le : front.length ≤ m
  front_max : front.length = m ∨ ∀ a ∈ (value ++ back).head?, p a = false
  value_le : value.length ≤ n
  value_max : back = [] ∨ value.length = n
  back_all : ∀ a ∈ back, p a = true

@[simp] theorem dropWhile_of_head (h : ∀ a ∈ l.head?, p a = false) : l.dropWhile p = l := by
  cases l with
  | nil => rfl
  | cons a l => exact List.dropWhile_cons_of_neg (by simp [h a rfl])

@[simp] theorem takeWhile_of_head (h : ∀ a ∈ l.head?, p a = false) : l.takeWhile p = [] := by
  cases l with
  | nil => rfl
  | cons a l => exact List.takeWhile_cons_of_neg (by simp [h a rfl])

@[simp] theorem rdropWhile_append_of_all (l : List α) (ht : ∀ a ∈ t, p a = true) :
    (l ++ t).rdropWhile p = l.rdropWhile p := by
  rw [List.rdropWhile, List.reverse_append, List.dropWhile_append_of_pos (by simpa using ht)]
  rfl

theorem eq_nil_of_rdropWhile_eq (ht : ∀ a ∈ t, p a = true)
    (h : (l ++ t).rdropWhile p = l ++ t) : t = [] := by
  rw [rdropWhile_append_of_all l ht] at h
  have hle := (List.rdropWhile_prefix p (l := l)).length_le
  rw [h, List.length_append] at hle
  exact List.eq_nil_of_length_eq_zero (by omega)

theorem rdropWhile_append_of_eq (l : List α) (hne : t ≠ []) (h : t.rdropWhile p = t) :
    (l ++ t).rdropWhile p = l ++ t := by
  refine List.rdropWhile_eq_self_iff.mpr fun hl => ?_
  rw [List.getLast_append_of_ne_nil hl hne]
  exact List.rdropWhile_eq_self_iff.mp h hne

theorem head?_trim (l : List α) : ∀ a ∈ (trim p l).head?, p a = false := by
  intro a ha
  obtain ⟨u, hu⟩ := List.rdropWhile_prefix p (l := l.dropWhile p)
  have hhead : (l.dropWhile p).head? = some a := by
    rw [← hu, List.head?_append]
    change (trim p l).head?.or _ = _
    rw [Option.mem_def.mp ha]
    rfl
  have hnot := List.head?_dropWhile_not p l
  rw [hhead] at hnot
  exact hnot

section Cut

variable {m n : ℕ} {front value back : List α}

theorem Cut.trim_eq (h : Cut p m n l front value back)
    (hhead : ∀ a ∈ (value ++ back).head?, p a = false) : trim p l = value.rdropWhile p := by
  rw [trim, h.text, List.dropWhile_append_of_pos h.front_all, dropWhile_of_head hhead,
    rdropWhile_append_of_all value h.back_all]

theorem Cut.eq_trim_iff_of_head (h : Cut p m n l front value back)
    (hhead : ∀ a ∈ (value ++ back).head?, p a = false) :
    value = trim p l ↔
      trim p l = [] ∨ l.rdropWhile p = l ∨ (trim p l).length = n := by
  have htrim := h.trim_eq hhead
  constructor
  · intro heq
    obtain rfl | hfull := h.value_max
    · by_cases hempty : value = []
      · exact .inl (heq.symm.trans hempty)
      · refine .inr (.inl ?_)
        rw [h.text, List.append_nil]
        exact rdropWhile_append_of_eq front hempty (heq.trans htrim).symm
    · exact .inr (.inr (heq ▸ hfull))
  · rintro (hnil | hself | hlen)
    · rw [hnil]
      rw [htrim, List.rdropWhile_eq_nil_iff] at hnil
      cases value with
      | nil => rfl
      | cons a value =>
        have ha := hnil a List.mem_cons_self
        rw [hhead a rfl] at ha
        cases ha
    · rw [h.text, ← List.append_assoc] at hself
      have hback := eq_nil_of_rdropWhile_eq h.back_all hself
      rw [hback, List.append_nil] at hself
      rw [htrim]
      refine (List.rdropWhile_eq_self_iff.mpr fun hne => ?_).symm
      have hlast := List.rdropWhile_eq_self_iff.mp hself (List.append_ne_nil_of_right_ne_nil _ hne)
      rwa [List.getLast_append_of_ne_nil _ hne] at hlast
    · rw [htrim] at hlen ⊢
      exact ((List.rdropWhile_prefix p value).eq_of_length_le (hlen ▸ h.value_le)).symm

/-- What is taken between the unwanted items is the trimmed list if and only if
they are not too many in front, and none stand behind, unless the whole list is
unwanted or the trimmed list has the full length. -/
theorem Cut.eq_trim_iff (h : Cut p m n l front value back) (hn : n ≠ 0) :
    value = trim p l ↔ (l.takeWhile p).length ≤ m ∧
      (trim p l = [] ∨ l.rdropWhile p = l ∨ (trim p l).length = n) := by
  by_cases hhead : ∀ a ∈ (value ++ back).head?, p a = false
  · have hfew : (l.takeWhile p).length ≤ m := by
      rw [h.text, List.takeWhile_append_of_pos h.front_all, takeWhile_of_head hhead,
        List.append_nil]
      exact h.front_le
    rw [h.eq_trim_iff_of_head hhead]
    exact ⟨fun htrim => ⟨hfew, htrim⟩, And.right⟩
  · have hfull := h.front_max.resolve_right hhead
    push Not at hhead
    obtain ⟨a, ha, hpa⟩ := hhead
    rw [ne_eq, Bool.not_eq_false] at hpa
    obtain ⟨u, hu⟩ := List.head?_eq_some_iff.mp ha
    constructor
    · intro heq
      have hhead : value.head? = some a := by
        cases value with
        | nil =>
          obtain rfl | hlen := h.value_max
          · cases hu
          · exact absurd hlen.symm hn
        | cons b value => exact ha
      rw [heq] at hhead
      have hpa' := head?_trim l a hhead
      rw [hpa] at hpa'
      cases hpa'
    · rintro ⟨hfew, -⟩
      rw [h.text, List.takeWhile_append_of_pos h.front_all, hu, List.takeWhile_cons_of_pos hpa,
        List.length_append, List.length_cons] at hfew
      omega

end Cut

end Lawd.Library

import Mathlib.Data.List.Sort

/-!
# Priority queues

A heap gives back an entry of least key, without saying which one where keys
agree. Its entries, in any order, are all there is to know about it; a sorted
list is such a queue.
-/
namespace Lawd.Library

/-- A correct priority queue for the given key, of which only the entries are
visible. -/
structure PriorityQueue {ε κ : Type*} [LinearOrder κ] (key : ε → κ) where
  Queue : Type*
  empty : Queue
  entries : Queue → List ε
  insert : Queue → ε → Queue
  peek : Queue → Option ε
  pop : Queue → Option (ε × Queue)
  entries_empty : entries empty = []
  insert_entries : ∀ q a, (entries (insert q a)).Perm (a :: entries q)
  peek_none : ∀ q, peek q = none ↔ entries q = []
  peek_least : ∀ q a, peek q = some a → ∀ b ∈ entries q, key a ≤ key b
  pop_fst : ∀ q, (pop q).map Prod.fst = peek q
  pop_entries : ∀ q a q', pop q = some (a, q') → (entries q).Perm (a :: entries q')

namespace PriorityQueue

variable {ε κ : Type*} [LinearOrder κ] {key : ε → κ}

/-- Insert into a sorted list, after the entries with the same key. -/
def place (key : ε → κ) (a : ε) : List ε → List ε
  | [] => [a]
  | b :: l => if key b ≤ key a then b :: place key a l else a :: b :: l

theorem place_perm (a : ε) (l : List ε) : (place key a l).Perm (a :: l) := by
  induction l with
  | nil => exact .refl _
  | cons b l ih =>
    simp only [place]
    split_ifs with h
    · exact (ih.cons b).trans (.swap a b l)
    · exact .refl _

theorem place_sorted (a : ε) {l : List ε} (h : l.Pairwise fun b c => key b ≤ key c) :
    (place key a l).Pairwise fun b c => key b ≤ key c := by
  induction l with
  | nil => exact List.pairwise_singleton _ _
  | cons b l ih =>
    obtain ⟨hb, hl⟩ := List.pairwise_cons.mp h
    simp only [place]
    split_ifs with hab
    · refine List.pairwise_cons.mpr ⟨fun c hc => ?_, ih hl⟩
      rcases List.mem_cons.mp ((place_perm a l).subset hc) with rfl | hc
      · exact hab
      · exact hb c hc
    · have hlt : key a < key b := lt_of_not_ge hab
      refine List.pairwise_cons.mpr ⟨fun c hc => ?_, h⟩
      rcases List.mem_cons.mp hc with rfl | hc
      · exact hlt.le
      · exact hlt.le.trans (hb c hc)

/-- A sorted list is a priority queue. -/
def ofList (key : ε → κ) : PriorityQueue key where
  Queue := {l : List ε // l.Pairwise fun b c => key b ≤ key c}
  empty := ⟨[], List.Pairwise.nil⟩
  entries q := q.val
  insert q a := ⟨place key a q.val, place_sorted a q.property⟩
  peek q := q.val.head?
  pop q := match q with
    | ⟨[], _⟩ => none
    | ⟨a :: l, h⟩ => some (a, ⟨l, h.of_cons⟩)
  entries_empty := rfl
  insert_entries q a := place_perm a q.val
  peek_none q := List.head?_eq_none_iff
  peek_least := by
    rintro ⟨_ | ⟨c, l⟩, hl⟩ a ha b hb
    · cases ha
    · obtain rfl : c = a := by simpa using ha
      rcases List.mem_cons.mp hb with rfl | hb
      · exact le_rfl
      · exact (List.pairwise_cons.mp hl).1 b hb
  pop_fst := by rintro ⟨_ | ⟨a, l⟩, h⟩ <;> rfl
  pop_entries := by
    rintro ⟨_ | ⟨c, l⟩, h⟩ a q' hq
    · cases hq
    · obtain ⟨rfl, rfl⟩ := Prod.mk.inj (Option.some.inj hq)
      exact .refl _

variable {Q : PriorityQueue key}

theorem pop_of_peek {q : Q.Queue} {a : ε} (h : Q.peek q = some a) :
    ∃ q', Q.pop q = some (a, q') ∧ (Q.entries q).Perm (a :: Q.entries q') := by
  have hp := Q.pop_fst q
  rw [h, Option.map_eq_some_iff] at hp
  obtain ⟨⟨b, q'⟩, hpop, rfl⟩ := hp
  exact ⟨q', hpop, Q.pop_entries q b q' hpop⟩

@[simp] theorem mem_insert {q : Q.Queue} {a b : ε} :
    b ∈ Q.entries (Q.insert q a) ↔ b = a ∨ b ∈ Q.entries q :=
  (Q.insert_entries q a).mem_iff.trans List.mem_cons

end PriorityQueue

end Lawd.Library

import Mathlib.Data.List.Nodup

/-!
# Intrusive singly linked lists

The nodes live in a heap and carry their own link. A list is the address of its
first node; the nodes it holds are the ones met along the links. The two
operations are those of a stack. What they do to other lists in the same heap
follows from disjointness of the nodes alone.
-/
namespace Lawd.Library

variable {σ ν : Type*} [DecidableEq ν]

/-- How a heap `σ` stores the link of a node. -/
structure NodeIface (σ ν : Type*) [DecidableEq ν] where
  getNext : σ → ν → Option ν
  setNext : σ → ν → Option ν → σ
  getNext_setNext : ∀ h p x q, getNext (setNext h p x) q = if q = p then x else getNext h q

namespace NodeIface

variable (I : NodeIface σ ν)

/-- Link `node` in front of `list` and return the new first node. -/
def pushFront (h : σ) (list : Option ν) (node : ν) : σ × Option ν :=
  (I.setNext h node list, some node)

/-- Unlink the first node: the heap, the rest of the list, and the node, if any.
The removed node no longer links to anything. -/
def removeFirst (h : σ) : Option ν → σ × Option ν × Option ν
  | none => (h, none, none)
  | some p => (I.setNext h p none, I.getNext h p, some p)

/-- `l` is the list of nodes met from `head` along the links. -/
def Chain (h : σ) : Option ν → List ν → Prop
  | head, [] => head = none
  | head, p :: l => head = some p ∧ Chain h (I.getNext h p) l

variable {I}

@[simp] theorem chain_nil {h : σ} {head : Option ν} : I.Chain h head [] ↔ head = none := Iff.rfl

@[simp] theorem chain_cons {h : σ} {head : Option ν} {p : ν} {l : List ν} :
    I.Chain h head (p :: l) ↔ head = some p ∧ I.Chain h (I.getNext h p) l := Iff.rfl

theorem Chain.eq_nil {h : σ} {l : List ν} (hc : I.Chain h none l) : l = [] := by
  cases l with
  | nil => rfl
  | cons p l => exact absurd hc.1 (by simp)

theorem Chain.eq_cons {h : σ} {p : ν} {l : List ν} (hc : I.Chain h (some p) l) :
    ∃ l', l = p :: l' ∧ I.Chain h (I.getNext h p) l' := by
  cases l with
  | nil => exact absurd hc (by simp)
  | cons q l' =>
    obtain rfl : p = q := by simpa using hc.1
    exact ⟨l', rfl, hc.2⟩

theorem Chain.unique {h : σ} {head : Option ν} {l l' : List ν}
    (hl : I.Chain h head l) (hl' : I.Chain h head l') : l = l' := by
  induction l generalizing head l' with
  | nil =>
    obtain rfl : head = none := hl
    exact hl'.eq_nil.symm
  | cons p l ih =>
    obtain ⟨rfl, htail⟩ := hl
    obtain ⟨m, rfl, hm⟩ := hl'.eq_cons
    rw [ih htail hm]

theorem Chain.congr {h h' : σ} {head : Option ν} {l : List ν} (hc : I.Chain h head l)
    (hn : ∀ p ∈ l, I.getNext h' p = I.getNext h p) : I.Chain h' head l := by
  induction l generalizing head with
  | nil => exact hc
  | cons p l ih =>
    refine ⟨hc.1, ?_⟩
    rw [hn p (by simp)]
    exact ih hc.2 fun q hq => hn q (by simp [hq])

theorem Chain.setNext {h : σ} {head : Option ν} {l : List ν} (hc : I.Chain h head l)
    {p : ν} (hp : p ∉ l) (x : Option ν) : I.Chain (I.setNext h p x) head l :=
  hc.congr fun q hq => by
    rw [I.getNext_setNext, if_neg]
    rintro rfl
    exact hp hq

theorem Chain.pushFront {h : σ} {list : Option ν} {l : List ν} (hc : I.Chain h list l)
    {p : ν} (hp : p ∉ l) :
    I.Chain (I.pushFront h list p).1 (I.pushFront h list p).2 (p :: l) := by
  refine ⟨rfl, ?_⟩
  simp only [NodeIface.pushFront, I.getNext_setNext, if_true]
  exact hc.setNext hp list

theorem Chain.removeFirst {h : σ} {p : ν} {l : List ν} (hc : I.Chain h (some p) (p :: l))
    (hp : p ∉ l) :
    I.Chain (I.removeFirst h (some p)).1 (I.removeFirst h (some p)).2.1 l :=
  hc.2.setNext hp none

end NodeIface

end Lawd.Library

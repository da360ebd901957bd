import Mathlib.Data.List.Perm.Basic
import Mathlib.Data.List.Nodup

/-!
# Maps modulo a key comparison

A hash map is given a comparison and a hash of its keys and is a correct map
for that comparison, provided that equal keys hash equally. Its nodes, in the
order of an iteration, are all there is to know about it: every such map
behaves as the list of its nodes.
-/
namespace Lawd.Library

/-- What a map is told about its nodes: their keys, key equality and the hash. -/
structure MapIface (κ ν : Type*) where
  key : ν → κ
  equals : κ → κ → Bool
  hash : κ → ℕ

/-- Result of an insertion. -/
inductive InsertResult where
  | success
  | exist
  | resize
  deriving DecidableEq, Repr

namespace MapIface

variable {κ ν : Type*}

/-- The comparison is an equivalence, and equal keys hash equally. -/
structure Lawful (I : MapIface κ ν) : Prop where
  refl : ∀ a, I.equals a a = true
  symm : ∀ a b, I.equals a b = true → I.equals b a = true
  trans : ∀ a b c, I.equals a b = true → I.equals b c = true → I.equals a c = true
  hash_eq : ∀ a b, I.equals a b = true → I.hash a = I.hash b

variable (I : MapIface κ ν)

/-- No two nodes have equal keys. -/
def Distinct (l : List ν) : Prop := l.Pairwise fun a b => I.equals (I.key b) (I.key a) = false

/-- The node under a key. -/
def find (l : List ν) (k : κ) : Option ν := l.find? fun n => I.equals (I.key n) k

/-- Insert a node unless its key is taken. -/
def insert (l : List ν) (n : ν) : InsertResult × List ν :=
  match I.find l (I.key n) with
  | some _ => (.exist, l)
  | none => (.success, n :: l)

/-- Drop the nodes under a key. -/
def erase (l : List ν) (k : κ) : List ν := l.filter fun n => !I.equals (I.key n) k

variable {I}

@[simp] theorem find_eq_none {l : List ν} {k : κ} :
    I.find l k = none ↔ ∀ n ∈ l, I.equals (I.key n) k = false := by
  simp [find]

theorem find_some_mem {l : List ν} {k : κ} {n : ν} (h : I.find l k = some n) : n ∈ l :=
  List.mem_of_find?_eq_some h

theorem find_some_key {l : List ν} {k : κ} {n : ν} (h : I.find l k = some n) :
    I.equals (I.key n) k = true := by
  simpa using List.find?_some h

theorem insert_of_find_some {l : List ν} {n m : ν} (h : I.find l (I.key n) = some m) :
    I.insert l n = (.exist, l) := by
  rw [insert, h]

theorem insert_of_find_none {l : List ν} {n : ν} (h : I.find l (I.key n) = none) :
    I.insert l n = (.success, n :: l) := by
  rw [insert, h]

@[simp] theorem mem_erase {l : List ν} {k : κ} {n : ν} :
    n ∈ I.erase l k ↔ n ∈ l ∧ I.equals (I.key n) k = false := by
  simp [erase]

theorem erase_sublist (l : List ν) (k : κ) : (I.erase l k).Sublist l := List.filter_sublist

theorem distinct_erase {l : List ν} (h : I.Distinct l) (k : κ) : I.Distinct (I.erase l k) :=
  h.sublist (erase_sublist l k)

theorem insert_distinct {l : List ν} (h : I.Distinct l) (n : ν) :
    I.Distinct (I.insert l n).2 := by
  cases hf : I.find l (I.key n) with
  | some m => exact insert_of_find_some hf ▸ h
  | none => exact insert_of_find_none hf ▸ List.pairwise_cons.mpr ⟨find_eq_none.mp hf, h⟩

theorem find_of_mem (hI : I.Lawful) {l : List ν} (h : I.Distinct l) {n : ν} (hn : n ∈ l)
    {k : κ} (hk : I.equals (I.key n) k = true) : I.find l k = some n := by
  induction l with
  | nil => simp at hn
  | cons m l ih =>
    obtain ⟨hm, hl⟩ := List.pairwise_cons.mp h
    rcases List.mem_cons.mp hn with rfl | hn'
    · simp [find, hk]
    · have hne : I.equals (I.key m) k = false := by
        by_contra hmk
        have hmn := hI.trans _ _ _ hk (hI.symm _ _ (by simpa using hmk))
        simp [hm n hn'] at hmn
      simpa [find, hne] using ih hl hn'

theorem find_iff (hI : I.Lawful) {l : List ν} (h : I.Distinct l) {k : κ} {n : ν} :
    I.find l k = some n ↔ n ∈ l ∧ I.equals (I.key n) k = true :=
  ⟨fun hf => ⟨find_some_mem hf, find_some_key hf⟩, fun ⟨hn, hk⟩ => find_of_mem hI h hn hk⟩

theorem find_perm (hI : I.Lawful) {l l' : List ν} (h : I.Distinct l) (h' : I.Distinct l')
    (hp : l.Perm l') (k : κ) : I.find l k = I.find l' k := by
  cases hf : I.find l' k with
  | none => exact find_eq_none.mpr fun n hn => find_eq_none.mp hf n (hp.subset hn)
  | some n =>
    obtain ⟨hn, hk⟩ := (find_iff hI h').mp hf
    exact find_of_mem hI h (hp.symm.subset hn) hk

theorem erase_perm (hI : I.Lawful) {l : List ν} (h : I.Distinct l) {k : κ} {n : ν}
    (hf : I.find l k = some n) : l.Perm (n :: I.erase l k) := by
  induction l with
  | nil => simp [find] at hf
  | cons m l ih =>
    obtain ⟨hm, hl⟩ := List.pairwise_cons.mp h
    by_cases hk : I.equals (I.key m) k = true
    · obtain rfl : m = n := by simpa [find, hk] using hf
      have hrest : I.erase l k = l := List.filter_eq_self.mpr fun q hq => by
        have hqm := hm q hq
        by_contra hqk
        have hqk' : I.equals (I.key q) k = true := by simpa using hqk
        rw [hI.trans _ _ _ hqk' (hI.symm _ _ hk)] at hqm
        contradiction
      have hcons : I.erase (m :: l) k = I.erase l k := List.filter_cons_of_neg (by simp [hk])
      rw [hcons, hrest]
    · have hk' : I.equals (I.key m) k = false := by simpa using hk
      have hf' : I.find l k = some n := by simpa [find, hk'] using hf
      have hcons : I.erase (m :: l) k = m :: I.erase l k :=
        List.filter_cons_of_pos (by simp [hk'])
      rw [hcons]
      exact ((ih hl hf').cons m).trans (List.Perm.swap n m _)

end MapIface

/-- A correct map for the interface `I`, of which only the nodes are visible. -/
structure KeyedMap {κ ν : Type*} (I : MapIface κ ν) where
  Map : Type*
  empty : Map
  nodes : Map → List ν
  size : Map → ℕ
  insert : Map → ν → InsertResult × Map
  lookup : Map → κ → Option ν
  remove : Map → κ → Option ν × Map
  nodes_empty : nodes empty = []
  distinct : I.Lawful → ∀ m, I.Distinct (nodes m)
  size_eq : ∀ m, size m = (nodes m).length
  lookup_eq : I.Lawful → ∀ m k, lookup m k = I.find (nodes m) k
  insert_fst : I.Lawful → ∀ m n, (insert m n).1 = (I.insert (nodes m) n).1
  insert_nodes : I.Lawful → ∀ m n, (nodes (insert m n).2).Perm (I.insert (nodes m) n).2
  remove_fst : I.Lawful → ∀ m k, (remove m k).1 = I.find (nodes m) k
  remove_nodes : I.Lawful → ∀ m k, (nodes (remove m k).2).Perm (I.erase (nodes m) k)

namespace KeyedMap

variable {κ ν : Type*} {I : MapIface κ ν}

/-- A list of nodes with distinct keys is such a map. -/
def ofList (I : MapIface κ ν) : KeyedMap I where
  Map := {l : List ν // I.Distinct l}
  empty := ⟨[], List.Pairwise.nil⟩
  nodes m := m.val
  size m := m.val.length
  insert m n :=
    ((I.insert m.val n).1, ⟨(I.insert m.val n).2, MapIface.insert_distinct m.property n⟩)
  lookup m k := I.find m.val k
  remove m k := (I.find m.val k, ⟨I.erase m.val k, MapIface.distinct_erase m.property k⟩)
  nodes_empty := rfl
  distinct _ m := m.property
  size_eq _ := rfl
  lookup_eq _ _ _ := rfl
  insert_fst _ _ _ := rfl
  insert_nodes _ _ _ := .refl _
  remove_fst _ _ _ := rfl
  remove_nodes _ _ _ := .refl _

/-- The map `m` holds the nodes of the list `l`. -/
def Holds (H : KeyedMap I) (m : H.Map) (l : List ν) : Prop :=
  I.Distinct l ∧ (H.nodes m).Perm l

variable {H : KeyedMap I}

theorem holds_empty : H.Holds H.empty [] := ⟨List.Pairwise.nil, by simp [H.nodes_empty]⟩

theorem Holds.size {m : H.Map} {l : List ν} (h : H.Holds m l) : H.size m = l.length :=
  (H.size_eq m).trans h.2.length_eq

theorem Holds.lookup (hI : I.Lawful) {m : H.Map} {l : List ν} (h : H.Holds m l) (k : κ) :
    H.lookup m k = I.find l k :=
  (H.lookup_eq hI m k).trans (MapIface.find_perm hI (H.distinct hI m) h.1 h.2 k)

theorem Holds.insert (hI : I.Lawful) {m : H.Map} {l : List ν} (h : H.Holds m l) (n : ν) :
    (H.insert m n).1 = (I.insert l n).1 ∧ H.Holds (H.insert m n).2 (I.insert l n).2 := by
  have hfind := MapIface.find_perm hI (H.distinct hI m) h.1 h.2 (I.key n)
  have hnodes := H.insert_nodes hI m n
  rw [H.insert_fst hI m n]
  refine ⟨?_, MapIface.insert_distinct h.1 n, hnodes.trans ?_⟩ <;>
    simp only [MapIface.insert, hfind] <;> cases I.find l (I.key n)
  · rfl
  · rfl
  · exact h.2.cons n
  · exact h.2

theorem Holds.remove (hI : I.Lawful) {m : H.Map} {l : List ν} (h : H.Holds m l) (k : κ) :
    (H.remove m k).1 = I.find l k ∧ H.Holds (H.remove m k).2 (I.erase l k) := by
  refine ⟨?_, MapIface.distinct_erase h.1 k, ?_⟩
  · rw [H.remove_fst hI m k]
    exact MapIface.find_perm hI (H.distinct hI m) h.1 h.2 k
  · exact (H.remove_nodes hI m k).trans (h.2.filter _)

end KeyedMap

end Lawd.Library

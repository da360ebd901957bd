import Lawd.Base
import Lawd.Library.Bytes
import Lawd.Library.KeyedMap
import Mathlib.Data.Set.Card
import Mathlib.Logic.Function.Basic

/-!
# The id table

A table node holds a 64-bit id and a pointer. The comparison and the hash that
the table hands to its hash map read the key through an `int` pointer, so on a
little-endian machine only the low 32 bits of the id take part. The table is
therefore a map keyed by the low 32 bits; it is a map keyed by the id exactly
as long as no two ids that meet in it agree there.
-/
namespace Lawd

open Library

/-- `law_table_node_t`; the link to the next node of a bucket is the map's own.
The pointer `NULL` is `none`. -/
structure TableNode (α : Type*) where
  id : Id
  pointer : Option α

/-- The bytes of a key in memory. -/
def keyBytes (key : Id) : List UInt8 := Endian.little.store 8 key.toNat

/-- `*((int*)key)`. -/
def keyInt (key : Id) : ℕ := Endian.little.load ((keyBytes key).take 4)

/-- `law_table_equals`. -/
def tableEquals (a b : Id) : Bool := keyInt a == keyInt b

/-- `law_table_hash`, over the byte hash `pmt_hm_fnv`. -/
def tableHash (fnv : List UInt8 → ℕ) (key : Id) : ℕ := fnv ((keyBytes key).take 4)

/-- `law_table_iface`. -/
def tableIface (α : Type*) (fnv : List UInt8 → ℕ) : MapIface Id (TableNode α) where
  key := TableNode.id
  equals := tableEquals
  hash := tableHash fnv

theorem keyInt_eq (key : Id) : keyInt key = (key.setWidth 32).toNat := by
  have htake : (keyBytes key).take 4 = digits 4 key.toNat := digits_take 4 8 _ (by decide)
  rw [keyInt, htake, BitVec.toNat_setWidth]
  exact ofDigits_digits 4 key.toNat

@[simp] theorem tableEquals_iff (a b : Id) :
    tableEquals a b = true ↔ a.setWidth 32 = b.setWidth 32 := by
  rw [tableEquals, beq_iff_eq, keyInt_eq, keyInt_eq, BitVec.toNat_inj]

@[simp] theorem tableEquals_false (a b : Id) :
    tableEquals a b = false ↔ a.setWidth 32 ≠ b.setWidth 32 := by
  rw [← not_iff_not, Bool.not_eq_false, tableEquals_iff, not_not]

theorem tableIface_lawful (α : Type*) (fnv : List UInt8 → ℕ) : (tableIface α fnv).Lawful where
  refl a := (tableEquals_iff a a).mpr rfl
  symm a b h := (tableEquals_iff b a).mpr ((tableEquals_iff a b).mp h).symm
  trans a b c hab hbc :=
    (tableEquals_iff a c).mpr (((tableEquals_iff a b).mp hab).trans ((tableEquals_iff b c).mp hbc))
  hash_eq a b h := by
    have hab : keyInt a = keyInt b := by simpa [tableIface, tableEquals] using h
    have hlen : ((keyBytes a).take 4).length = ((keyBytes b).take 4).length := by simp [keyBytes]
    have hbytes := congrArg (Endian.little.store ((keyBytes a).take 4).length) hab
    rw [keyInt, Endian.store_load, hlen, keyInt, Endian.store_load] at hbytes
    exact congrArg fnv hbytes

section Operations

variable {α : Type*} {fnv : List UInt8 → ℕ} (H : KeyedMap (tableIface α fnv))

/-- `law_table_insert`. -/
def tableInsert (table : H.Map) (id : Id) (pointer : Option α) : InsertResult × H.Map :=
  H.insert table ⟨id, pointer⟩

/-- `law_table_lookup`. -/
def tableLookup (table : H.Map) (id : Id) : Option α :=
  match H.lookup table id with
  | none => none
  | some node => node.pointer

/-- `law_table_remove`. -/
def tableRemove (table : H.Map) (id : Id) : Option α × H.Map :=
  match H.remove table id with
  | (none, table') => (none, table')
  | (some node, table') => (node.pointer, table')

theorem tableRemove_eq (table : H.Map) (id : Id) :
    tableRemove H table id =
      ((H.remove table id).1.bind TableNode.pointer, (H.remove table id).2) := by
  unfold tableRemove
  split <;> simp [*]

/-- `law_table_entries`, and `law_table_next` until it returns false. -/
def tableEntries (table : H.Map) : List (Id × Option α) :=
  (H.nodes table).map fun node => (node.id, node.pointer)

/-- `law_table_size`. -/
def tableSize (table : H.Map) : ℕ := H.size table

variable {H}

theorem tableSize_eq (table : H.Map) : tableSize H table = (H.nodes table).length :=
  H.size_eq table

theorem tableLookup_some {table : H.Map} {id : Id} {p : α} (h : tableLookup H table id = some p) :
    ∃ node ∈ H.nodes table, node.pointer = some p ∧
      node.id.setWidth 32 = id.setWidth 32 := by
  unfold tableLookup at h
  split at h
  · cases h
  · rename_i node hnode
    rw [H.lookup_eq (tableIface_lawful α fnv)] at hnode
    exact ⟨node, MapIface.find_some_mem hnode, h,
      (tableEquals_iff _ _).mp (MapIface.find_some_key hnode)⟩

theorem tableLookup_of_mem {table : H.Map} {node : TableNode α} (hn : node ∈ H.nodes table)
    {id : Id} (hid : node.id.setWidth 32 = id.setWidth 32) :
    tableLookup H table id = node.pointer := by
  have hI := tableIface_lawful α fnv
  have hfind : (tableIface α fnv).find (H.nodes table) id = some node :=
    MapIface.find_of_mem hI (H.distinct hI table) hn ((tableEquals_iff _ _).mpr hid)
  rw [tableLookup, H.lookup_eq hI, hfind]

/-- A successful insertion adds the node; no other node has its low 32 bits. -/
theorem tableInsert_success {table table' : H.Map} {id : Id} {p : Option α}
    (h : tableInsert H table id p = (.success, table')) :
    (H.nodes table').Perm (⟨id, p⟩ :: H.nodes table) ∧
      ∀ node ∈ H.nodes table, node.id.setWidth 32 ≠ id.setWidth 32 := by
  have hI := tableIface_lawful α fnv
  have hfst := H.insert_fst hI table ⟨id, p⟩
  have hnodes := H.insert_nodes hI table ⟨id, p⟩
  obtain ⟨h1, h2⟩ := Prod.mk.inj h
  rw [h1] at hfst
  rw [h2] at hnodes
  cases hfind : (tableIface α fnv).find (H.nodes table) ((tableIface α fnv).key ⟨id, p⟩) with
  | some node => simp [MapIface.insert_of_find_some hfind] at hfst
  | none =>
    rw [MapIface.insert_of_find_none hfind] at hnodes
    exact ⟨hnodes, fun node hn =>
      (tableEquals_false node.id id).mp (MapIface.find_eq_none.mp hfind node hn)⟩

/-- A removal that returns a pointer takes the node of that pointer. -/
theorem tableRemove_some {table table' : H.Map} {id : Id} {p : α}
    (h : tableRemove H table id = (some p, table')) :
    ∃ node, node.pointer = some p ∧ node.id.setWidth 32 = id.setWidth 32 ∧
      (H.nodes table).Perm (node :: H.nodes table') := by
  have hI := tableIface_lawful α fnv
  have hfst := H.remove_fst hI table id
  have hnodes := H.remove_nodes hI table id
  rw [tableRemove_eq] at h
  obtain ⟨h1, rfl⟩ := Prod.mk.inj h
  obtain ⟨node, hnode, hp⟩ := Option.bind_eq_some_iff.mp h1
  rw [hnode] at hfst
  have hfind : (tableIface α fnv).find (H.nodes table) id = some node := hfst.symm
  exact ⟨node, hp, (tableEquals_iff _ _).mp (MapIface.find_some_key hfind),
    (MapIface.erase_perm hI (H.distinct hI table) hfind).trans (hnodes.symm.cons node)⟩

theorem table_low_inj {table : H.Map} {m n : TableNode α} (hm : m ∈ H.nodes table)
    (hn : n ∈ H.nodes table) (h : m.id.setWidth 32 = n.id.setWidth 32) : m = n := by
  have hI := tableIface_lawful α fnv
  have hfind : ∀ {k}, k ∈ H.nodes table → k.id.setWidth 32 = n.id.setWidth 32 →
      (tableIface α fnv).find (H.nodes table) n.id = some k := fun hk hid =>
    MapIface.find_of_mem hI (H.distinct hI table) hk ((tableEquals_iff _ _).mpr hid)
  exact Option.some.inj ((hfind hm h).symm.trans (hfind hn rfl))

end Operations

/-- One call on a table. -/
inductive TableOp (α : Type*) where
  | insert (id : Id) (pointer : Option α)
  | lookup (id : Id)
  | remove (id : Id)
  | size
  | entries

/-- What a call returns. -/
inductive TableOut (α : Type*) where
  | inserted (result : InsertResult)
  | pointer (pointer : Option α)
  | size (size : ℕ)
  | entries (entries : List (Id × Option α))

/-- Perform one call on a table. -/
def tableStep {α : Type*} {fnv : List UInt8 → ℕ} (H : KeyedMap (tableIface α fnv))
    (table : H.Map) : TableOp α → TableOut α × H.Map
  | .insert id p => (.inserted (tableInsert H table id p).1, (tableInsert H table id p).2)
  | .lookup id => (.pointer (tableLookup H table id), table)
  | .remove id => (.pointer (tableRemove H table id).1, (tableRemove H table id).2)
  | .size => (.size (tableSize H table), table)
  | .entries => (.entries (tableEntries H table), table)

/-- The abstract map: the pointer last inserted under each live 64-bit id. -/
abbrev IdMap (α : Type*) := Id → Option (Option α)

/-- What one call does to the abstract map. -/
def idMapStep {α : Type*} (m : IdMap α) : TableOp α → IdMap α
  | .insert id p => if (m id).isSome then m else Function.update m id (some p)
  | .remove id => Function.update m id none
  | _ => m

@[simp] theorem idMapStep_insert_isSome {α : Type*} (m : IdMap α) (id live : Id) (p : Option α) :
    (idMapStep m (.insert id p) live).isSome ↔ live = id ∨ (m live).isSome := by
  by_cases hm : (m id).isSome
  · simp only [idMapStep, hm, if_true]
    exact ⟨.inr, by rintro (rfl | h) <;> assumption⟩
  · by_cases hl : live = id <;> simp [idMapStep, hm, hl]

@[simp] theorem idMapStep_remove_isSome {α : Type*} (m : IdMap α) (id live : Id) :
    (idMapStep m (.remove id) live).isSome ↔ live ≠ id ∧ (m live).isSome := by
  by_cases hl : live = id <;> simp [idMapStep, hl]

@[simp] theorem idMapStep_lookup {α : Type*} (m : IdMap α) (id : Id) :
    idMapStep m (.lookup id) = m := rfl

/-- What a call must return when the abstract map is `m`. -/
def TableLaw {α : Type*} (m : IdMap α) : TableOp α → TableOut α → Prop
  | .insert id _, .inserted r => r = if (m id).isSome then .exist else .success
  | .lookup id, .pointer p => p = (m id).join
  | .remove id, .pointer p => p = (m id).join
  | .size, .size n => n = {id | (m id).isSome}.ncard
  | .entries, .entries l => (l.map Prod.fst).Nodup ∧ ∀ id p, (id, p) ∈ l ↔ m id = some p
  | _, _ => False

/-- Every call of the sequence returns what the abstract map says. -/
def TableConforms {α : Type*} {fnv : List UInt8 → ℕ} (H : KeyedMap (tableIface α fnv))
    (table : H.Map) (m : IdMap α) : List (TableOp α) → Prop
  | [] => True
  | op :: ops => TableLaw m op (tableStep H table op).1 ∧
      TableConforms H (tableStep H table op).2 (idMapStep m op) ops

/-- The id of the call agrees in its low 32 bits with no live id but itself. -/
def Unaliased {α : Type*} (m : IdMap α) : TableOp α → Prop
  | .insert id _ | .lookup id | .remove id =>
    ∀ live, (m live).isSome → live.setWidth 32 = id.setWidth 32 → live = id
  | .size | .entries => True

/-- Every call of the sequence is unaliased in the map before it. -/
def UnaliasedRun {α : Type*} (m : IdMap α) : List (TableOp α) → Prop
  | [] => True
  | op :: ops => Unaliased m op ∧ UnaliasedRun (idMapStep m op) ops

section Conformance

variable {α : Type*} {fnv : List UInt8 → ℕ} {H : KeyedMap (tableIface α fnv)}

/-- The nodes of a list are exactly the entries of an abstract map. -/
def Lists (l : List (TableNode α)) (m : IdMap α) : Prop := ∀ id p, ⟨id, p⟩ ∈ l ↔ m id = some p

/-- The table holds exactly the entries of an abstract map. -/
def Represents (H : KeyedMap (tableIface α fnv)) (table : H.Map) (m : IdMap α) : Prop :=
  ∃ l, H.Holds table l ∧ Lists l m

theorem represents_empty : Represents H H.empty (fun _ => none) :=
  ⟨[], KeyedMap.holds_empty, by simp [Lists]⟩

theorem distinct_ids {l : List (TableNode α)} (h : (tableIface α fnv).Distinct l) :
    (l.map TableNode.id).Nodup := by
  rw [List.Nodup, List.pairwise_map]
  refine h.imp fun {a b} hab heq => ?_
  exact (tableEquals_false b.id a.id).mp hab (by rw [heq])

theorem lists_live {l : List (TableNode α)} {m : IdMap α} (hl : Lists l m)
    {node : TableNode α} (hn : node ∈ l) : (m node.id).isSome := by
  rw [(hl node.id node.pointer).mp hn]
  rfl

/-- An unaliased search finds the node under the id itself, or nothing. -/
theorem find_unaliased {l : List (TableNode α)} {m : IdMap α}
    (hd : (tableIface α fnv).Distinct l) (hl : Lists l m) {id : Id}
    (hu : ∀ live, (m live).isSome → live.setWidth 32 = id.setWidth 32 → live = id) :
    (tableIface α fnv).find l id = (m id).map (TableNode.mk id) := by
  cases hm : m id with
  | some p =>
    exact MapIface.find_of_mem (tableIface_lawful α fnv) hd ((hl id p).mpr hm)
      ((tableEquals_iff id id).mpr rfl)
  | none =>
    refine MapIface.find_eq_none.mpr fun node hn => (tableEquals_false node.id id).mpr ?_
    intro hlow
    have hid := hu node.id (lists_live hl hn) hlow
    have hlive := lists_live hl hn
    simp [hid, hm] at hlive

theorem lists_insert {l : List (TableNode α)} {m : IdMap α} (hl : Lists l m) {id : Id}
    {p : Option α} (hm : m id = none) :
    Lists (⟨id, p⟩ :: l) (Function.update m id (some p)) := by
  intro j q
  by_cases hj : j = id
  · subst hj
    have hnot : ⟨j, q⟩ ∉ l := fun hq => by simp [(hl j q).mp hq] at hm
    simp [hnot, eq_comm]
  · simp [hj, hl j q]

theorem lists_erase {l : List (TableNode α)} {m : IdMap α} (hl : Lists l m) {id : Id}
    (hu : ∀ live, (m live).isSome → live.setWidth 32 = id.setWidth 32 → live = id) :
    Lists ((tableIface α fnv).erase l id) (Function.update m id none) := by
  intro j q
  rw [MapIface.mem_erase, hl j q]
  change m j = some q ∧ tableEquals j id = false ↔ _
  rw [tableEquals_false]
  by_cases hj : j = id
  · simp [hj]
  · simp only [Function.update_of_ne hj]
    exact ⟨fun h => h.1, fun h => ⟨h, fun hlow => hj (hu j (by simp [h]) hlow)⟩⟩

theorem lists_card {l : List (TableNode α)} {m : IdMap α} (hd : (tableIface α fnv).Distinct l)
    (hl : Lists l m) : l.length = {id | (m id).isSome}.ncard := by
  have hset : {id | (m id).isSome} = ((l.map TableNode.id).toFinset : Set Id) := by
    ext id
    simp only [Set.mem_ofPred_eq, List.coe_toFinset, List.mem_map]
    constructor
    · intro h
      obtain ⟨p, hp⟩ := Option.isSome_iff_exists.mp h
      exact ⟨⟨id, p⟩, (hl id p).mpr hp, rfl⟩
    · rintro ⟨node, hn, rfl⟩
      exact lists_live hl hn
  rw [hset, Set.ncard_coe_finset, List.toFinset_card_of_nodup (distinct_ids hd), List.length_map]

theorem entries_law {table : H.Map} {l : List (TableNode α)} {m : IdMap α}
    (hh : H.Holds table l) (hl : Lists l m) :
    TableLaw m .entries (.entries (tableEntries H table)) := by
  have hids : ((tableEntries H table).map Prod.fst).Nodup := by
    have hperm : ((tableEntries H table).map Prod.fst).Perm (l.map TableNode.id) := by
      rw [tableEntries, List.map_map]
      exact hh.2.map _
    exact hperm.nodup_iff.mpr (distinct_ids hh.1)
  refine ⟨hids, fun id p => ?_⟩
  rw [← hl id p, ← hh.2.mem_iff, tableEntries, List.mem_map]
  constructor
  · rintro ⟨node, hn, heq⟩
    obtain ⟨rfl, rfl⟩ := Prod.mk.inj heq
    exact hn
  · exact fun hn => ⟨_, hn, rfl⟩

/-- One unaliased call on a table that represents a map returns what the map
says and leaves a table that represents the new map. -/
theorem tableStep_conforms {table : H.Map} {m : IdMap α} (hr : Represents H table m)
    (op : TableOp α) (hu : Unaliased m op) :
    TableLaw m op (tableStep H table op).1 ∧
      Represents H (tableStep H table op).2 (idMapStep m op) := by
  obtain ⟨l, hh, hl⟩ := hr
  have hI := tableIface_lawful α fnv
  cases op with
  | insert id p =>
    obtain ⟨hfst, hsnd⟩ := hh.insert hI ⟨id, p⟩
    have hfind : (tableIface α fnv).find l id = (m id).map (TableNode.mk id) :=
      find_unaliased hh.1 hl hu
    cases hm : m id with
    | some q =>
      rw [hm] at hfind
      have hins : (tableIface α fnv).insert l ⟨id, p⟩ = (.exist, l) :=
        MapIface.insert_of_find_some hfind
      rw [hins] at hfst hsnd
      exact ⟨by simpa [TableLaw, tableStep, tableInsert, hm] using hfst,
        l, hsnd, by simpa [idMapStep, hm] using hl⟩
    | none =>
      rw [hm] at hfind
      have hins : (tableIface α fnv).insert l ⟨id, p⟩ = (.success, ⟨id, p⟩ :: l) :=
        MapIface.insert_of_find_none hfind
      rw [hins] at hfst hsnd
      exact ⟨by simpa [TableLaw, tableStep, tableInsert, hm] using hfst,
        _, hsnd, by simpa [idMapStep, hm] using lists_insert hl hm⟩
  | lookup id =>
    have hlook := (hh.lookup hI id).trans (find_unaliased hh.1 hl hu)
    refine ⟨?_, l, hh, hl⟩
    simp only [TableLaw, tableStep, tableLookup, hlook]
    cases m id <;> rfl
  | remove id =>
    obtain ⟨hfst, hsnd⟩ := hh.remove hI id
    rw [find_unaliased hh.1 hl hu] at hfst
    have hrem := tableRemove_eq H table id
    rw [hfst] at hrem
    refine ⟨?_, _, by simpa [tableStep, hrem] using hsnd, lists_erase hl hu⟩
    simp only [TableLaw, tableStep, hrem]
    cases m id <;> rfl
  | size =>
    exact ⟨hh.size.trans (lists_card hh.1 hl), l, hh, hl⟩
  | entries =>
    exact ⟨entries_law hh hl, l, hh, hl⟩

/-- Conversely, a call that finds another live id in place of its own returns
what no map allows, unless that id carries a `NULL` pointer. -/
theorem tableStep_unaliased {table : H.Map} {m : IdMap α} (hr : Represents H table m)
    (hnull : ∀ id, m id ≠ some none) (op : TableOp α)
    (hlaw : TableLaw m op (tableStep H table op).1) : Unaliased m op := by
  obtain ⟨l, hh, hl⟩ := hr
  have hI := tableIface_lawful α fnv
  have key : ∀ id live, (m live).isSome → live.setWidth 32 = id.setWidth 32 → live ≠ id →
      m id = none ∧ ∃ x, (tableIface α fnv).find l id = some ⟨live, some x⟩ := by
    intro id live hlive hlow hne
    obtain ⟨q, hq⟩ := Option.isSome_iff_exists.mp hlive
    have hfind : (tableIface α fnv).find l id = some ⟨live, q⟩ :=
      MapIface.find_of_mem hI hh.1 ((hl live q).mpr hq) ((tableEquals_iff live id).mpr hlow)
    refine ⟨?_, ?_⟩
    · by_contra hid
      obtain ⟨r, hr⟩ := Option.ne_none_iff_exists'.mp hid
      have hself : (tableIface α fnv).find l id = some ⟨id, r⟩ :=
        MapIface.find_of_mem hI hh.1 ((hl id r).mpr hr) ((tableEquals_iff id id).mpr rfl)
      rw [hfind] at hself
      exact hne (congrArg TableNode.id (Option.some.inj hself))
    · cases q with
      | none => exact absurd hq (hnull live)
      | some x => exact ⟨x, hfind⟩
  cases op with
  | insert id p =>
    intro live hlive hlow
    by_contra hne
    obtain ⟨hid, x, hfind⟩ := key id live hlive hlow hne
    have hins : (tableIface α fnv).insert l ⟨id, p⟩ = (.exist, l) :=
      MapIface.insert_of_find_some hfind
    have hfst := (hh.insert hI ⟨id, p⟩).1
    rw [hins] at hfst
    simp [TableLaw, tableStep, tableInsert, hfst, hid] at hlaw
  | lookup id =>
    intro live hlive hlow
    by_contra hne
    obtain ⟨hid, x, hfind⟩ := key id live hlive hlow hne
    have hlook := (hh.lookup hI id).trans hfind
    simp [TableLaw, tableStep, tableLookup, hlook, hid] at hlaw
  | remove id =>
    intro live hlive hlow
    by_contra hne
    obtain ⟨hid, x, hfind⟩ := key id live hlive hlow hne
    have hrem := (hh.remove hI id).1.trans hfind
    simp [TableLaw, tableStep, tableRemove_eq, hrem, hid] at hlaw
  | size => trivial
  | entries => trivial

theorem conforms_of_unaliasedRun {table : H.Map} {m : IdMap α} (hr : Represents H table m)
    (ops : List (TableOp α)) (hu : UnaliasedRun m ops) : TableConforms H table m ops := by
  induction ops generalizing table m with
  | nil => trivial
  | cons op ops ih =>
    obtain ⟨hlaw, hnext⟩ := tableStep_conforms hr op hu.1
    exact ⟨hlaw, ih hnext hu.2⟩

theorem idMapStep_ne_null {m : IdMap α} (hnull : ∀ id, m id ≠ some none) {op : TableOp α}
    (hop : ∀ id, op ≠ .insert id none) (id : Id) : idMapStep m op id ≠ some none := by
  cases op with
  | insert j p =>
    simp only [idMapStep]
    split_ifs with hj
    · exact hnull id
    · rw [Function.update_apply]
      split_ifs with hid
      · exact fun hp => hop j (by rw [Option.some.inj hp])
      · exact hnull id
  | remove j =>
    simp only [idMapStep, Function.update_apply]
    split_ifs with hid
    · simp
    · exact hnull id
  | lookup j => exact hnull id
  | size => exact hnull id
  | entries => exact hnull id

theorem unaliasedRun_of_conforms {table : H.Map} {m : IdMap α} (hr : Represents H table m)
    (hnull : ∀ id, m id ≠ some none) (ops : List (TableOp α))
    (hops : ∀ id, TableOp.insert id none ∉ ops) (hc : TableConforms H table m ops) :
    UnaliasedRun m ops := by
  induction ops generalizing table m with
  | nil => trivial
  | cons op ops ih =>
    have hu := tableStep_unaliased hr hnull op hc.1
    have hop : ∀ id, op ≠ .insert id none := fun id h => hops id (by simp [h])
    exact ⟨hu, ih (tableStep_conforms hr op hu).2 (idMapStep_ne_null hnull hop)
      (fun id h => hops id (by simp [h])) hc.2⟩

end Conformance

/-- A table is a map keyed by the 64-bit id in every sequence of calls in which
no id meets another live id with the same low 32 bits; and in no other sequence
that inserts proper pointers. -/
theorem table_conforms_iff {α : Type*} {fnv : List UInt8 → ℕ} (H : KeyedMap (tableIface α fnv))
    (ops : List (TableOp α)) :
    (UnaliasedRun (fun _ => none) ops → TableConforms H H.empty (fun _ => none) ops) ∧
    ((∀ id, TableOp.insert id none ∉ ops) → TableConforms H H.empty (fun _ => none) ops →
      UnaliasedRun (fun _ => none) ops) :=
  ⟨conforms_of_unaliasedRun represents_empty ops,
    unaliasedRun_of_conforms represents_empty (by simp) ops⟩

/-- The two ids 1 and 2^32 + 1 are one key of the table: the second insertion
is refused although its id is absent. -/
theorem table_aliases : ¬ TableConforms (KeyedMap.ofList (tableIface ℕ (fun _ => 0)))
    (KeyedMap.ofList (tableIface ℕ (fun _ => 0))).empty (fun _ => none)
    [.insert 0x1 (some 7), .insert 0x100000001 (some 8)] := by
  intro h
  have hu := unaliasedRun_of_conforms represents_empty (by simp) _ (by simp) h
  exact absurd (hu.2.1 0x1 (by simp [idMapStep]) (by decide)) (by decide)

/-- The low bits of an id are free again once the id that had them is removed. -/
theorem table_conforms_again : TableConforms (KeyedMap.ofList (tableIface ℕ (fun _ => 0)))
    (KeyedMap.ofList (tableIface ℕ (fun _ => 0))).empty (fun _ => none)
    [.insert 0x1 (some 7), .insert 0x2 (some 8), .lookup 0x1, .remove 0x1,
      .insert 0x100000001 (some 9), .lookup 0x100000001, .size] := by
  refine (table_conforms_iff _ _).1 ⟨?_, ?_, ?_, ?_, ?_, ?_, trivial, trivial⟩ <;>
    intro live hlive hlow <;>
    simp at hlive
  · obtain rfl := hlive
    exact absurd hlow (by decide)
  · obtain rfl | rfl := hlive
    · exact absurd hlow (by decide)
    · rfl
  · obtain rfl | rfl := hlive
    · exact absurd hlow (by decide)
    · rfl
  · obtain ⟨hne, rfl | rfl⟩ := hlive
    · exact absurd hlow (by decide)
    · exact absurd rfl hne
  · obtain rfl | ⟨hne, rfl | rfl⟩ := hlive
    · rfl
    · exact absurd hlow (by decide)
    · exact absurd rfl hne

end Lawd

import Lawd.Creation

/-!
# Creating and destroying an HTTP server

`law_htserver_create` makes a group of four pools for each worker: heaps, stacks,
and buffers for input and output, as many of each as the worker may have tasks.
The ladders are those of the server, but for one step without a label: the memory
of a group is not looked at before it is cleared.
-/
namespace Lawd.Creation

open Library

/-- `law_hts_buf_t` or `law_hts_stk_t`. -/
structure HtsElement where
  self : ℕ
  mapping : Smem
  deriving DecidableEq, Repr

/-- `law_hts_pool_group_t`: the lists of its pools. -/
structure HtsPoolGroup where
  self : ℕ
  inPool : List HtsElement
  outPool : List HtsElement
  stackPool : List HtsElement
  heapPool : List HtsElement
  deriving DecidableEq, Repr

/-- The memory of `struct law_htserver`: its array of pointers, and the groups that
these point to. -/
structure HtServerMem where
  self : ℕ
  groups : ℕ
  group : List HtsPoolGroup
  deriving DecidableEq, Repr

/-- The values of `law_server_cfg_t` and `law_htserver_cfg_t` that decide what is
created. -/
structure HtCreationCfg where
  workers : ℕ
  workerTasks : ℕ
  input : ℕ
  output : ℕ
  stack : ℕ
  heap : ℕ

section Calls

variable (p : Provider CellKind)

/-- `law_hts_buf_create` and `law_hts_stk_create`: the mapping has a page before and
behind it. -/
def elementCreate (length : ℕ) (s : Accounts CellKind) :
    Option HtsElement × Accounts CellKind :=
  orUndo id (calloc p s) fun self s =>
    orUndo (free self) (smemCreate p length 4096 s) fun mapping s => (some ⟨self, mapping⟩, s)

/-- `law_hts_buf_create`. -/
def htsBufCreate (length : ℕ) : Accounts CellKind → Option HtsElement × Accounts CellKind :=
  elementCreate p length

/-- `law_hts_stk_create`. -/
def htsStkCreate (length : ℕ) : Accounts CellKind → Option HtsElement × Accounts CellKind :=
  elementCreate p length

/-- `law_hts_buf_destroy` and `law_hts_stk_destroy`. -/
def elementDestroy (e : HtsElement) (s : Accounts CellKind) : Accounts CellKind :=
  free e.self (smemDestroy e.mapping s)

/-- `law_hts_buf_pool_free` and `law_hts_stk_pool_free`. -/
def poolFree : List HtsElement → Accounts CellKind → Accounts CellKind :=
  destroyEach elementDestroy

/-- `law_hts_buf_pool_init` and `law_hts_stk_pool_init`, which differ in what they
create. -/
def poolInit (create : Accounts CellKind → Option HtsElement × Accounts CellKind) (size : ℕ)
    (s : Accounts CellKind) : Option (List HtsElement) × Accounts CellKind :=
  match createEach (fun _ => create) (fun list e => e :: list) size 0 [] s with
  | (true, list, s) => (some list, s)
  | (false, list, s) => (none, poolFree list s)

/-- `law_hts_buf_pool_init`. -/
def htsBufPoolInit (size length : ℕ) :
    Accounts CellKind → Option (List HtsElement) × Accounts CellKind :=
  poolInit (htsBufCreate p length) size

/-- `law_hts_stk_pool_init`. -/
def htsStkPoolInit (size length : ℕ) :
    Accounts CellKind → Option (List HtsElement) × Accounts CellKind :=
  poolInit (htsStkCreate p length) size

/-- A call that may go through a null pointer, with what was so when it did. -/
abbrev Crashing (α : Type) := Except (Accounts CellKind) (α × Accounts CellKind)

/-- `law_hts_pool_group_create`. Without its memory, the first pool is cleared through
a null pointer. -/
def poolGroupCreate (cfg : HtCreationCfg) (s : Accounts CellKind) :
    Crashing (Option HtsPoolGroup) :=
  match calloc p s with
  | (none, s) => .error s
  | (some grp, s) =>
    let freeGroup := free grp
    .ok <| orUndo freeGroup (htsStkPoolInit p cfg.workerTasks cfg.heap s) fun heapPool s =>
      let freeHeapPool := fun s => freeGroup (poolFree heapPool s)
      orUndo freeHeapPool (htsStkPoolInit p cfg.workerTasks cfg.stack s) fun stackPool s =>
        let freeStackPool := fun s => freeHeapPool (poolFree stackPool s)
        orUndo freeStackPool (htsBufPoolInit p cfg.workerTasks cfg.input s) fun inPool s =>
          let freeInPool := fun s => freeStackPool (poolFree inPool s)
          orUndo freeInPool (htsBufPoolInit p cfg.workerTasks cfg.output s) fun outPool s =>
            (some ⟨grp, inPool, outPool, stackPool, heapPool⟩, s)

/-- `law_hts_pool_group_destroy`. -/
def poolGroupDestroy (grp : HtsPoolGroup) (s : Accounts CellKind) : Accounts CellKind :=
  free grp.self (poolFree grp.heapPool (poolFree grp.stackPool (poolFree grp.inPool
    (poolFree grp.outPool s))))

/-- The loop of `law_hts_pool_groups_create`. -/
def poolGroupsEach (cfg : HtCreationCfg) : ℕ → List HtsPoolGroup → Accounts CellKind →
    Except (Accounts CellKind) (Bool × List HtsPoolGroup × Accounts CellKind)
  | 0, groups, s => .ok (true, groups, s)
  | m + 1, groups, s =>
    match poolGroupCreate p cfg s with
    | .error s => .error s
    | .ok (some grp, s) => poolGroupsEach cfg m (groups ++ [grp]) s
    | .ok (none, s) => .ok (false, groups, s)

/-- `law_hts_pool_groups_create`. -/
def poolGroupsCreate (cfg : HtCreationCfg) (s : Accounts CellKind) :
    Crashing (Option (ℕ × List HtsPoolGroup)) :=
  match calloc p s with
  | (none, s) => .ok (none, s)
  | (some groups, s) =>
    match poolGroupsEach p cfg cfg.workers [] s with
    | .error s => .error s
    | .ok (true, group, s) => .ok (some (groups, group), s)
    | .ok (false, group, s) =>
      .ok (none, free groups (destroyEach poolGroupDestroy group s))

/-- `law_hts_pool_groups_destroy`. -/
def poolGroupsDestroy (groups : ℕ × List HtsPoolGroup) (s : Accounts CellKind) :
    Accounts CellKind :=
  free groups.1 (destroyEach poolGroupDestroy groups.2 s)

/-- `law_htserver_create`. -/
def htserverCreate (cfg : HtCreationCfg) (s : Accounts CellKind) :
    Crashing (Option HtServerMem) :=
  match calloc p s with
  | (none, s) => .ok (none, s)
  | (some srv, s) =>
    (poolGroupsCreate p cfg s).map fun call =>
      orUndo (free srv) call fun groups s => (some ⟨srv, groups.1, groups.2⟩, s)

/-- `law_htserver_destroy`. -/
def htserverDestroy (srv : HtServerMem) (s : Accounts CellKind) : Accounts CellKind :=
  free srv.self (poolGroupsDestroy (srv.groups, srv.group) s)

end Calls

/-! ### What each of them holds -/

section Cells

def HtsElement.cells (e : HtsElement) : Multiset (CellKind × ℕ) :=
  e.mapping.cells + blockCells e.self

def poolCells : List HtsElement → Multiset (CellKind × ℕ) := cellsEach HtsElement.cells

def HtsPoolGroup.cells (grp : HtsPoolGroup) : Multiset (CellKind × ℕ) :=
  poolCells grp.outPool + (poolCells grp.inPool + (poolCells grp.stackPool +
    (poolCells grp.heapPool + blockCells grp.self)))

def groupsCells (groups : ℕ × List HtsPoolGroup) : Multiset (CellKind × ℕ) :=
  cellsEach HtsPoolGroup.cells groups.2 + blockCells groups.1

def HtServerMem.cells (srv : HtServerMem) : Multiset (CellKind × ℕ) :=
  groupsCells (srv.groups, srv.group) + blockCells srv.self

end Cells

section Specs

variable {p : Provider CellKind} {base held : Multiset (CellKind × ℕ)} {cfg : HtCreationCfg}

theorem elementDestroy_destroys : Destroys HtsElement.cells elementDestroy := fun e _ _ =>
  ((smemDestroy_destroys e.mapping).then (free_destroys e.self)).congr (add_assoc ..)

theorem poolFree_destroys : Destroys poolCells poolFree := fun list _ _ =>
  elementDestroy_destroys.each list

theorem poolGroupDestroy_destroys : Destroys HtsPoolGroup.cells poolGroupDestroy := fun grp _ _ =>
  ((poolFree_destroys grp.outPool).then ((poolFree_destroys grp.inPool).then
    ((poolFree_destroys grp.stackPool).then ((poolFree_destroys grp.heapPool).then
      (free_destroys grp.self))))).congr (by simp only [HtsPoolGroup.cells, add_assoc])

theorem poolGroupsDestroy_destroys : Destroys groupsCells poolGroupsDestroy := fun groups _ _ =>
  ((poolGroupDestroy_destroys.each groups.2).then (free_destroys groups.1)).congr (add_assoc ..)

theorem htserverDestroy_destroys : Destroys HtServerMem.cells htserverDestroy := fun srv _ _ =>
  ((poolGroupsDestroy_destroys (srv.groups, srv.group)).then (free_destroys srv.self)).congr
    (add_assoc ..)

theorem elementCreate_creates (p : Provider CellKind) (length : ℕ) :
    Creates p unprotected HtsElement.cells (elementCreate p length) := by
  intro base held s h
  refine ((calloc_creates p h).mono (Set.empty_subset _)).orUndo .nothing fun self s₁ h₁ hl₁ => ?_
  rw [← hl₁]
  refine (smemCreate_creates p _ _ h₁).orUndo (free_destroys self) fun mapping s₂ h₂ hl₂ => ?_
  exact .made (h₂.congr (add_assoc ..).symm) hl₂

theorem poolInit_creates {create : Accounts CellKind → Option HtsElement × Accounts CellKind}
    (hcreate : Creates p unprotected HtsElement.cells create) (size : ℕ) :
    Creates p unprotected poolCells (poolInit create size) := by
  intro base held s h
  have hstore : ∀ (l : List HtsElement) e, (e :: l).Perm (e :: l) := fun _ _ => .refl _
  have hnone : Balanced base (cellsEach HtsElement.cells [] + held) s :=
    h.congr (by simp [cellsEach])
  have heach := Creates.each (fun _ => hcreate) hstore size 0 hnone
  unfold poolInit
  generalize createEach _ _ _ _ _ _ = out at heach ⊢
  cases heach with
  | all h₁ hl₁ => exact .made h₁ hl₁
  | refused h₁ hrefused hlost => exact (poolFree_destroys _).refused h₁ hrefused hlost

theorem poolGroupCreate_made {s : Accounts CellKind} {out : Option HtsPoolGroup × Accounts CellKind}
    (h : Balanced base held s) (hrun : poolGroupCreate p cfg s = .ok out) :
    Made p unprotected base held HtsPoolGroup.cells s.lost out := by
  have hcalloc := calloc_creates p h
  unfold poolGroupCreate at hrun
  generalize calloc p s = call at hcalloc hrun
  cases hcalloc with
  | refused => cases hrun
  | @made grp s₁ h₁ hl₁ =>
    obtain rfl := Except.ok.inj hrun
    rw [← hl₁]
    have hstk := fun length size => poolInit_creates (elementCreate_creates p length) size
    refine (hstk _ _ h₁).orUndo (free_destroys grp) fun heapPool s₂ h₂ hl₂ => ?_
    have freeHeapPool : GivesBack base (poolCells heapPool + (blockCells grp + held)) held _ :=
      (poolFree_destroys heapPool).then (free_destroys grp)
    rw [← hl₂]
    refine (hstk _ _ h₂).orUndo freeHeapPool fun stackPool s₃ h₃ hl₃ => ?_
    have freeStackPool := (poolFree_destroys stackPool).then freeHeapPool
    rw [← hl₃]
    refine (hstk _ _ h₃).orUndo freeStackPool fun inPool s₄ h₄ hl₄ => ?_
    have freeInPool := (poolFree_destroys inPool).then freeStackPool
    rw [← hl₄]
    refine (hstk _ _ h₄).orUndo freeInPool fun outPool s₅ h₅ hl₅ => ?_
    exact .made (h₅.congr (by simp only [HtsPoolGroup.cells, add_assoc])) hl₅

theorem poolGroupsEach_made {m : ℕ} {groups : List HtsPoolGroup} {s : Accounts CellKind}
    {out : Bool × List HtsPoolGroup × Accounts CellKind}
    (h : Balanced base (cellsEach HtsPoolGroup.cells groups + held) s)
    (hrun : poolGroupsEach p cfg m groups s = .ok out) :
    MadeEach p unprotected base held HtsPoolGroup.cells s.lost out := by
  induction m generalizing groups s with
  | zero =>
    obtain rfl := Except.ok.inj hrun
    exact .all h rfl
  | succ m ih =>
    unfold poolGroupsEach at hrun
    rcases hcall : poolGroupCreate p cfg s with u | call
    · rw [hcall] at hrun
      cases hrun
    · rw [hcall] at hrun
      cases poolGroupCreate_made h hcall with
      | @made grp s₁ h₁ hl₁ =>
        have hcells : grp.cells + (cellsEach HtsPoolGroup.cells groups + held) =
            cellsEach HtsPoolGroup.cells (groups ++ [grp]) + held := by
          rw [cellsEach_perm (groups.perm_append_singleton grp), ← add_assoc]
          simp [cellsEach]
        have hmade := ih (h₁.congr hcells) hrun
        rwa [hl₁] at hmade
      | refused h₁ hrefused hlost =>
        obtain rfl := Except.ok.inj hrun
        exact .refused h₁ hrefused hlost

theorem poolGroupsCreate_made {s : Accounts CellKind}
    {out : Option (ℕ × List HtsPoolGroup) × Accounts CellKind} (h : Balanced base held s)
    (hrun : poolGroupsCreate p cfg s = .ok out) :
    Made p unprotected base held groupsCells s.lost out := by
  have hcalloc := (calloc_creates p h).mono (Set.empty_subset unprotected)
  unfold poolGroupsCreate at hrun
  generalize calloc p s = call at hcalloc hrun
  cases hcalloc with
  | refused h₁ hrefused hlost =>
    obtain rfl := Except.ok.inj hrun
    exact .refused h₁ hrefused hlost
  | @made self s₁ h₁ hl₁ =>
    dsimp only at hrun
    rcases heach : poolGroupsEach p cfg cfg.workers [] s₁ with u | call
    · rw [heach] at hrun
      cases hrun
    rw [heach] at hrun
    have hnone : Balanced base (cellsEach HtsPoolGroup.cells [] + (blockCells self + held)) s₁ :=
      h₁.congr (by simp [cellsEach])
    have hmade := poolGroupsEach_made hnone heach
    rw [hl₁] at hmade
    cases hmade with
    | all h₂ hl₂ =>
      obtain rfl := Except.ok.inj hrun
      exact .made (h₂.congr (add_assoc ..).symm) hl₂
    | refused h₂ hrefused hlost =>
      obtain rfl := Except.ok.inj hrun
      exact ((poolGroupDestroy_destroys.each _).then (free_destroys self)).refused h₂ hrefused hlost

theorem crashing_map_ok {α β : Type} {f : α → β} {e : Except (Accounts CellKind) α} {b : β}
    (h : e.map f = .ok b) : ∃ a, e = .ok a ∧ f a = b := by
  cases e with
  | error s => cases h
  | ok a => exact ⟨a, rfl, Except.ok.inj h⟩

theorem htserverCreate_made {s : Accounts CellKind} {out : Option HtServerMem × Accounts CellKind}
    (h : Balanced base held s) (hrun : htserverCreate p cfg s = .ok out) :
    Made p unprotected base held HtServerMem.cells s.lost out := by
  have hcalloc := (calloc_creates p h).mono (Set.empty_subset unprotected)
  unfold htserverCreate at hrun
  generalize calloc p s = call at hcalloc hrun
  cases hcalloc with
  | refused h₁ hrefused hlost =>
    obtain rfl := Except.ok.inj hrun
    exact .refused h₁ hrefused hlost
  | @made self s₁ h₁ hl₁ =>
    obtain ⟨call, hcall, rfl⟩ := crashing_map_ok hrun
    have hmade := poolGroupsCreate_made h₁ hcall
    rw [hl₁] at hmade
    refine hmade.orUndo (free_destroys self) fun groups s₂ h₂ hl₂ => ?_
    exact .made (h₂.congr (add_assoc ..).symm) hl₂

/-! ### How many of each -/

/-- Each pool has as many elements as the worker may have tasks. -/
structure HtsPoolGroup.Sized (grp : HtsPoolGroup) (workerTasks : ℕ) : Prop where
  inPool : grp.inPool.length = workerTasks
  outPool : grp.outPool.length = workerTasks
  stackPool : grp.stackPool.length = workerTasks
  heapPool : grp.heapPool.length = workerTasks

theorem poolInit_length {create : Accounts CellKind → Option HtsElement × Accounts CellKind}
    {size : ℕ} {list : List HtsElement} {s t : Accounts CellKind}
    (h : poolInit create size s = (some list, t)) : list.length = size := by
  unfold poolInit at h
  split at h
  · next l u heach =>
    obtain rfl := Option.some.inj (Prod.mk.inj h).1
    have hlength := createEach_length (fun _ _ => .refl _) heach
    rwa [List.length_nil, Nat.zero_add] at hlength
  · cases (Prod.mk.inj h).1

theorem poolGroupCreate_sized {grp : HtsPoolGroup} {s t : Accounts CellKind}
    (h : poolGroupCreate p cfg s = .ok (some grp, t)) : grp.Sized cfg.workerTasks := by
  unfold poolGroupCreate at h
  split at h
  · cases h
  · have h := Except.ok.inj h
    obtain ⟨heapPool, s₁, hheap, h⟩ := orUndo_eq_some h
    obtain ⟨stackPool, s₂, hstack, h⟩ := orUndo_eq_some h
    obtain ⟨inPool, s₃, hin, h⟩ := orUndo_eq_some h
    obtain ⟨outPool, s₄, hout, h⟩ := orUndo_eq_some h
    obtain rfl := Option.some.inj (Prod.mk.inj h).1
    exact ⟨poolInit_length hin, poolInit_length hout, poolInit_length hstack, poolInit_length hheap⟩

theorem poolGroupsEach_sized {m : ℕ} {groups groups' : List HtsPoolGroup}
    {s t : Accounts CellKind} (hsized : ∀ grp ∈ groups, grp.Sized cfg.workerTasks)
    (h : poolGroupsEach p cfg m groups s = .ok (true, groups', t)) :
    groups'.length = groups.length + m ∧ ∀ grp ∈ groups', grp.Sized cfg.workerTasks := by
  induction m generalizing groups s with
  | zero =>
    obtain rfl : groups = groups' := (Prod.mk.inj (Prod.mk.inj (Except.ok.inj h)).2).1
    exact ⟨rfl, hsized⟩
  | succ m ih =>
    unfold poolGroupsEach at h
    split at h
    · cases h
    · next grp u hcall =>
      have hmore : ∀ g ∈ groups ++ [grp], g.Sized cfg.workerTasks := by
        intro g hg
        obtain hg | hg := List.mem_append.mp hg
        · exact hsized g hg
        · rw [List.mem_singleton.mp hg]
          exact poolGroupCreate_sized hcall
      obtain ⟨hlength, hall⟩ := ih hmore h
      refine ⟨?_, hall⟩
      rw [hlength, List.length_append, List.length_singleton]
      omega
    · cases (Prod.mk.inj (Except.ok.inj h)).1

theorem htserverCreate_sized {srv : HtServerMem} {s t : Accounts CellKind}
    (h : htserverCreate p cfg s = .ok (some srv, t)) :
    srv.group.length = cfg.workers ∧ ∀ grp ∈ srv.group, grp.Sized cfg.workerTasks := by
  unfold htserverCreate at h
  split at h
  · cases (Prod.mk.inj (Except.ok.inj h)).1
  · obtain ⟨call, hcall, h⟩ := crashing_map_ok h
    obtain ⟨groups, s₁, rfl, h⟩ := orUndo_eq_some h
    obtain rfl := Option.some.inj (Prod.mk.inj h).1
    unfold poolGroupsCreate at hcall
    split at hcall
    · cases (Prod.mk.inj (Except.ok.inj hcall)).1
    · split at hcall
      · cases hcall
      · next heach =>
        obtain rfl := Option.some.inj (Prod.mk.inj (Except.ok.inj hcall)).1
        have hnone : ∀ grp ∈ ([] : List HtsPoolGroup), grp.Sized cfg.workerTasks :=
          fun _ hg => by cases hg
        have hsized := poolGroupsEach_sized hnone heach
        simpa using hsized
      · cases (Prod.mk.inj (Except.ok.inj hcall)).1

/-! ### The step without a label -/

theorem poolGroupsEach_crash {m : ℕ} {groups : List HtsPoolGroup} {s t : Accounts CellKind}
    (h : poolGroupsEach p cfg m groups s = .error t) : (.acquire .block, false) ∈ t.asked := by
  induction m generalizing groups s with
  | zero => cases h
  | succ m ih =>
    unfold poolGroupsEach at h
    split at h
    · next hcall =>
      obtain rfl := Except.error.inj h
      unfold poolGroupCreate at hcall
      split at hcall
      · next hnull =>
        obtain rfl := Except.error.inj hcall
        exact Provider.acquire_refused hnull
      · cases hcall
    · exact ih h
    · cases h

theorem htserverCreate_crash {s t : Accounts CellKind} (h : htserverCreate p cfg s = .error t) :
    (.acquire .block, false) ∈ t.asked := by
  unfold htserverCreate at h
  split at h
  · cases h
  · rename_i s₁ _
    rcases hcall : poolGroupsCreate p cfg s₁ with u | call
    · rw [hcall] at h
      obtain rfl := Except.error.inj h
      unfold poolGroupsCreate at hcall
      split at hcall
      · cases hcall
      · split at hcall
        · next heach => exact Except.error.inj hcall ▸ poolGroupsEach_crash heach
        · cases hcall
        · cases hcall
    · rw [hcall] at h
      cases h

end Specs

/-- A group whose elements have come back to its pools in any order. -/
structure SamePools (grp grp' : HtsPoolGroup) : Prop where
  self : grp.self = grp'.self
  inPool : grp.inPool.Perm grp'.inPool
  outPool : grp.outPool.Perm grp'.outPool
  stackPool : grp.stackPool.Perm grp'.stackPool
  heapPool : grp.heapPool.Perm grp'.heapPool

theorem SamePools.cells {grp grp' : HtsPoolGroup} (h : SamePools grp grp') :
    grp.cells = grp'.cells := by
  simp only [HtsPoolGroup.cells, poolCells, h.self, cellsEach_perm h.inPool,
    cellsEach_perm h.outPool, cellsEach_perm h.stackPool, cellsEach_perm h.heapPool]

theorem samePools_cells {groups groups' : List HtsPoolGroup}
    (h : List.Forall₂ SamePools groups groups') :
    cellsEach HtsPoolGroup.cells groups = cellsEach HtsPoolGroup.cells groups' := by
  induction h with
  | nil => rfl
  | cons hgrp _ ih =>
    simp only [cellsEach, List.map_cons, List.sum_cons, hgrp.cells] at ih ⊢
    rw [ih]

/-- Nothing is freed that is not live, and nothing twice. An HTTP server that is
created holds all that was given out for it, with a group for each worker and a
whole number of elements in each pool, and destroying it gives everything back,
in whatever order the elements have come back to their pools. Where there is no
server, something was asked for and refused, and what is still live is the mapping,
if there is one, whose `mprotect` was; where there is no return, a block was. -/
theorem htserver_created_whole (p : Provider CellKind) (cfg : HtCreationCfg)
    (live : Multiset (CellKind × ℕ)) :
    (∀ s, htserverCreate p cfg (.start live) = .error s → (.acquire .block, false) ∈ s.asked) ∧
    ∀ out s, htserverCreate p cfg (.start live) = .ok (out, s) →
      balance s.ledger live = some s.live ∧
      (∀ srv, out = some srv → s.live = live + srv.cells ∧ srv.group.length = cfg.workers ∧
        (∀ grp ∈ srv.group, grp.Sized cfg.workerTasks) ∧
        ∀ group, List.Forall₂ SamePools group srv.group →
          let t := htserverDestroy { srv with group := group } s
          balance t.ledger live = some live ∧ t.live = live) ∧
      (out = none → s.Refused ∧ (s.live = live ∨ ∃ address,
        (.use .mapping address, false) ∈ s.asked ∧ s.live = live + {(.mapping, address)})) := by
  refine ⟨fun _ => htserverCreate_crash, fun out s h => ?_⟩
  have hmade := htserverCreate_made (.start live) h
  obtain ⟨hledger, hheld, hnone⟩ := hmade.fresh
  refine ⟨hledger, fun srv hsrv => ?_, fun hout => ?_⟩
  · subst hsrv
    obtain ⟨hgroups, hsized⟩ := htserverCreate_sized h
    refine ⟨hheld srv rfl, hgroups, hsized, fun group hsame => ?_⟩
    refine htserverDestroy_destroys.all hmade ?_
    simp only [HtServerMem.cells, groupsCells, samePools_cells hsame]
  · obtain ⟨hrefused, hleft⟩ := hnone hout
    exact ⟨hrefused, hleft.imp_right fun ⟨⟨_, address⟩, rfl, hleft⟩ => ⟨address, hleft⟩⟩

/-- One worker with one task. -/
def oneGroup : HtCreationCfg := ⟨1, 1, 0x2000, 0x2000, 0x1000, 0xF000⟩

/-- The mapping of the output buffer is refused. -/
theorem htserver_created_whole_refused : ∃ s,
    htserverCreate (countingProvider 21) oneGroup (.start {(.file, 2)}) = .ok (none, s) ∧
      (s.live = {(.file, 2)} ∨ ∃ address, (.use .mapping address, false) ∈ s.asked ∧
        s.live = {(.file, 2)} + {(.mapping, address)}) := by
  have hrun : ((htserverCreate (countingProvider 21) oneGroup (.start {(.file, 2)})).toOption.map
      fun out => out.1.isSome) = some false := by decide
  rcases hcall : htserverCreate (countingProvider 21) oneGroup (.start {(.file, 2)})
    with u | ⟨out, s⟩
  · rw [hcall] at hrun
    cases hrun
  · rw [hcall] at hrun
    obtain rfl : out = none := Option.not_isSome_iff_eq_none.mp (by
      simpa [Except.toOption] using hrun)
    exact ⟨s, hcall,
      (((htserver_created_whole (countingProvider 21) oneGroup _).2 none s hcall).2.2 rfl).2⟩

end Lawd.Creation

import Lawd.Base
import Lawd.Library.Ledger
import Mathlib.Algebra.BigOperators.Group.List.Basic
import Mathlib.Tactic.Abel

/-!
# Opening and closing a server

`law_open` asks the system for a socket, a poll set, and two pipes and a poll set
for each worker. What it has opened when a call fails it closes again, with a
ladder of labels in each of the functions. The error stack is left out.
-/
namespace Lawd

open Library

/-- The system: which calls fail, counted from the start, and which descriptor
it gives out, given those that are open. -/
structure Kernel where
  fails : ℕ → Bool
  fresh : Multiset ℤ → ℤ
  fresh_nonneg : ∀ live, 0 ≤ fresh live
  fresh_not_mem : ∀ live, fresh live ∉ live

/-- The calls made so far, the open descriptors of the process, and what was
opened and closed. -/
structure Sys where
  calls : ℕ
  live : Multiset ℤ
  ledger : List (Entry ℤ)

/-- The file descriptors of a worker. -/
structure WorkerFds where
  incoming : ℤ × ℤ
  messages : ℤ × ℤ
  evo : ℤ
  deriving DecidableEq, Repr

/-- The descriptors of `law_server_t`, and the number of its workers. -/
structure ServerFds where
  socket : ℤ
  evo : ℤ
  workers : ℕ
  worker : ℕ → WorkerFds

section Calls

variable (k : Kernel)

/-- A system call that opens nothing: whether it succeeds. -/
def sysCall (s : Sys) : Bool × Sys := (!k.fails s.calls, { s with calls := s.calls + 1 })

/-- A descriptor is given out. -/
def sysOpen (s : Sys) : ℤ × Sys :=
  (k.fresh s.live, { s with live := k.fresh s.live ::ₘ s.live,
                            ledger := s.ledger ++ [.acquired (k.fresh s.live)] })

/-- `socket` and `epoll_create`: a descriptor or -1. -/
def sysDescriptor (s : Sys) : ℤ × Sys :=
  match sysCall k s with
  | (true, s) => sysOpen k s
  | (false, s) => (-1, s)

/-- `pipe`: two descriptors, or nothing. -/
def sysPipe (s : Sys) : Option (ℤ × ℤ) × Sys :=
  match sysCall k s with
  | (true, s) =>
    let (fd, s) := sysOpen k s
    let (fd', s) := sysOpen k s
    (some (fd, fd'), s)
  | (false, s) => (none, s)

/-- `close`. -/
def sysClose (s : Sys) (fd : ℤ) : Sys :=
  { s with live := s.live.erase fd, ledger := s.ledger ++ [.released fd] }

/-- `law_pipe_close`. -/
def pipeClose (fds : ℤ × ℤ) (s : Sys) : Sys := sysClose (sysClose s fds.1) fds.2

/-- `law_pipe_open`: the flags of both ends are read and set. -/
def pipeOpen (fds : ℤ × ℤ) (s : Sys) : Err × (ℤ × ℤ) × Sys :=
  match sysPipe k s with
  | (none, s) => (.sys, fds, s)
  | (some fds, s) =>
    let (ok, s) := sysCall k s
    if !ok then (.sys, fds, pipeClose fds s)
    else
      let (ok, s) := sysCall k s
      if !ok then (.sys, fds, pipeClose fds s)
      else
        let (ok, s) := sysCall k s
        if !ok then (.sys, fds, pipeClose fds s)
        else
          let (ok, s) := sysCall k s
          if !ok then (.sys, fds, pipeClose fds s) else (.ok, fds, s)

/-- `law_worker_close`. -/
def workerClose (w : WorkerFds) (s : Sys) : Sys :=
  pipeClose w.incoming (pipeClose w.messages (sysClose s w.evo))

/-- `law_worker_open`. -/
def workerOpen (w : WorkerFds) (s : Sys) : Err × WorkerFds × Sys :=
  let (e, incoming, s) := pipeOpen k w.incoming s
  let w := { w with incoming := incoming }
  if e = .sys then (.sys, w, s)
  else
    let (e, messages, s) := pipeOpen k w.messages s
    let w := { w with messages := messages }
    -- `CLOSE_INCOMING`
    if e = .sys then (.sys, w, pipeClose w.incoming s)
    else
      let (evo, s) := sysDescriptor k s
      let w := { w with evo := evo }
      -- `CLOSE_MESSAGES`
      if evo = -1 then (.sys, w, pipeClose w.incoming (pipeClose w.messages s))
      else
        let (ok, s) := sysCall k s
        -- `CLOSE_EVO`
        if !ok then (.sys, w, workerClose w s)
        else
          let (ok, s) := sysCall k s
          if !ok then (.sys, w, workerClose w s) else (.ok, w, s)

/-- The loop of `law_open` over the workers, with `m` of them to go from worker
`n` on: its error, and the worker at which it stopped. -/
def workersOpen : ℕ → ℕ → (ℕ → WorkerFds) → Sys → Err × ℕ × (ℕ → WorkerFds) × Sys
  | 0, n, ws, s => (.ok, n, ws, s)
  | m + 1, n, ws, s =>
    let (e, w, s) := workerOpen k (ws n) s
    let ws := Function.update ws n w
    if e ≠ .ok then (e, n, ws, s) else workersOpen m (n + 1) ws s

/-- The loops that close the first workers. -/
def workersClose (n : ℕ) (ws : ℕ → WorkerFds) (s : Sys) : Sys :=
  (List.range n).foldl (fun s m => workerClose (ws m) s) s

/-- `law_create_socket`, which also stores the socket in the server. -/
def createSocket (server : ServerFds) (s : Sys) : Err × ℤ × ServerFds × Sys :=
  let (fd, s) := sysDescriptor k s
  if fd = -1 then (.sys, 0, server, s)
  else
    let (ok, s) := sysCall k s
    if !ok then (.sys, 0, server, sysClose s fd)
    else
      let (ok, s) := sysCall k s
      if !ok then (.sys, 0, server, sysClose s fd) else (.ok, fd, { server with socket := fd }, s)

/-- `law_bind_socket` and `law_listen`, which assert that there is a socket. -/
def socketCall (server : ServerFds) (s : Sys) : Option (Err × Sys) :=
  if server.socket = 0 then none
  else
    let (ok, s) := sysCall k s
    some (if ok then .ok else .sys, s)

/-- `law_open`; without a result, an assertion has failed. -/
def lawOpen (server : ServerFds) (s : Sys) : Option (Err × ServerFds × Sys) :=
  if server.socket = 0 then none
  else
    let (e, socket, server, s) := createSocket k server s
    if e = .sys then some (.sys, server, s)
    else do
      let (e, s) ← socketCall k server s
      -- `CLOSE_SOCKET`
      if e = .sys then some (.sys, server, sysClose s socket)
      else
        let (e, s) ← socketCall k server s
        if e = .sys then some (.sys, server, sysClose s socket)
        else
          let (evo, s) := sysDescriptor k s
          let server := { server with evo := evo }
          if evo = -1 then some (.sys, server, sysClose s socket)
          else
            let (ok, s) := sysCall k s
            -- `CLOSE_EVO`
            if !ok then some (.sys, server, sysClose (sysClose s server.evo) socket)
            else
              let (e, n, ws, s) := workersOpen k server.workers 0 server.worker s
              let server := { server with worker := ws }
              -- `CLOSE_WORKERS`
              if e ≠ .ok then
                some (e, server, sysClose (sysClose (workersClose n ws s) server.evo) socket)
              else some (.ok, server, s)

/-- `law_close`. -/
def lawClose (server : ServerFds) (s : Sys) : Sys :=
  sysClose (sysClose (workersClose server.workers server.worker s) server.evo) server.socket

end Calls

/-! ### What is held -/

/-- The descriptors that were opened, of which some are held, beside those that
were open before. -/
structure Owns (base : Multiset ℤ) (opened : List ℤ) (held : Multiset ℤ) (s : Sys) : Prop where
  holds : Holds s.ledger opened held
  live : s.live = base + held
  nodup : opened.Nodup
  outside : ∀ fd ∈ opened, fd ∉ base

/-- Nothing was closed yet, and what was opened is given. -/
def Opening (base held : Multiset ℤ) (s : Sys) : Prop :=
  ∃ opened : List ℤ, (opened : Multiset ℤ) = held ∧ Owns base opened held s

/-- The descriptors of a pipe. -/
def pipeFds (fds : ℤ × ℤ) : Multiset ℤ := fds.1 ::ₘ {fds.2}

/-- The descriptors of a worker. -/
def WorkerFds.all (w : WorkerFds) : Multiset ℤ :=
  w.evo ::ₘ (pipeFds w.messages + pipeFds w.incoming)

/-- The descriptors of the first workers. -/
def firstFds (n : ℕ) (ws : ℕ → WorkerFds) : Multiset ℤ :=
  ((List.range n).map fun m => (ws m).all).sum

/-- The descriptors of a server. -/
def ServerFds.all (server : ServerFds) : Multiset ℤ :=
  firstFds server.workers server.worker + (server.evo ::ₘ {server.socket})

/-- A call has failed, and closed what it had opened. -/
def Rolled (base held : Multiset ℤ) (s : Sys) : Prop := ∃ opened, Owns base opened held s

section Closing

variable {base held : Multiset ℤ} {opened : List ℤ} {s : Sys} {fd : ℤ}

theorem Owns.close (h : Owns base opened (fd ::ₘ held) s) :
    Owns base opened held (sysClose s fd) := by
  refine ⟨?_, ?_, h.nodup, h.outside⟩
  · have hrelease := h.holds.release (Multiset.mem_cons_self fd held)
    rwa [Multiset.erase_cons_head] at hrelease
  · have hmem : fd ∈ fd ::ₘ held := Multiset.mem_cons_self fd held
    rw [sysClose, h.live, Multiset.erase_add_right_pos _ hmem, Multiset.erase_cons_head]

theorem Owns.pipeClose {fds : ℤ × ℤ} (h : Owns base opened (pipeFds fds + held) s) :
    Owns base opened held (pipeClose fds s) := by
  rw [pipeFds, Multiset.cons_add, Multiset.singleton_add] at h
  exact h.close.close

theorem Owns.workerClose {w : WorkerFds} (h : Owns base opened (w.all + held) s) :
    Owns base opened held (workerClose w s) := by
  rw [WorkerFds.all, Multiset.cons_add, add_assoc] at h
  exact h.close.pipeClose.pipeClose

theorem Owns.workersClose {n : ℕ} {ws : ℕ → WorkerFds}
    (h : Owns base opened (firstFds n ws + held) s) :
    Owns base opened held (workersClose n ws s) := by
  unfold firstFds at h
  unfold Lawd.workersClose
  generalize List.range n = ms at h ⊢
  induction ms generalizing s with
  | nil => simpa using h
  | cons m ms ih =>
    rw [List.map_cons, List.sum_cons, add_assoc] at h
    exact ih h.workerClose

theorem Owns.lawClose {server : ServerFds} (h : Owns base opened server.all s) :
    Owns base opened 0 (lawClose server s) := by
  have hsocket : Owns base opened {server.socket} _ := h.workersClose.close
  exact hsocket.close

end Closing

section Opening

variable {k : Kernel} {base held : Multiset ℤ} {s : Sys}

theorem Opening.rolled (h : Opening base held s) : Rolled base held s := ⟨h.choose, h.choose_spec.2⟩

theorem Opening.call (h : Opening base held s) {ok : Bool} {t : Sys}
    (hcall : sysCall k s = (ok, t)) : Opening base held t := by
  obtain ⟨opened, hopened, hown⟩ := h
  obtain ⟨-, rfl⟩ := Prod.mk.inj hcall
  exact ⟨opened, hopened, hown.holds, hown.live, hown.nodup, hown.outside⟩

theorem Opening.open (h : Opening base held s) :
    Opening base ((sysOpen k s).1 ::ₘ held) (sysOpen k s).2 := by
  obtain ⟨opened, rfl, hown⟩ := h
  have hfresh := k.fresh_not_mem s.live
  rw [hown.live, Multiset.mem_add, not_or] at hfresh
  rw [← hown.live] at hfresh
  have hall : ((opened ++ [k.fresh s.live] : List ℤ) : Multiset ℤ) =
      k.fresh s.live ::ₘ (opened : Multiset ℤ) := by
    rw [← Multiset.coe_add, Multiset.coe_singleton, add_comm, Multiset.singleton_add]
  refine ⟨opened ++ [k.fresh s.live], hall, ?_, ?_, ?_, ?_⟩
  · rw [show (sysOpen k s).1 = k.fresh s.live from rfl, ← hall]
    exact hown.holds.acquire _
  · simp only [sysOpen]
    rw [hown.live, Multiset.add_cons]
  · refine List.nodup_append.mpr ⟨hown.nodup, List.nodup_singleton _, ?_⟩
    rintro a ha b hb rfl
    rw [List.mem_singleton.mp hb] at ha
    exact hfresh.2 ha
  · intro fd hfd
    obtain hfd | hfd := List.mem_append.mp hfd
    · exact hown.outside fd hfd
    · rw [List.mem_singleton.mp hfd]
      exact hfresh.1

theorem Opening.descriptor (h : Opening base held s) {fd : ℤ} {t : Sys}
    (hcall : sysDescriptor k s = (fd, t)) :
    (fd = -1 ∧ Opening base held t) ∨ (fd ≠ -1 ∧ Opening base (fd ::ₘ held) t) := by
  unfold sysDescriptor at hcall
  rcases hfirst : sysCall k s with ⟨_ | _, u⟩
  · rw [hfirst] at hcall
    obtain ⟨rfl, rfl⟩ := Prod.mk.inj hcall
    exact .inl ⟨rfl, h.call hfirst⟩
  · rw [hfirst] at hcall
    obtain ⟨rfl, rfl⟩ := Prod.mk.inj hcall
    have hnonneg := k.fresh_nonneg u.live
    exact .inr ⟨by omega, (h.call hfirst).open⟩

theorem Opening.pipe (h : Opening base held s) {fds : Option (ℤ × ℤ)} {t : Sys}
    (hcall : sysPipe k s = (fds, t)) :
    (fds = none ∧ Opening base held t) ∨
      ∃ both, fds = some both ∧ Opening base (pipeFds both + held) t := by
  unfold sysPipe at hcall
  rcases hfirst : sysCall k s with ⟨_ | _, u⟩
  · rw [hfirst] at hcall
    obtain ⟨rfl, rfl⟩ := Prod.mk.inj hcall
    exact .inl ⟨rfl, h.call hfirst⟩
  · rw [hfirst] at hcall
    obtain ⟨rfl, rfl⟩ := Prod.mk.inj hcall
    refine .inr ⟨_, rfl, ?_⟩
    rw [pipeFds, Multiset.cons_add, Multiset.singleton_add, Multiset.cons_swap]
    exact (h.call hfirst).open.open

theorem Opening.pipe_fails {fds : ℤ × ℤ} (h : Opening base (pipeFds fds + held) s) :
    Rolled base held (pipeClose fds s) :=
  h.rolled.imp fun _ => Owns.pipeClose

theorem pipeOpen_spec {fds fds' : ℤ × ℤ} {e : Err} {t : Sys} (h : Opening base held s)
    (hrun : pipeOpen k fds s = (e, fds', t)) :
    (e = .ok ∧ Opening base (pipeFds fds' + held) t) ∨ (e = .sys ∧ Rolled base held t) := by
  unfold pipeOpen at hrun
  rcases hpipe : sysPipe k s with ⟨both, s₀⟩
  rw [hpipe] at hrun
  obtain ⟨rfl, h₀⟩ | ⟨both, rfl, h₀⟩ := h.pipe hpipe
  · obtain ⟨rfl, hrest⟩ := Prod.mk.inj hrun
    obtain ⟨-, rfl⟩ := Prod.mk.inj hrest
    exact .inr ⟨rfl, h₀.rolled⟩
  rcases hc₁ : sysCall k s₀ with ⟨ok₁, s₁⟩
  rcases hc₂ : sysCall k s₁ with ⟨ok₂, s₂⟩
  rcases hc₃ : sysCall k s₂ with ⟨ok₃, s₃⟩
  rcases hc₄ : sysCall k s₃ with ⟨ok₄, s₄⟩
  have h₁ := h₀.call hc₁
  have h₂ := h₁.call hc₂
  have h₃ := h₂.call hc₃
  have h₄ := h₃.call hc₄
  simp only [hc₁, hc₂, hc₃, hc₄] at hrun
  split_ifs at hrun
  all_goals
    obtain ⟨rfl, hrest⟩ := Prod.mk.inj hrun
    obtain ⟨rfl, rfl⟩ := Prod.mk.inj hrest
  · exact .inr ⟨rfl, h₁.pipe_fails⟩
  · exact .inr ⟨rfl, h₂.pipe_fails⟩
  · exact .inr ⟨rfl, h₃.pipe_fails⟩
  · exact .inr ⟨rfl, h₄.pipe_fails⟩
  · exact .inl ⟨rfl, h₄⟩

theorem workerOpen_spec {w w' : WorkerFds} {e : Err} {t : Sys} (h : Opening base held s)
    (hrun : workerOpen k w s = (e, w', t)) :
    (e = .ok ∧ Opening base (w'.all + held) t) ∨ (e = .sys ∧ Rolled base held t) := by
  unfold workerOpen at hrun
  rcases hi : pipeOpen k w.incoming s with ⟨e₁, incoming, s₁⟩
  simp only [hi] at hrun
  obtain ⟨rfl, h₁⟩ | ⟨rfl, h₁⟩ := pipeOpen_spec h hi
  swap
  · obtain ⟨rfl, hrest⟩ := Prod.mk.inj hrun
    obtain ⟨-, rfl⟩ := Prod.mk.inj hrest
    exact .inr ⟨rfl, h₁⟩
  rcases hm : pipeOpen k w.messages s₁ with ⟨e₂, messages, s₂⟩
  simp only [hm, reduceCtorEq, if_false] at hrun
  obtain ⟨rfl, h₂⟩ | ⟨rfl, h₂⟩ := pipeOpen_spec h₁ hm
  swap
  · obtain ⟨rfl, hrest⟩ := Prod.mk.inj hrun
    obtain ⟨-, rfl⟩ := Prod.mk.inj hrest
    exact .inr ⟨rfl, h₂.imp fun _ => Owns.pipeClose⟩
  rcases he : sysDescriptor k s₂ with ⟨evo, s₃⟩
  simp only [he, reduceCtorEq, if_false] at hrun
  obtain ⟨rfl, h₃⟩ | ⟨hevo, h₃⟩ := h₂.descriptor he
  · obtain ⟨rfl, hrest⟩ := Prod.mk.inj hrun
    obtain ⟨-, rfl⟩ := Prod.mk.inj hrest
    exact .inr ⟨rfl, h₃.rolled.imp fun _ ho => ho.pipeClose.pipeClose⟩
  have hall : evo ::ₘ (pipeFds messages + (pipeFds incoming + held)) =
      WorkerFds.all ⟨incoming, messages, evo⟩ + held := by
    rw [WorkerFds.all, Multiset.cons_add, add_assoc]
  rw [hall] at h₃
  rcases hc₁ : sysCall k s₃ with ⟨ok₁, s₄⟩
  rcases hc₂ : sysCall k s₄ with ⟨ok₂, s₅⟩
  have h₄ := h₃.call hc₁
  have h₅ := h₄.call hc₂
  simp only [hevo, if_false, hc₁, hc₂] at hrun
  split_ifs at hrun
  all_goals
    obtain ⟨rfl, hrest⟩ := Prod.mk.inj hrun
    obtain ⟨rfl, rfl⟩ := Prod.mk.inj hrest
  · exact .inr ⟨rfl, h₄.rolled.imp fun _ => Owns.workerClose⟩
  · exact .inr ⟨rfl, h₅.rolled.imp fun _ => Owns.workerClose⟩
  · exact .inl ⟨rfl, h₅⟩

theorem firstFds_succ (n : ℕ) (ws : ℕ → WorkerFds) :
    firstFds (n + 1) ws = (ws n).all + firstFds n ws := by
  simp [firstFds, List.range_succ, add_comm]

theorem firstFds_update {n m : ℕ} (hm : n ≤ m) (ws : ℕ → WorkerFds) (w : WorkerFds) :
    firstFds n (Function.update ws m w) = firstFds n ws := by
  unfold firstFds
  congr 1
  refine List.map_congr_left fun i hi => ?_
  have hlt := List.mem_range.mp hi
  rw [Function.update_of_ne (by omega)]

/-- The loop over the workers: where it stops, the workers before have what they
opened. -/
theorem workersOpen_spec {m n n' : ℕ} {ws ws' : ℕ → WorkerFds} {e : Err} {t : Sys}
    (h : Opening base (firstFds n ws + held) s)
    (hrun : workersOpen k m n ws s = (e, n', ws', t)) :
    (e = .ok ∧ Opening base (firstFds (n + m) ws' + held) t) ∨
      (e = .sys ∧ Rolled base (firstFds n' ws' + held) t) := by
  induction m generalizing n ws s with
  | zero =>
    obtain ⟨rfl, hrest⟩ := Prod.mk.inj hrun
    obtain ⟨-, hrest⟩ := Prod.mk.inj hrest
    obtain ⟨rfl, rfl⟩ := Prod.mk.inj hrest
    exact .inl ⟨rfl, h⟩
  | succ m ih =>
    simp only [workersOpen] at hrun
    rcases hw : workerOpen k (ws n) s with ⟨e₁, w, s₁⟩
    simp only [hw] at hrun
    obtain ⟨rfl, h₁⟩ | ⟨rfl, h₁⟩ := workerOpen_spec h hw
    · have hnext : Opening base (firstFds (n + 1) (Function.update ws n w) + held) s₁ := by
        rwa [firstFds_succ, Function.update_self, firstFds_update le_rfl, add_assoc]
      have hrest := ih hnext hrun
      rwa [Nat.add_assoc, Nat.add_comm 1 m] at hrest
    · rw [if_pos (by decide)] at hrun
      simp only [Prod.mk.injEq] at hrun
      obtain ⟨rfl, rfl, rfl, rfl⟩ := hrun
      rw [← firstFds_update le_rfl ws w] at h₁
      exact .inr ⟨rfl, h₁⟩

theorem createSocket_spec {server server' : ServerFds} {e : Err} {fd : ℤ} {t : Sys}
    (h : Opening base held s) (hrun : createSocket k server s = (e, fd, server', t)) :
    (e = .ok ∧ server' = { server with socket := fd } ∧ Opening base (fd ::ₘ held) t) ∨
      (e = .sys ∧ Rolled base held t) := by
  unfold createSocket at hrun
  rcases hd : sysDescriptor k s with ⟨fd₁, s₁⟩
  simp only [hd] at hrun
  obtain ⟨rfl, h₁⟩ | ⟨hfd, h₁⟩ := h.descriptor hd
  · obtain ⟨rfl, hrest⟩ := Prod.mk.inj hrun
    obtain ⟨-, hrest⟩ := Prod.mk.inj hrest
    obtain ⟨-, rfl⟩ := Prod.mk.inj hrest
    exact .inr ⟨rfl, h₁.rolled⟩
  rcases hc₁ : sysCall k s₁ with ⟨ok₁, s₂⟩
  rcases hc₂ : sysCall k s₂ with ⟨ok₂, s₃⟩
  have h₂ := h₁.call hc₁
  have h₃ := h₂.call hc₂
  simp only [hfd, if_false, hc₁, hc₂] at hrun
  split_ifs at hrun
  all_goals
    simp only [Prod.mk.injEq] at hrun
    obtain ⟨rfl, rfl, rfl, rfl⟩ := hrun
  · exact .inr ⟨rfl, h₂.rolled.imp fun _ => Owns.close⟩
  · exact .inr ⟨rfl, h₃.rolled.imp fun _ => Owns.close⟩
  · exact .inl ⟨rfl, rfl, h₃⟩

theorem socketCall_spec {server : ServerFds} {out : Err × Sys} (h : Opening base held s)
    (hrun : socketCall k server s = some out) :
    (out.1 = .ok ∨ out.1 = .sys) ∧ Opening base held out.2 := by
  unfold socketCall at hrun
  split_ifs at hrun
  rcases hc : sysCall k s with ⟨ok, s₁⟩
  simp only [hc] at hrun
  obtain rfl := Option.some.inj hrun
  refine ⟨?_, h.call hc⟩
  cases ok
  · exact .inr rfl
  · exact .inl rfl

/-- A label of `law_open` has been reached, and nothing is held. -/
theorem rolled_back {server server' : ServerFds} {e : Err} {t u : Sys} (hu : Rolled base 0 u)
    (hrun : some (Err.sys, server, u) = some (e, server', t)) :
    (e = .ok ∧ Opening base server'.all t) ∨ (e = .sys ∧ Rolled base 0 t) := by
  simp only [Option.some.injEq, Prod.mk.injEq] at hrun
  obtain ⟨rfl, rfl, rfl⟩ := hrun
  exact .inr ⟨rfl, hu⟩

theorem lawOpen_spec {server server' : ServerFds} {e : Err} {t : Sys} (h : Opening base 0 s)
    (hrun : lawOpen k server s = some (e, server', t)) :
    (e = .ok ∧ Opening base server'.all t) ∨ (e = .sys ∧ Rolled base 0 t) := by
  unfold lawOpen at hrun
  split_ifs at hrun
  rcases hs : createSocket k server s with ⟨e₁, socket, server₁, s₁⟩
  simp only [hs] at hrun
  obtain ⟨rfl, rfl, h₁⟩ | ⟨rfl, h₁⟩ := createSocket_spec h hs
  swap
  · exact rolled_back h₁ hrun
  rw [if_neg (by decide)] at hrun
  obtain ⟨⟨e₂, s₂⟩, hb, hrun⟩ := Option.bind_eq_some_iff.mp hrun
  obtain ⟨-, h₂⟩ := socketCall_spec h₁ hb
  dsimp only at hrun h₂
  by_cases he₂ : e₂ = .sys
  · rw [if_pos he₂] at hrun
    exact rolled_back (h₂.rolled.imp fun _ => Owns.close) hrun
  rw [if_neg he₂] at hrun
  obtain ⟨⟨e₃, s₃⟩, hl, hrun⟩ := Option.bind_eq_some_iff.mp hrun
  obtain ⟨-, h₃⟩ := socketCall_spec h₂ hl
  dsimp only at hrun h₃
  by_cases he₃ : e₃ = .sys
  · rw [if_pos he₃] at hrun
    exact rolled_back (h₃.rolled.imp fun _ => Owns.close) hrun
  rw [if_neg he₃] at hrun
  rcases he : sysDescriptor k s₃ with ⟨evo, s₄⟩
  simp only [he] at hrun
  obtain ⟨rfl, h₄⟩ | ⟨hevo, h₄⟩ := h₃.descriptor he
  · exact rolled_back (h₄.rolled.imp fun _ => Owns.close) hrun
  rw [if_neg hevo] at hrun
  rcases hc : sysCall k s₄ with ⟨ok, s₅⟩
  have h₅ := h₄.call hc
  simp only [hc] at hrun
  by_cases hok : (!ok) = true
  · rw [if_pos hok] at hrun
    exact rolled_back (h₅.rolled.imp fun _ ho => ho.close.close) hrun
  rw [if_neg hok] at hrun
  rcases hw : workersOpen k server.workers 0 server.worker s₅ with ⟨e₆, n, ws, s₆⟩
  have hnone : firstFds 0 server.worker + (evo ::ₘ (socket ::ₘ 0)) = evo ::ₘ (socket ::ₘ 0) := by
    simp [firstFds]
  rw [← hnone] at h₅
  simp only [hw] at hrun
  obtain ⟨rfl, h₆⟩ | ⟨rfl, h₆⟩ := workersOpen_spec h₅ hw
  · rw [Nat.zero_add] at h₆
    simp only [ne_eq, not_true_eq_false, if_false, Option.some.injEq, Prod.mk.injEq] at hrun
    obtain ⟨rfl, rfl, rfl⟩ := hrun
    exact .inl ⟨rfl, h₆⟩
  · exact rolled_back (h₆.imp fun _ ho => ho.workersClose.close.close) hrun

theorem createSocket_fresh {server server' : ServerFds} {fd : ℤ} {t : Sys}
    (hrun : createSocket k server s = (.ok, fd, server', t)) :
    server'.socket = k.fresh s.live := by
  unfold createSocket sysDescriptor at hrun
  rcases hc : sysCall k s with ⟨_ | _, s₁⟩
  · simp [hc] at hrun
  · have hlive : s₁.live = s.live := by rw [← (Prod.mk.inj hc).2]
    simp only [hc, sysOpen] at hrun
    split_ifs at hrun
    · simp at hrun
    · simp at hrun
    · simp at hrun
    · simp only [Prod.mk.injEq] at hrun
      rw [← hrun.2.2.1, hlive]

theorem socketCall_isSome {server : ServerFds} (h : server.socket ≠ 0) (s : Sys) :
    ∃ out, socketCall k server s = some out := by
  unfold socketCall
  rw [if_neg h]
  exact ⟨_, rfl⟩

/-- `law_open` returns if its socket is not descriptor 0. -/
theorem lawOpen_isSome {server : ServerFds} (h : server.socket ≠ 0) (hfresh : k.fresh s.live ≠ 0) :
    (lawOpen k server s).isSome = true := by
  unfold lawOpen
  rw [if_neg h]
  rcases hs : createSocket k server s with ⟨e₁, socket, server₁, s₁⟩
  by_cases he : e₁ = .sys
  · simp [he]
  have hok : e₁ = .ok := by
    unfold createSocket at hs
    dsimp only at hs
    split_ifs at hs
    all_goals
      simp only [Prod.mk.injEq] at hs
      obtain ⟨rfl, -⟩ := hs
    · exact absurd rfl he
    · exact absurd rfl he
    · exact absurd rfl he
    · rfl
  subst hok
  have hsocket : server₁.socket ≠ 0 := by rw [createSocket_fresh hs]; exact hfresh
  obtain ⟨⟨e₂, s₂⟩, hb⟩ := socketCall_isSome (k := k) hsocket s₁
  obtain ⟨⟨e₃, s₃⟩, hl⟩ := socketCall_isSome (k := k) hsocket s₂
  simp only [reduceCtorEq, if_false, hb, hl, Option.bind_eq_bind, Option.bind_some]
  split_ifs <;> rfl

end Opening

/-- No call fails. -/
def Kernel.Succeeds (k : Kernel) : Prop := ∀ call, k.fails call = false

section Succeeding

variable {k : Kernel}

theorem sysCall_succeeds (hk : k.Succeeds) (s : Sys) : (sysCall k s).1 = true := by
  rw [sysCall, hk s.calls]
  rfl

theorem sysDescriptor_succeeds (hk : k.Succeeds) (s : Sys) : (sysDescriptor k s).1 ≠ -1 := by
  have hnonneg := k.fresh_nonneg s.live
  simp only [sysDescriptor, sysCall, hk _, Bool.not_false, sysOpen]
  omega

theorem pipeOpen_succeeds (hk : k.Succeeds) (fds : ℤ × ℤ) (s : Sys) :
    (pipeOpen k fds s).1 = .ok := by
  simp [pipeOpen, sysPipe, sysCall, hk _]

theorem workerOpen_succeeds (hk : k.Succeeds) (w : WorkerFds) (s : Sys) :
    (workerOpen k w s).1 = .ok := by
  simp [workerOpen, pipeOpen_succeeds hk, sysDescriptor_succeeds hk, sysCall_succeeds hk]

theorem workersOpen_succeeds (hk : k.Succeeds) (m n : ℕ) (ws : ℕ → WorkerFds) (s : Sys) :
    (workersOpen k m n ws s).1 = .ok := by
  induction m generalizing n ws s with
  | zero => rfl
  | succ m ih => simp [workersOpen, workerOpen_succeeds hk, ih]

theorem createSocket_succeeds (hk : k.Succeeds) (server : ServerFds) (s : Sys) :
    (createSocket k server s).1 = .ok := by
  simp [createSocket, sysDescriptor_succeeds hk, sysCall_succeeds hk]

theorem socketCall_succeeds (hk : k.Succeeds) {server : ServerFds} {s : Sys} {out : Err × Sys}
    (h : socketCall k server s = some out) : out.1 = .ok := by
  unfold socketCall at h
  split_ifs at h
  rw [← Option.some.inj h]
  exact if_pos (sysCall_succeeds hk s)

/-- `law_open` succeeds when no system call fails. -/
theorem lawOpen_succeeds (hk : k.Succeeds) {server server' : ServerFds} {s t : Sys} {e : Err}
    (h : lawOpen k server s = some (e, server', t)) : e = .ok := by
  unfold lawOpen at h
  split_ifs at h
  rcases hcreate : createSocket k server s with ⟨e₁, socket, server₁, s₁⟩
  rw [hcreate] at h
  obtain rfl : e₁ = .ok :=
    (congrArg Prod.fst hcreate).symm.trans (createSocket_succeeds hk server s)
  simp only [reduceCtorEq, if_false] at h
  obtain ⟨⟨e₂, s₂⟩, hbind, h⟩ := Option.bind_eq_some_iff.mp h
  obtain rfl : e₂ = .ok := socketCall_succeeds hk hbind
  obtain ⟨⟨e₃, s₃⟩, hlisten, h⟩ := Option.bind_eq_some_iff.mp h
  obtain rfl : e₃ = .ok := socketCall_succeeds hk hlisten
  simp only [reduceCtorEq, if_false, sysDescriptor_succeeds hk, sysCall_succeeds hk,
    Bool.not_true, Bool.false_eq_true, workersOpen_succeeds hk, ne_eq, not_true_eq_false,
    Option.some.injEq, Prod.mk.injEq] at h
  exact h.1.symm

end Succeeding

/-- Nothing was called yet. -/
def Sys.start (live : Multiset ℤ) : Sys := ⟨0, live, []⟩

/-- A call of `law_open` that fails has closed each descriptor that it opened
once, and no other. When it succeeds, as it does where no system call fails,
`law_close` does so. The call does not return only when its own socket is
descriptor 0, which its functions take for none. -/
theorem law_open_all_or_nothing (k : Kernel) (server : ServerFds) (live : Multiset ℤ)
    (hassert : server.socket ≠ 0) :
    (∀ e server' s, lawOpen k server (Sys.start live) = some (e, server', s) →
      ∃ opened closed : List ℤ, opened.Nodup ∧ (∀ fd ∈ opened, fd ∉ live) ∧ closed.Perm opened ∧
        ((e = .ok ∧ s.ledger = opened.map .acquired ∧
            (lawClose server' s).ledger = s.ledger ++ closed.map .released ∧
            (lawClose server' s).live = live) ∨
          (e ≠ .ok ∧ s.ledger = opened.map .acquired ++ closed.map .released ∧
            s.live = live))) ∧
    (k.fresh live ≠ 0 → (lawOpen k server (Sys.start live)).isSome = true) ∧
    (k.Succeeds → k.fresh live ≠ 0 →
      ∃ server' s, lawOpen k server (Sys.start live) = some (.ok, server', s)) := by
  have hstart : Opening live 0 (Sys.start live) :=
    ⟨[], rfl, .start, (add_zero live).symm, List.nodup_nil, by simp⟩
  refine ⟨fun e server' s hrun => ?_, fun hfresh => lawOpen_isSome hassert hfresh,
    fun hk hfresh => ?_⟩
  swap
  · have hsome : (lawOpen k server (Sys.start live)).isSome = true := lawOpen_isSome hassert hfresh
    obtain ⟨⟨e, server', s⟩, hrun⟩ := Option.isSome_iff_exists.mp hsome
    obtain rfl := lawOpen_succeeds hk hrun
    exact ⟨server', s, hrun⟩
  obtain ⟨rfl, opened, hall, hown⟩ | ⟨rfl, opened, hown⟩ := lawOpen_spec hstart hrun
  · obtain ⟨closed, hledger, hperm⟩ := hown.lawClose.holds.returned
    have hkept := hown.holds
    rw [← hall] at hkept
    refine ⟨opened, closed, hown.nodup, hown.outside, hperm, .inl ⟨rfl, hkept.kept, ?_, ?_⟩⟩
    · rw [hledger, hkept.kept]
    · rw [hown.lawClose.live, add_zero]
  · obtain ⟨closed, hledger, hperm⟩ := hown.holds.returned
    refine ⟨opened, closed, hown.nodup, hown.outside, hperm, .inr ⟨by decide, hledger, ?_⟩⟩
    rw [hown.live, add_zero]

theorem two_le_fold (live : Multiset ℤ) : 2 ≤ live.fold max 2 := by
  induction live using Multiset.induction_on with
  | empty => exact le_rfl
  | cons a live ih =>
    rw [Multiset.fold_cons_left]
    exact le_max_of_le_right ih

theorem le_fold_of_mem {live : Multiset ℤ} {fd : ℤ} (h : fd ∈ live) : fd ≤ live.fold max 2 := by
  induction live using Multiset.induction_on with
  | empty => simp at h
  | cons a live ih =>
    rw [Multiset.fold_cons_left]
    obtain rfl | h := Multiset.mem_cons.mp h
    · exact le_max_left _ _
    · exact le_max_of_le_right (ih h)

theorem counting_nonneg (live : Multiset ℤ) : 0 ≤ live.fold max 2 + 1 := by
  have h := two_le_fold live
  omega

theorem counting_not_mem (live : Multiset ℤ) : live.fold max 2 + 1 ∉ live := fun hmem => by
  have h := le_fold_of_mem hmem
  omega

/-- A system that gives out the descriptor behind the last one, of a process with
the three standard streams. -/
def countingKernel (fails : ℕ → Bool) : Kernel :=
  ⟨fails, fun live => live.fold max 2 + 1, counting_nonneg, counting_not_mem⟩

/-- Two workers, of which nothing is open; the socket is that of an earlier call. -/
def closedServer : ServerFds := ⟨3, -1, 2, fun _ => ⟨(-1, -1), (-1, -1), -1⟩⟩

/-- The registration of the second worker's last pipe fails. -/
theorem law_open_all_or_nothing_last : ∃ server' s,
    lawOpen (countingKernel (· == 32)) closedServer (Sys.start {0, 1, 2, 3}) =
        some (.sys, server', s) ∧
      ∃ opened closed : List ℤ, s.ledger = opened.map .acquired ++ closed.map .released ∧
        closed.Perm opened := by
  have herr : (lawOpen (countingKernel (· == 32)) closedServer (Sys.start {0, 1, 2, 3})).map
      Prod.fst = some .sys := by decide
  obtain ⟨⟨e, server', s⟩, hrun, rfl⟩ := Option.map_eq_some_iff.mp herr
  obtain ⟨opened, closed, -, -, hperm, ⟨he, -⟩ | ⟨-, hledger, -⟩⟩ :=
    (law_open_all_or_nothing (countingKernel (· == 32)) closedServer {0, 1, 2, 3}
      (by decide)).1 _ _ _ hrun
  · cases he
  · exact ⟨server', s, hrun, opened, closed, hledger, hperm⟩

end Lawd

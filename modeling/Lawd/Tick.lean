import Lawd.Server
import Lawd.Turn

/-!
# One tick of a worker

The loops of a tick take the expired timer entries, the polled events, the
messages and the incoming tasks, in this order. The tasks that these are
resolved to, and the tasks that are admitted, are what the tick runs, each once,
and a resumed task finds its events in the order in which they were taken.
-/
namespace Lawd

open Library

variable {P : Platform}

/-- The tasks that a turn runs, with the events that they find in their array. -/
def View.ran (v v' : View P) : List (TaskPtr × List Event) :=
  match v.worker.pc, v'.worker.pc with
  | .dispatch, .running p => [(p, (v'.heap p).received)]
  | _, _ => []

/-- What a tick has taken and run so far. -/
structure TickLog where
  inputs : List TickInput
  ran : List (TaskPtr × List Event)

/-- A turn of the worker's loops goes into the log. -/
def noteTick (i : ℕ) (log : TickLog) (s : State P) (a : Action) (t : State P) : TickLog :=
  match a with
  | .worker j .turn =>
    if j = i then
      ⟨log.inputs ++ (s.view i).takes.toList, log.ran ++ (s.view i).ran (t.view i)⟩
    else log
  | _ => log

/-- The server after the head of a tick of worker `i`, with a record of the tick. -/
def tickSystem (P : Platform) (cfg : Config) (i : ℕ) (s : State P) :
    System (State P × TickLog) Action :=
  ((serverSystem P cfg).after s).record (noteTick i) ⟨[], []⟩

/-- The step does not begin another tick of the worker. -/
def WithinTick (i : ℕ) (a : Action) : Prop :=
  ∀ polled now batch, a ≠ .worker i (.begin polled now batch)

/-! ### What is taken -/

namespace TickInput

def timer? : TickInput → Option TimerElem
  | timer e => some e
  | _ => none

def event? : TickInput → Option Event
  | event ev => some ev
  | _ => none

def message? : TickInput → Option Msg
  | message msg => some msg
  | _ => none

end TickInput

/-- The expired entries that the timer loop has yet to take. -/
def View.due (v : View P) : List TimerElem :=
  match v.worker.pc with
  | .timers => (P.timers.entries v.worker.timer).filter fun e =>
    decide (e.expiration ≤ v.worker.now)
  | _ => []

/-- The events that the event loop has yet to take. -/
def View.polled (v : View P) : List Event :=
  match v.worker.pc with
  | .timers | .events => v.worker.batch
  | _ => []

/-- The messages that the message loop has yet to take. -/
def View.pending (v : View P) : List Msg :=
  match v.worker.pc with
  | .timers | .events | .messages => v.messages
  | _ => []

/-- The inputs of a tick against what there was at its head: all expired entries
of the timer, the polled events in their order, and at least the messages that
had been sent, in their order. -/
structure Accounted (start v : View P) (inputs : List TickInput) : Prop where
  order : inputs.Pairwise fun x y => x.phase ≤ y.phase
  bound : ∀ x ∈ inputs, x.phase ≤ v.worker.pc.phase
  timers : (inputs.filterMap TickInput.timer? ++ v.due).Perm start.due
  events : inputs.filterMap TickInput.event? ++ v.polled = start.polled
  messages : start.pending <+: inputs.filterMap TickInput.message? ++ v.pending

section Accounted

variable {cfg : Config} {start v v' : View P} {inputs : List TickInput}

theorem Turn.due (ht : Turn cfg v v') :
    (v.takes.toList.filterMap TickInput.timer? ++ v'.due).Perm v.due := by
  cases ht with
  | timer e timer hpc htakes hdue hpop =>
    have hentries := (P.timers.pop_entries _ _ _ hpop).filter fun e =>
      decide (e.expiration ≤ v.worker.now)
    rw [List.filter_cons_of_pos (by simpa using hdue)] at hentries
    simp only [View.due, View.deliver_pc, View.deliver_timer, View.deliver_now, hpc, htakes]
    exact hentries.symm
  | timersDone hpc htakes hlate =>
    have hnil : (P.timers.entries v.worker.timer).filter
        (fun e => decide (e.expiration ≤ v.worker.now)) = [] :=
      List.filter_eq_nil_iff.mpr fun e he => by simpa using hlate e he
    simp only [View.due, hpc, htakes, hnil]
    exact .refl _
  | event _ _ hpc htakes | message _ _ _ hpc htakes =>
    simp only [View.due, View.deliver_pc, hpc, htakes]
    exact .refl _
  | eventsDone hpc htakes | messagesDone hpc htakes | take _ _ hpc htakes | admitDone hpc htakes
  | insert _ _ hpc htakes | run _ _ _ _ hpc htakes =>
    simp only [View.due, hpc, htakes]
    exact .refl _
  | done pc heap ready hpc htakes hpop hpc' =>
    simp only [View.due, hpc, htakes]
    rcases hpc' with rfl | ⟨rfl, -⟩ <;> exact .refl _

theorem Turn.polled (ht : Turn cfg v v') :
    v.takes.toList.filterMap TickInput.event? ++ v'.polled = v.polled := by
  cases ht with
  | event ev batch hpc htakes hcons =>
    simp only [View.polled, View.deliver_pc, View.deliver_batch, hpc, htakes, hcons]
    rfl
  | eventsDone hpc htakes hnil =>
    simp only [View.polled, hpc, htakes, hnil]
    rfl
  | timer _ _ hpc htakes | message _ _ _ hpc htakes =>
    simp only [View.polled, View.deliver_pc, View.deliver_batch, hpc, htakes]
    rfl
  | timersDone hpc htakes | messagesDone hpc htakes | take _ _ hpc htakes | admitDone hpc htakes
  | insert _ _ hpc htakes | run _ _ _ _ hpc htakes =>
    simp only [View.polled, hpc, htakes]
    rfl
  | done pc heap ready hpc htakes hpop hpc' =>
    simp only [View.polled, hpc, htakes]
    rcases hpc' with rfl | ⟨rfl, -⟩ <;> rfl

theorem Turn.pending (ht : Turn cfg v v') :
    v.takes.toList.filterMap TickInput.message? ++ v'.pending = v.pending := by
  cases ht with
  | message msg messages reloop hpc htakes hcons hreloop =>
    simp only [View.pending, View.deliver_pc, View.deliver_messages, hpc, htakes, hcons]
    rfl
  | messagesDone hpc htakes hnil =>
    simp only [View.pending, hpc, htakes, hnil]
    rfl
  | timer _ _ hpc htakes | event _ _ hpc htakes =>
    simp only [View.pending, View.deliver_pc, View.deliver_messages, hpc, htakes]
    rfl
  | timersDone hpc htakes | eventsDone hpc htakes | take _ _ hpc htakes | admitDone hpc htakes
  | insert _ _ hpc htakes | run _ _ _ _ hpc htakes =>
    simp only [View.pending, hpc, htakes]
    rfl
  | done pc heap ready hpc htakes hpop hpc' =>
    simp only [View.pending, hpc, htakes]
    rcases hpc' with rfl | ⟨rfl, -⟩ <;> rfl

theorem Accounted.turn (h : Accounted start v inputs) (ht : Turn cfg v v') :
    Accounted start v' (inputs ++ v.takes.toList) := by
  have hphase : ∀ x ∈ v.takes.toList, x.phase = v.worker.pc.phase := fun x hx =>
    View.takes_phase (Option.mem_toList.mp hx)
  have hone : v.takes.toList.Pairwise fun x y => x.phase ≤ y.phase := by
    cases v.takes with
    | none => exact .nil
    | some x => exact List.pairwise_singleton _ _
  refine ⟨List.pairwise_append.mpr ⟨h.order, hone, fun x hx y hy => ?_⟩, fun x hx => ?_, ?_, ?_, ?_⟩
  · rw [hphase y hy]
    exact h.bound x hx
  · refine le_trans ?_ ht.phase_le
    rcases List.mem_append.mp hx with hx | hx
    · exact h.bound x hx
    · exact (hphase x hx).le
  · rw [List.filterMap_append, List.append_assoc]
    exact (ht.due.append_left _).trans h.timers
  · rw [List.filterMap_append, List.append_assoc, ht.polled]
    exact h.events
  · rw [List.filterMap_append, List.append_assoc, ht.pending]
    exact h.messages

theorem View.taken_of_phase (h : 2 < v.worker.pc.phase) :
    v.due = [] ∧ v.polled = [] ∧ v.pending = [] := by
  unfold View.due View.polled View.pending
  cases hpc : v.worker.pc <;> rw [hpc] at h
  case timers => exact absurd h (by decide)
  case events => exact absurd h (by decide)
  case messages => exact absurd h (by decide)
  all_goals exact ⟨rfl, rfl, rfl⟩

theorem Accounted.late (h : Accounted start v inputs) (hphase : 2 < v.worker.pc.phase)
    (hphase' : v.worker.pc.phase ≤ v'.worker.pc.phase) : Accounted start v' inputs := by
  obtain ⟨hdue, hpolled, hpending⟩ := View.taken_of_phase hphase
  obtain ⟨hdue', hpolled', hpending'⟩ := View.taken_of_phase (hphase.trans_le hphase')
  refine ⟨h.order, fun x hx => (h.bound x hx).trans hphase', ?_, ?_, ?_⟩
  · rw [hdue', ← hdue]
    exact h.timers
  · rw [hpolled', ← hpolled]
    exact h.events
  · rw [hpending', ← hpending]
    exact h.messages

theorem Accounted.sent (h : Accounted start v inputs) (hworker : v'.worker = v.worker)
    (hmessages : v.messages <+: v'.messages) : Accounted start v' inputs := by
  refine ⟨h.order, by rw [hworker]; exact h.bound, ?_, ?_, ?_⟩
  · simp only [View.due, hworker]
    exact h.timers
  · simp only [View.polled, hworker]
    exact h.events
  · refine h.messages.trans ((List.prefix_append_right_inj _).mpr ?_)
    simp only [View.pending, hworker]
    split
    all_goals first | exact hmessages | exact List.prefix_refl _

end Accounted

end Lawd

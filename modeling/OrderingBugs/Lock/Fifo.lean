import OrderingBugs.Transition.System
import Mathlib.Data.List.Nodup

-- What a fair lock is for: threads are admitted one at a time and in the order of their arrival.
namespace Fifo

-- The threads that have arrived and not left again, in the order of their arrival. Only the first of
-- them can have entered.
structure State (Tid : Type) where
  queue   : List Tid
  entered : Bool

inductive Event (Tid : Type)
  | arrive (t : Tid)
  | enter (t : Tid)

@[simp]
def Event.arrival? : Event Tid → Option Tid
  | arrive t => some t
  | enter _ => none

@[simp]
def Event.entrant? : Event Tid → Option Tid
  | arrive _ => none
  | enter t => some t

def arrivals (es : List (Event Tid)) : List Tid :=
  es.filterMap Event.arrival?

def entries (es : List (Event Tid)) : List Tid :=
  es.filterMap Event.entrant?

-- Labels that show at most one arrival or entry each.
theorem arrivals_flatMap {obs : α → List (Event Tid)} {f : α → Option Tid} {ls : List α}
    (h : ∀ l ∈ ls, arrivals (obs l) = (f l).toList) :
    arrivals (ls.flatMap obs) = ls.filterMap f := by
  simp only [arrivals] at h
  rw [arrivals, List.filterMap_flatMap, List.filterMap_eq_flatMap_toList]
  exact List.flatMap_congr h

theorem entries_flatMap {obs : α → List (Event Tid)} {f : α → Option Tid} {ls : List α}
    (h : ∀ l ∈ ls, entries (obs l) = (f l).toList) :
    entries (ls.flatMap obs) = ls.filterMap f := by
  simp only [entries] at h
  rw [entries, List.filterMap_flatMap, List.filterMap_eq_flatMap_toList]
  exact List.flatMap_congr h

inductive Label (Tid : Type)
  | arrive (t : Tid)
  | enter (t : Tid)
  | leave (t : Tid)

@[simp]
def Label.events : Label Tid → List (Event Tid)
  | arrive t => [.arrive t]
  | enter t => [.enter t]
  | leave _ => []

inductive Step : State Tid → Label Tid → State Tid → Prop
  | arrive {s : State Tid} {t : Tid} : t ∉ s.queue →
    Step s (.arrive t) { s with queue := s.queue ++ [t] }
  | enter {t : Tid} {q : List Tid} : Step ⟨t :: q, false⟩ (.enter t) ⟨t :: q, true⟩
  | leave {t : Tid} {q : List Tid} : Step ⟨t :: q, true⟩ (.leave t) ⟨q, false⟩

def system (Tid : Type) : System (State Tid) (Label Tid) where
  Init s := s = ⟨[], false⟩
  Step := Step

-- The threads that have arrived and not entered.
def State.waiting (s : State Tid) : List Tid :=
  if s.entered then s.queue.tail else s.queue

variable {s s' : State Tid} {l : Label Tid} {ls : List (Label Tid)}

-- Whoever arrives has to wait, and whoever enters was the first to wait.
theorem Step.waiting (e : Step s l s') (h : s.entered = true → s.queue ≠ []) :
    entries l.events ++ s'.waiting = s.waiting ++ arrivals l.events := by
  cases e
  case arrive =>
    by_cases he : s.entered
    case pos => simp [State.waiting, arrivals, entries, he, List.tail_append_of_ne_nil (h he)]
    case neg => simp [State.waiting, arrivals, entries, he]
  case enter | leave => simp [State.waiting, arrivals, entries]

theorem Step.queue_ne_nil (e : Step s l s') (h : s.entered = true → s.queue ≠ []) :
    s'.entered = true → s'.queue ≠ [] := by
  cases e <;> simp

theorem run_arrivals (r : (system Tid).Run ls s) :
    arrivals (ls.flatMap Label.events) = entries (ls.flatMap Label.events) ++ s.waiting ∧
      (s.entered = true → s.queue ≠ []) := by
  refine r.invariant (I := fun ls s =>
    arrivals (ls.flatMap Label.events) = entries (ls.flatMap Label.events) ++ s.waiting ∧
      (s.entered = true → s.queue ≠ [])) ?init ?step
  case init =>
    intro s hs
    cases hs
    simp [arrivals, entries, State.waiting]
  case step =>
    intro ls s l s' _ ⟨ha, hn⟩ e
    refine ⟨?_, e.queue_ne_nil hn⟩
    have hw := e.waiting hn
    simp only [arrivals, entries, List.flatMap_append, List.filterMap_append, List.flatMap_cons,
      List.flatMap_nil, List.append_nil, List.append_assoc] at ha hw ⊢
    rw [ha, hw, List.append_assoc]

-- Threads enter in the order of their arrival.
theorem entries_prefix_arrivals (r : (system Tid).Run ls s) :
    entries (ls.flatMap Label.events) <+: arrivals (ls.flatMap Label.events) :=
  ⟨s.waiting, (run_arrivals r).1.symm⟩

end Fifo

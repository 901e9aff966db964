import OrderingBugs.Mcs.Thread

open Function

-- The order of admission, as the transitions of the threads show it.
namespace Mcs

section Transition

variable {Tid Lk Ul : Type}

-- The transition of a thread that moves.
abbrev Transition (Tid Lk Ul : Type) :=
  Tid × Thread Lk Ul × Thread Lk Ul

-- The thread executes its exchange of `tail`, which is at the given place of the function that locks.
def exchange? [DecidableEq Lk] (exchange : Lk) : Transition Tid Lk Ul → Option Tid
  | (t, ⟨.lock pc, _⟩, _) => if pc = exchange then some t else none
  | _ => none

-- The thread enters its critical section.
def entrant? : Transition Tid Lk Ul → Option Tid
  | (t, ⟨.lock _, _⟩, ⟨.critical .., _⟩) => some t
  | _ => none

-- The threads in the order of their exchanges, and of their entries into the critical section.
def exchanges [DecidableEq Lk] (exchange : Lk) (ls : List (Transition Tid Lk Ul)) : List Tid :=
  ls.filterMap (exchange? exchange)

def entries (ls : List (Transition Tid Lk Ul)) : List Tid :=
  ls.filterMap entrant?

end Transition

variable {Tid F V L : Type} [DecidableEq Tid] [Flag F] {B : Buffering (Loc Tid) (Val Tid F V)}
variable {D : Discipline} {P : Program Tid (Loc Tid) (Val Tid F V) L} {stage : L → Stage Tid}
variable {mem₀ : Mem (Val Tid F V)} {threads₀ : Tid → L}

-- Two observations of transitions tell when a thread arrives and when it enters.
def Observes (B : Buffering (Loc Tid) (Val Tid F V)) (D : Discipline)
    (P : Program Tid (Loc Tid) (Val Tid F V) L) (stage : L → Stage Tid)
    (arrival? entrant? : Tid × L × L → Option Tid) : Prop :=
  ∀ t l l' m m' b b', (P t l).exec B D m b = some (m', b', l') →
    Fifo.arrivals (events stage (.move t l l')) = (arrival? (t, l, l')).toList ∧
      Fifo.entries (events stage (.move t l l')) = (entrant? (t, l, l')).toList

variable {arrival? entrant? : Tid × L × L → Option Tid} {s : Machine.State B Tid L}
variable {ls : List (Machine.Label Tid (Loc Tid) L)}

omit [Flag F] in
theorem Observes.run (ho : Observes B D P stage arrival? entrant?)
    (r : (Machine.system B D P mem₀ threads₀).Run ls s) :
    Fifo.arrivals (ls.flatMap (events stage)) = (ls.flatMap Machine.Label.moves).filterMap arrival? ∧
      Fifo.entries (ls.flatMap (events stage)) = (ls.flatMap Machine.Label.moves).filterMap entrant? := by
  induction r
  case init => exact ⟨rfl, rfl⟩
  case step ls _ l _ _ e h =>
    suffices hl : Fifo.arrivals (events stage l) = l.moves.filterMap arrival? ∧
        Fifo.entries (events stage l) = l.moves.filterMap entrant? by
      simp only [Fifo.arrivals, Fifo.entries] at h hl ⊢
      simp [h, hl]
    cases e
    case drain => exact ⟨rfl, rfl⟩
    case move e => simpa [Machine.Label.moves, List.filterMap_eq_flatMap_toList] using ho _ _ _ _ _ _ _ e

-- Threads enter in the order of their arrival on any machine that keeps the stores to a node in time.
theorem Observes.entries_of_run (ho : Observes B D P stage arrival? entrant?) (hP : Implements D P stage)
    (h₀ : Ready stage mem₀ threads₀) (r : (guarded B D P stage mem₀ threads₀).Run ls s) :
    (ls.flatMap Machine.Label.moves).filterMap entrant? <+:
      (ls.flatMap Machine.Label.moves).filterMap arrival? := by
  have h := entries_prefix_arrivals hP h₀ r
  have ⟨ha, he⟩ := ho.run r.of_restrict
  rwa [ha, he] at h

end Mcs

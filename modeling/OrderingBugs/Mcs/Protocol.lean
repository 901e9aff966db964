import OrderingBugs.Lock.Adjacent
import OrderingBugs.Lock.Fifo

open Function

-- The queue lock that the MCS locks implement. Each thread owns a node. The stores that initialise it,
-- the store that links it to the predecessor and the store that hands the lock over may all reach
-- memory later than the thread executes them.
namespace Mcs

-- How far a store that initialises a field of a thread's own node has come.
inductive Init
  | stale
  | pending
  | done
  deriving DecidableEq

-- A round ends, so what has reached memory belongs to the past.
def Init.reset : Init → Init
  | done => stale
  | i => i

-- A thread is `linking p` until its store to the `next` field of its predecessor `p` is in memory, and
-- `passing s` until its store to the `locked` field of its successor `s` is.
inductive Phase (Tid : Type)
  | out
  | linking (p : Tid)
  | waiting
  | holding
  | contended
  | signalled
  | passing (s : Tid)

-- The phases of a thread that has taken the lock and not given it up yet.
def Phase.Owns : Phase Tid → Prop
  | holding | contended | signalled | passing _ => True
  | out | linking _ | waiting => False

-- The thread has seen its successor.
def Phase.Leaving : Phase Tid → Prop
  | signalled | passing _ => True
  | _ => False

-- The node of a thread is not needed by the thread any more.
def Phase.Released : Phase Tid → Prop
  | out | passing _ => True
  | _ => False

-- `tail`, `next` and `locked` are in memory.
structure State (Tid : Type) where
  tail       : Option Tid
  next       : Tid → Option Tid
  locked     : Tid → Bool
  nextInit   : Tid → Init
  lockedInit : Tid → Init
  phase      : Tid → Phase Tid

inductive Label (Tid : Type)
  | issueNext (t : Tid)
  | issueLocked (t : Tid)
  | settleNext (t : Tid)
  | settleLocked (t : Tid)
  | exchange (t : Tid) (p : Option Tid)
  | link (t : Tid)
  | enter (t : Tid)
  | reset (t : Tid)
  | contend (t : Tid)
  | signal (t : Tid)
  | take (t : Tid)
  | handoff (t : Tid)

@[simp]
def Label.events : Label Tid → List (Fifo.Event Tid)
  | exchange t none => [.arrive t, .enter t]
  | exchange t (some _) => [.arrive t]
  | enter t => [.enter t]
  | _ => []

-- The phase after an exchange that found `p`.
def Phase.exchanged : Option Tid → Phase Tid
  | none => holding
  | some p => linking p

variable [DecidableEq Tid]

inductive Step : State Tid → Label Tid → State Tid → Prop
  | issueNext {a : State Tid} {t : Tid} :
    (a.phase t).Released → a.nextInit t ≠ .pending →
    Step a (.issueNext t) { a with nextInit := update a.nextInit t .pending }
  | issueLocked {a : State Tid} {t : Tid} :
    (a.phase t).Released → a.lockedInit t ≠ .pending →
    Step a (.issueLocked t) { a with lockedInit := update a.lockedInit t .pending }
  | settleNext {a : State Tid} {t : Tid} :
    a.nextInit t = .pending →
    Step a (.settleNext t)
      { a with next := update a.next t none, nextInit := update a.nextInit t .done }
  | settleLocked {a : State Tid} {t : Tid} :
    a.lockedInit t = .pending →
    Step a (.settleLocked t)
      { a with locked := update a.locked t true, lockedInit := update a.lockedInit t .done }
  | exchange {a : State Tid} {t : Tid} :
    a.phase t = .out → a.nextInit t ≠ .stale → a.lockedInit t ≠ .stale →
    Step a (.exchange t a.tail)
      { a with tail := some t, phase := update a.phase t (.exchanged a.tail) }
  | link {a : State Tid} {t p : Tid} :
    a.phase t = .linking p → a.nextInit p ≠ .pending →
    Step a (.link t)
      { a with next := update a.next p (some t), phase := update a.phase t .waiting }
  | enter {a : State Tid} {t : Tid} :
    a.phase t = .waiting → a.lockedInit t = .done → a.locked t = false →
    Step a (.enter t) { a with phase := update a.phase t .holding }
  | reset {a : State Tid} {t : Tid} :
    a.phase t = .holding → a.tail = some t →
    Step a (.reset t)
      { a with
        tail := none
        nextInit := update a.nextInit t (a.nextInit t).reset
        lockedInit := update a.lockedInit t (a.lockedInit t).reset
        phase := update a.phase t .out }
  | contend {a : State Tid} {t : Tid} :
    a.phase t = .holding → a.tail ≠ some t →
    Step a (.contend t) { a with phase := update a.phase t .contended }
  | signal {a : State Tid} {t : Tid} :
    a.phase t = .holding ∨ a.phase t = .contended → a.nextInit t = .done → a.next t ≠ none →
    Step a (.signal t) { a with phase := update a.phase t .signalled }
  | take {a : State Tid} {t s : Tid} :
    a.phase t = .signalled → a.next t = some s →
    Step a (.take t)
      { a with
        nextInit := update a.nextInit t (a.nextInit t).reset
        lockedInit := update a.lockedInit t (a.lockedInit t).reset
        phase := update a.phase t (.passing s) }
  | handoff {a : State Tid} {t s : Tid} :
    a.phase t = .passing s → a.lockedInit s ≠ .pending →
    Step a (.handoff t)
      { a with locked := update a.locked s false, phase := update a.phase t .out }

-- All threads are out, and nothing is known about the contents of their nodes.
structure Initial (a : State Tid) : Prop where
  tail       : a.tail = none
  phase      : ∀ t, a.phase t = .out
  nextInit   : ∀ t, a.nextInit t = .stale
  lockedInit : ∀ t, a.lockedInit t = .stale

def system (Tid : Type) [DecidableEq Tid] : System (State Tid) (Label Tid) where
  Init := Initial
  Step := Step

end Mcs

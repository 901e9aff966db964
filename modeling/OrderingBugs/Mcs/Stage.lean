import OrderingBugs.Memory.Machine
import OrderingBugs.Mcs.Queue
import Mathlib.Data.Fintype.Sum
import Mathlib.Data.Fintype.Option

open Function

namespace Mcs

-- The shared variables of a program that uses an MCS lock: the pointer to the last node, the fields of
-- the node of each thread, and the data that the lock protects. A pointer to a node is the thread that
-- owns the node.
inductive Loc (Tid : Type)
  | tail
  | next (n : Tid)
  | locked (n : Tid)
  | data
  deriving DecidableEq

-- The thread to whose node a variable belongs.
def Loc.owner? : Loc Tid → Option Tid
  | next n | locked n => some n
  | tail | data => none

def Loc.enumerate : Option Tid ⊕ Option Tid → Loc Tid
  | .inl none => tail
  | .inl (some n) => next n
  | .inr (some n) => locked n
  | .inr none => data

instance [Fintype Tid] [DecidableEq Tid] : Fintype (Loc Tid) :=
  .ofSurjective Loc.enumerate fun
    | .tail => ⟨.inl none, rfl⟩
    | .next n => ⟨.inl (some n), rfl⟩
    | .locked n => ⟨.inr (some n), rfl⟩
    | .data => ⟨.inr none, rfl⟩

-- The type of the field `locked`, with the values a lock stores to it and its test for them.
class Flag (F : Type) where
  set   : F
  clear : F
  test  : F → Bool
  test_set   : test set = true
  test_clear : test clear = false

attribute [simp] Flag.test_set Flag.test_clear

instance : Flag Bool where
  set := true
  clear := false
  test := id
  test_set := rfl
  test_clear := rfl

instance : Flag Int where
  set := 1
  clear := 0
  test v := v != 0
  test_set := rfl
  test_clear := rfl

abbrev Val (Tid F V : Type) : Loc Tid → Type
  | .tail | .next _ => Option Tid
  | .locked _ => F
  | .data => V

-- The contents of memory before the first round.
def fresh [Flag F] : Mem (Val Tid F Int)
  | .tail | .next _ => none
  | .locked _ => Flag.clear
  | .data => 0

-- Where a thread is in its round, as far as the lock is concerned. Outside of the lock, this includes
-- which of the stores that initialise its node the thread has executed. A thread that follows a null
-- pointer has `faulted`.
inductive Stage (Tid : Type)
  | outside (next locked : Bool)
  | linking (p : Tid)
  | linked
  | holding
  | contended
  | signalled
  | passing (s : Tid)
  | faulted

def Stage.Inside : Stage Tid → Prop
  | outside .. => False
  | _ => True

-- What the protocol lets the thread `t` do in a stage. The compare-and-swap that gives up the lock has
-- to wait for the buffers of the thread.
inductive Acts (D : Discipline) [DecidableEq Tid] [Flag F] (t : Tid) (stage : L → Stage Tid) :
    Stage Tid → Op (Loc Tid) (Val Tid F V) L → Prop
  | skip {σ : Stage Tid} {k : L} : stage k = σ → Acts D t stage σ (.skip k)
  | fence {o : Order} {σ : Stage Tid} {k : L} : stage k = σ → Acts D t stage σ (.fence o k)
  | loadData {o : Order} {σ : Stage Tid} {k : V → L} : (∀ v, stage (k v) = σ) →
    Acts D t stage σ (.load o .data k)
  | storeData {o : Order} {σ : Stage Tid} {v : V} {k : L} : stage k = σ →
    Acts D t stage σ (.store o .data v k)
  | initNext {o : Order} {i : Bool} {k : L} : stage k = .outside true i →
    Acts D t stage (.outside false i) (.store o (.next t) none k)
  | initLocked {o : Order} {i : Bool} {k : L} : stage k = .outside i true →
    Acts D t stage (.outside i false) (.store o (.locked t) Flag.set k)
  | exchange {o : Order} {k : Option Tid → L} : stage (k none) = .holding →
    (∀ p, stage (k (some p)) = .linking p) →
    Acts D t stage (.outside true true) (.rmw o .tail (fun _ => some t) k)
  | link {o : Order} {p : Tid} {k : L} : stage k = .linked →
    Acts D t stage (.linking p) (.store o (.next p) (some t) k)
  | spin {o : Order} {k : F → L} : (∀ v, Flag.test v = true → stage (k v) = .linked) →
    (∀ v, Flag.test v = false → stage (k v) = .holding) →
    Acts D t stage .linked (.load o (.locked t) k)
  | inspect {o : Order} {k : Option Tid → L} : stage (k none) = .holding →
    (∀ s, stage (k (some s)) = .signalled) → Acts D t stage .holding (.load o (.next t) k)
  | cas {o : Order} {k : Option Tid → L} : D.rmwWaits o = true →
    stage (k (some t)) = .outside false false → (∀ v, v ≠ some t → stage (k v) = .contended) →
    Acts D t stage .holding (.rmw o .tail (fun v => if v = some t then none else v) k)
  | await {o : Order} {k : Option Tid → L} : stage (k none) = .contended →
    (∀ s, stage (k (some s)) = .signalled) → Acts D t stage .contended (.load o (.next t) k)
  | take {o : Order} {k : Option Tid → L} : stage (k none) = .faulted →
    (∀ s, stage (k (some s)) = .passing s) → Acts D t stage .signalled (.load o (.next t) k)
  | pass {o : Order} {s : Tid} {k : L} : stage k = .outside false false →
    Acts D t stage (.passing s) (.store o (.locked s) Flag.clear k)
  | halt : Acts D t stage .faulted .halt

-- When a store to the node of another thread reaches memory, no store of that thread itself to the same
-- variable is buffered.
def Timely {Val : Loc Tid → Type} [DecidableEq Tid] {B : Buffering (Loc Tid) Val} (D : Discipline)
    (P : Program Tid (Loc Tid) Val L) (s : Machine.State B Tid L) :
    Machine.Label Tid (Loc Tid) L → Prop
  | .move t l _ => ∀ o x v k n, P t l = .store o x v k → D.buffered o = false →
    x.owner? = some n → n ≠ t → B.pending (s.buf n) x = []
  | .drain t x => ∀ n, x.owner? = some n → n ≠ t → B.pending (s.buf n) x = []

end Mcs

import OrderingBugs.Transition.System
import OrderingBugs.Memory.Heap

open Function

-- The CLH lock of seL4 (`3-sel4-dynamic.c`) under sequentially consistent interleaving. A node consists
-- of the field `locked` only.
namespace Sel4

-- A thread in `idle` can call `clh_lock` or exit, one in `critical` can call `clh_unlock`.
inductive Pc (Addr : Type)
  | idle
  | storeTrue (myNode : Addr)
  | setspecific (myNode : Addr)
  | exchange (myNode : Addr)
  | spin (pred : Addr)
  | critical
  | storeFalse (myNode : Option Addr)
  | exited

-- The lock with the value of `my_node_key` in each thread.
structure State (Tid Addr : Type) where
  heap      : Heap Addr Bool
  tail      : Addr
  key       : Tid → Option Addr
  pc        : Tid → Pc Addr
  destroyed : Bool

inductive Label (Tid Addr : Type)
  | malloc (t : Tid) (a : Addr)
  | storeTrue (t : Tid) (a : Addr)
  | setspecific (t : Tid)
  | exchange (t : Tid)
  | load (t : Tid) (a : Addr) (v : Bool)
  | getspecific (t : Tid)
  | storeFalse (t : Tid) (a : Addr)
  | exit (t : Tid) (a : Option Addr)
  | destroy (a : Addr)

-- The node that a step of `clh_lock` or `clh_unlock` reads or writes.
def Label.access? : Label Tid Addr → Option Addr
  | storeTrue _ a | load _ a _ | storeFalse _ a => some a
  | malloc .. | setspecific _ | exchange _ | getspecific _ | exit .. | destroy _ => none

-- The node that a step frees.
def Label.free? : Label Tid Addr → Option Addr
  | exit _ a => a
  | destroy a => some a
  | malloc .. | storeTrue .. | setspecific _ | exchange _ | load .. | getspecific _ | storeFalse .. => none

variable {Tid Addr : Type} [DecidableEq Tid] [DecidableEq Addr]

-- `malloc` returns any address that is not live.
inductive Step : State Tid Addr → Label Tid Addr → State Tid Addr → Prop
  | malloc {s : State Tid Addr} {t : Tid} {a : Addr} {v : Bool} :
    s.pc t = .idle → s.heap.live a = false →
    Step s (.malloc t a) { s with heap := s.heap.malloc a v, pc := update s.pc t (.storeTrue a) }
  | storeTrue {s : State Tid Addr} {t : Tid} {a : Addr} :
    s.pc t = .storeTrue a →
    Step s (.storeTrue t a)
      { s with heap := s.heap.write a true, pc := update s.pc t (.setspecific a) }
  | setspecific {s : State Tid Addr} {t : Tid} {a : Addr} :
    s.pc t = .setspecific a →
    Step s (.setspecific t)
      { s with key := update s.key t (some a), pc := update s.pc t (.exchange a) }
  | exchange {s : State Tid Addr} {t : Tid} {a : Addr} :
    s.pc t = .exchange a →
    Step s (.exchange t) { s with tail := a, pc := update s.pc t (.spin s.tail) }
  | spin {s : State Tid Addr} {t : Tid} {a : Addr} :
    s.pc t = .spin a → s.heap.val a = true →
    Step s (.load t a true) s
  | enter {s : State Tid Addr} {t : Tid} {a : Addr} :
    s.pc t = .spin a → s.heap.val a = false →
    Step s (.load t a false) { s with pc := update s.pc t .critical }
  | getspecific {s : State Tid Addr} {t : Tid} :
    s.pc t = .critical →
    Step s (.getspecific t) { s with pc := update s.pc t (.storeFalse (s.key t)) }
  | storeFalse {s : State Tid Addr} {t : Tid} {a : Addr} :
    s.pc t = .storeFalse (some a) →
    Step s (.storeFalse t a) { s with heap := s.heap.write a false, pc := update s.pc t .idle }
  -- The destructor of `my_node_key` frees the node, unless the value of the key is null.
  | exit {s : State Tid Addr} {t : Tid} :
    s.pc t = .idle →
    Step s (.exit t (s.key t))
      { s with
        heap := match s.key t with | none => s.heap | some a => s.heap.free a
        key := update s.key t none
        pc := update s.pc t .exited }
  -- `clh_lock_destroy`, after all threads have been joined
  | destroy {s : State Tid Addr} :
    (∀ t, s.pc t = .exited) → s.destroyed = false →
    Step s (.destroy s.tail) { s with heap := s.heap.free s.tail, destroyed := true }

-- `clh_lock_init`, with the address that `malloc` returns for the node `dummy`
def clhLockInit (heap : Heap Addr Bool) (dummy : Addr) : State Tid Addr where
  heap := (heap.malloc dummy false).write dummy false
  tail := dummy
  key _ := none
  pc _ := .idle
  destroyed := false

-- The lock, initialised in a heap whose live objects belong to the rest of the program.
def clh (Tid : Type) [DecidableEq Tid] (heap : Heap Addr Bool) : System (State Tid Addr) (Label Tid Addr) where
  Init s := ∃ dummy, heap.live dummy = false ∧ s = clhLockInit heap dummy
  Step := Step

end Sel4

import Mathlib.Logic.Function.Basic

-- The memory orders an access can carry. Accesses to variables that are not atomic are `plain`.
inductive Order
  | plain
  | relaxed
  | acquire
  | release
  | acqRel
  | seqCst
  deriving DecidableEq

-- The next operation of a thread, together with the local state the thread has after it. Memory is
-- typed: the location `x` holds a value of type `Val x`.
inductive Op (Loc : Type) (Val : Loc → Type) (L : Type)
  | halt
  | skip (next : L)
  | load (o : Order) (x : Loc) (next : Val x → L)
  | store (o : Order) (x : Loc) (v : Val x) (next : L)
  | rmw (o : Order) (x : Loc) (f : Val x → Val x) (next : Val x → L)
  | fence (o : Order) (next : L)

instance {op : Op Loc Val L} : Decidable (op = .halt) :=
  match op with
  | .halt => isTrue rfl
  | .skip _ | .load .. | .store .. | .rmw .. | .fence .. => isFalse nofun

abbrev Mem {Loc : Type} (Val : Loc → Type) :=
  (x : Loc) → Val x

-- A program gives each thread's next operation as a function of the thread's local state.
abbrev Program (Tid Loc : Type) (Val : Loc → Type) (L : Type) :=
  Tid → L → Op Loc Val L

-- How a machine with store buffers treats the memory orders. A store whose order is not buffered,
-- and a fence whose order waits, take effect only when all buffers of the thread are empty. A
-- read-modify-write always acts on memory. It waits for all buffers of the thread or, when its order
-- does not require that, only for the stores to its own location.
structure Discipline where
  buffered   : Order → Bool
  fenceWaits : Order → Bool
  rmwWaits   : Order → Bool

namespace Discipline

-- Only sequentially consistent stores and fences flush the buffers explicitly, and every
-- read-modify-write finds them empty. Weaker orders mean nothing, as on x86.
def flushing : Discipline where
  buffered o := o != .seqCst
  fenceWaits o := o == .seqCst
  rmwWaits _ := true

def releases : Order → Bool
  | .release | .acqRel | .seqCst => true
  | .plain | .relaxed | .acquire => false

-- Release consistency: whatever has release semantics waits, whatever is plain, relaxed or
-- acquire-only does not.
def weak : Discipline where
  buffered o := !releases o
  fenceWaits := releases
  rmwWaits := releases

end Discipline

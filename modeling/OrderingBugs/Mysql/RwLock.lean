import OrderingBugs.Memory.Machine
import OrderingBugs.Memory.Interleaving
import Mathlib.Data.Int.DivMod
import Mathlib.Data.Fintype.Basic

open Function

-- The exclusive side of the rw-lock of MySQL (`4-MySQL.c`).
namespace Mysql

inductive Loc
  | mutex
  | lockWord
  | writerThread
  | recursive
  | lastXFileName
  | lastXLine
  deriving DecidableEq

instance : Fintype Loc where
  elems := {.mutex, .lockWord, .writerThread, .recursive, .lastXFileName, .lastXLine}
  complete x := by cases x <;> decide

-- A thread id is the thread, or none of the threads.
abbrev Val (Tid : Type) : Loc → Type
  | .mutex | .recursive => Bool
  | .lockWord | .lastXLine => Int
  | .writerThread => Option Tid
  | .lastXFileName => Option String

def xLockDecr : Int := 0x20000000
def xLockHalfDecr : Int := 0x10000000

-- The values of an `int`, which wraps around.
def int (v : Int) : Int := v.bmod (2 ^ 32)

-- The values of an `unsigned int`.
def unsigned (v : Int) : Int := v % 2 ^ 32

inductive SetPc
  | lock
  | storeWriterThread
  | storeRecursive
  | unlock
  deriving DecidableEq

inductive DecrPc
  | lock
  | compare
  | load
  | store (v : Int)
  | unlock (success : Bool)
  deriving DecidableEq

variable {Tid L : Type} [DecidableEq Tid]

-- `mutex_enter` and `mutex_exit`
def mutexEnter (retry ret : L) : Op Loc (Val Tid) L :=
  .rmw .seqCst .mutex (fun _ => true) fun locked => if locked then retry else ret

def mutexExit (ret : L) : Op Loc (Val Tid) L :=
  .store .seqCst .mutex false ret

-- `rw_lock_set_writer_id_and_recursion_flag`
def rwLockSetWriterIdAndRecursionFlag (currThread : Tid) (recursive : Bool) (k : SetPc → L)
    (ret : L) : SetPc → Op Loc (Val Tid) L
  | .lock => mutexEnter (k .lock) (k .storeWriterThread)
  | .storeWriterThread => .store .plain .writerThread (some currThread) (k .storeRecursive)
  | .storeRecursive => .store .plain .recursive recursive (k .unlock)
  | .unlock => mutexExit ret

-- `rw_lock_lock_word_decr`
def rwLockLockWordDecr (amount threshold : Int) (k : DecrPc → L) (ret : Bool → L) :
    DecrPc → Op Loc (Val Tid) L
  | .lock => mutexEnter (k .lock) (k .compare)
  | .compare => .load .plain .lockWord fun v => if v > threshold then k .load else k (.unlock false)
  | .load => .load .plain .lockWord fun v => k (.store (int (v - amount)))
  | .store v => .store .plain .lockWord v (k (.unlock true))
  | .unlock success => mutexExit (ret success)

structure Call where
  pass     : Int
  fileName : String
  line     : Int

-- How a call comes to its result.
inductive Outcome
  | decremented
  | recursed
  | refused
  deriving DecidableEq

def Outcome.result : Outcome → Bool
  | decremented | recursed => true
  | refused => false

inductive Pc
  | decr (pc : DecrPc)
  | set (pc : SetPc)
  | fence
  | loadRecursive
  | loadWriterThread
  | redecr (pc : DecrPc)
  | compareZero
  | compareHalf
  | loadDecr
  | loadPred
  | store (v : Int)
  | storeFileName (o : Outcome)
  | storeLine (o : Outcome)
  deriving DecidableEq

-- `rw_lock_x_lock_low`
def rwLockXLockLow (threadId : Tid) (c : Call) (k : Pc → L) (ret : Outcome → L) :
    Pc → Op Loc (Val Tid) L
  | .decr pc => rwLockLockWordDecr xLockDecr xLockHalfDecr (fun pc => k (.decr pc)) (fun success =>
      if success then k (.set .lock) else if c.pass = 0 then k .fence else ret .refused) pc
  | .set pc => rwLockSetWriterIdAndRecursionFlag threadId (c.pass = 0) (fun pc => k (.set pc))
      (k (.storeFileName .decremented)) pc
  | .fence => .fence .acquire (k .loadRecursive)
  | .loadRecursive => .load .plain .recursive fun v => if v then k .loadWriterThread else ret .refused
  | .loadWriterThread => .load .plain .writerThread fun v =>
    if v = some threadId then k (.redecr .lock) else ret .refused
  | .redecr pc => rwLockLockWordDecr xLockDecr 0 (fun pc => k (.redecr pc)) (fun success =>
      if success then k (.storeFileName .recursed) else k .compareZero) pc
  | .compareZero => .load .plain .lockWord fun v => if v = 0 then k .loadDecr else k .compareHalf
  | .compareHalf => .load .plain .lockWord fun v =>
    if v = -xLockHalfDecr then k .loadDecr else k .loadPred
  | .loadDecr => .load .plain .lockWord fun v => k (.store (int (v - xLockDecr)))
  | .loadPred => .load .plain .lockWord fun v => k (.store (int (v - 1)))
  | .store v => .store .plain .lockWord v (k (.storeFileName .recursed))
  | .storeFileName o => .store .plain .lastXFileName (some c.fileName) (k (.storeLine o))
  | .storeLine o => .store .plain .lastXLine (unsigned c.line) (ret o)

-- A thread with the call it is in, the calls it has still to make, and how those that it has made have
-- come out, the last one first.
structure Thread where
  current  : Option (Call × Pc)
  calls    : List Call
  returned : List Outcome

def program : Program Tid Loc (Val Tid) Thread
  | _, ⟨none, [], _⟩ => .halt
  | _, ⟨none, c :: cs, os⟩ => .skip ⟨some (c, .decr .lock), cs, os⟩
  | t, ⟨some (c, pc), cs, os⟩ =>
    rwLockXLockLow t c (fun pc => ⟨some (c, pc), cs, os⟩) (fun o => ⟨none, cs, o :: os⟩) pc

-- The lock before the first call, with a given lock word.
def start (w₀ : Int) : Mem (Val Tid)
  | .mutex | .recursive => false
  | .lockWord => w₀
  | .writerThread => none
  | .lastXFileName => none
  | .lastXLine => 0

abbrev State (Tid : Type) :=
  Machine.State (.perLocation (Val Tid)) Tid Thread

-- Threads that each make their calls one after the other.
def system (w₀ : Int) (calls : Tid → List Call) :
    System (State Tid) (Machine.Label Tid Loc Thread) :=
  Machine.system _ .weak program (start w₀) fun t => ⟨none, calls t, []⟩

end Mysql

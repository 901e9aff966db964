import OrderingBugs.Mcs.Thread

open Function

-- The queued spinlock of Linux (`1-Linuxeasy.c`). The field `locked` is an `atomic_bool`, so accesses to
-- it are sequentially consistent.
namespace Linux

open Mcs

variable {Tid L : Type} [DecidableEq Tid]

inductive LockPc (Tid : Type)
  | storeNext
  | storeLocked
  | exchange
  | storePrevNext (prev : Tid)
  | spin
  deriving DecidableEq

inductive UnlockPc (Tid : Type)
  | loadNext
  | compareAndSwap
  | spin
  | fence
  | loadSuccessor
  | storeLocked (n : Tid)
  deriving DecidableEq

-- `qspin_lock`
def qspinLock (mynode : Tid) (k : LockPc Tid → L) (ret : L) :
    LockPc Tid → Op (Loc Tid) (Val Tid Bool Int) L
  | .storeNext => .store .plain (.next mynode) none (k .storeLocked)
  | .storeLocked => .store .seqCst (.locked mynode) true (k .exchange)
  | .exchange => .rmw .acquire .tail (fun _ => some mynode) fun
    | none => ret
    | some prev => k (.storePrevNext prev)
  | .storePrevNext prev => .store .plain (.next prev) (some mynode) (k .spin)
  | .spin => .load .seqCst (.locked mynode) fun v => if v then k .spin else ret

-- `qspin_unlock`
def qspinUnlock (mynode : Tid) (k : UnlockPc Tid → L) (ret fault : L) :
    UnlockPc Tid → Op (Loc Tid) (Val Tid Bool Int) L
  | .loadNext => .load .plain (.next mynode) fun
    | none => k .compareAndSwap
    | some _ => k .fence
  | .compareAndSwap => .rmw .seqCst .tail (fun v => if v = some mynode then none else v) fun v =>
    if v = some mynode then ret else k .spin
  | .spin => .load .plain (.next mynode) fun
    | none => k .spin
    | some _ => k .fence
  | .fence => .fence .release (k .loadSuccessor)
  | .loadSuccessor => .load .plain (.next mynode) fun
    | none => fault
    | some n => k (.storeLocked n)
  | .storeLocked n => .store .seqCst (.locked n) false ret

abbrev State (Tid : Type) :=
  Thread (LockPc Tid) (UnlockPc Tid)

-- Threads that run any number of rounds with the given critical section.
def program (as : List Access) : Program Tid (Loc Tid) (Val Tid Bool Int) (State Tid) := fun mynode =>
  rounds (qspinLock mynode) (qspinUnlock mynode) .storeNext .loadNext as

def LockPc.stage : LockPc Tid → Stage Tid
  | storeNext => .outside false false
  | storeLocked => .outside true false
  | exchange => .outside true true
  | storePrevNext prev => .linking prev
  | spin => .linked

def UnlockPc.stage : UnlockPc Tid → Stage Tid
  | loadNext | compareAndSwap => .holding
  | spin => .contended
  | fence | loadSuccessor => .signalled
  | storeLocked n => .passing n

abbrev stage : State Tid → Stage Tid :=
  Thread.stage LockPc.stage UnlockPc.stage

section Stage

omit [DecidableEq Tid]

variable {l : State Tid}

theorem stage_of_inCriticalSection (h : l.InCriticalSection) : stage l = .holding := by
  obtain ⟨_, _, h⟩ := h
  simp [Thread.stage, h]

theorem pc_ne_idle_of_inside (l : State Tid) (h : (stage l).Inside) : l.pc ≠ .idle := by
  intro hl
  simp [Thread.stage, hl, Stage.Inside] at h

theorem pc_of_stage (h : stage l = .outside true true) : l.pc = .lock .exchange := by
  obtain ⟨_ | pc | _ | pc | _, _⟩ := l <;> try cases pc
  all_goals simp_all [Thread.stage, LockPc.stage, UnlockPc.stage]

end Stage

theorem implements {D : Discipline} (hD : D.rmwWaits .seqCst = true) (as : List Access) :
    Implements D (program as) (stage : State Tid → Stage Tid) := by
  intro t l
  match l with
  | ⟨.idle, _⟩ => exact .skip rfl
  | ⟨.lock .storeNext, _⟩ => exact .initNext rfl
  | ⟨.lock .storeLocked, _⟩ => exact .initLocked rfl
  | ⟨.lock .exchange, _⟩ => exact .exchange rfl fun _ => rfl
  | ⟨.lock (.storePrevNext _), _⟩ => exact .link rfl
  | ⟨.lock .spin, _⟩ =>
    exact .spin (by simp_all [Flag.test, Thread.stage, LockPc.stage]) (by simp_all [Flag.test, Thread.stage])
  | ⟨.critical [] _, _⟩ => exact .skip rfl
  | ⟨.critical (.load :: _) _, _⟩ => exact .loadData fun _ => rfl
  | ⟨.critical (.store _ :: _) _, _⟩ => exact .storeData rfl
  | ⟨.unlock .loadNext, _⟩ => exact .inspect rfl fun _ => rfl
  | ⟨.unlock .compareAndSwap, _⟩ =>
    exact .cas hD (by simp [Thread.stage]) (by simp_all [Thread.stage, UnlockPc.stage])
  | ⟨.unlock .spin, _⟩ => exact .await rfl fun _ => rfl
  | ⟨.unlock .fence, _⟩ => exact .fence rfl
  | ⟨.unlock .loadSuccessor, _⟩ => exact .take rfl fun _ => rfl
  | ⟨.unlock (.storeLocked _), _⟩ => exact .pass rfl
  | ⟨.fault, _⟩ => exact .halt

-- Once the buffers of a thread are empty, it gets past every operation unless it waits in a spin loop.
theorem advances {D : Discipline} (as : List Access) :
    Advances D (program as) (stage : State Tid → Stage Tid) := by
  intro B t l m b hi hf he hl hc
  have hv (x : Loc Tid) : B.view m b x = m x := Buffering.view_nil (he x)
  match l with
  | ⟨.idle, _⟩ => exact absurd rfl hi
  | ⟨.lock .storeNext, _⟩ => exact .store he nofun
  | ⟨.lock .storeLocked, _⟩ => exact .store he nofun
  | ⟨.lock .exchange, _⟩ => exact .rmw he (by cases m .tail <;> nofun)
  | ⟨.lock (.storePrevNext _), _⟩ => exact .store he nofun
  | ⟨.lock .spin, _⟩ =>
    have hl : m (.locked t) = false := by simpa [Flag.test] using hl rfl
    exact .load (by simp [hv, hl])
  | ⟨.critical [] _, _⟩ => exact .skip nofun
  | ⟨.critical (.load :: _) _, _⟩ => exact .load (by simp)
  | ⟨.critical (.store _ :: _) _, _⟩ => exact .store he (by simp)
  | ⟨.unlock .loadNext, _⟩ => exact .load (by cases B.view m b (.next t) <;> nofun)
  | ⟨.unlock .compareAndSwap, _⟩ => exact .rmw he (by split_ifs <;> nofun)
  | ⟨.unlock .spin, _⟩ =>
    have ⟨n, hn⟩ := Option.ne_none_iff_exists'.mp (hc rfl)
    exact .load (by rw [hv, hn]; nofun)
  | ⟨.unlock .fence, _⟩ => exact .fence he nofun
  | ⟨.unlock .loadSuccessor, _⟩ => exact .load (by cases B.view m b (.next t) <;> nofun)
  | ⟨.unlock (.storeLocked _), _⟩ => exact .store he nofun
  | ⟨.fault, _⟩ => exact absurd rfl hf

end Linux

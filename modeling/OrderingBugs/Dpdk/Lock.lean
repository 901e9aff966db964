import OrderingBugs.Mcs.Thread

open Function

-- The MCS lock of DPDK (`2-DPDK.c`).
namespace Dpdk

open Mcs

variable {Tid L : Type} [DecidableEq Tid]

inductive LockPc (Tid : Type)
  | storeLocked
  | storeNext
  | exchange
  | storePrevNext (prev : Tid)
  | fence
  | spin
  deriving DecidableEq

inductive UnlockPc (Tid : Type)
  | loadNext
  | compareExchange
  | fence
  | spin
  | loadSuccessor
  | storeLocked (n : Tid)
  deriving DecidableEq

-- `rte_mcslock_lock`
def rteMcslockLock (me : Tid) (k : LockPc Tid → L) (ret : L) :
    LockPc Tid → Op (Loc Tid) (Val Tid Int Int) L
  | .storeLocked => .store .relaxed (.locked me) 1 (k .storeNext)
  | .storeNext => .store .relaxed (.next me) none (k .exchange)
  | .exchange => .rmw .acquire .tail (fun _ => some me) fun
    | none => ret
    | some prev => k (.storePrevNext prev)
  | .storePrevNext prev => .store .plain (.next prev) (some me) (k .fence)
  | .fence => .fence .acqRel (k .spin)
  | .spin => .load .acquire (.locked me) fun v => if v ≠ 0 then k .spin else ret

-- `rte_mcslock_unlock`
def rteMcslockUnlock (me : Tid) (k : UnlockPc Tid → L) (ret fault : L) :
    UnlockPc Tid → Op (Loc Tid) (Val Tid Int Int) L
  | .loadNext => .load .plain (.next me) fun
    | none => k .compareExchange
    | some _ => k .loadSuccessor
  | .compareExchange => .rmw .release .tail (fun v => if v = some me then none else v) fun v =>
    if v = some me then ret else k .fence
  | .fence => .fence .acquire (k .spin)
  | .spin => .load .relaxed (.next me) fun
    | none => k .spin
    | some _ => k .loadSuccessor
  | .loadSuccessor => .load .plain (.next me) fun
    | none => fault
    | some n => k (.storeLocked n)
  | .storeLocked n => .store .release (.locked n) 0 ret

abbrev State (Tid : Type) :=
  Thread (LockPc Tid) (UnlockPc Tid)

-- Threads that run any number of rounds with the given critical section.
def program (as : List Access) : Program Tid (Loc Tid) (Val Tid Int Int) (State Tid) := fun me =>
  rounds (rteMcslockLock me) (rteMcslockUnlock me) .storeLocked .loadNext as

def LockPc.stage : LockPc Tid → Stage Tid
  | storeLocked => .outside false false
  | storeNext => .outside false true
  | exchange => .outside true true
  | storePrevNext prev => .linking prev
  | fence | spin => .linked

def UnlockPc.stage : UnlockPc Tid → Stage Tid
  | loadNext | compareExchange => .holding
  | fence | spin => .contended
  | loadSuccessor => .signalled
  | storeLocked n => .passing n

abbrev stage : State Tid → Stage Tid :=
  Thread.stage LockPc.stage UnlockPc.stage

-- The thread is in the branch of the unlock function after a failed compare-and-swap, and has not
-- seen its successor.
def CasFailed (l : State Tid) : Prop :=
  l.pc = .unlock .fence ∨ l.pc = .unlock .spin

-- The thread is between its exchange and the compare-and-swap or hand-off that ends its round.
def InQueue (l : State Tid) : Prop :=
  match l.pc with
  | .idle | .lock .storeLocked | .lock .storeNext | .lock .exchange => False
  | _ => True

section Stage

omit [DecidableEq Tid]

variable {l : State Tid}

theorem stage_of_inCriticalSection (h : l.InCriticalSection) : stage l = .holding := by
  obtain ⟨_, _, h⟩ := h
  simp [Thread.stage, h]

theorem casFailed_iff : CasFailed l ↔ stage l = .contended := by
  obtain ⟨_ | pc | _ | pc | _, _⟩ := l <;> try cases pc
  all_goals simp [CasFailed, Thread.stage, LockPc.stage, UnlockPc.stage]

theorem inQueue_iff : InQueue l ↔ (stage l).Inside := by
  obtain ⟨_ | pc | _ | pc | _, _⟩ := l <;> try cases pc
  all_goals simp [InQueue, Thread.stage, LockPc.stage, UnlockPc.stage, Stage.Inside]

theorem linking_iff {p : Tid} : stage l = .linking p ↔ l.pc = .lock (.storePrevNext p) := by
  obtain ⟨_ | pc | _ | pc | _, _⟩ := l <;> try cases pc
  all_goals simp [Thread.stage, LockPc.stage, UnlockPc.stage]

theorem pc_ne_idle_of_inside (l : State Tid) (h : (stage l).Inside) : l.pc ≠ .idle := by
  intro hl
  simp [Thread.stage, hl, Stage.Inside] at h

end Stage

theorem implements {D : Discipline} (hD : D.rmwWaits .release = true) (as : List Access) :
    Implements D (program as) (stage : State Tid → Stage Tid) := by
  intro t l
  match l with
  | ⟨.idle, _⟩ => exact .skip rfl
  | ⟨.lock .storeLocked, _⟩ => exact .initLocked rfl
  | ⟨.lock .storeNext, _⟩ => exact .initNext rfl
  | ⟨.lock .exchange, _⟩ => exact .exchange rfl fun _ => rfl
  | ⟨.lock (.storePrevNext _), _⟩ => exact .link rfl
  | ⟨.lock .fence, _⟩ => exact .fence rfl
  | ⟨.lock .spin, _⟩ =>
    exact .spin (by simp_all [Flag.test, Thread.stage, LockPc.stage]) (by simp_all [Flag.test, Thread.stage])
  | ⟨.critical [] _, _⟩ => exact .skip rfl
  | ⟨.critical (.load :: _) _, _⟩ => exact .loadData fun _ => rfl
  | ⟨.critical (.store _ :: _) _, _⟩ => exact .storeData rfl
  | ⟨.unlock .loadNext, _⟩ => exact .inspect rfl fun _ => rfl
  | ⟨.unlock .compareExchange, _⟩ =>
    exact .cas hD (by simp [Thread.stage]) (by simp_all [Thread.stage, UnlockPc.stage])
  | ⟨.unlock .fence, _⟩ => exact .fence rfl
  | ⟨.unlock .spin, _⟩ => exact .await rfl fun _ => rfl
  | ⟨.unlock .loadSuccessor, _⟩ => exact .take rfl fun _ => rfl
  | ⟨.unlock (.storeLocked _), _⟩ => exact .pass rfl
  | ⟨.fault, _⟩ => exact .halt

-- Once the buffers of a thread are empty, it gets past every operation unless it waits in a spin loop.
theorem advances {D : Discipline} (as : List Access) :
    Advances D (program as) (stage : State Tid → Stage Tid) := by
  intro B t l m b hi hf he hl hc
  have hv (x : Loc Tid) : B.view m b x = m x := Buffering.view_nil (he x)
  match l with
  | ⟨.idle, _⟩ => exact absurd rfl hi
  | ⟨.lock .storeLocked, _⟩ => exact .store he nofun
  | ⟨.lock .storeNext, _⟩ => exact .store he nofun
  | ⟨.lock .exchange, _⟩ => exact .rmw he (by cases m .tail <;> nofun)
  | ⟨.lock (.storePrevNext _), _⟩ => exact .store he nofun
  | ⟨.lock .fence, _⟩ => exact .fence he nofun
  | ⟨.lock .spin, _⟩ =>
    have hl : m (.locked t) = 0 := by simpa [Flag.test] using hl rfl
    exact .load (by simp [hv, hl])
  | ⟨.critical [] _, _⟩ => exact .skip nofun
  | ⟨.critical (.load :: _) _, _⟩ => exact .load (by simp)
  | ⟨.critical (.store _ :: _) _, _⟩ => exact .store he (by simp)
  | ⟨.unlock .loadNext, _⟩ => exact .load (by cases B.view m b (.next t) <;> nofun)
  | ⟨.unlock .compareExchange, _⟩ => exact .rmw he (by split_ifs <;> nofun)
  | ⟨.unlock .fence, _⟩ => exact .fence he nofun
  | ⟨.unlock .spin, _⟩ =>
    have ⟨n, hn⟩ := Option.ne_none_iff_exists'.mp (hc rfl)
    exact .load (by rw [hv, hn]; nofun)
  | ⟨.unlock .loadSuccessor, _⟩ => exact .load (by cases B.view m b (.next t) <;> nofun)
  | ⟨.unlock (.storeLocked _), _⟩ => exact .store he nofun
  | ⟨.fault, _⟩ => exact absurd rfl hf

end Dpdk

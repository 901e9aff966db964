import OrderingBugs.Dpdk.Lock
import OrderingBugs.Memory.Interleaving

open Function

-- The MCS lock of DPDK as it is given to CBMC (`CBMC/Layer1/2-DPDK.c`), beside the original
-- (`Layer1/2-DPDK.c`), under interleaving.
namespace Dpdk

open Mcs

variable {Tid L : Type} [DecidableEq Tid]

-- A single round of the original lock.
def threadFunc (as : List Access) : Program Tid (Loc Tid) (Val Tid Int Int) (State Tid) := fun me l =>
  if l.rounds = 0 then program as me l else .halt

-- What the nodes of the threads contain before the threads start.
abbrev Nodes (Tid : Type) :=
  Tid → Option Tid × Int

def start (nodes : Nodes Tid) : Mem (Val Tid Int Int)
  | .tail => none
  | .next t => (nodes t).1
  | .locked t => (nodes t).2
  | .data => 0

def original (as : List Access) (nodes : Nodes Tid) :
    System (Interleaving.State (Val Tid Int Int) Tid (State Tid)) (Interleaving.Label Tid (State Tid)) :=
  Interleaving.system (threadFunc as) (start nodes) fun _ => ⟨.idle, 0⟩

namespace Cbmc

-- What a pointer can point to: the node of a thread, or the local variable `save_me` of a thread.
inductive Object (Tid : Type)
  | node (n : Tid)
  | saveMe (t : Tid)
  deriving DecidableEq

abbrev Val (Tid : Type) : Loc Tid → Type
  | .tail => Option (Object Tid)
  | .next _ => Option Tid
  | .locked _ | .data => Int

inductive LockPc (Tid : Type)
  | storeLocked
  | storeNext
  | exchange
  | storePrevNext (prev : Tid)
  | assume
  deriving DecidableEq

inductive UnlockPc (Tid : Type)
  | loadNext
  | compareAndSwap
  | assume
  | loadSuccessor
  | storeLocked (n : Tid)
  deriving DecidableEq

-- `rte_mcslock_lock`, where `__CPROVER_assume` waits for its condition
def rteMcslockLock (me : Tid) (k : LockPc Tid → L) (ret fault : L) :
    LockPc Tid → Op (Loc Tid) (Val Tid) L
  | .storeLocked => .store .plain (.locked me) 1 (k .storeNext)
  | .storeNext => .store .plain (.next me) none (k .exchange)
  | .exchange => .rmw .acquire .tail (fun _ => some (.node me)) fun
    | none => ret
    | some (.node prev) => k (.storePrevNext prev)
    | some (.saveMe _) => fault
  | .storePrevNext prev => .store .plain (.next prev) (some me) (k .assume)
  | .assume => .load .plain (.locked me) fun v => if v = 0 then ret else k .assume

-- `rte_mcslock_unlock`, which compares with the address of `save_me`
def rteMcslockUnlock (me : Tid) (k : UnlockPc Tid → L) (ret fault : L) :
    UnlockPc Tid → Op (Loc Tid) (Val Tid) L
  | .loadNext => .load .plain (.next me) fun
    | none => k .compareAndSwap
    | some _ => k .loadSuccessor
  | .compareAndSwap => .rmw .seqCst .tail (fun v => if v = some (.saveMe me) then none else v) fun v =>
    if v = some (.saveMe me) then ret else k .assume
  | .assume => .load .plain (.next me) fun
    | none => k .assume
    | some _ => k .loadSuccessor
  | .loadSuccessor => .load .plain (.next me) fun
    | none => fault
    | some n => k (.storeLocked n)
  | .storeLocked n => .store .plain (.locked n) 0 ret

abbrev State (Tid : Type) :=
  Thread (LockPc Tid) (UnlockPc Tid)

def round (as : List Access) : Program Tid (Loc Tid) (Val Tid) (State Tid)
  | _, ⟨.idle, n⟩ => .skip ⟨.lock .storeLocked, n⟩
  | me, ⟨.lock pc, n⟩ => rteMcslockLock me (⟨.lock ·, n⟩) ⟨.critical as 0, n⟩ ⟨.fault, n⟩ pc
  | _, ⟨.critical [] _, n⟩ => .skip ⟨.unlock .loadNext, n⟩
  | _, ⟨.critical (.load :: as) _, n⟩ => .load .plain .data (⟨.critical as ·, n⟩)
  | _, ⟨.critical (.store f :: as) r, n⟩ => .store .plain .data (f r) ⟨.critical as r, n⟩
  | me, ⟨.unlock pc, n⟩ => rteMcslockUnlock me (⟨.unlock ·, n⟩) ⟨.idle, n + 1⟩ ⟨.fault, n⟩ pc
  | _, ⟨.fault, _⟩ => .halt

-- `thread_func`, with the given critical section
def threadFunc (as : List Access) : Program Tid (Loc Tid) (Val Tid) (State Tid) := fun me l =>
  if l.rounds = 0 then round as me l else .halt

def start (nodes : Nodes Tid) : Mem (Val Tid)
  | .tail => none
  | .next t => (nodes t).1
  | .locked t => (nodes t).2
  | .data => 0

end Cbmc

-- The system whose runs CBMC explores.
def cbmc (as : List Access) (nodes : Nodes Tid) :
    System (Interleaving.State (Cbmc.Val Tid) Tid (Cbmc.State Tid))
      (Interleaving.Label Tid (Cbmc.State Tid)) :=
  Interleaving.system (Cbmc.threadFunc as) (Cbmc.start nodes) fun _ => ⟨.idle, 0⟩

-- Where a thread is between its calls of the lock functions.
inductive Place
  | before
  | locking
  | holding
  | unlocking
  | finished
  | faulted
  deriving DecidableEq

def place {Lk Ul : Type} (l : Thread Lk Ul) : Place :=
  match l.pc with
  | .idle => if l.rounds = 0 then .before else .finished
  | .lock _ => .locking
  | .critical .. => .holding
  | .unlock _ => .unlocking
  | .fault => .faulted

-- All threads are between the same calls, so that the same one is the holder, and the lock and the nodes
-- contain the same.
structure Agree (s : Interleaving.State (Val Tid Int Int) Tid (State Tid))
    (s' : Interleaving.State (Cbmc.Val Tid) Tid (Cbmc.State Tid)) : Prop where
  tail   : s'.mem .tail = (s.mem .tail).map .node
  next   : ∀ n, s'.mem (.next n) = s.mem (.next n)
  locked : ∀ n, s'.mem (.locked n) = s.mem (.locked n)
  place  : ∀ t, place (s'.threads t) = place (s.threads t)

-- Whoever tries to give up the lock with the compare-and-swap has a successor.
def Followed (s : Interleaving.State (Val Tid Int Int) Tid (State Tid)) :
    Interleaving.Label Tid (State Tid) → Prop
  | (t, l, _) => l.pc = .unlock .compareExchange → s.mem .tail ≠ some t

section Simulation

def toVal : (x : Loc Tid) → Val Tid Int Int x → Cbmc.Val Tid x
  | .tail, v => v.map .node
  | .next _, v => v
  | .locked _, v | .data, v => v

def toMem (m : Mem (Val Tid Int Int)) : Mem (Cbmc.Val Tid) :=
  fun x => toVal x (m x)

def toCbmc : State Tid → Cbmc.State Tid
  | ⟨.idle, n⟩ => ⟨.idle, n⟩
  | ⟨.lock .storeLocked, n⟩ => ⟨.lock .storeLocked, n⟩
  | ⟨.lock .storeNext, n⟩ => ⟨.lock .storeNext, n⟩
  | ⟨.lock .exchange, n⟩ => ⟨.lock .exchange, n⟩
  | ⟨.lock (.storePrevNext prev), n⟩ => ⟨.lock (.storePrevNext prev), n⟩
  | ⟨.lock .fence, n⟩ | ⟨.lock .spin, n⟩ => ⟨.lock .assume, n⟩
  | ⟨.critical as r, n⟩ => ⟨.critical as r, n⟩
  | ⟨.unlock .loadNext, n⟩ => ⟨.unlock .loadNext, n⟩
  | ⟨.unlock .compareExchange, n⟩ => ⟨.unlock .compareAndSwap, n⟩
  | ⟨.unlock .fence, n⟩ | ⟨.unlock .spin, n⟩ => ⟨.unlock .assume, n⟩
  | ⟨.unlock .loadSuccessor, n⟩ => ⟨.unlock .loadSuccessor, n⟩
  | ⟨.unlock (.storeLocked u), n⟩ => ⟨.unlock (.storeLocked u), n⟩
  | ⟨.fault, n⟩ => ⟨.fault, n⟩

-- A thread that waits for its successor is taken for one that has yet to look for it.
def ofCbmc : Cbmc.State Tid → State Tid
  | ⟨.idle, n⟩ => ⟨.idle, n⟩
  | ⟨.lock .storeLocked, n⟩ => ⟨.lock .storeLocked, n⟩
  | ⟨.lock .storeNext, n⟩ => ⟨.lock .storeNext, n⟩
  | ⟨.lock .exchange, n⟩ => ⟨.lock .exchange, n⟩
  | ⟨.lock (.storePrevNext prev), n⟩ => ⟨.lock (.storePrevNext prev), n⟩
  | ⟨.lock .assume, n⟩ => ⟨.lock .spin, n⟩
  | ⟨.critical as r, n⟩ => ⟨.critical as r, n⟩
  | ⟨.unlock .loadNext, n⟩ | ⟨.unlock .compareAndSwap, n⟩ | ⟨.unlock .assume, n⟩ =>
    ⟨.unlock .loadNext, n⟩
  | ⟨.unlock .loadSuccessor, n⟩ => ⟨.unlock .loadSuccessor, n⟩
  | ⟨.unlock (.storeLocked u), n⟩ => ⟨.unlock (.storeLocked u), n⟩
  | ⟨.fault, n⟩ => ⟨.fault, n⟩

omit [DecidableEq Tid] in
theorem place_toCbmc {l : State Tid} : place (toCbmc l) = place l := by
  obtain ⟨_ | (_ | _ | _ | _ | _ | _) | _ | (_ | _ | _ | _ | _ | _) | _, _⟩ := l <;> rfl

omit [DecidableEq Tid] in
theorem place_ofCbmc {l : Cbmc.State Tid} : place (ofCbmc l) = place l := by
  obtain ⟨_ | (_ | _ | _ | _ | _) | _ | (_ | _ | _ | _ | _) | _, _⟩ := l <;> rfl

variable {as : List Access} {m m' : Mem (Val Tid Int Int)} {t n : Tid} {l l' : State Tid}

-- A thread runs a single round.
theorem rounds_eq_zero (e : (threadFunc as t l).interleave m = some (m', l')) : l.rounds = 0 := by
  by_contra hn
  simp [threadFunc, hn, Op.interleave] at e

theorem toMem_update {x : Loc Tid} {v : Val Tid Int Int x} :
    toMem (update m x v) = update (toMem m) x (toVal x v) :=
  funext fun _ => apply_update toVal ..

-- The lock never points to a local variable, so that the compare-and-swap has no effect.
omit [DecidableEq Tid] in
theorem toMem_ne_saveMe : toMem m .tail ≠ some (.saveMe t) := by
  change (m .tail).map Cbmc.Object.node ≠ _
  cases m .tail <;> simp

-- What a thread of the original does, unless it gives up the lock with its compare-and-swap, is nothing or
-- a step of the other program.
theorem interleave_toCbmc (e : (threadFunc as t l).interleave m = some (m', l'))
    (hf : l.pc = .unlock .compareExchange → m .tail ≠ some t) :
    (m' = m ∧ toCbmc l' = toCbmc l) ∨
    (Cbmc.threadFunc as t (toCbmc l)).interleave (toMem m) = some (toMem m', toCbmc l') := by
  obtain ⟨pc, n⟩ := l
  obtain rfl : n = 0 := rounds_eq_zero e
  rcases pc with _ | (_ | _ | _ | prev | _ | _) | ⟨_ | ⟨_ | f, as'⟩, r⟩ | (_ | _ | _ | _ | _ | n) | _
  case fault => cases e
  all_goals cases e
  case idle | critical.nil | critical.cons.load => exact .inr rfl
  case lock.storeLocked | lock.storeNext | lock.storePrevNext | critical.cons.store |
      unlock.storeLocked =>
    refine .inr ?_
    rw [toMem_update]
    rfl
  case lock.exchange =>
    have ht : toMem m .tail = (m .tail).map .node := rfl
    refine .inr ?_
    rw [toMem_update]
    simp only [toCbmc, Cbmc.threadFunc, if_true, Cbmc.round, Cbmc.rteMcslockLock, Op.interleave, ht]
    cases m .tail <;> rfl
  case lock.fence | unlock.fence => exact .inl ⟨rfl, rfl⟩
  case lock.spin =>
    have hl : toMem m (.locked t) = m (.locked t) := rfl
    refine .inr ?_
    simp only [toCbmc, Cbmc.threadFunc, if_true, Cbmc.round, Cbmc.rteMcslockLock, Op.interleave, hl]
    by_cases hv : m (.locked t) = 0 <;> simp [hv]
  case unlock.loadNext | unlock.spin | unlock.loadSuccessor =>
    have hn : toMem m (.next t) = m (.next t) := rfl
    refine .inr ?_
    simp only [toCbmc, Cbmc.threadFunc, if_true, Cbmc.round, Cbmc.rteMcslockUnlock, Op.interleave, hn]
    cases m (.next t) <;> rfl
  case unlock.compareExchange =>
    replace hf := hf rfl
    refine .inr ?_
    simp only [toCbmc, Cbmc.threadFunc, if_true, Cbmc.round, Cbmc.rteMcslockUnlock, Op.interleave, hf,
      if_false, update_eq_self]
    simpa using ⟨fun h => absurd h toMem_ne_saveMe, toMem_ne_saveMe⟩

variable {nodes : Nodes Tid} {f : Tid → State Tid}

theorem steps_original (as : List Access) (nodes : Nodes Tid)
    (e : (threadFunc as t l).interleave m = some (m', l')) (hl : f t = l)
    (hn : l.pc ≠ .unlock .compareExchange) :
    ((original as nodes).restrict Followed).Steps ⟨m, f⟩ [(t, l, l')] ⟨m', update f t l'⟩ := by
  subst hl
  exact .single ⟨fun h => absurd h hn, .move (s := ⟨m, f⟩) e⟩

-- What a thread of the other program does, the original can do without such a compare-and-swap.
theorem steps_ofCbmc (as : List Access) (nodes : Nodes Tid) {k k' : Cbmc.State Tid}
    {m₁ : Mem (Cbmc.Val Tid)} (hk : f t = ofCbmc k)
    (e : (Cbmc.threadFunc as t k).interleave (toMem m) = some (m₁, k')) :
    ∃ ls m', toMem m' = m₁ ∧
      ((original as nodes).restrict Followed).Steps ⟨m, f⟩ ls ⟨m', update f t (ofCbmc k')⟩ := by
  have hstay (k' : Cbmc.State Tid) (h : ofCbmc k' = ofCbmc k) :
      ((original as nodes).restrict Followed).Steps ⟨m, f⟩ [] ⟨m, update f t (ofCbmc k')⟩ := by
    rw [h, ← hk, update_eq_self]
    exact .refl
  obtain ⟨pc, n⟩ := k
  obtain rfl : n = 0 := by
    by_contra hn
    simp [Cbmc.threadFunc, hn, Op.interleave] at e
  rcases pc with _ | (_ | _ | _ | prev | _) | ⟨_ | ⟨_ | g, as'⟩, r⟩ | (_ | _ | _ | _ | u) | _
  case fault => cases e
  all_goals cases e
  case idle | critical.nil | critical.cons.load =>
    exact ⟨_, m, rfl, steps_original as nodes rfl hk (by simp [ofCbmc])⟩
  case lock.storeLocked | lock.storeNext | critical.cons.store | unlock.storeLocked =>
    exact ⟨_, _, toMem_update, steps_original as nodes rfl hk (by simp [ofCbmc])⟩
  case lock.storePrevNext =>
    -- The original has a fence here.
    have e := steps_original as nodes (m := m) (f := f) rfl hk (by simp [ofCbmc])
    have e' := steps_original as nodes (m := update m (.next prev) (some t)) (t := t)
      (f := update f t ⟨.lock .fence, 0⟩) rfl (update_self ..) (by simp)
    rw [update_idem] at e'
    exact ⟨_, _, toMem_update, e.trans e'⟩
  case lock.exchange =>
    have ht : toMem m .tail = (m .tail).map Cbmc.Object.node := rfl
    have e := steps_original as nodes (m := m) (f := f) rfl hk (by simp [ofCbmc])
    rw [ht]
    cases hm : m .tail
    all_goals
      rw [hm] at e
      exact ⟨_, update m .tail (some t), toMem_update, e⟩
  case lock.assume =>
    have hl : toMem m (.locked t) = m (.locked t) := rfl
    rw [hl]
    by_cases hv : m (.locked t) = 0
    case pos =>
      have e := steps_original as nodes (m := m) (f := f) rfl hk (by simp [ofCbmc])
      simp only [hv] at e ⊢
      exact ⟨_, _, rfl, e⟩
    case neg => simpa only [hv, if_false] using ⟨_, m, rfl, hstay _ rfl⟩
  case unlock.loadNext | unlock.assume =>
    have hn : toMem m (.next t) = m (.next t) := rfl
    rw [hn]
    cases hv : m (.next t)
    case none => exact ⟨_, _, rfl, hstay _ rfl⟩
    case some =>
      have e := steps_original as nodes (m := m) (f := f) rfl hk (by simp [ofCbmc])
      rw [hv] at e
      exact ⟨_, _, rfl, e⟩
  case unlock.compareAndSwap =>
    have hs : toMem m .tail ≠ some (.saveMe t) := toMem_ne_saveMe
    simp only [if_neg hs, update_eq_self]
    exact ⟨_, _, rfl, hstay _ rfl⟩
  case unlock.loadSuccessor =>
    have hn : toMem m (.next t) = m (.next t) := rfl
    rw [hn]
    have e := steps_original as nodes (m := m) (f := f) rfl hk (by simp [ofCbmc])
    cases hv : m (.next t)
    all_goals
      rw [hv] at e
      exact ⟨_, _, rfl, e⟩

def toCbmcSimulation (as : List Access) (nodes : Nodes Tid) :
    ((original as nodes).restrict Followed).Simulation (cbmc as nodes)
      (fun _ => ([] : List Empty)) (fun _ => []) where
  Rel s s' := s'.mem = toMem s.mem ∧ s'.threads = toCbmc ∘ s.threads
  init s hs := by
    cases hs
    refine ⟨_, rfl, funext fun x => ?_, rfl⟩
    cases x <;> rfl
  step s s' a s₁ _ _ h e := by
    obtain ⟨hm, hl⟩ := h
    obtain ⟨hf, e⟩ := e
    cases e
    case move t m l e =>
      obtain ⟨rfl, h⟩ | e' := interleave_toCbmc e hf
      case inl =>
        refine ⟨[], s', .refl, rfl, hm, ?_⟩
        rw [hl, comp_update, h]
        exact (update_eq_self ..).symm
      case inr =>
        rw [← hm, ← comp_apply (f := toCbmc) (g := s.threads), ← hl] at e'
        refine ⟨_, _, .single (.move e'), rfl, rfl, ?_⟩
        rw [hl, comp_update]

def ofCbmcSimulation (as : List Access) (nodes : Nodes Tid) :
    (cbmc as nodes).Simulation ((original as nodes).restrict Followed)
      (fun _ => ([] : List Empty)) (fun _ => []) where
  Rel s' s := s'.mem = toMem s.mem ∧ s.threads = ofCbmc ∘ s'.threads
  init s' hs := by
    cases hs
    refine ⟨_, rfl, funext fun x => ?_, rfl⟩
    cases x <;> rfl
  step s' s a s₁ _ _ h e := by
    obtain ⟨hm, hl⟩ := h
    cases e
    case move t m l e =>
      rw [hm] at e
      have ⟨ls, m', hm', es⟩ := steps_ofCbmc as nodes (congrFun hl t) e
      refine ⟨ls, _, es, by simp, hm'.symm, ?_⟩
      rw [hl, comp_update]

end Simulation

section Invariant

-- The thread has exchanged the lock.
def Past (l : State Tid) : Prop :=
  match l.pc with
  | .idle => l.rounds ≠ 0
  | .lock .storeLocked | .lock .storeNext | .lock .exchange => False
  | _ => True

def Finished (l : State Tid) : Prop :=
  l.pc = .idle ∧ l.rounds ≠ 0

-- The thread has seen that it has a successor.
def Passing (l : State Tid) : Prop :=
  match l.pc with
  | .unlock .loadSuccessor | .unlock (.storeLocked _) => True
  | _ => False

-- The last thread in the queue has no successor, and whoever passes the lock on has one.
structure Chained (s : Interleaving.State (Val Tid Int Int) Tid (State Tid)) : Prop where
  exchange : ∀ t, (s.threads t).pc = .lock .exchange → s.mem (.next t) = none
  linking  : ∀ t u, (s.threads u).pc = .lock (.storePrevNext t) → Past (s.threads t)
  last     : ∀ t, s.mem .tail = some t → Past (s.threads t) ∧ ¬Finished (s.threads t) ∧
    s.mem (.next t) = none ∧ ∀ u, (s.threads u).pc ≠ .lock (.storePrevNext t)
  passing  : ∀ t, Passing (s.threads t) → s.mem (.next t) ≠ none

-- The thread has finished without a successor, and will not get one.
structure Alone (s : Interleaving.State (Val Tid Int Int) Tid (State Tid)) (t : Tid) : Prop where
  finished : Finished (s.threads t)
  next     : s.mem (.next t) = none
  tail     : s.mem .tail ≠ some t
  linking  : ∀ u, (s.threads u).pc ≠ .lock (.storePrevNext t)

variable {as : List Access} {nodes : Nodes Tid} {t : Tid} {a : Interleaving.Label Tid (State Tid)}
variable {s s' : Interleaving.State (Val Tid Int Int) Tid (State Tid)}

namespace Chained

variable {m : Mem (Val Tid Int Int)} {l : State Tid}

-- Steps that leave the pointers alone.
theorem quiet (h : Chained s) (ht : m .tail = s.mem .tail) (hm : ∀ n, m (.next n) = s.mem (.next n))
    (hp : Past (s.threads t) → Past l) (hx : l.pc ≠ .lock .exchange)
    (hk : ∀ u, l.pc ≠ .lock (.storePrevNext u)) (hf : Finished l → s.mem .tail ≠ some t)
    (hs : Passing l → s.mem (.next t) ≠ none) : Chained ⟨m, update s.threads t l⟩ := by
  obtain ⟨hx', hk', hl', hp'⟩ := h
  constructor <;> grind [update]

theorem step (h : Chained s) (e : (original as nodes).Step s a s') : Chained s' := by
  cases e
  case move t m l e =>
    generalize hs : s.threads t = l₀ at e
    obtain ⟨pc, n⟩ := l₀
    obtain rfl : n = 0 := rounds_eq_zero e
    have hpa : Passing (s.threads t) → s.mem .tail ≠ some t :=
      fun hp ht => h.passing t hp (h.last t ht).2.2.1
    rcases pc with _ | (_ | _ | _ | _ | _ | _) | ⟨_ | ⟨_ | _, _⟩, _⟩ | (_ | _ | _ | _ | _ | _) | _
    case fault => cases e
    all_goals cases e
    case lock.storeNext | lock.exchange | lock.storePrevNext =>
      obtain ⟨hx, hk, hl, hp⟩ := h
      constructor <;> grind [update, Past, Finished, Passing]
    case unlock.compareExchange =>
      by_cases ht : s.mem .tail = some t
      case pos =>
        simp only [if_pos ht]
        obtain ⟨hx, hk, hl, hp⟩ := h
        constructor <;> grind [update, Past, Passing]
      case neg =>
        simp only [if_neg ht, update_eq_self]
        exact h.quiet rfl (fun _ => rfl) (by simp [hs, Past]) (by simp) (by simp) (by simp [Finished])
          (by simp [Passing])
    case idle | lock.storeLocked | lock.fence | critical.nil | critical.cons.load | critical.cons.store |
        unlock.fence =>
      exact h.quiet rfl (by simp) (by simp [hs, Past]) (by simp) (by simp) (by simp [Finished])
        (by simp [Passing])
    case unlock.storeLocked =>
      exact h.quiet rfl (by simp) (by simp [hs, Past]) (by simp) (by simp) (fun _ => hpa (hs ▸ trivial))
        (by simp [Passing])
    case lock.spin =>
      dsimp only
      split
      all_goals
        refine h.quiet rfl (fun _ => rfl) ?_ ?_ ?_ ?_ ?_
        all_goals simp [hs, Past, Finished, Passing]
    case unlock.loadNext | unlock.spin | unlock.loadSuccessor =>
      cases hn : s.mem (.next t)
      all_goals
        refine h.quiet rfl (fun _ => rfl) ?_ ?_ ?_ ?_ ?_
        all_goals simp [hs, hn, Past, Finished, Passing]

theorem init (h : (original as nodes).Init s) : Chained s := by
  cases h
  constructor <;> simp [start, Passing]

end Chained

theorem chained_of_reachable (r : (original as nodes).Reachable s) : Chained s :=
  r.invariant (fun _ => Chained.init) fun _ _ _ _ => Chained.step

-- A thread that gives up the lock with its compare-and-swap is alone from then on.
theorem alone_of_step (r : (original as nodes).Reachable s) (e : (original as nodes).Step s a s')
    (hf : ¬Followed s a) : ∃ t, Alone s' t := by
  cases e
  case move t m l e =>
    simp only [Followed, Classical.not_imp, not_not] at hf
    obtain ⟨hc, ht⟩ := hf
    have hl := (chained_of_reachable r).last t ht
    generalize hs : s.threads t = l₀ at *
    obtain ⟨_, n⟩ := l₀
    cases hc
    obtain rfl : n = 0 := rounds_eq_zero e
    cases e
    simp only [if_pos ht]
    exact ⟨t, by simp [Finished], by simpa using hl.2.2.1, by simp, by grind [update]⟩

theorem Alone.step (h : Alone s t) (e : (original as nodes).Step s a s') : Alone s' t := by
  cases e
  case move u m l e =>
    have hu : u ≠ t := by
      rintro rfl
      exact h.finished.2 (rounds_eq_zero e)
    generalize hs : s.threads u = l₀ at e
    obtain ⟨pc, n⟩ := l₀
    obtain rfl : n = 0 := rounds_eq_zero e
    obtain ⟨hf, hn, ht, hk⟩ := h
    rcases pc with _ | (_ | _ | _ | _ | _ | _) | ⟨_ | ⟨_ | _, _⟩, _⟩ | (_ | _ | _ | _ | _ | _) | _
    case fault => cases e
    all_goals cases e
    all_goals constructor <;> grind [update]

-- A run in which some thread gave up the lock with its compare-and-swap leaves that thread alone.
theorem followed_or_exists_alone {ls : List (Interleaving.Label Tid (State Tid))}
    (r : (original as nodes).Run ls s) :
    ((original as nodes).restrict Followed).Run ls s ∨ ∃ t, Alone s t := by
  induction r
  case init h => exact .inl (.init h)
  case step s a s' r e hi =>
    obtain r' | ⟨t, h⟩ := hi
    case inr => exact .inr ⟨t, h.step e⟩
    case inl =>
      by_cases hf : Followed s a
      case pos => exact .inl (r'.step ⟨hf, e⟩)
      case neg => exact .inr (alone_of_step r.reachable e hf)

-- Otherwise a thread finishes only by passing the lock on to its successor.
theorem next_ne_none_step (hc : Chained s)
    (h : ∀ t, Finished (s.threads t) → s.mem (.next t) ≠ none)
    (e : ((original as nodes).restrict Followed).Step s a s') :
    ∀ t, Finished (s'.threads t) → s'.mem (.next t) ≠ none := by
  obtain ⟨hf, e⟩ := e
  cases e
  case move t m l e =>
    generalize hs : s.threads t = l₀ at *
    obtain ⟨pc, n⟩ := l₀
    obtain rfl : n = 0 := rounds_eq_zero e
    rcases pc with _ | (_ | _ | _ | _ | _ | _) | ⟨_ | ⟨_ | _, _⟩, _⟩ | (_ | _ | _ | _ | _ | _) | _
    case fault => cases e
    all_goals cases e
    case unlock.storeLocked =>
      have hp := hc.passing t (hs ▸ trivial)
      grind [update]
    all_goals grind [update, Finished, Followed]

theorem next_ne_none_of_finished (r : ((original as nodes).restrict Followed).Reachable s) :
    ∀ t, Finished (s.threads t) → s.mem (.next t) ≠ none := by
  apply r.invariant (I := fun s => ∀ t, Finished (s.threads t) → s.mem (.next t) ≠ none)
  case hi =>
    rintro s ⟨⟩ t h
    exact absurd rfl h.2
  case hs => exact fun _ _ _ r h e => next_ne_none_step (chained_of_reachable r.of_restrict) h e

-- Once all threads have finished, the lock of the original is free again.
theorem tail_eq_none_of_finished (r : (original as nodes).Reachable s)
    (h : ∀ t, Finished (s.threads t)) : s.mem .tail = none := by
  cases ht : s.mem .tail
  case none => rfl
  case some t => exact absurd (h t) ((chained_of_reachable r).last t ht).2.1

end Invariant

variable {as : List Access} {nodes : Nodes Tid}

theorem place_eq_finished {Lk Ul : Type} {l : Thread Lk Ul} :
    place l = .finished ↔ l.pc = .idle ∧ l.rounds ≠ 0 := by
  obtain ⟨_ | _ | _ | _ | _, n⟩ := l <;> simp [place]

-- Nothing that CBMC explores agrees with a state in which a thread has finished without a successor.
theorem Alone.not_agree {s : Interleaving.State (Val Tid Int Int) Tid (State Tid)}
    {s' : Interleaving.State (Cbmc.Val Tid) Tid (Cbmc.State Tid)} {t : Tid} (h : Alone s t)
    (r : (cbmc as nodes).Reachable s') : ¬Agree s s' := by
  intro ha
  have ⟨s₁, r₁, hm, hl⟩ := (ofCbmcSimulation as nodes).reachable r
  refine next_ne_none_of_finished r₁ t ?_ ?_
  case refine_1 =>
    refine place_eq_finished.mp ?_
    rw [hl, comp_apply, place_ofCbmc, ha.place]
    exact place_eq_finished.mpr h.finished
  case refine_2 =>
    calc s₁.mem (.next t) = s'.mem (.next t) := by rw [hm]; rfl
      _ = s.mem (.next t) := ha.next t
      _ = none := h.next

omit [DecidableEq Tid] in
theorem agree_of_mem {s : Interleaving.State (Val Tid Int Int) Tid (State Tid)}
    {s' : Interleaving.State (Cbmc.Val Tid) Tid (Cbmc.State Tid)} (hm : s'.mem = toMem s.mem)
    (hp : ∀ t, place (s'.threads t) = place (s.threads t)) : Agree s s' where
  tail := by rw [hm]; rfl
  next _ := by rw [hm]; rfl
  locked _ := by rw [hm]; rfl
  place := hp

-- CBMC explores nothing else than the original, and precisely those of its runs in which no thread gives
-- up the lock with its compare-and-swap. In the original the lock is free once all threads have finished.
theorem explores_exact (as : List Access) (nodes : Nodes Tid) :
    (∀ s', (cbmc as nodes).Reachable s' → ∃ s, (original as nodes).Reachable s ∧ Agree s s') ∧
    (∀ ls s, (original as nodes).Run ls s →
      ((∃ s', (cbmc as nodes).Reachable s' ∧ Agree s s') ↔
        ((original as nodes).restrict Followed).Run ls s)) ∧
    ∀ s, (original as nodes).Reachable s → (∀ t, Finished (s.threads t)) → s.mem .tail = none := by
  refine ⟨fun s' r => ?_, fun ls s r => ⟨?_, fun r => ?_⟩, fun s => tail_eq_none_of_finished⟩
  case refine_1 =>
    have ⟨s, r, hm, hl⟩ := (ofCbmcSimulation as nodes).reachable r
    exact ⟨s, r.of_restrict, agree_of_mem hm fun _ => by rw [hl, comp_apply, place_ofCbmc]⟩
  case refine_2 =>
    rintro ⟨s', r', ha⟩
    obtain r | ⟨t, h⟩ := followed_or_exists_alone r
    case inl => exact r
    case inr => exact absurd ha (h.not_agree r')
  case refine_3 =>
    have ⟨s', r, hm, hl⟩ := (toCbmcSimulation as nodes).reachable r.reachable
    exact ⟨s', r, agree_of_mem hm fun _ => by rw [hl, comp_apply, place_toCbmc]⟩

-- Already a single thread runs to its end only in the original.
theorem not_explored_of_release : ∃ s,
    (original [] (fun _ : Unit => (none, 0))).Reachable s ∧ Finished (s.threads ()) ∧
    ∀ s', (cbmc [] fun _ : Unit => (none, 0)).Reachable s' → ¬Agree s s' := by
  have r₀ := System.Reachable.init (S := original [] fun _ : Unit => (none, 0)) rfl
  have r₁ := r₀.step (.move (t := ()) rfl)
  have r₂ := r₁.step (.move (t := ()) rfl)
  have r₃ := r₂.step (.move (t := ()) rfl)
  have r₄ := r₃.step (.move (t := ()) rfl)
  have r₅ := r₄.step (.move (t := ()) rfl)
  have r₆ := r₅.step (.move (t := ()) rfl)
  have r₇ := r₆.step (.move (t := ()) rfl)
  have ⟨_, h⟩ := alone_of_step r₆ (.move (t := ()) rfl) fun hf => hf rfl rfl
  exact ⟨_, r₇, h.finished, fun _ => h.not_agree⟩

end Dpdk

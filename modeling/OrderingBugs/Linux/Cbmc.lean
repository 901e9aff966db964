import OrderingBugs.Mcs.Thread
import OrderingBugs.Memory.Resource

open Function

-- The queued spinlock of Linux as it is given to CBMC (`CBMC/Layer1/1-Linuxeasy.c`). All fields are plain,
-- and there is no fence.
namespace Linux.Cbmc

open Mcs

variable {Tid L : Type} [DecidableEq Tid]

inductive LockPc (Tid : Type)
  | storeNext
  | storeLocked
  | exchange
  | storePrevNext (prev : Tid)
  | assume
  deriving DecidableEq

inductive UnlockPc (Tid : Type)
  | loadNext
  | compareAndSwap
  | assume
  | loadSuccessor
  | storeLocked (n : Tid)
  deriving DecidableEq

-- `qspin_lock`, where `__CPROVER_assume` waits for its condition
def qspinLock (mynode : Tid) (k : LockPc Tid → L) (ret : L) :
    LockPc Tid → Op (Loc Tid) (Val Tid Bool Int) L
  | .storeNext => .store .plain (.next mynode) none (k .storeLocked)
  | .storeLocked => .store .plain (.locked mynode) true (k .exchange)
  | .exchange => .rmw .acquire .tail (fun _ => some mynode) fun
    | none => ret
    | some prev => k (.storePrevNext prev)
  | .storePrevNext prev => .store .plain (.next prev) (some mynode) (k .assume)
  | .assume => .load .plain (.locked mynode) fun v => if v then k .assume else ret

-- `qspin_unlock`
def qspinUnlock (mynode : Tid) (k : UnlockPc Tid → L) (ret fault : L) :
    UnlockPc Tid → Op (Loc Tid) (Val Tid Bool Int) L
  | .loadNext => .load .plain (.next mynode) fun
    | none => k .compareAndSwap
    | some _ => k .loadSuccessor
  | .compareAndSwap => .rmw .seqCst .tail (fun v => if v = some mynode then none else v) fun v =>
    if v = some mynode then ret else k .assume
  | .assume => .load .plain (.next mynode) fun
    | none => k .assume
    | some _ => k .loadSuccessor
  | .loadSuccessor => .load .plain (.next mynode) fun
    | none => fault
    | some n => k (.storeLocked n)
  | .storeLocked n => .store .plain (.locked n) false ret

abbrev State (Tid : Type) :=
  Thread (LockPc Tid) (UnlockPc Tid)

-- `cs++; assert(cs == 1); cs--;`
def criticalSection : List Access :=
  [.load, .store (· + 1), .load, .load, .store (· - 1)]

-- The thread has loaded a value other than 1 for its assertion.
def Violated (l : State Tid) : Prop :=
  match l.pc with
  | .critical [.load, .store _] r => r ≠ 1
  | _ => False

def rounds (mynode : Tid) : State Tid → Op (Loc Tid) (Val Tid Bool Int) (State Tid) :=
  Mcs.rounds (qspinLock mynode) (qspinUnlock mynode) .storeNext .loadNext criticalSection

-- `thread_func`, a single round
def threadFunc : Program Tid (Loc Tid) (Val Tid Bool Int) (State Tid) := fun mynode l =>
  if l.rounds = 0 then rounds mynode l else .halt

-- The lock before the threads start, with what the nodes on their stacks contain.
def start (nodes : Tid → Option Tid × Bool) : Mem (Val Tid Bool Int)
  | .tail => none
  | .next t => (nodes t).1
  | .locked t => (nodes t).2
  | .data => 0

abbrev TsoState (Tid : Type) [DecidableEq Tid] :=
  Machine.State (.fifo (Val Tid Bool Int)) Tid (State Tid)

def tso (nodes : Tid → Option Tid × Bool) :
    System (TsoState Tid) (Machine.Label Tid (Loc Tid) (State Tid)) :=
  Machine.system _ .flushing threadFunc (start nodes) fun _ => ⟨.idle, 0⟩

abbrev PsoState (Tid : Type) [DecidableEq Tid] [Fintype Tid] :=
  Machine.State (.perLocation (Val Tid Bool Int)) Tid (State Tid)

def pso [Fintype Tid] (nodes : Tid → Option Tid × Bool) :
    System (PsoState Tid) (Machine.Label Tid (Loc Tid) (State Tid)) :=
  Machine.system _ .flushing threadFunc (start nodes) fun _ => ⟨.idle, 0⟩

def LockPc.stage : LockPc Tid → Stage Tid
  | storeNext => .outside false false
  | storeLocked => .outside true false
  | exchange => .outside true true
  | storePrevNext prev => .linking prev
  | assume => .linked

def UnlockPc.stage : UnlockPc Tid → Stage Tid
  | loadNext | compareAndSwap => .holding
  | assume => .contended
  | loadSuccessor => .signalled
  | storeLocked n => .passing n

abbrev stage : State Tid → Stage Tid :=
  Thread.stage LockPc.stage UnlockPc.stage

theorem implements : Implements .flushing rounds (stage : State Tid → Stage Tid) := by
  intro t l
  match l with
  | ⟨.idle, _⟩ => exact .skip rfl
  | ⟨.lock .storeNext, _⟩ => exact .initNext rfl
  | ⟨.lock .storeLocked, _⟩ => exact .initLocked rfl
  | ⟨.lock .exchange, _⟩ => exact .exchange rfl fun _ => rfl
  | ⟨.lock (.storePrevNext _), _⟩ => exact .link rfl
  | ⟨.lock .assume, _⟩ =>
    exact .spin (by simp_all [Flag.test, Thread.stage, LockPc.stage]) (by simp_all [Flag.test, Thread.stage])
  | ⟨.critical [] _, _⟩ => exact .skip rfl
  | ⟨.critical (.load :: _) _, _⟩ => exact .loadData fun _ => rfl
  | ⟨.critical (.store _ :: _) _, _⟩ => exact .storeData rfl
  | ⟨.unlock .loadNext, _⟩ => exact .inspect rfl fun _ => rfl
  | ⟨.unlock .compareAndSwap, _⟩ =>
    exact .cas rfl (by simp [Thread.stage]) (by simp_all [Thread.stage, UnlockPc.stage])
  | ⟨.unlock .assume, _⟩ => exact .await rfl fun _ => rfl
  | ⟨.unlock .loadSuccessor, _⟩ => exact .take rfl fun _ => rfl
  | ⟨.unlock (.storeLocked _), _⟩ => exact .pass rfl
  | ⟨.fault, _⟩ => exact .halt

section Tso

variable {nodes : Tid → Option Tid × Bool} {s : TsoState Tid} {t : Tid} {m m' : Mem (Val Tid Bool Int)}
variable {b b' : (Buffering.fifo (Val Tid Bool Int)).Buf} {l l' : State Tid}

-- A single round is one of any number.
theorem exec_rounds (e : (threadFunc t l).exec (.fifo (Val Tid Bool Int)) .flushing m b = some (m', b', l')) :
    l.rounds = 0 ∧ (rounds t l).exec (.fifo _) .flushing m b = some (m', b', l') := by
  simp only [threadFunc] at e
  split at e
  case isTrue h => exact ⟨h, e⟩
  case isFalse => cases e

theorem valid_of_tso (r : (tso nodes).Reachable s) : Valid (stage : State Tid → Stage Tid) s := by
  have ⟨ls, r⟩ := r
  have r : (Machine.system (.fifo (Val Tid Bool Int)) .flushing rounds (start nodes) fun _ => ⟨.idle, 0⟩).Run
      ls s := by
    refine System.Run.mono (S := tso nodes) (fun _ => id) (fun s l s' _ e => ?_) r
    cases e
    case move e => exact .move (exec_rounds e).2
    case drain h => exact .drain h
  have h₀ : Ready (stage : State Tid → Stage Tid) (start nodes) fun _ => ⟨.idle, 0⟩ := ⟨rfl, fun _ => rfl⟩
  exact valid_of_reachable implements h₀
    (run_of_sealed implements h₀ (fun _ _ _ _ => sealed_of_rmwWaits fun _ => rfl) r).reachable

-- The buffer of a thread holds no hand-off before the thread has made it, and none behind it after that.
structure Passed (t : Tid) (l : State Tid) (b : (Buffering.fifo (Val Tid Bool Int)).Buf) : Prop where
  before : l.rounds = 0 → ∀ n, n ≠ t → (Buffering.fifo (Val Tid Bool Int)).pending b (.locked n) = []
  after  : l.rounds ≠ 0 → b = ([] : List (Buffering.Entry (Val Tid Bool Int))) ∨
    ∃ n, n ≠ t ∧ List.getLast? b = some ⟨.locked n, false⟩

-- How the critical section changes `cs`, with the register of the thread.
inductive Outline : List Access → Int → Int → Prop
  | loadIncr {r : Int} : Outline criticalSection r 0
  | storeIncr : Outline [.store (· + 1), .load, .load, .store (· - 1)] 0 0
  | assert {r : Int} : Outline [.load, .load, .store (· - 1)] r 1
  | loadDecr : Outline [.load, .store (· - 1)] 1 1
  | storeDecr : Outline [.store (· - 1)] 1 1
  | unlock {r : Int} : Outline [] r 0

theorem Outline.load {as : List Access} {r v : Int} (h : Outline (.load :: as) r v) : Outline as v v := by
  cases h
  case loadIncr => exact .storeIncr
  case assert => exact .loadDecr
  case loadDecr => exact .storeDecr

theorem Outline.store {f : Int → Int} {as : List Access} {r v : Int} (h : Outline (.store f :: as) r v) :
    Outline as r (f r) := by
  cases h
  case storeIncr => exact .assert
  case storeDecr => exact .unlock

theorem Outline.eq_one {f : Int → Int} {r v : Int} (h : Outline [.load, .store f] r v) : r = 1 := by
  cases h
  rfl

theorem Outline.leave {r v : Int} (h : Outline [] r v) : v = 0 := by
  cases h
  rfl

-- What the thread that has the lock finds in `cs`.
def Expects (l : State Tid) (v : Int) : Prop :=
  match l.pc with
  | .critical as r => Outline as r v
  | _ => v = 0

omit [DecidableEq Tid] in
theorem eq_zero_of_expects {v : Int} (hi : ¬(stage l).Inside) (h : Expects l v) : v = 0 := by
  obtain ⟨_ | _ | _ | _ | _, _⟩ := l
  case critical => exact absurd trivial hi
  all_goals exact h

-- A thread that has made no hand-off has the lock only in the stages of the owner.
theorem not_hasLock (hb : ∀ n, n ≠ t → (Buffering.fifo (Val Tid Bool Int)).pending b (.locked n) = [])
    (ho : ¬(stage l).Owns) : ¬HasLock stage t l b
  | .inl h => ho h
  | .inr ⟨_, n, hn, hp⟩ => hp (hb n hn)

theorem pending_push {x : Loc Tid} {v : Val Tid Bool Int x}
    (hb : ∀ n, n ≠ t → (Buffering.fifo (Val Tid Bool Int)).pending b (.locked n) = [])
    (hx : ∀ n, n ≠ t → .locked n ≠ x) (n : Tid) (hn : n ≠ t) :
    (Buffering.fifo (Val Tid Bool Int)).pending ((Buffering.fifo _).push b x v) (.locked n) = [] :=
  (Buffering.pending_push_ne (hx n hn)).trans (hb n hn)

open Machine.Resource in
theorem exec (hv : Valid stage s) (hp : Passed t (s.threads t) (s.buf t))
    (e : (threadFunc t (s.threads t)).exec (.fifo (Val Tid Bool Int)) .flushing s.mem (s.buf t) =
      some (m, b, l)) :
    Passed t l b ∧
      Change .data (HasLock stage) Expects (· = 0) t s.mem (s.buf t) (s.threads t) m b l := by
  obtain ⟨h₀, e⟩ := exec_rounds e
  have hb := hp.before h₀
  generalize hl : s.threads t = l₀ at e h₀
  match l₀ with
  | ⟨.idle, n⟩ =>
    cases e
    exact ⟨⟨fun _ => hb, absurd h₀⟩, .stay (not_hasLock hb id) (not_hasLock hb id) id rfl⟩
  | ⟨.lock .storeNext, n⟩ =>
    cases e
    have hb' := pending_push (x := .next t) (v := none) hb (by simp)
    exact ⟨⟨fun _ => hb', absurd h₀⟩, .stay (not_hasLock hb id) (not_hasLock hb' id)
      (Buffering.pending_push_ne (by simp)).trans rfl⟩
  | ⟨.lock .storeLocked, n⟩ =>
    cases e
    have hb' := pending_push (x := .locked t) (v := true) hb (by simp)
    exact ⟨⟨fun _ => hb', absurd h₀⟩, .stay (not_hasLock hb id) (not_hasLock hb' id)
      (Buffering.pending_push_ne (by simp)).trans rfl⟩
  | ⟨.lock .exchange, n⟩ =>
    obtain ⟨rfl, rfl, rfl, -⟩ := Op.exec_rmw e
    cases s.mem .tail
    case none => exact ⟨⟨fun _ => hb, absurd h₀⟩, .acquire (not_hasLock hb id) (.inl trivial) id (by simp)
      fun h => h ▸ .loadIncr⟩
    case some => exact ⟨⟨fun _ => hb, absurd h₀⟩, .stay (not_hasLock hb id) (not_hasLock hb id) id (by simp)⟩
  | ⟨.lock (.storePrevNext p), n⟩ =>
    cases e
    have hb' := pending_push (x := .next p) (v := some t) hb (by simp)
    exact ⟨⟨fun _ => hb', absurd h₀⟩, .stay (not_hasLock hb id) (not_hasLock hb' id)
      (Buffering.pending_push_ne (by simp)).trans rfl⟩
  | ⟨.lock .assume, n⟩ =>
    cases e
    dsimp only
    split
    case isTrue => exact ⟨⟨fun _ => hb, absurd h₀⟩, .stay (not_hasLock hb id) (not_hasLock hb id) id rfl⟩
    case isFalse => exact ⟨⟨fun _ => hb, absurd h₀⟩, .acquire (not_hasLock hb id) (.inl trivial) id rfl
      fun h => h ▸ .loadIncr⟩
  | ⟨.critical [] r, n⟩ =>
    cases e
    exact ⟨⟨fun _ => hb, absurd h₀⟩, .hold (.inl trivial) (.inl trivial) Outline.leave⟩
  | ⟨.critical (.load :: as) r, n⟩ =>
    cases e
    exact ⟨⟨fun _ => hb, absurd h₀⟩, .hold (.inl trivial) (.inl trivial) Outline.load⟩
  | ⟨.critical (.store f :: as) r, n⟩ =>
    cases e
    have hb' := pending_push (x := .data) (v := f r) hb (by simp)
    refine ⟨⟨fun _ => hb', absurd h₀⟩, .hold (.inl trivial) (.inl trivial) fun h => ?_⟩
    simpa [Buffering.view, Buffering.pending_push_self, Expects] using Outline.store h
  | ⟨.unlock .loadNext, n⟩ | ⟨.unlock .assume, n⟩ =>
    cases e
    cases (Buffering.fifo (Val Tid Bool Int)).view s.mem (s.buf t) (.next t)
    all_goals exact ⟨⟨fun _ => hb, absurd h₀⟩, .hold (.inl trivial) (.inl trivial) id⟩
  | ⟨.unlock .loadSuccessor, n⟩ =>
    cases e
    obtain ⟨u, hu⟩ := hv.view_next_of_signalled (t := t) (by rw [hl]; rfl)
    rw [hu]
    exact ⟨⟨fun _ => hb, absurd h₀⟩, .hold (.inl trivial) (.inl trivial) id⟩
  | ⟨.unlock .compareAndSwap, n⟩ =>
    obtain ⟨rfl, rfl, rfl, he⟩ := Op.exec_rmw e
    split
    case isTrue =>
      refine ⟨⟨fun h => absurd h (Nat.succ_ne_zero n), fun _ => .inl (Buffering.fifo_empty_iff.mp (he rfl))⟩,
        .release (.inl trivial) (not_hasLock hb id) (he rfl .data) fun h => ?_⟩
      simpa [Buffering.view_nil (he rfl .data), Expects] using h
    case isFalse =>
      exact ⟨⟨fun _ => hb, absurd h₀⟩, .hold (.inl trivial) (.inl trivial)
        (by simp [Buffering.view, Expects])⟩
  | ⟨.unlock (.storeLocked u), n⟩ =>
    cases e
    have hu := hv.ne_of_passing (t := t) (n := u) (by rw [hl]; rfl)
    refine ⟨⟨fun h => absurd h (Nat.succ_ne_zero n), fun _ => .inr ⟨u, hu, List.getLast?_concat⟩⟩,
      .hold (.inl trivial) (.inr ⟨id, u, hu, by simp [Buffering.pending_push_self]⟩) fun h => ?_⟩
    simpa [Buffering.view, Buffering.pending_push_ne, Expects] using h
  | ⟨.fault, n⟩ => cases e

theorem Passed.drain {x : Loc Tid} {v : Val Tid Bool Int x} (h : Passed t l b)
    (hb : (Buffering.fifo _).pop b x = some (v, b')) : Passed t l b' where
  before h₀ n hn := Buffering.pending_pop_eq_nil hb (h.before h₀ n hn)
  after h₀ := by
    have hb := Buffering.fifo_pop hb
    change List (Buffering.Entry (Val Tid Bool Int)) at b'
    cases b'
    case nil => exact .inl rfl
    case cons => exact .inr (by simpa [hb] using h.after h₀)

abbrev Counted (s : TsoState Tid) : Prop :=
  Machine.Resource (x := .data) (HasLock stage) Expects (· = 0) s

theorem Counted.drain {x : Loc Tid} {v : Val Tid Bool Int x} (h : Counted s) (hv : Valid stage s)
    (hp : Passed t (s.threads t) (s.buf t)) (hb : (Buffering.fifo _).pop (s.buf t) x = some (v, b)) :
    Counted ⟨update s.mem x v, update s.buf t b, s.threads⟩ := by
  refine Machine.Resource.drain h (fun _ _ => hv.owner_unique) hb (fun ho => ?_) fun ho hn => ?_
  · exact ho.imp_right fun ⟨hi, n, hn, hl⟩ => ⟨hi, n, hn, mt (Buffering.pending_pop_eq_nil hb) hl⟩
  · obtain ho | ⟨hi, n, hnt, hl⟩ := ho
    case inl => exact absurd (.inl ho) hn
    case inr =>
      have h₀ : (s.threads t).rounds ≠ 0 := fun h₀ => hl (hp.before h₀ n hnt)
      obtain rfl | ⟨u, hu, hl⟩ := (hp.drain hb).after h₀
      · exact ⟨rfl, fun _ => eq_zero_of_expects hi⟩
      · exact absurd (.inr ⟨hi, u, hu, Buffering.fifo_pending_last hl⟩) hn

theorem invariant (r : (tso nodes).Reachable s) :
    (∀ t, Passed t (s.threads t) (s.buf t)) ∧ Counted s := by
  refine r.invariant (I := fun s => (∀ t, Passed t (s.threads t) (s.buf t)) ∧ Counted s) ?init ?step
  case init =>
    intro s hs
    cases hs
    refine ⟨fun t => ⟨fun _ _ _ => rfl, absurd rfl⟩, fun t ht => absurd rfl ht, fun t ht => ?_, fun _ => rfl⟩
    exact absurd ht (not_hasLock (fun _ _ => rfl) id)
  case step =>
    intro s l s' r ⟨hp, hc⟩ e
    have hv := valid_of_tso r
    have hv' := valid_of_tso (r.step e)
    cases e
    case move t m b l e =>
      have ⟨hp', hch⟩ := exec hv (hp t) e
      exact ⟨Machine.forall_update (Q := Passed) hp' fun u _ => hp u,
        hc.change (fun _ _ => hv.owner_unique) (fun _ _ => hv'.owner_unique) hch⟩
    case drain t x v b hb =>
      exact ⟨Machine.forall_update_buf (Q := Passed) ((hp t).drain hb) fun u _ => hp u,
        hc.drain hv (hp t) hb⟩

-- With total store order, the assertion holds of every thread.
theorem not_violated_of_tso (r : (tso nodes).Reachable s) (t : Tid) : ¬Violated (s.threads t) := by
  intro h
  have hc := (invariant r).2.held t
  simp only [Violated] at h
  split at h
  case h_2 => exact h
  case h_1 hp =>
    replace hc := hc (.inl (by simp [Thread.stage, hp, Stage.Owns]))
    simp only [Expects, hp] at hc
    exact h hc.eq_one

end Tso
end Linux.Cbmc

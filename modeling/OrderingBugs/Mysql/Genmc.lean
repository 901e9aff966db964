import OrderingBugs.Memory.Mutex
import OrderingBugs.Memory.Resource
import OrderingBugs.Memory.Renaming

open Function

-- The test for a missing barrier in the mutex of MySQL (`24-mysql_genmc.c`).
namespace Mysql.Genmc

inductive Loc
  | mLockWord
  | protectedData
  deriving DecidableEq

instance : Fintype Loc where
  elems := {.mLockWord, .protectedData}
  complete x := by cases x <;> decide

abbrev Val (_ : Loc) : Type :=
  Int

inductive Pc
  | compareExchange
  | load
  | assert (data : Int)
  | storeOne
  | storeZero
  | exchange
  | failed
  deriving DecidableEq

-- A thread with the number of times it has tried to get the lock.
structure Thread where
  pc       : Pc
  attempts : Nat

variable {Tid : Type}

-- `thread_worker`, again and again. The exchange that takes the lock may fail although the lock is free.
def threadWorker (spurious : Tid → Nat → Bool) : Program Tid Loc Val Thread
  | t, ⟨.compareExchange, n⟩ =>
    .rmw .relaxed .mLockWord (fun v => if v = 0 ∧ ¬spurious t n then 1 else v) fun v =>
      if v = 0 ∧ ¬spurious t n then ⟨.load, n + 1⟩ else ⟨.compareExchange, n + 1⟩
  | _, ⟨.load, n⟩ => .load .relaxed .protectedData fun v => ⟨.assert v, n⟩
  | _, ⟨.assert data, n⟩ => .skip ⟨if data = 0 then .storeOne else .failed, n⟩
  | _, ⟨.storeOne, n⟩ => .store .relaxed .protectedData 1 ⟨.storeZero, n⟩
  | _, ⟨.storeZero, n⟩ => .store .relaxed .protectedData 0 ⟨.exchange, n⟩
  | _, ⟨.exchange, n⟩ => .rmw .relaxed .mLockWord (fun _ => 0) fun _ => ⟨.compareExchange, n⟩
  | _, ⟨.failed, _⟩ => .halt

def start : Mem Val
  | .mLockWord | .protectedData => 0

variable [DecidableEq Tid]

-- The threads on a machine on which the discipline says what an atomic exchange waits for.
def system (D : Discipline) (spurious : Tid → Nat → Bool) :
    System (Machine.State (.perLocation Val) Tid Thread) (Machine.Label Tid Loc Thread) :=
  Machine.system _ D (threadWorker spurious) start fun _ => ⟨.compareExchange, 0⟩

def Inside (l : Thread) : Prop :=
  l.pc ≠ .compareExchange

-- What `protected_data` shows to the thread that has the lock.
def Shows (l : Thread) (v : Int) : Prop :=
  match l.pc with
  | .compareExchange | .load | .storeOne | .exchange => v = 0
  | .assert data => v = 0 ∧ data = 0
  | .storeZero => v = 1
  | .failed => False

variable {spurious : Tid → Nat → Bool} {m m' : Mem Val} {l l' : Thread} {t : Tid}
variable {b b' : (Buffering.perLocation Val).Buf}

omit [DecidableEq Tid] in
theorem mutex :
    Machine.Mutex (.perLocation Val) .flushing (threadWorker spurious) .mLockWord (· ≠ 0) Inside := by
  refine ⟨fun t l m b m' b' l' e hp => ?_⟩
  obtain ⟨pc, n⟩ := l
  cases pc
  case compareExchange =>
    obtain ⟨rfl, rfl, rfl, -⟩ := Op.exec_rmw e
    refine ⟨hp, ?_⟩
    by_cases hv : m .mLockWord = 0 ∧ ¬spurious t n
    case pos => exact .inr (.inl ⟨by simp [hv], by simp [hv], by simp [Inside], by simp [hv, Inside]⟩)
    case neg =>
      simp only [if_neg hv]
      exact .inl ⟨by simp, .rfl⟩
  case load => cases e; exact ⟨hp, .inl ⟨rfl, by simp [Inside]⟩⟩
  case assert =>
    cases e
    exact ⟨hp, .inl ⟨rfl, by split <;> simp [Inside]⟩⟩
  case storeOne | storeZero =>
    cases e
    exact ⟨(Buffering.pending_push_ne (by decide)).trans hp, .inl ⟨rfl, by simp [Inside]⟩⟩
  case exchange =>
    obtain ⟨rfl, rfl, rfl, -⟩ := Op.exec_rmw e
    exact ⟨hp, .inr (.inr ⟨by simp, by simp [Inside], by simp [Inside]⟩)⟩
  case failed => cases e

omit [DecidableEq Tid] in
-- The exchange that frees the lock finds no store to the data in the buffer.
theorem change (e : (threadWorker spurious t l).exec (.perLocation Val) .flushing m b = some (m', b', l')) :
    Machine.Resource.Change .protectedData (fun _ l _ => Inside l) Shows (· = 0) t m b l m' b' l' := by
  obtain ⟨pc, n⟩ := l
  cases pc
  case compareExchange =>
    obtain ⟨rfl, rfl, rfl, -⟩ := Op.exec_rmw e
    by_cases hv : m .mLockWord = 0 ∧ ¬spurious t n
    case pos =>
      simp only [if_pos hv]
      exact .acquire (by simp [Inside]) nofun id rfl id
    case neg =>
      simp only [if_neg hv]
      exact .stay (by simp [Inside]) (by simp [Inside]) id rfl
  case load =>
    cases e
    exact .hold nofun nofun fun h => ⟨h, h⟩
  case assert =>
    cases e
    exact .hold nofun (by split <;> nofun) (by simp +contextual [Shows])
  case storeOne | storeZero =>
    cases e
    refine .hold nofun nofun fun _ => ?_
    rw [Buffering.view_push]
    rfl
  case exchange =>
    obtain ⟨rfl, rfl, rfl, he⟩ := Op.exec_rmw e
    refine .release nofun (by simp [Inside]) (he rfl _) fun h => ?_
    rw [Buffering.view_nil (he rfl _)] at h
    exact h
  case failed => cases e

theorem resource_of_reachable {s : Machine.State (.perLocation Val) Tid Thread}
    (r : (system .flushing spurious).Reachable s) :
    Machine.Resource .protectedData (fun _ l _ => Inside l) Shows (· = 0) s := by
  have hx {s} (r : (system .flushing spurious).Reachable s) := mutex.exclusive (by simp [Inside]) r
  refine r.invariant (fun s hs => ?init) fun s l s' r h e => ?step
  case init =>
    cases hs
    exact ⟨fun _ hp => absurd rfl hp, by simp [Inside], fun _ => rfl⟩
  case step =>
    have hu := (hx r).unique
    have hu' := (hx (r.step e)).unique
    cases e
    case move e => exact h.change hu hu' (change e)
    case drain hp => exact h.drain hu hp id fun hi hn => absurd hi hn

-- The test with two of the threads, as part of the test with all of them.
def twoThreads {u : Tid} (hu : t ≠ u) :
    Machine.Renaming (threadWorker fun (_ : Bool) _ => false) (threadWorker fun (_ : Tid) _ => false) where
  tid i := if i then t else u
  loc := id
  val _ := id
  thread := id
  tid_injective i j h := by
    cases i <;> cases j <;> simp_all [eq_comm]
  loc_injective := injective_id
  op i l := by
    obtain ⟨pc, n⟩ := l
    cases pc <;> constructor <;> simp

-- The assertion holds if an exchange waits for all stores of the thread. It may fail for any two threads if an
-- exchange only waits for those to its own location, since the lock can then be free before the data is 0.
theorem exchange_has_to_wait (Tid : Type) [DecidableEq Tid] :
    (∀ (spurious : Tid → Nat → Bool) s, (system .flushing spurious).Reachable s →
      ∀ t, (s.threads t).pc ≠ .failed) ∧
    ∀ t u : Tid, t ≠ u → ∃ s, (system .weak fun _ _ => false).Reachable s ∧ (s.threads u).pc = .failed := by
  refine ⟨fun spurious s r t hf => ?_, fun t u hu => ?_⟩
  · have hc := (resource_of_reachable r).held t (by simp [Inside, hf])
    simp [Shows, hf] at hc
  · have ⟨s, r, hf⟩ := Machine.exists_reachable_of_schedule (.perLocation Val) .weak
      (threadWorker fun (_ : Bool) _ => false) start (fun _ => ⟨.compareExchange, 0⟩)
      [.move true, .move true, .move true, .move true, .move true, .move true, .drain true .protectedData,
        .move false, .move false, .move false]
      (p := fun s => (s.threads false).pc = .failed) (by decide +kernel)
    have ⟨s, r, hs⟩ := (twoThreads hu).exists_reachable .weak start (fun _ => ⟨.compareExchange, 0⟩)
      (fun _ => rfl) (fun _ => rfl) r
    exact ⟨s, r, (congrArg Thread.pc (hs false)).trans hf⟩

-- One thread is inside and another one has been kept out, and in another run one that is inside fails.
theorem exchange_has_to_wait_two :
    (∃ s, (system .flushing fun (_ : Bool) _ => false).Reachable s ∧ (s.threads true).pc = .storeZero ∧
      (s.threads false).attempts = 1 ∧ ∀ t, (s.threads t).pc ≠ .failed) ∧
    ∃ s, (system .weak fun (_ : Bool) _ => false).Reachable s ∧ (s.threads false).pc = .failed := by
  have ⟨s, r, ht, hf⟩ := Machine.exists_reachable_of_schedule (.perLocation Val) .flushing
    (threadWorker fun (_ : Bool) _ => false) start (fun _ => ⟨.compareExchange, 0⟩)
    [.move true, .move true, .move true, .move true, .move false]
    (p := fun s => (s.threads true).pc = .storeZero ∧ (s.threads false).attempts = 1) (by decide +kernel)
  exact ⟨⟨s, r, ht, hf, (exchange_has_to_wait Bool).1 _ s r⟩,
    (exchange_has_to_wait Bool).2 true false (by decide)⟩

end Mysql.Genmc

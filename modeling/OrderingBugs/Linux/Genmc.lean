import OrderingBugs.Memory.Spinlock

open Function

-- The test for missing barriers in a spinlock (`1-Linuxeasy_genmc.c`), on machines with any kind of store
-- buffers. Relaxed stores are buffered, and relaxed atomic operations act on memory as soon as the stores to
-- their own location have drained.
namespace Linux.Genmc

inductive Loc
  | lockVal
  | inCs
  deriving DecidableEq

instance : Fintype Loc where
  elems := {.lockVal, .inCs}
  complete x := by cases x <;> decide

abbrev Val (_ : Loc) : Type :=
  Int

inductive Pc
  | compareExchange
  | fetchAdd
  | assert (currentCs : Int)
  | fetchSub
  | unlock
  | failed
  deriving DecidableEq

-- A thread with the number of times it has tried to get the lock.
structure Thread where
  pc       : Pc
  attempts : Nat

variable (Tid : Type) [DecidableEq Tid] (spurious : Tid → Nat → Bool)

variable {Tid} in
-- `thread_func`, again and again. The exchange may fail although the lock is free.
def threadFunc : Program Tid Loc Val Thread
  | t, ⟨.compareExchange, n⟩ =>
    .rmw .relaxed .lockVal (fun v => if v = 0 ∧ ¬spurious t n then 1 else v) fun v =>
      if v = 0 ∧ ¬spurious t n then ⟨.fetchAdd, n + 1⟩ else ⟨.compareExchange, n + 1⟩
  | _, ⟨.fetchAdd, n⟩ => .rmw .relaxed .inCs (· + 1) fun v => ⟨.assert v, n⟩
  | _, ⟨.assert currentCs, n⟩ => .skip ⟨if currentCs = 0 then .fetchSub else .failed, n⟩
  | _, ⟨.fetchSub, n⟩ => .rmw .relaxed .inCs (· - 1) fun _ => ⟨.unlock, n⟩
  | _, ⟨.unlock, n⟩ => .store .relaxed .lockVal 0 ⟨.compareExchange, n⟩
  | _, ⟨.failed, _⟩ => .halt

def start : Mem Val
  | .lockVal | .inCs => 0

variable {Tid} in
def system (B : Buffering Loc Val) : System (Machine.State B Tid Thread) (Machine.Label Tid Loc Thread) :=
  Machine.system B .weak (threadFunc spurious) start fun _ => ⟨.compareExchange, 0⟩

def Inside (l : Thread) : Prop :=
  l.pc ≠ .compareExchange

-- What `in_cs` shows while a thread has the lock.
def Counts (l : Thread) (v : Int) : Prop :=
  match l.pc with
  | .compareExchange | .fetchAdd | .unlock => v = 0
  | .assert currentCs => v = 1 ∧ currentCs = 0
  | .fetchSub => v = 1
  | .failed => False

variable {Tid spurious} {B : Buffering Loc Val} {m m' : Mem Val} {b b' : B.Buf} {l l' : Thread} {t : Tid}

omit [DecidableEq Tid] in
theorem spinlock : Machine.Spinlock B .weak (threadFunc spurious) .lockVal (· ≠ 0) Inside := by
  refine ⟨fun t l m b m' b' l' e => ?_⟩
  obtain ⟨pc, n⟩ := l
  cases pc
  case compareExchange =>
    have hn := Op.pending_of_exec_rmw e
    obtain ⟨rfl, rfl, rfl, -⟩ := Op.exec_rmw e
    by_cases hv : m .lockVal = 0 ∧ ¬spurious t n
    case pos => exact .lock hn hn (by simp [hv]) (by simp [hv]) (by simp [Inside]) (by simp [hv, Inside])
    case neg =>
      simp only [if_neg hv]
      exact .stay (by simp) rfl .rfl
  case fetchAdd | fetchSub =>
    obtain ⟨rfl, rfl, rfl, -⟩ := Op.exec_rmw e
    exact .stay (by simp) rfl (by simp [Inside])
  case assert currentCs =>
    cases e
    exact .stay .rfl rfl (by split <;> simp [Inside])
  case unlock =>
    cases e
    exact .unlock 0 rfl Buffering.pending_push_self (by simp) (by simp [Inside]) (by simp [Inside])
  case failed => cases e

omit [DecidableEq Tid] in
-- The counter belongs to the thread that has the lock.
theorem change (e : (threadFunc spurious t l).exec B .weak m b = some (m', b', l')) :
    Machine.Resource.Change .inCs (fun _ : Tid => Machine.Owns B .lockVal Inside) Counts (· = 0) t m b l
      m' b' l' := by
  obtain ⟨pc, n⟩ := l
  cases pc
  case compareExchange =>
    have hn := Op.pending_of_exec_rmw e
    obtain ⟨rfl, rfl, rfl, -⟩ := Op.exec_rmw e
    have ho : ¬Machine.Owns B .lockVal Inside ⟨.compareExchange, n⟩ b' := by simp [Machine.Owns, Inside, hn]
    by_cases hv : m .lockVal = 0 ∧ ¬spurious t n
    case pos =>
      simp only [if_pos hv]
      exact .acquire ho (.inl (by simp [Inside])) id rfl id
    case neg =>
      simp only [if_neg hv]
      exact .stay ho (by simpa [Machine.Owns, Inside] using ho) id rfl
  case fetchAdd =>
    have hn := Op.pending_of_exec_rmw e
    obtain ⟨rfl, rfl, rfl, -⟩ := Op.exec_rmw e
    exact .hold (.inl (by simp [Inside])) (.inl (by simp [Inside]))
      (by simp +contextual [Counts, Buffering.view_nil hn])
  case assert currentCs =>
    cases e
    exact .hold (.inl (by simp [Inside])) (.inl (by split <;> simp [Inside])) (by simp +contextual [Counts])
  case fetchSub =>
    have hn := Op.pending_of_exec_rmw e
    obtain ⟨rfl, rfl, rfl, -⟩ := Op.exec_rmw e
    exact .hold (.inl (by simp [Inside])) (.inl (by simp [Inside]))
      (by simp +contextual [Counts, Buffering.view_nil hn])
  case unlock =>
    cases e
    refine .hold (.inl (by simp [Inside])) (.inr (by simp [Buffering.pending_push_self])) fun h => ?_
    rw [Buffering.view_push]
    exact h
  case failed => cases e

omit [DecidableEq Tid] in
-- Nobody stores to the counter other than with an atomic operation.
theorem pending_inCs (e : (threadFunc spurious t l).exec B .weak m b = some (m', b', l'))
    (h : B.pending b .inCs = []) : B.pending b' .inCs = [] := by
  obtain ⟨pc, n⟩ := l
  cases pc
  case compareExchange | fetchAdd | fetchSub =>
    obtain ⟨-, -, rfl, -⟩ := Op.exec_rmw e
    exact h
  case assert => cases e; exact h
  case unlock => cases e; exact (Buffering.pending_push_ne (by decide)).trans h
  case failed => cases e

theorem resource_of_reachable {s : Machine.State B Tid Thread} (r : (system spurious B).Reachable s) :
    Machine.Resource .inCs (fun _ => Machine.Owns B .lockVal Inside) Counts (· = 0) s := by
  have hx {s} (r : (system spurious B).Reachable s) := spinlock.exclusive (by simp [Inside]) r
  refine r.invariant (fun s hs => ?init) fun s l s' r h e => ?step
  case init =>
    cases hs
    exact ⟨fun _ hp => absurd (B.pending_empty _) hp, by simp [Machine.Owns, Inside, B.pending_empty],
      fun _ => rfl⟩
  case step =>
    have hu := (hx r).unique
    have hu' := (hx (r.step e)).unique
    have hn := Machine.pending_eq_nil_of_reachable (fun _ _ _ _ _ _ _ => pending_inCs) r
    cases e
    case move e => exact h.change hu hu' (change e)
    case drain t x v b hp =>
      refine h.drain hu hp (fun ho => ?_) fun _ ho => ⟨Buffering.pending_pop_eq_nil hp (hn t), fun w hw => ?_⟩
      · exact ho.imp_right fun hb hn => hb (Buffering.pending_pop_eq_nil hp hn)
      · have hi : (s.threads t).pc = .compareExchange := by simpa [Inside] using not_or.mp ho |>.1
        simpa [Counts, hi] using hw

-- The assertion holds however long the stores that unlock are delayed.
theorem never_failed (spurious : Tid → Nat → Bool) (B : Buffering Loc Val)
    (s : Machine.State B Tid Thread) (r : (system spurious B).Reachable s) (t : Tid) :
    (s.threads t).pc ≠ .failed := by
  intro hf
  have hc := (resource_of_reachable r).held t (.inl (by simp [Inside, hf]))
  simp [Counts, hf] at hc

-- A thread meets its own store that unlocks, which another thread has had to wait for.
theorem never_failed_delayed :
    ∃ s, (system (fun _ _ => false) (.perLocation Val)).Reachable s ∧
      (s.threads true).pc = .compareExchange ∧ s.buf true .lockVal = [0] ∧ (s.threads false).attempts = 1 ∧
      ∀ t : Bool, (s.threads t).pc ≠ .failed := by
  have ⟨s, r, ht, hb, hf⟩ := Machine.exists_reachable_of_schedule (.perLocation Val) .weak
    (threadFunc fun (_ : Bool) _ => false) start (fun _ => ⟨.compareExchange, 0⟩)
    [.move true, .move true, .move true, .move true, .move true, .move false]
    (p := fun s => (s.threads true).pc = .compareExchange ∧ s.buf true .lockVal = [0] ∧
      (s.threads false).attempts = 1) (by decide +kernel)
  exact ⟨s, r, ht, hb, hf, never_failed _ _ s r⟩

end Linux.Genmc

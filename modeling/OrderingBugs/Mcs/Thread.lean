import OrderingBugs.Mcs.Runs

open Function

namespace Mcs

-- An access to the data in a critical section: a load to the register of the thread, or a store of a
-- function of it.
inductive Access
  | load
  | store (f : Int → Int)

inductive Pc (Lk Ul : Type)
  | idle
  | lock (pc : Lk)
  | critical (as : List Access) (r : Int)
  | unlock (pc : Ul)
  | fault

instance {pc : Pc Lk Ul} : Decidable (pc = .idle) :=
  match pc with
  | .idle => isTrue rfl
  | .lock _ | .critical .. | .unlock _ | .fault => isFalse nofun

instance [DecidableEq Lk] {pc : Pc Lk Ul} {lk : Lk} : Decidable (pc = .lock lk) :=
  match pc with
  | .lock lk' => decidable_of_iff (lk' = lk) (by simp)
  | .idle | .critical .. | .unlock _ | .fault => isFalse nofun

instance [DecidableEq Ul] {pc : Pc Lk Ul} {ul : Ul} : Decidable (pc = .unlock ul) :=
  match pc with
  | .unlock ul' => decidable_of_iff (ul' = ul) (by simp)
  | .idle | .critical .. | .lock _ | .fault => isFalse nofun

-- A thread, with the number of rounds it has completed.
structure Thread (Lk Ul : Type) where
  pc     : Pc Lk Ul
  rounds : Nat

variable {Tid F Lk Ul : Type}

-- The operations of a thread that takes the lock, runs the critical section, releases the lock and
-- starts again. The two functions are given with where they continue and return to, and for the second
-- one with what happens when it follows a null pointer.
def rounds (lock : (Lk → Thread Lk Ul) → Thread Lk Ul → Lk →
      Op (Loc Tid) (Val Tid F Int) (Thread Lk Ul))
    (unlock : (Ul → Thread Lk Ul) → Thread Lk Ul → Thread Lk Ul → Ul →
      Op (Loc Tid) (Val Tid F Int) (Thread Lk Ul))
    (lock₀ : Lk) (unlock₀ : Ul) (as : List Access) :
    Thread Lk Ul → Op (Loc Tid) (Val Tid F Int) (Thread Lk Ul)
  | ⟨.idle, n⟩ => .skip ⟨.lock lock₀, n⟩
  | ⟨.lock pc, n⟩ => lock (⟨.lock ·, n⟩) ⟨.critical as 0, n⟩ pc
  | ⟨.critical [] _, n⟩ => .skip ⟨.unlock unlock₀, n⟩
  | ⟨.critical (.load :: as) _, n⟩ => .load .plain .data (⟨.critical as ·, n⟩)
  | ⟨.critical (.store f :: as) r, n⟩ => .store .plain .data (f r) ⟨.critical as r, n⟩
  | ⟨.unlock pc, n⟩ => unlock (⟨.unlock ·, n⟩) ⟨.idle, n + 1⟩ ⟨.fault, n⟩ pc
  | ⟨.fault, _⟩ => .halt

def Thread.InCriticalSection (l : Thread Lk Ul) : Prop :=
  ∃ as r, l.pc = .critical as r

def Thread.stage (lockStage : Lk → Stage Tid) (unlockStage : Ul → Stage Tid) (l : Thread Lk Ul) :
    Stage Tid :=
  match l.pc with
  | .idle => .outside false false
  | .lock pc => lockStage pc
  | .critical _ _ => .holding
  | .unlock pc => unlockStage pc
  | .fault => .faulted

-- A failed re-check of the condition of a spin loop leaves a thread where it is.
def Recheck : Machine.Label Tid (Loc Tid) (Thread Lk Ul) → Prop
  | .move _ l l' => l' = l
  | .drain .. => False

-- The beginning of a round.
def Starts : Machine.Label Tid (Loc Tid) (Thread Lk Ul) → Prop
  | .move _ l _ => l.pc = .idle
  | .drain .. => False

variable {D : Discipline} [DecidableEq Tid] [Flag F] {B : Buffering (Loc Tid) (Val Tid F Int)}
variable {P : Program Tid (Loc Tid) (Val Tid F Int) (Thread Lk Ul)}
variable {stage : Thread Lk Ul → Stage Tid} {s : Machine.State B Tid (Thread Lk Ul)}

-- An operation that can be executed and gets the thread to another place.
def Moves (B : Buffering (Loc Tid) (Val Tid F Int)) (D : Discipline) (m : Mem (Val Tid F Int))
    (b : B.Buf) (op : Op (Loc Tid) (Val Tid F Int) (Thread Lk Ul)) (l : Thread Lk Ul) : Prop :=
  ∃ m' b' l', op.exec B D m b = some (m', b', l') ∧ l' ≠ l

-- A thread with empty buffers can always move on within a round, if the conditions of its spin loops
-- hold.
def Advances (D : Discipline) (P : Program Tid (Loc Tid) (Val Tid F Int) (Thread Lk Ul))
    (stage : Thread Lk Ul → Stage Tid) : Prop :=
  ∀ (B : Buffering (Loc Tid) (Val Tid F Int)) t l m (b : B.Buf), l.pc ≠ .idle →
    stage l ≠ .faulted → B.Empty b →
    (stage l = .linked → Flag.test (m (.locked t)) = false) →
    (stage l = .contended → m (.next t) ≠ none) → Moves B D m b (P t l) l

namespace Moves

variable {m : Mem (Val Tid F Int)} {b : B.Buf} {l k : Thread Lk Ul} {o : Order} {x : Loc Tid}

omit [Flag F]

theorem skip (hn : k ≠ l) : Moves B D m b (.skip k) l :=
  ⟨_, _, _, rfl, hn⟩

theorem load {k : Val Tid F Int x → Thread Lk Ul} (hn : k (B.view m b x) ≠ l) :
    Moves B D m b (.load o x k) l :=
  ⟨_, _, _, rfl, hn⟩

theorem store {v : Val Tid F Int x} (he : B.Empty b) (hn : k ≠ l) :
    Moves B D m b (.store o x v k) l :=
  have ⟨m', b', e⟩ := Op.exec_store_of_empty he o v k
  ⟨m', b', k, e, hn⟩

theorem rmw {f : Val Tid F Int x → Val Tid F Int x} {k : Val Tid F Int x → Thread Lk Ul}
    (he : B.Empty b) (hn : k (m x) ≠ l) : Moves B D m b (.rmw o x f k) l :=
  ⟨_, _, _, Op.exec_rmw_of_empty he o f k, hn⟩

theorem fence (he : B.Empty b) (hn : k ≠ l) : Moves B D m b (.fence o k) l :=
  ⟨_, _, _, Op.exec_fence_of_empty he o k, hn⟩

end Moves

-- If not all threads are idle with empty buffers, then something happens next, be it that no thread
-- starts a round or repeats a check in vain.
theorem exists_useful (ha : Advances D P stage) (hv : Valid stage s)
    (hi : ∀ l : Thread Lk Ul, (stage l).Inside → l.pc ≠ .idle)
    (h : ¬((∀ t, (s.threads t).pc = .idle) ∧ s.Flushed)) :
    ∃ l s', Machine.Step D P s l s' ∧ ¬Recheck l ∧ ¬Starts l := by
  by_cases he : s.Flushed
  case neg =>
    have ⟨t, x, s', e⟩ := Machine.exists_drain_of_not_flushed (D := D) (P := P) he
    exact ⟨_, s', e, id, id⟩
  case pos =>
    obtain ⟨t, ht⟩ : ∃ t, (s.threads t).pc ≠ .idle := by
      by_contra hn
      exact h ⟨by simpa using hn, he⟩
    suffices ∃ u, (s.threads u).pc ≠ .idle ∧
        (stage (s.threads u) = .linked → Flag.test (s.mem (.locked u)) = false) ∧
        (stage (s.threads u) = .contended → s.mem (.next u) ≠ none) by
      obtain ⟨u, hu, hl, hc⟩ := this
      have ⟨_, _, _, e, hne⟩ := ha B u _ s.mem (s.buf u) hu (hv.not_faulted u) (he u) hl hc
      exact ⟨_, _, .move e, hne, hu⟩
    by_cases hs : (stage (s.threads t)).Inside
    case pos =>
      have ⟨u, hu, hl, hc⟩ := hv.exists_inside he hs
      exact ⟨u, hi _ hu, hl, hc⟩
    case neg => exact ⟨t, ht, fun hl => (hs (hl ▸ trivial)).elim, fun hc => (hs (hc ▸ trivial)).elim⟩

end Mcs

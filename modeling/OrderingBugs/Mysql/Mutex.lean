import OrderingBugs.Memory.Termination

open Function

-- The mutex of MySQL (`17-mysql.c`). The lock word is an `_Atomic int`, so all accesses to it are
-- sequentially consistent.
namespace Mysql.Mutex

inductive Loc
  | mLockWord
  deriving DecidableEq

abbrev Val : Loc → Type := fun _ => Int

def mutexStateUnlocked : Int := 0
def mutexStateLocked : Int := 1
def mutexStateWaiters : Int := 2

inductive Pc
  | tryLock
  | notLocked
  | acquired
  | loadState
  | storeUnlocked
  | unlock
  | signal
  | released
  deriving DecidableEq

-- `worker`: `enter` ignores that `try_lock` has failed, and `myExit` returns early if there were no waiters.
def worker : Pc → Op Loc Val Pc
  | .tryLock => .rmw .seqCst .mLockWord
    (fun v => if v = mutexStateUnlocked then mutexStateLocked else v)
    fun v => if v = mutexStateUnlocked then .acquired else .notLocked
  | .notLocked => .skip .acquired
  | .acquired => .skip .loadState
  | .loadState => .load .seqCst .mLockWord fun v => if v = mutexStateWaiters then .storeUnlocked else .unlock
  | .storeUnlocked => .store .seqCst .mLockWord mutexStateUnlocked .signal
  | .unlock => .rmw .seqCst .mLockWord (fun _ => mutexStateUnlocked)
    fun v => if v = mutexStateLocked then .released else .signal
  | .signal => .skip .released
  | .released => .halt

-- The thread has tried to lock the mutex and not unlocked it yet.
def Pc.Inside : Pc → Prop
  | notLocked | acquired | loadState | storeUnlocked | unlock => True
  | tryLock | signal | released => False

-- The thread has returned from `enter`.
def Pc.Entered : Pc → Prop
  | acquired | loadState | storeUnlocked | unlock => True
  | tryLock | notLocked | signal | released => False

instance : DecidablePred Pc.Inside := fun pc =>
  match pc with
  | .notLocked | .acquired | .loadState | .storeUnlocked | .unlock => isTrue trivial
  | .tryLock | .signal | .released => isFalse id

variable {Tid : Type} [DecidableEq Tid]

abbrev State (Tid : Type) :=
  Interleaving.State Val Tid Pc

abbrev Label (Tid : Type) :=
  Interleaving.Label Tid Pc

-- Any number of threads that run `worker`.
def mutex (Tid : Type) [DecidableEq Tid] : System (State Tid) (Label Tid) :=
  Interleaving.system (fun _ => worker) (fun _ => mutexStateUnlocked) fun _ => .tryLock

-- `try_lock` returns false.
def Fails (l : Label Tid) : Prop :=
  l.2 = (.tryLock, .notLocked)

-- `myExit` gets to its call of `signal`.
def Signals (l : Label Tid) : Prop :=
  l.2.2 = .signal

instance : DecidablePred (@Fails Tid) :=
  fun _ => inferInstanceAs (Decidable (_ = _))

instance : DecidablePred (@Signals Tid) :=
  fun _ => inferInstanceAs (Decidable (_ = _))

def failures (ls : List (Label Tid)) : Nat :=
  ls.countP (Fails ·)

def signals (ls : List (Label Tid)) : Nat :=
  ls.countP (Signals ·)

-- Two threads are between `enter` and the end of `myExit`.
def Overlaps (s : State Tid) : Prop :=
  ∃ t u, t ≠ u ∧ (s.threads t).Entered ∧ (s.threads u).Entered

-- What one operation of a thread does.
theorem worker_cases {m m' : Mem Val} {pc pc' : Pc} (hw : m .mLockWord ≠ mutexStateWaiters)
    (hs : pc ≠ .storeUnlocked) (e : (worker pc).interleave m = some (m', pc')) :
    (pc = .tryLock ∧ pc' = .acquired ∧ m .mLockWord = mutexStateUnlocked ∧
      m' .mLockWord = mutexStateLocked) ∨
    (pc = .tryLock ∧ pc' = .notLocked ∧ m .mLockWord ≠ mutexStateUnlocked ∧ m' = m) ∨
    (pc = .unlock ∧ pc' = .released ∧ m .mLockWord = mutexStateLocked ∧
      m' .mLockWord = mutexStateUnlocked) ∨
    (pc = .unlock ∧ pc' = .signal ∧ m .mLockWord ≠ mutexStateLocked ∧
      m' .mLockWord = mutexStateUnlocked) ∨
    (pc.Inside ∧ pc'.Entered ∧ pc' ≠ .storeUnlocked ∧ m' = m) ∨
    (pc = .signal ∧ pc' = .released ∧ m' = m) := by
  cases pc <;> cases e
  case tryLock =>
    by_cases h : m .mLockWord = mutexStateUnlocked
    · simp [h]
    · exact .inr (.inl ⟨rfl, by simp [h], h, by simp [h]⟩)
  case unlock =>
    by_cases h : m .mLockWord = mutexStateLocked <;> simp [h]
  case loadState => simp [hw, Pc.Inside, Pc.Entered]
  case storeUnlocked => exact absurd rfl hs
  case notLocked | acquired => simp [Pc.Inside, Pc.Entered]
  case signal => simp

-- No thread ever waits for the mutex, and one that has locked it is still there.
structure Sound (s : State Tid) : Prop where
  word  : s.mem .mLockWord = mutexStateUnlocked ∨ s.mem .mLockWord = mutexStateLocked
  pc    : ∀ t, s.threads t ≠ .storeUnlocked
  owner : s.mem .mLockWord = mutexStateLocked → ∃ t, (s.threads t).Entered

variable {s s' : State Tid} {l : Label Tid} {ls : List (Label Tid)}

omit [DecidableEq Tid] in
theorem Sound.not_waiters (h : Sound s) : s.mem .mLockWord ≠ mutexStateWaiters := by
  rcases h.word with h | h <;> rw [h] <;> decide

omit [DecidableEq Tid] in
theorem Pc.Entered.inside {pc : Pc} (h : pc.Entered) : pc.Inside := by
  cases pc <;> trivial

theorem Sound.step (h : Sound s) (e : (mutex Tid).Step s l s') : Sound s' := by
  cases e
  case move t m pc e =>
    have hpc (hn : pc ≠ .storeUnlocked) (u : Tid) : update s.threads t pc u ≠ .storeUnlocked := by
      by_cases hu : u = t
      case pos => subst hu; simpa using hn
      case neg => simpa [hu] using h.pc u
    have hm {u : Tid} (hu : u ≠ t) (ho : (s.threads u).Entered) :
        ∃ u, (update s.threads t pc u).Entered :=
      ⟨u, by simpa [hu] using ho⟩
    have ht (ho : pc.Entered) : ∃ u, (update s.threads t pc u).Entered := ⟨t, by simpa using ho⟩
    rcases worker_cases h.not_waiters (h.pc t) e with ⟨_, rfl, _, hw⟩ | ⟨hl, rfl, _, rfl⟩ |
      ⟨_, rfl, _, hw⟩ | ⟨_, rfl, _, hw⟩ | ⟨hi, ho, hn, rfl⟩ | ⟨hl, rfl, rfl⟩
    · exact ⟨.inr hw, hpc nofun, fun _ => ht trivial⟩
    · refine ⟨h.word, hpc nofun, fun hw => ?_⟩
      obtain ⟨u, hu⟩ := h.owner hw
      refine hm ?_ hu
      rintro rfl
      simp [hl, Pc.Entered] at hu
    · exact ⟨.inl hw, hpc nofun, fun h => by simp [hw, mutexStateLocked, mutexStateUnlocked] at h⟩
    · exact ⟨.inl hw, hpc nofun, fun h => by simp [hw, mutexStateLocked, mutexStateUnlocked] at h⟩
    · exact ⟨h.word, hpc hn, fun _ => ht ho⟩
    · refine ⟨h.word, hpc nofun, fun hw => ?_⟩
      obtain ⟨u, hu⟩ := h.owner hw
      refine hm ?_ hu
      rintro rfl
      simp [hl, Pc.Entered] at hu

theorem sound_of_reachable (r : (mutex Tid).Reachable s) : Sound s := by
  refine r.invariant (I := Sound) (fun s h => ?_) fun _ _ _ _ => Sound.step
  cases h
  exact ⟨.inl rfl, by simp, by simp [mutexStateLocked, mutexStateUnlocked]⟩

section Balance

variable [Fintype Tid]

-- The threads between their attempt to lock the mutex and their unlocking of it.
def inside (s : State Tid) : Nat :=
  ∑ t, if (s.threads t).Inside then 1 else 0

theorem inside_update {m : Mem Val} {t : Tid} {pc : Pc} :
    inside ⟨m, update s.threads t pc⟩ + (if (s.threads t).Inside then 1 else 0) =
      inside s + if pc.Inside then 1 else 0 := by
  have hs (f : Tid → Pc) : (∑ u, if (f u).Inside then 1 else 0) =
      (if (f t).Inside then 1 else 0) + ∑ u ∈ Finset.univ.erase t, if (f u).Inside then 1 else 0 :=
    (Finset.add_sum_erase _ _ (Finset.mem_univ t)).symm
  have he : (∑ u ∈ Finset.univ.erase t, if (update s.threads t pc u).Inside then 1 else 0) =
      ∑ u ∈ Finset.univ.erase t, if (s.threads u).Inside then 1 else 0 :=
    Finset.sum_congr rfl fun u hu => by rw [update_of_ne (Finset.ne_of_mem_erase hu)]
  simp only [inside, hs, he, update_self]
  omega

omit [DecidableEq Tid] [Fintype Tid] in
-- Both sides of the balance change alike.
theorem worker_balance {m m' : Mem Val} {pc pc' : Pc}
    (hw : m .mLockWord = mutexStateUnlocked ∨ m .mLockWord = mutexStateLocked)
    (hs : pc ≠ .storeUnlocked) (e : (worker pc).interleave m = some (m', pc')) :
    ((if pc' = .signal then 1 else 0) + (if pc'.Inside then 1 else 0) + m .mLockWord : Int) =
      (if (pc, pc') = (.tryLock, .notLocked) then 1 else 0) + (if pc.Inside then 1 else 0) +
        m' .mLockWord := by
  cases pc <;> cases e
  case storeUnlocked => exact absurd rfl hs
  case loadState =>
    rcases hw with hw | hw <;> simp [hw, Pc.Inside, mutexStateLocked, mutexStateUnlocked, mutexStateWaiters]
  case tryLock | unlock =>
    rcases hw with hw | hw <;> simp [hw, Pc.Inside, mutexStateLocked, mutexStateUnlocked]
  all_goals simp [Pc.Inside]

-- Every call of `signal` is due to an attempt that has failed.
theorem balance (r : (mutex Tid).Run ls s) :
    (signals ls : Int) + inside s = failures ls + s.mem .mLockWord := by
  induction r
  case init h =>
    cases h
    simp [signals, failures, inside, Pc.Inside, mutexStateUnlocked]
  case step ls s l s' r e hi =>
    have h := sound_of_reachable r.reachable
    cases e
    case move t m pc e =>
      have hb := worker_balance h.word (h.pc t) e
      have hn := @inside_update _ _ s _ m t pc
      simp only [signals, failures, List.countP_append, List.countP_singleton, decide_eq_true_eq] at hi ⊢
      simp only [Fails, Signals] at hi ⊢
      grind

end Balance

-- The branch for waiters is dead, and `signal` is called for attempts that have failed: once all threads
-- are done, just as often.
theorem signals_eq_failures [Fintype Tid] (r : (mutex Tid).Run ls s) :
    (signals ls : Int) + inside s = failures ls + s.mem .mLockWord ∧
    (∀ t, s.threads t ≠ .storeUnlocked) ∧
    ((∀ t, s.threads t = .released) → s.mem .mLockWord = mutexStateUnlocked ∧ signals ls = failures ls) := by
  have h := sound_of_reachable r.reachable
  refine ⟨balance r, h.pc, fun hr => ?_⟩
  have hw : s.mem .mLockWord = mutexStateUnlocked := by
    refine h.word.resolve_right fun hw => ?_
    obtain ⟨t, ht⟩ := h.owner hw
    simp [hr t, Pc.Entered] at ht
  refine ⟨hw, ?_⟩
  have hb := balance r
  simp only [inside, hr, Pc.Inside, if_false, Finset.sum_const_zero, hw, mutexStateUnlocked] at hb
  omega

-- The second thread gets past the lock that the first one has taken, and finds it released by that one.
theorem signals_eq_failures_overlap :
    ∃ (ls : List (Label (Fin 2))) (s : _), (mutex (Fin 2)).Run ls s ∧ (∀ t, s.threads t = .released) ∧
      failures ls = 1 ∧ signals ls = failures ls := by
  have r := System.Run.init (S := mutex (Fin 2)) rfl
  have r := r.step (.move (t := 0) rfl)
  have r := r.step (.move (t := 1) rfl)
  have r := r.step (.move (t := 0) rfl)
  have r := r.step (.move (t := 0) rfl)
  have r := r.step (.move (t := 1) rfl)
  have r := r.step (.move (t := 1) rfl)
  have r := r.step (.move (t := 1) rfl)
  have r := r.step (.move (t := 0) rfl)
  have r := r.step (.move (t := 1) rfl)
  have r := r.step (.move (t := 1) rfl)
  exact ⟨_, _, r, by decide, rfl, ((signals_eq_failures r).2.2 (by decide)).2⟩

section Exact

-- As long as no attempt fails, the lock word is set exactly while a thread is inside, and only one is.
structure Exclusive (s : State Tid) : Prop where
  sound  : Sound s
  free   : s.mem .mLockWord = mutexStateUnlocked → ∀ t, ¬(s.threads t).Inside
  unique : ∀ t u, (s.threads t).Inside → (s.threads u).Inside → t = u

theorem Exclusive.step (h : Exclusive s) (hf : ¬Fails l) (e : (mutex Tid).Step s l s') : Exclusive s' := by
  have hs := h.sound.step e
  obtain ⟨h, hw₀, hu⟩ := h
  cases e
  case move t m pc e =>
    have keep (hi : pc.Inside → (s.threads t).Inside) (u : Tid)
        (hu : (update s.threads t pc u).Inside) : (s.threads u).Inside := by
      by_cases hut : u = t
      case pos => subst hut; exact hi (by simpa using hu)
      case neg => simpa [hut] using hu
    rcases worker_cases h.not_waiters (h.pc t) e with ⟨hl, rfl, hw, hw'⟩ | ⟨hl, rfl, _, _⟩ |
      ⟨hl, rfl, hw, hw'⟩ | ⟨hl, rfl, hw, hw'⟩ | ⟨hb, ho, -, rfl⟩ | ⟨hl, rfl, rfl⟩
    · refine ⟨hs, fun h => absurd (hw'.symm.trans h) (by decide), fun u v hu hv => ?_⟩
      have := hw₀ hw
      grind [update]
    · exact absurd (by simp [Fails, hl]) hf
    · have ht : (s.threads t).Inside := hl ▸ trivial
      have hn (u : Tid) : ¬(update s.threads t .released u).Inside := by
        intro hi
        by_cases hut : u = t
        case pos => simp [hut, Pc.Inside] at hi
        case neg => exact hut (hu u t (by simpa [hut] using hi) ht)
      exact ⟨hs, fun _ => hn, fun u _ hi => absurd hi (hn u)⟩
    · exact absurd (hl ▸ trivial) (hw₀ (h.word.resolve_right hw) t)
    · have hk := keep fun _ => hb
      exact ⟨hs, fun hw u hi => hw₀ hw u (hk u hi), fun u v hi hj => hu u v (hk u hi) (hk v hj)⟩
    · have hk := keep False.elim
      exact ⟨hs, fun hw u hi => hw₀ hw u (hk u hi), fun u v hi hj => hu u v (hk u hi) (hk v hj)⟩

-- Two threads get past `enter` together exactly if an attempt has failed.
theorem overlaps_exact : (mutex Tid).Exact (fun _ l => ¬Fails l) Overlaps where
  safe ls s := by
    refine System.safe_of_invariant (S := mutex Tid) (I := Exclusive) (fun s h => ?_)
      (fun s l s' h hf e => h.step hf e) fun s h ho => ?_
    · have hs := sound_of_reachable (.init h)
      cases h
      exact ⟨hs, fun _ _ => id, fun _ _ => False.elim⟩
    · obtain ⟨t, u, hn, ht, hu⟩ := ho
      exact hn (h.unique t u ht.inside hu.inside)
  sharp s l s' r e hf := by
    have h := sound_of_reachable r
    cases e
    case move t m pc e =>
      obtain ⟨hl, rfl⟩ := Prod.mk.inj (not_not.mp hf)
      have hw : s.mem .mLockWord = mutexStateLocked := by
        refine h.word.resolve_left fun hw => ?_
        have hl : s.threads t = .tryLock := hl
        rw [hl] at e
        simp [worker, Op.interleave, hw] at e
      obtain ⟨u, hu⟩ := h.owner hw
      have hut : u ≠ t := by
        rintro rfl
        have hl : s.threads u = .tryLock := hl
        simp [hl, Pc.Entered] at hu
      refine .step (.move (t := t) (m := m) (l := .acquired) ?_) (.refl ⟨t, u, hut.symm, ?_, ?_⟩)
      · simp [worker, Op.interleave]
      · simp [Pc.Entered]
      · simpa [hut] using hu

end Exact
end Mysql.Mutex

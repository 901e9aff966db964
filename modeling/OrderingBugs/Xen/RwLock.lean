import OrderingBugs.Transition.Exact
import OrderingBugs.Memory.Interleaving
import Mathlib.Algebra.Group.Int.Defs

open Function

-- The write side of the rw-lock of Xen (`8-CVE-2020-11739-Xen.c`).
namespace Xen.RwLock

inductive Loc
  | cnts
  deriving DecidableEq

abbrev Val (_ : Loc) : Type :=
  Int

def qwLocked : Int := 0xff
def qrBias : Int := 2 ^ 8

inductive LockPc
  | load
  | compareExchange (expected : Int)
  deriving DecidableEq

-- After `write_lock`, a thread goes on whether or not the exchange has succeeded.
inductive Pc
  | lock (pc : LockPc)
  | unlock (succeeded : Bool)
  deriving DecidableEq

variable {L : Type}

-- `write_lock`
def writeLock (k : LockPc → L) (ret : Bool → L) : LockPc → Op Loc Val L
  | .load => .load .plain .cnts fun v => k (.compareExchange v)
  | .compareExchange expected =>
    .rmw .acquire .cnts (fun v => if v = expected then qwLocked else v) fun v => ret (v = expected)

-- `write_unlock`
def writeUnlock (ret : L) : Op Loc Val L :=
  .store .plain .cnts 0 ret

-- A thread that takes and releases the lock, again and again.
def thread : Pc → Op Loc Val Pc
  | .lock pc => writeLock .lock .unlock pc
  | .unlock _ => writeUnlock (.lock .load)

abbrev State (Tid : Type) :=
  Interleaving.State Val Tid Pc

abbrev Label (Tid : Type) :=
  Interleaving.Label Tid Pc

variable (Tid : Type) [DecidableEq Tid]

-- The threads, and a number of readers that have the lock all the time.
def system (readers : Nat) : System (State Tid) (Label Tid) :=
  Interleaving.system (fun _ => thread) (fun _ => readers * qrBias) fun _ => .lock .load

variable {Tid}

-- A write lock is only obtained while the lock is free, by one thread at a time, and there are no readers
-- whose counts this thread could erase when it gives up the lock.
structure Exclusive (readers : Nat) (ls : List (Label Tid)) (s : State Tid) : Prop where
  free    : ∀ t e, (t, .lock (.compareExchange e), .unlock true) ∈ ls → e = 0
  unique  : ∀ t u, s.threads t = .unlock true → s.threads u = .unlock true → t = u
  readers : ∀ t, s.threads t = .unlock true → readers = 0 ∧ s.mem .cnts / qrBias = 0

-- An exchange does not replace anything but 0, and a thread whose exchange has failed does not unlock what
-- another thread has locked.
def Careful (s : State Tid) (l : Label Tid) : Prop :=
  (∀ e, l.2.1 = .lock (.compareExchange e) → s.mem .cnts = e → e = 0) ∧
  (l.2.1 = .unlock false → ∀ u, s.threads u ≠ .unlock true)

variable {readers : Nat} {ls : List (Label Tid)} {s s' : State Tid} {l : Label Tid}

-- While there are readers, no exchange gets executed: the first one would replace their counts.
structure Shared (readers : Nat) (s : State Tid) : Prop where
  counts  : s.mem .cnts = readers * qrBias
  waiting : ∀ t, s.threads t = .lock .load ∨ s.threads t = .lock (.compareExchange (readers * qrBias))

theorem Shared.step (h : Shared readers s) (hr : readers ≠ 0) (hc : Careful s l)
    (e : (system Tid readers).Step s l s') : Shared readers s' := by
  cases e
  case move t m k e =>
    obtain ht | ht := h.waiting t <;> rw [ht] at e
    case inl =>
      cases e
      refine ⟨h.counts, (forall_update_iff s.threads fun _ l => l = _ ∨ l = _).mpr ⟨?_, fun u _ => h.waiting u⟩⟩
      exact .inr (by rw [h.counts])
    case inr =>
      have hz := hc.1 _ ht h.counts
      simp only [qrBias] at hz
      omega

-- A thread that has obtained the lock has it to itself, and the lock shows it.
structure Locked (s : State Tid) : Prop where
  locked : ∀ t, s.threads t = .unlock true → s.mem .cnts = qwLocked
  unique : ∀ t u, s.threads t = .unlock true → s.threads u = .unlock true → t = u

namespace Locked

-- The other threads stay out while one gets on with the lock as it is.
theorem update {t : Tid} {m : Mem Val} {k : Pc} (h : Locked s)
    (hk : k = .unlock true → m .cnts = qwLocked ∧ ∀ u, s.threads u ≠ .unlock true)
    (hm : ∀ u, u ≠ t → s.threads u = .unlock true → m .cnts = qwLocked) :
    Locked ⟨m, update s.threads t k⟩ := by
  refine ⟨(forall_update_iff s.threads fun _ l => l = .unlock true → m .cnts = qwLocked).mpr
    ⟨fun h => (hk h).1, hm⟩, fun u w hu hw => ?_⟩
  by_cases hut : u = t <;> by_cases hwt : w = t
  · exact hut.trans hwt.symm
  · exact absurd (by simpa [hwt] using hw) ((hk (by simpa [hut] using hu)).2 w)
  · exact absurd (by simpa [hut] using hu) ((hk (by simpa [hwt] using hw)).2 u)
  · exact h.unique u w (by simpa [hut] using hu) (by simpa [hwt] using hw)

theorem step (h : Locked s) (hc : Careful s l) (e : (system Tid readers).Step s l s') : Locked s' := by
  cases e
  case move t m k e =>
    generalize hpc : s.threads t = pc at e hc
    obtain (_ | x) | (_ | _) := pc
    case lock.load =>
      cases e
      exact h.update nofun fun u _ => h.locked u
    case lock.compareExchange =>
      cases e
      by_cases hx : s.mem .cnts = x
      case pos =>
        -- The lock is free, so nobody has it.
        have hz : s.mem .cnts = 0 := hx.trans (hc.1 x rfl hx)
        have hn (u) (hu : s.threads u = .unlock true) : False := by
          have := h.locked u hu
          simp [hz, qwLocked] at this
        exact h.update (fun _ => ⟨by simp [hx], hn⟩) fun u _ hu => (hn u hu).elim
      case neg =>
        refine h.update (fun hk => by simp [hx] at hk) fun u _ hu => ?_
        simpa [hx] using h.locked u hu
    case unlock.true =>
      cases e
      exact h.update nofun fun u hut hu => absurd (h.unique u t hu hpc) hut
    case unlock.false =>
      cases e
      exact h.update nofun fun u _ hu => absurd hu (hc.2 rfl u)

omit [DecidableEq Tid] in
theorem exclusive (h : Locked s) (hs : readers ≠ 0 → Shared readers s)
    (hf : ∀ t e, (t, .lock (.compareExchange e), .unlock true) ∈ ls → e = 0) : Exclusive readers ls s where
  free := hf
  unique := h.unique
  readers t ht := by
    refine ⟨?_, by rw [h.locked t ht]; decide⟩
    by_contra hr
    simpa [ht] using (hs hr).waiting t

end Locked

-- A thread that finds the lock free obtains it.
theorem steps_of_free {t : Tid} (ht : s.threads t = .lock .load) (hm : s.mem .cnts = 0) :
    ∃ ls m, (system Tid readers).Steps s ls ⟨m, update s.threads t (.unlock true)⟩ := by
  have load : (thread (s.threads t)).interleave s.mem = some (s.mem, .lock (.compareExchange 0)) := by
    simp [ht, thread, writeLock, Op.interleave, hm]
  let s₁ : State Tid := ⟨s.mem, update s.threads t (.lock (.compareExchange 0))⟩
  have exchange : (thread (s₁.threads t)).interleave s₁.mem =
      some (update s.mem .cnts qwLocked, .unlock true) := by
    simp [s₁, thread, writeLock, Op.interleave, hm]
  have es : (system Tid readers).Steps s _ _ := .step (.move load) (.single (.move exchange))
  exact ⟨_, _, by simpa [s₁] using es⟩

-- An exchange that succeeds has found what it expects.
theorem cnts_of_succeeded {t : Tid} {e : Int}
    (h : (system Tid readers).Step s (t, .lock (.compareExchange e), .unlock true) s') :
    s.mem .cnts = e := by
  generalize hl : (t, Pc.lock (.compareExchange e), Pc.unlock true) = l at h
  cases h
  case move t m k h =>
    obtain ⟨rfl, hpc, rfl⟩ : _ = t ∧ _ = s.threads t ∧ _ = k := by simpa using hl
    rw [← hpc] at h
    simpa [thread, writeLock, Op.interleave] using (Prod.mk.inj (Option.some.inj h)).2

theorem careful_exactRuns (Tid : Type) [DecidableEq Tid] (readers : Nat) :
    (system Tid readers).ExactRuns Careful (Exclusive readers) := by
  refine ⟨fun ls s r => ?safe, fun ls s l s' _ e hc => ?sharp⟩
  case safe =>
    have h : Locked s ∧ (readers ≠ 0 → Shared readers s) ∧
        ∀ t e, (t, .lock (.compareExchange e), .unlock true) ∈ ls → e = 0 := by
      refine r.invariant (S := (system Tid readers).restrict Careful)
        (I := fun ls s => Locked s ∧ (readers ≠ 0 → Shared readers s) ∧
          ∀ t e, (t, .lock (.compareExchange e), .unlock true) ∈ ls → e = 0)
        (fun s hs => ?_) ?_
      · cases hs
        exact ⟨⟨nofun, nofun⟩, fun _ => ⟨rfl, fun _ => .inl rfl⟩, by simp⟩
      · rintro ls s l s' - ⟨h, hs, hf⟩ ⟨hc, e⟩
        refine ⟨h.step hc e, fun hr => (hs hr).step hr hc e, fun t x ht => ?_⟩
        obtain ht | ht := List.mem_append.mp ht
        case inl => exact hf t x ht
        case inr =>
          obtain rfl := List.mem_singleton.mp ht
          exact hc.1 x rfl (cnts_of_succeeded e)
    exact h.1.exclusive h.2.1 h.2.2
  case sharp =>
    rw [Careful, not_and_or] at hc
    cases e
    case move t m k e =>
      obtain hc | hc := hc
      case inl =>
        simp only [not_forall] at hc
        obtain ⟨x, hx, hm, hz⟩ := hc
        replace hx : s.threads t = .lock (.compareExchange x) := hx
        rw [hx] at e ⊢
        cases e
        exact ⟨[], _, .refl, fun h => hz (h.free t x (by simp [hm]))⟩
      case inr =>
        -- The thread unlocks for another one, and can then get the lock itself.
        simp only [not_forall, not_not] at hc
        obtain ⟨ht, u, hu⟩ := hc
        replace ht : s.threads t = .unlock false := ht
        have hut : u ≠ t := by
          rintro rfl
          simp [ht] at hu
        rw [ht] at e
        cases e
        let s' : State Tid := ⟨update s.mem .cnts 0, update s.threads t (.lock .load)⟩
        obtain ⟨ls', m, es⟩ : ∃ ls m, (system Tid readers).Steps s' ls _ :=
          steps_of_free (t := t) (by simp [s']) (by simp [s'])
        exact ⟨ls', _, es, fun h => hut (h.unique u t (by simpa [s', hut] using hu) (by simp))⟩

-- The second writer expects what the first one has left, and obtains the lock as well.
theorem not_forall_exclusive :
    ¬∀ (readers : Nat) (ls : List (Label Bool)) s, (system Bool readers).Run ls s →
      Exclusive readers ls s := by
  intro h
  have r : (system Bool 0).Run _ _ := .init rfl
  replace r := r.step (.move (t := true) rfl)
  replace r := r.step (.move (t := true) rfl)
  replace r := r.step (.move (t := false) rfl)
  replace r := r.step (.move (t := false) rfl)
  exact absurd ((h 0 _ _ r).unique true false (by decide) (by decide)) (by decide)

end Xen.RwLock

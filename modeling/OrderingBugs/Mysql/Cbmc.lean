import OrderingBugs.Mysql.Ownership
import OrderingBugs.Memory.Inclusion
import OrderingBugs.Harness.Refactoring
import OrderingBugs.Harness.UtRelax

open Function

-- Two tests of MySQL as they are given to CBMC, and the programs that they stand for, under interleaving.
namespace Mysql

inductive Field
  | lockWord
  | writerThread
  | recursive
  deriving DecidableEq

-- The assertion of `CBMC/Layer1/4-MySQL.c` can fail.
def RwLockCbmcViolates : Prop :=
  Harness.Refactoring.Violates [.writerThread, .lockWord, .recursive] Field.writerThread .recursive

inductive InnoVar
  | innoData
  | innoDataReady
  deriving DecidableEq

-- The assertion of `CBMC/Layer1/27-mysql-ut-realx.c` can fail.
def UtRelaxCbmcViolates : Prop :=
  Harness.Refactoring.Violates [.innoDataReady, .innoData] InnoVar.innoDataReady .innoData

variable {Tid : Type} [DecidableEq Tid]

-- The calls of any number of threads, with the lock word of `main`.
abbrev interleavings (calls : Tid → List Call) :
    System (Interleaving.State (Val Tid) Tid Thread) (Interleaving.Label Tid Thread) :=
  Interleaving.system program (start 0x30000000) fun t => ⟨none, calls t, []⟩

-- What is subtracted from the lock word that the thread reads.
def Pc.subtracts : Pc → Int
  | decr .load | redecr .load | loadDecr => xLockDecr
  | loadPred => 1
  | _ => 0

-- The subtraction does not overflow. The program has no meaning otherwise.
def NoOverflow (s : Interleaving.State (Val Tid) Tid Thread) (l : Interleaving.Label Tid Thread) : Prop :=
  ∀ c pc, l.2.1.current = some (c, pc) → -2 ^ 31 ≤ s.mem .lockWord - pc.subtracts

-- The first decrement of the thread has succeeded.
def Thread.Decremented (l : Thread) : Prop :=
  .decremented ∈ l.returned ∨ ∃ c pc, l.current = some (c, pc) ∧ pc.Won

-- A contender that has found `recursive` set reads the id of another thread than the one whose decrement
-- has succeeded.
def Misreads (s : Interleaving.State (Val Tid) Tid Thread) : Prop :=
  ∃ t o, (∃ c, (s.threads t).current = some (c, .loadWriterThread)) ∧ (s.threads o).Decremented ∧
    s.mem .writerThread ≠ some o

-- The thread relies on the id being set.
def Thread.Named (l : Thread) : Prop :=
  ∃ c pc, l.current = some (c, pc) ∧ (pc = .loadWriterThread ∨ pc = .set .storeRecursive)

-- The id is set before `recursive` is.
structure Named (s : Interleaving.State (Val Tid) Tid Thread) : Prop where
  flag    : s.mem .recursive = true → s.mem .writerThread ≠ none
  threads : ∀ t, (s.threads t).Named → s.mem .writerThread ≠ none

variable {calls : Tid → List Call} {s s' : Interleaving.State (Val Tid) Tid Thread}
variable {m m' : Mem (Val Tid)} {l l' : Thread} {t : Tid}

-- No operation takes the id away.
theorem writerThread_ne_none (e : (program t l).interleave m = some (m', l'))
    (h : m .writerThread ≠ none) : m' .writerThread ≠ none := by
  obtain ⟨_ | ⟨c, pc⟩, cs, os⟩ := l
  case none => cases cs <;> cases e; exact h
  case some =>
    rcases pc with (_ | _ | _ | _ | _) | (_ | _ | _ | _) | _ | _ | _ | (_ | _ | _ | _ | _) | _
    case set.storeWriterThread => cases e; simp
    all_goals cases e
    all_goals simpa

theorem exec_named (e : (program t l).interleave m = some (m', l'))
    (hf : m .recursive = true → m .writerThread ≠ none) (hl : l.Named → m .writerThread ≠ none) :
    (m' .recursive = true → m' .writerThread ≠ none) ∧ (l'.Named → m' .writerThread ≠ none) := by
  have hw := writerThread_ne_none e
  obtain ⟨_ | ⟨c, pc⟩, cs, os⟩ := l
  case none =>
    cases cs <;> cases e
    exact ⟨hf, by simp [Thread.Named]⟩
  case some =>
    rcases pc with (_ | _ | _ | _ | _) | (_ | _ | _ | _) | _ | _ | _ | (_ | _ | _ | _ | _) | _
    case set.storeWriterThread =>
      cases e
      exact ⟨fun _ => by simp, fun _ => by simp⟩
    case set.storeRecursive =>
      have hm := hw (hl ⟨c, _, rfl, .inr rfl⟩)
      exact ⟨fun _ => hm, fun _ => hm⟩
    case loadRecursive =>
      cases e
      refine ⟨hf, fun hn => hf ?_⟩
      by_contra hr
      simp [hr, Thread.Named] at hn
    all_goals cases e
    all_goals
      refine ⟨fun hr => hw (hf (by simpa using hr)), fun hn => ?_⟩
      grind [Thread.Named]

theorem Named.of_reachable (r : (interleavings calls).Reachable s) : Named s := by
  refine r.invariant (fun s hs => ?init) fun s l s' _ h e => ?step
  case init =>
    cases hs
    exact ⟨nofun, by simp [Thread.Named]⟩
  case step =>
    cases e
    case move t m l e =>
      have ⟨hf, hl⟩ := exec_named e h.flag (h.threads t)
      refine ⟨hf, (forall_update_iff s.threads fun _ l => l.Named → m .writerThread ≠ none).mpr ⟨hl, ?_⟩⟩
      exact fun u _ hu => writerThread_ne_none e (h.threads u hu)

-- The machine in a state of the interleavings, in which the buffers are empty.
abbrev flushed (s : Interleaving.State (Val Tid) Tid Thread) : State Tid :=
  ⟨s.mem, fun _ => (Buffering.perLocation (Val Tid)).empty, s.threads⟩

-- A step of the interleavings is one of the machine, after which the store that it may have buffered drains.
theorem ownership_move (h : Ownership 0x30000000 (flushed s))
    (hx : Machine.Mutex.Exclusive .mutex (· = true) Thread.Inside (flushed s))
    (hn : ∀ c, (s.threads t).current = some (c, .loadPred) → -2 ^ 31 < s.mem .lockWord)
    (e : (program t (s.threads t)).interleave s.mem = some (m', l')) :
    Ownership 0x30000000 (flushed ⟨m', update s.threads t l'⟩) := by
  obtain he | ⟨o, x, v, he, -, rfl⟩ := Op.exec_of_empty (D := .weak)
    (Buffering.empty_empty (B := .perLocation (Val Tid))) e
  all_goals replace h := h.move (t := t) (by decide) hn hx he
  case inl => simpa [flushed] using h
  case inr =>
    obtain ⟨b, hb, hbe⟩ := Buffering.pop_push_of_empty (x := x) (v := v)
      (Buffering.empty_empty (B := .perLocation (Val Tid)))
    obtain rfl : b = (Buffering.perLocation (Val Tid)).empty := funext hbe
    replace h := h.drain (t := t) (by simpa using hb)
    simpa [flushed] using h

theorem ownership_flushed (r : ((interleavings calls).restrict NoOverflow).Reachable s) :
    Ownership 0x30000000 (flushed s) := by
  refine r.invariant (S := (interleavings calls).restrict NoOverflow)
    (I := fun s => Ownership 0x30000000 (flushed s)) (fun s hs => ?init) ?step
  case init =>
    cases hs
    exact .free rfl rfl fun u => ⟨by simp, by simp, fun _ => rfl⟩
  case step =>
    rintro s l s' r h ⟨hc, e⟩
    have hx : Machine.Mutex.Exclusive .mutex (· = true) Thread.Inside (flushed s) :=
      mutex.exclusive (fun t => by simp) (Machine.reachable_of_interleaving .weak r.of_restrict)
    cases e
    case move t m k e =>
      refine ownership_move h hx (fun c hl => ?_) e
      have := hc c .loadPred hl
      grind [Pc.subtracts]

-- A bystander has not decremented the lock word.
omit [DecidableEq Tid] in
theorem Bystander.not_decremented {b : (x : Loc) → List (Val Tid x)} (h : Bystander b l) : ¬l.Decremented := by
  rintro (hr | ⟨c, pc, hl, hw⟩)
  case inl => cases h.refused _ hr
  case inr =>
    have hf := h.failing c pc hl
    rcases pc with (_ | _ | _ | _ | (_ | _)) | _ | _ | _ | _ | (_ | _ | _ | _ | _) | _
    all_goals first | exact hf.elim | exact hw.elim

theorem not_misreads (r : ((interleavings calls).restrict NoOverflow).Reachable s) : ¬Misreads s := by
  rintro ⟨t, o, ⟨c, ht⟩, ho, hm⟩
  have hn : s.mem .writerThread ≠ none :=
    (Named.of_reachable r.of_restrict).threads t ⟨c, _, ht, .inl rfl⟩
  cases ownership_flushed r
  case free hs => exact (hs o).not_decremented ho
  case owned u hu hs =>
    by_cases hou : o = u
    case neg => exact (hs o hou).not_decremented ho
    case pos =>
      subst hou
      exact hu.writer.elim hn hm

theorem bugDetected_eq_zero {iterations : Nat} {useBuggy : Bool} {spurious : Nat → Bool}
    {s : Harness.State Harness.UtRelax.Val Harness.UtRelax.Writer Harness.UtRelax.Reader}
    (h : (Harness.UtRelax.harness iterations useBuggy spurious).Reachable s) : s.mem .bugDetected = 0 := by
  obtain ⟨m, w, r, rfl⟩ := Harness.eq_state h
  exact (Harness.UtRelax.Counted.of_reachable h).bug

theorem utRelaxCbmcViolates : UtRelaxCbmcViolates :=
  (Harness.Refactoring.violates_iff (by decide)).mpr ⟨[], [.innoData], rfl, by simp⟩

theorem rwLockCbmcViolates : RwLockCbmcViolates :=
  (Harness.Refactoring.violates_iff (by decide)).mpr ⟨[], [.lockWord, .recursive], rfl, by simp⟩

-- Both tests fail, but neither program does what they show.
theorem refactorings_not_sound (useBuggy : Bool) (spurious : Nat → Bool) (Tid : Type) [DecidableEq Tid]
    (calls : Tid → List Call) :
    ¬(UtRelaxCbmcViolates → ∃ iterations s,
      (Harness.UtRelax.harness iterations useBuggy spurious).Reachable s ∧ s.mem .bugDetected ≠ 0) ∧
    ¬(RwLockCbmcViolates → ∃ s, ((interleavings calls).restrict NoOverflow).Reachable s ∧ Misreads s) := by
  refine ⟨fun h => ?_, fun h => ?_⟩
  · have ⟨_, _, r, hb⟩ := h utRelaxCbmcViolates
    exact hb (bugDetected_eq_zero r)
  · have ⟨_, r, hm⟩ := h rwLockCbmcViolates
    exact not_misreads r hm

theorem not_refactorings_sound :
    ¬((UtRelaxCbmcViolates → ∃ iterations useBuggy spurious s,
        (Harness.UtRelax.harness iterations useBuggy spurious).Reachable s ∧ s.mem .bugDetected ≠ 0) ∧
      (RwLockCbmcViolates → ∃ (n : Nat) (calls : Fin n → List Call) (s : _),
        ((interleavings calls).restrict NoOverflow).Reachable s ∧ Misreads s)) := by
  rintro ⟨h, -⟩
  have ⟨_, _, _, _, r, hb⟩ := h utRelaxCbmcViolates
  exact hb (bugDetected_eq_zero r)

end Mysql

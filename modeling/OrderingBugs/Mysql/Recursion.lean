import OrderingBugs.Mysql.Cbmc
import Mathlib.Algebra.BigOperators.Group.Finset.Basic
import Mathlib.Algebra.Order.BigOperators.Group.Finset

open Function

-- How the lock word counts the calls that have returned 1, under interleaving.
namespace Mysql

variable {Tid : Type} [DecidableEq Tid]

-- The lock word after a number of calls that have returned 1.
def word : Nat → Int
  | 0 => 0x30000000
  | 1 => 0x10000000
  | 2 => -0x10000000
  | n + 3 => -0x30000000 - n

-- The number of calls for which the word is the smallest `int`.
def maxAcquired : Nat := 0x50000003

def Thread.acquired (l : Thread) : Nat :=
  (l.returned.filter Outcome.result).length

def acquisitions [Fintype Tid] (s : Interleaving.State (Val Tid) Tid Thread) : Nat :=
  ∑ t, (s.threads t).acquired

-- No call is in progress.
def Idle (s : Interleaving.State (Val Tid) Tid Thread) : Prop :=
  ∀ t, (s.threads t).current = none

-- The call that the thread is in, or is about to make, returns 0.
def Refuses (t : Tid) (s s' : Interleaving.State (Val Tid) Tid Thread) : Prop :=
  .refused :: (s.threads t).returned <:+ (s'.threads t).returned

-- Whether a call that returns 1 has done its subtraction.
def Pc.subtracted : Pc → Nat
  | decr (.store _) | decr (.unlock true) | set _ => 1
  | redecr (.store _) | redecr (.unlock true) | store _ => 1
  | storeFileName o | storeLine o => o.result.toNat
  | _ => 0

-- The subtractions of a thread.
def Thread.spent : Thread → Nat
  | l@⟨none, _, _⟩ => l.acquired
  | l@⟨some (_, pc), _, _⟩ => l.acquired + pc.subtracted

-- The word is that of the subtractions of the thread, except for what it is about to store.
def Exact (v : Int) (l : Thread) : Prop :=
  match l.current with
  | some (_, .decr .load) => v = word 0 ∧ l.acquired = 0
  | some (_, .decr (.store w)) => v = word 0 ∧ w = word 1 ∧ l.acquired = 0
  | some (_, .redecr .load) => v = word 1 ∧ l.acquired = 1
  | some (_, .redecr (.store w)) => v = word 1 ∧ w = word 2 ∧ l.acquired = 1
  | some (_, .redecr (.unlock false)) | some (_, .compareZero) | some (_, .compareHalf) =>
    v = word l.acquired ∧ 2 ≤ l.acquired
  | some (_, .loadDecr) => v = word 2 ∧ l.acquired = 2
  | some (_, .loadPred) => v = word l.acquired ∧ 3 ≤ l.acquired
  | some (_, .store w) => v = word l.acquired ∧ w = word (l.acquired + 1) ∧ 2 ≤ l.acquired
  | _ => v = word l.spent

section Word

theorem word_le {n : Nat} (hn : 1 ≤ n) : word n ≤ xLockHalfDecr := by
  obtain _ | _ | _ | n := n
  case zero => cases hn
  all_goals simp only [word, xLockHalfDecr]; omega

theorem word_le_zero {n : Nat} (hn : 2 ≤ n) : word n ≤ 0 := by
  obtain _ | _ | _ | n := n
  case zero | succ.zero => omega
  all_goals simp only [word]; omega

theorem word_sub_one {n : Nat} (hn : 3 ≤ n) : word n - 1 = word (n + 1) := by
  obtain _ | _ | _ | n := n
  case zero | succ.zero | succ.succ.zero => omega
  case succ.succ.succ => simp only [word]; omega

theorem word_lt_iff {n : Nat} : word n < -2 ^ 31 ↔ maxAcquired < n := by
  obtain _ | _ | _ | n := n
  all_goals simp only [word, maxAcquired]; omega

theorem word_eq_iff {n : Nat} (hn : 2 ≤ n) : word n = 0 ∨ word n = -xLockHalfDecr ↔ n = 2 := by
  obtain _ | _ | _ | n := n
  case zero | succ.zero => omega
  all_goals grind [word, xLockHalfDecr]

end Word

variable {calls : Tid → List Call} {s s' : Interleaving.State (Val Tid) Tid Thread}
variable {m m' : Mem (Val Tid)} {l l' : Thread} {t : Tid} {c : Call} {cs : List Call} {os : List Outcome}

@[simp]
theorem acquired_mk {p : Option (Call × Pc)} :
    Thread.acquired ⟨p, cs, os⟩ = (os.filter Outcome.result).length :=
  rfl

theorem acquired_pos (h : .decremented ∈ os) : 0 < (os.filter Outcome.result).length :=
  List.length_pos_of_mem (a := .decremented) (by simp [h, Outcome.result])

namespace Exact

theorem decr {pc : DecrPc} (hd : Thread.Decremented ⟨some (c, .decr pc), cs, os⟩)
    (h : Exact (m .lockWord) ⟨some (c, .decr pc), cs, os⟩)
    (e : (program t ⟨some (c, .decr pc), cs, os⟩).interleave m = some (m', l')) : Exact (m' .lockWord) l' := by
  rcases pc with _ | _ | _ | v | success
  case lock =>
    cases e
    dsimp only
    split
    all_goals simpa [Exact, Thread.spent, Pc.subtracted] using h
  case compare =>
    have hp : 0 < (os.filter Outcome.result).length := by
      obtain hd | ⟨_, _, hl, hw⟩ := hd
      case inl => exact acquired_pos hd
      case inr => cases hl; cases hw
    replace h : m .lockWord = word (os.filter Outcome.result).length := h
    have hc : ¬m .lockWord > xLockHalfDecr := h ▸ not_lt.mpr (word_le hp)
    cases e
    simp only [hc, if_false]
    exact h
  case load =>
    obtain ⟨h, ha⟩ := h
    cases e
    exact ⟨h, by rw [h]; rfl, ha⟩
  case store =>
    obtain ⟨h, rfl, ha⟩ := h
    cases e
    replace ha : (os.filter Outcome.result).length = 0 := ha
    simp [Exact, Thread.spent, Pc.subtracted, ha]
  case unlock =>
    cases success
    case true => cases e; simpa [Exact, Thread.spent, Pc.subtracted] using h
    case false =>
      cases e
      dsimp only
      grind [Exact, Thread.spent, Pc.subtracted, Thread.acquired, Outcome.result]

theorem redecr {pc : DecrPc} (hp : 0 < (os.filter Outcome.result).length)
    (h : Exact (m .lockWord) ⟨some (c, .redecr pc), cs, os⟩)
    (e : (program t ⟨some (c, .redecr pc), cs, os⟩).interleave m = some (m', l')) :
    Exact (m' .lockWord) l' := by
  rcases pc with _ | _ | _ | v | success
  case lock =>
    cases e
    dsimp only
    split
    all_goals simpa [Exact, Thread.spent, Pc.subtracted] using h
  case compare =>
    replace h : m .lockWord = word (os.filter Outcome.result).length := h
    by_cases hc : m .lockWord > 0
    case pos =>
      cases e
      simp only [hc, if_true]
      have hn : ¬2 ≤ (os.filter Outcome.result).length := fun hn => by grind [word_le_zero hn]
      have ha : (os.filter Outcome.result).length = 1 := by omega
      exact ⟨ha ▸ h, ha⟩
    case neg =>
      cases e
      simp only [hc, if_false]
      have hn : (os.filter Outcome.result).length ≠ 1 := fun hn => by grind [word]
      exact ⟨h, by simp only [acquired_mk]; omega⟩
  case load =>
    obtain ⟨h, ha⟩ := h
    cases e
    exact ⟨h, by rw [h]; rfl, ha⟩
  case store =>
    obtain ⟨h, rfl, ha⟩ := h
    cases e
    replace ha : (os.filter Outcome.result).length = 1 := ha
    simp [Exact, Thread.spent, Pc.subtracted, ha]
  case unlock =>
    cases success
    all_goals
      cases e
      simpa [Exact, Thread.spent, Pc.subtracted, Outcome.result] using h

theorem move (hd : l.Decremented) (hn : ∀ c, l.current = some (c, .loadPred) → -2 ^ 31 < m .lockWord)
    (h : Exact (m .lockWord) l) (e : (program t l).interleave m = some (m', l')) : Exact (m' .lockWord) l' := by
  obtain ⟨_ | ⟨c, pc⟩, cs, os⟩ := l
  case none => cases cs <;> cases e; exact h
  case some =>
    have hp (hp : ¬pc.Won) : 0 < (os.filter Outcome.result).length := by
      obtain hd | ⟨_, _, hl, hw⟩ := hd
      case inl => exact acquired_pos hd
      case inr => cases hl; exact absurd hw hp
    cases pc
    case decr => exact h.decr hd e
    case redecr => exact h.redecr (hp id) e
    case set pc =>
      cases pc <;> cases e
      case lock =>
        dsimp only
        split
        all_goals simpa [Exact, Thread.spent, Pc.subtracted] using h
      case storeWriterThread | storeRecursive => simpa [Exact, Thread.spent, Pc.subtracted] using h
      case unlock => simpa [Exact, Thread.spent, Pc.subtracted, Outcome.result] using h
    case fence => cases e; simpa [Exact, Thread.spent, Pc.subtracted] using h
    case loadRecursive =>
      cases e
      dsimp only
      split
      case isTrue => simpa [Exact, Thread.spent, Pc.subtracted] using h
      case isFalse => simpa [Exact, Thread.spent, Pc.subtracted, Outcome.result] using h
    case loadWriterThread =>
      cases e
      dsimp only
      split
      case isTrue => simpa [Exact, Thread.spent, Pc.subtracted] using h
      case isFalse => simpa [Exact, Thread.spent, Pc.subtracted, Outcome.result] using h
    case compareZero =>
      obtain ⟨h, ha⟩ := h
      cases e
      dsimp only
      split
      case isTrue hz =>
        have hw := (word_eq_iff ha).mp (.inl (h.symm.trans hz))
        exact ⟨hw ▸ h, hw⟩
      case isFalse => exact ⟨h, ha⟩
    case compareHalf =>
      obtain ⟨h, ha⟩ := h
      cases e
      dsimp only
      split
      case isTrue hz =>
        have hw := (word_eq_iff ha).mp (.inr (h.symm.trans hz))
        exact ⟨hw ▸ h, hw⟩
      case isFalse hz =>
        refine ⟨h, ?_⟩
        simp only [acquired_mk] at ha ⊢
        have hn : (os.filter Outcome.result).length ≠ 2 := fun hn => hz (by rw [h, acquired_mk, hn]; rfl)
        omega
    case loadDecr =>
      obtain ⟨h, ha⟩ := h
      cases e
      replace ha : (os.filter Outcome.result).length = 2 := ha
      exact ⟨h.trans (congrArg word ha.symm), by simp only [acquired_mk, ha, h]; rfl, ha.ge⟩
    case loadPred =>
      obtain ⟨h, ha⟩ := h
      have hl : m .lockWord ≤ xLockHalfDecr := h ▸ word_le (by omega)
      have hi : int (m .lockWord - 1) = m .lockWord - 1 :=
        int_of_bounds (by grind [hn c rfl, xLockHalfDecr])
      cases e
      exact ⟨h, by rw [hi, h, word_sub_one ha]; rfl, (Nat.le_succ 2).trans ha⟩
    case store =>
      obtain ⟨-, h, -⟩ := h
      cases e
      simpa [Exact, Thread.spent, Pc.subtracted, Outcome.result] using h
    case storeFileName => cases e; simpa [Exact, Thread.spent, Pc.subtracted] using h
    case storeLine o =>
      cases e
      cases o <;> simpa [Exact, Thread.spent, Pc.subtracted, Outcome.result, List.filter] using h

end Exact

section Thread

omit [DecidableEq Tid] in
theorem Bystander.acquired_eq {b : (x : Loc) → List (Val Tid x)} (h : Bystander b l) : l.acquired = 0 := by
  simp only [Thread.acquired, List.length_eq_zero_iff, List.filter_eq_nil_iff]
  intro o ho
  simp [h.refused o ho, Outcome.result]

-- A thread does not take back what it has subtracted, nor a call that has returned.
theorem le_move (e : (program t l).interleave m = some (m', l')) :
    l.acquired ≤ l'.acquired ∧ l.spent ≤ l'.spent := by
  obtain ⟨_ | ⟨c, pc⟩, cs, os⟩ := l
  case none => cases cs <;> cases e; simp [Thread.spent]
  case some =>
    rcases pc with (_ | _ | _ | _ | (_ | _)) | (_ | _ | _ | _) | _ | _ | _ | (_ | _ | _ | _ | (_ | _)) | _
    all_goals cases e
    all_goals grind [Thread.spent, Pc.subtracted, Outcome.result, Thread.acquired]

-- What the thread is about to store is an `int`.
def Thread.Stores (l : Thread) (w : Int) : Prop :=
  ∃ c pc, l.current = some (c, pc) ∧ (pc = .decr (.store w) ∨ pc = .redecr (.store w) ∨ pc = .store w)

theorem int_le (v : Int) : -2 ^ 31 ≤ int v :=
  Int.le_bmod (by decide)

theorem inRange_move (h : -2 ^ 31 ≤ m .lockWord) (hl : ∀ w, l.Stores w → -2 ^ 31 ≤ w)
    (e : (program t l).interleave m = some (m', l')) :
    -2 ^ 31 ≤ m' .lockWord ∧ ∀ w, l'.Stores w → -2 ^ 31 ≤ w := by
  obtain ⟨_ | ⟨c, pc⟩, cs, os⟩ := l
  case none => cases cs <;> cases e; simpa [Thread.Stores] using h
  case some =>
    rcases pc with (_ | _ | _ | _ | (_ | _)) | (_ | _ | _ | _) | _ | _ | _ | (_ | _ | _ | _ | (_ | _)) | _
    case decr.store w | redecr.store w | store w =>
      have hw := hl w ⟨c, _, rfl, by simp⟩
      cases e
      simpa [Thread.Stores] using hw
    case decr.load | redecr.load | loadDecr | loadPred =>
      cases e
      refine ⟨h, ?_⟩
      rintro w ⟨_, _, hl, hs⟩
      cases hl
      obtain rfl : int _ = w := by simpa using hs
      exact int_le _
    all_goals cases e
    all_goals
      refine ⟨by simpa using h, ?_⟩
      grind [Thread.Stores]

end Thread

namespace Ownership

variable {w₀ : Int} {s : State Tid} {u : Tid}

theorem decremented_or (h : Ownership w₀ s) (t : Tid) :
    (s.threads t).Decremented ∨ Bystander (s.buf t) (s.threads t) := by
  cases h
  case free hs => exact .inr (hs t)
  case owned o ho hs =>
    by_cases ht : t = o
    case pos => exact .inl (ht ▸ ho.won)
    case neg => exact .inr (hs t ht)

theorem decremented_unique (h : Ownership w₀ s) (ht : (s.threads t).Decremented)
    (hu : (s.threads u).Decremented) : t = u := by
  cases h
  case free hs => exact absurd ht (hs t).not_decremented
  case owned o ho hs =>
    have eq {v : Tid} (hv : (s.threads v).Decremented) : v = o := by
      by_contra hvo
      exact (hs v hvo).not_decremented hv
    exact (eq ht).trans (eq hu).symm

omit [DecidableEq Tid] in
theorem lockWord_eq (h : Ownership w₀ s) (hs : ∀ t, ¬(s.threads t).Decremented) : s.mem .lockWord = w₀ := by
  cases h
  case free hm _ _ => exact hm
  case owned o ho _ => exact absurd ho.won (hs o)

end Ownership

theorem inRange_of_reachable (r : (interleavings calls).Reachable s) :
    -2 ^ 31 ≤ s.mem .lockWord ∧ ∀ t w, (s.threads t).Stores w → -2 ^ 31 ≤ w := by
  refine r.invariant (I := fun s => -2 ^ 31 ≤ s.mem .lockWord ∧ ∀ t w, (s.threads t).Stores w → -2 ^ 31 ≤ w)
    (fun s hs => ?init) fun s l s' _ h e => ?step
  case init =>
    cases hs
    exact ⟨by simp [start], by simp [Thread.Stores]⟩
  case step =>
    cases e
    case move t m l e =>
      have ⟨hm, hl⟩ := inRange_move h.1 (h.2 t) e
      refine ⟨hm, (forall_update_iff s.threads fun _ l => ∀ w, l.Stores w → -2 ^ 31 ≤ w).mpr ?_⟩
      exact ⟨hl, fun u _ => h.2 u⟩

-- A call that has not succeeded writes nothing but the mutex.
theorem frame (hf : ∀ c pc, l.current = some (c, pc) → pc.Failing)
    (e : (program t l).interleave m = some (m', l')) {x : Loc} (hx : x ≠ .mutex) : m' x = m x := by
  obtain ⟨_ | ⟨c, pc⟩, cs, os⟩ := l
  case none => cases cs <;> cases e; rfl
  case some =>
    replace hf := hf c pc rfl
    rcases pc with (_ | _ | _ | _ | (_ | _)) | (_ | _ | _ | _) | _ | _ | _ | (_ | _ | _ | _ | (_ | _)) | _
    all_goals first | exact hf.elim | cases e
    all_goals simp [hx]

-- While the lock is free, the word is what it is before the first call.
theorem Bystander.exact {b : (x : Loc) → List (Val Tid x)} (h : Bystander b l) (hm : m .lockWord = word 0)
    (e : (program t l).interleave m = some (m', l')) : Exact (m' .lockWord) l' := by
  have ha := h.acquired_eq
  rw [frame h.failing e (by simp), hm]
  obtain ⟨_ | ⟨c, pc⟩, cs, os⟩ := l
  all_goals rw [acquired_mk] at ha
  case none => cases cs <;> cases e; simp [Exact, Thread.spent, Pc.subtracted, ha]
  case some =>
    have hf := h.failing c pc rfl
    rcases pc with (_ | _ | _ | _ | (_ | _)) | (_ | _ | _ | _) | _ | _ | _ | (_ | _ | _ | _ | (_ | _)) | _
    all_goals first | exact hf.elim | cases e
    all_goals grind [Exact, Thread.spent, Pc.subtracted, Thread.acquired, Outcome.result]

theorem exact_of_reachable (r : ((interleavings calls).restrict NoOverflow).Reachable s) :
    ∀ t, (s.threads t).Decremented → Exact (s.mem .lockWord) (s.threads t) := by
  refine r.invariant (S := (interleavings calls).restrict NoOverflow)
    (I := fun s => ∀ t, (s.threads t).Decremented → Exact (s.mem .lockWord) (s.threads t))
    (fun s hs => ?init) ?step
  case init =>
    cases hs
    simp [Thread.Decremented]
  case step =>
    rintro s l s' r h ⟨hc, e⟩
    have ho := ownership_flushed r
    have ho' := ownership_flushed (r.step ⟨hc, e⟩)
    cases e
    case move t m l e =>
      intro u hu
      by_cases hut : u = t
      case neg =>
        replace hu : (s.threads u).Decremented := by simpa [hut] using hu
        have hb := (ho.decremented_or t).resolve_left fun hd => hut (ho.decremented_unique hu hd)
        simpa [hut, frame hb.failing e] using h u hu
      case pos =>
        subst hut
        simp only [update_self]
        obtain hd | hb := ho.decremented_or u
        case inl =>
          refine (h u hd).move hd (fun c hl => ?_) e
          have := hc c .loadPred hl
          grind [Pc.subtracts]
        case inr =>
          refine hb.exact (ho.lockWord_eq fun v hv => ?_) e
          have hvu : v ≠ u := fun hvu => hb.not_decremented (hvu ▸ hv)
          exact hvu (ho'.decremented_unique (by simpa [hvu] using hv) hu)

-- The only subtraction that can overflow is that of the call after the last one for which the word is an
-- `int`.
theorem eq_of_overflow (r : ((interleavings calls).restrict NoOverflow).Reachable s)
    (e : (program t (s.threads t)).interleave s.mem = some (m, l)) (hc : ¬NoOverflow s (t, s.threads t, l)) :
    maxAcquired ≤ (s.threads t).acquired ∧ maxAcquired < l.spent := by
  have hm := (inRange_of_reachable r.of_restrict).1
  have ho := ownership_flushed r
  simp only [NoOverflow, not_forall, not_le] at hc
  obtain ⟨c, pc, hl, hc⟩ := hc
  have hd : (s.threads t).Decremented := by
    refine (ho.decremented_or t).resolve_right fun hb => ?_
    have hf := hb.failing c pc hl
    rcases pc with (_ | _ | _ | _ | (_ | _)) | (_ | _ | _ | _) | _ | _ | _ | (_ | _ | _ | _ | (_ | _)) | _
    all_goals first | exact hf.elim | exact absurd hc (by simpa [Pc.subtracts] using hm)
  have hx := exact_of_reachable r t hd
  generalize s.threads t = k at e hl hx
  obtain ⟨p, cs, os⟩ := k
  obtain rfl : p = _ := hl
  by_cases hp : pc = .loadPred
  case pos =>
    subst hp
    obtain ⟨hw, ha⟩ := hx
    rw [acquired_mk] at hw ha
    have hn : maxAcquired < (os.filter Outcome.result).length + 1 := by
      rw [← word_lt_iff, ← word_sub_one ha]
      simpa [Pc.subtracts, ← hw] using hc
    cases e
    exact ⟨Nat.le_of_lt_succ hn, hn⟩
  case neg =>
    rcases pc with (_ | _ | _ | _ | (_ | _)) | (_ | _ | _ | _) | _ | _ | _ | (_ | _ | _ | _ | (_ | _)) | _
    case loadPred => exact absurd rfl hp
    case decr.load | redecr.load | loadDecr =>
      rw [hx.1] at hc
      simp [Pc.subtracts, word, xLockDecr] at hc
    all_goals exact absurd hc (by simpa [Pc.subtracts] using hm)

section Refused

-- The call is bound to return 1.
def Pc.Succeeding (pc : Pc) : Prop :=
  pc.Won ∨ pc.Recursing

-- Every call is at a place where it has not succeeded, or at one where it is bound to.
theorem failing_or_move (h : ∀ c pc, l.current = some (c, pc) → pc.Failing ∨ pc.Succeeding)
    (e : (program t l).interleave m = some (m', l')) :
    ∀ c pc, l'.current = some (c, pc) → pc.Failing ∨ pc.Succeeding := by
  obtain ⟨_ | ⟨c, pc⟩, cs, os⟩ := l
  case none => cases cs <;> cases e; simp [Pc.Failing]
  case some =>
    replace h := h c pc rfl
    rcases pc with (_ | _ | _ | _ | (_ | _)) | (_ | _ | _ | _) | _ | _ | _ | (_ | _ | _ | _ | (_ | _)) | _
    all_goals cases e
    all_goals grind [Pc.Failing, Pc.Succeeding, Pc.Won, Pc.Recursing]

theorem failing_or (r : (interleavings calls).Reachable s) :
    ∀ t c pc, (s.threads t).current = some (c, pc) → pc.Failing ∨ pc.Succeeding := by
  refine r.invariant (S := interleavings calls)
    (I := fun s => ∀ t c pc, (s.threads t).current = some (c, pc) → pc.Failing ∨ pc.Succeeding)
    (fun s hs => ?init) fun s l s' _ h e => ?step
  case init => cases hs; simp
  case step =>
    cases e
    case move t m l e =>
      exact (forall_update_iff s.threads
        fun _ l => ∀ c pc, l.current = some (c, pc) → pc.Failing ∨ pc.Succeeding).mpr
        ⟨failing_or_move (h t) e, fun u _ => h u⟩

-- The call after the given ones returns 1, or is bound to.
def Thread.Succeeds (l : Thread) (os : List Outcome) : Prop :=
  (∃ o, o.result ∧ o :: os <:+ l.returned) ∨
    (l.returned = os ∧ ∃ c pc, l.current = some (c, pc) ∧ pc.Succeeding)

theorem returned_move (e : (program t l).interleave m = some (m', l')) : l.returned <:+ l'.returned := by
  obtain ⟨_ | ⟨c, pc⟩, cs, os⟩ := l
  case none => cases cs <;> cases e; exact List.suffix_rfl
  case some =>
    rcases pc with (_ | _ | _ | _ | (_ | _)) | (_ | _ | _ | _) | _ | _ | _ | (_ | _ | _ | _ | (_ | _)) | _
    all_goals cases e
    all_goals grind

theorem succeeds_move (h : l.Succeeds os) (e : (program t l).interleave m = some (m', l')) :
    l'.Succeeds os := by
  obtain ⟨o, ho, h⟩ | ⟨rfl, c, pc, hl, hp⟩ := h
  case inl => exact .inl ⟨o, ho, h.trans (returned_move e)⟩
  case inr =>
    obtain ⟨p, cs, os⟩ := l
    obtain rfl : p = _ := hl
    rcases pc with (_ | _ | _ | _ | (_ | _)) | (_ | _ | _ | _) | _ | _ | _ | (_ | _ | _ | _ | (_ | _)) | _
    case storeLine o =>
      cases e
      refine .inl ⟨o, ?_, List.suffix_rfl⟩
      obtain rfl | rfl : o = .decremented ∨ o = .recursed := hp
      all_goals rfl
    all_goals first | exact (hp.elim id id).elim | cases e
    all_goals grind [Thread.Succeeds, Pc.Succeeding, Pc.Won, Pc.Recursing]

theorem succeeds_step {e : Interleaving.Label Tid Thread} (h : (s.threads t).Succeeds os)
    (e : (interleavings calls).Step s e s') : (s'.threads t).Succeeds os := by
  cases e
  case move u m l e =>
    by_cases htu : t = u
    case pos => subst htu; simpa using succeeds_move h e
    case neg => simpa [htu] using h

theorem not_refused_of_succeeds (h : l.Succeeds os) : ¬.refused :: os <:+ l.returned := by
  intro hr
  obtain ⟨o, ho, h⟩ | ⟨rfl, -⟩ := h
  case inl =>
    have he := (List.suffix_of_suffix_length_le hr h (by simp)).eq_of_length (by simp)
    cases he
    cases ho
  case inr => simpa using hr.length_le

-- A call that returns 0 does not write anything but the mutex.
theorem mem_of_refused {e : Interleaving.Label Tid Thread} {es : List (Interleaving.Label Tid Thread)}
    {s₁ : Interleaving.State (Val Tid) Tid Thread} (r : (interleavings calls).Reachable s)
    (h₁ : (interleavings calls).Step s e s₁) (h₂ : (interleavings calls).Steps s₁ es s')
    (hr : Refuses e.1 s s') {x : Loc} (hx : x ≠ .mutex) : s₁.mem x = s.mem x := by
  have hf := failing_or r e.1
  have hs (hs : (s.threads e.1).Succeeds (s.threads e.1).returned) : False := by
    refine not_refused_of_succeeds ?_ hr
    refine h₂.invariant (I := fun s' => (s'.threads e.1).Succeeds (s.threads e.1).returned)
      (fun _ _ _ h e => succeeds_step h e) (succeeds_step hs h₁)
  cases h₁
  case move t m l e =>
    refine frame (fun c pc hl => (hf c pc hl).resolve_right fun hp => ?_) e hx
    exact hs (.inr ⟨rfl, c, pc, hl, hp⟩)

end Refused

section Fintype

variable [Fintype Tid]

-- After an overflow, more subtractions have been done than there are values for.
structure Exhausted (s : Interleaving.State (Val Tid) Tid Thread) : Prop where
  acquired : maxAcquired ≤ acquisitions s
  spent    : maxAcquired < ∑ t, (s.threads t).spent

theorem Exhausted.step {l : Interleaving.Label Tid Thread} (h : Exhausted s)
    (e : (interleavings calls).Step s l s') : Exhausted s' := by
  cases e
  case move t m l e =>
    have ⟨ha, hs⟩ := le_move e
    constructor
    case acquired =>
      refine h.acquired.trans (Finset.sum_le_sum fun u _ => ?_)
      exact (forall_update_iff s.threads fun u l => (s.threads u).acquired ≤ l.acquired).mpr ⟨ha, by simp⟩ u
    case spent =>
      refine h.spent.trans_le (Finset.sum_le_sum fun u _ => ?_)
      exact (forall_update_iff s.threads fun u l => (s.threads u).spent ≤ l.spent).mpr ⟨hs, by simp⟩ u

theorem Exhausted.of_overflow {l : Interleaving.Label Tid Thread}
    (r : ((interleavings calls).restrict NoOverflow).Reachable s) (e : (interleavings calls).Step s l s')
    (hc : ¬NoOverflow s l) : Exhausted s' := by
  cases e
  case move t m l e =>
    have ⟨ha, hs⟩ := eq_of_overflow r e hc
    have le {f : Tid → Nat} (u : Tid) : f u ≤ ∑ t, f t :=
      Finset.single_le_sum (fun _ _ => Nat.zero_le _) (Finset.mem_univ u)
    constructor
    · refine (ha.trans (le_move e).1).trans ?_
      simpa [acquisitions] using le (f := fun u => (update s.threads t l u).acquired) t
    · refine hs.trans_le ?_
      simpa using le (f := fun u => (update s.threads t l u).spent) t

theorem exhausted_or (r : (interleavings calls).Reachable s) :
    ((interleavings calls).restrict NoOverflow).Reachable s ∨ Exhausted s := by
  refine r.invariant (S := interleavings calls)
    (I := fun s => ((interleavings calls).restrict NoOverflow).Reachable s ∨ Exhausted s)
    (fun s hs => .inl (.init hs)) fun s l s' _ h e => ?_
  obtain r | h := h
  case inr => exact .inr (h.step e)
  case inl =>
    by_cases hc : NoOverflow s l
    case pos => exact .inl (r.step ⟨hc, e⟩)
    case neg => exact .inr (.of_overflow r e hc)

-- With no call in progress, the only calls that have returned 1 are those of the thread whose first decrement
-- has succeeded.
theorem lockWord_of_idle (r : ((interleavings calls).restrict NoOverflow).Reachable s) (hi : Idle s) :
    s.mem .lockWord = word (acquisitions s) := by
  have ho := ownership_flushed r
  by_cases hd : ∃ t, (s.threads t).Decremented
  case pos =>
    obtain ⟨t, hd⟩ := hd
    have ha : acquisitions s = (s.threads t).acquired := by
      refine Finset.sum_eq_single t (fun u _ hu => ?_) (by simp)
      exact ((ho.decremented_or u).resolve_left fun hd' => hu (ho.decremented_unique hd' hd)).acquired_eq
    have hx := exact_of_reachable r t hd
    rw [ha]
    have hc := hi t
    generalize s.threads t = l at hc hx
    obtain ⟨p, cs, os⟩ := l
    obtain rfl : p = _ := hc
    exact hx
  case neg =>
    have hb (t) := (ho.decremented_or t).resolve_left fun hd' => hd ⟨t, hd'⟩
    have ha : acquisitions s = 0 := Finset.sum_eq_zero fun t _ => (hb t).acquired_eq
    rw [ha]
    exact ho.lockWord_eq fun t hd' => hd ⟨t, hd'⟩

end Fintype

-- The lock word counts the calls that have returned 1, as long as it is an `int`. A subtraction can only
-- overflow after the last of them.
theorem lockWord_counts (Tid : Type) [DecidableEq Tid] [Fintype Tid] (calls : Tid → List Call) :
    (∀ s, (interleavings calls).Reachable s → Idle s → acquisitions s ≤ maxAcquired →
      s.mem .lockWord = word (acquisitions s)) ∧
    (∀ s l s', (interleavings calls).Reachable s → (interleavings calls).Step s l s' →
      acquisitions s < maxAcquired → NoOverflow s l) ∧
    (∀ s l s₁ ls s', (interleavings calls).Reachable s → (interleavings calls).Step s l s₁ →
      (interleavings calls).Steps s₁ ls s' → Refuses l.1 s s' → ∀ x, x ≠ .mutex → s₁.mem x = s.mem x) := by
  refine ⟨fun s r hi hj => ?word, fun s l s' r e hj => ?overflow, fun s l s₁ ls s' r h₁ h₂ hr x hx => ?refused⟩
  case word =>
    obtain r | h := exhausted_or r
    case inl => exact lockWord_of_idle r hi
    case inr =>
      have hs : ∑ t, (s.threads t).spent = acquisitions s := by
        refine Finset.sum_congr rfl fun t _ => ?_
        have ht := hi t
        generalize s.threads t = l at ht
        obtain ⟨p, cs, os⟩ := l
        obtain rfl : p = _ := ht
        rfl
      exact absurd h.spent (by omega)
  case overflow =>
    obtain r | h := exhausted_or r
    case inr => exact absurd h.acquired (by omega)
    case inl =>
      by_contra hc
      cases e
      case move t m l e =>
        have ha : (s.threads t).acquired ≤ acquisitions s :=
          Finset.single_le_sum (f := fun t => (s.threads t).acquired) (fun _ _ => Nat.zero_le _)
            (Finset.mem_univ t)
        have := (eq_of_overflow r e hc).1
        omega
  case refused => exact mem_of_refused r h₁ h₂ hr hx

section Overflow

-- A thread that makes one call after the other, each at the same line.
def sameCall : Call :=
  ⟨0, "4-MySQL.c", 140⟩

-- The thread has made calls that have returned 1, and has others still to make.
structure Between (n k : Nat) (s : Interleaving.State (Val Unit) Unit Thread) : Prop where
  lockWord     : s.mem .lockWord = word n
  mutex        : s.mem .mutex = false
  recursive    : s.mem .recursive = true
  writerThread : s.mem .writerThread = some ()
  thread       : ∃ os, s.threads () = ⟨none, .replicate k sameCall, os⟩ ∧ (os.filter Outcome.result).length = n

-- The same in the middle of a call, with a given lock word.
structure During (pc : Pc) (w : Int) (n k : Nat) (s : Interleaving.State (Val Unit) Unit Thread) : Prop where
  lockWord     : s.mem .lockWord = w
  mutex        : s.mem .mutex = false
  recursive    : s.mem .recursive = true
  writerThread : s.mem .writerThread = some ()
  thread       : ∃ os, s.threads () = ⟨some (sameCall, pc), .replicate k sameCall, os⟩ ∧
    (os.filter Outcome.result).length = n

variable {calls : Unit → List Call} {s : Interleaving.State (Val Unit) Unit Thread} {w : Int} {n k N : Nat}

theorem leads_of_schedule {p : Interleaving.State (Val Unit) Unit Thread → Prop} (j : Nat)
    (h : ∃ s', s.schedule program (.replicate j ()) = some s' ∧ p s') : (interleavings calls).Leads p s :=
  have ⟨s', e, h⟩ := h
  have ⟨ls, es⟩ := Interleaving.State.schedule_steps e
  ⟨ls, s', es, h⟩

theorem leads_between (k : Nat) :
    (interleavings calls).Leads (Between 1 k)
      ⟨start 0x30000000, fun _ => ⟨none, .replicate (k + 1) sameCall, []⟩⟩ := by
  have hs : int (0x30000000 - xLockDecr) = word 1 := by decide
  have hw : (0x30000000 : Int) > xLockHalfDecr := by decide
  have hm : (start 0x30000000 : Mem (Val Unit)) .mutex = false := rfl
  have hl : (start 0x30000000 : Mem (Val Unit)) .lockWord = (0x30000000 : Int) := rfl
  refine leads_of_schedule 12 ?_
  simp [Interleaving.State.schedule, Interleaving.State.next, List.replicate_succ, program, Op.interleave,
    rwLockXLockLow, rwLockLockWordDecr, rwLockSetWriterIdAndRecursionFlag, mutexEnter, mutexExit, hm, hl, hs,
    hw, sameCall]
  exact ⟨by simp, by simp, by simp, by simp, [.decremented], by simp [sameCall], rfl⟩

-- The first decrement of a call fails, and the thread finds itself to be the writer.
theorem Between.leads (h : Between n (k + 1) s) (hn : 1 ≤ n) :
    (interleavings calls).Leads (During (.redecr .lock) (word n) n k) s := by
  obtain ⟨m, f⟩ := s
  obtain ⟨hw, hm, hr, ht, os, hf, ha⟩ := h
  dsimp only at hw hm hr ht hf
  have hn : ¬word n > xLockHalfDecr := not_lt.mpr (word_le hn)
  refine leads_of_schedule 7 ?_
  simp [Interleaving.State.schedule, Interleaving.State.next, List.replicate_succ, program, Op.interleave,
    rwLockXLockLow, rwLockLockWordDecr, mutexEnter, mutexExit, hf, hm, hw, hn, hr, ht, sameCall]
  exact ⟨by simpa, by simp, by simpa, by simpa, os, by simp [sameCall], ha⟩

namespace During

theorem decr (h : During (.redecr .lock) (word 1) n k s) :
    (interleavings calls).Leads (During (.storeFileName .recursed) (word 2) n k) s := by
  obtain ⟨m, f⟩ := s
  obtain ⟨hw, hm, hr, ht, os, hf, ha⟩ := h
  dsimp only at hw hm hr ht hf
  have hz : word 1 > 0 := by decide
  have hs : int (word 1 - xLockDecr) = word 2 := by decide
  refine leads_of_schedule 5 ?_
  simp [Interleaving.State.schedule, Interleaving.State.next, List.replicate_succ, program, Op.interleave,
    rwLockXLockLow, rwLockLockWordDecr, mutexEnter, mutexExit, hf, hm, hw, hz, hs]
  exact ⟨by simp, by simp, by simpa, by simpa, os, by simp, ha⟩

theorem compareZero (h : During (.redecr .lock) (word n) n k s) (hn : 2 ≤ n) :
    (interleavings calls).Leads (During .compareZero (word n) n k) s := by
  obtain ⟨m, f⟩ := s
  obtain ⟨hw, hm, hr, ht, os, hf, ha⟩ := h
  dsimp only at hw hm hr ht hf
  have hz : ¬word n > 0 := not_lt.mpr (word_le_zero hn)
  refine leads_of_schedule 3 ?_
  simp [Interleaving.State.schedule, Interleaving.State.next, List.replicate_succ, program, Op.interleave,
    rwLockXLockLow, rwLockLockWordDecr, mutexEnter, mutexExit, hf, hm, hw, hz]
  exact ⟨by simpa, by simp, by simpa, by simpa, os, by simp, ha⟩

theorem load {p q : Pc} (h : During p w n k s) (e : ∀ cs os (m : Mem (Val Unit)), m .lockWord = w →
      (program () ⟨some (sameCall, p), cs, os⟩).interleave m = some (m, ⟨some (sameCall, q), cs, os⟩)) :
    (interleavings calls).Leads (During q w n k) s := by
  obtain ⟨hw, hm, hr, ht, os, hf, ha⟩ := h
  exact .step (.move (hf ▸ e _ _ _ hw)) (.refl ⟨hw, hm, hr, ht, os, by simp, ha⟩)

theorem store {v : Int} (h : During (.store v) w n k s) :
    (interleavings calls).Leads (During (.storeFileName .recursed) v n k) s := by
  obtain ⟨-, hm, hr, ht, os, hf, ha⟩ := h
  have e : (program () (s.threads ())).interleave s.mem = some (update s.mem .lockWord v,
      ⟨some (sameCall, .storeFileName .recursed), .replicate k sameCall, os⟩) := hf ▸ rfl
  exact .step (.move e) (.refl ⟨by simp, by simpa, by simpa, by simpa, os, by simp, ha⟩)

theorem returns (h : During (.storeFileName .recursed) (word (n + 1)) n k s) :
    (interleavings calls).Leads (Between (n + 1) k) s := by
  obtain ⟨m, f⟩ := s
  obtain ⟨hw, hm, hr, ht, os, hf, ha⟩ := h
  dsimp only at hw hm hr ht hf
  refine leads_of_schedule 2 ?_
  simp [Interleaving.State.schedule, Interleaving.State.next, List.replicate_succ, program, Op.interleave,
    rwLockXLockLow, hf]
  exact ⟨by simpa, by simpa, by simpa, by simpa, .recursed :: os, by simp, congrArg (· + 1) ha⟩

-- A thread that finds the lock taken often enough gets to the last of the subtractions.
theorem loadPred (h : During (.redecr .lock) (word n) n k s) (hn : 3 ≤ n) :
    (interleavings calls).Leads (During .loadPred (word n) n k) s := by
  have hw : ¬(word n = 0 ∨ word n = -xLockHalfDecr) := mt (word_eq_iff (by omega)).mp (by omega)
  rw [not_or] at hw
  refine (h.compareZero (by omega)).trans fun s h => ?_
  refine (h.load (q := .compareHalf) fun cs os m hm => ?_).trans fun s h => h.load fun cs os m hm => ?_
  all_goals simp [program, rwLockXLockLow, Op.interleave, hm, hw]

theorem loadDecr (h : During (.redecr .lock) (word 2) 2 k s) :
    (interleavings calls).Leads (During .loadDecr (word 2) 2 k) s := by
  have hz : ¬word 2 = 0 := by decide
  have hw : word 2 = -xLockHalfDecr := by decide
  refine (h.compareZero le_rfl).trans fun s h => ?_
  refine (h.load (q := .compareHalf) fun cs os m hm => ?_).trans fun s h => h.load fun cs os m hm => ?_
  case refine_1 => simp [program, rwLockXLockLow, Op.interleave, hm, hz]
  case refine_2 => simp [program, rwLockXLockLow, Op.interleave, hm, eq_true hw]

-- The word is lowered in three ways.
theorem next (h : During (.redecr .lock) (word n) n k s) (hn : 1 ≤ n) (hm : n < maxAcquired) :
    (interleavings calls).Leads (During (.storeFileName .recursed) (word (n + 1)) n k) s := by
  obtain rfl | rfl | hn : n = 1 ∨ n = 2 ∨ 3 ≤ n := by omega
  case inl => exact h.decr
  case inr.inl =>
    refine h.loadDecr.trans fun s h => ?_
    refine (h.load (q := .store (word 3)) fun cs os m hw => ?_).trans fun s h => h.store
    have hs : int (word 2 - xLockDecr) = word 3 := by decide
    simp [program, rwLockXLockLow, Op.interleave, hw, hs]
  case inr.inr =>
    refine (h.loadPred hn).trans fun s h => ?_
    refine (h.load (q := .store (word (n + 1))) fun cs os m hw => ?_).trans fun s h => h.store
    have hs : int (word n - 1) = word (n + 1) := by
      rw [word_sub_one hn]
      refine int_of_bounds ⟨?_, ?_⟩
      · exact not_lt.mp (mt word_lt_iff.mp (by omega))
      · exact (word_le_zero (by omega)).trans_lt (by decide)
    simp [program, rwLockXLockLow, Op.interleave, hw, hs]

end During

theorem Between.call (h : Between n (k + 1) s) (hn : 1 ≤ n) (hm : n < maxAcquired) :
    (interleavings calls).Leads (Between (n + 1) k) s :=
  (h.leads hn).trans fun _ h => (h.next hn hm).trans fun _ h => h.returns

theorem exists_reachable_between (hn : 1 ≤ n) (hm : n ≤ maxAcquired) (hN : N = n + k) :
    ∃ s, (interleavings fun _ => .replicate N sameCall).Reachable s ∧ Between n k s := by
  subst hN
  induction n, hn using Nat.le_induction generalizing k
  case base =>
    rw [Nat.add_comm 1 k]
    exact (leads_between k).exists_reachable (.init rfl)
  case succ n hn hi =>
    have ⟨s, r, h⟩ := hi (Nat.le_of_succ_le hm) (k := k + 1)
    rw [show n + (k + 1) = n + 1 + k by omega] at r
    exact (h.call hn hm).exists_reachable r

-- A thread has made as many calls as there are values, and makes another one.
theorem not_noOverflow : ∃ s l s',
    (interleavings fun _ : Unit => .replicate (maxAcquired + 1) sameCall).Reachable s ∧
    (interleavings fun _ : Unit => .replicate (maxAcquired + 1) sameCall).Step s l s' ∧ ¬NoOverflow s l := by
  have ⟨_, r, h⟩ := exists_reachable_between (n := maxAcquired) (k := 1) (by decide) le_rfl rfl
  have ⟨s, r, h⟩ := ((h.leads (by decide)).trans fun _ h => h.loadPred (by decide)).exists_reachable r
  obtain ⟨hw, -, -, -, os, hf, -⟩ := h
  obtain ⟨l, e⟩ : ∃ l, (program () (s.threads ())).interleave s.mem = some (s.mem, l) := by
    rw [hf]
    exact ⟨_, rfl⟩
  refine ⟨s, _, _, r, .move e, fun hc => ?_⟩
  have hc := hc sameCall .loadPred (congrArg Thread.current hf)
  rw [hw, Pc.subtracts, word_sub_one (by decide)] at hc
  exact absurd hc (not_le.mpr (word_lt_iff.mpr (Nat.lt_succ_self _)))

end Overflow

end Mysql

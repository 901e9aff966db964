import OrderingBugs.Transition.Exact
import OrderingBugs.Memory.Interleaving

open Function

-- The pool of memory buffers of OpenBLAS (`7-OpenBLAS.c`), of any size. What is printed is left out.
namespace OpenBlas

inductive Loc
  | memory (position : Nat)
  deriving DecidableEq

abbrev Val (_ : Loc) : Type :=
  Int

inductive AllocatePc
  | check (position : Nat)
  | load (position : Nat)
  | store (position : Nat)
  deriving DecidableEq

inductive ReleasePc
  | check (position : Int)
  | fence (position : Int)
  | store (position : Int)
  deriving DecidableEq

variable {L : Type}

-- `allocate_memory`
def allocateMemory (numBuffers : Nat) (k : AllocatePc → L) (ret : Int → L) :
    AllocatePc → Op Loc Val L
  | .check position => .skip (if position < numBuffers then k (.load position) else ret (-1))
  | .load position => .load .plain (.memory position) fun v =>
    if v = 0 then k (.store position) else k (.check (position + 1))
  | .store position => .store .plain (.memory position) 1 (ret position)

-- `release_memory`
def releaseMemory (numBuffers : Nat) (k : ReleasePc → L) (ret : L) : ReleasePc → Op Loc Val L
  | .check position => .skip (if position < 0 ∨ position ≥ numBuffers then ret else k (.fence position))
  | .fence position => .fence .release (k (.store position))
  | .store position => .store .plain (.memory position.toNat) 0 ret

inductive Pc
  | allocate (pc : AllocatePc)
  | use (position : Int)
  | release (pc : ReleasePc)
  deriving DecidableEq

-- `thread_function`, again and again.
def threadFunction (numBuffers : Nat) : Pc → Op Loc Val Pc
  | .allocate pc => allocateMemory numBuffers .allocate (fun position =>
      if position ≠ -1 then .use position else .allocate (.check 0)) pc
  | .use position => .skip (.release (.check position))
  | .release pc => releaseMemory numBuffers .release (.allocate (.check 0)) pc

-- The pool after `init_memory`.
def start : Mem Val
  | .memory _ => 0

variable (Tid : Type) [DecidableEq Tid]

abbrev State :=
  Interleaving.State Val Tid Pc

abbrev Label :=
  Interleaving.Label Tid Pc

def system (numBuffers : Nat) : System (State Tid) (Label Tid) :=
  Interleaving.system (fun _ => threadFunction numBuffers) start fun _ => .allocate (.check 0)

-- The position that a thread has obtained and not yet given back.
def Pc.holds : Pc → Option Int
  | allocate _ => none
  | use position => some position
  | release (.check position) | release (.fence position) | release (.store position) => some position

variable {Tid}

-- Nobody else holds a position that a thread holds, and it is marked.
structure Exclusive (s : State Tid) : Prop where
  unique : ∀ t u p, (s.threads t).holds = some p → (s.threads u).holds = some p → t = u
  marked : ∀ t p, (s.threads t).holds = some p → s.mem (.memory p.toNat) = 1

-- A thread marks a position only while it is still free.
def MarksFree (s : State Tid) (l : Label Tid) : Prop :=
  ∀ p, l.2.1 = .allocate (.store p) → s.mem (.memory p) = 0

variable {numBuffers : Nat} {s s' : State Tid} {l : Label Tid}

-- Positions are in range wherever the code relies on it.
def Pc.InRange (numBuffers : Nat) : Pc → Prop
  | allocate (.check _) => True
  | allocate (.load p) | allocate (.store p) => p < numBuffers
  | use p | release (.check p) | release (.fence p) | release (.store p) => 0 ≤ p ∧ p < numBuffers

-- What the code of a single thread does to a position: nothing, or it obtains it, or it gives it back.
theorem threadFunction_cases {m m' : Mem Val} {pc pc' : Pc} (h : pc.InRange numBuffers)
    (e : (threadFunction numBuffers pc).interleave m = some (m', pc')) :
    pc'.InRange numBuffers ∧
    ((m' = m ∧ pc'.holds = pc.holds) ∨
     (∃ p : Nat, pc = .allocate (.store p) ∧ m' = update m (.memory p) 1 ∧ pc'.holds = some (p : Int)) ∨
     (∃ p : Int, pc.holds = some p ∧ m' = update m (.memory p.toNat) 0 ∧ pc'.holds = none)) := by
  obtain (p | p | p) | p | (p | p | p) := pc
  all_goals
    simp only [threadFunction, allocateMemory, releaseMemory] at e
    cases e
    grind [Pc.InRange, Pc.holds]

theorem Pc.InRange.nonneg {pc : Pc} {p : Int} (h : pc.InRange numBuffers) (hp : pc.holds = some p) :
    0 ≤ p := by
  obtain (q | q | q) | q | (q | q | q) := pc
  all_goals grind [InRange, holds]

-- The threads are in range, and every position that is marked is held by one of them.
structure Accounted (numBuffers : Nat) (s : State Tid) : Prop where
  inRange : ∀ t, (s.threads t).InRange numBuffers
  holder  : ∀ p : Nat, s.mem (.memory p) ≠ 0 → ∃ t, (s.threads t).holds = some (p : Int)

namespace Accounted

omit [DecidableEq Tid] in
theorem init : Accounted numBuffers (⟨start, fun _ : Tid => .allocate (.check 0)⟩ : State Tid) :=
  ⟨fun _ => trivial, fun _ h => absurd rfl h⟩

theorem step (h : Accounted numBuffers s) (e : (system Tid numBuffers).Step s l s') :
    Accounted numBuffers s' := by
  cases e
  case move t m pc e =>
    obtain ⟨hr, hc⟩ := threadFunction_cases (h.inRange t) e
    refine ⟨(forall_update_iff s.threads fun _ pc => pc.InRange numBuffers).mpr
      ⟨hr, fun u _ => h.inRange u⟩, fun p hp => ?_⟩
    -- A position that stays marked stays with its holder.
    have hk (hm : s.mem (.memory p) ≠ 0) (ht : (s.threads t).holds = some (p : Int) → pc.holds = some p) :
        ∃ u, (update s.threads t pc u).holds = some (p : Int) := by
      obtain ⟨u, hu⟩ := h.holder p hm
      by_cases hut : u = t
      case pos => subst hut; exact ⟨u, by simpa using ht hu⟩
      case neg => exact ⟨u, by simpa [hut] using hu⟩
    obtain ⟨rfl, hh⟩ | ⟨q, hq, rfl, hh⟩ | ⟨q, hq, rfl, -⟩ := hc
    · exact hk hp (hh.trans ·)
    · by_cases hpq : p = q
      case pos => exact ⟨t, by simpa [hpq] using hh⟩
      case neg => exact hk (by simpa [hpq] using hp) (by simp [hq, Pc.holds])
    · have hpq : p ≠ q.toNat := by
        rintro rfl
        simp at hp
      refine hk (by simpa [hpq] using hp) fun ht => ?_
      rw [hq] at ht
      cases ht
      exact absurd rfl hpq

theorem of_reachable (r : (system Tid numBuffers).Reachable s) : Accounted numBuffers s :=
  r.invariant (fun _ hs => by cases hs; exact init) fun _ _ _ _ => step

end Accounted

namespace Exclusive

theorem step (h : Exclusive s) (hr : ∀ t, (s.threads t).InRange numBuffers) (hm : MarksFree s l)
    (e : (system Tid numBuffers).Step s l s') : Exclusive s' := by
  cases e
  case move t m pc e =>
    obtain ⟨-, hc⟩ := threadFunction_cases (hr t) e
    -- Whoever holds a position then is the thread that moves, or has held it before.
    have hu (u : Tid) (p : Int) (hp : (update s.threads t pc u).holds = some p) :
        (u = t ∧ pc.holds = some p) ∨ (u ≠ t ∧ (s.threads u).holds = some p) := by
      by_cases hut : u = t
      case pos => subst hut; exact .inl ⟨rfl, by simpa using hp⟩
      case neg => exact .inr ⟨hut, by simpa [hut] using hp⟩
    obtain ⟨rfl, hh⟩ | ⟨q, hq, rfl, hh⟩ | ⟨q, hq, rfl, hh⟩ := hc
    · have hv (u : Tid) (p : Int) (hp : (update s.threads t pc u).holds = some p) :
          (s.threads u).holds = some p := by
        obtain ⟨hut, ht⟩ | ⟨-, hw⟩ := hu u p hp
        · rw [hut, ← hh, ht]
        · exact hw
      exact ⟨fun u w p hp hw => h.unique u w p (hv u p hp) (hv w p hw),
        fun u p hp => h.marked u p (hv u p hp)⟩
    · -- The position is free, and so nobody holds it.
      have hf (u : Tid) (p : Int) (hp : (s.threads u).holds = some p) : p ≠ q ∧ p.toNat ≠ q := by
        have := h.marked u p hp
        have := (hr u).nonneg hp
        have := hm q hq
        grind
      refine ⟨fun u w p hp hw => ?unique, fun u p hp => ?marked⟩
      case unique => grind [h.unique]
      case marked =>
        obtain ⟨-, ht⟩ | ⟨-, hp⟩ := hu u p hp
        · obtain rfl : q = p := by simpa [hh] using ht
          simp
        · simpa [(hf u p hp).2] using h.marked u p hp
    · refine ⟨fun u w p hp hw => ?unique, fun u p hp => ?marked⟩
      case unique => grind [h.unique]
      case marked =>
        obtain ⟨-, ht⟩ | ⟨hut, hp⟩ := hu u p hp
        · cases hh.symm.trans ht
        · have hpq : p.toNat ≠ q.toNat := by
            have := (hr u).nonneg hp
            have := (hr t).nonneg hq
            have := h.unique u t p hp
            grind
          simpa [hpq] using h.marked u p hp

end Exclusive

-- A position that is marked already has a holder, who then shares it.
theorem not_exclusive_of_not_marksFree (h : Accounted numBuffers s)
    (e : (system Tid numBuffers).Step s l s') (hc : ¬MarksFree s l) : ¬Exclusive s' := by
  cases e
  case move t m pc e =>
    simp only [MarksFree, not_forall] at hc
    obtain ⟨p, hp, hm⟩ := hc
    obtain ⟨u, hu⟩ := h.holder p hm
    have hut : u ≠ t := by
      rintro rfl
      simp [show s.threads u = _ from hp, Pc.holds] at hu
    have ht : pc = .use p := by
      rw [show s.threads t = _ from hp] at e
      cases e
      exact if_pos (by omega)
    exact fun hx => hut <| hx.unique u t p (by simpa [hut] using hu) (by simp [ht, Pc.holds])

theorem marksFree_exact (Tid : Type) [DecidableEq Tid] (numBuffers : Nat) :
    (system Tid numBuffers).Exact MarksFree (¬Exclusive ·) := by
  refine ⟨fun ls s r => ?safe, fun s l s' r e hc => ?sharp⟩
  case safe =>
    refine System.safe_of_invariant (S := system Tid numBuffers)
      (I := fun s => Accounted numBuffers s ∧ Exclusive s) (fun s hs => ?_) (fun s l s' h hc e => ?_)
      (fun s h => not_not_intro h.2) r
    · cases hs
      exact ⟨.init, nofun, nofun⟩
    · exact ⟨h.1.step e, h.2.step h.1.inRange hc e⟩
  case sharp => exact .refl (not_exclusive_of_not_marksFree (.of_reachable r) e hc)

-- Both threads find the first buffer free before one of them has marked it.
theorem not_exclusive : ¬∀ s, (system Bool 192).Reachable s → Exclusive s := by
  have ⟨s, r, ht, hf⟩ := Interleaving.exists_reachable_of_schedule (fun _ : Bool => threadFunction 192)
    start (fun _ => .allocate (.check 0)) [true, true, false, false, true, false]
    (p := fun s => (s.threads true).holds = some 0 ∧ (s.threads false).holds = some 0) (by decide)
  exact fun h => absurd ((h s r).unique true false 0 ht hf) (by decide)

end OpenBlas

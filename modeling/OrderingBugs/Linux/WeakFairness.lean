import OrderingBugs.Linux.Fairness
import OrderingBugs.Linux.Weak

open Function

namespace Linux

open Mcs

variable {Tid : Type} [DecidableEq Tid] {as : List Access} {mem₀ : Mem (Val Tid Bool Int)}

variable [Fintype Tid]

theorem run_of_weak {ls : List (Machine.Label Tid (Loc Tid) (State Tid))} {s : WeakState Tid}
    (ht : mem₀ .tail = none) (r : (weak as mem₀).Run ls s) :
    (guarded (.perLocation (Val Tid Bool Int)) .weak (program as) stage mem₀ fun _ => ⟨.idle, 0⟩).Run
      ls s := by
  refine run_of_sealed (implements rfl as) ⟨ht, fun _ => rfl⟩ (fun s l s' r e => ?_) r
  cases e
  case drain => trivial
  case move t _ _ _ _ => exact fun _ _ _ _ hs => flushes_of_reachable r t (pc_of_stage hs)

-- The lock keeps the order of the exchanges also where stores are delayed.
theorem weak_fair (as : List Access) (mem₀ : Mem (Val Tid Bool Int)) (ht : mem₀ .tail = none) :
    ∀ ls s, (weak as mem₀).Run ls s →
      entries (ls.flatMap Machine.Label.moves) <+: exchanges .exchange (ls.flatMap Machine.Label.moves) := by
  intro ls s r
  exact (observes _ _ as).entries_of_run (implements rfl as) ⟨ht, fun _ => rfl⟩ (run_of_weak ht r)

-- The first thread enters, and the second one queues up behind it.
theorem weak_fair_queued :
    ∃ (ls : List (Machine.Label _ _ _)) (s : WeakState (Fin 2)), (weak [] fresh).Run ls s ∧
      entries (ls.flatMap Machine.Label.moves) = [0] ∧
      exchanges .exchange (ls.flatMap Machine.Label.moves) = [0, 1] ∧
      entries (ls.flatMap Machine.Label.moves) <+: exchanges .exchange (ls.flatMap Machine.Label.moves) := by
  have r := System.Run.init (S := (weak [] fresh : System (WeakState (Fin 2)) _)) rfl
  have r := r.step (.move (t := 0) rfl)
  have r := r.step (.move (t := 0) rfl)
  have r := r.step (.drain (t := 0) (x := .next 0) rfl)
  have r := r.step (.move (t := 0) rfl)
  have r := r.step (.move (t := 0) rfl)
  have r := r.step (.move (t := 1) rfl)
  have r := r.step (.move (t := 1) rfl)
  have r := r.step (.drain (t := 1) (x := .next 1) rfl)
  have r := r.step (.move (t := 1) rfl)
  have r := r.step (.move (t := 1) rfl)
  exact ⟨_, _, r, rfl, rfl, weak_fair [] fresh rfl _ _ r⟩

end Linux

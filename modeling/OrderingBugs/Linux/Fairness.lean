import OrderingBugs.Linux.Lock
import OrderingBugs.Mcs.Fairness
import OrderingBugs.Memory.Inclusion

open Function

namespace Linux

open Mcs

variable {Tid : Type} [DecidableEq Tid] {as : List Access} {mem₀ : Mem (Val Tid Bool Int)}

abbrev Label (Tid : Type) :=
  Interleaving.Label Tid (State Tid)

-- The lock under sequentially consistent interleaving.
def interleaving (as : List Access) (mem₀ : Mem (Val Tid Bool Int)) :
    System (Interleaving.State (Val Tid Bool Int) Tid (State Tid)) (Label Tid) :=
  Interleaving.system (program as) mem₀ fun _ => ⟨.idle, 0⟩

theorem observes (B : Buffering (Loc Tid) (Val Tid Bool Int)) (D : Discipline) (as : List Access) :
    Observes B D (program as) stage (exchange? .exchange) entrant? := by
  intro t l l' m m' b b' e
  match l with
  | ⟨.idle, _⟩ | ⟨.critical [] _, _⟩ | ⟨.critical (.load :: _) _, _⟩ => cases e; exact ⟨rfl, rfl⟩
  | ⟨.lock .storeNext, _⟩ | ⟨.lock .storeLocked, _⟩ | ⟨.lock (.storePrevNext _), _⟩
  | ⟨.critical (.store _ :: _) _, _⟩ | ⟨.unlock (.storeLocked _), _⟩ =>
    obtain ⟨rfl, -⟩ := Op.exec_store e
    exact ⟨rfl, rfl⟩
  | ⟨.lock .exchange, _⟩ =>
    obtain ⟨rfl, -⟩ := Op.exec_rmw e
    cases m .tail <;> exact ⟨rfl, rfl⟩
  | ⟨.lock .spin, _⟩ =>
    cases e
    cases B.view m b (.locked t) <;> exact ⟨rfl, rfl⟩
  | ⟨.unlock .loadNext, _⟩ | ⟨.unlock .spin, _⟩ | ⟨.unlock .loadSuccessor, _⟩ =>
    cases e
    cases B.view m b (.next t) <;> exact ⟨rfl, rfl⟩
  | ⟨.unlock .compareAndSwap, _⟩ =>
    obtain ⟨rfl, -⟩ := Op.exec_rmw e
    by_cases ht : m .tail = some t <;> simp only [ht, if_true, if_false] <;> exact ⟨rfl, rfl⟩
  | ⟨.unlock .fence, _⟩ =>
    simp only [program, rounds, qspinUnlock, Op.exec] at e
    split at e <;> cases e
    exact ⟨rfl, rfl⟩
  | ⟨.fault, _⟩ => cases e

-- Threads enter their critical sections in the order of their exchanges.
theorem interleaving_fair (as : List Access) (mem₀ : Mem (Val Tid Bool Int)) (ht : mem₀ .tail = none) :
    ∀ ls s, (interleaving as mem₀).Run ls s → entries ls <+: exchanges .exchange ls := by
  intro ls s r
  -- An interleaving is a run with total store order that shows the same transitions.
  obtain ⟨ls', c, r', _, hl⟩ := (Machine.ofInterleaving (.fifo _) .flushing (program as) mem₀
    (fun _ => ⟨.idle, 0⟩) (C := fun _ _ => True) (fun _ _ _ _ _ => trivial)
    fun _ _ _ => trivial).run r
  have h := (observes _ _ as).entries_of_run (implements rfl as) ⟨ht, fun _ => rfl⟩ <|
    run_of_sealed (implements rfl as) ⟨ht, fun _ => rfl⟩
      (fun _ _ _ _ => sealed_of_rmwWaits fun _ => rfl) r'.of_restrict
  rw [hl, List.flatMap_singleton'] at h
  exact h

-- The first thread enters, and the second one queues up behind it.
theorem interleaving_fair_queued :
    ∃ (ls : List (Label (Fin 2))) (s : _), (interleaving [] fresh).Run ls s ∧ entries ls = [0] ∧
      exchanges .exchange ls = [0, 1] ∧ entries ls <+: exchanges .exchange ls := by
  have r := System.Run.init (S := (interleaving [] fresh : System _ (Label (Fin 2)))) rfl
  have r := r.step (.move (t := 0) rfl)
  have r := r.step (.move (t := 0) rfl)
  have r := r.step (.move (t := 0) rfl)
  have r := r.step (.move (t := 0) rfl)
  have r := r.step (.move (t := 1) rfl)
  have r := r.step (.move (t := 1) rfl)
  have r := r.step (.move (t := 1) rfl)
  have r := r.step (.move (t := 1) rfl)
  exact ⟨_, _, r, rfl, rfl, interleaving_fair [] fresh rfl _ _ r⟩

end Linux

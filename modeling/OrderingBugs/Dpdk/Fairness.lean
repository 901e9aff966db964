import OrderingBugs.Dpdk.Tso
import OrderingBugs.Dpdk.Weak
import OrderingBugs.Mcs.Fairness

open Function

namespace Dpdk

open Mcs

variable {Tid : Type} [DecidableEq Tid] {as : List Access} {mem₀ : Mem (Val Tid Int Int)}

theorem observes (B : Buffering (Loc Tid) (Val Tid Int Int)) (D : Discipline) (as : List Access) :
    Observes B D (program as) stage (exchange? .exchange) entrant? := by
  intro t l l' m m' b b' e
  match l with
  | ⟨.idle, _⟩ | ⟨.critical [] _, _⟩ | ⟨.critical (.load :: _) _, _⟩ => cases e; exact ⟨rfl, rfl⟩
  | ⟨.lock .storeLocked, _⟩ | ⟨.lock .storeNext, _⟩ | ⟨.lock (.storePrevNext _), _⟩
  | ⟨.critical (.store _ :: _) _, _⟩ | ⟨.unlock (.storeLocked _), _⟩ =>
    obtain ⟨rfl, -⟩ := Op.exec_store e
    exact ⟨rfl, rfl⟩
  | ⟨.lock .exchange, _⟩ =>
    obtain ⟨rfl, -⟩ := Op.exec_rmw e
    cases m .tail <;> exact ⟨rfl, rfl⟩
  | ⟨.lock .fence, _⟩ | ⟨.unlock .fence, _⟩ =>
    simp only [program, rounds, rteMcslockLock, rteMcslockUnlock, Op.exec] at e
    split at e <;> cases e
    exact ⟨rfl, rfl⟩
  | ⟨.lock .spin, _⟩ =>
    cases e
    beta_reduce
    split <;> exact ⟨rfl, rfl⟩
  | ⟨.unlock .loadNext, _⟩ | ⟨.unlock .spin, _⟩ | ⟨.unlock .loadSuccessor, _⟩ =>
    cases e
    cases B.view m b (.next t) <;> exact ⟨rfl, rfl⟩
  | ⟨.unlock .compareExchange, _⟩ =>
    obtain ⟨rfl, -⟩ := Op.exec_rmw e
    by_cases ht : m .tail = some t <;> simp only [ht, if_true, if_false] <;> exact ⟨rfl, rfl⟩
  | ⟨.fault, _⟩ => cases e

theorem tso_fair {ls : List (Machine.Label Tid (Loc Tid) (State Tid))} {s : TsoState Tid}
    (ht : mem₀ .tail = none) (r : (tso as mem₀).Run ls s) :
    entries (ls.flatMap Machine.Label.moves) <+: exchanges .exchange (ls.flatMap Machine.Label.moves) :=
  (observes _ _ as).entries_of_run (implements rfl as) (ready ht) <|
    run_of_sealed (implements rfl as) (ready ht) (fun _ _ _ _ => sealed_of_rmwWaits fun _ => rfl) r

variable [Fintype Tid]

theorem timely_fair {ls : List (Machine.Label Tid (Loc Tid) (State Tid))} {s : WeakState Tid}
    (ht : mem₀ .tail = none) (r : (timely as mem₀).Run ls s) :
    entries (ls.flatMap Machine.Label.moves) <+: exchanges .exchange (ls.flatMap Machine.Label.moves) :=
  (observes _ _ as).entries_of_run (implements rfl as) (ready ht) <|
    run_of_prompt (implements rfl as) (prompt as) r

theorem timely_exclusive {ls : List (Machine.Label Tid (Loc Tid) (State Tid))} {s : WeakState Tid}
    (ht : mem₀ .tail = none) (r : (timely as mem₀).Run ls s) {t u : Tid}
    (hct : (s.threads t).InCriticalSection) (hcu : (s.threads u).InCriticalSection) : t = u := by
  have hσt := stage_of_inCriticalSection hct
  have hσu := stage_of_inCriticalSection hcu
  exact (valid_of_timely ht r).owner_unique (.inl (hσt ▸ trivial)) (.inl (hσu ▸ trivial))

-- Threads enter in the order of their exchanges. On the weaker machine they do, and one at a time, as long
-- as the stores to the nodes reach memory in time.
theorem fair (as : List Access) (mem₀ : Mem (Val Tid Int Int)) (ht : mem₀ .tail = none) :
    (∀ ls s, (tso as mem₀).Run ls s →
      entries (ls.flatMap Machine.Label.moves) <+: exchanges .exchange (ls.flatMap Machine.Label.moves)) ∧
    ∀ ls s, (timely as mem₀).Run ls s →
      entries (ls.flatMap Machine.Label.moves) <+: exchanges .exchange (ls.flatMap Machine.Label.moves) ∧
      ∀ t u, (s.threads t).InCriticalSection → (s.threads u).InCriticalSection → t = u :=
  ⟨fun _ _ => tso_fair ht, fun _ _ r => ⟨timely_fair ht r, fun _ _ => timely_exclusive ht r⟩⟩

-- The second thread queues up while the stores to both nodes are still delayed.
theorem fair_queued :
    ∃ (ls : List (Machine.Label _ _ _)) (s : WeakState (Fin 2)), (timely [] fresh).Run ls s ∧
      exchanges .exchange (ls.flatMap Machine.Label.moves) = [0, 1] ∧
      entries (ls.flatMap Machine.Label.moves) <+: exchanges .exchange (ls.flatMap Machine.Label.moves) := by
  have r := System.Run.init (S := (timely [] fresh : System (WeakState (Fin 2)) _)) rfl
  have r := r.step ⟨timely_of_buffered (by simp), .move (t := 0) rfl⟩
  have r := r.step ⟨timely_of_buffered (by simp), .move (t := 0) rfl⟩
  have r := r.step ⟨timely_of_buffered (by simp), .move (t := 0) rfl⟩
  have r := r.step ⟨timely_of_buffered (by simp), .move (t := 0) rfl⟩
  have r := r.step ⟨timely_of_buffered (by simp), .move (t := 1) rfl⟩
  have r := r.step ⟨timely_of_buffered (by simp), .move (t := 1) rfl⟩
  have r := r.step ⟨timely_of_buffered (by simp), .move (t := 1) rfl⟩
  have r := r.step ⟨timely_of_buffered (by simp), .move (t := 1) rfl⟩
  exact ⟨_, _, r, rfl, ((fair [] fresh rfl).2 _ _ r).1⟩

end Dpdk

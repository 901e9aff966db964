import OrderingBugs.Dpdk.Lock

open Function

namespace Dpdk

open Mcs

variable {Tid : Type} [DecidableEq Tid] {as : List Access} {mem₀ : Mem (Val Tid Int Int)}

abbrev TsoState (Tid : Type) [DecidableEq Tid] :=
  Machine.State (.fifo (Val Tid Int Int)) Tid (State Tid)

-- The lock with total store order, from given contents of memory.
def tso (as : List Access) (mem₀ : Mem (Val Tid Int Int)) :
    System (TsoState Tid) (Machine.Label Tid (Loc Tid) (State Tid)) :=
  Machine.system _ .flushing (program as) mem₀ fun _ => ⟨.idle, 0⟩

omit [DecidableEq Tid] in
theorem ready (ht : mem₀ .tail = none) :
    Ready (stage : State Tid → Stage Tid) mem₀ fun _ => ⟨.idle, 0⟩ :=
  ⟨ht, fun _ => rfl⟩

section Reachable

variable {s : TsoState Tid} (ht : mem₀ .tail = none)
variable (r : (tso as mem₀).Reachable s)

include ht r

theorem guarded_of_tso :
    (guarded (.fifo (Val Tid Int Int)) .flushing (program as) stage mem₀ fun _ => ⟨.idle, 0⟩).Reachable
      s :=
  have ⟨ls, r⟩ := r
  ⟨ls, run_of_sealed (implements rfl as) (ready ht)
    (fun _ _ _ _ => sealed_of_rmwWaits fun _ => rfl) r⟩

theorem valid_of_tso : Valid stage s :=
  valid_of_reachable (implements rfl as) (ready ht) (guarded_of_tso ht r)

theorem settled_of_tso : Settled stage s :=
  settled_of_reachable (implements rfl as) (ready ht)
    (fun _ _ _ _ => sealed_of_rmwWaits fun _ => rfl) (guarded_of_tso ht r)

end Reachable

-- In every state, all is done or something can be done. A thread whose compare-and-swap has failed can
-- count on its successor, and `tail` is null exactly when no thread is in the queue.
theorem tso_live (as : List Access) (mem₀ : Mem (Val Tid Int Int)) (ht : mem₀ .tail = none) :
    ∀ s, (tso as mem₀).Reachable s →
      (((∀ t, (s.threads t).pc = .idle) ∧ s.Flushed) ∨
        ∃ l s', (tso as mem₀).Step s l s' ∧ ¬Recheck l ∧ ¬Starts l) ∧
      (∀ t, CasFailed (s.threads t) →
        ∃ u, (s.threads u).pc = .lock (.storePrevNext t) ∨
          (Buffering.fifo (Val Tid Int Int)).pending (s.buf u) (.next t) = [some u] ∨
          s.mem (.next t) = some u) ∧
      (s.mem .tail = none ↔ ∀ t, ¬InQueue (s.threads t)) := by
  intro s r
  have hv := valid_of_tso ht r
  refine ⟨?progress, fun t h => ?successor, ?_⟩
  case progress =>
    by_cases h : (∀ t, (s.threads t).pc = .idle) ∧ s.Flushed
    case pos => exact .inl h
    case neg => exact .inr (exists_useful (advances as) hv pc_ne_idle_of_inside h)
  case successor =>
    have ⟨u, hu⟩ := hv.exists_successor (casFailed_iff.mp h)
    exact ⟨u, hu.imp_left linking_iff.mp⟩
  case _ => simpa only [inQueue_iff] using hv.tail_eq_none_iff

-- The second thread has exchanged `tail` but not linked itself when the first one wants to leave.
def unlinked (t u : Tid) : List (Machine.Choice Tid (Loc Tid)) :=
  List.flatten [.replicate 3 (.move t), [.drain t (.locked t), .drain t (.next t), .move t],
    .replicate 3 (.move u), [.drain u (.locked u), .drain u (.next u), .move u],
    .replicate 3 (.move t)]

theorem tso_live_unlinked :
    ∃ s : TsoState (Fin 2), (tso [] fresh).Reachable s ∧ (s.threads 0).pc = .unlock .fence ∧
      (∃ u, (s.threads u).pc = .lock (.storePrevNext 0) ∨
        (Buffering.fifo (Val (Fin 2) Int Int)).pending (s.buf u) (.next 0) = [some u] ∨
        s.mem (.next 0) = some u) ∧
      s.mem .tail ≠ none := by
  have ⟨s, r, hs⟩ := Machine.exists_reachable_of_schedule (.fifo _) .flushing (program []) fresh
    (fun _ => ⟨.idle, 0⟩) (unlinked (0 : Fin 2) 1) (p := fun s => (s.threads 0).pc = .unlock .fence)
    (by decide +kernel)
  have ⟨_, h, ht⟩ := tso_live [] fresh rfl s r
  refine ⟨s, r, hs, h 0 (.inl hs), fun hn => ht.mp hn 0 ?_⟩
  simp [InQueue, hs]

end Dpdk

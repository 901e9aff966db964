import OrderingBugs.Dpdk.Lock
import OrderingBugs.Memory.Delay

open Function

namespace Dpdk

open Mcs

variable {Tid : Type} [DecidableEq Tid] [Fintype Tid]
variable {as : List Access} {mem₀ : Mem (Val Tid Int Int)}

abbrev WeakState (Tid : Type) [DecidableEq Tid] [Fintype Tid] :=
  Machine.State (.perLocation (Val Tid Int Int)) Tid (State Tid)

-- The lock on a machine that orders stores only where release semantics ask for it.
def weak (as : List Access) (mem₀ : Mem (Val Tid Int Int)) :
    System (WeakState Tid) (Machine.Label Tid (Loc Tid) (State Tid)) :=
  Machine.system _ .weak (program as) mem₀ fun _ => ⟨.idle, 0⟩

-- The runs in which no thread hands over to, or links itself to, a thread whose own store to the same
-- variable is still delayed.
def timely (as : List Access) (mem₀ : Mem (Val Tid Int Int)) :
    System (WeakState Tid) (Machine.Label Tid (Loc Tid) (State Tid)) :=
  (weak as mem₀).restrict (Timely .weak (program as))

omit [Fintype Tid] in
-- The hand-off has release semantics.
theorem prompt (as : List Access) :
    Prompt .weak (program as) (stage : State Tid → Stage Tid) := by
  intro t l o n v k h hs
  obtain ⟨_ | pc | as | pc | _, _⟩ := l
  case unlock =>
    cases pc <;> cases h
    rfl
  case lock => cases pc <;> cases hs
  case critical => cases hs
  case idle => cases h
  case fault => cases h

omit [Fintype Tid] in
-- All other stores are buffered.
theorem timely_of_buffered {B : Buffering (Loc Tid) (Val Tid Int Int)}
    {s : Machine.State B Tid (State Tid)} {t : Tid} {l l' : State Tid}
    (h : ∀ n, l.pc ≠ .unlock (.storeLocked n)) : Timely .weak (program as) s (.move t l l') := by
  intro o x v k n hop ho
  match l with
  | ⟨.idle, _⟩ | ⟨.fault, _⟩ | ⟨.critical [] _, _⟩ | ⟨.critical (.load :: _) _, _⟩ => cases hop
  | ⟨.critical (.store _ :: _) _, _⟩ => cases hop; cases ho
  | ⟨.lock pc, _⟩ => cases pc <;> cases hop <;> cases ho
  | ⟨.unlock pc, _⟩ =>
    cases pc <;> cases hop
    case storeLocked n => exact absurd rfl (h n)

theorem valid_of_timely {ls : List (Machine.Label Tid (Loc Tid) (State Tid))} {s : WeakState Tid}
    (ht : mem₀ .tail = none) (r : (timely as mem₀).Run ls s) : Valid stage s :=
  valid_of_reachable (implements rfl as) ⟨ht, fun _ => rfl⟩
    (run_of_prompt (implements rfl as) (prompt as) r).reachable

-- If stores reach memory in time, then no state is stuck: no hand-off and no link is overwritten by a
-- delayed store to the node that it concerns.
theorem weak_live (as : List Access) (mem₀ : Mem (Val Tid Int Int)) (ht : mem₀ .tail = none) :
    ∀ ls s, (timely as mem₀).Run ls s →
      ((∃ t, (s.threads t).pc ≠ .idle) →
        ∃ l s', (weak as mem₀).Step s l s' ∧ ¬Recheck l ∧ ¬Starts l) ∧
      ∀ t x, x.owner? = some t → Machine.Undisturbed .weak (program as) t x ls := by
  intro ls s r
  refine ⟨fun ⟨t, hi⟩ => ?live, fun t x hx => ?undisturbed⟩
  case live =>
    exact exists_useful (advances as) (valid_of_timely ht r) pc_ne_idle_of_inside fun h => hi (h.1 t)
  case undisturbed =>
    refine Machine.undisturbed (fun s l hl ha => ?_) r
    cases l
    case move =>
      obtain ⟨hn, o, v, k, hop, ho⟩ := ha
      exact hl o x v k t hop ho hx hn.symm
    case drain =>
      obtain ⟨hn, rfl⟩ := ha
      exact hl t hx hn.symm

-- A thread takes the lock while the stores to its node are still in its buffers.
theorem weak_live_delayed :
    ∃ (ls : List (Machine.Label _ _ _)) (s : WeakState (Fin 2)),
      (timely [] fresh).Run ls s ∧ (s.threads 0).pc = .critical [] 0 ∧
      (∃ l s', (weak [] fresh).Step s l s' ∧ ¬Recheck l ∧ ¬Starts l) ∧
      Machine.Undisturbed .weak (program []) 0 (.locked 0) ls := by
  have r := System.Run.init (S := (timely [] fresh : System (WeakState (Fin 2)) _)) rfl
  have r := r.step ⟨timely_of_buffered (by simp), .move (t := 0) rfl⟩
  have r := r.step ⟨timely_of_buffered (by simp), .move (t := 0) rfl⟩
  have r := r.step ⟨timely_of_buffered (by simp), .move (t := 0) rfl⟩
  have r := r.step ⟨timely_of_buffered (by simp), .move (t := 0) rfl⟩
  have ⟨hl, hu⟩ := weak_live [] fresh rfl _ _ r
  exact ⟨_, _, r, rfl, hl ⟨0, nofun⟩, hu 0 (.locked 0) rfl⟩

omit [Fintype Tid] in
-- Threads that all wait for their fields to change while nothing is buffered wait forever.
theorem recheck_of_spin {B : Buffering (Loc Tid) (Val Tid Int Int)} {D : Discipline}
    {s s' : Machine.State B Tid (State Tid)} {l : Machine.Label Tid (Loc Tid) (State Tid)}
    (he : s.Flushed) (hs : ∀ t, (s.threads t).pc = .lock .spin ∧ s.mem (.locked t) ≠ 0)
    (e : Machine.Step D (program as) s l s') : Recheck l := by
  cases e
  case drain t x _ _ hp =>
    have hx := Buffering.pending_pop_self hp
    simp [he t x] at hx
  case move t _ _ _ e =>
    have ⟨hpc, hm⟩ := hs t
    generalize s.threads t = l₀ at e hpc
    obtain ⟨pc, n⟩ := l₀
    cases hpc
    cases e
    simp [Recheck, Buffering.view_nil (he t _), hm]

-- The link of the second thread reaches memory before its store of `locked` does, which then overwrites
-- the hand-off. The first thread queues up behind it for another round.
def overwritten (t u : Tid) : List (Machine.Choice Tid (Loc Tid)) :=
  List.flatten [.replicate 3 (.move t), [.drain t (.locked t), .drain t (.next t), .move t],
    .replicate 5 (.move u), [.drain u (.next t)], .replicate 4 (.move t),
    [.drain u (.locked u), .drain u (.next u), .move u], .replicate 5 (.move t),
    [.drain t (.locked t), .drain t (.next t), .drain t (.next u), .move t]]

theorem not_weak_live :
    ¬∀ s : WeakState (Fin 2), (weak [] fresh).Reachable s → (∃ t, (s.threads t).pc ≠ .idle) →
      ∃ l s', (weak [] fresh).Step s l s' ∧ ¬Recheck l := by
  intro h
  have ⟨s, r, he, hs⟩ := Machine.exists_reachable_of_schedule (.perLocation _) .weak (program []) fresh
    (fun _ => ⟨.idle, 0⟩) (overwritten (0 : Fin 2) 1)
    (p := fun s => s.Flushed ∧ ∀ t, (s.threads t).pc = .lock .spin ∧ s.mem (.locked t) ≠ 0)
    (by decide +kernel)
  have ⟨l, s', e, hr⟩ := h s r ⟨0, by simp [hs 0]⟩
  exact hr (recheck_of_spin he hs e)

end Dpdk

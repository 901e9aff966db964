import OrderingBugs.Linux.Lock

open Function

namespace Linux

open Mcs

variable {Tid : Type} [DecidableEq Tid] [Fintype Tid]
variable {as : List Access} {mem₀ : Mem (Val Tid Bool Int)}

abbrev WeakState (Tid : Type) [DecidableEq Tid] [Fintype Tid] :=
  Machine.State (.perLocation (Val Tid Bool Int)) Tid (State Tid)

-- The lock on a machine that orders stores only where release semantics ask for it.
def weak (as : List Access) (mem₀ : Mem (Val Tid Bool Int)) :
    System (WeakState Tid) (Machine.Label Tid (Loc Tid) (State Tid)) :=
  Machine.system _ .weak (program as) mem₀ fun _ => ⟨.idle, 0⟩

-- The store to `locked` keeps everything before it from being delayed past the exchange.
def Flushes (s : WeakState Tid) : Prop :=
  ∀ t, (s.threads t).pc = .lock .exchange → (Buffering.perLocation _).Empty (s.buf t)

theorem empty_of_exchange {t : Tid} {m m' : Mem (Val Tid Bool Int)} {l l' : State Tid}
    {b b' : (Buffering.perLocation (Val Tid Bool Int)).Buf}
    (e : (program as t l).exec (.perLocation _) .weak m b = some (m', b', l'))
    (hl : l'.pc = .lock .exchange) : (Buffering.perLocation _).Empty b' := by
  match l with
  | ⟨.lock .storeLocked, _⟩ =>
    obtain ⟨-, ⟨-, -, ho⟩ | ⟨-, rfl, he, -⟩⟩ := Op.exec_store e
    · cases ho
    · exact he
  | ⟨.idle, _⟩ | ⟨.lock .storeNext, _⟩ | ⟨.lock (.storePrevNext _), _⟩ | ⟨.critical [] _, _⟩
  | ⟨.critical (.load :: _) _, _⟩ | ⟨.critical (.store _ :: _) _, _⟩ => cases e; cases hl
  | ⟨.lock .exchange, _⟩ =>
    rw [(Op.exec_rmw e).1] at hl
    cases ht : m .tail <;> simp [ht] at hl
  | ⟨.lock .spin, _⟩ =>
    cases e
    beta_reduce at hl
    split at hl <;> cases hl
  | ⟨.unlock .loadNext, _⟩ | ⟨.unlock .spin, _⟩ | ⟨.unlock .loadSuccessor, _⟩ =>
    cases e
    beta_reduce at hl
    split at hl <;> cases hl
  | ⟨.unlock .compareAndSwap, _⟩ =>
    rw [(Op.exec_rmw e).1] at hl
    split at hl <;> cases hl
  | ⟨.unlock .fence, _⟩ =>
    simp only [program, rounds, qspinUnlock, Op.exec] at e
    split at e <;> cases e
    cases hl
  | ⟨.unlock (.storeLocked _), _⟩ =>
    rw [(Op.exec_store e).1] at hl
    cases hl
  | ⟨.fault, _⟩ => cases e

theorem flushes_of_reachable {s : WeakState Tid} (r : (weak as mem₀).Reachable s) : Flushes s := by
  refine r.invariant (I := Flushes) ?init ?step
  case init =>
    intro s hs t ht
    cases hs
    cases ht
  case step =>
    intro s l s' _ h e u hu
    cases e
    case move t _ _ _ e =>
      by_cases hut : u = t
      case pos =>
        subst hut
        simpa using empty_of_exchange e (by simpa using hu)
      case neg => simpa [hut] using h u (by simpa [hut] using hu)
    case drain t x _ _ hp =>
      by_cases hut : u = t
      case pos =>
        subst hut
        have hx := Buffering.pending_pop_self hp
        simp [h u hu x] at hx
      case neg => simpa [hut] using h u hu

theorem valid_of_weak {s : WeakState Tid} (ht : mem₀ .tail = none)
    (r : (weak as mem₀).Reachable s) : Valid stage s := by
  have ⟨ls, r⟩ := r
  refine valid_of_reachable (implements rfl as) ⟨ht, fun _ => rfl⟩
    (run_of_sealed (implements rfl as) ⟨ht, fun _ => rfl⟩ (fun s l s' r e => ?_) r).reachable
  cases e
  case drain => trivial
  case move t _ _ _ _ => exact fun _ _ _ _ hs => flushes_of_reachable r t (pc_of_stage hs)

-- At most one thread is in its critical section, and no state is stuck.
theorem weak_safe (as : List Access) (mem₀ : Mem (Val Tid Bool Int)) (ht : mem₀ .tail = none) :
    ∀ s, (weak as mem₀).Reachable s →
      (∀ t u, (s.threads t).InCriticalSection → (s.threads u).InCriticalSection → t = u) ∧
      ((∃ t, (s.threads t).pc ≠ .idle) →
        ∃ l s', (weak as mem₀).Step s l s' ∧ ¬Recheck l ∧ ¬Starts l) := by
  intro s r
  have hv := valid_of_weak ht r
  refine ⟨fun t u hct hcu => ?exclusive, fun ⟨t, hi⟩ => ?live⟩
  case exclusive =>
    have hσt := stage_of_inCriticalSection hct
    have hσu := stage_of_inCriticalSection hcu
    exact hv.owner_unique (.inl (hσt ▸ trivial)) (.inl (hσu ▸ trivial))
  case live => exact exists_useful (advances as) hv pc_ne_idle_of_inside fun h => hi (h.1 t)

-- The second thread waits while the first one is in its critical section and nothing is buffered.
def waiting (t u : Tid) : List (Machine.Choice Tid (Loc Tid)) :=
  List.flatten [.replicate 2 (.move t), [.drain t (.next t)], .replicate 2 (.move t),
    .replicate 2 (.move u), [.drain u (.next u)], .replicate 3 (.move u), [.drain u (.next t)]]

theorem weak_safe_waiting :
    ∃ s : WeakState (Fin 2), (weak [] fresh).Reachable s ∧ (s.threads 1).pc = .lock .spin ∧
      ∃ l s', (weak [] fresh).Step s l s' ∧ ¬Recheck l ∧ ¬Starts l := by
  have ⟨s, r, hs⟩ := Machine.exists_reachable_of_schedule (.perLocation _) .weak (program []) fresh
    (fun _ => ⟨.idle, 0⟩) (waiting (0 : Fin 2) 1) (p := fun s => (s.threads 1).pc = .lock .spin)
    (by decide +kernel)
  exact ⟨s, r, hs, (weak_safe [] fresh rfl s r).2 ⟨1, by simp [hs]⟩⟩

end Linux

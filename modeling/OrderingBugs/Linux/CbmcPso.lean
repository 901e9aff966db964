import OrderingBugs.Linux.Cbmc
import OrderingBugs.Memory.Renaming

open Function

namespace Linux.Cbmc

open Mcs

section Renaming

variable {Tid Tid' : Type}

def rename (f : Tid → Tid') : Loc Tid → Loc Tid'
  | .tail => .tail
  | .next n => .next (f n)
  | .locked n => .locked (f n)
  | .data => .data

def renameVal (f : Tid → Tid') : (x : Loc Tid) → Val Tid Bool Int x → Val Tid' Bool Int (rename f x)
  | .tail, v | .next _, v => v.map f
  | .locked _, v => v
  | .data, v => v

def LockPc.map (f : Tid → Tid') : LockPc Tid → LockPc Tid'
  | storeNext => .storeNext
  | storeLocked => .storeLocked
  | exchange => .exchange
  | storePrevNext prev => .storePrevNext (f prev)
  | assume => .assume

def UnlockPc.map (f : Tid → Tid') : UnlockPc Tid → UnlockPc Tid'
  | loadNext => .loadNext
  | compareAndSwap => .compareAndSwap
  | assume => .assume
  | loadSuccessor => .loadSuccessor
  | storeLocked n => .storeLocked (f n)

def renameThread (f : Tid → Tid') : State Tid → State Tid'
  | ⟨.idle, n⟩ => ⟨.idle, n⟩
  | ⟨.lock pc, n⟩ => ⟨.lock (pc.map f), n⟩
  | ⟨.critical as r, n⟩ => ⟨.critical as r, n⟩
  | ⟨.unlock pc, n⟩ => ⟨.unlock (pc.map f), n⟩
  | ⟨.fault, n⟩ => ⟨.fault, n⟩

theorem rename_injective {f : Tid → Tid'} (hf : Injective f) : Injective (rename f) := by
  intro x y h
  cases x <;> cases y <;> simp_all [rename, hf.eq_iff]

@[simp]
theorem rounds_renameThread {f : Tid → Tid'} {l : State Tid} : (renameThread f l).rounds = l.rounds := by
  obtain ⟨_ | _ | _ | _ | _, _⟩ := l <;> rfl

theorem Violated.rename {f : Tid → Tid'} {l : State Tid} (h : Violated l) : Violated (renameThread f l) := by
  obtain ⟨_ | _ | _ | _ | _, _⟩ := l
  case critical as r _ =>
    simp only [Violated, renameThread] at h ⊢
    split at h
    case h_1 hp =>
      cases hp
      simpa using h
    case h_2 => exact h.elim
  all_goals exact h.elim

variable [DecidableEq Tid] [DecidableEq Tid']

-- The names of the threads do not matter, nor do threads that take no part.
def embed (f : Tid → Tid') (hf : Injective f) :
    Machine.Renaming (threadFunc : Program Tid (Loc Tid) (Val Tid Bool Int) (State Tid))
      (threadFunc : Program Tid' (Loc Tid') (Val Tid' Bool Int) (State Tid')) where
  tid := f
  loc := rename f
  val := renameVal f
  thread := renameThread f
  tid_injective := hf
  loc_injective := rename_injective hf
  op t l := by
    simp only [threadFunc, rounds_renameThread]
    split
    case isFalse => exact .halt
    case isTrue =>
      match l with
      | ⟨.idle, _⟩ => exact .skip
      | ⟨.lock .storeNext, _⟩ => exact .store
      | ⟨.lock .storeLocked, _⟩ => exact .store
      | ⟨.lock .exchange, _⟩ => exact .rmw (fun _ => rfl) (by rintro (_ | _) <;> rfl)
      | ⟨.lock (.storePrevNext _), _⟩ => exact .store
      | ⟨.lock .assume, _⟩ => exact .load (by rintro (_ | _) <;> rfl)
      | ⟨.critical [] _, _⟩ => exact .skip
      | ⟨.critical (.load :: _) _, _⟩ => exact .load fun _ => rfl
      | ⟨.critical (.store _ :: _) _, _⟩ => exact .store
      | ⟨.unlock .loadNext, _⟩ => exact .load (by rintro (_ | _) <;> rfl)
      | ⟨.unlock .compareAndSwap, _⟩ =>
        have ht (v : Option Tid) : v.map f = some (f t) ↔ v = some t := by cases v <;> simp [hf.eq_iff]
        refine .rmw (fun v => ?_) fun v => ?_
        · simp only [renameVal, ht]
          split <;> rfl
        · simp only [renameVal, ht]
          split <;> rfl
      | ⟨.unlock .assume, _⟩ => exact .load (by rintro (_ | _) <;> rfl)
      | ⟨.unlock .loadSuccessor, _⟩ => exact .load (by rintro (_ | _) <;> rfl)
      | ⟨.unlock (.storeLocked _), _⟩ => exact .store
      | ⟨.fault, _⟩ => exact .halt

end Renaming

-- The hand-off of the first thread overtakes both of its stores to `cs`, and the first one of these
-- reaches memory before the second thread increments `cs`.
def overtaken (t u : Tid) : List (Machine.Choice Tid (Loc Tid)) :=
  List.flatten [.replicate 3 (.move t), [.drain t (.next t), .drain t (.locked t), .move t],
    .replicate 3 (.move u), [.drain u (.next u), .drain u (.locked u)], .replicate 2 (.move u),
    [.drain u (.next t)], .replicate 9 (.move t), [.drain t (.locked u), .drain t .data],
    .replicate 4 (.move u)]

instance {l : State Tid} : Decidable (Violated l) := by
  unfold Violated
  split <;> infer_instance

theorem violated_of_overtaken :
    ∃ s : PsoState (Fin 2), (pso fun _ => (none, false)).Reachable s ∧ Violated (s.threads 1) :=
  Machine.exists_reachable_of_schedule (.perLocation _) .flushing threadFunc (start fun _ => (none, false))
    (fun _ => ⟨.idle, 0⟩) (overtaken (0 : Fin 2) 1) (p := fun s => Violated (s.threads 1)) (by decide +kernel)

-- The assertion holds with total store order, for any number of threads, and can fail with partial store
-- order as soon as there are two of them.
theorem tso_holds_pso_fails (n : Nat) :
    (∀ (nodes : Fin n → Option (Fin n) × Bool) (s : TsoState (Fin n)), (tso nodes).Reachable s →
      ∀ t, ¬Violated (s.threads t)) ∧
    (2 ≤ n → ∃ (nodes : Fin n → Option (Fin n) × Bool) (s : PsoState (Fin n)), (pso nodes).Reachable s ∧
      ∃ t, Violated (s.threads t)) := by
  refine ⟨fun _ _ r => not_violated_of_tso r, fun hn => ?_⟩
  have ⟨s, r, h⟩ := violated_of_overtaken
  have ⟨s', r', hl⟩ := (embed _ (Fin.castLE_injective hn)).exists_reachable .flushing
    (start fun _ => (none, false)) (fun _ => ⟨.idle, 0⟩) (by rintro (_ | _ | _ | _) <;> rfl) (fun _ => rfl) r
  exact ⟨_, s', r', Fin.castLE hn 1, hl 1 ▸ h.rename⟩

theorem tso_holds_pso_fails_two :
    ∃ (nodes : Fin 2 → Option (Fin 2) × Bool) (s : PsoState (Fin 2)), (pso nodes).Reachable s ∧
      ∃ t, Violated (s.threads t) :=
  (tso_holds_pso_fails 2).2 le_rfl

end Linux.Cbmc

import OrderingBugs.Memory.Robustness

open Function

variable {Tid Loc L : Type} [DecidableEq Tid] [DecidableEq Loc] {Val : Loc → Type}

-- A program with its initial state and its assertions: `Failed` holds of the local states in which
-- an assertion of the thread has failed, and `Post` is asserted once all threads have been joined.
structure Test (Tid Loc : Type) (Val : Loc → Type) (L : Type) where
  program : Program Tid Loc Val L
  mem     : Mem Val
  threads : Tid → L
  Failed  : L → Prop
  Post    : Mem Val → (Tid → L) → Prop

namespace Test

variable (T : Test Tid Loc Val L)

def Halted (threads : Tid → L) : Prop :=
  ∀ t, T.program t (threads t) = .halt

def interleaving : System (Interleaving.State Val Tid L) (Interleaving.Label Tid L) :=
  Interleaving.system T.program T.mem T.threads

def machine (B : Buffering Loc Val) (D : Discipline) :
    System (Machine.State B Tid L) (Machine.Label Tid Loc L) :=
  Machine.system B D T.program T.mem T.threads

-- The runs in which no thread overtakes its own stores.
def ordered (B : Buffering Loc Val) (D : Discipline) :
    System (Machine.State B Tid L) (Machine.Label Tid Loc L) :=
  (T.machine B D).restrict (Machine.Ordered T.program)

-- The final memory and final local states of the complete interleavings.
def InterleavingOutcome (m : Mem Val) (f : Tid → L) : Prop :=
  T.interleaving.Reachable ⟨m, f⟩ ∧ T.Halted f

-- The final memory and final local states of the complete runs of a machine.
def Outcome (B : Buffering Loc Val) (D : Discipline) (m : Mem Val) (f : Tid → L) : Prop :=
  ∃ b, (T.machine B D).Reachable ⟨m, b, f⟩ ∧ T.Halted f ∧ ∀ t, B.Empty (b t)

-- A state in which an assertion of the test does not hold.
def InterleavingFails (s : Interleaving.State Val Tid L) : Prop :=
  (∃ t, T.Failed (s.threads t)) ∨ (T.Halted s.threads ∧ ¬T.Post s.mem s.threads)

def InterleavingViolates : Prop :=
  ∃ s, T.interleaving.Reachable s ∧ T.InterleavingFails s

def Fails {B : Buffering Loc Val} (s : Machine.State B Tid L) : Prop :=
  (∃ t, T.Failed (s.threads t)) ∨ (T.Halted s.threads ∧ s.Flushed ∧ ¬T.Post s.mem s.threads)

def Violates (B : Buffering Loc Val) (D : Discipline) : Prop :=
  ∃ s, (T.machine B D).Reachable s ∧ T.Fails s

def OrderedViolates (B : Buffering Loc Val) (D : Discipline) : Prop :=
  ∃ s, (T.ordered B D).Reachable s ∧ T.Fails s

variable {T} {B : Buffering Loc Val} {D : Discipline} {m : Mem Val} {f : Tid → L}

theorem exists_reachable_of_interleaving {s : Interleaving.State Val Tid L}
    (r : T.interleaving.Reachable s) :
    ∃ c : Machine.State B Tid L, (T.ordered B D).Reachable c ∧ c.mem = s.mem ∧
      c.threads = s.threads ∧ c.Flushed :=
  Machine.ofInterleaving B D T.program T.mem T.threads
    (fun _ _ _ _ h => .of_flushed h) (fun _ _ _ => .drain) |>.reachable r

theorem InterleavingOutcome.outcome (h : T.InterleavingOutcome m f) : T.Outcome B D m f := by
  have ⟨c, r, hm, hf, he⟩ := exists_reachable_of_interleaving (B := B) (D := D) h.1
  subst hm hf
  exact ⟨c.buf, r.of_restrict, h.2, he⟩

theorem Outcome.perLocation [Fintype Loc] (h : T.Outcome B D m f) :
    T.Outcome (.perLocation Val) D m f := by
  have ⟨b, r, hh, he⟩ := h
  have ⟨c, r, hc⟩ := Machine.toPerLocation B D T.program T.mem T.threads |>.reachable r
  subst hc
  exact ⟨_, r, hh, he⟩

theorem Violates.perLocation [Fintype Loc] (h : T.Violates B D) :
    T.Violates (.perLocation Val) D := by
  have ⟨s, r, hf⟩ := h
  have ⟨c, r, hc⟩ := Machine.toPerLocation B D T.program T.mem T.threads |>.reachable r
  subst hc
  exact ⟨_, r, hf⟩

theorem InterleavingViolates.ordered (h : T.InterleavingViolates) : T.OrderedViolates B D := by
  have ⟨s, r, hf⟩ := h
  have ⟨c, r, hm, ht, he⟩ := exists_reachable_of_interleaving (B := B) (D := D) r
  rw [InterleavingFails, ← hm, ← ht] at hf
  exact ⟨c, r, hf.imp_right fun ⟨hh, hp⟩ => ⟨hh, he, hp⟩⟩

theorem OrderedViolates.violates (h : T.OrderedViolates B D) : T.Violates B D :=
  have ⟨s, r, hf⟩ := h
  ⟨s, r.of_restrict, hf⟩

theorem InterleavingViolates.violates (h : T.InterleavingViolates) : T.Violates B D :=
  h.ordered.violates

theorem Violates.ordered
    (ho : ∀ s l s', (T.machine B D).Reachable s → (T.machine B D).Step s l s' →
      Machine.Ordered T.program s l) (h : T.Violates B D) : T.OrderedViolates B D :=
  have ⟨s, ⟨_, r⟩, hf⟩ := h
  ⟨s, (r.restrict fun s l s' r => ho s l s' r.of_restrict).reachable, hf⟩

-- The buffer of a thread can drain completely while the threads stand still.
theorem exists_drained (s : Machine.State (.fifo Val) Tid L) (t : Tid) :
    ∃ ls s', (T.ordered (.fifo Val) D).Steps s ls s' ∧
      s'.buf t = ([] : List (Buffering.Entry Val)) ∧ s'.threads = s.threads := by
  obtain ⟨m, g, f⟩ := s
  generalize hb : g t = b
  change List (Buffering.Entry Val) at b
  induction b generalizing m g
  case nil => exact ⟨[], _, .refl, hb, rfl⟩
  case cons e b hi =>
    have hp : (Buffering.fifo Val).pop (g t) e.1 = some (e.2, b) := by
      rw [hb]
      simp [Buffering.fifo]
    obtain ⟨ls, s', e, hb', ht⟩ := hi (update m e.1 e.2) (update g t b) (update_self ..)
    exact ⟨_, s', .step ⟨.drain, .drain hp⟩ e, hb', ht⟩

-- With total store order, interleavings violate the assertions that can be violated without
-- overtaking, and no others.
theorem orderedViolates_iff : T.OrderedViolates (.fifo Val) D ↔ T.InterleavingViolates where
  mpr := InterleavingViolates.ordered
  mp h := by
    have ⟨s, r, hf⟩ := h
    let sim := Machine.ofOrdered D T.program T.mem T.threads
    cases hf
    case inl hf =>
      have ⟨t, hf⟩ := hf
      have ⟨_, s', e, hb, ht⟩ := exists_drained (T := T) (D := D) s t
      have ⟨c, r, _, hl⟩ := sim.reachable (r.steps e)
      have hc := (hb ▸ hl t).eq_of_nil
      exact ⟨c, r, .inl ⟨t, by rwa [hc, ht]⟩⟩
    case inr hf =>
      have ⟨c, r, hm, hl⟩ := sim.reachable r
      have hc : c.threads = s.threads := by
        funext t
        have hb := Buffering.fifo_empty_iff.mp (hf.2.1 t)
        exact (hb ▸ hl t).eq_of_nil
      exact ⟨c, r, .inr (by rw [hc, hm]; exact ⟨hf.1, hf.2.2⟩)⟩

section Exploration

variable (T) [Fintype Tid] [DecidablePred T.Failed] [∀ m f, Decidable (T.Post m f)]

instance {f : Tid → L} : Decidable (T.Halted f) :=
  Fintype.decidableForallFintype

instance : DecidablePred T.InterleavingFails :=
  fun _ => inferInstanceAs (Decidable (_ ∨ _))

instance : DecidablePred (T.Fails (B := B)) :=
  fun _ => inferInstanceAs (Decidable (_ ∨ _))

def next (s : Interleaving.State Val Tid L) (t : Tid) : Option (Interleaving.State Val Tid L) :=
  match (T.program t (s.threads t)).interleave s.mem with
  | none => none
  | some (m, l) => some { mem := m, threads := update s.threads t l }

-- No interleaving from the given state has more than the given number of steps, and none fails.
def explore : Nat → Interleaving.State Val Tid L → Bool
  | 0, s => decide (¬T.InterleavingFails s) && decide (∀ t, (T.next s t).isNone)
  | n + 1, s => decide (¬T.InterleavingFails s) && decide (∀ t, (T.next s t).all (explore n))

variable {T}

omit [Fintype Tid] [DecidablePred T.Failed] [∀ m f, Decidable (T.Post m f)] in
theorem next_eq_some_of_step {s s' : Interleaving.State Val Tid L} {l : Interleaving.Label Tid L}
    (e : T.interleaving.Step s l s') : T.next s l.1 = some s' := by
  cases e
  case move h => simp [next, h]

theorem not_fails_of_explore {n : Nat} {s s' : Interleaving.State Val Tid L}
    {ls : List (Interleaving.Label Tid L)} (h : T.explore n s = true)
    (e : T.interleaving.Steps s ls s') : ¬T.InterleavingFails s' := by
  induction e generalizing n
  case refl => cases n <;> simp_all [explore]
  case step _ l _ _ _ e _ hi =>
    have hn := next_eq_some_of_step e
    cases n <;> simp only [explore, Bool.and_eq_true, decide_eq_true_eq] at h
    case zero => simpa [hn] using h.2 l.1
    case succ => exact hi (by simpa [hn] using h.2 l.1)

-- Exploration settles the tests that always end.
theorem not_interleavingViolates_of_explore (n : Nat) (h : T.explore n ⟨T.mem, T.threads⟩ = true) :
    ¬T.InterleavingViolates := by
  intro ⟨s, ⟨ls, r⟩, hf⟩
  have e : T.interleaving.Steps ⟨T.mem, T.threads⟩ ls s := r.exists_steps fun _ => id
  exact not_fails_of_explore h e hf

-- A schedule that ends in a failing state.
theorem violates_of_schedule (cs : List (Machine.Choice Tid Loc))
    (h : (Machine.State.schedule D T.program ⟨T.mem, fun _ => B.empty, T.threads⟩ cs).any
      (T.Fails ·) = true) : T.Violates B D :=
  Machine.exists_reachable_of_schedule B D T.program T.mem T.threads cs h

end Exploration
end Test

import OrderingBugs.Transition.System

namespace System

variable {S : System σ α} {C : σ → α → Prop} {p q Bad : σ → Prop} {s s' : σ} {l : α}

-- Some run from the state leads to one with the given property.
def Leads (S : System σ α) (p : σ → Prop) (s : σ) : Prop :=
  ∃ ls s', S.Steps s ls s' ∧ p s'

namespace Leads

theorem refl (h : p s) : S.Leads p s :=
  ⟨[], s, .refl, h⟩

theorem step (e : S.Step s l s') (h : S.Leads p s') : S.Leads p s :=
  let ⟨_, _, es, h⟩ := h
  ⟨_, _, .step e es, h⟩

theorem trans (hp : S.Leads p s) (hq : ∀ s, p s → S.Leads q s) : S.Leads q s := by
  obtain ⟨_, _, es, hp⟩ := hp
  have ⟨_, _, es', hq⟩ := hq _ hp
  exact ⟨_, _, es.trans es', hq⟩

-- The invariants of reachable states are available where a run is continued.
theorem reachable (r : S.Reachable s) (h : S.Leads p s) :
    S.Leads (fun s => S.Reachable s ∧ p s) s :=
  let ⟨_, _, es, h⟩ := h
  ⟨_, _, es, r.steps es, h⟩

theorem exists_reachable (r : S.Reachable s) (h : S.Leads p s) : ∃ s, S.Reachable s ∧ p s :=
  let ⟨_, s, es, h⟩ := h
  ⟨s, r.steps es, h⟩

-- A run that can always be continued towards a property, in steps that make a measure smaller, gets there.
theorem of_measure (f : σ → Nat)
    (h : ∀ s, p s → ¬q s → ∃ l s', S.Step s l s' ∧ f s' < f s ∧ p s') (hs : p s) : S.Leads q s := by
  induction hn : f s using Nat.strongRecOn generalizing s
  case ind n hi =>
    by_cases hq : q s
    case pos => exact .refl hq
    case neg =>
      obtain ⟨_, s', e, hf, hp⟩ := h s hs hq
      exact .step e (hi (f s') (hn ▸ hf) hp rfl)

end Leads

-- A condition on steps that separates the runs that stay clear of the bad states from the others. While
-- every step meets it no bad state is reached, and after any step that does not meet it one can be.
structure Exact (S : System σ α) (C : σ → α → Prop) (Bad : σ → Prop) : Prop where
  safe  : ∀ ls s, (S.restrict C).Run ls s → ¬Bad s
  sharp : ∀ s l s', S.Reachable s → S.Step s l s' → ¬C s l → S.Leads Bad s'

-- The same for a property of runs: it holds while every step meets the condition, and after any step that
-- does not meet it the run may go on to one without the property.
structure ExactRuns (S : System σ α) (C : σ → α → Prop) (p : List α → σ → Prop) : Prop where
  safe  : ∀ ls s, (S.restrict C).Run ls s → p ls s
  sharp : ∀ ls s l s', S.Run ls s → S.Step s l s' → ¬C s l →
    ∃ ls' s'', S.Steps s' ls' s'' ∧ ¬p (ls ++ l :: ls') s''

-- The safe half follows from an invariant of the steps that meet the condition.
theorem safe_of_invariant {I : σ → Prop} (hi : ∀ s, S.Init s → I s)
    (hs : ∀ s l s', I s → C s l → S.Step s l s' → I s') (hb : ∀ s, I s → ¬Bad s) {ls : List α}
    (r : (S.restrict C).Run ls s) : ¬Bad s :=
  hb s <| r.reachable.invariant (S := S.restrict C) hi fun s l s' _ h e => hs s l s' h e.1 e.2

-- Where a bad state is never left, and precisely the steps that do not meet the condition lead to one, the
-- condition singles out the runs that stay clear of the bad states.
theorem run_restrict_iff {ls : List α} (hi : ∀ s, S.Init s → ¬p s)
    (hs : ∀ s l s', S.Reachable s → S.Step s l s' → (p s' ↔ p s ∨ ¬C s l)) :
    (S.restrict C).Run ls s ↔ S.Run ls s ∧ ¬p s where
  mp r := by
    refine ⟨r.of_restrict, ?_⟩
    induction r
    case init h => exact hi _ h
    case step r e h =>
      rw [hs _ _ _ r.of_restrict.reachable e.2]
      exact not_or_intro h (not_not_intro e.1)
  mpr := by
    rintro ⟨r, hb⟩
    induction r
    case init h => exact .init h
    case step r e h =>
      rw [hs _ _ _ r.reachable e, not_or, not_not] at hb
      exact (h hb.1).step ⟨hb.2, e⟩

end System

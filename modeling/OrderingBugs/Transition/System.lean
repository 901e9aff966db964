import Mathlib.Logic.Relation
import Mathlib.Data.List.Basic

-- A labelled transition system. States carry everything a step may read; a label says which step
-- was taken, so that a run can be observed through its labels alone.
structure System (σ α : Type*) where
  Init : σ → Prop
  Step : σ → α → σ → Prop

namespace System

-- The runs from a given state.
inductive Steps (S : System σ α) : σ → List α → σ → Prop
  | refl : Steps S s [] s
  | step : S.Step s₁ l s₂ → Steps S s₂ ls s₃ → Steps S s₁ (l :: ls) s₃

-- The runs from an initial state, extended at their end.
inductive Run (S : System σ α) : List α → σ → Prop
  | init : S.Init s → Run S [] s
  | step : Run S ls s → S.Step s l s' → Run S (ls ++ [l]) s'

def Reachable (S : System σ α) (s : σ) : Prop :=
  ∃ ls, S.Run ls s

-- The system whose steps additionally satisfy a condition on the state before them.
def restrict (S : System σ α) (C : σ → α → Prop) : System σ α where
  Init := S.Init
  Step s l s' := C s l ∧ S.Step s l s'

variable {S : System σ α} {T : System τ β} {s s' : σ} {l : α} {ls : List α}

namespace Steps

theorem single (e : S.Step s l s') : S.Steps s [l] s' :=
  .step e .refl

theorem trans {s₁ s₂ s₃ : σ} {ls₁ ls₂ : List α} (e₁ : S.Steps s₁ ls₁ s₂)
    (e₂ : S.Steps s₂ ls₂ s₃) : S.Steps s₁ (ls₁ ++ ls₂) s₃ := by
  induction e₁
  case refl => exact e₂
  case step e _ hi => exact .step e (hi e₂)

theorem invariant {I : σ → Prop} (hs : ∀ s l s', I s → S.Step s l s' → I s') (e : S.Steps s ls s')
    (h : I s) : I s' := by
  induction e
  case refl => exact h
  case step e _ hi => exact hi (hs _ _ _ h e)

end Steps

namespace Run

theorem steps {ls' : List α} (r : S.Run ls s) (e : S.Steps s ls' s') :
    S.Run (ls ++ ls') s' := by
  induction e generalizing ls
  case refl => simpa using r
  case step e _ hi => simpa using hi (r.step e)

theorem reachable (r : S.Run ls s) : S.Reachable s :=
  ⟨ls, r⟩

-- A property of a run that holds initially and is kept by each step holds of every run.
theorem invariant {I : List α → σ → Prop} (hi : ∀ s, S.Init s → I [] s)
    (hs : ∀ ls s l s', S.Run ls s → I ls s → S.Step s l s' → I (ls ++ [l]) s')
    (r : S.Run ls s) : I ls s := by
  induction r
  case init h => exact hi _ h
  case step r e h => exact hs _ _ _ _ r h e

-- With a single initial state, runs are the steps from it.
theorem exists_steps {s₀ : σ} (hi : ∀ s, S.Init s → s = s₀) (r : S.Run ls s) :
    S.Steps s₀ ls s := by
  induction r
  case init h => exact hi _ h ▸ .refl
  case step e hi => exact hi.trans (.single e)

theorem nil_iff : S.Run [] s ↔ S.Init s where
  mp r := by
    generalize h : [] = ls at r
    cases r
    case init hi => exact hi
    case step => simp at h
  mpr := .init

theorem append_singleton_iff : S.Run (ls ++ [l]) s' ↔ ∃ s, S.Run ls s ∧ S.Step s l s' where
  mp r := by
    generalize h : ls ++ [l] = ls' at r
    cases r
    case init => simp at h
    case step r e =>
      obtain ⟨rfl, rfl⟩ : ls = _ ∧ l = _ := by simpa using h
      exact ⟨_, r, e⟩
  mpr := fun ⟨_, r, e⟩ => r.step e

-- Where labels determine the steps, they determine the runs.
theorem unique {s₀ s₁ s₂ : σ} (hi : ∀ s, S.Init s → s = s₀)
    (hs : ∀ s l s₁ s₂, S.Step s l s₁ → S.Step s l s₂ → s₁ = s₂) (r₁ : S.Run ls s₁) (r₂ : S.Run ls s₂) :
    s₁ = s₂ := by
  induction r₁ generalizing s₂
  case init h₁ => exact (hi _ h₁).trans (hi _ (nil_iff.mp r₂)).symm
  case step e₁ h =>
    obtain ⟨_, r₂, e₂⟩ := append_singleton_iff.mp r₂
    cases h r₂
    exact hs _ _ _ _ e₁ e₂

-- A system whose reachable states allow the steps of another one has its runs.
theorem mono {T : System σ α} (hi : ∀ s, S.Init s → T.Init s)
    (hs : ∀ s l s', T.Reachable s → S.Step s l s' → T.Step s l s') (r : S.Run ls s) :
    T.Run ls s := by
  induction r
  case init h => exact .init (hi _ h)
  case step e r => exact r.step (hs _ _ _ ⟨_, r⟩ e)

theorem of_restrict {C : σ → α → Prop} (r : (S.restrict C).Run ls s) : S.Run ls s :=
  mono (S := S.restrict C) (fun _ => id) (fun _ _ _ _ e => e.2) r

-- A condition that every step satisfies does not restrict the runs.
theorem restrict {C : σ → α → Prop}
    (hc : ∀ s l s', (S.restrict C).Reachable s → S.Step s l s' → C s l) (r : S.Run ls s) :
    (S.restrict C).Run ls s :=
  mono (S := S) (T := S.restrict C) (fun _ => id) (fun _ _ _ r e => ⟨hc _ _ _ r e, e⟩) r

end Run

namespace Reachable

theorem init (h : S.Init s) : S.Reachable s :=
  ⟨[], .init h⟩

theorem step (r : S.Reachable s) (e : S.Step s l s') : S.Reachable s' :=
  let ⟨_, r⟩ := r
  ⟨_, r.step e⟩

theorem steps (r : S.Reachable s) (e : S.Steps s ls s') : S.Reachable s' :=
  let ⟨_, r⟩ := r
  ⟨_, r.steps e⟩

theorem of_restrict {C : σ → α → Prop} (r : (S.restrict C).Reachable s) : S.Reachable s :=
  let ⟨_, r⟩ := r
  ⟨_, r.of_restrict⟩

theorem invariant {I : σ → Prop} (hi : ∀ s, S.Init s → I s)
    (hs : ∀ s l s', S.Reachable s → I s → S.Step s l s' → I s') (r : S.Reachable s) : I s :=
  let ⟨_, r⟩ := r
  r.invariant (I := fun _ => I) hi fun _ _ _ _ r => hs _ _ _ r.reachable

end Reachable

-- A forward simulation. A step of `S` is matched by any number of steps of `T` that show the same
-- observations. The target state may be assumed reachable, so that the invariants of `T` are
-- available where the steps of `S` are matched.
structure Simulation (S : System σ α) (T : System τ β) (obs : α → List γ) (obs' : β → List γ) where
  Rel  : σ → τ → Prop
  init : ∀ s, S.Init s → ∃ t, T.Init t ∧ Rel s t
  step : ∀ s t l s', S.Reachable s → T.Reachable t → Rel s t → S.Step s l s' →
    ∃ ls t', T.Steps t ls t' ∧ ls.flatMap obs' = obs l ∧ Rel s' t'

theorem Simulation.run {obs : α → List γ} {obs' : β → List γ} (sim : Simulation S T obs obs')
    (r : S.Run ls s) :
    ∃ ls' t, T.Run ls' t ∧ sim.Rel s t ∧ ls'.flatMap obs' = ls.flatMap obs := by
  induction r
  case init h =>
    have ⟨t, ht, hr⟩ := sim.init _ h
    exact ⟨[], t, .init ht, hr, rfl⟩
  case step r e hi =>
    have ⟨ls₁, t, rt, hr, ho⟩ := hi
    have ⟨ls₂, t', et, ho', hr'⟩ := sim.step _ _ _ _ r.reachable rt.reachable hr e
    exact ⟨ls₁ ++ ls₂, t', rt.steps et, hr', by simp [ho, ho']⟩

theorem Simulation.reachable {obs : α → List γ} {obs' : β → List γ}
    (sim : Simulation S T obs obs') (r : S.Reachable s) : ∃ t, T.Reachable t ∧ sim.Rel s t :=
  let ⟨_, r⟩ := r
  let ⟨_, t, rt, hr, _⟩ := sim.run r
  ⟨t, rt.reachable, hr⟩

end System

import OrderingBugs.Memory.Interleaving

variable {Loc Pc R C : Type} [DecidableEq Loc] {Val : Loc → Type}

-- Functions that are executed alone.
namespace Sequential

-- The code of a function, which goes on at another place or returns a result.
abbrev Code (Loc : Type) (Val : Loc → Type) (Pc R : Type) :=
  Pc → Op Loc Val (Pc ⊕ R)

-- The execution of the code from a place on. A function that never returns, or is stuck, has none.
inductive Eval (f : Code Loc Val Pc R) : Mem Val → Pc → Mem Val → R → Prop
  | ret {m m' : Mem Val} {p : Pc} {r : R} :
    (f p).interleave m = some (m', .inr r) → Eval f m p m' r
  | step {m n m' : Mem Val} {p q : Pc} {r : R} :
    (f p).interleave m = some (n, .inl q) → Eval f n q m' r → Eval f m p m' r

-- The same with the places that the execution passes.
inductive Trace (f : Code Loc Val Pc R) : Mem Val → Pc → List Pc → Mem Val → R → Prop
  | ret {m m' : Mem Val} {p : Pc} {r : R} :
    (f p).interleave m = some (m', .inr r) → Trace f m p [p] m' r
  | step {m n m' : Mem Val} {p q : Pc} {ps : List Pc} {r : R} :
    (f p).interleave m = some (n, .inl q) → Trace f n q ps m' r → Trace f m p (p :: ps) m' r

variable {f : Code Loc Val Pc R} {m m' m₁ m₂ : Mem Val} {pc : Pc} {ps ps₁ ps₂ : List Pc} {r r₁ r₂ : R}

namespace Trace

theorem unique (h₁ : Trace f m pc ps₁ m₁ r₁) (h₂ : Trace f m pc ps₂ m₂ r₂) :
    ps₁ = ps₂ ∧ m₁ = m₂ ∧ r₁ = r₂ := by
  induction h₁ generalizing ps₂
  case ret e =>
    cases h₂
    case ret e' => cases e.symm.trans e'; exact ⟨rfl, rfl, rfl⟩
    case step e' _ => cases e.symm.trans e'
  case step e _ hi =>
    cases h₂
    case ret e' => cases e.symm.trans e'
    case step e' h => cases e.symm.trans e'; exact (hi h).imp_left (congrArg _)

theorem eval (h : Trace f m pc ps m' r) : Eval f m pc m' r := by
  induction h
  case ret e => exact .ret e
  case step e _ hi => exact .step e hi

end Trace

namespace Eval

theorem exists_trace (h : Eval f m pc m' r) : ∃ ps, Trace f m pc ps m' r := by
  induction h
  case ret e => exact ⟨_, .ret e⟩
  case step e _ hi => exact hi.imp' _ fun _ => .step e

theorem unique (h₁ : Eval f m pc m₁ r₁) (h₂ : Eval f m pc m₂ r₂) : m₁ = m₂ ∧ r₁ = r₂ :=
  have ⟨_, h₁⟩ := h₁.exists_trace
  have ⟨_, h₂⟩ := h₂.exists_trace
  (h₁.unique h₂).2

-- A function that calls another one returns if it does so as soon as the other one has returned.
theorem of_call {Pc' R' : Type} {g : Code Loc Val Pc' R'} {k : Pc → Pc'} {ret : R → Pc' ⊕ R'} {r' : R'}
    (hg : ∀ p m, (g (k p)).interleave m =
      ((f p).interleave m).map (Prod.map id (Sum.elim (fun q => .inl (k q)) ret)))
    (h : Eval f m pc m' r) (hr : ret r = .inr r') : Eval g m (k pc) m' r' := by
  induction h
  case ret e => exact .ret (by rw [hg, e, ← hr]; rfl)
  case step e _ hi => exact .step (by rw [hg, e]; rfl) (hi hr)

end Eval

-- Calls that are made one after the other. A label is a call with its result.
def system (call : C → Mem Val → Mem Val → R → Prop) (mem₀ : Mem Val) : System (Mem Val) (C × R) where
  Init m := m = mem₀
  Step m l m' := call l.1 m m' l.2

end Sequential

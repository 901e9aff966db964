import OrderingBugs.Transition.System
import OrderingBugs.Memory.Operation

open Function

variable {Tid Loc L : Type} [DecidableEq Tid] [DecidableEq Loc] {Val : Loc → Type}

-- The effect of an operation that acts on memory at once.
def Op.interleave (m : Mem Val) : Op Loc Val L → Option (Mem Val × L)
  | halt => none
  | skip k => some (m, k)
  | load _ x k => some (m, k (m x))
  | store _ x v k => some (update m x v, k)
  | rmw _ x f k => some (update m x (f (m x)), k (m x))
  | fence _ k => some (m, k)

-- Sequentially consistent interleaving of threads.
namespace Interleaving

structure State (Val : Loc → Type) (Tid L : Type) where
  mem     : Mem Val
  threads : Tid → L

-- The local transition of the thread that moves.
abbrev Label (Tid L : Type) :=
  Tid × L × L

inductive Step (P : Program Tid Loc Val L) :
    State Val Tid L → Label Tid L → State Val Tid L → Prop
  | move {s : State Val Tid L} {t : Tid} {m : Mem Val} {l : L} :
    (P t (s.threads t)).interleave s.mem = some (m, l) →
    Step P s (t, s.threads t, l) { mem := m, threads := update s.threads t l }

def system (P : Program Tid Loc Val L) (mem₀ : Mem Val) (threads₀ : Tid → L) :
    System (State Val Tid L) (Label Tid L) where
  Init s := s = { mem := mem₀, threads := threads₀ }
  Step := Step P

-- A label says which thread has moved and to where, so it determines the step.
theorem Step.unique {P : Program Tid Loc Val L} {s s₁ s₂ : State Val Tid L} {l : Label Tid L}
    (e₁ : Step P s l s₁) (e₂ : Step P s l s₂) : s₁ = s₂ := by
  cases e₁
  case move t m k e₁ =>
    generalize hl : (t, s.threads t, k) = l at e₂
    cases e₂
    case move u m' k' e₂ =>
      obtain ⟨rfl, -, rfl⟩ : t = u ∧ _ ∧ k = k' := by simpa using hl
      cases e₁.symm.trans e₂
      rfl

theorem run_unique {P : Program Tid Loc Val L} {mem₀ : Mem Val} {threads₀ : Tid → L}
    {ls : List (Label Tid L)} {s₁ s₂ : State Val Tid L} (r₁ : (system P mem₀ threads₀).Run ls s₁)
    (r₂ : (system P mem₀ threads₀).Run ls s₂) : s₁ = s₂ :=
  System.Run.unique (fun _ => id) (fun _ _ _ _ => Step.unique) r₁ r₂

section Schedule

variable {P : Program Tid Loc Val L} {s s' : State Val Tid L}

def State.next (P : Program Tid Loc Val L) (s : State Val Tid L) (t : Tid) : Option (State Val Tid L) :=
  ((P t (s.threads t)).interleave s.mem).map fun (m, l) => ⟨m, update s.threads t l⟩

def State.schedule (P : Program Tid Loc Val L) (s : State Val Tid L) :
    List Tid → Option (State Val Tid L)
  | [] => some s
  | t :: ts =>
    match s.next P t with
    | none => none
    | some s => s.schedule P ts

theorem State.schedule_steps {mem₀ : Mem Val} {threads₀ : Tid → L} {ts : List Tid}
    (h : s.schedule P ts = some s') : ∃ ls, (system P mem₀ threads₀).Steps s ls s' := by
  induction ts generalizing s <;> simp only [schedule] at h
  case nil => exact ⟨[], Option.some.inj h ▸ .refl⟩
  case cons hi =>
    split at h
    case h_1 => cases h
    case h_2 hn =>
      obtain ⟨⟨m, l⟩, he, rfl⟩ := Option.map_eq_some_iff.mp hn
      have ⟨_, es⟩ := hi h
      exact ⟨_, .step (.move he) es⟩

theorem State.schedule_reachable {mem₀ : Mem Val} {threads₀ : Tid → L} {ts : List Tid}
    (r : (system P mem₀ threads₀).Reachable s) (h : s.schedule P ts = some s') :
    (system P mem₀ threads₀).Reachable s' :=
  have ⟨_, es⟩ := schedule_steps h
  r.steps es

-- Lets the threads move in a given order.
theorem exists_reachable_of_schedule (P : Program Tid Loc Val L) (mem₀ : Mem Val)
    (threads₀ : Tid → L) (ts : List Tid) {p : State Val Tid L → Prop} [DecidablePred p]
    (h : (State.schedule P ⟨mem₀, threads₀⟩ ts).any (p ·) = true) :
    ∃ s, (system P mem₀ threads₀).Reachable s ∧ p s := by
  simp only [Option.any_eq_true_iff_get, decide_eq_true_eq] at h
  have ⟨hs, hp⟩ := h
  exact ⟨_, State.schedule_reachable (.init rfl) (Option.eq_some_of_isSome hs), hp⟩

end Schedule
end Interleaving

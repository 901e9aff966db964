import OrderingBugs.Transition.Exact
import OrderingBugs.Memory.Machine
import OrderingBugs.Memory.Interleaving

open Function

variable {Tid Loc L L' : Type} [DecidableEq Tid] [DecidableEq Loc] {Val : Loc → Type}

namespace Op

def map (g : L → L') : Op Loc Val L → Op Loc Val L'
  | halt => halt
  | skip k => skip (g k)
  | load o x k => load o x fun v => g (k v)
  | store o x v k => store o x v (g k)
  | rmw o x f k => rmw o x f fun v => g (k v)
  | fence o k => fence o (g k)

variable {m : Mem Val} {g : L → L'} {op : Op Loc Val L}

theorem interleave_map :
    (op.map g).interleave m = (op.interleave m).map fun (m, l) => (m, g l) := by
  cases op <;> rfl

theorem exec_map {B : Buffering Loc Val} {D : Discipline} {b : B.Buf} :
    (op.map g).exec B D m b = (op.exec B D m b).map fun (m, b, l) => (m, b, g l) := by
  cases op <;> simp only [map, exec]
  case store | rmw | fence => split_ifs <;> rfl
  all_goals rfl

end Op

-- The code of threads that run different functions, each with local states of its own.
abbrev Code (Tid Loc : Type) (Val : Loc → Type) (L : Tid → Type) :=
  (t : Tid) → L t → Op Loc Val (L t)

namespace Code

variable {L : Tid → Type} {C : Code Tid Loc Val L} {pc pc₀ : (t : Tid) → L t} {m mem₀ : Mem Val}

omit [DecidableEq Loc] in
-- As a program, the code works on local states that are tagged with the thread they belong to.
def program (C : Code Tid Loc Val L) : Program Tid Loc Val ((t : Tid) × L t) :=
  fun _ l => (C l.1 l.2).map (Sigma.mk l.1)

def tag (pc : (t : Tid) → L t) (t : Tid) : (t : Tid) × L t :=
  ⟨t, pc t⟩

omit [DecidableEq Loc] in
theorem update_tag {t : Tid} {l : L t} : update (tag pc) t ⟨t, l⟩ = tag (update pc t l) := by
  ext1 u
  by_cases h : u = t
  case pos => subst h; simp [tag]
  case neg => simp [tag, h]

namespace Interleaved

-- The interleavings of threads that run the code, and their states.
abbrev system (C : Code Tid Loc Val L) (mem₀ : Mem Val) (pc₀ : (t : Tid) → L t) :=
  Interleaving.system C.program mem₀ (tag pc₀)

abbrev state (m : Mem Val) (pc : (t : Tid) → L t) : Interleaving.State Val Tid ((t : Tid) × L t) :=
  ⟨m, tag pc⟩

-- The effect of the next operation of a thread.
def next (C : Code Tid Loc Val L) (m : Mem Val) (pc : (t : Tid) → L t) (t : Tid) :
    Option (Mem Val × ((t : Tid) → L t)) :=
  ((C t (pc t)).interleave m).map fun (m, l) => (m, update pc t l)

theorem step_of_interleave {t : Tid} {m' : Mem Val} {l : L t}
    (h : (C t (pc t)).interleave m = some (m', l)) :
    Interleaving.Step C.program (state m pc) (t, ⟨t, pc t⟩, ⟨t, l⟩) (state m' (update pc t l)) := by
  rw [state, state, ← update_tag]
  exact .move (t := t) (by simp [program, tag, Op.interleave_map, h])

theorem interleave_of_step {s' : Interleaving.State Val Tid ((t : Tid) × L t)}
    {l : Interleaving.Label Tid ((t : Tid) × L t)} (e : Interleaving.Step C.program (state m pc) l s') :
    ∃ t m' k, (C t (pc t)).interleave m = some (m', k) ∧ l = (t, ⟨t, pc t⟩, ⟨t, k⟩) ∧
      s' = state m' (update pc t k) := by
  cases e
  case move t m' k h =>
    simp only [program, Op.interleave_map, Option.map_eq_some_iff, Prod.mk.injEq] at h
    obtain ⟨⟨m', k⟩, h, rfl, rfl⟩ := h
    exact ⟨t, m', k, h, rfl, congrArg _ update_tag⟩

-- The states of a run consist of tagged local states, and satisfy whatever holds at its start and is kept
-- by the operations of the code.
theorem steps_invariant {I : Mem Val → ((t : Tid) → L t) → Prop}
    (hs : ∀ m pc t m' l, I m pc → (C t (pc t)).interleave m = some (m', l) → I m' (update pc t l))
    {ls : List (Interleaving.Label Tid ((t : Tid) × L t))}
    {s' : Interleaving.State Val Tid ((t : Tid) × L t)} (h : I m pc)
    (es : (system C mem₀ pc₀).Steps (state m pc) ls s') : ∃ m pc, s' = state m pc ∧ I m pc := by
  generalize he : state m pc = s at es
  induction es generalizing m pc
  case refl => exact ⟨m, pc, he.symm, h⟩
  case step e _ hi =>
    subst he
    obtain ⟨t, m', k, hk, rfl, rfl⟩ := interleave_of_step e
    exact hi (hs _ _ _ _ _ h hk) rfl

theorem invariant {I : Mem Val → ((t : Tid) → L t) → Prop} (hi : I mem₀ pc₀)
    (hs : ∀ m pc t m' l, I m pc → (C t (pc t)).interleave m = some (m', l) → I m' (update pc t l))
    {s : Interleaving.State Val Tid ((t : Tid) × L t)} (r : (system C mem₀ pc₀).Reachable s) :
    ∃ m pc, s = state m pc ∧ I m pc :=
  let ⟨_, r⟩ := r
  steps_invariant hs hi (r.exists_steps fun _ => id)

section Exact

variable {Cond : Interleaving.State Val Tid ((t : Tid) × L t) →
  Interleaving.Label Tid ((t : Tid) × L t) → Prop}
variable {Bad : Interleaving.State Val Tid ((t : Tid) × L t) → Prop}

-- What holds initially, and is kept by the operations that meet a condition.
theorem restrict_invariant {I : Mem Val → ((t : Tid) → L t) → Prop} (hi : I mem₀ pc₀)
    (hs : ∀ m pc t m' l, I m pc → Cond (state m pc) (t, ⟨t, pc t⟩, ⟨t, l⟩) →
      (C t (pc t)).interleave m = some (m', l) → I m' (update pc t l))
    {s : Interleaving.State Val Tid ((t : Tid) × L t)}
    (r : ((system C mem₀ pc₀).restrict Cond).Reachable s) : ∃ m pc, s = state m pc ∧ I m pc := by
  refine r.invariant (S := (system C mem₀ pc₀).restrict Cond)
    (I := fun s => ∃ m pc, s = state m pc ∧ I m pc) (fun s h => ⟨_, _, h, hi⟩) ?_
  rintro _ l s' - ⟨m, pc, rfl, h⟩ ⟨hc, e⟩
  obtain ⟨t, m', k, hk, rfl, rfl⟩ := interleave_of_step e
  exact ⟨_, _, rfl, hs _ _ _ _ _ h hc hk⟩

-- The sharp half of an exact condition, in terms of the operations of the code.
theorem sharp (h : ∀ m pc t m' l, (system C mem₀ pc₀).Reachable (state m pc) →
      (C t (pc t)).interleave m = some (m', l) → ¬Cond (state m pc) (t, ⟨t, pc t⟩, ⟨t, l⟩) →
      (system C mem₀ pc₀).Leads Bad (state m' (update pc t l))) :
    ∀ s l s', (system C mem₀ pc₀).Reachable s → (system C mem₀ pc₀).Step s l s' → ¬Cond s l →
      (system C mem₀ pc₀).Leads Bad s' := by
  intro s l s' r e hc
  obtain ⟨m, pc, rfl, -⟩ := invariant (I := fun _ _ => True) trivial (by simp) r
  obtain ⟨t, m', k, hk, rfl, rfl⟩ := interleave_of_step e
  exact h _ _ _ _ _ r hk hc

end Exact

-- The effect of letting threads move in a given order.
def schedule (C : Code Tid Loc Val L) (m : Mem Val) (pc : (t : Tid) → L t) :
    List Tid → Option (Mem Val × ((t : Tid) → L t))
  | [] => some (m, pc)
  | t :: ts =>
    match next C m pc t with
    | none => none
    | some (m, pc) => schedule C m pc ts

theorem steps_of_schedule {ts : List Tid} {m' : Mem Val} {pc' : (t : Tid) → L t}
    (h : schedule C m pc ts = some (m', pc')) :
    ∃ ls, (system C mem₀ pc₀).Steps (state m pc) ls (state m' pc') := by
  induction ts generalizing m pc <;> simp only [schedule] at h
  case nil => cases h; exact ⟨[], .refl⟩
  case cons t ts hi =>
    split at h
    case h_1 => cases h
    case h_2 hn =>
      simp only [next, Option.map_eq_some_iff, Prod.mk.injEq] at hn
      obtain ⟨_, hn, rfl, rfl⟩ := hn
      have ⟨ls, es⟩ := hi h
      exact ⟨_, .step (step_of_interleave hn) es⟩

theorem exists_reachable_of_schedule (C : Code Tid Loc Val L) (mem₀ : Mem Val)
    (pc₀ : (t : Tid) → L t) (ts : List Tid)
    {p : Interleaving.State Val Tid ((t : Tid) × L t) → Prop} [DecidablePred p]
    (h : (schedule C mem₀ pc₀ ts).any (fun s => p (state s.1 s.2)) = true) :
    ∃ s, (system C mem₀ pc₀).Reachable s ∧ p s := by
  simp only [Option.any_eq_true_iff_get, decide_eq_true_eq] at h
  have ⟨hs, hp⟩ := h
  have ⟨_, es⟩ : ∃ ls, (system C mem₀ pc₀).Steps _ ls _ :=
    steps_of_schedule (Option.eq_some_of_isSome hs)
  exact ⟨_, .steps (.init rfl) es, hp⟩

end Interleaved

namespace Buffered

variable {B : Buffering Loc Val} {D : Discipline} {f : Tid → B.Buf}

-- The runs of the code on a machine with store buffers, and their states.
abbrev system (B : Buffering Loc Val) (D : Discipline) (C : Code Tid Loc Val L) (mem₀ : Mem Val)
    (pc₀ : (t : Tid) → L t) :=
  Machine.system B D C.program mem₀ (tag pc₀)

abbrev state (m : Mem Val) (f : Tid → B.Buf) (pc : (t : Tid) → L t) :
    Machine.State B Tid ((t : Tid) × L t) :=
  ⟨m, f, tag pc⟩

theorem step_of_exec {t : Tid} {m' : Mem Val} {b : B.Buf} {l : L t}
    (h : (C t (pc t)).exec B D m (f t) = some (m', b, l)) :
    Machine.Step D C.program (state m f pc) (.move t ⟨t, pc t⟩ ⟨t, l⟩)
      (state m' (update f t b) (update pc t l)) := by
  rw [state, state, ← update_tag]
  exact .move (t := t) (by simp [program, tag, Op.exec_map, h])

-- A step executes an operation of the code, or drains a buffer.
theorem step_cases {s' : Machine.State B Tid ((t : Tid) × L t)}
    {l : Machine.Label Tid Loc ((t : Tid) × L t)}
    (e : Machine.Step D C.program (state m f pc) l s') :
    (∃ t m' b k, (C t (pc t)).exec B D m (f t) = some (m', b, k) ∧
      l = .move t ⟨t, pc t⟩ ⟨t, k⟩ ∧ s' = state m' (update f t b) (update pc t k)) ∨
    (∃ t x v b, B.pop (f t) x = some (v, b) ∧ l = .drain t x ∧
      s' = state (update m x v) (update f t b) pc) := by
  cases e
  case move t m' b k h =>
    simp only [program, Op.exec_map, Option.map_eq_some_iff, Prod.mk.injEq] at h
    obtain ⟨⟨m', b, k⟩, h, rfl, rfl, rfl⟩ := h
    exact .inl ⟨t, m', b, k, h, rfl, congrArg _ update_tag⟩
  case drain t x v b h => exact .inr ⟨t, x, v, b, h, rfl, rfl⟩

end Buffered
end Code

import OrderingBugs.Memory.Machine
import OrderingBugs.Memory.Interleaving

open Function

variable {Tid Loc L : Type} [DecidableEq Tid] [DecidableEq Loc] {Val : Loc → Type}
variable {B : Buffering Loc Val} {D : Discipline} {b b' : B.Buf} {m m' : Mem Val} {l : L}
variable {op : Op Loc Val L}

namespace Op

-- With empty buffers an operation acts as it does under interleaving, unless it is a store that is
-- put into the buffer.
theorem exec_of_empty (he : B.Empty b) (h : op.interleave m = some (m', l)) :
    (op.exec B D m b = some (m', b, l)) ∨
    (∃ o x v, op.exec B D m b = some (m, B.push b x v, l) ∧ op = .store o x v l ∧
      m' = update m x v) := by
  cases op <;> simp only [interleave, Option.some.injEq, Prod.mk.injEq, reduceCtorEq] at h
  case skip =>
    obtain ⟨rfl, rfl⟩ := h
    exact .inl rfl
  case load x _ =>
    obtain ⟨rfl, rfl⟩ := h
    simp [exec, Buffering.view_nil (he x)]
  case store o x v k =>
    obtain ⟨rfl, rfl⟩ := h
    by_cases hb : D.buffered o
    case pos => exact .inr ⟨o, x, v, by simp [exec, hb], rfl, rfl⟩
    case neg => exact .inl (by simp [exec, hb, he])
  case rmw x _ _ =>
    obtain ⟨rfl, rfl⟩ := h
    simp [exec, he, he x]
  case fence =>
    obtain ⟨rfl, rfl⟩ := h
    simp [exec, he]

-- Conversely, what an operation does with empty buffers it does under interleaving, unless it is a
-- store that is put into the buffer.
theorem interleave_of_empty (he : B.Empty b) (h : op.exec B D m b = some (m', b', l)) :
    (b' = b ∧ op.interleave m = some (m', l)) ∨
    (∃ o x v, op = .store o x v l ∧ m' = m ∧ b' = B.push b x v) := by
  cases op <;> simp only [exec, reduceCtorEq] at h
  case skip => cases h; exact .inl ⟨rfl, rfl⟩
  case load x _ => cases h; exact .inl ⟨rfl, by simp [interleave, Buffering.view_nil (he x)]⟩
  case store =>
    split at h
    case isTrue => cases h; exact .inr ⟨_, _, _, rfl, rfl, rfl⟩
    case isFalse => cases h; exact .inl ⟨rfl, rfl⟩
  case rmw => split at h <;> cases h; exact .inl ⟨rfl, rfl⟩
  case fence => split at h <;> cases h; exact .inl ⟨rfl, rfl⟩

-- Every buffering acts on the stores it holds for each location as queues per location do.
theorem exec_toPerLocation [Fintype Loc] (h : op.exec B D m b = some (m', b', l)) :
    op.exec (.perLocation Val) D m (B.toPerLocation b) = some (m', B.toPerLocation b', l) := by
  cases op <;> simp only [exec, reduceCtorEq] at h ⊢
  case skip => cases h; rfl
  case load => cases h; rfl
  case store =>
    split at h
    case isTrue hb => cases h; simp [hb, Buffering.toPerLocation_push]
    case isFalse hb =>
      split at h <;> cases h
      case _ he => simp [hb, he]
  case rmw =>
    split at h <;> cases h
    case _ hw => simpa using hw
  case fence =>
    split at h <;> cases h
    case _ hw => simpa using hw

end Op

namespace Machine

variable {P : Program Tid Loc Val L} {mem₀ : Mem Val} {threads₀ : Tid → L}

-- Interleavings are the runs that drain every store at once. They exist under every condition that
-- lets stores drain, and lets threads move while all buffers are empty.
def ofInterleaving (B : Buffering Loc Val) (D : Discipline) (P : Program Tid Loc Val L)
    (mem₀ : Mem Val) (threads₀ : Tid → L) {C : State B Tid L → Label Tid Loc L → Prop}
    (hm : ∀ s t l l', s.Flushed → C s (.move t l l')) (hd : ∀ s t x, C s (.drain t x)) :
    (Interleaving.system P mem₀ threads₀).Simulation ((system B D P mem₀ threads₀).restrict C)
      (fun l => [l]) Label.moves where
  Rel s c := c.mem = s.mem ∧ c.threads = s.threads ∧ c.Flushed
  init s h := ⟨_, rfl, by cases h; exact ⟨rfl, rfl, fun _ => Buffering.empty_empty⟩⟩
  step s c l s' _ _ hr e := by
    obtain ⟨hmem, hthr, he⟩ := hr
    cases e
    case move t m k h =>
      rw [← hmem, ← hthr] at h
      rw [← hthr]
      cases Op.exec_of_empty (D := D) (he t) h
      case inl h =>
        refine ⟨_, _, .single ⟨hm _ _ _ _ he, .move h⟩, rfl, rfl, rfl, ?_⟩
        exact (forall_update_iff _ _).mpr ⟨he t, fun u _ => he u⟩
      case inr h =>
        obtain ⟨o, x, v, h, -, hx⟩ := h
        have ⟨_, he', e⟩ := exists_drain_of_push (D := D) (P := P) (m := c.mem)
          (f := update c.threads t k) (x := x) (v := v) (he t)
        refine ⟨_, _, .step ⟨hm _ _ _ _ he, .move h⟩ (.single ⟨hd _ _ _, e⟩), rfl, ?_⟩
        exact ⟨hx.symm, rfl, (forall_update_iff _ _).mpr ⟨he', fun u _ => he u⟩⟩

-- The states of interleavings are those of the machine in which the buffers are empty.
theorem reachable_of_interleaving [Fintype Loc] (D : Discipline) {s : Interleaving.State Val Tid L}
    (r : (Interleaving.system P mem₀ threads₀).Reachable s) :
    (system (.perLocation Val) D P mem₀ threads₀).Reachable
      ⟨s.mem, fun _ => (Buffering.perLocation Val).empty, s.threads⟩ := by
  obtain ⟨⟨m, f, l⟩, r, rfl, rfl, he⟩ := ofInterleaving (.perLocation Val) D P mem₀ threads₀
    (C := fun _ _ => True) (fun _ _ _ _ _ => trivial) (fun _ _ _ => trivial) |>.reachable r
  obtain rfl : f = fun _ => (Buffering.perLocation Val).empty := funext fun t => funext (he t)
  exact r.of_restrict

-- Whatever the buffers are, a machine with one queue per location can follow.
def toPerLocation [Fintype Loc] (B : Buffering Loc Val) (D : Discipline)
    (P : Program Tid Loc Val L) (mem₀ : Mem Val) (threads₀ : Tid → L) :
    (system B D P mem₀ threads₀).Simulation (system (.perLocation Val) D P mem₀ threads₀)
      Label.moves Label.moves where
  Rel s c := c = { mem := s.mem, buf := fun t => B.toPerLocation (s.buf t), threads := s.threads }
  init s h := ⟨_, rfl, by cases h; simp only [Buffering.toPerLocation_empty]⟩
  step s c l s' _ _ hr e := by
    subst hr
    cases e
    case move t m b k h =>
      refine ⟨_, _, .single (.move (Op.exec_toPerLocation h)), rfl, ?_⟩
      simp only [apply_update fun _ => B.toPerLocation]
    case drain t x v b h =>
      refine ⟨_, _, .single (.drain (Buffering.toPerLocation_pop h)), rfl, ?_⟩
      simp only [apply_update fun _ => B.toPerLocation]

end Machine

import OrderingBugs.Memory.Test

open Function

-- Programs whose threads finish with one variable before they store to the next.
namespace Buffering

variable {Loc : Type} [DecidableEq Loc] {Val : Loc → Type}

-- All buffered stores are to the same location.
def Focused (B : Buffering Loc Val) (b : B.Buf) : Prop :=
  ∀ x y, B.pending b x ≠ [] → B.pending b y ≠ [] → x = y

variable {x : Loc} {v : Val x}

-- Then the oldest of them is the oldest one for its location.
theorem fifo_pop_of_perLocation [Fintype Loc] {b : (fifo Val).Buf} {b₁ : (perLocation Val).Buf}
    (h : (perLocation Val).Focused ((fifo Val).toPerLocation b))
    (hp : (perLocation Val).pop ((fifo Val).toPerLocation b) x = some (v, b₁)) :
    ∃ b', (fifo Val).pop b x = some (v, b') ∧ (fifo Val).toPerLocation b' = b₁ := by
  have hx : (fifo Val).pending b x ≠ [] := by
    have := pending_pop_self hp
    rw [pending_toPerLocation] at this
    simp [this]
  have ⟨y, w, b', hp'⟩ := (fifo Val).exists_pop hx
  have hy : (fifo Val).pending b y ≠ [] := by simp [pending_pop_self hp']
  obtain rfl := h x y hx hy
  have he := toPerLocation_pop hp'
  rw [hp, Option.some.injEq, Prod.mk.injEq] at he
  obtain ⟨rfl, rfl⟩ := he
  exact ⟨b', hp', rfl⟩

end Buffering

variable {Tid Loc L : Type} [DecidableEq Tid] [DecidableEq Loc] [Fintype Loc] {Val : Loc → Type}
variable {B : Buffering Loc Val} {D : Discipline} {m m' : Mem Val} {b : B.Buf} {l : L}

-- What queues per location allow, the buffers that they are the queues of allow as well.
theorem Op.exec_of_toPerLocation {op : Op Loc Val L} {b₁ : (Buffering.perLocation Val).Buf}
    (h : op.exec (.perLocation Val) D m (B.toPerLocation b) = some (m', b₁, l)) :
    ∃ b', op.exec B D m b = some (m', b', l) ∧ B.toPerLocation b' = b₁ := by
  cases op <;> simp only [exec, reduceCtorEq] at h ⊢
  case skip | load => cases h; exact ⟨b, rfl, rfl⟩
  case store x v k =>
    split at h
    case isTrue hb => cases h; exact ⟨_, by simp [hb], Buffering.toPerLocation_push⟩
    case isFalse hb =>
      split at h <;> cases h
      case _ he => exact ⟨b, by simpa [hb] using he, rfl⟩
  case rmw =>
    split at h <;> cases h
    case _ hw => exact ⟨b, by simpa using hw, rfl⟩
  case fence =>
    split at h <;> cases h
    case _ hw => exact ⟨b, by simpa using hw, rfl⟩

namespace Machine

variable {P : Program Tid Loc Val L} {mem₀ : Mem Val} {threads₀ : Tid → L}

-- Total store order is enough for focused threads.
def ofFocused (D : Discipline) (P : Program Tid Loc Val L) (mem₀ : Mem Val) (threads₀ : Tid → L)
    (hf : ∀ s, (system (.perLocation Val) D P mem₀ threads₀).Reachable s →
      ∀ t, (Buffering.perLocation Val).Focused (s.buf t)) :
    (system (.perLocation Val) D P mem₀ threads₀).Simulation (system (.fifo Val) D P mem₀ threads₀)
      Label.moves Label.moves where
  Rel s c := s = ⟨c.mem, fun t => (Buffering.fifo Val).toPerLocation (c.buf t), c.threads⟩
  init s h := ⟨_, rfl, by cases h; simp only [Buffering.toPerLocation_empty]⟩
  step s c l s' r _ hr e := by
    have hf := hf s r
    subst hr
    cases e
    case move t m b k h =>
      have ⟨b', h, hb⟩ := Op.exec_of_toPerLocation (B := .fifo Val) (b := c.buf t) h
      refine ⟨_, _, .single (.move h), rfl, ?_⟩
      simp only [apply_update fun _ => (Buffering.fifo Val).toPerLocation, hb]
    case drain t x v b h =>
      have ⟨b', h, hb⟩ := Buffering.fifo_pop_of_perLocation (hf t) h
      refine ⟨_, _, .single (.drain h), rfl, ?_⟩
      simp only [apply_update fun _ => (Buffering.fifo Val).toPerLocation, hb]

end Machine

theorem Test.Violates.fifo {T : Test Tid Loc Val L}
    (hf : ∀ s, (T.machine (.perLocation Val) D).Reachable s →
      ∀ t, (Buffering.perLocation Val).Focused (s.buf t))
    (h : T.Violates (.perLocation Val) D) : T.Violates (.fifo Val) D := by
  obtain ⟨s, r, h⟩ := h
  obtain ⟨c, rc, hc⟩ := Machine.ofFocused D T.program T.mem T.threads hf |>.reachable r
  subst hc
  exact ⟨c, rc, h⟩

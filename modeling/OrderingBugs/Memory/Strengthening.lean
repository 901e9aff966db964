import OrderingBugs.Memory.Test

open Function

variable {Tid Loc L : Type} [DecidableEq Tid] [DecidableEq Loc] {Val : Loc → Type}
variable {D : Discipline} {f : Order → Order} {m m' : Mem Val} {l : L}

namespace Op

variable {op : Op Loc Val L}

-- Replaces the order of an access or a fence.
def mapOrder (f : Order → Order) : Op Loc Val L → Op Loc Val L
  | halt => halt
  | skip k => skip k
  | load o x k => load (f o) x k
  | store o x v k => store (f o) x v k
  | rmw o x g k => rmw (f o) x g k
  | fence o k => fence (f o) k

omit [DecidableEq Loc] in
@[simp]
theorem mapOrder_eq_halt_iff : op.mapOrder f = .halt ↔ op = .halt := by
  cases op <;> simp [mapOrder]

@[simp]
theorem interleave_mapOrder : (op.mapOrder f).interleave m = op.interleave m := by
  cases op <;> rfl

end Op

-- A thread has to wait for its buffers with the order `o'` whenever it has to with `o`.
structure Discipline.Stronger (D : Discipline) (o o' : Order) : Prop where
  buffered   : D.buffered o' = true → D.buffered o = true
  fenceWaits : D.fenceWaits o = true → D.fenceWaits o' = true
  rmwWaits   : D.rmwWaits o = true → D.rmwWaits o' = true

-- On a machine like x86, all orders but one are the same.
theorem Discipline.flushing_stronger {o o' : Order} (h : o = .seqCst ↔ o' = .seqCst) :
    Discipline.flushing.Stronger o o' := by
  constructor <;> simp [flushing, h]

-- An operation can do what it does with a stronger order. If it is a store that is buffered only with
-- its own order, then the store still has to drain.
theorem Op.exec_of_mapOrder {B : Buffering Loc Val} {b b' : B.Buf} {op : Op Loc Val L}
    (hf : ∀ o, D.Stronger o (f o)) (h : (op.mapOrder f).exec B D m b = some (m', b', l)) :
    op.exec B D m b = some (m', b', l) ∨
    (∃ x v, op.exec B D m b = some (m, B.push b x v, l) ∧ m' = update m x v ∧ b' = b ∧
      B.Empty b) := by
  cases op <;> simp only [mapOrder, exec, reduceCtorEq] at h ⊢
  case skip => exact .inl h
  case load => exact .inl h
  case store o x v k =>
    by_cases ho : D.buffered (f o)
    case pos => exact .inl (by simpa [ho, (hf o).buffered ho] using h)
    case neg =>
      simp only [ho, Bool.false_eq_true, if_false] at h
      split at h <;> cases h
      case _ he =>
        by_cases ho : D.buffered o
        case pos => exact .inr ⟨x, v, by simp [ho], rfl, rfl, he⟩
        case neg => exact .inl (by simp [ho, he])
  case rmw o _ _ _ =>
    split at h <;> cases h
    case _ he => exact .inl (if_pos ⟨fun ho => he.1 ((hf o).rmwWaits ho), he.2⟩)
  case fence o _ =>
    split at h <;> cases h
    case _ he => exact .inl (if_pos fun ho => he ((hf o).fenceWaits ho))

namespace Test

variable {T : Test Tid Loc Val L}

def mapOrder (f : Order → Order) (T : Test Tid Loc Val L) : Test Tid Loc Val L :=
  { T with program := fun t l => (T.program t l).mapOrder f }

omit [DecidableEq Tid] [DecidableEq Loc] in
@[simp]
theorem halted_mapOrder_iff {g : Tid → L} : (T.mapOrder f).Halted g ↔ T.Halted g := by
  simp [Halted, mapOrder]

-- Orders mean nothing for interleavings.
theorem interleaving_mapOrder : (T.mapOrder f).interleaving = T.interleaving := by
  suffices h : ∀ s l s', (T.mapOrder f).interleaving.Step s l s' ↔ T.interleaving.Step s l s' from
    congrArg (System.mk _) (funext₃ fun s l s' => propext (h s l s'))
  intro s l s'
  constructor <;> intro h <;> cases h
  case mp h => exact .move (by simpa [mapOrder] using h)
  case mpr h => exact .move (by simpa [mapOrder] using h)

theorem interleavingViolates_mapOrder_iff :
    (T.mapOrder f).InterleavingViolates ↔ T.InterleavingViolates := by
  simp only [InterleavingViolates, interleaving_mapOrder, InterleavingFails, halted_mapOrder_iff]
  rfl

-- With weaker orders, a machine can follow by draining at once what is buffered additionally.
def ofMapOrder (T : Test Tid Loc Val L) (hf : ∀ o, D.Stronger o (f o)) :
    ((T.mapOrder f).machine (.fifo _) D).Simulation (T.machine (.fifo _) D)
      Machine.Label.moves Machine.Label.moves where
  Rel s c := c = s
  init s h := ⟨s, h, rfl⟩
  step s c l s' _ _ hr e := by
    subst hr
    cases e
    case drain h => exact ⟨_, _, .single (.drain h), rfl, rfl⟩
    case move t m b l h =>
      cases Op.exec_of_mapOrder hf h
      case inl h => exact ⟨_, _, .single (.move h), rfl, rfl⟩
      case inr h' =>
        obtain ⟨x, v, e, rfl, rfl, he⟩ := h'
        have ⟨b, he', d⟩ := Machine.exists_drain_of_push (D := D) (P := T.program) (m := c.mem)
          (f := update c.threads t l) (x := x) (v := v) he
        have hb : b = c.buf t :=
          (Buffering.fifo_empty_iff.mp he').trans (Buffering.fifo_empty_iff.mp he).symm
        subst hb
        exact ⟨_, _, .step (.move e) (.single d), rfl, rfl⟩

theorem Violates.of_mapOrder (hf : ∀ o, D.Stronger o (f o))
    (h : (T.mapOrder f).Violates (.fifo _) D) : T.Violates (.fifo _) D := by
  have ⟨s, r, hf'⟩ := h
  have ⟨c, r', hc⟩ := (ofMapOrder T hf).reachable r
  subst hc
  simp only [Fails, halted_mapOrder_iff] at hf'
  exact ⟨c, r', hf'⟩

-- Replacing orders by others that mean the same to the machine changes nothing, whatever the buffers are.
theorem machine_mapOrder {B : Buffering Loc Val} (hf : ∀ o, D.Stronger o (f o) ∧ D.Stronger (f o) o) :
    (T.mapOrder f).machine B D = T.machine B D := by
  have exec (t : Tid) (l : L) (m : Mem Val) (b : B.Buf) :
      ((T.program t l).mapOrder f).exec B D m b = (T.program t l).exec B D m b := by
    have hb o : D.buffered (f o) = D.buffered o := Bool.eq_iff_iff.mpr ⟨(hf o).1.buffered, (hf o).2.buffered⟩
    have hw o : D.fenceWaits (f o) = D.fenceWaits o :=
      Bool.eq_iff_iff.mpr ⟨(hf o).2.fenceWaits, (hf o).1.fenceWaits⟩
    have hr o : D.rmwWaits (f o) = D.rmwWaits o := Bool.eq_iff_iff.mpr ⟨(hf o).2.rmwWaits, (hf o).1.rmwWaits⟩
    cases T.program t l <;> simp only [Op.mapOrder, Op.exec, hb, hw, hr]
  suffices h : ∀ s l s', ((T.mapOrder f).machine B D).Step s l s' ↔ (T.machine B D).Step s l s' from
    congrArg (System.mk _) (funext₃ fun s l s' => propext (h s l s'))
  intro s l s'
  constructor <;> intro h <;> cases h
  case mp.move h => exact .move ((exec ..).symm.trans h)
  case mpr.move h => exact .move ((exec ..).trans h)
  all_goals exact .drain ‹_›

theorem violates_mapOrder_iff {B : Buffering Loc Val} (hf : ∀ o, D.Stronger o (f o) ∧ D.Stronger (f o) o) :
    (T.mapOrder f).Violates B D ↔ T.Violates B D := by
  simp only [Violates, machine_mapOrder hf, Fails, halted_mapOrder_iff]
  rfl

-- All stores of the test act on memory directly.
def Unbuffered (T : Test Tid Loc Val L) (D : Discipline) : Prop :=
  ∀ t l o x v k, T.program t l = .store o x v k → D.buffered o = false

namespace Unbuffered

variable {B : Buffering Loc Val}

theorem flushed {s : Machine.State B Tid L} (h : T.Unbuffered D)
    (r : (T.machine B D).Reachable s) : s.Flushed := by
  refine r.invariant (I := Machine.State.Flushed) ?init ?step
  case init =>
    intro _ hs _
    cases hs
    exact Buffering.empty_empty
  case step =>
    intro s _ _ _ hs e u
    cases e
    case drain t x _ _ e => exact absurd (hs t x) (by simp [Buffering.pending_pop_self e])
    case move t _ b _ e =>
      suffices b = s.buf t by subst this; simpa using hs u
      cases ho : T.program t (s.threads t) <;> simp only [ho, Op.exec, reduceCtorEq] at e
      case skip | load => cases e; rfl
      case store o x v k =>
        simp only [h _ _ _ _ _ _ ho, Bool.false_eq_true, if_false] at e
        split at e <;> cases e
        rfl
      case rmw | fence => split at e <;> cases e; rfl

-- Then all runs are interleavings.
theorem violates_iff (h : T.Unbuffered D) : T.Violates (.fifo _) D ↔ T.InterleavingViolates where
  mp hv := by
    refine orderedViolates_iff.mp (hv.ordered fun s l s' r e => ?_)
    cases e
    case move => exact .of_flushed (h.flushed r)
    case drain => exact .drain
  mpr := InterleavingViolates.violates

end Unbuffered
end Test

import OrderingBugs.Memory.Focus
import OrderingBugs.Verdict.Cbmc

open Function

namespace Litmus

variable {Tid Loc Reg V : Type} [DecidableEq Tid] [DecidableEq Loc] [DecidableEq Reg]

-- No store follows a store to another location without a full fence between them, where `dirty` is the
-- location that has been stored to since the last fence.
def focusedFrom (dirty : Option Loc) : List (Instr Loc Reg V) → Bool
  | [] => true
  | .load .. :: is | .assert _ :: is => focusedFrom dirty is
  | .store x _ :: is => dirty.all (· = x) && focusedFrom (some x) is
  | .fence :: is => focusedFrom none is

def Program.Focused (P : Program Tid Loc Reg V) : Prop :=
  ∀ t, focusedFrom none (P.code t) = true

-- The buffered stores of a thread are to the location that it has stored to last.
def Recent {B : Buffering Loc fun _ => V} (b : B.Buf) (l : Thread Loc Reg V) : Prop :=
  ∃ dirty, focusedFrom dirty l.code = true ∧ ∀ x, B.pending b x ≠ [] → dirty = some x

namespace Recent

variable {B : Buffering Loc fun _ => V} {b b' : B.Buf} {l l' : Thread Loc Reg V}
variable {m m' : Mem fun _ : Loc => V}

omit [DecidableEq Reg] in
theorem of_empty (hf : focusedFrom none l.code = true) (he : B.Empty b) : Recent b l :=
  ⟨none, hf, fun x h => absurd (he x) h⟩

omit [DecidableEq Reg] in
theorem focused (h : Recent b l) : B.Focused b := by
  obtain ⟨dirty, -, hd⟩ := h
  intro x y hx hy
  exact Option.some.inj ((hd x hx).symm.trans (hd y hy))

theorem exec (h : l.op.exec B .flushing m b = some (m', b', l')) (hr : Recent b l) : Recent b' l' := by
  obtain ⟨dirty, hf, hd⟩ := hr
  obtain ⟨code, ρ, f⟩ := l
  match code with
  | [] => cases h
  | .load _ _ :: _ | .assert _ :: _ => cases h; exact ⟨dirty, hf, hd⟩
  | .store x e :: _ =>
    cases h
    simp only [focusedFrom, Bool.and_eq_true] at hf
    refine ⟨some x, hf.2, fun y hy => ?_⟩
    by_cases hxy : y = x
    case pos => rw [hxy]
    case neg =>
      rw [Buffering.pending_push_ne hxy] at hy
      simpa [hd y hy, hxy] using hf.1
  | .fence :: _ =>
    simp only [Thread.op, Op.exec] at h
    split at h <;> cases h
    case _ he => exact of_empty hf (he rfl)

omit [DecidableEq Reg] in
theorem pop {x : Loc} {v : V} (h : B.pop b x = some (v, b')) (hr : Recent b l) : Recent b' l := by
  obtain ⟨dirty, hf, hd⟩ := hr
  exact ⟨dirty, hf, fun y hy => hd y (mt (Buffering.pending_pop_eq_nil h) hy)⟩

end Recent

variable {P : Program Tid Loc Reg V} {B : Buffering Loc fun _ => V}

theorem Program.Focused.recent (h : P.Focused) {s : Machine.State B Tid (Thread Loc Reg V)}
    (r : (P.test.machine B .flushing).Reachable s) : ∀ t, Recent (s.buf t) (s.threads t) := by
  refine r.invariant (I := fun s => ∀ t, Recent (s.buf t) (s.threads t)) ?init ?step
  case init =>
    intro _ hs t
    cases hs
    exact .of_empty (h t) Buffering.empty_empty
  case step =>
    intro s _ _ _ hr e
    cases e
    case move t _ _ _ e =>
      exact Machine.forall_update (Q := fun _ l b => Recent b l) ((hr t).exec e) fun u _ => hr u
    case drain t _ _ _ e =>
      exact Machine.forall_update_buf (Q := fun _ l b => Recent b l) ((hr t).pop e) fun u _ => hr u

theorem Program.Focused.fifo [Fintype Loc] (h : P.Focused) (hv : P.test.Violates (.perLocation _) .flushing) :
    P.test.Violates (.fifo _) .flushing :=
  hv.fifo fun _ r t => (h.recent r t).focused

end Litmus

namespace Cbmc

section Verdict

variable {Tid Loc Reg V : Type} [DecidableEq Tid] [DecidableEq Loc] [DecidableEq Reg] [Fintype Loc]
variable {out : MemoryModel → Output} {P : Litmus.Program Tid Loc Reg V}

-- The verdict `WMM Bug` takes a thread with two stores that no fence keeps apart. With fences between the
-- stores, and between stores and loads, the verdict is right about interleavings.
theorem verdict_of_focused (hf : P.Focused) (h : Judges out P.test) :
    (summary out = .logicBug ∨ summary out = .noBug) ∧
    (P.Fenced → (summary out = .logicBug ↔ P.test.InterleavingViolates)) := by
  refine ⟨?_, fun hP => ?_⟩
  · rcases h.summary_cases with ⟨-, hs⟩ | ⟨ht, hp, -⟩ | ⟨-, -, hs⟩
    · exact .inl hs
    · exact absurd (hf.fifo hp) ht
    · exact .inr hs
  · rw [h.summary_eq_logicBug_iff]
    exact ⟨hP.interleavingViolates, Test.InterleavingViolates.violates⟩

end Verdict

section MariaDb

inductive MariaDb.Var
  | dbData
  | dbFlag
  deriving DecidableEq

inductive MariaDb.Reg
  | f
  | d
  deriving DecidableEq

open MariaDb.Var MariaDb.Reg Litmus.Instr

instance : Fintype MariaDb.Var where
  elems := {dbData, dbFlag}
  complete x := by cases x <;> decide

-- `22-MariaDB.c`: `writer` and `reader`
def mariaDb : Litmus.Program Bool MariaDb.Var MariaDb.Reg Int where
  code
    | true => [store dbData fun _ => 42, fence, store dbFlag fun _ => 1]
    | false => [load f dbFlag, load d dbData, assert fun r => !(r f == 1) || r d == 42]
  mem _ := 0
  regs _ _ := 0
  post _ _ := true

theorem focused_mariaDb : mariaDb.Focused := by
  intro t
  cases t <;> rfl

theorem fenced_mariaDb : mariaDb.Fenced := by
  intro t
  cases t <;> rfl

theorem mariaDb_not_interleavingViolates : ¬mariaDb.test.InterleavingViolates :=
  Test.not_interleavingViolates_of_explore 6 (by decide +kernel)

theorem verdict_of_focused_mariaDb : summary (exhaust mariaDb.test) = .noBug := by
  have h := verdict_of_focused focused_mariaDb (exhaust_judges _)
  exact h.1.resolve_left (mt (h.2 fenced_mariaDb).mp mariaDb_not_interleavingViolates)

end MariaDb
end Cbmc

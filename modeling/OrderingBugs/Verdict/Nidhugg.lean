import OrderingBugs.Verdict.Probe

-- The evaluation script for Nidhugg (`run_nidhugg.sh`).
namespace Nidhugg

-- The memory models that the script runs the tool with.
inductive MemoryModel
  | sc
  | pso

-- What the script looks at after a run of the tool: whether its output has a line with one of three
-- messages, and its exit status.
structure Output where
  noErrors    : Bool
  error       : Bool
  unsupported : Bool
  status      : Nat

inductive Result
  | safe
  | bugDetected
  | toolError
  | timeout
  | exception
  deriving DecidableEq

-- `sc_res` and `pso_res`.
def Output.result (o : Output) : Result :=
  if o.noErrors then .safe
  else if o.error then .bugDetected
  else if o.unsupported then .toolError
  else if o.status = 124 then .timeout
  else .exception

-- The line of the report for a test.
def row (out : MemoryModel → Output) : Result × Result :=
  ((out .sc).result, (out .pso).result)

variable {Tid Loc L : Type} [DecidableEq Tid] [DecidableEq Loc] [Fintype Loc] {Val : Loc → Type}

def Fails (T : Test Tid Loc Val L) : MemoryModel → Prop
  | .sc => T.InterleavingViolates
  | .pso => T.Violates (.perLocation _) .flushing

structure Judges (out : MemoryModel → Output) (T : Test Tid Loc Val L) : Prop where
  error    : ∀ mm, (out mm).error = true ↔ Fails T mm
  noErrors : ∀ mm, (out mm).noErrors = true ↔ ¬Fails T mm

namespace Judges

variable {out : MemoryModel → Output} {T : Test Tid Loc Val L}

theorem result_eq (h : Judges out T) (mm : MemoryModel) [Decidable (Fails T mm)] :
    (out mm).result = if Fails T mm then .bugDetected else .safe := by
  by_cases hf : Fails T mm <;> simp [Output.result, h.noErrors, h.error, hf]

theorem row_cases (h : Judges out T) :
    (Fails T .sc ∧ Fails T .pso ∧ row out = (.bugDetected, .bugDetected)) ∨
      (¬Fails T .sc ∧ Fails T .pso ∧ row out = (.safe, .bugDetected)) ∨
      (¬Fails T .sc ∧ ¬Fails T .pso ∧ row out = (.safe, .safe)) := by
  classical
  rw [row, h.result_eq, h.result_eq]
  by_cases hs : Fails T .sc
  case pos =>
    have hp : Fails T .pso := Test.InterleavingViolates.violates hs
    simp [hs, hp]
  case neg => by_cases hp : Fails T .pso <;> simp [hs, hp]

end Judges

open Classical in
noncomputable def exhaust (T : Test Tid Loc Val L) : MemoryModel → Output := fun mm =>
  { noErrors := decide ¬Fails T mm, error := decide (Fails T mm), unsupported := false, status := 0 }

theorem exhaust_judges (T : Test Tid Loc Val L) : Judges (exhaust T) T where
  error _ := by simp [exhaust]
  noErrors _ := by simp [exhaust]

-- The two scripts have the model with more behaviours in common, and different baselines. They disagree on
-- the kind of a bug exactly where a load has to overtake a store for it.
theorem row_summary {out : MemoryModel → Output} {out' : Cbmc.MemoryModel → Cbmc.Output}
    (T : Test Tid Loc Val L) (h : Judges out T) (h' : Cbmc.Judges out' T) :
    row out ≠ (.bugDetected, .safe) ∧
    (row out = (.safe, .safe) ↔ Cbmc.summary out' = .noBug) ∧
    (row out = (.bugDetected, .bugDetected) → Cbmc.summary out' = .logicBug) ∧
    (Cbmc.summary out' = .wmmBug → row out = (.safe, .bugDetected)) ∧
    (row out = (.safe, .bugDetected) ∧ Cbmc.summary out' = .logicBug ↔
      T.Violates (.fifo _) .flushing ∧ ¬T.OrderedViolates (.fifo _) .flushing) := by
  have hp : Fails T .pso ↔ Cbmc.Fails T .pso := Iff.rfl
  have hs : Fails T .sc → Cbmc.Fails T .tso := Test.InterleavingViolates.violates
  have ho : Fails T .sc ↔ T.OrderedViolates (.fifo _) .flushing := Test.orderedViolates_iff.symm
  have ht : Cbmc.Fails T .tso → Cbmc.Fails T .pso := Test.Violates.perLocation
  rw [← ho]
  change _ ∧ _ ∧ _ ∧ _ ∧ (_ ↔ Cbmc.Fails T .tso ∧ _)
  obtain ⟨h₁, h₂, h⟩ | ⟨h₁, h₂, h⟩ | ⟨h₁, h₂, h⟩ := h.row_cases <;>
    obtain ⟨k₁, k⟩ | ⟨k₁, k₂, k⟩ | ⟨k₁, k₂, k⟩ := h'.summary_cases <;>
    simp_all

-- In `29-sofa_pbrpc_hang.c`, both loads do.
theorem row_summary_sofaPbrpcHang :
    row (exhaust Cbmc.sofaPbrpcHang.test) = (.safe, .bugDetected) ∧
      Cbmc.summary (Cbmc.exhaust Cbmc.sofaPbrpcHang.test) = .logicBug := by
  refine (row_summary _ (exhaust_judges _) (Cbmc.exhaust_judges _)).2.2.2.2.mpr
    ⟨Cbmc.sofaPbrpcHang_violates, fun h => ?_⟩
  exact Cbmc.sofaPbrpcHang_not_interleavingViolates (Test.orderedViolates_iff.mp h)

end Nidhugg

import OrderingBugs.Verdict.Litmus

-- The evaluation script for CBMC (`run_cbmc.sh`).
namespace Cbmc

-- The values of `--mm` that the script uses.
inductive MemoryModel
  | tso
  | pso

-- What the script looks at after a run of the tool: whether its output has a line with one of the
-- two verdicts, and its exit status.
structure Output where
  successful : Bool
  failed     : Bool
  status     : Nat

inductive Result
  | safe
  | bugDetected
  | timeout
  | exception
  deriving DecidableEq

inductive Conclusion
  | wmmBug
  | logicBug
  | noBug
  | errorTimeout
  deriving DecidableEq

-- `tso_res` and `pso_res`.
def Output.result (o : Output) : Result :=
  if o.successful then .safe
  else if o.failed then .bugDetected
  else if o.status = 124 then .timeout
  else .exception

def conclusion (tsoRes psoRes : Result) : Conclusion :=
  if tsoRes = .safe ∧ psoRes = .bugDetected then .wmmBug
  else if tsoRes = .bugDetected ∧ psoRes = .bugDetected then .logicBug
  else if tsoRes = .safe ∧ psoRes = .safe then .noBug
  else .errorTimeout

section Verdict

variable {Tid Loc L : Type} [DecidableEq Tid] [DecidableEq Loc] [Fintype Loc] {Val : Loc → Type}

def Fails (T : Test Tid Loc Val L) : MemoryModel → Prop
  | .tso => T.Violates (.fifo _) .flushing
  | .pso => T.Violates (.perLocation _) .flushing

theorem Fails.pso {T : Test Tid Loc Val L} (h : Fails T .tso) : Fails T .pso :=
  Test.Violates.perLocation h

-- The outputs for a test are right about its assertions: the tool reports a failed verification exactly if there
-- is a run that violates one of them, and a successful one otherwise.
structure Judges (out : MemoryModel → Output) (T : Test Tid Loc Val L) : Prop where
  failed     : ∀ mm, (out mm).failed = true ↔ Fails T mm
  successful : ∀ mm, (out mm).successful = true ↔ ¬Fails T mm

-- The line of the summary that the script writes for two outputs.
def summary (out : MemoryModel → Output) : Conclusion :=
  conclusion (out .tso).result (out .pso).result

namespace Judges

variable {out : MemoryModel → Output} {T : Test Tid Loc Val L}

theorem result_eq (h : Judges out T) (mm : MemoryModel) [Decidable (Fails T mm)] :
    (out mm).result = if Fails T mm then .bugDetected else .safe := by
  by_cases hf : Fails T mm <;> simp [Output.result, h.successful, h.failed, hf]

-- Under partial store order a test fails if it does under total store order, so the summary tells which
-- of the two it fails under.
theorem summary_cases (h : Judges out T) :
    (Fails T .tso ∧ summary out = .logicBug) ∨
      (¬Fails T .tso ∧ Fails T .pso ∧ summary out = .wmmBug) ∨
      (¬Fails T .tso ∧ ¬Fails T .pso ∧ summary out = .noBug) := by
  classical
  rw [summary, h.result_eq, h.result_eq]
  by_cases ht : Fails T .tso
  case pos => simp [ht, ht.pso, conclusion]
  case neg => by_cases hp : Fails T .pso <;> simp [ht, hp, conclusion]

theorem summary_eq_logicBug_iff (h : Judges out T) : summary out = .logicBug ↔ Fails T .tso := by
  rcases h.summary_cases with h | h | h <;> simp [h]

theorem summary_eq_wmmBug_iff (h : Judges out T) :
    summary out = .wmmBug ↔ ¬Fails T .tso ∧ Fails T .pso := by
  rcases h.summary_cases with h | h | h <;> simp [h]

theorem summary_eq_noBug_iff (h : Judges out T) : summary out = .noBug ↔ ¬Fails T .pso := by
  rcases h.summary_cases with ⟨h, hs⟩ | h | h
  · simp [hs, h.pso]
  · simp [h]
  · simp [h]

end Judges

-- A tool that explores all runs of the test.
open Classical in
noncomputable def exhaust (T : Test Tid Loc Val L) : MemoryModel → Output := fun mm =>
  { successful := decide ¬Fails T mm, failed := decide (Fails T mm), status := 0 }

theorem exhaust_judges (T : Test Tid Loc Val L) : Judges (exhaust T) T where
  failed _ := by simp [exhaust]
  successful _ := by simp [exhaust]

-- The verdict `Logic Bug` is right about interleavings.
def LogicBugSound (T : Test Tid Loc Val L) : Prop :=
  ∀ out, Judges out T → summary out = .logicBug → T.InterleavingViolates

theorem logicBugSound_iff {T : Test Tid Loc Val L} :
    LogicBugSound T ↔ (T.Violates (.fifo _) .flushing → T.InterleavingViolates) where
  mp h hv := h _ (exhaust_judges T) ((exhaust_judges T).summary_eq_logicBug_iff.mpr hv)
  mpr h _ hj hs := h (hj.summary_eq_logicBug_iff.mp hs)

variable {Reg V : Type} [DecidableEq Reg]

-- The baseline of the script is total store order. Its verdict `Logic Bug` carries over to interleavings if no
-- load of the program gets ahead of a store, and this is what it takes: next to a thread in which one does, there
-- can be others in which none does, and the verdict is wrong.
theorem logicBug_sound_iff :
    (∀ P : Litmus.Program Tid Loc Reg V, P.Fenced → LogicBugSound P.test) ∧
    ∀ is : List (Litmus.Instr Loc Reg V), Litmus.fencedFrom none is = true ↔
      ∀ P : Litmus.Program Bool Loc ℕ ℕ, Litmus.accesses (P.code true) = Litmus.accesses is →
        Litmus.fencedFrom none (P.code false) = true → LogicBugSound P.test := by
  refine ⟨fun P h => logicBugSound_iff.mpr h.interleavingViolates, fun is => ⟨fun h P ha hf => ?_, fun h => ?_⟩⟩
  case refine_1 =>
    have ht : Litmus.fencedFrom none (P.code true) = true :=
      Litmus.fenced_released_iff.mp (ha ▸ Litmus.fenced_released_iff.mpr h)
    have hP : P.Fenced := fun t => by cases t <;> assumption
    exact logicBugSound_iff.mpr hP.interleavingViolates
  case refine_2 =>
    by_contra hn
    obtain ⟨P, ha, hf, hv, hi⟩ := Litmus.exists_program hn
    exact hi (logicBugSound_iff.mp (h P ha hf) hv)

-- Interleavings are contained in the runs with total store order, and these in the runs with partial
-- store order, so a program that the script finds safe under total store order is safe.
theorem wmmBug_sound (P : Litmus.Program Tid Loc Reg V) :
    (∀ m f, P.test.InterleavingOutcome m f → P.test.Outcome (.fifo _) .flushing m f) ∧
    (∀ m f, P.test.Outcome (.fifo _) .flushing m f →
      P.test.Outcome (.perLocation _) .flushing m f) ∧
    (∀ out, Judges out P.test →
      (summary out = .wmmBug → ¬P.test.InterleavingViolates) ∧
      (summary out = .noBug → ¬P.test.InterleavingViolates) ∧
      ¬((out .tso).result = .bugDetected ∧ (out .pso).result = .safe)) := by
  refine ⟨fun _ _ => Test.InterleavingOutcome.outcome, fun _ _ => Test.Outcome.perLocation, fun out h => ?_⟩
  refine ⟨fun hs hv => ?_, fun hs hv => ?_, fun ⟨ht, hp⟩ => ?_⟩
  · exact (h.summary_eq_wmmBug_iff.mp hs).1 hv.violates
  · exact h.summary_eq_noBug_iff.mp hs hv.violates
  · rcases h.summary_cases with ⟨-, hs⟩ | ⟨-, -, hs⟩ | ⟨-, -, hs⟩ <;> simp [summary, conclusion, ht, hp] at hs

end Verdict

section SofaPbrpcHang

inductive Var
  | pendingMessageCount
  | sendToken
  | t1Token
  | t2Count
  deriving DecidableEq

instance : Fintype Var where
  elems := {.pendingMessageCount, .sendToken, .t1Token, .t2Count}
  complete x := by cases x <;> decide

open Var Litmus.Instr

-- `29-sofa_pbrpc_hang.c`: `thread_try_start_send` and `thread_get_from_queue`, with one register each
-- for the value on its way from one global variable to another.
def sofaPbrpcHang : Litmus.Program (Fin 2) Var Unit Int where
  code
    | 0 => [store pendingMessageCount fun _ => 1, load () sendToken, store t1Token (· ())]
    | 1 => [store sendToken fun _ => 0, load () pendingMessageCount, store t2Count (· ())]
  mem
    | pendingMessageCount => 0
    | sendToken => 1
    | t1Token => -1
    | t2Count => -1
  regs _ _ := 0
  post m _ := !(m t1Token == 1 && m t2Count == 0)

theorem sofaPbrpcHang_not_interleavingViolates : ¬sofaPbrpcHang.test.InterleavingViolates :=
  Test.not_interleavingViolates_of_explore 6 (by decide +kernel)

-- Both threads read before their first store reaches memory.
theorem sofaPbrpcHang_violates : sofaPbrpcHang.test.Violates (.fifo _) .flushing :=
  Test.violates_of_schedule
    [.move 0, .move 1, .move 0, .move 1, .move 0, .move 1, .drain 0 pendingMessageCount,
      .drain 0 t1Token, .drain 1 sendToken, .drain 1 t2Count] (by decide +kernel)

theorem not_logicBug_sound : ¬LogicBugSound sofaPbrpcHang.test :=
  fun h => sofaPbrpcHang_not_interleavingViolates (logicBugSound_iff.mp h sofaPbrpcHang_violates)

end SofaPbrpcHang

section Crossbeam

inductive Crossbeam.Var
  | seqState
  | sharedData
  deriving DecidableEq

inductive Crossbeam.Reg
  | stamp
  | val
  | newStamp
  deriving DecidableEq

open Crossbeam.Var Crossbeam.Reg Litmus.Instr

instance : Fintype Crossbeam.Var where
  elems := {seqState, sharedData}
  complete x := by cases x <;> decide

-- `21-crossbeam.c`: `reader` and `writer`
def crossbeam : Litmus.Program Bool Crossbeam.Var Crossbeam.Reg Int where
  code
    | false => [load stamp seqState, load val sharedData, load newStamp seqState,
        assert fun r => !(r stamp == 0 && r newStamp == 0) || r val == 0]
    | true => [store sharedData fun _ => 1, store seqState fun _ => 1]
  mem _ := 0
  regs _ _ := 0
  post _ _ := true

theorem crossbeam_violates : crossbeam.test.Violates (.fifo _) .flushing :=
  Test.violates_of_schedule
    [.move true, .drain true sharedData, .move false, .move false, .move false, .move false] (by decide +kernel)

theorem logicBug_sound_iff_crossbeam :
    crossbeam.test.InterleavingViolates ∧
    ¬∀ P : Litmus.Program Bool Var ℕ ℕ,
      Litmus.accesses (P.code true) = Litmus.accesses (sofaPbrpcHang.code 0) →
        Litmus.fencedFrom none (P.code false) = true → LogicBugSound P.test := by
  have hj := exhaust_judges crossbeam.test
  have ⟨_, h⟩ := @logicBug_sound_iff (Fin 2) Var _ _ _ Unit Int _
  refine ⟨?_, mt (h (sofaPbrpcHang.code 0)).mpr (by decide)⟩
  exact logicBug_sound_iff.1 crossbeam (fun t => by cases t <;> rfl) _ hj
    (hj.summary_eq_logicBug_iff.mpr crossbeam_violates)

end Crossbeam

section MariaDbEasy

inductive MariaDbEasy.Var
  | nodeKey
  | nodeLink
  deriving DecidableEq

inductive MariaDbEasy.Reg
  | k
  | l
  deriving DecidableEq

open MariaDbEasy.Var MariaDbEasy.Reg Litmus.Instr

instance : Fintype MariaDbEasy.Var where
  elems := {nodeKey, nodeLink}
  complete x := by cases x <;> decide

-- `11-MariaDBEasy.c`: `thread_delete` and `thread_find`
def mariaDbEasy : Litmus.Program Bool MariaDbEasy.Var MariaDbEasy.Reg Int where
  code
    | true => [store nodeLink fun _ => 0, store nodeKey fun _ => 0]
    | false => [load k nodeKey, load l nodeLink, assert fun r => !(r l == 1) || r k == 1]
  mem _ := 1
  regs _ _ := 0
  post _ _ := true

theorem fenced_mariaDbEasy : mariaDbEasy.Fenced := by
  intro t
  cases t <;> rfl

theorem mariaDbEasy_not_fails_tso : ¬Fails mariaDbEasy.test .tso :=
  mt fenced_mariaDbEasy.interleavingViolates (Test.not_interleavingViolates_of_explore 5 (by decide +kernel))

-- The second store reaches memory before the first one.
theorem mariaDbEasy_fails_pso : Fails mariaDbEasy.test .pso :=
  Test.violates_of_schedule
    [.move true, .move true, .drain true nodeKey, .move false, .move false, .move false] (by decide +kernel)

theorem wmmBug_sound_mariaDbEasy :
    summary (exhaust mariaDbEasy.test) = .wmmBug ∧ ¬mariaDbEasy.test.InterleavingViolates := by
  have hj := exhaust_judges mariaDbEasy.test
  have hs := hj.summary_eq_wmmBug_iff.mpr ⟨mariaDbEasy_not_fails_tso, mariaDbEasy_fails_pso⟩
  exact ⟨hs, ((wmmBug_sound mariaDbEasy).2.2 _ hj).1 hs⟩

end MariaDbEasy

end Cbmc

import OrderingBugs.Memory.Exposure
import OrderingBugs.Memory.Simple

open Function

-- The evaluation script for GenMC (`run_genmc_eval.sh`).
namespace Genmc

-- What the script looks for in the output of a run of the tool.
structure Output where
  violation : Bool
  race      : Bool
  noErrors  : Bool

-- `r_str` and `s_str`.
inductive Result
  | assertion
  | dataRace
  | success
  | error
  deriving DecidableEq

-- `r_flag` and `s_flag`.
inductive Flag
  | failed
  | success
  | error
  deriving DecidableEq

inductive Conclusion
  | confirmedWmmBug
  | logicBug
  | falseNegative
  | error
  deriving DecidableEq

def Output.result (o : Output) : Result :=
  if o.violation then .assertion
  else if o.race then .dataRace
  else if o.noErrors then .success
  else .error

def Result.flag : Result → Flag
  | assertion | dataRace => .failed
  | success => .success
  | error => .error

def conclusion (rFlag sFlag : Flag) : Conclusion :=
  if rFlag = .failed ∧ sFlag = .success then .confirmedWmmBug
  else if rFlag = .failed ∧ sFlag = .failed then .logicBug
  else if rFlag = .success then .falseNegative
  else .error

-- `sed 's/memory_order_relaxed/memory_order_seq_cst/g'`
def sed : Order → Order
  | .relaxed => .seqCst
  | o => o

theorem sed_eq (o : Order) : sed o = o ∨ sed o = .seqCst := by
  cases o <;> simp [sed]

section Verdict

variable {Tid Loc L : Type} [DecidableEq Tid] [DecidableEq Loc] {Val : Loc → Type}

abbrev Tool (Tid Loc : Type) (Val : Loc → Type) (L : Type) :=
  Test Tid Loc Val L → Output

section Script

variable (genmc : Tool Tid Loc Val L) (T : Test Tid Loc Val L)

-- The program in `temp_sc_file`.
def tempSc : Test Tid Loc Val L :=
  T.mapOrder sed

-- The test with every access sequentially consistent.
def seqCst : Test Tid Loc Val L :=
  T.mapOrder fun _ => .seqCst

def rFlag : Flag := (genmc T).result.flag

def sFlag : Flag := (genmc (tempSc T)).result.flag

-- The line of the report for a test.
def verdict : Conclusion :=
  conclusion (rFlag genmc T) (sFlag genmc T)

-- The tool reports a violation exactly for the tests with an execution that violates an assertion.
-- All accesses are atomic, so there are no races to report.
structure Exact : Prop where
  violation : (genmc T).violation = true ↔ C11.Violates T
  race      : (genmc T).race = false
  noErrors  : (genmc T).noErrors = true ↔ ¬C11.Violates T

-- The verdict `Logic Bug` is right about sequential consistency.
def LogicBugSound : Prop :=
  ∀ genmc, Exact genmc T → Exact genmc (tempSc T) → verdict genmc T = .logicBug → C11.Violates (seqCst T)

end Script

variable {genmc : Tool Tid Loc Val L} {T : Test Tid Loc Val L}

theorem violates_seqCst_iff : C11.Violates (seqCst T) ↔ T.InterleavingViolates := by
  refine ⟨fun h => ?_, fun h => C11.violates_of_interleaving (Test.interleavingViolates_mapOrder_iff.mpr h)⟩
  refine Test.interleavingViolates_mapOrder_iff.mp (h.interleaving fun t => C11.fencedThread_of_seqCst ?_)
  intro l o x h
  simp only [Test.mapOrder, Access.access?_mapOrder, Option.map_eq_some_iff] at h
  rcases h with ⟨a, -, h⟩ | ⟨a, -, h⟩ <;> cases a <;> cases h <;> rfl

namespace Exact

theorem flag_eq_failed_iff (e : Exact genmc T) :
    (genmc T).result.flag = .failed ↔ C11.Violates T := by
  rw [← e.violation]
  simp only [Output.result, e.race]
  split_ifs <;> simp_all [Result.flag]

-- The verdict needs a failure of the generated program, whatever the tool says about the test.
theorem violates_of_logicBug (es : Exact genmc (tempSc T)) (h : verdict genmc T = .logicBug) :
    C11.Violates (tempSc T) := by
  refine es.flag_eq_failed_iff.mp ?_
  simp only [verdict, conclusion] at h
  split_ifs at h with _ h'
  exact h'.2

-- The test has all executions of the one that the script generates from it.
theorem verdict_eq_logicBug_iff (er : Exact genmc T) (es : Exact genmc (tempSc T)) :
    verdict genmc T = .logicBug ↔ C11.Violates (tempSc T) := by
  refine ⟨es.violates_of_logicBug, fun h => ?_⟩
  have hr := er.flag_eq_failed_iff.mpr (h.of_mapOrder sed_eq)
  simp [verdict, conclusion, rFlag, sFlag, hr, es.flag_eq_failed_iff.mpr h]

end Exact

-- A tool that explores all executions.
open Classical in
noncomputable def exhaustive : Tool Tid Loc Val L := fun T =>
  { violation := decide (C11.Violates T), race := false, noErrors := decide ¬C11.Violates T }

theorem exhaustive_exact : Exact exhaustive T where
  violation := by simp [exhaustive]
  race := rfl
  noErrors := by simp [exhaustive]

theorem logicBugSound_iff : LogicBugSound T ↔ (C11.Violates (tempSc T) → T.InterleavingViolates) where
  mp h hv := violates_seqCst_iff.mp <|
    h _ exhaustive_exact exhaustive_exact ((exhaustive_exact.verdict_eq_logicBug_iff exhaustive_exact).mpr hv)
  mpr h _ er es hl := violates_seqCst_iff.mpr (h ((er.verdict_eq_logicBug_iff es).mp hl))

end Verdict

section SofaPbrpcHang

inductive Var
  | pendingMessageCount
  | sendToken
  | workDone
  deriving DecidableEq

-- Where a thread is, with the value of its local variable (`token` or `count`).
inductive Pc
  | update
  | check
  | process (v : Int)
  | done

open Var Pc

-- `29-sofa_pbrpc_hang.c`: `thread_try_start_send` and `thread_get_from_queue` from the start barrier
-- on, and the check at the end of an iteration.
def sofaPbrpcHang : Test (Fin 2) Var (fun _ => Int) Pc where
  program
    | 0 => fun
      | .update => .store .release pendingMessageCount 1 check
      | check => .load .relaxed sendToken process
      | process token => if token = 0 then .store .seqCst workDone 1 done else .skip done
      | done => .halt
    | 1 => fun
      | .update => .store .release sendToken 0 check
      | check => .load .relaxed pendingMessageCount process
      | process count => if count > 0 then .store .seqCst workDone 1 done else .skip done
      | done => .halt
  mem
    | pendingMessageCount => 0
    | sendToken => 1
    | workDone => 0
  threads _ := .update
  Failed _ := False
  Post m _ := m workDone ≠ 0

instance : DecidablePred (tempSc sofaPbrpcHang).Failed :=
  fun _ => inferInstanceAs (Decidable False)

instance (m f) : Decidable ((tempSc sofaPbrpcHang).Post m f) :=
  inferInstanceAs (Decidable (m workDone ≠ 0))

theorem sofaPbrpcHang_not_interleavingViolates :
    ¬(tempSc sofaPbrpcHang).InterleavingViolates :=
  Test.not_interleavingViolates_of_explore 6 (by decide +kernel)

-- Both threads check before their stores with release order reach memory.
theorem tempSc_sofaPbrpcHang_violates : (tempSc sofaPbrpcHang).Violates (.fifo _) .flushing :=
  Test.violates_of_schedule
    [.move 0, .move 1, .move 0, .move 1, .move 0, .move 1, .drain 0 pendingMessageCount,
      .drain 1 sendToken] (by decide +kernel)

end SofaPbrpcHang

section MariaDbEasy

inductive MariaDbEasy.Var
  | cursorKey
  | cursorLink
  deriving DecidableEq

inductive MariaDbEasy.Pc
  | first
  | second (key : Int)
  | check (key link : Int)
  | failed
  | done
  deriving DecidableEq

open MariaDbEasy.Var MariaDbEasy.Pc

-- `18-MariaDBEasy_genmc.c`: `thread_l_delete` and `thread_l_find`
def mariaDbEasy : Test Bool MariaDbEasy.Var (fun _ => Int) MariaDbEasy.Pc where
  program
    | true => fun
      | first => .store .relaxed cursorKey 0 (second 0)
      | second _ => .store .relaxed cursorLink 0 done
      | check .. | failed | done => .halt
    | false => fun
      | first => .load .relaxed cursorKey second
      | second key => .load .relaxed cursorLink (check key)
      | check key link => .skip (if link = 1 ∧ key ≠ 1 then failed else done)
      | failed | done => .halt
  mem _ := 1
  threads _ := first
  Failed l := l = failed
  Post _ _ := True

end MariaDbEasy
end Genmc

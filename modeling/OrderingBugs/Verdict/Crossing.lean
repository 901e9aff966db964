import OrderingBugs.Memory.Crossing
import OrderingBugs.Verdict.Genmc
import OrderingBugs.Verdict.Nidhugg

open Function

-- The verdicts of the three scripts on the tests in which threads miss each other's stores.
namespace Crossing

variable {Tid Loc V : Type}

-- The version of a test that is made for GenMC and Nidhugg has relaxed atomic accesses, and the variables for
-- the results may start with something else.
def relaxed (C : Crossing Tid Loc V) (mem : Loc → V) (hm : ∀ t, mem (C.own t) = C.mem (C.own t)) :
    Crossing Tid Loc V :=
  { C with
    order := .relaxed
    mem := mem
    new_ne := fun t => hm t ▸ C.new_ne t }

variable {C : Crossing Tid Loc V} [DecidableEq Tid] [DecidableEq Loc]

omit [DecidableEq Tid] [DecidableEq Loc] in
theorem simple_test : C.test.Simple := by
  intro t k
  cases k <;> trivial

omit [DecidableEq Tid] [DecidableEq Loc] in
theorem delays_flushing (ho : C.order ≠ .seqCst) : C.Delays .flushing :=
  ⟨by simpa [Discipline.flushing] using ho, rfl⟩

-- The same is missed with the orders of C11.
theorem c11_violates_iff [Fintype Tid] (ho : C.order ≠ .seqCst) : C11.Violates C.test ↔ C.Escapes where
  mp h := escapes_of_violates (delays_flushing ho) (h.unordered simple_test)
  mpr h := .of_fifo simple_test (violates_of_escapes (delays_flushing ho) h)

-- The rewritten test delays no stores.
theorem not_violates_tempSc [Nonempty Tid] (ho : C.order = .relaxed) : ¬C11.Violates (Genmc.tempSc C.test) := by
  refine fun h => not_interleavingViolates (C := C) <| Test.interleavingViolates_mapOrder_iff.mp <|
    h.interleaving fun t => C11.fencedThread_of_seqCst fun k o x h => ?_
  cases k <;> rcases h with h | h <;> cases h <;> rw [ho] <;> rfl

variable [Fintype Tid]

theorem genmc_verdict [Nonempty Tid] {genmc : Genmc.Tool Tid Loc (fun _ => V) (Thread V)}
    (ho : C.order = .relaxed) (h : Genmc.Exact genmc C.test) (h' : Genmc.Exact genmc (Genmc.tempSc C.test)) :
    (C.Escapes → Genmc.verdict genmc C.test = .confirmedWmmBug) ∧
      (¬C.Escapes → Genmc.verdict genmc C.test = .falseNegative) := by
  have hv : C11.Violates C.test ↔ C.Escapes := c11_violates_iff (by simp [ho])
  have hs : ¬C11.Violates (Genmc.tempSc C.test) := not_violates_tempSc ho
  have success {T : Test Tid Loc (fun _ => V) (Thread V)} (h : Genmc.Exact genmc T) (hn : ¬C11.Violates T) :
      (genmc T).result.flag = .success := by
    simp [Genmc.Output.result, Genmc.Result.flag, h.violation, h.race, h.noErrors, hn]
  refine ⟨fun he => ?_, fun he => ?_⟩
  · have hr := h.flag_eq_failed_iff.mpr (hv.mpr he)
    simp [Genmc.verdict, Genmc.conclusion, Genmc.rFlag, Genmc.sFlag, hr, success h' hs]
  · have hr := success h (mt hv.mp he)
    simp [Genmc.verdict, Genmc.conclusion, Genmc.rFlag, hr]

variable [Fintype Loc] {out : Cbmc.MemoryModel → Cbmc.Output} {out' : Nidhugg.MemoryModel → Nidhugg.Output}

theorem cbmc_summary (ho : C.order ≠ .seqCst) (h : Cbmc.Judges out C.test) :
    (C.Escapes → Cbmc.summary out = .logicBug) ∧ (¬C.Escapes → Cbmc.summary out = .noBug) := by
  have hD := delays_flushing ho
  exact ⟨fun he => h.summary_eq_logicBug_iff.mpr ((violates_fifo_iff hD).mpr he),
    fun he => h.summary_eq_noBug_iff.mpr (mt (violates_perLocation_iff hD).mp he)⟩

theorem nidhugg_row [Nonempty Tid] (ho : C.order ≠ .seqCst) (h : Nidhugg.Judges out' C.test) :
    (C.Escapes → Nidhugg.row out' = (.safe, .bugDetected)) ∧
      (¬C.Escapes → Nidhugg.row out' = (.safe, .safe)) := by
  have hD := delays_flushing ho
  have hs : ¬Nidhugg.Fails C.test .sc := not_interleavingViolates
  have hp : Nidhugg.Fails C.test .pso ↔ C.Escapes := violates_perLocation_iff hD
  rw [← hp]
  rcases h.row_cases with h | h | h <;> simp_all

-- What is missed on a weaker machine only is a logic bug for the script whose baseline is total store order,
-- and not for the other two. With a fence in every thread of a group there is nothing to report.
theorem verdicts [Nonempty Tid] {genmc : Genmc.Tool Tid Loc (fun _ => V) (Thread V)}
    (C : Crossing Tid Loc V) (mem : Loc → V) (hm : ∀ t, mem (C.own t) = C.mem (C.own t))
    (ho : C.order = .plain) (hc : Cbmc.Judges out C.test) (hn : Nidhugg.Judges out' (C.relaxed mem hm).test)
    (hg : Genmc.Exact genmc (C.relaxed mem hm).test)
    (hs : Genmc.Exact genmc (Genmc.tempSc (C.relaxed mem hm).test)) :
    ¬C.test.InterleavingViolates ∧
    (C.Escapes → Cbmc.summary out = .logicBug ∧ Nidhugg.row out' = (.safe, .bugDetected) ∧
      Genmc.verdict genmc (C.relaxed mem hm).test = .confirmedWmmBug) ∧
    (¬C.Escapes → Cbmc.summary out = .noBug ∧ Nidhugg.row out' = (.safe, .safe) ∧
      Genmc.verdict genmc (C.relaxed mem hm).test = .falseNegative) := by
  have he : (C.relaxed mem hm).Escapes ↔ C.Escapes := .rfl
  have hc := cbmc_summary (by simp [ho]) hc
  have hn := nidhugg_row (by simp [relaxed]) hn
  have hg := genmc_verdict rfl hg hs
  rw [he] at hn hg
  exact ⟨not_interleavingViolates, fun he => ⟨hc.1 he, hn.1 he, hg.1 he⟩,
    fun he => ⟨hc.2 he, hn.2 he, hg.2 he⟩⟩

section StoreBuffering

inductive Role
  | thread1
  | thread2
  deriving DecidableEq

inductive Var
  | x
  | y
  | r1
  | r2
  deriving DecidableEq

open Role Var

instance : Fintype Role where
  elems := {thread1, thread2}
  complete t := by cases t <;> decide

instance : Fintype Var where
  elems := {x, y, r1, r2}
  complete v := by cases v <;> decide

instance : Nonempty Role :=
  ⟨thread1⟩

-- `18-JDK-8179954.c` and `30-tso_test.c`, `25-JDK-8179954_genmc.c` and `tso_test_genmc.c`, with any of the
-- fences that are missing there.
def tsoTest (fenced : Role → Bool) : Crossing Role Var Int where
  order := .plain
  own
    | thread1 => x
    | thread2 => y
  peer
    | thread1 => thread2
    | thread2 => thread1
  result
    | thread1 => r1
    | thread2 => r2
  fenced := fenced
  new _ := 1
  mem _ := 0
  own_injective := by decide
  result_injective := by decide
  distinct := by decide
  peer_ne := by decide
  new_ne := by decide

-- Both fences are needed.
theorem escapes_tsoTest_iff {fenced : Role → Bool} : (tsoTest fenced).Escapes ↔ ∃ t, fenced t = false where
  mp h := by simpa [tsoTest] using h Set.univ Set.univ_nonempty fun _ _ => Set.mem_univ _
  mpr := by
    rintro ⟨t, ht⟩ S ⟨u, hu⟩ hc
    have hu' := hc u hu
    refine ⟨t, ?_, ht⟩
    cases t <;> cases u <;> assumption

-- `29-sofa_pbrpc_hang.c`, and `sofa_pbrpc_hang_genmc.c` with other results to start with.
def sofaPbrpcHang : Crossing Role Cbmc.Var Int where
  order := .plain
  own
    | thread1 => .pendingMessageCount
    | thread2 => .sendToken
  peer
    | thread1 => thread2
    | thread2 => thread1
  result
    | thread1 => .t1Token
    | thread2 => .t2Count
  fenced _ := false
  new
    | thread1 => 1
    | thread2 => 0
  mem
    | .pendingMessageCount => 0
    | .sendToken => 1
    | .t1Token | .t2Count => -1
  own_injective := by decide
  result_injective := by decide
  distinct := by decide
  peer_ne := by decide
  new_ne := by decide

theorem escapes_sofaPbrpcHang : sofaPbrpcHang.Escapes := by
  rintro S ⟨t, ht⟩ -
  exact ⟨t, ht, rfl⟩

-- The variables as they are in `sofa_pbrpc_hang_genmc.c`.
def sofaPbrpcHangMem : Cbmc.Var → Int
  | .sendToken => 1
  | .pendingMessageCount | .t1Token | .t2Count => 0

-- What the three reports say about these tests.
theorem verdicts_storeBuffering :
    (Cbmc.summary (Cbmc.exhaust (tsoTest fun _ => false).test) = .logicBug ∧
      Nidhugg.row (Nidhugg.exhaust ((tsoTest fun _ => false).relaxed 0 fun _ => rfl).test) =
        (.safe, .bugDetected) ∧
      Genmc.verdict Genmc.exhaustive ((tsoTest fun _ => false).relaxed 0 fun _ => rfl).test =
        .confirmedWmmBug) ∧
    Cbmc.summary (Cbmc.exhaust sofaPbrpcHang.test) = .logicBug ∧
      Nidhugg.row (Nidhugg.exhaust (sofaPbrpcHang.relaxed sofaPbrpcHangMem (by decide)).test) =
        (.safe, .bugDetected) ∧
      Genmc.verdict Genmc.exhaustive (sofaPbrpcHang.relaxed sofaPbrpcHangMem (by decide)).test =
        .confirmedWmmBug where
  left := (verdicts _ 0 (fun _ => rfl) rfl (Cbmc.exhaust_judges _) (Nidhugg.exhaust_judges _)
    Genmc.exhaustive_exact Genmc.exhaustive_exact).2.1 (escapes_tsoTest_iff.mpr ⟨thread1, rfl⟩)
  right := (verdicts _ sofaPbrpcHangMem (by decide) rfl (Cbmc.exhaust_judges _) (Nidhugg.exhaust_judges _)
    Genmc.exhaustive_exact Genmc.exhaustive_exact).2.1 escapes_sofaPbrpcHang

end StoreBuffering
end Crossing

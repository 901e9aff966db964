import OrderingBugs.Memory.Rounds
import OrderingBugs.Memory.Strengthening
import OrderingBugs.Verdict.Crossing

open Function

namespace Rounds

variable {Tid Loc L : Type} [DecidableEq Tid] [DecidableEq Loc] {Val : Loc → Type}
variable {R : Rounds Tid Loc Val L} {mem₀ : Mem Val}

-- Without buffers, the rounds are interleavings.
theorem not_reports_sequential (h : ∀ m, ¬(R.test m).InterleavingViolates) :
    ¬R.Reports (.fifo _) .sequential mem₀ := by
  have hu (m) : (R.test m).Unbuffered .sequential := fun _ _ _ _ _ _ _ => rfl
  rw [reports_iff fun m => iff_false_intro (mt (hu m).violates_iff.mp (h m))]
  exact And.right

end Rounds

-- The loop of `30-tso_test.c`, with any of the fences that are missing there and any number of iterations.
namespace Harness.TsoTest

open Crossing Crossing.Role Crossing.Var

def rounds (n : Nat) (fenced : Role → Bool) : Rounds Role Var (fun _ => Int) (Thread Int) where
  program := (tsoTest fenced).program
  threads _ := .store
  reset m := update (update m x 0) y 0
  Expected m := ¬(m r1 = 0 ∧ m r2 = 0)
  gate := .semaphore
  posts := 2
  order := [thread1, thread2]
  limit := some n
  nodup := by decide
  complete t := by cases t <;> decide
  opens _ := rfl

-- The test with what the last iteration has left in the results.
def restarted (fenced : Role → Bool) (m : Mem fun _ : Var => Int) : Crossing Role Var Int :=
  { tsoTest fenced with
    mem := update (update m x 0) y 0
    new_ne := fun t => by cases t <;> simp [tsoTest] }

variable {n : Nat} {fenced : Role → Bool} {m : Mem fun _ : Var => Int}

theorem expected_iff (fenced : Role → Bool) (m : Mem fun _ : Var => Int) {m' : Mem fun _ : Var => Int} :
    ¬(m' r1 = 0 ∧ m' r2 = 0) ↔
      ∃ t, m' ((restarted fenced m).result t) ≠ (restarted fenced m).old t where
  mp h := by
    by_cases h₁ : m' r1 = 0
    case neg => exact ⟨thread1, h₁⟩
    case pos => exact ⟨thread2, fun h₂ => h ⟨h₁, h₂⟩⟩
  mpr := by
    rintro ⟨t, ht⟩ ⟨h₁, h₂⟩
    cases t
    · exact ht h₁
    · exact ht h₂

theorem test_rounds : (rounds n fenced).test m = (restarted fenced m).test := by
  have hp : (tsoTest fenced).program = (restarted fenced m).program := by
    funext t k
    cases k <;> rfl
  simp only [Rounds.test, Crossing.test, rounds, expected_iff fenced m, hp]
  rfl

theorem escapes_restarted_iff : (restarted fenced m).Escapes ↔ ∃ t, fenced t = false :=
  (Iff.rfl : (restarted fenced m).Escapes ↔ (tsoTest fenced).Escapes).trans escapes_tsoTest_iff

theorem delays_restarted : (restarted fenced m).Delays .flushing :=
  ⟨rfl, rfl⟩

theorem continues_iff {i : Nat} : (rounds n fenced).Continues i ↔ i < n := by
  simp [Rounds.Continues, rounds]

theorem violates_fifo_iff : ((rounds n fenced).test m).Violates (.fifo _) .flushing ↔ ∃ t, fenced t = false := by
  rw [test_rounds, Crossing.violates_fifo_iff delays_restarted, escapes_restarted_iff]

theorem violates_perLocation_iff :
    ((rounds n fenced).test m).Violates (.perLocation _) .flushing ↔ ∃ t, fenced t = false := by
  rw [test_rounds, Crossing.violates_perLocation_iff delays_restarted, escapes_restarted_iff]

-- The loop detects something exactly if one of the fences is missing, which any iteration can show. Without
-- buffers there is nothing to detect, no matter how often it is tried.
theorem tso_detects_iff (n : Nat) (fenced : Role → Bool) (mem₀ : Mem fun _ : Var => Int) :
    ((rounds n fenced).Reports (.fifo _) .flushing mem₀ ↔ 0 < n ∧ ∃ t, fenced t = false) ∧
    ((rounds n fenced).Reports (.perLocation _) .flushing mem₀ ↔ 0 < n ∧ ∃ t, fenced t = false) ∧
    ¬(rounds n fenced).Reports (.fifo _) .sequential mem₀ ∧
    ∀ s, ((rounds n fenced).system (.fifo _) .flushing mem₀).Reachable s → s.main = .check →
      (((rounds n fenced).system (.fifo _) .flushing mem₀).Leads (fun s => s.main = .reported) s ↔
        s.i < n ∧ ∃ t, fenced t = false) := by
  refine ⟨?_, ?_, ?_, fun s r hs => ?_⟩
  · rw [Rounds.reports_iff fun m => violates_fifo_iff, continues_iff]
  · rw [Rounds.reports_iff fun m => violates_perLocation_iff, continues_iff]
  · refine Rounds.not_reports_sequential fun m => ?_
    rw [test_rounds]
    exact Crossing.not_interleavingViolates
  · rw [Rounds.leads_reported_iff (fun m => violates_fifo_iff) r hs, continues_iff]

theorem tso_detects_iff_thousand :
    (rounds 1000 fun _ => false).Reports (.fifo _) .flushing fun _ => (0 : Int) :=
  (tso_detects_iff 1000 (fun _ => false) _).1.mpr ⟨by decide, thread1, rfl⟩

end Harness.TsoTest

-- The loop of `29-sofa_pbrpc_hang.c`, which goes on until it has detected something.
namespace Harness.SofaPbrpc

open Genmc

def rounds : Rounds (Fin 2) Var (fun _ => Int) Pc where
  program := sofaPbrpcHang.program
  threads := sofaPbrpcHang.threads
  reset _ := sofaPbrpcHang.mem
  Expected m := m .workDone ≠ 0
  gate := .flag
  posts := 1
  order := List.finRange 2
  limit := none
  nodup := List.nodup_finRange 2
  complete := List.mem_finRange
  opens _ := rfl

theorem test_rounds (m : Mem fun _ : Var => Int) : rounds.test m = sofaPbrpcHang :=
  rfl

theorem violates_sofaPbrpcHang : sofaPbrpcHang.Violates (.fifo _) .flushing :=
  tempSc_sofaPbrpcHang_violates.of_mapOrder fun o => by cases o <;> constructor <;> decide

theorem not_interleavingViolates_sofaPbrpcHang : ¬sofaPbrpcHang.InterleavingViolates :=
  mt Test.interleavingViolates_mapOrder_iff.mpr sofaPbrpcHang_not_interleavingViolates

-- Each iteration can be the one that detects that both threads have given up, but only because the stores
-- are buffered.
theorem hang_detectable (mem₀ : Mem fun _ : Var => Int) :
    (∀ s, (rounds.system (.fifo _) .flushing mem₀).Reachable s → s.main = .check →
      (rounds.system (.fifo _) .flushing mem₀).Leads (fun s => s.main = .reported) s) ∧
    ¬rounds.Reports (.fifo _) .sequential mem₀ := by
  constructor
  · intro s _ hs
    refine Rounds.leads_reported hs nofun ?_
    rw [test_rounds]
    exact violates_sofaPbrpcHang
  · refine Rounds.not_reports_sequential fun m => ?_
    rw [test_rounds]
    exact not_interleavingViolates_sofaPbrpcHang

end Harness.SofaPbrpc

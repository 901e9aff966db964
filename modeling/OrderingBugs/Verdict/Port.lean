import OrderingBugs.Memory.Strengthening
import OrderingBugs.Verdict.Nidhugg
import OrderingBugs.Verdict.Report

-- The tests that are made for Nidhugg: what CBMC is given with plain accesses has relaxed atomics there.
namespace Nidhugg

open Publication

-- The replacements of orders that neither of the tools notices.
def Keeps (f : Order → Order) : Prop :=
  ∀ o, f o = .seqCst ↔ o = .seqCst

def relax : Order → Order
  | .plain => .relaxed
  | o => o

theorem keeps_relax : Keeps relax := by
  intro o
  cases o <;> simp [relax]

theorem Keeps.stronger {f : Order → Order} (hf : Keeps f) (o : Order) :
    Discipline.flushing.Stronger o (f o) ∧ Discipline.flushing.Stronger (f o) o :=
  ⟨Discipline.flushing_stronger (hf o).symm, Discipline.flushing_stronger (hf o)⟩

variable {Obs Loc : Type} [DecidableEq Obs] [DecidableEq Loc] [Fintype Loc] {Val : Loc → Type}
variable {f : Order → Order} {out : MemoryModel → Output} {out' : Cbmc.MemoryModel → Cbmc.Output}

-- As long as those who store do not look at anything, the baselines of the two scripts are the same.
theorem fails_port_iff {P : Publication Loc Val Obs} (hf : Keeps f) :
    (Fails (P.test.mapOrder f) .sc ↔ Cbmc.Fails P.test .tso) ∧
    (Fails (P.test.mapOrder f) .pso ↔ Cbmc.Fails P.test .pso) where
  left := Test.interleavingViolates_mapOrder_iff.trans (interleavingViolates_iff P)
  right := Test.violates_mapOrder_iff hf.stronger

-- A test in which one thread stores and others look at it, and its port: the two scripts come to the same
-- conclusion.
theorem row_of_port (P : Publication Loc Val Obs) (hf : Keeps f) (h : Judges out (P.test.mapOrder f))
    (h' : Cbmc.Judges out' P.test) :
    (row out = (.bugDetected, .bugDetected) ↔ Cbmc.summary out' = .logicBug) ∧
    (row out = (.safe, .bugDetected) ↔ Cbmc.summary out' = .wmmBug) ∧
    (row out = (.safe, .safe) ↔ Cbmc.summary out' = .noBug) := by
  obtain ⟨hs, hp⟩ := fails_port_iff (P := P) hf
  obtain ⟨h₁, h₂, h⟩ | ⟨h₁, h₂, h⟩ | ⟨h₁, h₂, h⟩ := h.row_cases <;>
    obtain ⟨k₁, k⟩ | ⟨k₁, k₂, k⟩ | ⟨k₁, k₂, k⟩ := h'.summary_cases <;>
    simp_all

section Probes

-- What the script has to report for a test with a single payload.
def expected (p : Probe) : Result × Result :=
  if p.expected = .logicBug then (.bugDetected, .bugDetected)
  else if p.expected = .wmmBug then (.safe, .bugDetected)
  else (.safe, .safe)

theorem row_eq_expected [Nonempty Obs] {p : Probe} (hf : Keeps f)
    (h : Judges out ((p.publication Obs).test.mapOrder f)) : row out = expected p := by
  have hp := row_of_port _ hf h (Cbmc.exhaust_judges _)
  rw [Probe.summary_eq_expected (Cbmc.exhaust_judges _)] at hp
  obtain ⟨-, -, h⟩ | ⟨-, -, h⟩ | ⟨-, -, h⟩ := h.row_cases <;> simp_all [expected]

-- A payload that is published with a flag.
def flag (old new : Int) : Probe where
  old := old
  new := new
  idle := 0
  set := 1
  quiet := @rfl _ false

-- A payload that is published by clearing a flag.
def cleared (old new : Int) : Probe where
  old := old
  new := new
  idle := 1
  set := 0
  quiet := @rfl _ false

-- Whoever looks at the payload only notices what is zero.
def started (new : Int) : Probe where
  old := 0
  new := new
  idle := 0
  set := 1
  guard n := n != 0
  check n := n != 0
  quiet := @rfl _ false

-- Two flags of which the one that is set first is looked at first.
def halfway : Probe where
  old := 0
  new := 1
  idle := 0
  set := 1
  signalLast := false
  eager := true
  check n := n != 0
  quiet := @rfl _ false

-- The owner of a lock, and how often it is locked.
def ceph : Probe where
  old := 0
  new := 1
  idle := 0
  set := 1
  guard n := decide (n > 0)
  quiet := @rfl _ false

-- The key of a node, which is overwritten before its link is, and looked at before it.
def mariaDbEasy : Probe where
  old := 1
  new := 0
  idle := 1
  set := 0
  signalLast := false
  eager := true
  guard key := key != 1
  check link := link != 1
  quiet := @rfl _ false

-- The pointer to a node of a queue, whose tail is set before it.
def mcs : Probe where
  old := 0
  new := 1
  idle := 0
  set := 1
  signalLast := false
  quiet := @rfl _ false

-- The rows of the report (`nidhugg_summary_report.csv`) for these tests.
def rows : List (Probe × Result × Result) :=
  -- `0-datarace_genmc.c`, `19-DragonWell8Easy_genmc.c`, `barrier_genmc.c`
  [(flag 0 42, .safe, .bugDetected),
  -- `15-CVE-2020-25603-Xen_genmc.c`, `20-JDK_genmc.c`, `pso_test_genmc.c`, `8-smc_genmc.c`, `8-tls_genmc.c`
  (flag 0 1, .safe, .bugDetected),
  -- `17-ceph_genmc.c`
  (ceph, .safe, .bugDetected),
  -- `18-MariaDBEasy_genmc.c`
  (mariaDbEasy, .bugDetected, .bugDetected),
  -- `21-libfabric_genmc.c`
  (flag 0 99, .safe, .bugDetected),
  -- `22-openmpi_genmc.c`
  (cleared 0 1, .safe, .bugDetected),
  -- `23-includeos_genmc.c`
  (flag 0 1111, .safe, .bugDetected),
  -- `26-ompi_genmc.c`
  (flag 0 1024, .safe, .bugDetected),
  -- `4-MySQL_genmc.c`, `mysql_rwlock_deadlock_genmc.c`
  (flag 0 1001, .safe, .bugDetected),
  -- `6-ompi_genmc.c`
  (cleared (-1) 0, .safe, .bugDetected),
  -- `mcs_genmc.c`
  (mcs, .bugDetected, .bugDetected),
  -- `mysql_volatile_bug_genmc.c`
  (flag 0 999, .safe, .bugDetected),
  -- `1-rds_genmc.c`
  (started 4000, .safe, .bugDetected),
  -- `1-vlan_genmc.c`, `10-smc2_genmc.c`
  (started 1, .safe, .bugDetected),
  -- `2-watchqueue_genmc.c`
  (started 16, .safe, .bugDetected),
  -- `11-gsm_genmc.c`, `3-vmci_genmc.c`, `4-xdp_genmc.c`, `6-bpf_genmc.c`, `9-tls2_genmc.c`, `9-unix_genmc.c`
  (halfway, .bugDetected, .bugDetected)]

-- What the report says for a test and its port, and for these in particular.
theorem row_of_tests (out : MemoryModel → Output) :
    (∀ (P : Publication Loc Val Obs) (f : Order → Order) (out' : Cbmc.MemoryModel → Cbmc.Output), Keeps f →
      Judges out (P.test.mapOrder f) → Cbmc.Judges out' P.test →
        (row out = (.bugDetected, .bugDetected) ↔ Cbmc.summary out' = .logicBug) ∧
        (row out = (.safe, .bugDetected) ↔ Cbmc.summary out' = .wmmBug) ∧
        (row out = (.safe, .safe) ↔ Cbmc.summary out' = .noBug)) ∧
    ∀ r ∈ rows, Judges out ((r.1.publication Unit).test.mapOrder relax) → row out = r.2 := by
  have hs : ∀ r ∈ rows, expected r.1 = r.2 := by decide
  exact ⟨fun _ _ _ => row_of_port _, fun r hr h => (row_eq_expected keeps_relax h).trans (hs r hr)⟩

theorem row_of_tests_datarace :
    row (exhaust (((flag 0 42).publication Unit).test.mapOrder relax)) = (.safe, .bugDetected) ∧
      Cbmc.summary (Cbmc.exhaust ((flag 0 42).publication Unit).test) = .wmmBug := by
  let T := ((flag 0 42).publication Unit).test.mapOrder relax
  have ⟨hp, hr⟩ := @row_of_tests Unit Probe.Var _ _ _ Probe.Val (exhaust T)
  have hr := hr (flag 0 42, .safe, .bugDetected) (by simp [rows]) (exhaust_judges _)
  exact ⟨hr, (hp _ _ _ keeps_relax (exhaust_judges _) (Cbmc.exhaust_judges _)).2.1.mp hr⟩

end Probes

end Nidhugg

import OrderingBugs.Harness.PsoTest
import OrderingBugs.OpenMpi.Interlib
import OrderingBugs.Verdict.Probe

-- The summary of `CBMC/Layer1` (`cbmc_summary_report.csv`), for the tests that publish something.
namespace Report

open Publication Cbmc

section Probes

-- `10-ceph.c`: `locked_by` and `nlock`
def ceph : Probe where
  old := 0
  new := 1
  idle := 0
  set := 1
  fenced := true
  guard n := decide (n > 0)

-- `14-libfabric.c`: `cmd_data` and `resp_status`
def libfabric : Probe where
  old := 0
  new := 2
  idle := 0
  set := -1
  fenced := true

-- `22-MariaDB.c`: `db_data` and `db_flag`
def mariaDb : Probe where
  old := 0
  new := 42
  idle := 0
  set := 1
  fenced := true
  eager := true

-- `7-OpenBLAS.c`: `memory_buffer[0]` and `memory_flag`
def openBlas : Probe where
  old := 0
  new := 42
  idle := 0
  set := 1
  fenced := true

-- `15-openmpi.c`: `list_data` and `head_ptr`
def openMpi : Probe where
  old := 0
  new := 42
  idle := 0
  set := 1

-- `17-mysql.c`: `data` and `lock_released`
def mysql : Probe where
  old := 0
  new := 1
  idle := 0
  set := 1

-- `20-barrier.c` and `32-datarace.c`: `data` and `flag`
def barrier : Probe where
  old := 0
  new := 42
  idle := 0
  set := 1

-- `23-mcs.c`: `me_locked` and `prev_next`
def mcs : Probe where
  old := 0
  new := 1
  idle := 0
  set := 1

-- `24-mysql_rwlock_deadlock.c`: `lock_writer_thread` and `lock_recursive`
def mysqlRwlockDeadlock : Probe where
  old := 0
  new := 1001
  idle := 0
  set := 1
  eager := true

-- `25-mysql_volatile_bug.c`: `log_file_data` and `log_state`
def mysqlVolatileBug : Probe where
  old := 0
  new := 999
  idle := 0
  set := 1

-- `26-mysql-99556.c`: `gtid_mode` and `gtid_mode_counter`
def mysql99556 : Probe where
  old := 0
  new := 1
  idle := 0
  set := 1
  eager := true

-- `9-CVE-2020-25603-Xen.c`: `evtchn` and `valid_evtchns`
def xen : Probe where
  old := 0
  new := 1
  idle := 0
  set := 1

-- `11-MariaDBEasy.c`: `node_link` and `node_key`, with both tests of the assertion negated
def mariaDbEasy : Probe where
  old := 1
  new := 0
  idle := 1
  set := 0
  eager := true
  guard k := k != 1
  check l := l != 1

-- `27-mysql-ut-realx.c`: `inno_data` and `inno_data_ready`
def mysqlUtRelax : Probe where
  old := 0
  new := 1
  idle := 0
  set := 1
  signalLast := false

end Probes

-- The rows of the summary for these tests.
def rows : List (Probe × Conclusion) :=
  [(openBlas, .noBug), (xen, .wmmBug), (ceph, .noBug), (mariaDbEasy, .wmmBug), (libfabric, .noBug),
    (openMpi, .wmmBug), (mysql, .wmmBug), (barrier, .wmmBug), (mariaDb, .noBug), (mcs, .wmmBug),
    (mysqlRwlockDeadlock, .wmmBug), (mysqlVolatileBug, .wmmBug), (mysql99556, .wmmBug),
    (mysqlUtRelax, .logicBug)]

-- What the summary says for all tests with a single payload, and for these in particular.
theorem summary_of_probes {Obs : Type} [DecidableEq Obs] [Nonempty Obs] (out : MemoryModel → Output) :
    (∀ p : Probe, Judges out (p.publication Obs).test → summary out = p.expected) ∧
    ∀ r ∈ rows, Judges out (r.1.publication Obs).test → summary out = r.2 := by
  have hs : ∀ r ∈ rows, r.1.expected = r.2 := by decide
  exact ⟨fun _ => Probe.summary_eq_expected, fun r hr h => (Probe.summary_eq_expected h).trans (hs r hr)⟩

theorem summary_of_probes_datarace : summary (exhaust (barrier.publication Unit).test) = .wmmBug :=
  (summary_of_probes _).2 (barrier, .wmmBug) (by simp [rows]) (exhaust_judges _)

variable {out : MemoryModel → Output}

-- A message whose observer fails on the signal alone, but not on the whole message.
theorem summary_eq_wmmBug {Loc : Type} [DecidableEq Loc] [Fintype Loc] {Val : Loc → Type}
    (M : Message Loc Val) (h : Judges out (M.publication Unit).test) (hf : M.fenced = false)
    (hn : (M.look M.set).fails M.final = false)
    (hs : (M.look M.set).fails (Function.update M.mem M.signal M.set) = true) : summary out = .wmmBug := by
  have ht : ¬Fails (M.publication Unit).test .tso :=
    mt Message.violates_fifo_iff.mp (by simp [hn])
  refine h.summary_eq_wmmBug_iff.mpr ⟨ht, Message.violates_perLocation_iff.mpr ?_⟩
  rw [if_neg (by simp [hf])]
  refine ⟨_, ⟨by simp, fun x => ?_⟩, hs⟩
  by_cases hx : x = M.signal
  case pos => subst hx; exact .inr (by simp [Message.final_signal])
  case neg => exact .inl (by simp [hx])

section Ompi

inductive Ompi.Var
  | tag
  | size
  | globalHdrReady
  deriving DecidableEq

open Ompi.Var

instance : Fintype Ompi.Var where
  elems := {tag, size, globalHdrReady}
  complete x := by cases x <;> decide

-- `19-ompi.c`
def ompi : Message Ompi.Var fun _ => Int where
  mem _ := 0
  payload := [⟨tag, 1⟩, ⟨size, 1024⟩]
  fenced := false
  signal := globalHdrReady
  set := 1
  look ready :=
    if ready == 1 then .load .plain tag fun t =>
      if t == 1 then .load .plain size fun s => .assert (s == 1024) else .failed
    else .done
  distinct := by decide
  others := by decide
  silent := trivial
  once := by simp [Observer.Loads, Observer.Once]

theorem message_summary_ompi :
    summary (exhaust (ompi.publication Unit).test) = .wmmBug ↔
      (ompi.look ompi.set).fails ompi.final = false ∧ ompi.fenced = false ∧
        ∃ m, ompi.Torn m ∧ (ompi.look ompi.set).fails m = true :=
  (message_summary ompi (exhaust_judges _)).2.1

theorem summary_ompi (h : Judges out (ompi.publication Unit).test) : summary out = .wmmBug :=
  summary_eq_wmmBug ompi h rfl (by decide +kernel) rfl

end Ompi

section UnsafePublish

inductive UnsafePublish.Var
  | x
  | y
  | currentPos
  deriving DecidableEq

-- `Point *`, of which there is one.
inductive UnsafePublish.Pointer
  | null
  | globalP
  deriving DecidableEq

open UnsafePublish UnsafePublish.Var

instance : Fintype UnsafePublish.Var where
  elems := {x, y, currentPos}
  complete v := by cases v <;> decide

abbrev UnsafePublish.Val : UnsafePublish.Var → Type
  | x | y => Int
  | currentPos => Pointer

-- `31-unsafe_publish.c` and `5-StackOverFlowEasy.c`
def unsafePublish : Message UnsafePublish.Var UnsafePublish.Val where
  mem
    | x | y => (0 : Int)
    | currentPos => Pointer.null
  payload := [⟨x, (1 : Int)⟩, ⟨y, (2 : Int)⟩]
  fenced := false
  signal := currentPos
  set := Pointer.globalP
  look
    | .null => .done
    | .globalP => .load .plain x fun (px : Int) => .load .plain y fun (py : Int) => .assert (px + 1 == py)
  distinct := by decide
  others := by decide
  silent := trivial
  once p := by cases p <;> simp [Observer.Loads, Observer.Once]

theorem summary_unsafePublish (h : Judges out (unsafePublish.publication Unit).test) :
    summary out = .wmmBug :=
  summary_eq_wmmBug unsafePublish h rfl (by decide +kernel) rfl

end UnsafePublish

section PsoTest

open Harness.PsoTest

-- `28-pso_test.c`, which is an iteration of the loop that the test is taken from.
theorem summary_psoTest (h : Judges out ((rounds 1 false).test fun _ => (0 : Int))) : summary out = .wmmBug :=
  h.summary_eq_wmmBug_iff.mpr ⟨not_violates_fifo 1 false _, (violates_perLocation_iff 1 false _).mpr rfl⟩

end PsoTest

section Interlib

open OpenMpi.Interlib

-- `6-ompi.c`
theorem summary_interlib (h : Judges out (test opalError)) : summary out = .wmmBug :=
  h.summary_eq_wmmBug_iff.mpr ⟨not_violates_fifo opalError, violates_perLocation (by decide)⟩

end Interlib

section MySQL

inductive MySQL.Var
  | lockWord
  | writerThread
  | recursive
  deriving DecidableEq

open MySQL.Var

instance : Fintype MySQL.Var where
  elems := {lockWord, writerThread, recursive}
  complete v := by cases v <;> decide

-- `4-MySQL.c`
def mySQL : Publication MySQL.Var (fun _ => Int) Unit where
  code := [.store .plain writerThread 1, .store .plain lockWord 1, .store .plain recursive 1]
  observers _ := .load .plain writerThread fun w =>
    if w == 1 then .load .plain recursive fun r => .assert (r == 1) else .done
  mem _ := 0

theorem summary_mySQL (h : Judges out mySQL.test) : summary out = .logicBug :=
  summary_eq_logicBug_of_prefix mySQL () (mySQL.code.take 1) (mySQL.code.drop 1) rfl (by decide +kernel) h

end MySQL

section Jdk

inductive Jdk.Var
  | semaphore
  | wState
  deriving DecidableEq

open Jdk.Var

instance : Fintype Jdk.Var where
  elems := {semaphore, wState}
  complete v := by cases v <;> decide

-- `13-JDK.c`: `thread_exit` and `thread_enter`, whose assumption waits for the semaphore.
def jdk : Publication Jdk.Var (fun _ => Int) Unit where
  code := [.store .plain semaphore 1, .store .plain wState 1]
  observers _ := .await .plain semaphore (· == 1) (.load .plain wState fun w => .assert (w == 1))
  mem _ := 0

theorem summary_jdk (h : Judges out jdk.test) : summary out = .logicBug :=
  summary_eq_logicBug_of_prefix jdk () (jdk.code.take 1) (jdk.code.drop 1) rfl (by decide +kernel) h

end Jdk

section Crossbeam

open Crossbeam.Var

-- `21-crossbeam.c`
def crossbeam : Publication Crossbeam.Var (fun _ => Int) Unit where
  code := [.store .plain sharedData 1, .store .plain seqState 1]
  observers _ := .load .plain seqState fun stamp => .load .plain sharedData fun val =>
    .load .plain seqState fun newStamp =>
      if stamp == 0 && newStamp == 0 then .assert (val == 0) else .done
  mem _ := 0

theorem summary_crossbeam (h : Judges out crossbeam.test) : summary out = .logicBug :=
  summary_eq_logicBug_of_prefix crossbeam () (crossbeam.code.take 1) (crossbeam.code.drop 1) rfl
    (by decide +kernel) h

end Crossbeam
end Report

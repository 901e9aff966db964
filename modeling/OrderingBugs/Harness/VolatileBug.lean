import OrderingBugs.Harness.Pair

open Function

-- The test of the state of a binary log (`25-mysql_volatile_bug.c`).
namespace Harness.VolatileBug

inductive Loc
  | logState
  | logFileData
  | startFlag
  | writerDone
  deriving DecidableEq

abbrev Val : Loc → Type := fun _ => Int

def logClosed : Int := 0
def logOpened : Int := 1

inductive WriterPc
  | waitStart
  | storeData
  | storeLogState
  | storeDone
  | waitReset
  deriving DecidableEq

-- `thread_open_binlog`
def threadOpenBinlog : WriterPc → Op Loc Val WriterPc
  | .waitStart => .load .plain .startFlag fun v => if v = 0 then .waitStart else .storeData
  | .storeData => .store .plain .logFileData 999 .storeLogState
  | .storeLogState => .store .plain .logState logOpened .storeDone
  | .storeDone => .store .plain .writerDone 1 .waitReset
  | .waitReset => .load .plain .startFlag fun v => if v = 1 then .waitReset else .waitStart

inductive ReaderPc
  | storeLogState
  | storeData
  | storeDone
  | storeStart
  | loadDone
  | loadLogState
  | loadData
  | report
  | storeReset
  deriving DecidableEq

-- `thread_use_binlog`. The report ends the process.
def threadUseBinlog : ReaderPc → Op Loc Val ReaderPc
  | .storeLogState => .store .plain .logState logClosed .storeData
  | .storeData => .store .plain .logFileData 0 .storeDone
  | .storeDone => .store .plain .writerDone 0 .storeStart
  | .storeStart => .store .plain .startFlag 1 .loadDone
  | .loadDone => .load .plain .writerDone fun v => if v = 0 then .loadLogState else .storeReset
  | .loadLogState => .load .plain .logState fun v => if v = logOpened then .loadData else .loadDone
  | .loadData => .load .plain .logFileData fun v => if v ≠ 999 then .report else .storeReset
  | .report => .halt
  | .storeReset => .store .plain .startFlag 0 .storeLogState

abbrev harness : System (State Val WriterPc ReaderPc) (Label WriterPc ReaderPc) :=
  system threadOpenBinlog threadUseBinlog (fun _ => 0) .waitStart .storeLogState

-- The writer waits for `start_flag` to fall and the reader, in its polling loop, for `writer_done` or
-- `log_state` to rise.
def Deadlocked (s : State Val WriterPc ReaderPc) : Prop :=
  s.writerAt .waitReset ∧ s.mem .startFlag = 1 ∧ (s.readerAt .loadDone ∨ s.readerAt .loadLogState) ∧
    s.mem .writerDone = 0 ∧ s.mem .logState = logClosed

instance {s : State Val WriterPc ReaderPc} : Decidable (Deadlocked s) :=
  inferInstanceAs (Decidable (_ ∧ _))

-- The reader raises `start_flag` again only when the writer has noticed that it fell, or has done
-- something in this round that gets the reader out of its loop.
def RestartsInTime (s : State Val WriterPc ReaderPc) (l : Label WriterPc ReaderPc) : Prop :=
  l.2.1 = ⟨.reader, .storeStart⟩ → s.writerAt .waitReset →
    s.mem .writerDone ≠ 0 ∨ s.mem .logState ≠ logClosed

section State

variable {m m' : Mem Val} {w w' : WriterPc} {r r' : ReaderPc}

@[simp]
theorem deadlocked_state :
    Deadlocked (state m w r) ↔
      w = .waitReset ∧ m .startFlag = 1 ∧ (r = .loadDone ∨ r = .loadLogState) ∧
        m .writerDone = 0 ∧ m .logState = logClosed := by
  simp only [Deadlocked, writerAt_state, readerAt_state]

@[simp]
theorem restartsInTime_state {t : Tid} {l l' : (t : Tid) × Pcs WriterPc ReaderPc t} :
    RestartsInTime (state m w r) (t, l, l') ↔
      (l = ⟨.reader, .storeStart⟩ → w = .waitReset →
        m .writerDone ≠ 0 ∨ m .logState ≠ logClosed) := by
  simp only [RestartsInTime, writerAt_state]

-- The last thing the writer does before it waits for the reset gets the reader out of its loop.
theorem deadlocked_iff_of_write (e : (threadOpenBinlog w).interleave m = some (m', w')) :
    Deadlocked (state m' w' r) ↔ Deadlocked (state m w r) := by
  rw [deadlocked_state, deadlocked_state]
  cases w <;> cases e
  all_goals grind [update]

theorem deadlocked_iff_of_read (e : (threadUseBinlog r).interleave m = some (m', r')) :
    Deadlocked (state m' w r') ↔ Deadlocked (state m w r) ∨
      ¬RestartsInTime (state m w r) (.reader, ⟨.reader, r⟩, ⟨.reader, r'⟩) := by
  rw [deadlocked_state, deadlocked_state, restartsInTime_state]
  cases r <;> cases e
  all_goals grind [update, logClosed, logOpened]

end State

-- In a deadlock both threads only repeat their checks, and nothing but a restart leads to it.
theorem deadlocked_iff_of_step {s s' : State Val WriterPc ReaderPc} {l : Label WriterPc ReaderPc}
    (hr : harness.Reachable s) (e : harness.Step s l s') :
    Deadlocked s' ↔ Deadlocked s ∨ ¬RestartsInTime s l := by
  obtain ⟨m, w, r, rfl⟩ := eq_state hr
  obtain ⟨m', w', he, rfl, rfl⟩ | ⟨m', r', he, rfl, rfl⟩ := step_cases e
  case inl =>
    rw [deadlocked_iff_of_write he, restartsInTime_state]
    simp
  case inr => exact deadlocked_iff_of_read he

-- The runs whose restarts are all in time are those that do not end in a deadlock.
theorem restartsInTime_exact (ls : List (Label WriterPc ReaderPc)) (s : State Val WriterPc ReaderPc) :
    (harness.restrict RestartsInTime).Run ls s ↔ harness.Run ls s ∧ ¬Deadlocked s := by
  refine System.run_restrict_iff (fun s hs => ?_) fun _ _ _ => deadlocked_iff_of_step
  cases hs
  simp [Deadlocked, State.writerAt, Code.tag, pcs]

-- The reader finds the log open before the writer has stored `writer_done`, resets and starts the next
-- round before the writer has seen `start_flag` fall.
def erased : List Tid :=
  List.flatten [.replicate 4 .reader, .replicate 3 .writer, .replicate 3 .reader, [.writer],
    .replicate 5 .reader]

theorem not_live_of_erased : ¬∀ s, harness.Reachable s → ¬Deadlocked s := by
  have ⟨s, r, h⟩ : ∃ s, harness.Reachable s ∧ Deadlocked s :=
    exists_reachable_of_schedule erased (by decide +kernel)
  exact fun hn => hn s r h

end Harness.VolatileBug

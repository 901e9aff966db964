import OrderingBugs.Harness.Pair

open Function

-- The test of the flags of an rw-lock (`24-mysql_rwlock_deadlock.c`).
namespace Harness.RwlockDeadlock

inductive Loc
  | lockRecursive
  | lockWriterThread
  | startFlag
  | writerDone
  deriving DecidableEq

abbrev Val : Loc → Type := fun _ => Int

inductive WriterPc
  | waitStart
  | storeWriterThread
  | fence
  | storeRecursive
  | storeDone
  | waitReset
  deriving DecidableEq

-- `thread_writer`
def threadWriter (myTid : Int) : WriterPc → Op Loc Val WriterPc
  | .waitStart => .load .plain .startFlag fun v => if v = 0 then .waitStart else .storeWriterThread
  | .storeWriterThread => .store .plain .lockWriterThread myTid .fence
  | .fence => .fence .release .storeRecursive
  | .storeRecursive => .store .plain .lockRecursive 1 .storeDone
  | .storeDone => .store .plain .writerDone 1 .waitReset
  | .waitReset => .load .plain .startFlag fun v => if v = 1 then .waitReset else .waitStart

inductive ReaderPc
  | storeRecursive
  | storeWriterThread
  | storeDone
  | storeStart
  | loadDone
  | loadRecursive
  | loadWriterThread (recursive : Int)
  | report
  | storeReset
  deriving DecidableEq

-- `thread_reader`. The report ends the process.
def threadReader (writerTid : Int) : ReaderPc → Op Loc Val ReaderPc
  | .storeRecursive => .store .plain .lockRecursive 0 .storeWriterThread
  | .storeWriterThread => .store .plain .lockWriterThread 0 .storeDone
  | .storeDone => .store .plain .writerDone 0 .storeStart
  | .storeStart => .store .plain .startFlag 1 .loadDone
  | .loadDone => .load .plain .writerDone fun v => if v = 0 then .loadRecursive else .storeReset
  | .loadRecursive => .load .plain .lockRecursive .loadWriterThread
  | .loadWriterThread recursive => .load .plain .lockWriterThread fun writer =>
    if recursive = 1 ∧ writer ≠ writerTid then .report
    else if recursive = 1 ∧ writer = writerTid then .storeReset
    else .loadDone
  | .report => .halt
  | .storeReset => .store .plain .startFlag 0 .storeRecursive

-- Both threads are given the same id.
abbrev harness (tid : Int) : System (State Val WriterPc ReaderPc) (Label WriterPc ReaderPc) :=
  system (threadWriter tid) (threadReader tid) (fun _ => 0) .waitStart .storeRecursive

def Reports (s : State Val WriterPc ReaderPc) : Prop :=
  s.readerAt .report

instance {s : State Val WriterPc ReaderPc} : Decidable (Reports s) :=
  inferInstanceAs (Decidable (s.readerAt _))

-- The reader resets the id only while the writer is done with its previous round, or has not started it:
-- `recursive` is not set, and the writer is not about to set it.
def ResetsInTime (s : State Val WriterPc ReaderPc) (l : Label WriterPc ReaderPc) : Prop :=
  l.2.1 = ⟨.reader, .storeWriterThread⟩ →
    s.mem .lockRecursive ≠ 1 ∧ ¬s.writerAt .fence ∧ ¬s.writerAt .storeRecursive

@[simp]
theorem resetsInTime_state {m : Mem Val} {w : WriterPc} {r : ReaderPc} {t : Tid}
    {l l' : (t : Tid) × Pcs WriterPc ReaderPc t} :
    ResetsInTime (state m w r) (t, l, l') ↔
      (l = ⟨.reader, .storeWriterThread⟩ → m .lockRecursive ≠ 1 ∧ w ≠ .fence ∧ w ≠ .storeRecursive) := by
  simp only [ResetsInTime, writerAt_state]

-- Wherever `recursive` is set, or seen to be set, or about to be set, the id is that of the writer.
structure Consistent (tid : Int) (m : Mem Val) (w : WriterPc) (r : ReaderPc) : Prop where
  writer : w = .fence ∨ w = .storeRecursive → m .lockWriterThread = tid
  mem    : m .lockRecursive = 1 → m .lockWriterThread = tid
  reader : r = .loadWriterThread 1 → m .lockRecursive = 1
  report : r ≠ .report

namespace Consistent

variable {tid : Int} {m m' : Mem Val} {w w' : WriterPc} {r r' : ReaderPc}

theorem init : Consistent tid (fun _ => 0) .waitStart .storeRecursive := by
  constructor <;> simp

theorem write (h : Consistent tid m w r)
    (e : (threadWriter tid w).interleave m = some (m', w')) : Consistent tid m' w' r := by
  obtain ⟨hw, hm, hr, hp⟩ := h
  cases w <;> cases e <;> constructor <;> grind [update]

theorem read (h : Consistent tid m w r)
    (hc : ResetsInTime (state m w r) (.reader, ⟨.reader, r⟩, ⟨.reader, r'⟩))
    (e : (threadReader tid r).interleave m = some (m', r')) : Consistent tid m' w r' := by
  obtain ⟨hw, hm, hr, hp⟩ := h
  rw [resetsInTime_state] at hc
  cases r <;> cases e <;> constructor <;> grind [update]

end Consistent

-- Once `recursive` is set without the id, the reader reports, for nothing restores the id.
theorem leads_report {tid : Int} {m : Mem Val} {w : WriterPc} (h : tid ≠ 0)
    (hm : m .lockRecursive = 1) (hw : m .lockWriterThread = 0) :
    (harness tid).Leads Reports (state m w .storeDone) := by
  refine leads_of_schedule (List.replicate 5 .reader) ?_
  simp [Code.Interleaved.schedule, threadReader, Op.interleave, hm, hw, h.symm, Reports]

theorem resetsInTime_exact (tid : Int) (h : tid ≠ 0) :
    (harness tid).Exact ResetsInTime Reports := by
  refine ⟨safe (I := Consistent tid) .init (fun _ _ _ _ _ h _ => h.write)
    (fun _ _ _ _ _ => .read) fun m w r h => ?bad,
    sharp (fun m w r m' w' _ _ hc => ?writer) fun m w r m' r' _ e hc => ?reader⟩
  case bad => simpa [Reports] using h.report
  case writer => simp at hc
  case reader =>
    simp only [resetsInTime_state, Classical.not_imp, not_and_or, not_not] at hc
    obtain ⟨hl, hm | rfl | rfl⟩ := hc <;> cases hl <;> cases e
    case inl => exact leads_report h (by simpa) (by simp)
    case inr.inl => exact leads_writer rfl <| leads_writer rfl <| leads_report h (by simp) (by simp)
    case inr.inr => exact leads_writer rfl <| leads_report h (by simp) (by simp)

theorem resetsInTime_exact_mock : (harness 1001).Exact ResetsInTime Reports :=
  resetsInTime_exact 1001 (by decide)

-- The writer is late in its first round and ends the second one for the reader before it has even
-- stored its id, so that the third reset of the reader erases it.
def overlap : List Tid :=
  List.flatten [.replicate 4 .reader, .replicate 4 .writer, .replicate 7 .reader,
    .replicate 2 .writer, [.reader], .replicate 2 .writer, .replicate 5 .reader,
    .replicate 2 .writer, .replicate 4 .reader]

theorem not_sound_of_overlap : ¬∀ s, (harness 1001).Reachable s → ¬Reports s := by
  have ⟨s, r, h⟩ : ∃ s, (harness 1001).Reachable s ∧ Reports s :=
    exists_reachable_of_schedule overlap (by decide +kernel)
  exact fun hn => hn s r h

end Harness.RwlockDeadlock

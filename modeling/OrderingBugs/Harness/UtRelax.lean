import OrderingBugs.Harness.Pair

open Function

-- The test of the delay in a spin lock (`27-mysql-ut-realx.c`), with any number of iterations.
namespace Harness.UtRelax

inductive Loc
  | lockWord
  | data
  | dataReady
  | bugDetected
  | startFlag
  deriving DecidableEq

abbrev Val : Loc → Type := fun _ => Int

-- `ut_relax_cpu_buggy`, whose compare-and-swap of a local variable is a full barrier, and
-- `ut_relax_cpu_fixed`.
def utRelaxCpu (useBuggy : Bool) (k : L) : Op Loc Val L :=
  if useBuggy then .fence .seqCst k else .skip k

inductive WriterPc
  | waitStart
  | check
  | compareExchange
  | relax (j : Nat)
  | storeData
  | storeReady
  | unlock
  | done
  deriving DecidableEq

-- The writer, with its loop variable and the number of times that it has tried to take the lock.
structure Writer where
  pc    : WriterPc
  i     : Nat
  tries : Nat
  deriving DecidableEq

-- A weak compare-and-exchange can fail for no reason. The tries for which it does are a parameter.
variable (iterations : Nat) (useBuggy : Bool) (spurious : Nat → Bool)

-- `thread_writer`, with `mutex_lock` and `mutex_unlock`
def threadWriter : Writer → Op Loc Val Writer
  | ⟨.waitStart, i, n⟩ => .load .plain .startFlag fun v =>
    if v = 0 then ⟨.waitStart, i, n⟩ else ⟨.check, i, n⟩
  | ⟨.check, i, n⟩ =>
    if i < iterations then
      .load .plain .bugDetected fun v => if v = 0 then ⟨.compareExchange, i, n⟩ else ⟨.done, i, n⟩
    else .skip ⟨.done, i, n⟩
  | ⟨.compareExchange, i, n⟩ =>
    .rmw .acquire .lockWord (fun v => if v = 0 ∧ !spurious n then 1 else v) fun v =>
      if v = 0 ∧ !spurious n then ⟨.storeData, i, n + 1⟩ else ⟨.relax 0, i, n + 1⟩
  | ⟨.relax j, i, n⟩ =>
    if j < 50 then utRelaxCpu useBuggy ⟨.relax (j + 1), i, n⟩ else .skip ⟨.compareExchange, i, n⟩
  | ⟨.storeData, i, n⟩ => .store .plain .data (i + 1) ⟨.storeReady, i, n⟩
  | ⟨.storeReady, i, n⟩ => .store .plain .dataReady 1 ⟨.unlock, i, n⟩
  | ⟨.unlock, i, n⟩ => .store .release .lockWord 0 ⟨.check, i + 1, n⟩
  | ⟨.done, _, _⟩ => .halt

inductive ReaderPc
  | waitStart
  | check
  | relax
  | loadReady
  | loadData (ready : Int)
  | clear (ready val : Int)
  | storeBug
  | done
  deriving DecidableEq

structure Reader where
  pc       : ReaderPc
  i        : Nat
  oooCount : Nat
  deriving DecidableEq

-- `thread_reader`
def threadReader : Reader → Op Loc Val Reader
  | ⟨.waitStart, i, n⟩ => .load .plain .startFlag fun v =>
    if v = 0 then ⟨.waitStart, i, n⟩ else ⟨.check, i, n⟩
  | ⟨.check, i, n⟩ =>
    if i < iterations then
      .load .plain .bugDetected fun v => if v = 0 then ⟨.relax, i, n⟩ else ⟨.done, i, n⟩
    else .skip ⟨.done, i, n⟩
  | ⟨.relax, i, n⟩ => utRelaxCpu useBuggy ⟨.loadReady, i, n⟩
  | ⟨.loadReady, i, n⟩ => .load .relaxed .dataReady fun ready =>
    if ready = 0 then ⟨.relax, i, n⟩ else ⟨.loadData ready, i, n⟩
  | ⟨.loadData ready, i, n⟩ => .load .plain .data fun val => ⟨.clear ready val, i, n⟩
  | ⟨.clear ready val, i, n⟩ => .store .relaxed .dataReady 0 <|
    if val = 0 ∧ ready = 1 then
      if n + 1 = 1 then ⟨.storeBug, i, n + 1⟩ else ⟨.check, i + 1, n + 1⟩
    else ⟨.check, i + 1, n⟩
  | ⟨.storeBug, i, n⟩ => .store .plain .bugDetected 1 ⟨.check, i + 1, n⟩
  | ⟨.done, _, _⟩ => .halt

-- The memory once `main` has started both threads.
def start : Mem Val
  | .startFlag => 1
  | .lockWord | .data | .dataReady | .bugDetected => 0

abbrev harness : System (State Val Writer Reader) (Label Writer Reader) :=
  system (threadWriter iterations useBuggy spurious) (threadReader iterations useBuggy) start
    ⟨.waitStart, 0, 0⟩ ⟨.waitStart, 0, 0⟩

-- The reader waits for a signal that the writer will not give.
def SignalLost (s : State Val Writer Reader) : Prop :=
  (∃ w : Writer, s.writerAt w ∧ w.pc = .done) ∧ s.mem .bugDetected = 0 ∧ s.mem .dataReady = 0 ∧
    ∃ r : Reader, s.readerAt r ∧ (r.pc = .relax ∨ r.pc = .loadReady)

-- The writer raises `data_ready` only when the reader has cleared it.
def RaisesInTime (s : State Val Writer Reader) (l : Label Writer Reader) : Prop :=
  ∀ i n, l.2.1 = ⟨.writer, ⟨.storeReady, i, n⟩⟩ → s.mem .dataReady = 0

variable {iterations useBuggy spurious}
variable {m m' : Mem Val} {w w' : Writer} {r r' : Reader}

@[simp]
theorem signalLost_state :
    SignalLost (state m w r) ↔
      w.pc = .done ∧ m .bugDetected = 0 ∧ m .dataReady = 0 ∧ (r.pc = .relax ∨ r.pc = .loadReady) := by
  simp [SignalLost]

-- How often `data_ready` has been raised. The reader has cleared it once for each of its iterations.
def Writer.raises (w : Writer) : Nat :=
  if w.pc = .unlock then w.i + 1 else w.i

-- As long as no data is missed, both threads run all of their iterations.
structure Counted (iterations : Nat) (m : Mem Val) (w : Writer) (r : Reader) : Prop where
  bug     : m .bugDetected = 0
  started : m .startFlag = 1
  free    : w.pc ≠ .storeData → w.pc ≠ .storeReady → w.pc ≠ .unlock → m .lockWord = 0
  ready   : m .dataReady = 0 ∨ m .dataReady = 1
  data    : w.pc = .storeReady ∨ 0 < w.raises → 0 < m .data
  raises  : r.i + (m .dataReady).toNat ≤ w.raises
  writer  : (w.pc = .done → iterations ≤ w.i) ∧ w.raises ≤ iterations ∧
    (w.pc ≠ .done → w.pc ≠ .waitStart → w.pc ≠ .check → w.i < iterations)
  reader  : match r.pc with
    | .waitStart | .check => True
    | .relax | .loadReady => r.i < iterations
    | .loadData ready => r.i < iterations ∧ ready = 1 ∧ m .dataReady = 1
    | .clear _ val => r.i < iterations ∧ m .dataReady = 1 ∧ 0 < val
    | .storeBug => False
    | .done => iterations ≤ r.i

namespace Counted

theorem init : Counted iterations start ⟨.waitStart, 0, 0⟩ ⟨.waitStart, 0, 0⟩ := by
  constructor <;> simp [start, Writer.raises]

theorem write (h : Counted iterations m w r)
    (e : (threadWriter iterations useBuggy spurious w).interleave m = some (m', w')) :
    Counted iterations m' w' r := by
  obtain ⟨hb, hs, hf, hr, hd, hc, hw, hp⟩ := h
  obtain ⟨pc, i, n⟩ := w
  cases pc <;> simp only [threadWriter, utRelaxCpu] at e
  case check =>
    split at e <;> cases e <;> constructor <;> grind [Writer.raises]
  case relax =>
    split at e
    case isTrue => split at e <;> cases e <;> constructor <;> grind [Writer.raises]
    case isFalse => cases e; constructor <;> grind [Writer.raises]
  all_goals cases e
  all_goals constructor <;> grind [update, Writer.raises]

theorem read (h : Counted iterations m w r)
    (e : (threadReader iterations useBuggy r).interleave m = some (m', r')) :
    Counted iterations m' w r' := by
  obtain ⟨hb, hs, hf, hr, hd, hc, hw, hp⟩ := h
  obtain ⟨pc, i, n⟩ := r
  cases pc <;> simp only [threadReader, utRelaxCpu] at e
  case check =>
    split at e <;> cases e <;> constructor <;> grind
  case relax =>
    split at e <;> cases e <;> constructor <;> grind
  all_goals cases e
  all_goals constructor <;> grind [update, Writer.raises]

theorem of_reachable (h : (harness iterations useBuggy spurious).Reachable (state m w r)) :
    Counted iterations m w r :=
  invariant init (fun _ _ _ _ _ => write) (fun _ _ _ _ _ => read) h

end Counted

-- No signal is raised on top of another.
def Balanced (m : Mem Val) (w : Writer) (r : Reader) : Prop :=
  r.i + (m .dataReady).toNat = w.raises

theorem Balanced.write (h : Balanced m w r)
    (hc : RaisesInTime (state m w r) (.writer, ⟨.writer, w⟩, ⟨.writer, w'⟩))
    (e : (threadWriter iterations useBuggy spurious w).interleave m = some (m', w')) :
    Balanced m' w' r := by
  obtain ⟨pc, i, n⟩ := w
  cases pc <;> simp only [threadWriter, utRelaxCpu] at e
  case check => split at e <;> cases e <;> grind [Writer.raises, Balanced]
  case relax =>
    split at e
    case isTrue => split at e <;> cases e <;> grind [Writer.raises, Balanced]
    case isFalse => cases e; grind [Writer.raises, Balanced]
  case storeReady =>
    have hr := hc i n rfl
    cases e
    grind [update, Writer.raises, Balanced]
  all_goals cases e
  all_goals grind [update, Writer.raises, Balanced]

theorem Balanced.read (h : Balanced m w r) (hr : Counted iterations m w r)
    (e : (threadReader iterations useBuggy r).interleave m = some (m', r')) :
    Balanced m' w r' := by
  have hp := hr.reader
  obtain ⟨pc, i, n⟩ := r
  cases pc <;> simp only [threadReader, utRelaxCpu] at e
  case check => split at e <;> cases e <;> grind [Balanced]
  case relax => split at e <;> cases e <;> grind [Balanced]
  all_goals cases e
  all_goals grind [update, Balanced]

section Leads

variable {p : State Val Writer Reader → Prop} {i n : Nat}

-- The delay loop comes to an end.
theorem leads_relax (j : Nat)
    (h : (harness iterations useBuggy spurious).Leads p (state m ⟨.compareExchange, i, n⟩ r)) :
    (harness iterations useBuggy spurious).Leads p (state m ⟨.relax j, i, n⟩ r) := by
  by_cases hj : j < 50
  case pos =>
    refine leads_writer (n := m) (v := ⟨.relax (j + 1), i, n⟩) ?_ (leads_relax (j + 1) h)
    cases useBuggy <;> simp [threadWriter, utRelaxCpu, Op.interleave, hj]
  case neg => exact leads_writer (by simp [threadWriter, Op.interleave, hj]) h
termination_by 50 - j

-- The lock can be taken while it is free, if not all tries fail.
theorem leads_storeData (hs : ∀ n, ∃ k, spurious (n + k) = false) (hm : m .lockWord = 0)
    (h : ∀ n, (harness iterations useBuggy spurious).Leads p
      (state (update m .lockWord 1) ⟨.storeData, i, n⟩ r)) :
    (harness iterations useBuggy spurious).Leads p (state m ⟨.compareExchange, i, n⟩ r) := by
  have ⟨k, hk⟩ := hs n
  induction k generalizing n
  case zero =>
    exact leads_writer (by simp [threadWriter, Op.interleave, hm, show spurious n = false from hk]; rfl) (h _)
  case succ k hi =>
    by_cases hn : spurious n
    case pos =>
      refine leads_writer (n := m) (v := ⟨.relax 0, i, n + 1⟩) ?_ <| leads_relax 0 <| hi ?_
      · simp [threadWriter, Op.interleave, hm, hn]
      · rwa [add_right_comm]
    case neg =>
      exact leads_writer (by simp [threadWriter, Op.interleave, hm, hn]; rfl) (h _)

-- The writer runs to its end, with `data_ready` raised, while the reader does not move.
theorem leads_done {m : Mem Val} {i n : Nat} (hs : ∀ n, ∃ k, spurious (n + k) = false)
    (hr : m .dataReady = 1)
    (h : (harness iterations useBuggy spurious).Reachable (state m ⟨.check, i, n⟩ r)) :
    (harness iterations useBuggy spurious).Leads
      (fun s => ∃ m i n, s = state m ⟨.done, i, n⟩ r ∧ m .dataReady = 1)
      (state m ⟨.check, i, n⟩ r) := by
  have hc := Counted.of_reachable h
  have hb := hc.bug
  by_cases hi : i < iterations
  case pos =>
    refine .trans (p := fun s => (harness iterations useBuggy spurious).Reachable s ∧
      ∃ m n, s = state m ⟨.check, i + 1, n⟩ r ∧ m .dataReady = 1) (.reachable h ?_) ?_
    · refine leads_writer (n := m) (v := ⟨.compareExchange, i, n⟩) ?_ <|
        leads_storeData hs (hc.free nofun nofun nofun) fun n => ?_
      · simp [threadWriter, Op.interleave, hi, hb]
      · exact leads_writer rfl <| leads_writer rfl <| leads_writer rfl <| .refl ⟨_, n, rfl, by simp⟩
    · rintro _ ⟨h, m, n, rfl, hr⟩
      exact leads_done hs hr h
  case neg =>
    refine leads_writer (n := m) (v := ⟨.done, i, n⟩) ?_ <| .refl ⟨m, i, n, rfl, hr⟩
    simp [threadWriter, Op.interleave, hi]
termination_by iterations - i

-- The reader takes the signal for its iteration, and waits for another one in the next.
theorem leads_signalLost (hc : Counted iterations m w r) (hr : m .dataReady = 1)
    (hi : r.i + 1 < iterations) (hw : w.pc = .done) :
    (harness iterations useBuggy spurious).Leads SignalLost (state m w r) := by
  obtain ⟨pc, i, n⟩ := r
  have hb := hc.bug
  have hs := hc.started
  have hd : 0 < m .data := hc.data (.inr (by have := hc.raises; grind))
  have hp := hc.reader
  replace hi : i + 1 < iterations := hi
  have clear {ready val : Int} (hv : 0 < val) :
      (harness iterations useBuggy spurious).Leads SignalLost (state m w ⟨.clear ready val, i, n⟩) := by
    refine leads_reader (n := update m .dataReady 0) (q := ⟨.check, i + 1, n⟩) ?_ <|
      leads_reader (n := update m .dataReady 0) (q := ⟨.relax, i + 1, n⟩) ?_ <| .refl ?_
    · simp [threadReader, Op.interleave, hv.ne']
    · simp [threadReader, Op.interleave, hi, hb]
    · simp [hb, hw]
  have loadData :
      (harness iterations useBuggy spurious).Leads SignalLost (state m w ⟨.loadData 1, i, n⟩) :=
    leads_reader rfl (clear hd)
  have loadReady :
      (harness iterations useBuggy spurious).Leads SignalLost (state m w ⟨.loadReady, i, n⟩) :=
    leads_reader (by simp [threadReader, Op.interleave, hr]) loadData
  have relax :
      (harness iterations useBuggy spurious).Leads SignalLost (state m w ⟨.relax, i, n⟩) := by
    refine leads_reader ?_ loadReady
    cases useBuggy <;> rfl
  have check :
      (harness iterations useBuggy spurious).Leads SignalLost (state m w ⟨.check, i, n⟩) := by
    refine leads_reader ?_ relax
    simp [threadReader, Op.interleave, hb, Nat.lt_of_succ_lt hi]
  cases pc
  case waitStart => exact leads_reader (by simp [threadReader, Op.interleave, hs]) check
  case check => exact check
  case relax => exact relax
  case loadReady => exact loadReady
  case loadData => exact hp.2.1 ▸ loadData
  case clear => exact clear hp.2.2
  case storeBug => exact hp.elim
  case done => exact absurd hp (by simp; omega)

end Leads

theorem not_signalLost (hc : Counted iterations m w r) (hb : Balanced m w r) :
    ¬SignalLost (state m w r) := by
  intro hl
  rw [signalLost_state] at hl
  obtain ⟨hw, -, hr, hp⟩ := hl
  have hi := hc.writer.1 hw
  have hj := hc.reader
  grind [Balanced, Writer.raises]

-- A signal that is raised on top of another one is one that the reader waits for in vain. That the writer
-- gets to the end of its iterations needs that its tries to take the lock do not fail forever.
theorem raisesInTime_exact (iterations : Nat) (useBuggy : Bool) (spurious : Nat → Bool) :
    (∀ ls s, ((harness iterations useBuggy spurious).restrict RaisesInTime).Run ls s →
      ¬SignalLost s) ∧
    ((∀ n, ∃ k, spurious (n + k) = false) →
      (harness iterations useBuggy spurious).Exact RaisesInTime SignalLost) := by
  have hs : ∀ ls s, ((harness iterations useBuggy spurious).restrict RaisesInTime).Run ls s →
      ¬SignalLost s :=
    safe (I := fun m w r => Counted iterations m w r ∧ Balanced m w r) ⟨.init, rfl⟩
      (fun _ _ _ _ _ h hc e => ⟨h.1.write e, h.2.write hc e⟩)
      (fun _ _ _ _ _ h _ e => ⟨h.1.read e, h.2.read h.1 e⟩) fun _ _ _ h => not_signalLost h.1 h.2
  refine ⟨hs, fun ht => ⟨hs, sharp (fun m w r m' w' h e hl => ?writer) fun m w r m' r' _ _ hl => ?reader⟩⟩
  case reader => simp [RaisesInTime] at hl
  case writer =>
    simp only [RaisesInTime, not_forall] at hl
    obtain ⟨i, n, hw, hr⟩ := hl
    cases hw
    have hc := Counted.of_reachable h
    have hr : m .dataReady = 1 := hc.ready.resolve_left hr
    have hi : r.i + 1 ≤ i := by have := hc.raises; grind [Writer.raises]
    have hn : i < iterations := hc.writer.2.2 nofun nofun nofun
    have h := reachable_writer (reachable_writer h e) (by cases e; rfl)
    cases e
    refine leads_writer rfl <| .trans (.reachable h (leads_done ht (by simp) h)) ?_
    rintro _ ⟨h, m, j, k, rfl, hr⟩
    exact leads_signalLost (Counted.of_reachable h) hr (by omega) rfl

theorem raisesInTime_exact_strong : (harness 2 true fun _ => false).Exact RaisesInTime SignalLost :=
  (raisesInTime_exact 2 true fun _ => false).2 fun _ => ⟨0, rfl⟩

-- The writer raises `data_ready` twice before the reader has cleared it once.
def collapsed : List Tid :=
  List.replicate 12 .writer ++ List.replicate 7 .reader

theorem not_live_of_collapsed :
    ¬∀ s, (harness 2 true fun _ => false).Reachable s → ¬SignalLost s := by
  have ⟨s, r, hw, hr, hb, hd⟩ : ∃ s, (harness 2 true fun _ => false).Reachable s ∧
      s.writerAt ⟨.done, 2, 2⟩ ∧ s.readerAt ⟨.relax, 1, 0⟩ ∧ s.mem .bugDetected = 0 ∧
      s.mem .dataReady = 0 :=
    exists_reachable_of_schedule collapsed (by decide +kernel)
  exact fun hn => hn s r ⟨⟨_, hw, rfl⟩, hb, hd, _, hr, .inl rfl⟩

end Harness.UtRelax

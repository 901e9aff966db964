import OrderingBugs.Harness.Pair

open Function

-- The test of the unsafe publication of points (`31-unsafe_publish.c`), with an arena of any size.
-- A point is its index in the arena.
namespace Harness.UnsafePublish

inductive Loc
  | currentPos
  | x (i : Nat)
  | y (i : Nat)
  deriving DecidableEq

abbrev Val : Loc → Type
  | .currentPos => Option Nat
  | .x _ | .y _ => Int

inductive WriterPc
  | storeX (idx : Nat) (seed : Int)
  | storeY (idx : Nat) (seed : Int)
  | publish (idx : Nat) (seed : Int)
  deriving DecidableEq

-- `writer`
def writer (arenaSize : Nat) : WriterPc → Op Loc Val WriterPc
  | .storeX idx seed => .store .plain (.x idx) seed (.storeY idx seed)
  | .storeY idx seed => .store .plain (.y idx) (seed + 1) (.publish idx seed)
  | .publish idx seed =>
    .store .plain .currentPos (some idx) (.storeX ((idx + 1) % arenaSize) (seed + 1))

inductive ReaderPc
  | waitPos
  | loadPos
  | loadX (p : Nat)
  | loadY (p : Nat) (x : Int)
  | report
  deriving DecidableEq

-- `reader`. The report ends the process.
def reader : ReaderPc → Op Loc Val ReaderPc
  | .waitPos => .load .plain .currentPos fun
    | none => .waitPos
    | some _ => .loadPos
  | .loadPos => .load .plain .currentPos fun
    | none => .loadPos
    | some p => .loadX p
  | .loadX p => .load .plain (.x p) (.loadY p)
  | .loadY p x => .load .plain (.y p) fun y => if x + 1 ≠ y then .report else .loadPos
  | .report => .halt

def start : Mem Val
  | .currentPos => none
  | .x _ | .y _ => 0

abbrev harness (arenaSize : Nat) : System (State Val WriterPc ReaderPc) (Label WriterPc ReaderPc) :=
  system (writer arenaSize) reader start (.storeX 0 1) .waitPos

def Reports (s : State Val WriterPc ReaderPc) : Prop :=
  s.readerAt .report

-- The writer does not start to refill a slot that the reader is reading, and the reader does not start to
-- read a slot that the writer is refilling.
def RecyclesInTime (s : State Val WriterPc ReaderPc) (l : Label WriterPc ReaderPc) : Prop :=
  (∀ i seed, l.2.1 = ⟨.writer, .storeX i seed⟩ →
    ¬s.readerAt (.loadX i) ∧ ∀ x, ¬s.readerAt (.loadY i x)) ∧
  (∀ i seed, l.2.1 = ⟨.reader, .loadPos⟩ → s.mem .currentPos = some i →
    ¬s.writerAt (.storeY i seed))

variable {arenaSize : Nat} {m m' : Mem Val} {w w' : WriterPc} {r r' : ReaderPc}

-- The point in a slot is complete.
structure Complete (m : Mem Val) (w : WriterPc) (i : Nat) : Prop where
  point : m (.y i) = m (.x i) + 1
  done  : ∀ seed, w ≠ .storeY i seed

-- The current slot is complete or being refilled, and the one that the reader is reading is complete.
structure Consistent (m : Mem Val) (w : WriterPc) (r : ReaderPc) : Prop where
  current : ∀ i, m .currentPos = some i → Complete m w i ∨ ∃ seed, w = .storeY i seed
  storeY  : ∀ i seed, w = .storeY i seed → m (.x i) = seed
  publish : ∀ i seed, w = .publish i seed → Complete m w i
  loadX   : ∀ i, r = .loadX i → Complete m w i
  loadY   : ∀ i x, r = .loadY i x → Complete m w i ∧ m (.x i) = x
  report  : r ≠ .report

namespace Consistent

theorem init : Consistent start (.storeX 0 1) .waitPos := by
  constructor <;> simp [start]

theorem write (h : Consistent m w r)
    (hc : RecyclesInTime (state m w r) (.writer, ⟨.writer, w⟩, ⟨.writer, w'⟩))
    (e : (writer arenaSize w).interleave m = some (m', w')) : Consistent m' w' r := by
  obtain ⟨hp, hy, hw, hx, hl, hr⟩ := h
  replace hc := hc.1
  simp only [readerAt_state] at hc
  cases w <;> cases e <;> refine ⟨?_, ?_, ?_, ?_, ?_, hr⟩
  all_goals grind [update, Complete]

theorem read (h : Consistent m w r)
    (hc : RecyclesInTime (state m w r) (.reader, ⟨.reader, r⟩, ⟨.reader, r'⟩))
    (e : (reader r).interleave m = some (m', r')) : Consistent m' w r' := by
  obtain ⟨hp, hy, hw, hx, hl, hr⟩ := h
  replace hc := hc.2
  simp only [writerAt_state] at hc
  cases r <;> cases e <;> refine ⟨hp, hy, hw, ?_, ?_, ?_⟩
  all_goals grind [Complete]

end Consistent

-- The seed of the last store to a field `x`.
def WriterPc.newest : WriterPc → Int
  | storeX _ seed => seed - 1
  | storeY _ seed | publish _ seed => seed

-- No value is newer than that, whatever the reader does.
structure Bounded (m : Mem Val) (w : WriterPc) (r : ReaderPc) : Prop where
  x      : ∀ i, m (.x i) ≤ w.newest
  y      : ∀ i, m (.y i) ≤ w.newest + 1
  storeY : ∀ i seed, w = .storeY i seed → m (.x i) = seed ∧ ∀ j, m (.y j) ≤ seed
  loadY  : ∀ i v, r = .loadY i v → v ≤ w.newest

namespace Bounded

theorem init : Bounded start (.storeX 0 1) .waitPos := by
  constructor <;> simp [start, WriterPc.newest]

theorem write (h : Bounded m w r) (e : (writer arenaSize w).interleave m = some (m', w')) :
    Bounded m' w' r := by
  obtain ⟨hx, hy, hw, hl⟩ := h
  cases w <;> cases e <;> constructor
  all_goals grind [update, WriterPc.newest]

theorem read (h : Bounded m w r) (e : (reader r).interleave m = some (m', r')) :
    Bounded m' w r' := by
  obtain ⟨hx, hy, hw, hl⟩ := h
  cases r <;> cases e <;> refine ⟨hx, hy, hw, ?_⟩
  all_goals grind

theorem of_reachable (h : (harness arenaSize).Reachable (state m w r)) : Bounded m w r :=
  invariant init (fun _ _ _ _ _ => write) (fun _ _ _ _ _ => read) h

end Bounded

theorem leads_report {i : Nat} {v : Int} (h : v + 1 ≠ m (.y i)) :
    (harness arenaSize).Leads Reports (state m w (.loadY i v)) :=
  leads_reader rfl <| .refl (by simp [Reports, h])

-- While the slot is refilled, its old `y` does not fit the new `x`.
theorem leads_report_of_storeY {i : Nat} {seed : Int} (hx : m (.x i) = seed) (hy : m (.y i) ≤ seed) :
    (harness arenaSize).Leads Reports (state m w (.loadX i)) :=
  leads_reader rfl <| leads_report (by grind)

-- The writer refills a slot that the reader is about to read.
theorem leads_report_of_storeX {i : Nat} {seed : Int} (h : Bounded m (.storeX i seed) (.loadX i)) :
    (harness arenaSize).Leads Reports (state (update m (.x i) seed) (.storeY i seed) (.loadX i)) :=
  leads_report_of_storeY (update_self ..) <| by simpa [WriterPc.newest] using h.y i

theorem recyclesInTime_exact (arenaSize : Nat) :
    (harness arenaSize).Exact RecyclesInTime Reports := by
  refine ⟨safe (I := Consistent) .init (fun _ _ _ _ _ => .write) (fun _ _ _ _ _ => .read)
    fun m w r h => ?bad,
    sharp (fun m w r m' w' h e hc => ?writer) fun m w r m' r' h e hc => ?reader⟩
  case bad => simpa [Reports] using h.report
  case writer =>
    have hb := Bounded.of_reachable h
    simp only [RecyclesInTime, readerAt_state, writerAt_state, not_and_or, not_forall, not_not] at hc
    obtain ⟨i, seed, hw, hr⟩ | ⟨i, seed, hr, -⟩ := hc
    case inr => cases hr
    case inl =>
      cases hw
      cases e
      obtain rfl | ⟨v, rfl⟩ := hr
      case inl => exact leads_report_of_storeX hb
      case inr =>
        obtain ⟨-, hy, -, hl⟩ := hb
        refine leads_writer rfl <| leads_report ?_
        grind [update, WriterPc.newest]
  case reader =>
    obtain ⟨-, -, hw, -⟩ := Bounded.of_reachable h
    simp only [RecyclesInTime, readerAt_state, writerAt_state, not_and_or, not_forall, not_not] at hc
    obtain ⟨i, seed, hw, -⟩ | ⟨i, seed, hr, hp, hs⟩ := hc
    case inl => cases hw
    case inr =>
      cases hr
      obtain ⟨hx, hy⟩ := hw i seed hs
      simp [reader, Op.interleave, hp] at e
      obtain ⟨rfl, rfl⟩ := e
      exact leads_report_of_storeY hx (hy i)

-- The writer fills the next slots while the reader does not move.
theorem leads_storeX (j k : Nat) :
    (harness arenaSize).Leads
      (fun s => ∃ m, s = state m (.storeX ((j + k) % arenaSize) (j + k + 1 : Nat)) r)
      (state m (.storeX (j % arenaSize) (j + 1 : Nat)) r) := by
  induction k
  case zero => exact .refl ⟨m, rfl⟩
  case succ k hi =>
    refine .trans hi ?_
    rintro _ ⟨m, rfl⟩
    refine leads_writer rfl <| leads_writer rfl <| leads_writer rfl <| .refl ⟨_, congrArg (state _ · r) ?_⟩
    simp [add_assoc]

-- However large the arena is, the writer can get back to its first slot before the reader has read it.
theorem leads_refill (h : 1 ≤ arenaSize) :
    (harness arenaSize).Leads (fun s => ∃ m seed, s = state m (.storeX 0 seed) (.loadX 0))
      (state start (.storeX 0 1) .waitPos) := by
  refine leads_writer rfl <| leads_writer rfl <| leads_writer rfl <| leads_reader rfl <|
    leads_reader rfl <| .trans (leads_storeX (r := .loadX 0) 1 (arenaSize - 1)) ?_
  rintro _ ⟨m, rfl⟩
  exact .refl ⟨m, _, by rw [Nat.add_sub_cancel' h, Nat.mod_self]⟩

theorem exists_report (h : 1 ≤ arenaSize) : ∃ s, (harness arenaSize).Reachable s ∧ Reports s := by
  obtain ⟨s, r, m, seed, rfl⟩ := (leads_refill h).exists_reachable (.init rfl)
  exact (leads_writer rfl <| leads_report_of_storeX <| .of_reachable r).exists_reachable r

theorem not_sound_of_lap : ¬∀ s, (harness 1000000).Reachable s → ¬Reports s := by
  have ⟨s, r, h⟩ := exists_report (by decide : 1 ≤ 1000000)
  exact fun hn => hn s r h

end Harness.UnsafePublish

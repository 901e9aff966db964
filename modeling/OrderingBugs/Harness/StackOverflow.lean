import OrderingBugs.Harness.Pair

open Function

-- The test of the publication of points (`5-StackOverFlowEasy.c`). A point is the address that `malloc`
-- has given it.
namespace Harness.StackOverflow

inductive Loc
  | currentPos
  | mtx
  | x (addr : Nat)
  | y (addr : Nat)
  deriving DecidableEq

abbrev Val : Loc → Type
  | .currentPos => Option Nat
  | .mtx => Bool
  | .x _ | .y _ => Int

inductive WriterPc
  | malloc (addr : Nat)
  | loadPosX (addr : Nat)
  | loadX (addr p : Nat)
  | storeX (addr : Nat) (v : Int)
  | loadPosY (addr : Nat)
  | loadY (addr p : Nat)
  | storeY (addr : Nat) (v : Int)
  | publish (addr : Nat)
  | fault
  deriving DecidableEq

-- `threadFunction`. No address is given out twice.
def threadFunction : WriterPc → Op Loc Val WriterPc
  | .malloc addr => .skip (.loadPosX addr)
  | .loadPosX addr => .load .plain .currentPos fun
    | none => .fault
    | some p => .loadX addr p
  | .loadX addr p => .load .plain (.x p) fun v => .storeX addr (v + 1)
  | .storeX addr v => .store .plain (.x addr) v (.loadPosY addr)
  | .loadPosY addr => .load .plain .currentPos fun
    | none => .fault
    | some p => .loadY addr p
  | .loadY addr p => .load .plain (.y p) fun v => .storeY addr (v + 1)
  | .storeY addr v => .store .plain (.y addr) v (.publish addr)
  | .publish addr => .store .plain .currentPos (some addr) (.malloc (addr + 1))
  | .fault => .halt

inductive ReaderPc
  | loadPos
  | lock
  | loadPosX
  | loadX (p : Nat)
  | loadPosY (x : Int)
  | loadY (x : Int) (p : Nat)
  | report
  | unlock
  | done
  | fault
  deriving DecidableEq

-- `f`, with the operands of the comparison evaluated from left to right. The report ends the process.
def f : ReaderPc → Op Loc Val ReaderPc
  | .loadPos => .load .plain .currentPos fun
    | none => .done
    | some _ => .lock
  | .lock => .rmw .acquire .mtx (fun _ => true) fun locked => if locked then .lock else .loadPosX
  | .loadPosX => .load .plain .currentPos fun
    | none => .fault
    | some p => .loadX p
  | .loadX p => .load .plain (.x p) .loadPosY
  | .loadPosY x => .load .plain .currentPos fun
    | none => .fault
    | some p => .loadY x p
  | .loadY x p => .load .plain (.y p) fun y => if x + 1 ≠ y then .report else .unlock
  | .unlock => .store .release .mtx false .loadPos
  | .report | .done | .fault => .halt

-- The memory after `main` has published the first point. All other memory is uninitialised.
def start (x₀ : Int) (mem : Mem Val) : Mem Val :=
  update (update (update (update mem .mtx false) .currentPos (some 0)) (.x 0) x₀) (.y 0) (x₀ + 1)

abbrev harness (x₀ : Int) (mem : Mem Val) :
    System (State Val WriterPc ReaderPc) (Label WriterPc ReaderPc) :=
  system threadFunction f (start x₀ mem) (.malloc 1) .loadPos

def Reports (s : State Val WriterPc ReaderPc) : Prop :=
  s.readerAt .report

instance {s : State Val WriterPc ReaderPc} : Decidable (Reports s) :=
  inferInstanceAs (Decidable (s.readerAt _))

-- No point is published while `f` is between its two loads of the pointer.
def PublishesInTime (s : State Val WriterPc ReaderPc) (l : Label WriterPc ReaderPc) : Prop :=
  ∀ addr, l.2.1 = ⟨.writer, .publish addr⟩ →
    (∀ p, ¬s.readerAt (.loadX p)) ∧ ∀ x, ¬s.readerAt (.loadPosY x)

-- The address of the point that the writer is about to build, or is building.
def WriterPc.addr : WriterPc → Nat
  | malloc a | loadPosX a | loadX a _ | storeX a _ | loadPosY a | loadY a _ | storeY a _ | publish a => a
  | fault => 0

-- The current point, and how much of the next one the writer has built from it.
structure Current (p : Nat) (m : Mem Val) (w : WriterPc) : Prop where
  pos   : m .currentPos = some p
  point : m (.y p) = m (.x p) + 1
  next  : match w with
    | .malloc _ | .loadPosX _ => True
    | .loadX _ q => q = p
    | .storeX _ v => v = m (.x p) + 1
    | .loadPosY a => m (.x a) = m (.x p) + 1
    | .loadY a q => m (.x a) = m (.x p) + 1 ∧ q = p
    | .storeY a v => m (.x a) = m (.x p) + 1 ∧ v = m (.x p) + 2
    | .publish a => m (.x a) = m (.x p) + 1 ∧ m (.y a) = m (.x p) + 2
    | .fault => False
  old   : p < w.addr

section Current

variable {p : Nat} {m m' : Mem Val} {w w' : WriterPc} {r r' : ReaderPc}

-- The writer leaves older points alone.
theorem old_of_write {q : Nat} (hq : q < w.addr)
    (e : (threadFunction w).interleave m = some (m', w')) :
    m' (.x q) = m (.x q) ∧ m' (.y q) = m (.y q) := by
  cases w <;> cases e
  all_goals grind [update, WriterPc.addr]

theorem addr_le_of_write (h : Current p m w)
    (e : (threadFunction w).interleave m = some (m', w')) : w.addr ≤ w'.addr := by
  have hp := h.pos
  cases w <;> cases e
  all_goals simp [WriterPc.addr, hp]

namespace Current

theorem write (h : Current p m w) (hw : ∀ a, w ≠ .publish a)
    (e : (threadFunction w).interleave m = some (m', w')) : Current p m' w' := by
  have ⟨hx, hy⟩ := old_of_write h.old e
  have ha := h.old.trans_le (addr_le_of_write h e)
  obtain ⟨hp, hv, hn, ho⟩ := h
  cases w <;> cases e
  all_goals constructor <;> grind [update]

-- The point that is published is the next one.
theorem publish {a : Nat} (h : Current p m (.publish a)) :
    Current a (update m .currentPos (some a)) (.malloc (a + 1)) := by
  obtain ⟨hp, hv, ⟨hx, hy⟩, ho⟩ := h
  refine ⟨by simp, ?point, trivial, by simp [WriterPc.addr]⟩
  case point => grind [update]

theorem read (h : Current p m w) (e : (f r).interleave m = some (m', r')) : Current p m' w := by
  obtain ⟨hp, hv, hn, ho⟩ := h
  cases r <;> cases e
  all_goals constructor <;> simpa

end Current

-- Wherever `f` is, the values that it has read or will read are not newer than the current point.
structure Bounded (m : Mem Val) (w : WriterPc) (r : ReaderPc) (p : Nat) : Prop
    extends Current p m w where
  loadX    : ∀ q, r = .loadX q → q < w.addr ∧ m (.x q) ≤ m (.x p)
  loadPosY : ∀ v, r = .loadPosY v → v ≤ m (.x p)

-- What `f` reads of a point it reads of the current one, and it does not read of two of them.
structure Consistent (m : Mem Val) (w : WriterPc) (r : ReaderPc) (p : Nat) : Prop
    extends Current p m w where
  loadX    : ∀ q, r = .loadX q → q = p
  loadPosY : ∀ v, r = .loadPosY v → v = m (.x p)
  loadY    : ∀ v q, r = .loadY v q → q < w.addr ∧ m (.y q) = v + 1
  report   : r ≠ .report

namespace Bounded

theorem write (h : Bounded m w r p) (e : (threadFunction w).interleave m = some (m', w')) :
    ∃ p, Bounded m' w' r p := by
  have hf {q} (hq : q < w.addr) := old_of_write hq e
  have ha := addr_le_of_write h.toCurrent e
  obtain ⟨hc, hx, hy⟩ := h
  by_cases hw : ∃ a, w = .publish a
  case pos =>
    obtain ⟨a, rfl⟩ := hw
    have hn := hc.next
    cases e
    refine ⟨a, hc.publish, ?_, ?_⟩ <;> grind [update, WriterPc.addr]
  case neg =>
    push Not at hw
    have ho := hc.old
    refine ⟨p, hc.write hw e, ?_, ?_⟩ <;> grind

theorem read (h : Bounded m w r p) (e : (f r).interleave m = some (m', r')) :
    Bounded m' w r' p := by
  obtain ⟨hc, hx, hy⟩ := h
  have hp := hc.pos
  have ho := hc.old
  refine ⟨hc.read e, ?_, ?_⟩ <;> cases r <;> cases e
  all_goals grind [update]

end Bounded

namespace Consistent

theorem write (h : Consistent m w r p)
    (hw : PublishesInTime (state m w r) (.writer, ⟨.writer, w⟩, ⟨.writer, w'⟩))
    (e : (threadFunction w).interleave m = some (m', w')) : ∃ p, Consistent m' w' r p := by
  have hf {q} (hq : q < w.addr) := old_of_write hq e
  have ha := addr_le_of_write h.toCurrent e
  obtain ⟨hc, hx, hy, hl, hr⟩ := h
  by_cases hp : ∃ a, w = .publish a
  case pos =>
    obtain ⟨a, rfl⟩ := hp
    have ⟨hw₁, hw₂⟩ := hw a rfl
    simp only [readerAt_state] at hw₁ hw₂
    cases e
    refine ⟨a, hc.publish, ?_, ?_, ?_, hr⟩ <;> grind [update, WriterPc.addr]
  case neg =>
    push Not at hp
    have ho := hc.old
    refine ⟨p, hc.write hp e, ?_, ?_, ?_, hr⟩ <;> grind

theorem read (h : Consistent m w r p) (e : (f r).interleave m = some (m', r')) :
    Consistent m' w r' p := by
  obtain ⟨hc, hx, hy, hl, hr⟩ := h
  have hp := hc.pos
  have hv := hc.point
  have ho := hc.old
  refine ⟨hc.read e, ?_, ?_, ?_, ?_⟩ <;> cases r <;> cases e
  all_goals grind [update]

end Consistent

theorem current_start (x₀ : Int) (mem : Mem Val) : Current 0 (start x₀ mem) (.malloc 1) :=
  ⟨by simp [start], by simp [start], trivial, by simp [WriterPc.addr]⟩

theorem exists_bounded {x₀ : Int} {mem : Mem Val} (h : (harness x₀ mem).Reachable (state m w r)) :
    ∃ p, Bounded m w r p :=
  invariant (I := fun m w r => ∃ p, Bounded m w r p) ⟨0, current_start x₀ mem, by simp, by simp⟩
    (fun _ _ _ _ _ ⟨_, h⟩ e => h.write e) (fun _ _ _ _ _ ⟨p, h⟩ e => ⟨p, h.read e⟩) h

-- Having read `x` of an older point, `f` reports the current one.
theorem leads_report {x₀ v : Int} {mem : Mem Val} {a : Nat} (hp : m .currentPos = some a)
    (hv : v + 1 ≠ m (.y a)) : (harness x₀ mem).Leads Reports (state m w (.loadPosY v)) := by
  refine leads_of_schedule [.reader, .reader] ?_
  simp [Code.Interleaved.schedule, f, Op.interleave, hp, hv, Reports]

end Current

-- If the writer publishes a point in between, then `f` reads of two points.
theorem publishesInTime_exact (x₀ : Int) (mem : Mem Val) :
    (harness x₀ mem).Exact PublishesInTime Reports := by
  refine ⟨safe (I := fun m w r => ∃ p, Consistent m w r p)
    ⟨0, current_start x₀ mem, by simp, by simp, by simp, by simp⟩
    (fun _ _ _ _ _ ⟨_, h⟩ hc e => h.write hc e) (fun _ _ _ _ _ ⟨p, h⟩ _ e => ⟨p, h.read e⟩)
    fun m w r ⟨_, h⟩ => ?bad,
    sharp (fun m w r m' w' hr e hc => ?writer) fun m w r m' r' _ _ hc => ?reader⟩
  case bad => simpa [Reports] using h.report
  case reader => simp [PublishesInTime] at hc
  case writer =>
    have ⟨p, h⟩ := exists_bounded hr
    simp only [PublishesInTime, readerAt_state, not_forall, not_and_or, not_not] at hc
    obtain ⟨a, hw, ⟨q, rfl⟩ | ⟨v, rfl⟩⟩ := hc <;> cases hw <;> cases e
    all_goals have hn := h.next
    case inl =>
      have hq := (h.loadX q rfl).2
      exact leads_reader rfl <| leads_report (a := a) (by simp) (by grind [update])
    case inr =>
      have hv := h.loadPosY v rfl
      exact leads_report (a := a) (by simp) (by grind [update])

def blank : Mem Val
  | .currentPos => none
  | .mtx => false
  | .x _ | .y _ => 0

-- A whole publication fits between the two loads of the pointer.
def between : List Tid :=
  List.flatten [.replicate 4 .reader, .replicate 8 .writer, .replicate 2 .reader]

theorem not_sound_of_between : ¬∀ s, (harness 1 blank).Reachable s → ¬Reports s := by
  have ⟨s, r, h⟩ : ∃ s, (harness 1 blank).Reachable s ∧ Reports s :=
    exists_reachable_of_schedule between (by decide +kernel)
  exact fun hn => hn s r h

end Harness.StackOverflow

import OrderingBugs.Harness.Pair
import OrderingBugs.Memory.Fifo
import Mathlib.Data.Int.DivMod

open Function Buffering

-- The cache of `gtid_mode` of MySQL (`26-mysql-99556.c`), for any number of updates and any values.
namespace Harness.GtidMode

inductive Loc
  | gtidMode
  | gtidModeCounter
  | cachedGtidMode
  | cachedCounter
  | running
  deriving DecidableEq

instance : Fintype Loc where
  elems := {.gtidMode, .gtidModeCounter, .cachedGtidMode, .cachedCounter, .running}
  complete x := by cases x <;> decide

abbrev Val (_ : Loc) : Type :=
  Int

inductive ReaderPc
  | loadRunning
  | loadCounter
  | loadCachedCounter (curCounter : Int)
  | loadGtidMode (curCounter : Int)
  | storeCachedGtidMode (curCounter mode : Int)
  | storeCachedCounter (curCounter : Int)
  | done
  deriving DecidableEq

-- `reader`
def reader : ReaderPc → Op Loc Val ReaderPc
  | .loadRunning => .load .plain .running fun v => if v ≠ 0 then .loadCounter else .done
  | .loadCounter => .load .relaxed .gtidModeCounter .loadCachedCounter
  | .loadCachedCounter curCounter => .load .plain .cachedCounter fun v =>
    if curCounter ≠ v then .loadGtidMode curCounter else .loadRunning
  | .loadGtidMode curCounter => .load .plain .gtidMode (.storeCachedGtidMode curCounter)
  | .storeCachedGtidMode curCounter mode =>
    .store .plain .cachedGtidMode mode (.storeCachedCounter curCounter)
  | .storeCachedCounter curCounter => .store .plain .cachedCounter curCounter .loadRunning
  | .done => .halt

inductive WriterPc
  | check (i : Nat)
  | storeGtidMode (i : Nat)
  | fetchAdd (i : Nat)
  | storeRunning
  | done
  deriving DecidableEq

-- `writer`, with `n` updates and the new values `v`. The counter wraps around.
def writer (n : Nat) (v : Nat → Int) : WriterPc → Op Loc Val WriterPc
  | .check i => .skip (if i < n then .storeGtidMode i else .storeRunning)
  | .storeGtidMode i => .store .plain .gtidMode (v i) (.fetchAdd i)
  | .fetchAdd i =>
    .rmw .relaxed .gtidModeCounter (fun c => (c + 1).bmod (2 ^ 32)) fun _ => .check (i + 1)
  | .storeRunning => .store .plain .running 0 .done
  | .done => .halt

def start : Mem Val
  | .gtidMode | .gtidModeCounter => 0
  | .cachedGtidMode | .cachedCounter => -1
  | .running => 1

abbrev harness (B : Buffering Loc Val) (D : Discipline) (n : Nat) (v : Nat → Int) :
    System (Buffered.State B WriterPc ReaderPc) (Buffered.Label Loc WriterPc ReaderPc) :=
  Buffered.system B D (writer n v) reader start (.check 0) .loadRunning

-- The writer is between a store to `gtid_mode` and the update of the counter.
def WriterPc.Updating (w : WriterPc) : Prop :=
  ∃ i, w = fetchAdd i

-- The number of updates that the counter shows.
def WriterPc.count (n : Nat) : WriterPc → Nat
  | check i | storeGtidMode i | fetchAdd i => i
  | storeRunning | done => n

def WriterPc.InRange (n : Nat) : WriterPc → Prop
  | check i => i ≤ n
  | storeGtidMode i | fetchAdd i => i < n
  | storeRunning | done => True

-- What is cached under the current value of the counter is the current mode.
def Fresh (counter mode : Int) (updating : Prop) (m : Mem Val) : Prop :=
  m .cachedCounter ≤ counter ∧ (m .cachedCounter = counter → updating ∨ m .cachedGtidMode = mode)

-- What the reader relies on at each place, in terms of what it reads of the cache.
def ReaderPc.Expects (counter mode : Int) (updating : Prop) (cachedCounter cachedMode : Int) :
    ReaderPc → Prop
  | loadRunning | loadCounter | done => True
  | loadCachedCounter cur => cachedCounter ≤ cur ∧ cur ≤ counter
  | loadGtidMode cur => cachedCounter < cur ∧ cur ≤ counter
  | storeCachedGtidMode cur new =>
    cachedCounter < cur ∧ cur ≤ counter ∧ (cur = counter → updating ∨ new = mode)
  | storeCachedCounter cur =>
    cachedCounter < cur ∧ cur ≤ counter ∧ (cur = counter → updating ∨ cachedMode = mode)

variable {n : Nat} {v : Nat → Int} {m m' : Mem Val} {b b' c c' : (fifo Val).Buf}
variable {w w' : WriterPc} {r r' : ReaderPc} {x : Loc} {u : Val x}

structure Coherent (n : Nat) (m : Mem Val) (b c : (fifo Val).Buf) (w : WriterPc) (r : ReaderPc) :
    Prop where
  inRange  : w.InRange n
  counter  : m .gtidModeCounter = w.count n
  writer   : ∀ e ∈ b, e.1 = .gtidMode ∧ w.Updating ∨ e.1 = .running
  reader   : ∀ e ∈ c, e.1 = .cachedGtidMode ∨ e.1 = .cachedCounter
  fresh    : Along (Fresh (m .gtidModeCounter) (m .gtidMode) w.Updating) m c
  atReader : r.Expects (m .gtidModeCounter) (m .gtidMode) w.Updating
    ((fifo Val).view m c .cachedCounter) ((fifo Val).view m c .cachedGtidMode)

section Change

variable {k k' g g' a d : Int} {U U' : Prop}

theorem Fresh.imp (hu : U → U') (h : Fresh k g U m) : Fresh k g U' m :=
  ⟨h.1, fun hc => (h.2 hc).imp_left hu⟩

-- The old value of the counter vouches for nothing.
theorem Fresh.lt (hk : k < k') (h : Fresh k g U m) : Fresh k' g' U' m :=
  ⟨h.1.trans hk.le, fun hc => absurd hc (h.1.trans_lt hk).ne⟩

theorem Fresh.mode (hu : U) (h : Fresh k g U m) : Fresh k g' U m :=
  ⟨h.1, fun _ => .inl hu⟩

theorem Fresh.update (hx : x ≠ .cachedCounter) (hy : x ≠ .cachedGtidMode) (h : Fresh k g U m) :
    Fresh k g U (update m x u) := by
  simpa [Fresh, Ne.symm hx, Ne.symm hy] using h

namespace ReaderPc.Expects

theorem imp (hu : U → U') (h : r.Expects k g U a d) : r.Expects k g U' a d := by
  cases r <;> grind [Expects]

theorem lt (hk : k < k') (h : r.Expects k g U a d) : r.Expects k' g' U' a d := by
  cases r <;> grind [Expects]

theorem mode (hu : U) (h : r.Expects k g U a d) : r.Expects k g' U a d := by
  cases r <;> grind [Expects]

theorem update (hx : .cachedCounter ≠ x) (hy : .cachedGtidMode ≠ x)
    (h : r.Expects k g U ((fifo Val).view m c .cachedCounter) ((fifo Val).view m c .cachedGtidMode)) :
    r.Expects k g U ((fifo Val).view (update m x u) c .cachedCounter)
      ((fifo Val).view (update m x u) c .cachedGtidMode) := by
  rwa [view_update_ne hx, view_update_ne hy]

end ReaderPc.Expects
end Change

namespace Coherent

theorem init : Coherent n start (fifo Val).empty (fifo Val).empty (.check 0) .loadRunning where
  inRange := Nat.zero_le n
  counter := rfl
  writer := nofun
  reader := nofun
  fresh := by simp [Along, fifo, Fresh, start]
  atReader := trivial

-- The reader has no store to any other variable.
theorem ne_of_mem (h : Coherent n m b c w r) (hx : x ≠ .cachedCounter) (hy : x ≠ .cachedGtidMode) :
    ∀ e ∈ c, e.1 ≠ x := by
  grind [h.reader]

theorem view_eq (h : Coherent n m b c w r) (hx : x ≠ .cachedCounter) (hy : x ≠ .cachedGtidMode) :
    (fifo Val).view m c x = m x :=
  view_nil <| List.filterMap_eq_nil_iff.mpr fun e he => by simp [Entry.at?, h.ne_of_mem hx hy e he]

-- The writer only moves on.
theorem move (h : Coherent n m b c w r) (hi : w'.InRange n) (hc : w'.count n = w.count n)
    (hu : w.Updating → w'.Updating) : Coherent n m b c w' r where
  inRange := hi
  counter := hc ▸ h.counter
  writer e he := (h.writer e he).imp_left (And.imp_right hu)
  reader := h.reader
  fresh := h.fresh.imp fun _ => .imp hu
  atReader := h.atReader.imp hu

theorem push (h : Coherent n m b c w r) (hx : x = .gtidMode ∧ w.Updating ∨ x = .running) :
    Coherent n m ((fifo Val).push b x u) c w r where
  __ := h
  writer e he := by
    obtain he | rfl := mem_fifo_push.mp he
    · exact h.writer e he
    · exact hx

theorem reader_push (h : Coherent n m b c w r) (hx : x = .cachedGtidMode ∨ x = .cachedCounter) :
    ∀ e ∈ (fifo Val).push c x u, e.1 = .cachedGtidMode ∨ e.1 = .cachedCounter := by
  intro e he
  obtain he | rfl := mem_fifo_push.mp he
  · exact h.reader e he
  · exact hx

-- The counter does not overflow.
theorem count_succ {i : Nat} (hn : n < 2 ^ 31) (hi : i < n) :
    ((i : Int) + 1).bmod (2 ^ 32) = (i + 1 : Nat) := by
  refine (Int.bmod_eq_of_le ?_ ?_).trans (by simp) <;> omega

theorem write (hn : n < 2 ^ 31) (h : Coherent n m b c w r)
    (e : (GtidMode.writer n v w).exec (fifo Val) .flushing m b = some (m', b', w')) :
    Coherent n m' b' c w' r := by
  have hi := h.inRange
  cases w <;> simp only [GtidMode.writer] at e
  case check i =>
    cases e
    split
    case isTrue hl => exact h.move hl rfl nofun
    case isFalse hl => exact h.move trivial (le_antisymm hi (Nat.le_of_not_lt hl)).symm nofun
  case storeGtidMode i =>
    cases e
    have hf : Coherent n _ _ c (.fetchAdd i) r := h.move hi rfl nofun
    exact hf.push (.inl ⟨rfl, i, rfl⟩)
  case fetchAdd i =>
    obtain ⟨rfl, rfl, rfl, he⟩ := Op.exec_rmw e
    have hb : b' = ([] : List (Entry Val)) := fifo_empty_iff.mp (he rfl)
    have hk : (m .gtidModeCounter + 1).bmod (2 ^ 32) = (i + 1 : Nat) := by
      rw [h.counter]
      exact count_succ hn hi
    have hl : m .gtidModeCounter < (i + 1 : Nat) := by
      rw [h.counter]
      exact Int.ofNat_lt.mpr (Nat.lt_succ_self i)
    rw [hk]
    refine ⟨hi, update_self .., hb ▸ nofun, h.reader, ?_, ?_⟩
    · rw [update_self]
      have hc := h.ne_of_mem (x := .gtidModeCounter) nofun nofun
      exact h.fresh.interfere (fun m hm => (hm.lt hl).update nofun nofun) fun e he hx =>
        absurd hx (hc e he)
    · rw [update_self]
      exact (h.atReader.lt hl).update nofun nofun
  case storeRunning =>
    cases e
    have hf : Coherent n _ _ c .done r := h.move trivial rfl nofun
    exact hf.push (.inr rfl)
  case done => cases e

theorem read (h : Coherent n m b c w r)
    (e : (GtidMode.reader r).exec (fifo Val) .flushing m c = some (m', c', r')) :
    Coherent n m' b c' w r' := by
  have hr := h.atReader
  have hf := h.fresh.view
  cases r <;> simp only [GtidMode.reader] at e
  case loadRunning => cases e; exact { h with atReader := by dsimp only; split <;> trivial }
  case loadCounter =>
    cases e
    rw [h.view_eq (x := .gtidModeCounter) nofun nofun]
    exact { h with atReader := ⟨hf.1, le_rfl⟩ }
  case loadCachedCounter cur =>
    cases e
    refine { h with atReader := ?_ }
    dsimp only
    split
    case isTrue hc => exact ⟨lt_of_le_of_ne hr.1 (Ne.symm hc), hr.2⟩
    case isFalse => trivial
  case loadGtidMode cur =>
    cases e
    rw [h.view_eq (x := .gtidMode) nofun nofun]
    exact { h with atReader := ⟨hr.1, hr.2, fun _ => .inr rfl⟩ }
  case storeCachedGtidMode cur mode =>
    cases e
    obtain ⟨hl, hc, hm⟩ := hr
    refine { h with reader := h.reader_push (.inl rfl), fresh := ?_, atReader := ?_ }
    · exact h.fresh.push ⟨by simpa using hf.1, fun hk => absurd hk (by simpa using (hl.trans_le hc).ne)⟩
    · simpa [ReaderPc.Expects, view_push] using ⟨hl, hc, hm⟩
  case storeCachedCounter cur =>
    cases e
    obtain ⟨hl, hc, hm⟩ := hr
    refine { h with reader := h.reader_push (.inr rfl), fresh := ?_, atReader := trivial }
    exact h.fresh.push ⟨by simpa using hc, by simpa using hm⟩
  case done => cases e

theorem drain_writer (h : Coherent n m b c w r) (hp : (fifo Val).pop b x = some (u, b')) :
    Coherent n (update m x u) b' c w r := by
  have hw (e : Entry Val) (he : e ∈ b') := h.writer e ((mem_fifo_pop hp).mpr (.inr he))
  obtain ⟨hx, hu⟩ | hx := h.writer ⟨x, u⟩ ((mem_fifo_pop hp).mpr (.inl rfl))
  all_goals
    dsimp only at hx
    subst hx
  · have hc := h.ne_of_mem (x := .gtidMode) nofun nofun
    refine ⟨h.inRange, h.counter, hw, h.reader, ?_, ?_⟩
    · exact h.fresh.interfere (fun m hm => (hm.mode hu).update nofun nofun) fun e he hx =>
        absurd hx (hc e he)
    · exact (h.atReader.mode hu).update nofun nofun
  · refine ⟨h.inRange, h.counter, hw, h.reader, ?_, ?_⟩
    · exact h.fresh.interfere (fun m hm => hm.update nofun nofun) fun _ _ _ _ => id
    · exact h.atReader.update nofun nofun

theorem drain_reader (h : Coherent n m b c w r) (hp : (fifo Val).pop c x = some (u, c')) :
    Coherent n (update m x u) b c' w r := by
  have hr (e : Entry Val) (he : e ∈ c') := h.reader e ((mem_fifo_pop hp).mpr (.inr he))
  have hv : (fifo Val).view (update m x u) c' = (fifo Val).view m c := funext fun _ => view_pop hp
  have hf := h.fresh.pop hp
  obtain hx | hx := h.reader ⟨x, u⟩ ((mem_fifo_pop hp).mpr (.inl rfl))
  all_goals
    dsimp only at hx
    subst hx
    exact ⟨h.inRange, h.counter, h.writer, hr, hf, hv ▸ h.atReader⟩

theorem of_reachable (hn : n < 2 ^ 31) {s : Buffered.State (fifo Val) WriterPc ReaderPc}
    (h : (harness (fifo Val) .flushing n v).Reachable s) :
    ∃ m b c w r, s = Buffered.state m b c w r ∧ Coherent n m b c w r :=
  Buffered.invariant init (fun _ _ _ _ _ _ _ _ => write hn) (fun _ _ _ _ _ _ _ _ => read)
    (fun _ _ _ _ _ _ _ _ => drain_writer) (fun _ _ _ _ _ _ _ _ => drain_reader) h

end Coherent

-- Memory and the reader agree on what is cached.
theorem tso_coherent (hn : n < 2 ^ 31) {s : Buffered.State (fifo Val) WriterPc ReaderPc}
    (h : (harness (fifo Val) .flushing n v).Reachable s) (hw : ∀ i, ¬s.writerAt (.fetchAdd i)) :
    (s.mem .cachedCounter = s.mem .gtidModeCounter → s.mem .cachedGtidMode = s.mem .gtidMode) ∧
    ((fifo Val).view s.mem (s.buf .reader) .cachedCounter = s.mem .gtidModeCounter →
      (fifo Val).view s.mem (s.buf .reader) .cachedGtidMode = s.mem .gtidMode) := by
  obtain ⟨m, b, c, w, r, rfl, hs⟩ := Coherent.of_reachable hn h
  have hu : ¬w.Updating := fun ⟨i, hi⟩ => hw i (Buffered.writerAt_state.mpr hi)
  exact ⟨fun hc => (hs.fresh.here.2 hc).resolve_left hu, fun hc => (hs.fresh.view.2 hc).resolve_left hu⟩

-- The mode after a number of updates.
def value (v : Nat → Int) : Nat → Int
  | 0 => 0
  | i + 1 => v i

-- The run is over, and the cache shows the current counter with another mode.
structure Stale (s : Buffered.State (perLocation Val) WriterPc ReaderPc) : Prop where
  flushed : s.Flushed
  writer  : s.writerAt .done
  counter : s.mem .cachedCounter = s.mem .gtidModeCounter
  mode    : s.mem .cachedGtidMode ≠ s.mem .gtidMode

section Pso

variable {m : Mem Val} {b c : (x : Loc) → List (Val x)} {w : WriterPc} {r : ReaderPc}

theorem getLast?_values (v : Nat → Int) (i : Nat) :
    ((List.range i).map v).getLast?.getD 0 = value v i := by
  cases i
  case zero => rfl
  case succ i => simp [List.range_succ, value]

abbrev pso (n : Nat) (v : Nat → Int) :=
  harness (perLocation Val) .weak n v

-- The buffer of the writer after some updates of which no store has drained.
def modes (v : Nat → Int) (i : Nat) : (perLocation Val).Buf :=
  update (fun _ => []) .gtidMode ((List.range i).map v)

theorem push_modes {i : Nat} :
    (perLocation Val).push (modes v i) .gtidMode (v i) = modes v (i + 1) := by
  simp [perLocation, modes, List.range_succ]

-- The counter runs ahead of all stores to `gtid_mode`.
theorem leads_updates {i : Nat} (hn : n < 2 ^ 31) (hi : i ≤ n) :
    (pso n v).Leads
      (· = Buffered.state (update start .gtidModeCounter (i : Int)) (modes v i) (fun _ => []) (.check i)
        .loadRunning)
      (Buffered.state start (fun _ => []) (fun _ => []) (.check 0) .loadRunning) := by
  induction i
  case zero =>
    refine .refl (congrArg₂ (Buffered.state · · _ _ _) (update_eq_self ..).symm ?_)
    exact (update_eq_self (f := fun _ : Loc => ([] : List Int)) Loc.gtidMode).symm
  case succ i hi' =>
    refine (hi' (Nat.le_of_succ_le hi)).trans ?_
    rintro _ rfl
    refine Buffered.leads_writer (n := update start .gtidModeCounter (i : Int)) (d := modes v i)
      (v := .storeGtidMode i) ?_ <| Buffered.leads_writer rfl <|
      Buffered.leads_writer (n := update start .gtidModeCounter ((i + 1 : Nat) : Int))
        (d := modes v (i + 1)) (v := .check (i + 1)) ?_ <| .refl rfl
    · simp [writer, Op.exec, Nat.lt_of_succ_le hi]
    · simp only [writer, Op.exec, update_self, Coherent.count_succ hn hi, push_modes]
      have hw : ¬Discipline.weak.rmwWaits .relaxed = true := Bool.false_ne_true
      rw [if_pos ⟨fun h => absurd h hw, rfl⟩, update_idem]

-- The oldest stores of the writer to a variable drain.
theorem leads_drains {k l : List (Val x)} (h : b x = k ++ l) (hu : k.getLast?.getD (m x) = u) :
    (pso n v).Leads (· = Buffered.state (update m x u) (update b x l) c w r)
      (Buffered.state m b c w r) := by
  induction k generalizing m b
  case nil => exact .refl (by simp [← show b x = l from h, ← show m x = u from hu])
  case cons a k hi =>
    refine Buffered.leads_drain_writer (x := x) (u := a) (d := update b x (k ++ l)) ?_ ?_
    · simp [perLocation, h]
    · refine (hi (update_self ..) (by simpa [List.getLast?_cons] using hu)).trans ?_
      rintro _ rfl
      exact .refl (by simp)

-- Between polls, the reader has nothing left to do for a given counter.
def ReaderPc.Idle (counter : Int) : ReaderPc → Prop
  | loadRunning | loadCounter | done => True
  | loadCachedCounter cur => cur = counter
  | loadGtidMode _ | storeCachedGtidMode .. | storeCachedCounter _ => False

structure Settled (m : Mem Val) (b c : (perLocation Val).Buf) (w : WriterPc) (r : ReaderPc) :
    Prop where
  writer  : w = .done
  empty   : b = (perLocation Val).empty ∧ c = (perLocation Val).empty
  counter : m .cachedCounter = m .gtidModeCounter
  mode    : m .cachedGtidMode ≠ m .gtidMode
  idle    : r.Idle (m .gtidModeCounter)

namespace Settled

theorem stale (h : Settled m b c w r) : Stale (Buffered.state m b c w r) where
  flushed t := by
    obtain ⟨rfl, rfl⟩ := h.empty
    cases t <;> exact empty_empty
  writer := Buffered.writerAt_state.mpr h.writer
  counter := h.counter
  mode := h.mode

theorem step {s s' : Buffered.State (perLocation Val) WriterPc ReaderPc}
    {l : Buffered.Label Loc WriterPc ReaderPc}
    (h : ∃ m b c w r, s = Buffered.state m b c w r ∧ Settled m b c w r)
    (e : (pso n v).Step s l s') : ∃ m b c w r, s' = Buffered.state m b c w r ∧ Settled m b c w r := by
  obtain ⟨m, b, c, w, r, rfl, h⟩ := h
  obtain ⟨rfl, ⟨rfl, rfl⟩, hc, hm, hi⟩ := h
  obtain ⟨m', b', w', he, -, rfl⟩ | ⟨m', c', r', he, -, rfl⟩ | ⟨x, u, b', he, -⟩ |
    ⟨x, u, c', he, -⟩ := Buffered.step_cases e
  · cases he
  · refine ⟨m', _, c', _, r', rfl, ?_⟩
    cases r
    case loadRunning => cases he; exact ⟨rfl, ⟨rfl, rfl⟩, hc, hm, by dsimp only; split <;> trivial⟩
    case loadCounter => cases he; exact ⟨rfl, ⟨rfl, rfl⟩, hc, hm, rfl⟩
    case loadCachedCounter cur =>
      obtain rfl : cur = _ := hi
      have hv : (perLocation Val).view m (perLocation Val).empty .cachedCounter = m .gtidModeCounter :=
        hc ▸ view_nil (empty_empty _)
      simp only [reader, Op.exec, hv, ne_eq, not_true_eq_false, if_false] at he
      cases he
      exact ⟨rfl, ⟨rfl, rfl⟩, hc, hm, trivial⟩
    case done => cases he
    all_goals cases hi
  all_goals cases he

end Settled

theorem exists_settled (hn : n < 2 ^ 31) {j : Nat} (hj : j < n) (hv : value v j ≠ value v n) :
    ∃ s, (pso n v).Reachable s ∧ ∃ m b c w r, s = Buffered.state m b c w r ∧ Settled m b c w r := by
  refine (((leads_updates hn le_rfl).trans ?_).exists_reachable (.init Buffered.init_state) :)
  rintro _ rfl
  let l := (List.range' j (n - j)).map v
  have hr : List.range n = List.range j ++ List.range' j (n - j) := by
    simpa [List.range_eq_range', Nat.add_sub_cancel' hj.le] using
      (List.range'_append_1 (s := 0) (m := j) (n := n - j)).symm
  have hl : (List.range n).map v = (List.range j).map v ++ l := by
    rw [hr, List.map_append]
  have hn : l.getLast?.getD (value v j) = value v n := by
    rw [← getLast?_values v n, hl, List.getLast?_append]
    cases hg : l.getLast?
    case some => simp
    case none => simp [l] at hg; omega
  -- The reader polls while some of the modes have drained.
  let m : Mem Val := update (update start .gtidModeCounter (n : Int)) .gtidMode (value v j)
  refine Buffered.leads_writer (n := update start .gtidModeCounter (n : Int)) (d := modes v n)
    (v := .storeRunning) (by simp [writer, Op.exec]) <| Buffered.leads_writer rfl <|
    (leads_drains (x := .gtidMode) hl (getLast?_values v j)).trans ?_
  rintro _ rfl
  refine Buffered.leads_reader rfl <| Buffered.leads_reader rfl <|
    Buffered.leads_reader (n := m) (d := fun _ => []) (q := .loadGtidMode n) rfl <|
    Buffered.leads_reader rfl <| Buffered.leads_reader rfl <| Buffered.leads_reader rfl <|
    Buffered.leads_drain_reader (x := .cachedGtidMode) rfl <|
    Buffered.leads_drain_reader (x := .cachedCounter) rfl <|
    (leads_drains (x := .gtidMode) (k := l) (l := []) (List.append_nil l).symm hn).trans ?_
  rintro _ rfl
  refine (leads_drains (x := .running) (k := [0]) (l := []) rfl rfl).trans ?_
  rintro _ rfl
  refine .refl ⟨_, _, _, _, _, rfl, rfl, ⟨?_, ?_⟩, rfl, hv, trivial⟩
  all_goals
    funext x
    cases x <;> rfl

end Pso

-- The stale mode stays in the cache, since the counter never changes again.
theorem coherent_of_tso_only (hn : n < 2 ^ 31) (v : Nat → Int) :
    (∀ s, (harness (fifo Val) .flushing n v).Reachable s → (∀ i, ¬s.writerAt (.fetchAdd i)) →
      (s.mem .cachedCounter = s.mem .gtidModeCounter → s.mem .cachedGtidMode = s.mem .gtidMode) ∧
      ((fifo Val).view s.mem (s.buf .reader) .cachedCounter = s.mem .gtidModeCounter →
        (fifo Val).view s.mem (s.buf .reader) .cachedGtidMode = s.mem .gtidMode)) ∧
    ((∃ j < n, value v j ≠ value v n) →
      ∃ s, (pso n v).Reachable s ∧ ∀ ls s', (pso n v).Steps s ls s' → Stale s') := by
  refine ⟨fun s h hw => tso_coherent hn h hw, fun ⟨j, hj, hv⟩ => ?_⟩
  have ⟨s, r, hs⟩ := exists_settled hn hj hv
  refine ⟨s, r, fun ls s' es => ?_⟩
  obtain ⟨m, b, c, w, r, rfl, h⟩ := es.invariant (fun _ _ _ => Settled.step) hs
  exact h.stale

-- The five updates of the test, which alternate between two modes.
theorem coherent_of_tso_only_five :
    ∃ s, (pso 5 fun i => if i % 2 = 0 then 1 else 0).Reachable s ∧
      ∀ ls s', (pso 5 fun i => if i % 2 = 0 then 1 else 0).Steps s ls s' → Stale s' :=
  (coherent_of_tso_only (by decide) _).2 ⟨0, by decide⟩

end Harness.GtidMode

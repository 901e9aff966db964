import OrderingBugs.Harness.UtRelax

open Function

-- The same test on a machine that drains the stores to different locations in any order.
namespace Harness.UtRelax

instance : Fintype Loc where
  elems := {.lockWord, .data, .dataReady, .bugDetected, .startFlag}
  complete x := by cases x <;> decide

variable (iterations : Nat) (useBuggy : Bool) (spurious : Nat → Bool)

abbrev weakHarness : System (Buffered.State (.perLocation Val) Writer Reader)
    (Buffered.Label Loc Writer Reader) :=
  Buffered.system (.perLocation Val) .weak (threadWriter iterations useBuggy spurious)
    (threadReader iterations useBuggy) start ⟨.waitStart, 0, 0⟩ ⟨.waitStart, 0, 0⟩

-- The reader has seen `data_ready` without the data, or has said so already.
def Detects (s : Buffered.State (.perLocation Val) Writer Reader) : Prop :=
  (∃ i n, s.readerAt ⟨.clear 1 0, i, n⟩) ∨ s.mem .bugDetected ≠ 0

-- The signal of the writer reaches memory only after its first data.
def DrainsInOrder (s : Buffered.State (.perLocation Val) Writer Reader) :
    Buffered.Label Loc Writer Reader → Prop
  | .drain .writer .dataReady => s.mem .data ≠ 0
  | _ => True

variable {iterations useBuggy spurious}
variable {m m' : Mem Val} {b b' c c' : (x : Loc) → List (Val x)} {w w' : Writer} {r r' : Reader}

theorem exec_utRelaxCpu {L : Type} {k l : L}
    (e : (utRelaxCpu useBuggy k).exec (.perLocation Val) .weak m b = some (m', b', l)) :
    m' = m ∧ b' = b ∧ l = k := by
  cases useBuggy
  case false => cases e; exact ⟨rfl, rfl, rfl⟩
  case true =>
    simp only [utRelaxCpu, if_true, Op.exec] at e
    split at e <;> cases e
    exact ⟨rfl, rfl, rfl⟩

-- The buffers after a store to one of the variables has drained.
theorem pop_cases {x : Loc} {v : Val x}
    (hp : (Buffering.perLocation Val).pop b x = some (v, b')) :
    b x = v :: b' x ∧ ∀ y, y ≠ x → b y = b' y :=
  ⟨Buffering.pending_pop_self hp, fun _ => Buffering.pending_pop_ne hp⟩

-- If signals drain in order, then the reader finds data whenever it finds a signal.
structure Ordered (m : Mem Val) (b c : (x : Loc) → List (Val x)) (r : Reader) : Prop where
  data     : ∀ v ∈ b .data, v ≠ 0
  ready    : m .dataReady ≠ 0 → m .data ≠ 0
  cleared  : ∀ v ∈ c .dataReady, v = 0
  bug      : m .bugDetected = 0
  others   : c .data = [] ∧ b .bugDetected = [] ∧ c .bugDetected = []
  loadData : ∀ ready, r.pc = .loadData ready → m .data ≠ 0
  clear    : ∀ ready val, r.pc = .clear ready val → val ≠ 0
  storeBug : r.pc ≠ .storeBug

namespace Ordered

theorem init : Ordered start (fun _ => []) (fun _ => []) ⟨.waitStart, 0, 0⟩ := by
  constructor <;> simp [start]

theorem write (h : Ordered m b c r)
    (e : (threadWriter iterations useBuggy spurious w).exec (.perLocation Val) .weak m b =
      some (m', b', w')) : Ordered m' b' c r := by
  obtain ⟨hd, hr, hc, hb, ho, hl, hv, hs⟩ := h
  obtain ⟨pc, i, n⟩ := w
  cases pc <;> simp only [threadWriter] at e
  case waitStart => cases e; constructor <;> grind
  case check => split at e <;> cases e <;> constructor <;> grind
  case compareExchange =>
    obtain ⟨-, rfl, rfl, -⟩ := Op.exec_rmw e
    constructor <;> grind [update]
  case relax =>
    split at e
    case isTrue => obtain ⟨rfl, rfl, -⟩ := exec_utRelaxCpu e; constructor <;> grind
    case isFalse => cases e; constructor <;> grind
  case storeData | storeReady =>
    cases e
    constructor <;> grind [update, Buffering.perLocation]
  case unlock =>
    obtain ⟨-, ⟨-, -, ho⟩ | ⟨rfl, rfl, -⟩⟩ := Op.exec_store e
    · cases ho
    · constructor <;> grind [update]
  case done => cases e

-- A thread that has a store to `data_ready` of its own buffered does not see the signal.
theorem read (h : Ordered m b c r)
    (e : (threadReader iterations useBuggy r).exec (.perLocation Val) .weak m c =
      some (m', c', r')) : Ordered m' b c' r' := by
  obtain ⟨hd, hr, hc, hb, ho, hl, hv, hs⟩ := h
  obtain ⟨pc, i, n⟩ := r
  cases pc <;> simp only [threadReader] at e
  case waitStart => cases e; constructor <;> grind
  case check => split at e <;> cases e <;> constructor <;> grind
  case relax => obtain ⟨rfl, rfl, rfl⟩ := exec_utRelaxCpu e; constructor <;> grind
  case loadReady =>
    have hv' := Buffering.view_cases (.perLocation Val) m c .dataReady
    cases e
    constructor <;> grind [Buffering.perLocation]
  case loadData =>
    have hv' := Buffering.view_cases (.perLocation Val) m c .data
    cases e
    constructor <;> grind [Buffering.perLocation]
  case clear =>
    cases e
    constructor <;> grind [update, Buffering.perLocation]
  case storeBug => exact absurd rfl hs
  case done => cases e

theorem drain_writer {x : Loc} {v : Val x} (h : Ordered m b c r)
    (hx : x = .dataReady → m .data ≠ 0)
    (hp : (Buffering.perLocation Val).pop b x = some (v, b')) : Ordered (update m x v) b' c r := by
  obtain ⟨hd, hr, hc, hb, ho, hl, hv, hs⟩ := h
  have ⟨hp, hn⟩ := pop_cases hp
  cases x <;> constructor <;> grind [update]

theorem drain_reader {x : Loc} {v : Val x} (h : Ordered m b c r)
    (hp : (Buffering.perLocation Val).pop c x = some (v, c')) : Ordered (update m x v) b c' r := by
  obtain ⟨hd, hr, hc, hb, ho, hl, hv, hs⟩ := h
  have ⟨hp, hn⟩ := pop_cases hp
  have hm : v ∈ c x := hp ▸ List.mem_cons_self
  cases x <;> constructor <;> grind [update]

end Ordered

-- The reader waits for its first signal, or does not wait at all.
structure Unsignalled (iterations : Nat) (m : Mem Val) (c : (x : Loc) → List (Val x))
    (r : Reader) : Prop where
  ready   : m .dataReady = 0
  bug     : m .bugDetected = 0
  started : m .startFlag = 1
  empty   : ∀ x, c x = []
  first   : r.i = 0
  pc      : r.pc = .waitStart ∨ r.pc = .check ∨ r.pc = .relax ∨ r.pc = .loadReady ∨
    r.pc = .done ∧ iterations = 0

namespace Unsignalled

theorem store {x : Loc} (h : Unsignalled iterations m c r) (hx : x = .lockWord ∨ x = .data)
    (v : Val x) : Unsignalled iterations (update m x v) c r := by
  obtain ⟨hr, hb, hs, hc, hi, hp⟩ := h
  obtain rfl | rfl := hx
  all_goals exact ⟨by simpa, by simpa, by simpa, hc, hi, hp⟩

theorem read (h : Unsignalled iterations m c r)
    (e : (threadReader iterations useBuggy r).exec (.perLocation Val) .weak m c =
      some (m', c', r')) : Unsignalled iterations m' c' r' := by
  obtain ⟨hr, hb, hs, hc, hi, hp⟩ := h
  have hv (x) : (Buffering.perLocation Val).view m c x = m x := Buffering.view_nil (hc x)
  obtain ⟨pc, i, n⟩ := r
  obtain rfl | rfl | rfl | rfl | ⟨rfl, -⟩ := hp <;> simp only [threadReader] at e
  case inr.inl => split at e <;> cases e <;> constructor <;> grind
  case inr.inr.inl => obtain ⟨rfl, rfl, rfl⟩ := exec_utRelaxCpu e; constructor <;> grind
  case inr.inr.inr.inr => cases e
  all_goals cases e; constructor <;> grind

end Unsignalled

-- Until the first signal of the writer has reached memory, the reader waits for it. The lock is released
-- only when the data has reached memory too.
structure Signals (iterations : Nat) (m : Mem Val) (b c : (x : Loc) → List (Val x)) (w : Writer)
    (r : Reader) : Prop where
  data    : ∀ v ∈ b .data, v ≠ 0
  one     : b .dataReady = [] ∨ b .dataReady = [1] ∧ w.pc = .unlock
  stored  : w.pc = .storeReady ∨ w.pc = .unlock → b .data ≠ [] ∨ m .data ≠ 0
  later   : 0 < w.i → m .data ≠ 0
  running : w.pc ≠ .waitStart → w.pc ≠ .check → w.pc ≠ .done → w.i < iterations
  others  : b .bugDetected = [] ∧ b .startFlag = [] ∧ c .data = [] ∧ c .startFlag = []
  first   : w.i = 0 → (w.pc = .unlock → b .dataReady ≠ []) → Unsignalled iterations m c r

namespace Signals

theorem init : Signals iterations start (fun _ => []) (fun _ => []) ⟨.waitStart, 0, 0⟩
    ⟨.waitStart, 0, 0⟩ := by
  constructor <;> simp
  constructor <;> simp [start]

theorem write (h : Signals iterations m b c w r)
    (e : (threadWriter iterations useBuggy spurious w).exec (.perLocation Val) .weak m b =
      some (m', b', w')) : Signals iterations m' b' c w' r := by
  obtain ⟨hd, ho, hs, hl, hr, hn, hf⟩ := h
  obtain ⟨pc, i, n⟩ := w
  cases pc <;> simp only [threadWriter] at e
  case waitStart => cases e; constructor <;> grind
  case check => split at e <;> cases e <;> constructor <;> grind
  case compareExchange =>
    obtain ⟨rfl, rfl, rfl, -⟩ := Op.exec_rmw e
    constructor <;> grind [update, Unsignalled.store]
  case relax =>
    split at e
    case isTrue => obtain ⟨rfl, rfl, rfl⟩ := exec_utRelaxCpu e; constructor <;> grind
    case isFalse => cases e; constructor <;> grind
  case storeData =>
    have hp : (Buffering.perLocation Val).push b .data (i + 1 : Int) .data ≠ [] := by
      simp [Buffering.perLocation]
    cases e
    constructor <;> grind [update, Buffering.perLocation]
  case storeReady =>
    cases e
    constructor <;> grind [update, Buffering.perLocation]
  case unlock =>
    obtain ⟨rfl, ⟨-, -, ho⟩ | ⟨rfl, rfl, he, -⟩⟩ := Op.exec_store e
    · cases ho
    · have hd := he .data
      have hr := he .dataReady
      constructor <;> grind [update, Buffering.perLocation]
  case done => cases e

theorem read (h : Signals iterations m b c w r)
    (e : (threadReader iterations useBuggy r).exec (.perLocation Val) .weak m c =
      some (m', c', r')) : Signals iterations m' b c' w r' := by
  obtain ⟨hd, ho, hs, hl, hr, hn, hf⟩ := h
  replace hf hi hu := (hf hi hu).read e
  obtain ⟨pc, i, n⟩ := r
  cases pc <;> simp only [threadReader] at e
  case check => split at e <;> cases e <;> constructor <;> grind
  case relax => obtain ⟨rfl, rfl, rfl⟩ := exec_utRelaxCpu e; constructor <;> grind
  case done => cases e
  all_goals cases e; constructor <;> grind [update, Buffering.perLocation]

theorem drain_writer {x : Loc} {v : Val x} (h : Signals iterations m b c w r)
    (hp : (Buffering.perLocation Val).pop b x = some (v, b')) :
    Signals iterations (update m x v) b' c w r := by
  obtain ⟨hd, ho, hs, hl, hr, hn, hf⟩ := h
  have ⟨hp, hn'⟩ := pop_cases hp
  have hv : v ∈ b x := hp ▸ List.mem_cons_self
  cases x <;> constructor <;> grind [update, Unsignalled.store]

theorem drain_reader {x : Loc} {v : Val x} (h : Signals iterations m b c w r)
    (hp : (Buffering.perLocation Val).pop c x = some (v, c')) :
    Signals iterations (update m x v) b c' w r := by
  obtain ⟨hd, ho, hs, hl, hr, hn, hf⟩ := h
  have ⟨hp, hn'⟩ := pop_cases hp
  have hu (hu : Unsignalled iterations m c r) : False := by simp [hu.empty] at hp
  cases x <;> constructor <;> grind [update]

end Signals

-- With the signal in memory but not the data, the reader finds the one without the other.
theorem leads_detects {b c : (Buffering.perLocation Val).Buf} (h : Unsignalled iterations m c r)
    (hi : 0 < iterations) (hd : m .data = 0) : (weakHarness iterations useBuggy spurious).Leads Detects
      (Buffered.state (update m .dataReady 1) b c w r) := by
  obtain ⟨-, hb, hs, hc, hf, hp⟩ := h
  obtain ⟨pc, i, n⟩ := r
  cases hf
  have hv (x) : (Buffering.perLocation Val).view (update m .dataReady 1) c x = update m .dataReady 1 x :=
    Buffering.view_nil (hc x)
  have loadReady : (weakHarness iterations useBuggy spurious).Leads Detects
      (Buffered.state (update m .dataReady 1) b c w ⟨.loadReady, 0, n⟩) := by
    refine Buffered.leads_reader (n := update m .dataReady 1) (d := c) (q := ⟨.loadData 1, 0, n⟩) ?_ <|
      Buffered.leads_reader (n := update m .dataReady 1) (d := c) (q := ⟨.clear 1 0, 0, n⟩) ?_ <|
      .refl (.inl ⟨0, n, by simp⟩)
    all_goals simp [threadReader, Op.exec, hv, hd]
  have relax : (weakHarness iterations useBuggy spurious).Leads Detects
      (Buffered.state (update m .dataReady 1) b c w ⟨.relax, 0, n⟩) := by
    refine Buffered.leads_reader ?_ loadReady
    have he : (Buffering.perLocation Val).Empty c := hc
    cases useBuggy <;> simp [threadReader, utRelaxCpu, Op.exec, he]
  have check : (weakHarness iterations useBuggy spurious).Leads Detects
      (Buffered.state (update m .dataReady 1) b c w ⟨.check, 0, n⟩) :=
    Buffered.leads_reader (by simp [threadReader, Op.exec, hv, hi, hb]) relax
  obtain rfl | rfl | rfl | rfl | ⟨-, h₀⟩ := hp
  · exact Buffered.leads_reader (by simp [threadReader, Op.exec, hv, hs]) check
  · exact check
  · exact relax
  · exact loadReady
  · exact absurd h₀ hi.ne'

theorem drainsInOrder_exact (iterations : Nat) (useBuggy : Bool) (spurious : Nat → Bool) :
    (weakHarness iterations useBuggy spurious).Exact DrainsInOrder Detects := by
  refine ⟨fun ls s r hd => ?safe, fun s l s' hr e hc => ?sharp⟩
  case safe =>
    obtain ⟨m, b, c, w, r, rfl, h⟩ := Buffered.restrict_invariant
      (I := fun m b c _ r => Ordered m b c r) .init (fun _ _ _ _ _ _ _ _ h _ => h.write)
      (fun _ _ _ _ _ _ _ _ h _ => h.read)
      (fun _ _ _ _ _ _ _ _ h hc => h.drain_writer (by rintro rfl; exact hc))
      (fun _ _ _ _ _ _ _ _ h _ => h.drain_reader) r.reachable
    obtain ⟨i, n, hr⟩ | hb := hd
    · rw [Buffered.readerAt_state] at hr
      exact h.clear 1 0 (by simp [hr]) rfl
    · exact hb h.bug
  case sharp =>
    obtain ⟨m, b, c, w, r, rfl, h⟩ := Buffered.invariant
      (I := fun m b c w r => Signals iterations m b c w r) .init (fun _ _ _ _ _ _ _ _ => .write)
      (fun _ _ _ _ _ _ _ _ => .read) (fun _ _ _ _ _ _ _ _ => .drain_writer)
      (fun _ _ _ _ _ _ _ _ => .drain_reader) hr
    obtain ⟨_, _, _, -, rfl, -⟩ | ⟨_, _, _, -, rfl, -⟩ | ⟨x, v, b', hp, rfl, rfl⟩ |
      ⟨_, _, _, -, rfl, -⟩ := Buffered.step_cases e
    case inr.inr.inl =>
      cases x <;> try exact absurd trivial hc
      have hd : m .data = 0 := not_not.mp hc
      have hi : w.i = 0 := by
        by_contra hi
        exact h.later (Nat.pos_of_ne_zero hi) hd
      replace hp := (pop_cases hp).1
      obtain hn | ⟨hn, hw⟩ := h.one
      · simp [hn] at hp
      · obtain ⟨rfl, -⟩ := List.cons.inj (hn.symm.trans hp)
        exact leads_detects (h.first hi fun _ => by simp [hn])
          (hi ▸ h.running (by simp [hw]) (by simp [hw]) (by simp [hw])) hd
    all_goals exact absurd trivial hc

-- The signal leaves the buffer of the writer before the data does.
def overtaken : List (Machine.Choice Tid Loc) :=
  List.flatten [.replicate 5 (.move .writer), [.drain .writer .dataReady], .replicate 5 (.move .reader)]

theorem not_masked_of_overtaken :
    ¬∀ s, (weakHarness 1 true fun _ => false).Reachable s → ¬Detects s := by
  have ⟨s, r, h⟩ := Machine.exists_reachable_of_schedule (.perLocation Val) .weak
    (code (threadWriter 1 true fun _ => false) (threadReader 1 true)).program start
    (Code.tag (pcs ⟨.waitStart, 0, 0⟩ ⟨.waitStart, 0, 0⟩)) overtaken
    (p := (Buffered.State.readerAt · ⟨.clear 1 0, 0, 0⟩)) (by decide +kernel)
  exact fun hn => hn s r (.inl ⟨0, 0, h⟩)

end Harness.UtRelax

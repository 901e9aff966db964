import OrderingBugs.Mysql.RwLock
import OrderingBugs.Memory.Mutex

open Function

namespace Mysql

variable {Tid : Type} [DecidableEq Tid]

def DecrPc.Inside : DecrPc → Prop
  | lock => False
  | compare | load | store _ | unlock _ => True

def SetPc.Inside : SetPc → Prop
  | lock => False
  | storeWriterThread | storeRecursive | unlock => True

-- The thread has the mutex.
def Pc.Inside : Pc → Prop
  | decr pc | redecr pc => pc.Inside
  | set pc => pc.Inside
  | _ => False

def Thread.Inside (l : Thread) : Prop :=
  ∃ c pc, l.current = some (c, pc) ∧ pc.Inside

@[simp]
theorem inside_none {cs : List Call} {os : List Outcome} : ¬Thread.Inside ⟨none, cs, os⟩ := by
  simp [Thread.Inside]

@[simp]
theorem inside_some {c : Call} {pc : Pc} {cs : List Call} {os : List Outcome} :
    Thread.Inside ⟨some (c, pc), cs, os⟩ ↔ pc.Inside := by
  simp [Thread.Inside]

section Exec

omit [DecidableEq Tid]

variable {L : Type} {m m' : Mem (Val Tid)} {b b' : (Buffering.perLocation (Val Tid)).Buf} {l retry ret : L}

-- The operations of the mutex find the buffers empty.
theorem exec_mutexEnter
    (e : (mutexEnter retry ret).exec (.perLocation (Val Tid)) .weak m b = some (m', b', l)) :
    b' = b ∧ (Buffering.perLocation (Val Tid)).Empty b ∧ m' = update m .mutex true ∧
      ((m .mutex = true ∧ l = retry) ∨ (m .mutex = false ∧ l = ret)) := by
  have ⟨hl, hm, hb, he⟩ := Op.exec_rmw e
  refine ⟨hb, he rfl, hm, ?_⟩
  cases h : m .mutex <;> simp [hl, h]

theorem exec_mutexExit
    (e : (mutexExit ret).exec (.perLocation (Val Tid)) .weak m b = some (m', b', l)) :
    b' = b ∧ (Buffering.perLocation (Val Tid)).Empty b ∧ m' = update m .mutex false ∧ l = ret := by
  obtain ⟨hl, ⟨-, -, ho⟩ | ⟨hm, hb, he, -⟩⟩ := Op.exec_store e
  · cases ho
  · exact ⟨hb, he, hm, hl⟩

end Exec

theorem mutex : Machine.Mutex (.perLocation (Val Tid)) .weak program .mutex (· = true) Thread.Inside := by
  constructor
  intro t l m b m' b' l' e hp
  obtain ⟨_ | ⟨c, pc⟩, cs, os⟩ := l
  case none =>
    cases cs <;> cases e
    exact ⟨hp, .inl ⟨rfl, by simp [Pc.Inside, DecrPc.Inside]⟩⟩
  case some =>
    -- The mutex is locked and unlocked in three places, all other operations leave it alone.
    rcases pc with (_ | _ | _ | _ | _) | (_ | _ | _ | _) | _ | _ | _ | (_ | _ | _ | _ | _) | _
    case decr.lock | set.lock | redecr.lock =>
      obtain ⟨rfl, he, rfl, ⟨hm, rfl⟩ | ⟨hm, rfl⟩⟩ := exec_mutexEnter e
      all_goals simp [he _, hm, Pc.Inside, DecrPc.Inside, SetPc.Inside]
    case decr.unlock | set.unlock | redecr.unlock =>
      obtain ⟨rfl, he, rfl, rfl⟩ := exec_mutexExit e
      refine ⟨hp, .inr (.inr ⟨by simp, by simp [Pc.Inside, DecrPc.Inside, SetPc.Inside], ?_⟩)⟩
      grind [Pc.Inside, SetPc.Inside, DecrPc.Inside, inside_some, inside_none]
    case decr.store | set.storeWriterThread | set.storeRecursive | redecr.store | store |
        storeFileName | storeLine =>
      cases e
      refine ⟨(Buffering.pending_push_ne (by simp)).trans hp, .inl ⟨rfl, ?_⟩⟩
      simp [Pc.Inside, SetPc.Inside, DecrPc.Inside]
    all_goals cases e
    all_goals
      refine ⟨hp, .inl ⟨rfl, ?_⟩⟩
      grind [Pc.Inside, SetPc.Inside, DecrPc.Inside, inside_some, inside_none]

-- The calls of a thread: those that have returned, the one it is in, and those it has still to make.
def Thread.total (l : Thread) : Nat :=
  l.returned.length + l.current.toList.length + l.calls.length

section Bystander

variable {m m' : Mem (Val Tid)} {b b' : (x : Loc) → List (Val Tid x)} {l l' : Thread} {t : Tid}

theorem total_exec (e : (program t l).exec (.perLocation (Val Tid)) .weak m b = some (m', b', l')) :
    l'.total = l.total := by
  obtain ⟨_ | ⟨c, pc⟩, cs, os⟩ := l
  case none =>
    cases cs <;> cases e
    simp only [Thread.total, Option.toList, List.length]
    omega
  case some =>
    rcases pc with (_ | _ | _ | _ | _) | (_ | _ | _ | _) | _ | _ | _ | (_ | _ | _ | _ | _) | _
    case decr.lock | set.lock | redecr.lock =>
      obtain ⟨rfl, he, rfl, ⟨hm, rfl⟩ | ⟨hm, rfl⟩⟩ := exec_mutexEnter e
      all_goals rfl
    case decr.unlock | set.unlock | redecr.unlock =>
      obtain ⟨rfl, he, rfl, rfl⟩ := exec_mutexExit e
      grind [Thread.total]
    all_goals cases e
    all_goals grind [Thread.total]

-- The places of a call that has not succeeded.
def Pc.Failing : Pc → Prop
  | decr .lock | decr .compare | decr (.unlock false) => True
  | fence | loadRecursive | loadWriterThread => True
  | _ => False

-- None of the calls of the thread has succeeded, so it has not stored anything.
structure Bystander (b : (x : Loc) → List (Val Tid x)) (l : Thread) : Prop where
  failing : ∀ c pc, l.current = some (c, pc) → pc.Failing
  refused : ∀ o ∈ l.returned, o = .refused
  empty   : ∀ x, b x = []

-- It stays so as long as the thread does not find the lock free.
theorem Bystander.exec (h : Bystander b l) (hw : m .writerThread ≠ some t)
    (e : (program t l).exec (.perLocation (Val Tid)) .weak m b = some (m', b', l')) :
    (Bystander b' l' ∧ ∀ x, x ≠ .mutex → m' x = m x) ∨
    (xLockHalfDecr < m .lockWord ∧ l.Inside ∧ m' = m ∧ b' = b ∧ ∃ c cs os,
      l = ⟨some (c, .decr .compare), cs, os⟩ ∧ l' = ⟨some (c, .decr .load), cs, os⟩) := by
  obtain ⟨hf, hr, hb⟩ := h
  have hv (x) : (Buffering.perLocation (Val Tid)).view m b x = m x := Buffering.view_nil (hb x)
  obtain ⟨_ | ⟨c, pc⟩, cs, os⟩ := l
  case none =>
    cases cs <;> cases e
    exact .inl ⟨⟨by simp [Pc.Failing], hr, hb⟩, by simp⟩
  case some =>
    replace hf := hf c pc rfl
    rcases pc with (_ | _ | _ | _ | (_ | _)) | (_ | _ | _ | _) | _ | _ | _ | (_ | _ | _ | _ | _) | _
    case decr.lock =>
      obtain ⟨rfl, he, rfl, ⟨hm, rfl⟩ | ⟨hm, rfl⟩⟩ := exec_mutexEnter e
      all_goals exact .inl ⟨⟨by simp [Pc.Failing], hr, hb⟩, by simp +contextual⟩
    case decr.unlock.false =>
      obtain ⟨rfl, he, rfl, rfl⟩ := exec_mutexExit e
      refine .inl ⟨?_, by simp +contextual⟩
      constructor <;> grind [Pc.Failing]
    case decr.compare =>
      by_cases hm : m .lockWord > xLockHalfDecr
      case pos =>
        refine .inr ⟨hm, by simp [Pc.Inside, DecrPc.Inside], ?_⟩
        cases e
        simp [hv, hm]
      case neg =>
        refine .inl ?_
        cases e
        simp only [hv, hm, if_false]
        exact ⟨⟨by simp [Pc.Failing], hr, hb⟩, by simp⟩
    case fence => cases e; exact .inl ⟨⟨by simp [Pc.Failing], hr, hb⟩, by simp⟩
    case loadRecursive =>
      refine .inl ?_
      cases e
      refine ⟨?_, by simp⟩
      constructor <;> grind [Pc.Failing]
    case loadWriterThread =>
      refine .inl ?_
      cases e
      simp only [hv, hw, if_false]
      refine ⟨?_, by simp⟩
      constructor <;> grind [Pc.Failing]
    all_goals exact hf.elim

omit [DecidableEq Tid] in
theorem Bystander.pop_ne (h : Bystander b l) {x : Loc} {v : Val Tid x} :
    (Buffering.perLocation (Val Tid)).pop b x ≠ some (v, b') := by
  simp [Buffering.perLocation, h.empty x]

end Bystander

-- The values that the lock word can have after the first decrement and `n` further calls.
def Settled (n : Nat) (v : Int) : Prop :=
  -(xLockDecr + xLockHalfDecr) - n ≤ v ∧ v ≤ xLockHalfDecr

theorem Settled.mono {n k : Nat} {v : Int} (h : Settled n v) (hn : n ≤ k) : Settled k v :=
  ⟨by have := h.1; omega, h.2⟩

-- None of them is so small that a further decrement would wrap around.
theorem int_of_bounds {v : Int} (h : -2 ^ 31 ≤ v ∧ v < 2 ^ 31) : int v = v :=
  Int.bmod_eq_of_le_mul_two (by omega) (by omega)

-- What the thread that made the first decrement makes of the lock word `m` in memory and of its buffered
-- stores `q` to it. While it compares the word with constants, it has no such stores.
def Word (w₀ : Int) (n : Nat) (m : Int) (q : List Int) : Option Pc → Prop
  | some (.decr .load) => q = [] ∧ m = w₀
  | some (.decr (.store v)) => q = [] ∧ m = w₀ ∧ v = w₀ - xLockDecr
  | some (.decr (.unlock true)) => (q = [] → Settled n m) ∧ ∀ v ∈ q, Settled n v
  | some (.redecr .compare) | some .compareZero | some .compareHalf => q = [] ∧ Settled n m
  | some (.redecr .load) => q = [] ∧ Settled n m ∧ 0 < m
  | some (.redecr (.store v)) => q = [] ∧ Settled n m ∧ Settled n v
  | some .loadDecr => q = [] ∧ Settled n m ∧ (m = 0 ∨ m = -xLockHalfDecr)
  | some (.store v) => (∀ v ∈ m :: q, Settled n v) ∧ Settled (n + 1) v
  | some (.storeFileName _) | some (.storeLine _) => ∀ v ∈ m :: q, Settled (n + 1) v
  | _ => ∀ v ∈ m :: q, Settled n v

-- The thread has made the first decrement in the call that it is in.
def Pc.Won : Pc → Prop
  | decr .load | decr (.store _) | decr (.unlock true) | set _ => True
  | storeFileName o | storeLine o => o = .decremented
  | _ => False

-- The thread is in the recursive branch.
def Pc.Recursing : Pc → Prop
  | redecr _ | compareZero | compareHalf | loadDecr | loadPred | store _ => True
  | storeFileName o | storeLine o => o = .recursed
  | _ => False

-- The thread that has made the first decrement.
structure Owner (w₀ : Int) (t : Tid) (m : Mem (Val Tid)) (b : (x : Loc) → List (Val Tid x))
    (l : Thread) : Prop where
  writer    : m .writerThread = none ∨ m .writerThread = some t
  writes    : ∀ v ∈ b .writerThread, v = some t
  mutex     : b .mutex = []
  won       : .decremented ∈ l.returned ∨ ∃ c pc, l.current = some (c, pc) ∧ pc.Won
  recursing : ∀ c pc, l.current = some (c, pc) → pc.Recursing → .decremented ∈ l.returned
  recursed  : .recursed ∈ l.returned → .decremented ∈ l.returned
  word      : Word w₀ l.returned.length (m .lockWord) (b .lockWord) (l.current.map (·.2))

section Owner

variable {w₀ : Int} {m m' : Mem (Val Tid)} {b b' : (x : Loc) → List (Val Tid x)} {l l' : Thread}
variable {t : Tid} {c : Call} {cs : List Call} {os : List Outcome}

omit [DecidableEq Tid]

-- Where its own stores to the lock word have drained, the thread reads the word from memory.
theorem view_lockWord (h : b .lockWord = []) :
    (Buffering.perLocation (Val Tid)).view m b .lockWord = m .lockWord :=
  Buffering.view_nil h

theorem view_lockWord_mem (m : Mem (Val Tid)) (b : (x : Loc) → List (Val Tid x)) :
    (Buffering.perLocation (Val Tid)).view m b .lockWord ∈ m .lockWord :: b .lockWord := by
  obtain ⟨-, h⟩ | h := Buffering.view_cases (.perLocation (Val Tid)) m b .lockWord
  case inl => rw [h]; exact List.mem_cons_self
  case inr => exact List.mem_cons_of_mem _ h

namespace Owner

section Exec

variable {pc pc' : Pc} {o : Outcome}

-- The owner gets on in its call, or returns from it, and leaves `writer_thread` alone.
theorem goto (h : Owner w₀ t m b ⟨some (c, pc), cs, os⟩) (hm : m' .writerThread = m .writerThread)
    (hs : b' .writerThread = b .writerThread) (hx : b' .mutex = b .mutex) (hw : pc.Won → pc'.Won)
    (hr : pc'.Recursing → .decremented ∈ os)
    (hv : Word w₀ os.length (m .lockWord) (b .lockWord) (some pc) →
      Word w₀ os.length (m' .lockWord) (b' .lockWord) (some pc')) :
    Owner w₀ t m' b' ⟨some (c, pc'), cs, os⟩ where
  writer := hm ▸ h.writer
  writes := hs ▸ h.writes
  mutex := hx ▸ h.mutex
  won := h.won.imp_right fun ⟨_, _, hl, hp⟩ => by cases hl; exact ⟨_, _, rfl, hw hp⟩
  recursing _ _ hl hp := by cases hl; exact hr hp
  recursed := h.recursed
  word := hv h.word

theorem leave (h : Owner w₀ t m b ⟨some (c, pc), cs, os⟩) (hm : m' .writerThread = m .writerThread)
    (hs : b' .writerThread = b .writerThread) (hx : b' .mutex = b .mutex)
    (hw : pc.Won → o = .decremented) (hr : o = .recursed → .decremented ∈ os)
    (hv : Word w₀ os.length (m .lockWord) (b .lockWord) (some pc) →
      ∀ v ∈ m' .lockWord :: b' .lockWord, Settled (os.length + 1) v) :
    Owner w₀ t m' b' ⟨none, cs, o :: os⟩ where
  writer := hm ▸ h.writer
  writes := hs ▸ h.writes
  mutex := hx ▸ h.mutex
  won := by
    obtain hd | ⟨_, _, hl, hp⟩ := h.won
    case inl => exact .inl (List.mem_cons_of_mem _ hd)
    case inr =>
      cases hl
      exact .inl (hw hp ▸ List.mem_cons_self)
  recursing _ _ hl := by cases hl
  recursed hd := by
    obtain rfl | hd := List.mem_cons.mp hd
    case inl => exact List.mem_cons_of_mem _ (hr rfl)
    case inr => exact List.mem_cons_of_mem _ (h.recursed hd)
  word := hv h.word

-- In the recursive branch the owner has made the first decrement in an earlier call.
theorem mem_of_recursing (h : Owner w₀ t m b ⟨some (c, pc), cs, os⟩) (hp : pc.Recursing) :
    .decremented ∈ os :=
  h.recursing c pc rfl hp

-- So it has in all places that the first decrement does not lead to.
theorem mem_of_not_won (h : Owner w₀ t m b ⟨some (c, pc), cs, os⟩) (hp : ¬pc.Won) :
    .decremented ∈ os := by
  obtain hd | ⟨_, _, hl, hw⟩ := h.won
  case inl => exact hd
  case inr =>
    cases hl
    exact absurd hw hp

variable [DecidableEq Tid]

theorem exec_decr {pc : DecrPc} (hw : xLockHalfDecr < w₀ ∧ w₀ ≤ xLockHalfDecr + xLockDecr)
    (h : Owner w₀ t m b ⟨some (c, .decr pc), cs, os⟩)
    (e : (program t ⟨some (c, .decr pc), cs, os⟩).exec (.perLocation (Val Tid)) .weak m b =
      some (m', b', l')) : Owner w₀ t m' b' l' := by
  have hv := h.word
  rcases pc with _ | _ | _ | v | success
  case lock =>
    obtain ⟨rfl, -, rfl, ⟨-, rfl⟩ | ⟨-, rfl⟩⟩ := exec_mutexEnter e
    all_goals exact h.goto rfl rfl rfl id False.elim id
  case compare =>
    -- The word is too small for another first decrement.
    have hc : ¬(Buffering.perLocation (Val Tid)).view m b .lockWord > xLockHalfDecr := by
      have := hv _ (view_lockWord_mem m b)
      exact not_lt.mpr this.2
    cases e
    simp only [hc, if_false]
    exact h.goto rfl rfl rfl id False.elim id
  case load =>
    obtain ⟨hq, hl⟩ := hv
    have hi : int (m .lockWord - xLockDecr) = m .lockWord - xLockDecr :=
      int_of_bounds (by grind [xLockDecr, xLockHalfDecr])
    cases e
    rw [view_lockWord hq]
    dsimp only
    rw [hi]
    exact h.goto rfl rfl rfl id False.elim fun _ => ⟨hq, hl, by rw [hl]⟩
  case store =>
    obtain ⟨hq, hl, rfl⟩ := hv
    cases e
    refine h.goto rfl rfl rfl id False.elim fun _ => ?_
    simp only [Word, Buffering.perLocation, hq, update_self, Settled]
    grind [xLockDecr, xLockHalfDecr]
  case unlock =>
    obtain ⟨rfl, he, rfl, rfl⟩ := exec_mutexExit e
    have hq : b' .lockWord = [] := he .lockWord
    cases success
    case true =>
      refine h.goto rfl rfl rfl id False.elim fun hv => ?_
      have hl : Settled os.length (m .lockWord) := hv.1 hq
      simpa [Word, hq] using hl
    case false =>
      by_cases hp : c.pass = 0
      case pos =>
        simp only [hp, if_true, Bool.false_eq_true, if_false]
        exact h.goto rfl rfl rfl id False.elim id
      case neg =>
        simp only [hp, Bool.false_eq_true, if_false]
        exact h.leave rfl rfl rfl False.elim (by simp) fun hv v hm => (hv v hm).mono (Nat.le_succ _)

theorem exec_set {pc : SetPc} (h : Owner w₀ t m b ⟨some (c, .set pc), cs, os⟩)
    (e : (program t ⟨some (c, .set pc), cs, os⟩).exec (.perLocation (Val Tid)) .weak m b =
      some (m', b', l')) : Owner w₀ t m' b' l' := by
  rcases pc with _ | _ | _ | _
  case lock =>
    obtain ⟨rfl, -, rfl, ⟨-, rfl⟩ | ⟨-, rfl⟩⟩ := exec_mutexEnter e
    all_goals exact h.goto rfl rfl rfl id False.elim id
  case storeWriterThread =>
    obtain ⟨hm, hs, hx, hf, hr, ho, hv⟩ := h
    cases e
    constructor <;> grind [Word, Pc.Won, Pc.Recursing, Buffering.perLocation]
  case storeRecursive =>
    cases e
    exact h.goto rfl rfl rfl id False.elim id
  case unlock =>
    obtain ⟨rfl, he, rfl, rfl⟩ := exec_mutexExit e
    exact h.goto rfl rfl rfl (fun _ => rfl) nofun fun hv v hm => (hv v hm).mono (Nat.le_succ _)

theorem exec_redecr {pc : DecrPc} (h : Owner w₀ t m b ⟨some (c, .redecr pc), cs, os⟩)
    (e : (program t ⟨some (c, .redecr pc), cs, os⟩).exec (.perLocation (Val Tid)) .weak m b =
      some (m', b', l')) : Owner w₀ t m' b' l' := by
  have hd := h.mem_of_recursing trivial
  have hv := h.word
  rcases pc with _ | _ | _ | v | success
  case lock =>
    obtain ⟨rfl, he, rfl, ⟨-, rfl⟩ | ⟨-, rfl⟩⟩ := exec_mutexEnter e
    case inl => exact h.goto rfl rfl rfl False.elim (fun _ => hd) id
    case inr =>
      exact h.goto rfl rfl rfl False.elim (fun _ => hd) fun hv => ⟨he .lockWord, hv _ List.mem_cons_self⟩
  case compare =>
    obtain ⟨hq, hl⟩ := hv
    cases e
    rw [view_lockWord hq]
    dsimp only
    split
    case isTrue hp => exact h.goto rfl rfl rfl False.elim (fun _ => hd) fun _ => ⟨hq, hl, hp⟩
    case isFalse =>
      refine h.goto rfl rfl rfl False.elim (fun _ => hd) fun _ => ?_
      simpa [Word, hq] using hl
  case load =>
    obtain ⟨hq, hl, hp⟩ := hv
    have hi : int (m .lockWord - xLockDecr) = m .lockWord - xLockDecr :=
      int_of_bounds (by grind [Settled, xLockDecr, xLockHalfDecr])
    cases e
    rw [view_lockWord hq]
    dsimp only
    rw [hi]
    refine h.goto rfl rfl rfl False.elim (fun _ => hd) fun _ => ⟨hq, hl, ?_⟩
    grind [Settled, xLockDecr, xLockHalfDecr]
  case store =>
    obtain ⟨hq, hl, hs⟩ := hv
    cases e
    refine h.goto rfl rfl rfl False.elim (fun _ => hd) fun _ => ?_
    simp [Word, Buffering.perLocation, hq, hl, hs]
  case unlock =>
    obtain ⟨rfl, he, rfl, rfl⟩ := exec_mutexExit e
    cases success
    case true =>
      exact h.goto rfl rfl rfl False.elim (fun _ => hd) fun hv v hm => (hv v hm).mono (Nat.le_succ _)
    case false =>
      exact h.goto rfl rfl rfl False.elim (fun _ => hd) fun hv =>
        ⟨he .lockWord, hv _ List.mem_cons_self⟩

-- Only the last of the decrements can overflow.
theorem exec (hw : xLockHalfDecr < w₀ ∧ w₀ ≤ xLockHalfDecr + xLockDecr) (h : Owner w₀ t m b l)
    (hn : ∀ c, l.current = some (c, .loadPred) →
      -2 ^ 31 < (Buffering.perLocation (Val Tid)).view m b .lockWord)
    (e : (program t l).exec (.perLocation (Val Tid)) .weak m b = some (m', b', l')) :
    Owner w₀ t m' b' l' := by
  obtain ⟨_ | ⟨c, pc⟩, cs, os⟩ := l
  case none =>
    obtain ⟨hm, hs, hx, hf, hr, ho, hv⟩ := h
    cases cs <;> cases e
    constructor <;> grind [Word, Pc.Won, Pc.Recursing]
  case some =>
    cases pc
    case decr => exact exec_decr hw h e
    case set => exact exec_set h e
    case redecr => exact exec_redecr h e
    all_goals have hv := h.word
    case fence => cases e; exact h.goto rfl rfl rfl id False.elim id
    case loadRecursive =>
      cases e
      dsimp only
      split
      case isTrue => exact h.goto rfl rfl rfl id False.elim id
      case isFalse =>
        exact h.leave rfl rfl rfl False.elim nofun fun hv v hm => (hv v hm).mono (Nat.le_succ _)
    case loadWriterThread =>
      have hd := h.mem_of_not_won id
      cases e
      dsimp only
      split
      case isTrue => exact h.goto rfl rfl rfl False.elim (fun _ => hd) id
      case isFalse =>
        exact h.leave rfl rfl rfl False.elim nofun fun hv v hm => (hv v hm).mono (Nat.le_succ _)
    case compareZero | compareHalf =>
      have hd := h.mem_of_recursing trivial
      obtain ⟨hq, hl⟩ := hv
      cases e
      rw [view_lockWord hq]
      dsimp only
      split
      all_goals
        refine h.goto rfl rfl rfl False.elim (fun _ => hd) fun _ => ?_
        simp_all [Word]
    case loadDecr =>
      have hd := h.mem_of_recursing trivial
      obtain ⟨hq, hl, hz⟩ := hv
      have hi : int (m .lockWord - xLockDecr) = m .lockWord - xLockDecr :=
        int_of_bounds (by grind [xLockDecr, xLockHalfDecr])
      cases e
      rw [view_lockWord hq]
      dsimp only
      rw [hi]
      refine h.goto rfl rfl rfl False.elim (fun _ => hd) fun _ => ?_
      grind [Word, Settled, xLockDecr, xLockHalfDecr]
    case loadPred =>
      have hd := h.mem_of_recursing trivial
      have hl : Settled os.length ((Buffering.perLocation (Val Tid)).view m b .lockWord) :=
        hv _ (view_lockWord_mem m b)
      have hi := int_of_bounds (v := (Buffering.perLocation (Val Tid)).view m b .lockWord - 1)
        (by have := hn c rfl; grind [Settled, xLockHalfDecr])
      cases e
      dsimp only
      rw [hi]
      exact h.goto rfl rfl rfl False.elim (fun _ => hd) fun hv => ⟨hv, by grind [Settled]⟩
    case store v =>
      have hd := h.mem_of_recursing trivial
      obtain ⟨hl, hs⟩ := hv
      cases e
      refine h.goto rfl rfl rfl False.elim (fun _ => hd) fun _ => ?_
      grind [Word, Buffering.perLocation, Settled]
    case storeFileName => cases e; exact h.goto rfl rfl rfl id (fun hp => h.mem_of_recursing hp) id
    case storeLine => cases e; exact h.leave rfl rfl rfl id (fun ho => h.mem_of_recursing ho) id

end Exec

-- Whether its own stores have drained does not matter.
theorem drain {x : Loc} {v : Val Tid x} (h : Owner w₀ t m b l)
    (e : (Buffering.perLocation (Val Tid)).pop b x = some (v, b')) :
    Owner w₀ t (update m x v) b' l := by
  have hb : b = update b' x (v :: b' x) := (Buffering.perLocation (Val Tid)).pending_pop e
  obtain ⟨hm, hs, hx, hf, hr, ho, hv⟩ := h
  subst hb
  cases x
  case lockWord =>
    refine ⟨hm, hs, hx, hf, hr, ho, ?_⟩
    simp only [update_self] at hv ⊢
    cases hl : l.current.map (·.2)
    case none => grind [Word]
    case some pc =>
      rw [hl] at hv
      rcases pc with (_ | _ | _ | _ | (_ | _)) | _ | _ | _ | _ | (_ | _ | _ | _ | _) | _
      all_goals grind [Word]
  case mutex => cases hx
  case writerThread =>
    refine ⟨.inr ?_, fun w hw => hs w (by simp [hw]), hx, hf, hr, ho, hv⟩
    exact hs v (by simp)
  all_goals exact ⟨hm, hs, hx, hf, hr, ho, hv⟩

-- Nor do the steps of others, which leave everything but the mutex alone.
theorem frame (h : Owner w₀ t m b l) (hm : ∀ x, x ≠ .mutex → m' x = m x) : Owner w₀ t m' b l where
  __ := h
  writer := hm .writerThread (by simp) ▸ h.writer
  word   := hm .lockWord (by simp) ▸ h.word

-- Between its sections, a second first decrement is impossible.
theorem lockWord_le (h : Owner w₀ t m b l) (hi : ¬l.Inside) : m .lockWord ≤ xLockHalfDecr := by
  obtain ⟨_ | ⟨c, pc⟩, cs, os⟩ := l
  case none => exact (h.word _ List.mem_cons_self).2
  case some =>
    replace hi : ¬pc.Inside := by simpa using hi
    have hw : Word w₀ os.length (m .lockWord) (b .lockWord) (some pc) := h.word
    have hv : m .lockWord ∈ m .lockWord :: b .lockWord := List.mem_cons_self
    rcases pc with (_ | _ | _ | _ | (_ | _)) | _ | _ | _ | _ | (_ | _ | _ | _ | _) | _
    all_goals grind [Word, Settled, Pc.Inside, DecrPc.Inside]

-- A thread that finds the lock free becomes its owner.
theorem of_bystander (hb : Bystander b l) (hw : m .lockWord = w₀) (hm : m .writerThread = none)
    (hl : l = ⟨some (c, .decr .compare), cs, os⟩) :
    Owner w₀ t m b ⟨some (c, .decr .load), cs, os⟩ := by
  subst hl
  have hs := hb.refused
  have he := hb.empty
  constructor <;> grind [Word, Pc.Won, Pc.Recursing]

end Owner
end Owner

-- The lock is free, or there is a thread that owns it, and no other call has succeeded.
inductive Ownership (w₀ : Int) (s : State Tid) : Prop
  | free (word : s.mem .lockWord = w₀) (writer : s.mem .writerThread = none)
    (bystander : ∀ u, Bystander (s.buf u) (s.threads u))
  | owned (t : Tid) (owner : Owner w₀ t s.mem (s.buf t) (s.threads t))
    (bystander : ∀ u, u ≠ t → Bystander (s.buf u) (s.threads u))

namespace Ownership

variable {w₀ : Int} {calls : Tid → List Call} {s s' : State Tid}

theorem drain {t : Tid} {x : Loc} {v : Val Tid x} {b' : (Buffering.perLocation (Val Tid)).Buf}
    (h : Ownership w₀ s) (hd : (Buffering.perLocation (Val Tid)).pop (s.buf t) x = some (v, b')) :
    Ownership w₀ (⟨update s.mem x v, update s.buf t b', s.threads⟩ : State Tid) := by
  cases h
  case free hb => exact ((hb t).pop_ne hd).elim
  case owned o ho hb =>
    by_cases ht : t = o
    case neg => exact ((hb t ht).pop_ne hd).elim
    case pos =>
      subst ht
      exact .owned t (by simpa using ho.drain hd) fun u hu => by simpa [hu] using hb u hu

-- An owner differs from the threads that cannot be told apart from it by the thread id.
theorem move {t : Tid} {m' : Mem (Val Tid)} {b' : (Buffering.perLocation (Val Tid)).Buf} {l' : Thread}
    (hw : xLockHalfDecr < w₀ ∧ w₀ ≤ xLockHalfDecr + xLockDecr)
    (hn : ∀ c, (s.threads t).current = some (c, .loadPred) →
      -2 ^ 31 < (Buffering.perLocation (Val Tid)).view s.mem (s.buf t) .lockWord)
    (hx : Machine.Mutex.Exclusive .mutex (· = true) Thread.Inside s) (h : Ownership w₀ s)
    (e : (program t (s.threads t)).exec (.perLocation (Val Tid)) .weak s.mem (s.buf t) = some (m', b', l')) :
    Ownership w₀ (⟨m', update s.buf t b', update s.threads t l'⟩ : State Tid) := by
  cases h
  case free hm ho hb =>
    obtain ⟨hb', hm'⟩ | ⟨-, -, rfl, rfl, c, cs, os, hl, rfl⟩ := (hb t).exec (by simp [ho]) e
    case inl =>
      refine .free (by simp [hm', hm]) (by simp [hm', ho]) ?_
      exact Machine.forall_update (g := s.buf) (Q := fun _ l b => Bystander b l) hb' fun u _ => hb u
    case inr =>
      refine .owned t ?_ fun u hu => by simpa [hu] using hb u
      simpa using Owner.of_bystander (hb t) hm ho hl
  case owned o ho hb =>
    by_cases ht : t = o
    case pos =>
      subst ht
      exact .owned t (by simpa using ho.exec hw hn e) fun u hu => by simpa [hu] using hb u hu
    case neg =>
      have hm : s.mem .writerThread ≠ some t := by grind [ho.writer]
      obtain ⟨hb', hm'⟩ | ⟨hl, hi, -⟩ := (hb t ht).exec hm e
      case inl =>
        refine .owned o ?_ ?_
        · simpa [Ne.symm ht] using ho.frame hm'
        · exact Machine.forall_update (g := s.buf) (Q := fun u l b => u ≠ o → Bystander b l) (fun _ => hb')
            fun u _ => hb u
      case inr =>
        exact (not_lt.mpr (ho.lockWord_le fun hi' => ht (hx.unique t o hi hi')) hl).elim

-- A bounded number of calls does not make the lock word so small that it overflows.
theorem lt_view (h : Ownership w₀ s) {t : Tid} {c : Call} (hn : (s.threads t).total < 2 ^ 30)
    (hc : (s.threads t).current = some (c, .loadPred)) :
    -2 ^ 31 < (Buffering.perLocation (Val Tid)).view s.mem (s.buf t) .lockWord := by
  have owner (ho : Owner w₀ t s.mem (s.buf t) (s.threads t)) :
      -2 ^ 31 < (Buffering.perLocation (Val Tid)).view s.mem (s.buf t) .lockWord := by
    have hv := ho.word
    rw [hc] at hv
    have hl : Settled _ _ := hv _ (view_lockWord_mem _ _)
    grind [Thread.total, Settled, xLockDecr, xLockHalfDecr]
  cases h
  case free hb => exact ((hb t).failing c _ hc).elim
  case owned o ho hb =>
    by_cases ht : t = o
    case pos => exact owner (ht ▸ ho)
    case neg => exact ((hb t ht).failing c _ hc).elim

theorem total_eq (r : (system w₀ calls).Reachable s) (t : Tid) :
    (s.threads t).total = (calls t).length := by
  refine r.invariant (I := fun s => ∀ t, (s.threads t).total = (calls t).length) ?init ?step t
  case init =>
    intro s hs
    cases hs
    simp [Thread.total]
  case step =>
    intro s a s' _ h e
    cases e
    case drain => exact h
    case move t m' b' l' e =>
      exact (forall_update_iff s.threads fun u l => l.total = (calls u).length).mpr
        ⟨(total_exec e).trans (h t), fun u _ => h u⟩

theorem reachable (hw : xLockHalfDecr < w₀ ∧ w₀ ≤ xLockHalfDecr + xLockDecr)
    (hn : ∀ t, (calls t).length < 2 ^ 30) (r : (system w₀ calls).Reachable s) : Ownership w₀ s := by
  refine r.invariant (fun s hs => ?init) fun s a s' r h e => ?step
  case init =>
    cases hs
    exact .free rfl rfl fun u => ⟨by simp, by simp, fun _ => rfl⟩
  case step =>
    cases e
    case move t _ _ _ e =>
      exact h.move hw (fun c => h.lt_view (total_eq r t ▸ hn t)) (mutex.exclusive (fun t => by simp) r) e
    case drain hd => exact h.drain hd

end Ownership

-- The thread has made a call that returned 1.
def Thread.Acquired (l : Thread) : Prop :=
  ∃ o ∈ l.returned, o.result

-- The thread is in the recursive branch, or has been there and returned 1.
def Thread.Recursive (l : Thread) : Prop :=
  .recursed ∈ l.returned ∨ ∃ c pc, l.current = some (c, pc) ∧ pc.Recursing

-- Exclusive ownership. All calls that return 1 are those of one thread, and only the thread whose first
-- decrement has succeeded gets into the recursive branch.
theorem exclusive_ownership {w₀ : Int} (hw : xLockHalfDecr < w₀ ∧ w₀ ≤ xLockHalfDecr + xLockDecr)
    {calls : Tid → List Call} (hn : ∀ t, (calls t).length < 2 ^ 30) {s : State Tid}
    (r : (system w₀ calls).Reachable s) :
    (∀ t u, (s.threads t).Acquired → (s.threads u).Acquired → t = u) ∧
    (∀ t, (s.threads t).Recursive → .decremented ∈ (s.threads t).returned) := by
  have hb {u} (h : Bystander (s.buf u) (s.threads u)) : ¬(s.threads u).Acquired ∧ ¬(s.threads u).Recursive := by
    refine ⟨fun ⟨o, ho, hr⟩ => ?_, ?_⟩
    · cases h.refused o ho
      cases hr
    · rintro (hr | ⟨c, pc, hl, hp⟩)
      · cases h.refused _ hr
      · have hf := h.failing c pc hl
        cases pc <;> first | exact hp | cases hf
  cases Ownership.reachable hw hn r
  case free hs => exact ⟨fun t _ ht => ((hb (hs t)).1 ht).elim, fun t ht => ((hb (hs t)).2 ht).elim⟩
  case owned o ho hs =>
    have ha {t} (h : (s.threads t).Acquired) : t = o := by
      by_contra ht
      exact (hb (hs t ht)).1 h
    refine ⟨fun t u ht hu => (ha ht).trans (ha hu).symm, fun t ht => ?_⟩
    by_cases hto : t = o
    case neg => exact ((hb (hs t hto)).2 ht).elim
    case pos =>
      subst hto
      obtain hr | ⟨c, pc, hl, hp⟩ := ht
      · exact ho.recursed hr
      · exact ho.recursing c pc hl hp

-- Two threads. The first one gets the lock twice, in between the second one does not get it.
def contended (t u : Tid) : List (Machine.Choice Tid Loc) :=
  let acquire : List (Machine.Choice Tid Loc) :=
    [.move t, .move t, .move t, .move t, .move t, .drain t .lockWord, .move t, .move t, .move t, .move t,
      .drain t .writerThread, .drain t .recursive, .move t, .move t, .drain t .lastXFileName, .move t,
      .drain t .lastXLine]
  let refuse : List (Machine.Choice Tid Loc) := .replicate 7 (.move u)
  let recurse : List (Machine.Choice Tid Loc) := .replicate 11 (.move t)
  List.flatten [acquire, refuse, recurse, [.drain t .lockWord, .move t, .move t, .move t]]

def contendedCalls (t : Fin 2) : List Call :=
  if t.val = 0 then [⟨0, "4-MySQL.c", 140⟩, ⟨0, "4-MySQL.c", 140⟩] else [⟨0, "4-MySQL.c", 155⟩]

theorem exclusive_ownership_contended :
    ∃ s, (system 0x30000000 contendedCalls).Reachable s ∧
      (s.threads 0).returned = [.recursed, .decremented] ∧ (s.threads 1).returned = [.refused] ∧
      (∀ t u, (s.threads t).Acquired → (s.threads u).Acquired → t = u) ∧
      (∀ t, (s.threads t).Recursive → .decremented ∈ (s.threads t).returned) := by
  have ⟨s, r, h₀, h₁⟩ := Machine.exists_reachable_of_schedule (.perLocation (Val (Fin 2))) .weak program
    (start 0x30000000) (fun t => ⟨none, contendedCalls t, []⟩) (contended (0 : Fin 2) 1)
    (p := fun s => (s.threads 0).returned = [.recursed, .decremented] ∧ (s.threads 1).returned = [.refused])
    (by decide +kernel)
  exact ⟨s, r, h₀, h₁, exclusive_ownership (by decide) (by decide) r⟩

end Mysql

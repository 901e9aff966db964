import OrderingBugs.OpenBlas.Pool
import OrderingBugs.Memory.Sequential
import Mathlib.Data.Finset.Basic
import Mathlib.Data.Nat.Find
import Mathlib.Order.Bounds.Basic

open Function

-- The pool as the set of the positions that are in use, when its functions are called one after the other.
namespace OpenBlas

inductive InitPc
  | check (i : Nat)
  | store (i : Nat)
  deriving DecidableEq

-- `init_memory`
def initMemory {L : Type} (numBuffers : Nat) (k : InitPc → L) (ret : L) : InitPc → Op Loc Val L
  | .check i => .skip (if i < numBuffers then k (.store i) else ret)
  | .store i => .store .plain (.memory i) 0 (k (.check (i + 1)))

def Initialised (numBuffers : Nat) (m : Mem Val) : Prop :=
  ∃ m₀, Sequential.Eval (initMemory numBuffers .inl (.inr ())) m₀ (.check 0) m ()

inductive Call
  | allocateMemory
  | releaseMemory (position : Int)

-- A call, and the position that it returns if it is one of `allocate_memory`.
def call (numBuffers : Nat) : Call → Mem Val → Mem Val → Option Int → Prop
  | .allocateMemory, m, m', r =>
    ∃ p, r = some p ∧ Sequential.Eval (allocateMemory numBuffers .inl .inr) m (.check 0) m' p
  | .releaseMemory p, m, m', r =>
    r = none ∧ Sequential.Eval (releaseMemory numBuffers .inl (.inr ())) m (.check p) m' ()

-- The calls that are made one after the other, on a given pool.
def history (numBuffers : Nat) (m : Mem Val) : System (Mem Val) (Call × Option Int) :=
  Sequential.system (call numBuffers) m

-- What a call makes of the set of positions that have been allocated and not been released since.
def track (out : Finset Nat) : Call × Option Int → Finset Nat
  | (.allocateMemory, some p) => if 0 ≤ p then insert p.toNat out else out
  | (.allocateMemory, none) => out
  | (.releaseMemory p, _) => if 0 ≤ p then out.erase p.toNat else out

def outstanding (ls : List (Call × Option Int)) : Finset Nat :=
  ls.foldl track ∅

-- The pool marks the positions in the set, and its functions go by it.
structure Accounts (numBuffers : Nat) (out : Finset Nat) (m : Mem Val) : Prop where
  marked   : ∀ i < numBuffers, m (.memory i) = 1 ↔ i ∈ out
  returns  : ∀ c, ∃ m' r, call numBuffers c m m' r
  least    : ∀ m' (p : Int), call numBuffers .allocateMemory m m' (some p) → p ≠ -1 →
    ∃ q : Nat, p = q ∧ IsLeast {i | i < numBuffers ∧ i ∉ out} q
  full     : ∀ m' (p : Int), call numBuffers .allocateMemory m m' (some p) → (p = -1 ↔ ∀ i < numBuffers, i ∈ out)
  keep     : ∀ m', call numBuffers .allocateMemory m m' (some (-1)) → m' = m
  outside  : ∀ (p : Int) m' r, p < 0 ∨ numBuffers ≤ p → call numBuffers (.releaseMemory p) m m' r → m' = m

variable {numBuffers : Nat} {m m' : Mem Val} {out : Finset Nat} {ls : List (Call × Option Int)}

-- The marks of the positions in the set.
structure Marks (numBuffers : Nat) (out : Finset Nat) (m : Mem Val) : Prop where
  mem : ∀ i < numBuffers, m (.memory i) = if i ∈ out then 1 else 0
  lt  : ∀ i ∈ out, i < numBuffers

section Scan

variable {p q : Nat}

-- The scan passes over what is marked.
theorem eval_load {r : Int} (hp : p < numBuffers) (hm : m (.memory p) ≠ 0)
    (h : Sequential.Eval (allocateMemory numBuffers .inl .inr) m (.check (p + 1)) m' r) :
    Sequential.Eval (allocateMemory numBuffers .inl .inr) m (.check p) m' r := by
  refine .step (n := m) (q := .load p) ?_ (.step (n := m) (q := .check (p + 1)) ?_ h)
  · simp [allocateMemory, Op.interleave, hp]
  · simp [allocateMemory, Op.interleave, hm]

theorem eval_of_least (hq : q < numBuffers) (hm : m (.memory q) = 0) (hp : p ≤ q)
    (hn : ∀ i, p ≤ i → i < q → m (.memory i) ≠ 0) :
    Sequential.Eval (allocateMemory numBuffers .inl .inr) m (.check p) (update m (.memory q) 1) (q : Int) := by
  induction hd : q - p generalizing p
  case zero =>
    obtain rfl : p = q := by omega
    refine .step (n := m) (q := .load p) ?_ (.step (n := m) (q := .store p) ?_ (.ret rfl))
    · simp [allocateMemory, Op.interleave, hq]
    · simp [allocateMemory, Op.interleave, hm]
  case succ hi =>
    exact eval_load (by omega) (hn p le_rfl (by omega)) (hi (by omega) (fun i h => hn i (by omega)) (by omega))

theorem eval_of_full (hp : p ≤ numBuffers) (hn : ∀ i, p ≤ i → i < numBuffers → m (.memory i) ≠ 0) :
    Sequential.Eval (allocateMemory numBuffers .inl .inr) m (.check p) m (-1 : Int) := by
  induction hd : numBuffers - p generalizing p
  case zero => exact .ret (by simp [allocateMemory, Op.interleave, show ¬p < numBuffers by omega])
  case succ hi =>
    exact eval_load (by omega) (hn p le_rfl (by omega)) (hi (by omega) (fun i h => hn i (by omega)) (by omega))

end Scan

theorem call_unique {c : Call} {m₁ m₂ : Mem Val} {r₁ r₂ : Option Int} (h₁ : call numBuffers c m m₁ r₁)
    (h₂ : call numBuffers c m m₂ r₂) : m₁ = m₂ ∧ r₁ = r₂ := by
  cases c
  case allocateMemory =>
    obtain ⟨_, rfl, h₁⟩ := h₁
    obtain ⟨_, rfl, h₂⟩ := h₂
    exact (h₁.unique h₂).imp_right (congrArg some)
  case releaseMemory =>
    obtain ⟨rfl, h₁⟩ := h₁
    obtain ⟨rfl, h₂⟩ := h₂
    exact ⟨(h₁.unique h₂).1, rfl⟩

theorem call_release_of_outside {p : Int} (hp : p < 0 ∨ numBuffers ≤ p) :
    call numBuffers (.releaseMemory p) m m none :=
  ⟨rfl, .ret (by simp [releaseMemory, Op.interleave, hp])⟩

theorem call_release_of_lt {p : Nat} (hp : p < numBuffers) :
    call numBuffers (.releaseMemory p) m (update m (.memory p) 0) none := by
  refine ⟨rfl, .step (n := m) (q := .fence p) ?_ (.step rfl (.ret rfl))⟩
  simp [releaseMemory, Op.interleave, hp]

namespace Marks

theorem eq_one_iff (h : Marks numBuffers out m) {i : Nat} (hi : i < numBuffers) :
    m (.memory i) = 1 ↔ i ∈ out := by
  simp [h.mem i hi]

theorem eq_zero_iff (h : Marks numBuffers out m) {i : Nat} (hi : i < numBuffers) :
    m (.memory i) = 0 ↔ i ∉ out := by
  simp [h.mem i hi]

-- A call of `allocate_memory` finds the least position that is not in use, or none if there is none.
theorem allocate (h : Marks numBuffers out m) :
    (∃ q : Nat, IsLeast {i | i < numBuffers ∧ i ∉ out} q ∧
      call numBuffers .allocateMemory m (update m (.memory q) 1) (some q)) ∨
    ((∀ i < numBuffers, i ∈ out) ∧ call numBuffers .allocateMemory m m (some (-1))) := by
  by_cases hf : ∃ i, i < numBuffers ∧ i ∉ out
  case neg =>
    replace hf (i) (hi : i < numBuffers) : i ∈ out := by
      by_contra ho
      exact hf ⟨i, hi, ho⟩
    refine .inr ⟨hf, _, rfl, eval_of_full (Nat.zero_le _) fun i _ hi => ?_⟩
    simpa [h.eq_zero_iff hi] using hf i hi
  case pos =>
    classical
    have ⟨hq, ho⟩ := Nat.find_spec hf
    refine .inl ⟨Nat.find hf, ⟨⟨hq, ho⟩, fun i hi => Nat.find_min' hf hi⟩, _, rfl, ?_⟩
    refine eval_of_least hq ((h.eq_zero_iff hq).mpr ho) (Nat.zero_le _) fun i _ hi => ?_
    have hn := Nat.find_min hf hi
    rw [ne_eq, h.eq_zero_iff (hi.trans hq)]
    exact fun ho => hn ⟨hi.trans hq, ho⟩

theorem insert {q : Nat} (h : Marks numBuffers out m) (hq : q < numBuffers) :
    Marks numBuffers (insert q out) (update m (.memory q) 1) where
  mem i hi := by
    by_cases hiq : i = q
    case pos => simp [hiq]
    case neg => simpa [hiq] using h.mem i hi
  lt i hi := by
    obtain rfl | hi := Finset.mem_insert.mp hi
    · exact hq
    · exact h.lt i hi

theorem erase {q : Nat} (h : Marks numBuffers out m) :
    Marks numBuffers (out.erase q) (update m (.memory q) 0) where
  mem i hi := by
    by_cases hiq : i = q
    case pos => simp [hiq]
    case neg => simpa [hiq] using h.mem i hi
  lt i hi := h.lt i (Finset.mem_of_mem_erase hi)

-- What is out of range is not in use.
theorem erase_of_outside {q : Nat} (h : Marks numBuffers out m) (hq : numBuffers ≤ q) :
    out.erase q = out :=
  Finset.erase_eq_of_notMem fun hi => absurd (h.lt q hi) (not_lt.mpr hq)

-- Each call returns, and the marks account for it.
theorem exists_call (h : Marks numBuffers out m) (c : Call) :
    ∃ m' r, call numBuffers c m m' r ∧ Marks numBuffers (track out (c, r)) m' := by
  cases c
  case allocateMemory =>
    obtain ⟨q, ⟨⟨hq, -⟩, -⟩, hc⟩ | ⟨-, hc⟩ := h.allocate
    · exact ⟨_, _, hc, by simpa [track] using h.insert hq⟩
    · exact ⟨_, _, hc, h⟩
  case releaseMemory p =>
    by_cases hp : p < 0 ∨ numBuffers ≤ p
    case pos =>
      refine ⟨_, _, call_release_of_outside hp, ?_⟩
      by_cases h0 : 0 ≤ p
      case pos => simpa [track, h0, h.erase_of_outside (q := p.toNat) (by omega)] using h
      case neg => simpa [track, h0] using h
    case neg =>
      obtain ⟨q, rfl⟩ := Int.eq_ofNat_of_zero_le (show 0 ≤ p by omega)
      exact ⟨_, _, call_release_of_lt (by omega), by simpa [track] using h.erase⟩

theorem call {c : Call} {r : Option Int} (h : Marks numBuffers out m) (hc : call numBuffers c m m' r) :
    Marks numBuffers (track out (c, r)) m' := by
  obtain ⟨_, _, hc', h'⟩ := h.exists_call c
  obtain ⟨rfl, rfl⟩ := call_unique hc hc'
  exact h'

theorem accounts (h : Marks numBuffers out m) : Accounts numBuffers out m where
  marked i := h.eq_one_iff
  returns c :=
    have ⟨m', r, hc, _⟩ := h.exists_call c
    ⟨m', r, hc⟩
  least m' p hc hp := by
    obtain ⟨q, hq, hc'⟩ | ⟨-, hc'⟩ := h.allocate
    case inl => exact ⟨q, Option.some.inj (call_unique hc hc').2, hq⟩
    case inr => exact absurd (Option.some.inj (call_unique hc hc').2) hp
  full m' p hc := by
    obtain ⟨q, ⟨⟨hq, ho⟩, -⟩, hc'⟩ | ⟨hf, hc'⟩ := h.allocate
    all_goals obtain rfl := Option.some.inj (call_unique hc hc').2
    case inl => exact ⟨fun hn => by omega, fun hf => absurd (hf q hq) ho⟩
    case inr => exact ⟨fun _ => hf, fun _ => rfl⟩
  keep m' hc := by
    obtain ⟨q, -, hc'⟩ | ⟨-, hc'⟩ := h.allocate
    case inl => exact absurd (Option.some.inj (call_unique hc hc').2) (by omega)
    case inr => exact (call_unique hc hc').1
  outside p m' r hp hc := (call_unique hc (call_release_of_outside hp)).1

end Marks

theorem exists_initialised (m : Mem Val) {i : Nat} (hi : i ≤ numBuffers) :
    ∃ m', Sequential.Eval (initMemory numBuffers .inl (.inr ())) m (.check i) m' () ∧
      (∀ j < i, m' (.memory j) = m (.memory j)) ∧ ∀ j, i ≤ j → j < numBuffers → m' (.memory j) = 0 := by
  induction hd : numBuffers - i generalizing i m
  case zero =>
    refine ⟨m, .ret ?_, fun _ _ => rfl, fun j _ _ => by omega⟩
    simp [initMemory, Op.interleave, show ¬i < numBuffers by omega]
  case succ h =>
    obtain ⟨m', e, hl, hg⟩ := h (update m (.memory i) 0) (i := i + 1) (by omega) (by omega)
    refine ⟨m', .step (n := m) (q := .store i) ?_ (.step rfl e), fun j hj => ?_, fun j hj hn => ?_⟩
    · simp [initMemory, Op.interleave, show i < numBuffers by omega]
    · simpa [show j ≠ i by omega] using hl j (by omega)
    · by_cases hji : j = i
      case pos => subst hji; simpa using hl j (by omega)
      case neg => exact hg j (by omega) hn

theorem Marks.init (h : Initialised numBuffers m) : Marks numBuffers ∅ m := by
  obtain ⟨m₀, h⟩ := h
  obtain ⟨_, h', -, hm⟩ := exists_initialised m₀ (Nat.zero_le numBuffers)
  obtain ⟨rfl, -⟩ := h.unique h'
  exact ⟨fun i hi => by simpa using hm i (Nat.zero_le _) hi, by simp⟩

-- After any calls, the pool is the set of the positions that are outstanding.
theorem accounts_of_run (numBuffers : Nat) (m : Mem Val) (hi : Initialised numBuffers m)
    (ls : List (Call × Option Int)) (m' : Mem Val) (r : (history numBuffers m).Run ls m') :
    Accounts numBuffers (outstanding ls) m' := by
  suffices Marks numBuffers (outstanding ls) m' from this.accounts
  refine r.invariant (I := fun ls m => Marks numBuffers (outstanding ls) m) (fun m hm => ?init)
    fun ls m l m' _ h e => ?step
  case init => cases hm; exact .init hi
  case step => simpa [outstanding] using h.call e

-- Of two positions that have been allocated, the first one is given back.
theorem accounts_of_run_hole : ∃ m m', Initialised 2 m ∧
    (history 2 m).Run [(.allocateMemory, some 0), (.allocateMemory, some 1), (.releaseMemory 0, none)] m' ∧
    Accounts 2 {1} m' := by
  let m : Mem Val := update (update start (.memory 0) 0) (.memory 1) 0
  have hi : Initialised 2 m := ⟨start, .step rfl (.step rfl (.step rfl (.step rfl (.ret rfl))))⟩
  let m₁ : Mem Val := update m (.memory 0) 1
  let m₂ : Mem Val := update m₁ (.memory 1) 1
  have h₁ : call 2 .allocateMemory m m₁ (some 0) := ⟨0, rfl, .step rfl (.step rfl (.ret rfl))⟩
  have h₂ : call 2 .allocateMemory m₁ m₂ (some 1) :=
    ⟨1, rfl, .step rfl (.step rfl (.step rfl (.step rfl (.ret rfl))))⟩
  have h₃ : call 2 (.releaseMemory 0) m₂ _ none := ⟨rfl, .step rfl (.step rfl (.ret rfl))⟩
  have r : (history 2 m).Run [] m := .init rfl
  replace r := r.step (l := (Call.allocateMemory, some 0)) h₁
  replace r := r.step (l := (Call.allocateMemory, some 1)) h₂
  replace r := r.step (l := (Call.releaseMemory 0, none)) h₃
  exact ⟨_, _, hi, r, accounts_of_run 2 _ hi _ _ r⟩

end OpenBlas

import OrderingBugs.Memory.Message
import OrderingBugs.Verdict.Cbmc

open Function

-- The verdicts of `run_cbmc.sh` on the tests in which one thread publishes something and another one looks
-- at it.
namespace Cbmc

variable {Tid Loc L : Type} [DecidableEq Tid] [DecidableEq Loc] [Fintype Loc] {Val : Loc → Type}

variable {Obs : Type} [DecidableEq Obs] {out : MemoryModel → Output}

section Message

variable [Nonempty Obs] (M : Message Loc Val)

-- The summary for a message: a fence helps exactly if a part of the payload can be missed.
theorem message_summary (h : Judges out (M.publication Obs).test) :
    (summary out = .logicBug ↔ (M.look M.set).fails M.final = true) ∧
    (summary out = .wmmBug ↔ (M.look M.set).fails M.final = false ∧ M.fenced = false ∧
      ∃ m, M.Torn m ∧ (M.look M.set).fails m = true) ∧
    (summary out = .noBug ↔ (M.look M.set).fails M.final = false ∧
      (M.fenced = true ∨ ∀ m, M.Torn m → (M.look M.set).fails m = false)) := by
  have ht : Fails (M.publication Obs).test .tso ↔ (M.look M.set).fails M.final = true :=
    Message.violates_fifo_iff
  have hp : Fails (M.publication Obs).test .pso ↔ _ := Message.violates_perLocation_iff
  rw [h.summary_eq_logicBug_iff, h.summary_eq_wmmBug_iff, h.summary_eq_noBug_iff, hp, ht]
  refine ⟨Iff.rfl, ?_, ?_⟩
  · cases hf : M.fenced <;> simp
  · cases hf : M.fenced
    case true => simp
    case false =>
      simp only [Bool.false_eq_true, if_false, not_exists, not_and, Bool.not_eq_true, false_or]
      exact ⟨fun h => ⟨h _ M.torn_final, h⟩, And.right⟩

end Message

-- An observer that fails on what some of the instructions leave in memory does so without any reordering.
theorem summary_eq_logicBug_of_prefix (P : Publication Loc Val Obs) (i : Obs)
    (is js : List (Publication.Instr Loc Val)) (hc : P.code = is ++ js)
    (hf : (P.observers i).fails (Publication.publish P.mem is) = true) (h : Judges out P.test) :
    summary out = .logicBug := by
  rw [h.summary_eq_logicBug_iff]
  refine (Publication.violates_iff .fifo .flushing P).mpr ⟨i, ?_⟩
  rw [hc]
  exact .of_publish (fun _ => rfl) (.of_fails hf)

end Cbmc

-- The tests with a single payload.
inductive Probe.Var
  | payload
  | signal
  deriving DecidableEq

namespace Probe

instance : Fintype Var where
  elems := {.payload, .signal}
  complete x := by cases x <;> decide

abbrev Val : Var → Type := fun _ => Int

end Probe

-- The values that the variables start with and that the publisher stores, and the tests of the observer. An
-- eager observer reads both variables before it looks at the values.
structure Probe where
  old        : Int
  new        : Int
  idle       : Int
  set        : Int
  signalLast : Bool := true
  fenced     : Bool := false
  eager      : Bool := false
  guard      : Int → Bool := (· == set)
  check      : Int → Bool := (· == new)
  quiet      : guard idle = false := by decide

namespace Probe

open Publication Cbmc

variable (p : Probe)

def start : Mem Val
  | .payload => p.old
  | .signal => p.idle

def storePayload : Instr Var Val :=
  .store .plain .payload p.new

def storeSignal : Instr Var Val :=
  .store .plain .signal p.set

def fence : List (Instr Var Val) :=
  if p.fenced then [.fence .seqCst] else []

def code : List (Instr Var Val) :=
  if p.signalLast then [p.storePayload] ++ p.fence ++ [p.storeSignal]
  else [p.storeSignal] ++ p.fence ++ [p.storePayload]

def look (s : Int) : Observer Var Val :=
  if p.eager then .load .plain .payload fun v => if p.guard s then .assert (p.check v) else .done
  else if p.guard s then .load .plain .payload fun v => .assert (p.check v)
  else .done

def publication (Obs : Type) : Publication Var Val Obs where
  code := p.code
  observers _ := .load .plain .signal p.look
  mem := p.start

-- What the script has to conclude.
def expected : Conclusion :=
  if p.signalLast then
    if p.guard p.set && !p.check p.new then .logicBug
    else if !p.fenced && p.guard p.set && !p.check p.old then .wmmBug
    else .noBug
  else if p.guard p.set && !(p.check p.old && p.check p.new) then .logicBug
  else .noBug

variable {p}

theorem fails_look {s : Int} {m : Mem Val} :
    (p.look s).fails m = (p.guard s && !p.check (m .payload)) := by
  cases he : p.eager <;> cases hg : p.guard s <;> simp [look, he, hg, Observer.fails]

theorem silent_look : (p.look p.idle).Silent := by
  cases he : p.eager <;> simp [look, he, p.quiet, Observer.Silent]

theorem once_look : (Observer.load .plain .signal p.look : Observer Var Val).Once := by
  intro s
  cases he : p.eager <;> cases hg : p.guard s <;> simp [look, he, hg, Observer.Loads, Observer.Once]

-- With its signal last, the test is a message.
def message (p : Probe) : Message Var Val where
  mem := p.start
  payload := [⟨.payload, p.new⟩]
  fenced := p.fenced
  signal := .signal
  set := p.set
  look := p.look
  distinct := by simp
  others := by simp
  silent := silent_look
  once := once_look

theorem publication_eq_message (hs : p.signalLast = true) {Obs : Type} :
    p.publication Obs = p.message.publication Obs := by
  simp only [publication, Message.publication, code, hs, if_true]
  rfl

theorem final_payload : p.message.final .payload = p.new :=
  Message.final_of_mem (M := p.message) (e := ⟨.payload, p.new⟩) (by simp [message])

-- Both variables stored to.
def stored (p : Probe) : Mem Val
  | .payload => p.new
  | .signal => p.set

theorem exists_torn_iff :
    (∃ m, p.message.Torn m ∧ (p.look p.set).fails m = true) ↔
      p.guard p.set = true ∧ (p.check p.old = false ∨ p.check p.new = false) where
  mp := by
    rintro ⟨m, ⟨-, hm⟩, hf⟩
    simp only [fails_look, Bool.and_eq_true, Bool.not_eq_true'] at hf
    refine ⟨hf.1, (hm .payload).imp (fun h => ?_) fun h => ?_⟩
    · exact (congrArg p.check h).symm.trans hf.2
    · exact (congrArg p.check (h.trans final_payload)).symm.trans hf.2
  mpr := by
    rintro ⟨hg, hc⟩
    have ht (v : Int) (hv : v = p.old ∨ v = p.new) : p.message.Torn (update p.message.final .payload v) := by
      refine ⟨Message.final_signal (M := p.message), fun x => ?_⟩
      cases x
      case signal => exact .inr rfl
      case payload => exact hv.imp id (·.trans final_payload.symm)
    rcases hc with hc | hc
    · exact ⟨_, ht p.old (.inl rfl), by simp [fails_look, hg, hc]⟩
    · exact ⟨_, ht p.new (.inr rfl), by simp [fails_look, hg, hc]⟩

variable {Obs : Type} [DecidableEq Obs] [Nonempty Obs] {out : MemoryModel → Output}

theorem fails_of_signalLast (hs : p.signalLast = true) {mm : MemoryModel} :
    Fails (p.publication Obs).test mm ↔ p.guard p.set = true ∧
      (p.check p.new = false ∨ mm = .pso ∧ p.fenced = false ∧ p.check p.old = false) := by
  rw [publication_eq_message hs]
  have hf : (p.look p.set).fails p.message.final = true ↔ p.guard p.set = true ∧ p.check p.new = false := by
    simp [fails_look, final_payload]
  cases mm
  case tso => exact Message.violates_fifo_iff.trans (hf.trans (by simp))
  case pso =>
    refine Message.violates_perLocation_iff.trans ?_
    change (if p.fenced then (p.look p.set).fails p.message.final = true
      else ∃ m, p.message.Torn m ∧ (p.look p.set).fails m = true) ↔ _
    rw [hf, exists_torn_iff]
    cases p.fenced <;> simp [or_comm]

theorem publish_fence {m : Mem Val} : publish m p.fence = m := by
  unfold fence
  split <;> rfl

theorem eq_stored {o : Order} {x : Var} {v : Val x} (h : .store o x v ∈ p.code) : v = p.stored x := by
  have hf : .store o x v ∉ p.fence := by
    unfold fence
    split <;> simp
  have h' : .store o x v = p.storePayload ∨ .store o x v = p.storeSignal := by
    simp only [code] at h
    split at h <;> simp [hf] at h <;> grind
  rcases h' with h' | h' <;> cases h' <;> rfl

-- With its signal first, the observer can miss the payload without any reordering.
theorem fails_of_signalFirst (hs : p.signalLast = false) {mm : MemoryModel} :
    Fails (p.publication Obs).test mm ↔
      p.guard p.set = true ∧ (p.check p.old = false ∨ p.check p.new = false) where
  mp h := by
    have h : Fails (p.publication Obs).test .pso := by
      cases mm
      case tso => exact Test.Violates.perLocation h
      case pso => exact h
    obtain ⟨i, h⟩ := (Publication.violates_iff .perLocation .flushing _).mp h
    obtain ⟨m, hm, hf⟩ := Message.exists_fails_of_mayFail (M := p.message) (n := p.stored) h once_look
      (fun _ => .inl rfl) fun _ _ _ => eq_stored
    change (p.look (m .signal)).fails m = true at hf
    simp only [fails_look, Bool.and_eq_true, Bool.not_eq_true'] at hf
    have hg : p.guard p.set = true := by
      obtain hm | hm := hm .signal
      · exact absurd ((congrArg p.guard hm).symm.trans hf.1) (by simp [message, start, p.quiet])
      · exact (congrArg p.guard hm).symm.trans hf.1
    exact ⟨hg, (hm .payload).imp (fun h => (congrArg p.check h).symm.trans hf.2)
      fun h => (congrArg p.check h).symm.trans hf.2⟩
  mpr := by
    rintro ⟨hg, hc⟩
    have ht : Fails (p.publication Obs).test .tso := by
      refine (Publication.violates_iff .fifo .flushing _).mpr ⟨Classical.arbitrary Obs, ?_⟩
      have hcode : (p.publication Obs).code = [p.storeSignal] ++ (p.fence ++ [p.storePayload]) := by
        simp [publication, code, hs]
      rw [hcode]
      refine .of_publish (fun _ => rfl) ?_
      rcases hc with hc | hc
      · refine .of_fails ?_
        simp [publication, Observer.fails, fails_look, storeSignal, Instr.apply, start, hg, hc]
      · rw [← List.append_nil (p.fence ++ _)]
        refine .of_publish (fun _ => rfl) (.of_fails ?_)
        simp [publication, Observer.fails, fails_look, storeSignal, storePayload, Instr.apply,
          publish_fence, hg, hc]
    cases mm
    case tso => exact ht
    case pso => exact Test.Violates.perLocation ht

theorem summary_eq_expected (h : Judges out (p.publication Obs).test) : summary out = p.expected := by
  cases hs : p.signalLast
  case true =>
    have hf (mm) : Fails (p.publication Obs).test mm ↔ _ := fails_of_signalLast hs
    rcases h.summary_cases with h | h | h <;> simp only [hf] at h
    all_goals simp [expected, hs]
    all_goals grind
  case false =>
    have hf (mm) : Fails (p.publication Obs).test mm ↔ _ := fails_of_signalFirst hs
    rcases h.summary_cases with h | h | h <;> simp only [hf] at h
    all_goals simp [expected, hs]
    all_goals grind

end Probe

import OrderingBugs.Memory.Sequential

open Function

-- The event channels of Xen (`9-CVE-2020-25603-Xen.c`). What is printed is left out.
namespace Xen.EventChannels

-- The fields of the global `d`
inductive Loc
  | maxEvtchnPort
  | validEvtchns
  | evtchn
  deriving DecidableEq

abbrev EvtchnPort :=
  BitVec 32

abbrev Val : Loc → Type
  | .maxEvtchnPort | .validEvtchns => EvtchnPort
  | .evtchn => Int

-- `UINT_MAX`, as the program defines it
def uintMax : EvtchnPort := 100

inductive Pc
  | checkMax
  | checkValid
  | loadEvtchn
  | storeEvtchn
  | loadValid
  | storeValid (v : EvtchnPort)
  deriving DecidableEq

-- `evtchn_allocate_port`
def evtchnAllocatePort {L : Type} (port : EvtchnPort) (k : Pc → L) (ret : Int → L) : Pc → Op Loc Val L
  | .checkMax => .load .plain .maxEvtchnPort fun v => if port > v then ret (-1) else k .checkValid
  | .checkValid => .load .plain .validEvtchns fun v => if port < v then k .loadEvtchn else k .storeEvtchn
  | .loadEvtchn => .load .plain .evtchn fun v => if v = 0 then ret (-2) else ret 0
  | .storeEvtchn => .store .plain .evtchn 1 (k .loadValid)
  | .loadValid => .load .plain .validEvtchns fun v => k (.storeValid v)
  | .storeValid v => .store .plain .validEvtchns (v + 1) (ret 0)

-- `port_is_valid`
def portIsValid (m : Mem Val) (p : EvtchnPort) : Prop :=
  p < m .validEvtchns

instance {m : Mem Val} {p : EvtchnPort} : Decidable (portIsValid m p) :=
  inferInstanceAs (Decidable (p < m .validEvtchns))

-- `init_domain`
def initDomain : Mem Val
  | .maxEvtchnPort => uintMax
  | .validEvtchns => (5 : EvtchnPort)
  | .evtchn => (-1 : Int)

-- A call, and the calls that are made one after the other on the domain.
def call (port : EvtchnPort) (m m' : Mem Val) (result : Int) : Prop :=
  Sequential.Eval (evtchnAllocatePort port .inl .inr) m .checkMax m' result

def history : System (Mem Val) (EvtchnPort × Int) :=
  Sequential.system call initDomain

-- What the result of a call means: the port is valid after a success, and nothing changes with a failure.
structure Sound (port : EvtchnPort) (m m' : Mem Val) (result : Int) : Prop where
  success : result = 0 → port ≤ m' .maxEvtchnPort ∧ portIsValid m' port ∧ m' .evtchn ≠ 0
  failure : result < 0 → m' = m
  bounded : m' .validEvtchns ≤ m' .maxEvtchnPort + 1

-- The domain after a call that has extended the range of valid ports.
def extend (m : Mem Val) : Mem Val :=
  update (update m .evtchn 1) .validEvtchns (m .validEvtchns + 1)

-- What a call makes of the domain, and its result.
inductive Outcome (port : EvtchnPort) (m : Mem Val) : Mem Val → Int → Prop
  | refused : m .maxEvtchnPort < port → Outcome port m m (-1)
  | unused : port ≤ m .maxEvtchnPort → portIsValid m port → m .evtchn = 0 → Outcome port m m (-2)
  | valid : port ≤ m .maxEvtchnPort → portIsValid m port → m .evtchn ≠ 0 → Outcome port m m 0
  | extended : port ≤ m .maxEvtchnPort → ¬portIsValid m port → Outcome port m (extend m) 0

variable {port : EvtchnPort} {m m' : Mem Val} {result : Int}

theorem Outcome.call (h : Outcome port m m' result) : call port m m' result := by
  have checkMax (hp : port ≤ m .maxEvtchnPort) :
      (evtchnAllocatePort (L := Pc ⊕ Int) port .inl .inr .checkMax).interleave m =
        some (m, .inl .checkValid) := by
    simp [evtchnAllocatePort, Op.interleave, BitVec.not_lt.mpr hp]
  cases h
  case refused h => exact .ret (by simp [evtchnAllocatePort, Op.interleave, h])
  case unused hp hv he | valid hp hv he =>
    rw [portIsValid] at hv
    refine .step (checkMax hp) (.step (n := m) (q := .loadEvtchn) ?_ (.ret ?_))
    · simp [evtchnAllocatePort, Op.interleave, hv]
    · simp [evtchnAllocatePort, Op.interleave, he]
  case extended hp hv =>
    rw [portIsValid] at hv
    refine .step (checkMax hp) (.step (n := m) (q := .storeEvtchn) ?_ (.step rfl (.step rfl (.ret ?_))))
    · simp only [evtchnAllocatePort, Op.interleave, if_neg hv]
    · simp [evtchnAllocatePort, Op.interleave, extend]

theorem exists_outcome (port : EvtchnPort) (m : Mem Val) : ∃ m' result, Outcome port m m' result := by
  by_cases hp : m .maxEvtchnPort < port
  case pos => exact ⟨_, _, .refused hp⟩
  case neg =>
    rw [BitVec.not_lt] at hp
    by_cases hv : portIsValid m port
    case neg => exact ⟨_, _, .extended hp hv⟩
    case pos =>
      by_cases he : m .evtchn = 0
      case pos => exact ⟨_, _, .unused hp hv he⟩
      case neg => exact ⟨_, _, .valid hp hv he⟩

theorem call_iff : call port m m' result ↔ Outcome port m m' result := by
  refine ⟨fun h => ?_, Outcome.call⟩
  obtain ⟨_, _, ho⟩ := exists_outcome port m
  obtain ⟨rfl, rfl⟩ := h.unique ho.call
  exact ho

-- The range of valid ports only grows up to the last port, and the state of the channels is set.
structure Ranged (m : Mem Val) : Prop where
  max   : m .maxEvtchnPort = uintMax
  valid : m .validEvtchns ≤ uintMax + 1
  state : m .evtchn ≠ 0

namespace Ranged

theorem outcome (h : Ranged m) (ho : Outcome port m m' result) : Ranged m' := by
  cases ho
  case refused | unused | valid => exact h
  case extended hp hv =>
    have hm := h.max
    refine ⟨by simpa [extend] using h.max, ?_, by simp [extend]⟩
    simp only [extend, update_self, portIsValid, uintMax] at hp hv hm ⊢
    rw [hm] at hp
    bv_omega

theorem of_reachable (r : history.Reachable m) : Ranged m := by
  refine r.invariant (fun m hm => ?init) fun m l m' _ h e => h.outcome (call_iff.mp e)
  case init =>
    cases hm
    exact ⟨rfl, by decide, by decide⟩

-- A success is sound if the port is valid already, or becomes valid because it is the next one.
theorem sound_iff (h : Ranged m) (ho : Outcome port m m' result) :
    Sound port m m' result ↔ (port ≤ m .maxEvtchnPort → port ≤ m .validEvtchns) := by
  have hb : m' .validEvtchns ≤ m' .maxEvtchnPort + 1 := by
    have h' := h.outcome ho
    exact h'.max ▸ h'.valid
  cases ho
  case refused hp => exact ⟨fun _ hn => absurd hn (BitVec.not_le.mpr hp), fun _ => ⟨by simp, by simp, hb⟩⟩
  case unused he => exact absurd he h.state
  case valid hp hv he =>
    exact ⟨fun _ _ => BitVec.le_of_lt hv, fun _ => ⟨fun _ => ⟨hp, hv, he⟩, by simp, hb⟩⟩
  case extended hp hv =>
    have hm := h.valid
    simp only [portIsValid, uintMax] at hv hm
    refine ⟨fun hs _ => ?_, fun hn =>
      ⟨fun _ => ⟨by simpa [extend] using hp, ?_, by simp [extend]⟩, by simp, hb⟩⟩
    · have := (hs.success rfl).2.1
      simp only [extend, portIsValid, update_self] at this
      bv_omega
    · have := hn hp
      simp only [extend, portIsValid, update_self]
      bv_omega

end Ranged

-- A call keeps its promise unless it asks for a port that is further away than the next one.
theorem sound_iff_le (ls : List (EvtchnPort × Int)) (m : Mem Val) (r : history.Run ls m)
    (port : EvtchnPort) : (∃ m' result, call port m m' result ∧ Sound port m m' result) ↔
      (port ≤ m .maxEvtchnPort → port ≤ m .validEvtchns) := by
  have h := Ranged.of_reachable r.reachable
  refine ⟨fun ⟨m', result, hc, hs⟩ => (h.sound_iff (call_iff.mp hc)).mp hs, fun hp => ?_⟩
  obtain ⟨m', result, ho⟩ := exists_outcome port m
  exact ⟨m', result, ho.call, (h.sound_iff ho).mpr hp⟩

-- The port of the second thread of `main`, asked for at first, is still not valid, and is valid at the
-- second call for it.
theorem sound_iff_le_six : ∃ m, history.Run [(6, 0)] m ∧
    ((∃ m' result, call 6 m m' result ∧ Sound 6 m m' result) ↔
      (6 ≤ m .maxEvtchnPort → 6 ≤ m .validEvtchns)) := by
  have r : history.Run [(6, 0)] (extend initDomain) :=
    (System.Run.init rfl).step (Outcome.extended (by decide) (by decide)).call
  exact ⟨_, r, sound_iff_le _ _ r 6⟩

theorem not_sound : ¬∀ ls m, history.Run ls m → ∀ port,
    ∃ m' result, call port m m' result ∧ Sound port m m' result := by
  intro h
  obtain ⟨m', result, hc, hs⟩ := h [] initDomain (.init rfl) 6
  have ho : Outcome 6 initDomain (extend initDomain) 0 := .extended (by decide) (by decide)
  obtain ⟨rfl, rfl⟩ := hc.unique ho.call
  exact absurd (hs.success rfl).2.1 (by decide)

end Xen.EventChannels

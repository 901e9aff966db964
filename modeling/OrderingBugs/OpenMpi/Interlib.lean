import OrderingBugs.Memory.Log
import OrderingBugs.Memory.Solo
import OrderingBugs.Memory.Test

open Function

-- The registration of `6-ompi.c`: one thread waits until the callback of another one has run. The version that
-- is made for CBMC starts with another status, and asserts what the function returns.
namespace OpenMpi.Interlib

inductive Tid
  | declare
  | callback
  deriving DecidableEq

inductive Loc
  | active
  | status
  deriving DecidableEq

open Tid Loc

instance : Fintype Loc where
  elems := {active, status}
  complete x := by cases x <;> decide

abbrev Val : Loc → Type
  | active => Bool
  | status => Int

def opalSuccess : Int := 0
def opalError : Int := -1

inductive Pc
  | storeActive
  | loadActive
  | loadStatus
  | returned (result : Int)
  | storeStatus
  | storeInactive
  | done
  deriving DecidableEq

def ompiInterlibDeclare : Pc → Op Loc Val Pc
  | .storeActive => .store .plain active true .loadActive
  | .loadActive => .load .plain active fun a => if a then .loadActive else .loadStatus
  | .loadStatus => .load .plain status fun s => .returned (if s ≠ opalSuccess then opalError else opalSuccess)
  | _ => .halt

def modelRegistrationCallback : Pc → Op Loc Val Pc
  | .storeStatus => .store .plain status opalSuccess .storeInactive
  | .storeInactive => .store .plain active false .done
  | _ => .halt

def program : Program Tid Loc Val Pc
  | declare => ompiInterlibDeclare
  | callback => modelRegistrationCallback

def start (status₀ : Int) : Mem Val
  | active => false
  | status => status₀

-- Both versions: `status₀` is `OPAL_SUCCESS` in the first one.
def test (status₀ : Int) : Test Tid Loc Val Pc where
  program := program
  mem := start status₀
  threads
    | declare => .storeActive
    | callback => .storeStatus
  Failed pc := pc = .returned opalError
  Post _ _ := True

abbrev State (B : Buffering Loc Val) :=
  Machine.State B Tid Pc

abbrev Label :=
  Machine.Label Tid Loc Pc

abbrev machine (B : Buffering Loc Val) (status₀ : Int) : System (State B) Label :=
  (test status₀).machine B .flushing

variable {B : Buffering Loc Val} {status₀ : Int} {m m' : Mem Val} {b b' c c' : B.Buf} {d d' k k' : Pc}
variable {x : Loc} {v : Val x} {s s' : State B} {l : Label}

theorem declare_cases (e : (ompiInterlibDeclare d).exec B .flushing m b = some (m', b', d')) :
    m' = m ∧ ((d = .storeActive ∧ d' = .loadActive ∧ b' = B.push b active true) ∨
      (d = .loadActive ∧ d' = (if B.view m b active then .loadActive else .loadStatus) ∧ b' = b) ∨
      (d = .loadStatus ∧ b' = b ∧
        d' = .returned (if B.view m b status ≠ opalSuccess then opalError else opalSuccess))) := by
  cases d <;> cases e <;> simp

theorem callback_cases (e : (modelRegistrationCallback k).exec B .flushing m c = some (m', c', k')) :
    m' = m ∧ ((k = .storeStatus ∧ k' = .storeInactive ∧ c' = B.push c status opalSuccess) ∨
      (k = .storeInactive ∧ k' = .done ∧ c' = B.push c active false)) := by
  cases k <;> cases e <;> simp

-- What a thread has in its buffer, depending on where it is.
def Declares (b : B.Buf) : Pc → Prop
  | .storeActive | .loadStatus | .returned _ => B.Empty b
  | .loadActive => B.pending b status = [] ∧ (B.pending b active = [] ∨ B.pending b active = [true])
  | .storeStatus | .storeInactive | .done => False

def Calls (c : B.Buf) : Pc → Prop
  | .storeStatus => B.Empty c
  | .storeInactive => B.pending c active = []
  | .done => B.pending c active = [] ∨ B.pending c active = [false]
  | .storeActive | .loadActive | .loadStatus | .returned _ => False

theorem Declares.exec (h : Declares b d) (e : (ompiInterlibDeclare d).exec B .flushing m b = some (m', b', d')) :
    Declares b' d' := by
  obtain ⟨-, ⟨rfl, rfl, rfl⟩ | ⟨rfl, rfl, rfl⟩ | ⟨rfl, rfl, rfl⟩⟩ := declare_cases e
  · refine ⟨?_, .inr ?_⟩
    · rw [Buffering.pending_push_ne (by decide), h status]
    · rw [Buffering.pending_push_self, h active, List.nil_append]
  · cases hv : B.view m b' active
    case true => exact h
    case false =>
      obtain ⟨hs, ha | ha⟩ := h
      · intro x
        cases x <;> assumption
      · simp [Buffering.view, ha] at hv
  · exact h

theorem Declares.pop (h : Declares b d) (hp : B.pop b x = some (v, b')) : Declares b' d := by
  have hn {y : Loc} : B.pending b y = [] → B.pending b' y = [] := Buffering.pending_pop_eq_nil hp
  cases d
  case storeActive | loadStatus | returned => exact fun y => hn (h y)
  case loadActive =>
    refine ⟨hn h.1, h.2.elim (fun ha => .inl (hn ha)) fun ha => ?_⟩
    by_cases hx : active = x
    case neg => exact .inr ((Buffering.pending_pop_ne hp hx).symm.trans ha)
    case pos =>
      subst hx
      exact .inl (List.cons.inj (ha.symm.trans (Buffering.pending_pop_self hp))).2.symm
  case storeStatus | storeInactive | done => exact h

theorem Declares.of_pending (h : Declares b d) (ha : B.pending b active ≠ []) :
    d = .loadActive ∧ B.pending b active = [true] := by
  cases d
  case loadActive => exact ⟨rfl, h.2.resolve_left ha⟩
  case storeActive | loadStatus | returned => exact absurd (h active) ha
  all_goals exact h.elim

theorem Declares.not_pop_status {v : Int} (h : Declares b d) (hp : B.pop b status = some (v, b')) : False := by
  have hq := Buffering.pending_pop_self hp
  cases d
  case loadActive => cases h.1.symm.trans hq
  case storeActive | loadStatus | returned => cases (h status).symm.trans hq
  all_goals exact h

theorem Calls.exec (h : Calls c k) (e : (modelRegistrationCallback k).exec B .flushing m c = some (m', c', k')) :
    Calls c' k' := by
  obtain ⟨-, ⟨rfl, rfl, rfl⟩ | ⟨rfl, rfl, rfl⟩⟩ := callback_cases e
  · exact (Buffering.pending_push_ne (by decide)).trans (h active)
  · refine .inr ?_
    rw [Buffering.pending_push_self, (h : B.pending c active = []), List.nil_append]

theorem Calls.pop (h : Calls c k) (hp : B.pop c x = some (v, c')) : Calls c' k := by
  have hn {y : Loc} : B.pending c y = [] → B.pending c' y = [] := Buffering.pending_pop_eq_nil hp
  cases k
  case storeStatus => exact fun y => hn (h y)
  case storeInactive => exact hn h
  case done =>
    refine h.elim (fun ha => .inl (hn ha)) fun ha => ?_
    by_cases hx : active = x
    case neg => exact .inr ((Buffering.pending_pop_ne hp hx).symm.trans ha)
    case pos =>
      subst hx
      exact .inl (List.cons.inj (ha.symm.trans (Buffering.pending_pop_self hp))).2.symm
  case storeActive | loadActive | loadStatus | returned => exact h

-- What the callback stores last is that the thread need not wait any longer.
theorem Calls.pop_active {a : Bool} (h : Calls c k) (hp : B.pop c active = some (a, c')) :
    k = .done ∧ a = false ∧ B.pending c' active = [] := by
  have hq := Buffering.pending_pop_self hp
  cases k
  case storeStatus => cases (h active).symm.trans hq
  case storeInactive => cases h.symm.trans hq
  case done =>
    obtain ha | ha := h
    · cases ha.symm.trans hq
    · obtain ⟨ha, hn⟩ := List.cons.inj (ha.symm.trans hq)
      exact ⟨rfl, ha.symm, hn.symm⟩
  all_goals exact h.elim

def Valid (s : State B) : Prop :=
  Declares (s.buf declare) (s.threads declare) ∧ Calls (s.buf callback) (s.threads callback)

theorem Valid.step (h : Valid s) (e : (machine B status₀).Step s l s') : Valid s' := by
  cases e
  case move t m b k e =>
    cases t
    case declare => exact ⟨by simpa using h.1.exec e, by simpa using h.2⟩
    case callback => exact ⟨by simpa using h.1, by simpa using h.2.exec e⟩
  case drain t x v b hp =>
    cases t
    case declare => exact ⟨by simpa using h.1.pop hp, by simpa using h.2⟩
    case callback => exact ⟨by simpa using h.1, by simpa using h.2.pop hp⟩

theorem valid_of_reachable (r : (machine B status₀).Reachable s) : Valid s := by
  refine r.invariant (I := Valid) ?init fun _ _ _ _ h e => h.step e
  case init =>
    intro _ hs
    cases hs
    exact ⟨Buffering.empty_empty, Buffering.empty_empty⟩

section Return

def Returned (s : State B) : Prop :=
  ∃ result, s.threads declare = .returned result

-- The callback is over, and the thread has not started to wait for it, or waits for another one.
def Lost (s : State B) : Prop :=
  s.threads callback = .done ∧ B.pending (s.buf callback) active = [] ∧
    (s.threads declare = .storeActive ∨
      s.threads declare = .loadActive ∧ B.view s.mem (s.buf declare) active = true)

-- When the callback ends the wait, it has begun.
def InTime (s : State B) (l : Label) : Prop :=
  l = .drain callback active →
    s.threads declare ≠ .storeActive ∧ B.pending (s.buf declare) active = []

theorem Lost.step (h : Lost s) (e : (machine B status₀).Step s l s') : Lost s' := by
  obtain ⟨hk, hc, hd⟩ := h
  cases e
  case move t m b pc e =>
    cases t
    case callback =>
      rw [hk] at e
      cases e
    case declare =>
      refine ⟨by simpa using hk, by simpa using hc, .inr ?_⟩
      obtain ⟨rfl, ⟨-, rfl, rfl⟩ | ⟨hl, rfl, rfl⟩ | ⟨hl, -, -⟩⟩ := declare_cases e
      · simp [Buffering.view_push]
      · obtain hd | ⟨-, hd⟩ := hd
        · cases hl.symm.trans hd
        · simp [hd]
      · simp [hl] at hd
  case drain t x v b hp =>
    cases t
    case declare => simpa [Lost, hk, hc, Buffering.view_pop hp] using hd
    case callback =>
      have hx : active ≠ x := by
        rintro rfl
        cases hc.symm.trans (Buffering.pending_pop_self hp)
      simpa [Lost, hk, Buffering.pending_pop_eq_nil hp hc, Buffering.view_update_ne hx] using hd

-- Nothing else makes the thread wait in vain.
theorem lost_iff_of_step (hv : Valid s) (e : (machine B status₀).Step s l s') :
    Lost s' ↔ Lost s ∨ ¬InTime s l where
  mpr := by
    rintro (h | h)
    · exact h.step e
    · simp only [InTime, Classical.not_imp, not_and_or, not_not] at h
      obtain ⟨rfl, hd⟩ := h
      cases e
      case drain b a hp =>
        obtain ⟨hk, -, hn⟩ := hv.2.pop_active hp
        refine ⟨hk, by simpa using hn, hd.imp_right fun hd => ?_⟩
        obtain ⟨hl, ha⟩ := hv.1.of_pending hd
        exact ⟨hl, by simp [Buffering.view, ha]⟩
  mp h := by
    by_contra hn
    simp only [not_or, not_not] at hn
    obtain ⟨hk, hc, hd⟩ := h
    cases e
    case move t m b pc e =>
      cases t
      case callback =>
        obtain ⟨-, ⟨-, rfl, -⟩ | ⟨-, -, rfl⟩⟩ := callback_cases e
        · simp at hk
        · simp [Buffering.pending_push_self] at hc
      case declare =>
        obtain ⟨rfl, ⟨hl, -, -⟩ | ⟨hl, rfl, rfl⟩ | ⟨hl, -, rfl⟩⟩ := declare_cases e
        · exact hn.1 ⟨by simpa using hk, by simpa using hc, .inl hl⟩
        · cases ha : B.view s.mem (s.buf declare) active
          case true => exact hn.1 ⟨by simpa using hk, by simpa using hc, .inr ⟨hl, ha⟩⟩
          case false => simp [ha] at hd
        · simp at hd
    case drain t x v b hp =>
      cases t
      case declare =>
        refine hn.1 ⟨hk, by simpa using hc, ?_⟩
        simpa [Buffering.view_pop hp] using hd
      case callback =>
        by_cases hx : active = x
        case neg =>
          refine hn.1 ⟨hk, ?_, ?_⟩
          · rw [Buffering.pending_pop_ne hp hx]
            simpa using hc
          · simpa [Buffering.view_update_ne hx] using hd
        case pos =>
          subst hx
          obtain ⟨hl, ha⟩ := hn.2 rfl
          obtain rfl := (hv.2.pop_active hp).2.1
          simp [hl, Buffering.view_nil ha] at hd

-- The thread reads that nothing is active any more.
theorem leads_returned_of_inactive (hd : s.threads declare = .loadActive)
    (ha : B.view s.mem (s.buf declare) active = false) : (machine B status₀).Leads Returned s := by
  have loadActive : (ompiInterlibDeclare .loadActive).exec B .flushing s.mem (s.buf declare) =
      some (s.mem, s.buf declare, .loadStatus) := by
    simp [ompiInterlibDeclare, Op.exec, ha]
  refine (Machine.Solo.leads (t := declare) hd (.move loadActive (.move rfl .refl))).trans fun s' hs => ?_
  subst hs
  exact .refl ⟨_, update_self declare _ s.threads⟩

theorem solo_callback (status₀ : Int) (hc : Calls c k) (hn : k = .done → B.pending c active ≠ []) (m : Mem Val) :
    ∃ m' c', B.Empty c' ∧ m' active = false ∧
      Machine.Solo B .flushing (test status₀).program callback m c k m' c' .done := by
  have drained (c : B.Buf) := Machine.Solo.drained (D := .flushing) (P := (test status₀).program)
    (t := callback) m c .done
  cases k
  case storeStatus =>
    obtain ⟨c', he, h⟩ := drained (B.push (B.push c status opalSuccess) active false)
    exact ⟨_, c', he, by simp [Buffering.view_push], .move rfl (.move rfl h)⟩
  case storeInactive =>
    obtain ⟨c', he, h⟩ := drained (B.push c active false)
    exact ⟨_, c', he, by simp [Buffering.view_push], .move rfl h⟩
  case done =>
    obtain ⟨c', he, h⟩ := drained c
    have ha : B.pending c active = [false] := hc.resolve_left (hn rfl)
    exact ⟨_, c', he, by simp [Buffering.view, ha], h⟩
  all_goals exact hc.elim

-- While the callback has not ended the wait yet, the thread can begin it before.
theorem leads_returned_of_pending (hv : Valid s) (hd : s.threads declare = .loadActive)
    (hn : s.threads callback = .done → B.pending (s.buf callback) active ≠ []) :
    (machine B status₀).Leads Returned s := by
  obtain ⟨b, hb, drains⟩ := Machine.Solo.drained (D := .flushing) (P := (test status₀).program)
    (t := declare) s.mem (s.buf declare) .loadActive
  obtain ⟨m, c, hc, ha, calls⟩ := solo_callback status₀ hv.2 hn (B.view s.mem (s.buf declare))
  refine (Machine.Solo.leads hd drains).trans fun s₁ hs₁ => ?_
  subst hs₁
  refine (Machine.Solo.leads (t := callback) (l := s.threads callback) (by simp) (by simpa using calls)).trans
    fun s₂ hs₂ => ?_
  subst hs₂
  exact leads_returned_of_inactive (by simp) (by simpa [Buffering.view_nil (hb active)] using ha)

theorem leads_returned (hv : Valid s) (h : ¬Lost s) : (machine B status₀).Leads Returned s := by
  have hn (hd : s.threads declare = .storeActive ∨
      s.threads declare = .loadActive ∧ B.view s.mem (s.buf declare) active = true)
      (hk : s.threads callback = .done) : B.pending (s.buf callback) active ≠ [] :=
    fun hc => h ⟨hk, hc, hd⟩
  have hd := hv.1
  cases hl : s.threads declare <;> rw [hl] at hd
  case storeActive =>
    have e : (machine B status₀).Step s _ _ := .move (t := declare) (by rw [hl]; rfl)
    exact .step e (leads_returned_of_pending (hv.step e) (by simp) (by simpa using hn (.inl hl)))
  case loadActive =>
    cases ha : B.view s.mem (s.buf declare) active
    case false => exact leads_returned_of_inactive hl ha
    case true => exact leads_returned_of_pending hv hl (hn (.inr ⟨hl, ha⟩))
  case loadStatus =>
    refine .step (.move (t := declare) (by rw [hl]; rfl)) (.refl ⟨_, update_self declare _ s.threads⟩)
  case returned result => exact .refl ⟨result, hl⟩
  all_goals exact hd.elim

theorem leads_returned_iff (r : (machine B status₀).Reachable s) :
    (machine B status₀).Leads Returned s ↔ ¬Lost s where
  mp := by
    rintro ⟨_, s', es, _, hd⟩ h
    obtain ⟨-, -, hd' | ⟨hd', -⟩⟩ := es.invariant (fun _ _ _ => Lost.step) h
    all_goals cases hd.symm.trans hd'
  mpr := leads_returned (valid_of_reachable r)

-- With any buffers: the thread can still return in exactly those runs in which the callback has not ended the
-- wait before it has begun. Nothing but a delay of the callback prevents the others.
theorem canReturn_iff (B : Buffering Loc Val) (status₀ : Int) :
    (∀ ls s, ((machine B status₀).restrict InTime).Run ls s ↔
      (machine B status₀).Run ls s ∧ (machine B status₀).Leads Returned s) ∧
    ∃ s, (machine B status₀).Reachable s ∧ ¬(machine B status₀).Leads Returned s := by
  refine ⟨fun ls s => ?_, ?_⟩
  · rw [System.run_restrict_iff (p := Lost) (fun s hs => ?_) fun s l s' r e =>
      lost_iff_of_step (valid_of_reachable r) e]
    · exact and_congr_right fun r => (leads_returned_iff r.reachable).symm
    · cases hs
      rintro ⟨hk, -⟩
      cases hk
  · let s₀ : State B := ⟨start status₀, fun _ => B.empty, (test status₀).threads⟩
    have r : (machine B status₀).Reachable s₀ := .init rfl
    obtain ⟨m, c, hc, -, calls⟩ := solo_callback status₀ (k := .storeStatus)
      Buffering.empty_empty nofun (start status₀)
    obtain ⟨s, r, rfl⟩ := (Machine.Solo.leads (s := s₀) (t := callback) rfl calls).exists_reachable r
    exact ⟨_, r, fun h => (leads_returned_iff r).mp h ⟨by simp, by simpa using hc active, .inl rfl⟩⟩

end Return

section Error

-- The status as far as the callback has got.
def Status (status₀ : Int) (m : Mem Val) (c : B.Buf) (k : Pc) : Prop :=
  ((k = .storeStatus ∨ B.pending c status = [opalSuccess]) ∧ m status = status₀) ∨
    (k ≠ .storeStatus ∧ B.pending c status = [] ∧ m status = opalSuccess)

-- The status is there before the wait ends.
def InOrder (s : State B) (l : Label) : Prop :=
  l = .drain callback active → s.threads declare = .loadActive → B.pending (s.buf declare) active = [] →
    B.pending (s.buf callback) status = []

namespace Status

theorem exec (h : Status status₀ m c k) (hc : Calls c k)
    (e : (modelRegistrationCallback k).exec B .flushing m c = some (m', c', k')) : Status status₀ m' c' k' := by
  obtain ⟨rfl, ⟨rfl, rfl, rfl⟩ | ⟨rfl, rfl, rfl⟩⟩ := callback_cases e
  · refine .inl ⟨.inr ?_, (h.resolve_right (by simp)).2⟩
    rw [Buffering.pending_push_self, hc status, List.nil_append]
  · simpa [Status, Buffering.pending_push_ne (B := B) (b := c) (v := false) (show status ≠ active by decide)]
      using h

theorem pop_status {v : Int} (h : Status status₀ m c k) (hc : Calls c k) (hp : B.pop c status = some (v, c')) :
    v = opalSuccess := by
  have hq := Buffering.pending_pop_self hp
  obtain ⟨hk | hk, -⟩ | ⟨-, hk, -⟩ := h
  · subst hk
    cases (hc status).symm.trans hq
  · exact (List.cons.inj (hk.symm.trans hq)).1.symm
  · cases hk.symm.trans hq

theorem pop (h : Status status₀ m c k) (hc : Calls c k) (hp : B.pop c x = some (v, c')) :
    Status status₀ (update m x v) c' k := by
  by_cases hx : status = x
  case neg => simpa [Status, Buffering.pending_pop_ne hp hx, hx] using h
  case pos =>
    subst hx
    have hq := Buffering.pending_pop_self hp
    obtain ⟨hk | hk, -⟩ | ⟨-, hk, -⟩ := h
    · subst hk
      cases (hc status).symm.trans hq
    · obtain ⟨hv, hn⟩ := List.cons.inj (hk.symm.trans hq)
      refine .inr ⟨?_, hn.symm, by simp [← hv]⟩
      rintro rfl
      cases (hc status).symm.trans hq
    · cases hk.symm.trans hq

theorem mem_of_drained (h : Status status₀ m c .done) (hn : B.pending c status = []) :
    m status = opalSuccess := by
  obtain ⟨hk | hk, -⟩ | ⟨-, -, hm⟩ := h
  · cases hk
  · cases hn.symm.trans hk
  · exact hm

theorem of_reachable (r : (machine B status₀).Reachable s) :
    Status status₀ s.mem (s.buf callback) (s.threads callback) := by
  refine r.invariant (I := fun s => Status status₀ s.mem (s.buf callback) (s.threads callback)) ?init ?step
  case init =>
    intro _ hs
    cases hs
    exact .inl ⟨.inl rfl, rfl⟩
  case step =>
    intro s l s' r h e
    have hv := valid_of_reachable r
    cases e
    case move t m b k e =>
      cases t
      case declare =>
        obtain ⟨rfl, -⟩ := declare_cases e
        simpa using h
      case callback => simpa using h.exec hv.2 e
    case drain t x v b hp =>
      cases t
      case callback => simpa using h.pop hv.2 hp
      case declare =>
        have hx : status ≠ x := by
          rintro rfl
          exact hv.1.not_pop_status hp
        simpa [Status, hx] using h

end Status

-- What the thread knows about the status.
def Sees (m : Mem Val) (b : B.Buf) : Pc → Prop
  | .loadActive => B.view m b active = false → m status = opalSuccess
  | .loadStatus => m status = opalSuccess
  | .returned result => result = opalSuccess
  | .storeActive | .storeStatus | .storeInactive | .done => True

theorem Sees.exec (h : Sees m b d) (hb : Declares b d)
    (e : (ompiInterlibDeclare d).exec B .flushing m b = some (m', b', d')) : Sees m' b' d' := by
  obtain ⟨rfl, ⟨rfl, rfl, rfl⟩ | ⟨rfl, rfl, rfl⟩ | ⟨rfl, rfl, rfl⟩⟩ := declare_cases e
  · simp [Sees, Buffering.view_push]
  · cases ha : B.view m' b' active
    case true => exact h
    case false => exact h ha
  · have hm : m' status = opalSuccess := h
    simp [Sees, Buffering.view_nil (hb status), hm]

theorem Sees.pop (h : Sees m b d) (hb : Declares b d) (hp : B.pop b x = some (v, b')) :
    Sees (update m x v) b' d := by
  have hx : status ≠ x := by
    rintro rfl
    exact hb.not_pop_status hp
  cases d
  case loadActive | loadStatus => simpa [Sees, Buffering.view_pop hp, hx] using h
  all_goals exact h

theorem Sees.drain (h : Sees m b d) (hb : Declares b d) (hc : Calls c k) (hs : Status status₀ m c k)
    (hp : B.pop c x = some (v, c'))
    (ht : x = active → d = .loadActive → B.pending b active = [] → B.pending c status = []) :
    Sees (update m x v) b d := by
  cases x
  case status =>
    obtain rfl := hs.pop_status hc hp
    cases d
    case loadActive | loadStatus => simp [Sees]
    all_goals exact h
  case active =>
    obtain ⟨rfl, rfl, -⟩ := hc.pop_active hp
    cases d
    case loadActive =>
      intro hv
      by_cases ha : B.pending b active = []
      case pos => simpa using hs.mem_of_drained (ht rfl rfl ha)
      case neg => simp [Buffering.view, (hb.of_pending ha).2] at hv
    case loadStatus => simpa [Sees] using h
    all_goals exact h

theorem sees_of_inOrder (r : ((machine B status₀).restrict InOrder).Reachable s) :
    Sees s.mem (s.buf declare) (s.threads declare) := by
  refine r.invariant (S := (machine B status₀).restrict InOrder)
    (I := fun s => Sees s.mem (s.buf declare) (s.threads declare)) ?init ?step
  case init =>
    intro _ hs
    cases hs
    trivial
  case step =>
    intro s l s' r h e
    have r := r.of_restrict
    have hv := valid_of_reachable r
    obtain ⟨ht, e⟩ := e
    cases e
    case move t m b k e =>
      cases t
      case declare => simpa using h.exec hv.1 e
      case callback =>
        obtain ⟨rfl, -⟩ := callback_cases e
        simpa using h
    case drain t x v b hp =>
      cases t
      case declare => simpa using h.pop hv.1 hp
      case callback =>
        simpa using h.drain hv.1 hv.2 (Status.of_reachable r) hp fun hx => ht (by rw [hx])

theorem not_fails_of_inOrder (r : ((machine B status₀).restrict InOrder).Reachable s) :
    ¬(test status₀).Fails s := by
  rintro (⟨t, hf⟩ | ⟨-, -, hn⟩)
  · have hv := valid_of_reachable r.of_restrict
    have hf : s.threads t = .returned opalError := hf
    cases t
    case declare =>
      have h := sees_of_inOrder r
      rw [hf] at h
      cases h
    case callback =>
      have h := hv.2
      rw [hf] at h
      exact h
  · exact hn trivial

-- The wait ends while the status is still on its way.
theorem leads_fails (h₀ : status₀ ≠ opalSuccess) (r : (machine B status₀).Reachable s)
    (e : (machine B status₀).Step s l s') (h : ¬InOrder s l) :
    (machine B status₀).Leads (test status₀).Fails s' := by
  simp only [InOrder, Classical.not_imp] at h
  obtain ⟨rfl, hd, ha, hs⟩ := h
  have hv := valid_of_reachable r
  cases e
  case drain b a hp =>
    obtain ⟨hk, rfl, -⟩ := hv.2.pop_active hp
    have hm : s.mem status = status₀ := by
      obtain ⟨-, hm⟩ | ⟨-, hn, -⟩ := Status.of_reachable r
      · exact hm
      · exact absurd hn hs
    have hb := hv.1
    rw [hd] at hb
    have loadActive : (ompiInterlibDeclare .loadActive).exec B .flushing (update s.mem active false)
        (s.buf declare) = some (update s.mem active false, s.buf declare, .loadStatus) := by
      simp [ompiInterlibDeclare, Op.exec, Buffering.view_nil ha]
    have loadStatus : (ompiInterlibDeclare .loadStatus).exec B .flushing (update s.mem active false)
        (s.buf declare) = some (update s.mem active false, s.buf declare, .returned opalError) := by
      simp [ompiInterlibDeclare, Op.exec, Buffering.view_nil hb.1, hm, h₀]
    refine (Machine.Solo.leads (t := declare) (by simpa using hd)
      (by simpa using .move loadActive (.move loadStatus .refl))).trans fun s' hs' => ?_
    subst hs'
    exact .refl (.inl ⟨declare, update_self declare _ s.threads⟩)

-- Where the callback has stored to.
def log : Pc → List Loc
  | .storeInactive => [status]
  | .done => [status, active]
  | _ => []

theorem logged (status₀ : Int) : Machine.Logged .flushing (test status₀).program callback log where
  exec m c k m' c' k' e := by
    obtain ⟨-, ⟨rfl, rfl, rfl⟩ | ⟨rfl, rfl, rfl⟩⟩ := callback_cases e
    · exact .inr ⟨status, _, rfl, rfl⟩
    · exact .inr ⟨active, _, rfl, rfl⟩

theorem inOrder_of_fifo {s s' : State (.fifo Val)} {l : Label} (r : (machine (.fifo Val) status₀).Reachable s)
    (e : (machine (.fifo Val) status₀).Step s l s') : InOrder s l := by
  rintro rfl - -
  cases e
  case drain b a hp =>
    have hk := ((valid_of_reachable r).2.pop_active hp).1
    have h := Machine.Queued.of_reachable (logged status₀) r
    rw [hk] at h
    exact h.pending_eq_nil (p := [status]) (q := []) rfl (by decide) hp (by simp)

theorem not_violates_fifo (status₀ : Int) : ¬(test status₀).Violates (.fifo _) .flushing := by
  rintro ⟨s, ⟨ls, r⟩, hf⟩
  exact not_fails_of_inOrder (r.restrict fun s l s' r => inOrder_of_fifo r.of_restrict).reachable hf

theorem violates_perLocation (h₀ : status₀ ≠ opalSuccess) :
    (test status₀).Violates (.perLocation _) .flushing := by
  have r : (machine (.perLocation Val) status₀).Reachable _ := .init rfl
  have r := r.step (.move (t := declare) rfl)
  have r := r.step (.drain (t := declare) (x := active) rfl)
  have r := r.step (.move (t := callback) rfl)
  have r := r.step (.move (t := callback) rfl)
  exact (leads_fails h₀ r (.drain (t := callback) (x := active) rfl)
    fun h => nomatch h rfl rfl rfl).exists_reachable (r.step (.drain rfl))

-- Starting with success hides the delay, as the wrong status is the right one.
theorem not_violates_success (B : Buffering Loc Val) : ¬(test opalSuccess).Violates B .flushing := by
  rintro ⟨s, r, ⟨t, hf⟩ | ⟨-, -, hn⟩⟩
  · have hs : ∀ result, s.threads declare = .returned result → result = opalSuccess := by
      refine r.invariant (S := machine B opalSuccess)
        (I := fun s => ∀ result, s.threads declare = .returned result → result = opalSuccess) ?init ?step
      case init =>
        intro _ hs result h
        cases hs
        cases h
      case step =>
        intro s l s' r h e
        cases e
        case drain => exact h
        case move t m b k e =>
          cases t
          case callback => exact h
          case declare =>
            intro result hr
            have hk : k = .returned result := by simpa using hr
            have hm : s.mem status = opalSuccess := by
              obtain ⟨-, hm⟩ | ⟨-, -, hm⟩ := Status.of_reachable r <;> exact hm
            have hb := (valid_of_reachable r).1
            obtain ⟨-, ⟨-, rfl, -⟩ | ⟨-, rfl, -⟩ | ⟨hl, -, rfl⟩⟩ := declare_cases e
            · cases hk
            · split at hk <;> cases hk
            · rw [hl] at hb
              rw [Buffering.view_nil (hb status), hm] at hk
              exact (Pc.returned.inj hk).symm
    have hf : s.threads t = .returned opalError := hf
    cases t
    case declare => cases hs _ hf
    case callback =>
      have h := (valid_of_reachable r).2
      rw [hf] at h
      exact h
  · exact hn trivial

-- Under total store order the status arrives in time. Under partial store order it does exactly if the store that
-- ends the wait does not overtake it while there is somebody who waits. The test only shows that if it does not
-- start with success.
theorem status_exact (status₀ : Int) :
    ¬(test status₀).Violates (.fifo _) .flushing ∧
    (status₀ = opalSuccess → ¬(test status₀).Violates (.perLocation _) .flushing) ∧
    (status₀ ≠ opalSuccess → (test status₀).Violates (.perLocation _) .flushing ∧
      (machine (.perLocation _) status₀).Exact InOrder (test status₀).Fails) := by
  refine ⟨not_violates_fifo status₀, ?_, fun h => ⟨violates_perLocation h, ⟨fun ls s r => ?_, fun s l s' => ?_⟩⟩⟩
  · rintro rfl
    exact not_violates_success _
  · exact not_fails_of_inOrder r.reachable
  · exact leads_fails h

-- The version for CBMC.
theorem status_exact_error : (test opalError).Violates (.perLocation _) .flushing :=
  ((status_exact opalError).2.2 (by decide)).1

end Error

end OpenMpi.Interlib

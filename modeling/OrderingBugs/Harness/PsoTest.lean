import OrderingBugs.Harness.Pair
import OrderingBugs.Memory.Log
import OrderingBugs.Memory.Rounds
import OrderingBugs.Memory.Solo

open Function

-- The loop of `28-pso_test.c`, with or without the fence that is missing there and with any number of
-- iterations.
namespace Harness.PsoTest

inductive Var
  | x
  | y
  | r1
  | r2
  deriving DecidableEq

open Tid Var

instance : Fintype Var where
  elems := {x, y, r1, r2}
  complete v := by cases v <;> decide

abbrev Val : Var → Type := fun _ => Int

inductive Pc
  | storeX
  | fence
  | storeY
  | loadY
  | storeR1 (v : Int)
  | loadX
  | storeR2 (v : Int)
  | returned
  deriving DecidableEq

def threadWriter (fenced : Bool) : Pc → Op Var Val Pc
  | .storeX => .store .plain x 1 (if fenced then .fence else .storeY)
  | .fence => .fence .seqCst .storeY
  | .storeY => .store .plain y 1 .returned
  | _ => .halt

def threadReader : Pc → Op Var Val Pc
  | .loadY => .load .plain y .storeR1
  | .storeR1 v => .store .plain r1 v .loadX
  | .loadX => .load .plain x .storeR2
  | .storeR2 v => .store .plain r2 v .returned
  | _ => .halt

def rounds (n : Nat) (fenced : Bool) : Rounds Tid Var Val Pc where
  program
    | writer => threadWriter fenced
    | reader => threadReader
  threads
    | writer => .storeX
    | reader => .loadY
  reset m := update (update m x 0) y 0
  Expected m := ¬(m r1 = 1 ∧ m r2 = 0)
  gate := .semaphore
  posts := 2
  order := [writer, reader]
  limit := some n
  nodup := by decide
  complete t := by cases t <;> decide
  opens _ := rfl

variable {B : Buffering Var Val} {n : Nat} {fenced : Bool} {m₀ m m' : Mem Val} {b b' c c' : B.Buf}
variable {w w' r r' : Pc} {z : Var} {v : Int}

theorem writer_cases (e : (threadWriter fenced w).exec B .flushing m b = some (m', b', w')) :
    m' = m ∧ ((w = .storeX ∧ w' = (if fenced then .fence else .storeY) ∧ b' = B.push b x (1 : Int)) ∨
      (w = .fence ∧ w' = .storeY ∧ B.Empty b ∧ b' = b) ∨
      (w = .storeY ∧ w' = .returned ∧ b' = B.push b y (1 : Int))) := by
  cases w
  case fence =>
    simp only [threadWriter, Op.exec] at e
    split at e <;> cases e
    case _ he => exact ⟨rfl, .inr (.inl ⟨rfl, rfl, he rfl, rfl⟩)⟩
  all_goals cases e
  case storeX => exact ⟨rfl, .inl ⟨rfl, rfl, rfl⟩⟩
  case storeY => exact ⟨rfl, .inr (.inr ⟨rfl, rfl, rfl⟩)⟩

theorem reader_cases (e : (threadReader r).exec B .flushing m c = some (m', c', r')) :
    m' = m ∧ ((r = .loadY ∧ r' = .storeR1 (B.view m c y) ∧ c' = c) ∨
      (∃ v, r = .storeR1 v ∧ r' = .loadX ∧ c' = B.push c r1 v) ∨
      (r = .loadX ∧ r' = .storeR2 (B.view m c x) ∧ c' = c) ∨
      (∃ v, r = .storeR2 v ∧ r' = .returned ∧ c' = B.push c r2 v)) := by
  cases r <;> cases e <;> simp

-- The only store to a variable has not been executed, is in the buffer, or has drained.
def Unset (m : Mem Val) (b : B.Buf) (z : Var) : Prop :=
  B.pending b z = [] ∧ m z = (0 : Int)

def Stored (m : Mem Val) (b : B.Buf) (z : Var) : Prop :=
  (B.pending b z = [(1 : Int)] ∧ m z = (0 : Int)) ∨ (B.pending b z = [] ∧ m z = (1 : Int))

structure Writes (fenced : Bool) (m : Mem Val) (b : B.Buf) (w : Pc) : Prop where
  storesX : (w = .storeX ∧ Unset m b x) ∨ (w ≠ .storeX ∧ Stored m b x)
  storesY : (w = .returned ∧ Stored m b y) ∨ (w ≠ .returned ∧ Unset m b y)
  fence   : fenced = true → w = .storeX ∨ w = .fence ∨ B.pending b x = []
  own     : ∀ z, B.pending b z ≠ [] → z = x ∨ z = y

structure Reads (c : B.Buf) (r : Pc) : Prop where
  fresh : r = .loadY → B.Empty c
  own   : ∀ z, B.pending c z ≠ [] → z = r1 ∨ z = r2

theorem Unset.pop_ne {z' : Var} (h : Unset m b z) (hp : B.pop b z' = some (v, b')) : Unset (update m z' v) b' z := by
  have hz : z ≠ z' := by
    rintro rfl
    simp [Unset, Buffering.pending_pop_self hp] at h
  exact ⟨Buffering.pending_pop_eq_nil hp h.1, by simpa [hz] using h.2⟩

theorem Stored.pop {z' : Var} (h : Stored m b z) (hp : B.pop b z' = some (v, b')) :
    Stored (update m z' v) b' z := by
  by_cases hz : z = z'
  case neg => simpa [Stored, hz, Buffering.pending_pop_ne hp hz] using h
  case pos =>
    subst hz
    have hq := Buffering.pending_pop_self hp
    obtain ⟨h, -⟩ | ⟨h, -⟩ := h
    · obtain ⟨hv, hn⟩ := List.cons.inj (h.symm.trans hq)
      exact .inr ⟨hn.symm, by simp [← hv]⟩
    · cases h.symm.trans hq

theorem Stored.eq_one {q : List Int} (h : Stored m b z) (hp : B.pending b z = v :: q) : v = 1 := by
  rcases h with ⟨h, -⟩ | ⟨h, -⟩ <;> simp_all

theorem Stored.view (h : Stored m b z) : B.view m b z = (1 : Int) := by
  rcases h with ⟨h, hm⟩ | ⟨h, hm⟩ <;> simp [Buffering.view, h, hm]

namespace Writes

theorem init (hx : m x = (0 : Int)) (hy : m y = (0 : Int)) : Writes fenced m B.empty .storeX where
  storesX := .inl ⟨rfl, B.pending_empty x, hx⟩
  storesY := .inr ⟨by simp, B.pending_empty y, hy⟩
  fence _ := .inl rfl
  own z hz := absurd (B.pending_empty z) hz

theorem exec (h : Writes fenced m b w) (e : (threadWriter fenced w).exec B .flushing m b = some (m', b', w')) :
    Writes fenced m b' w' := by
  have hxy : x ≠ y := by decide
  obtain ⟨-, ⟨rfl, rfl, rfl⟩ | ⟨rfl, rfl, he, rfl⟩ | ⟨rfl, rfl, rfl⟩⟩ := writer_cases e
  · have hx := (h.storesX.resolve_right (by simp)).2
    have hy := (h.storesY.resolve_left (by simp)).2
    refine ⟨.inr ⟨by split <;> simp, .inl ⟨?_, hx.2⟩⟩, .inr ⟨by split <;> simp, ?_, hy.2⟩, fun hf => ?_, ?_⟩
    · simp [Buffering.pending_push_self, hx.1]
    · rw [Buffering.pending_push_ne hxy.symm, hy.1]
    · simp [hf]
    · intro z hz
      by_cases hzx : z = x
      case pos => exact .inl hzx
      case neg => exact h.own z (by rwa [Buffering.pending_push_ne hzx] at hz)
  · have hx := (h.storesX.resolve_left (by simp)).2
    have hy := (h.storesY.resolve_left (by simp)).2
    exact ⟨.inr ⟨by simp, hx⟩, .inr ⟨by simp, hy⟩, fun _ => .inr (.inr (he x)), h.own⟩
  · have hx := (h.storesX.resolve_left (by simp)).2
    have hy := (h.storesY.resolve_left (by simp)).2
    refine ⟨.inr ⟨by simp, ?_⟩, .inl ⟨rfl, .inl ⟨?_, hy.2⟩⟩, fun hf => .inr (.inr ?_), ?_⟩
    · simpa [Stored, Buffering.pending_push_ne hxy] using hx
    · simp [Buffering.pending_push_self, hy.1]
    · have hx := (h.fence hf).resolve_left (by simp) |>.resolve_left (by simp)
      rwa [Buffering.pending_push_ne hxy]
    · intro z hz
      by_cases hzy : z = y
      case pos => exact .inr hzy
      case neg => exact h.own z (by rwa [Buffering.pending_push_ne hzy] at hz)

theorem pop (h : Writes fenced m b w) (hp : B.pop b z = some (v, b')) : Writes fenced (update m z v) b' w where
  storesX := h.storesX.imp (And.imp_right (·.pop_ne hp)) (And.imp_right (·.pop hp))
  storesY := h.storesY.imp (And.imp_right (·.pop hp)) (And.imp_right (·.pop_ne hp))
  fence hf := (h.fence hf).imp_right (Or.imp_right (Buffering.pending_pop_eq_nil hp))
  own z' hz := h.own z' (mt (Buffering.pending_pop_eq_nil hp) hz)

theorem eq_one (h : Writes fenced m b w) (hp : B.pop b z = some (v, b')) : v = 1 := by
  have hq := Buffering.pending_pop_self hp
  obtain rfl | rfl := h.own z (by simp [hq])
  · obtain ⟨-, hx⟩ | ⟨-, hx⟩ := h.storesX
    · simp [Unset, hq] at hx
    · exact hx.eq_one hq
  · obtain ⟨-, hy⟩ | ⟨-, hy⟩ := h.storesY
    · exact hy.eq_one hq
    · simp [Unset, hq] at hy

theorem other (h : Writes fenced m b w) (hx : x ≠ z) (hy : y ≠ z) : Writes fenced (update m z v) b w where
  storesX := by simpa [Unset, Stored, hx] using h.storesX
  storesY := by simpa [Unset, Stored, hy] using h.storesY
  fence := h.fence
  own := h.own

end Writes

namespace Reads

theorem push {v : Int} (h : Reads c r) (hz : z = r1 ∨ z = r2) (hr : r' ≠ .loadY) : Reads (B.push c z v) r' where
  fresh hr' := absurd hr' hr
  own z' hz' := by
    by_cases hzz : z' = z
    case pos => exact hzz ▸ hz
    case neg => exact h.own z' (by rwa [Buffering.pending_push_ne hzz] at hz')

theorem exec (h : Reads c r) (e : (threadReader r).exec B .flushing m c = some (m', c', r')) : Reads c' r' := by
  obtain ⟨-, ⟨rfl, rfl, rfl⟩ | ⟨v, rfl, rfl, rfl⟩ | ⟨rfl, rfl, rfl⟩ | ⟨v, rfl, rfl, rfl⟩⟩ := reader_cases e
  · exact ⟨nofun, h.own⟩
  · exact h.push (.inl rfl) nofun
  · exact ⟨nofun, h.own⟩
  · exact h.push (.inr rfl) nofun

theorem pop (h : Reads c r) (hp : B.pop c z = some (v, c')) : Reads c' r where
  fresh hr z' := Buffering.pending_pop_eq_nil hp (h.fresh hr z')
  own z' hz' := h.own z' (mt (Buffering.pending_pop_eq_nil hp) hz')

end Reads

abbrev State (B : Buffering Var Val) :=
  Machine.State B Tid Pc

abbrev Label :=
  Machine.Label Tid Var Pc

abbrev machine (B : Buffering Var Val) (n : Nat) (fenced : Bool) (m₀ : Mem Val) : System (State B) Label :=
  ((rounds n fenced).test m₀).machine B .flushing

variable {s s' : State B} {l : Label}

def Valid (fenced : Bool) (s : State B) : Prop :=
  Writes fenced s.mem (s.buf writer) (s.threads writer) ∧ Reads (s.buf reader) (s.threads reader)

theorem Valid.step (h : Valid fenced s) (e : (machine B n fenced m₀).Step s l s') : Valid fenced s' := by
  cases e
  case move t m b k e =>
    cases t
    case writer =>
      obtain ⟨rfl, -⟩ := writer_cases e
      exact ⟨by simpa using h.1.exec e, by simpa using h.2⟩
    case reader =>
      obtain ⟨rfl, -⟩ := reader_cases e
      exact ⟨by simpa using h.1, by simpa using h.2.exec e⟩
  case drain t z v b hp =>
    cases t
    case writer => exact ⟨by simpa using h.1.pop hp, by simpa using h.2⟩
    case reader =>
      have hz : z = r1 ∨ z = r2 := h.2.own z (by simp [Buffering.pending_pop_self hp])
      refine ⟨?_, by simpa using h.2.pop hp⟩
      have hw : Writes fenced (update s.mem z v) (s.buf writer) (s.threads writer) :=
        h.1.other (by rintro rfl; simp at hz) (by rintro rfl; simp at hz)
      simpa using hw

theorem valid_of_reachable (r : (machine B n fenced m₀).Reachable s) : Valid fenced s := by
  refine r.invariant (I := Valid fenced) ?init fun _ _ _ _ h e => h.step e
  case init =>
    intro _ hs
    cases hs
    exact ⟨.init (by simp [Rounds.test, rounds]) (by simp [Rounds.test, rounds]),
      fun _ => Buffering.empty_empty, fun z hz => absurd (B.pending_empty z) hz⟩

section Clean

-- The store to `y` reaches memory after the one to `x`, unless the reader has read `y` already.
def InTime (s : State B) (l : Label) : Prop :=
  l = .drain writer y → s.threads reader = .loadY → B.pending (s.buf writer) x = []

-- What the reader has seen of `y` and `x`.
def Seen (m : Mem Val) (c : B.Buf) : Pc → Prop
  | .loadY => m y = (1 : Int) → m x = (1 : Int)
  | .storeR1 v => v = 1 → m x = (1 : Int)
  | .loadX => B.view m c r1 = (1 : Int) → m x = (1 : Int)
  | .storeR2 v => B.view m c r1 = (1 : Int) → v = 1
  | .returned => B.view m c r1 = (1 : Int) → B.view m c r2 = (1 : Int)
  | .storeX | .fence | .storeY => False

theorem Seen.exec (h : Seen m c r) (hr : Reads c r)
    (e : (threadReader r).exec B .flushing m c = some (m', c', r')) : Seen m c' r' := by
  have hn {z : Var} (h₁ : z ≠ r1) (h₂ : z ≠ r2) : B.view m c z = m z := by
    refine Buffering.view_nil (by_contra fun hz => ?_)
    exact (hr.own z hz).elim h₁ h₂
  obtain ⟨-, ⟨rfl, rfl, rfl⟩ | ⟨v, rfl, rfl, rfl⟩ | ⟨rfl, rfl, rfl⟩ | ⟨v, rfl, rfl, rfl⟩⟩ := reader_cases e
  · simpa [Seen, hn (z := y)] using h
  · simpa [Seen, Buffering.view_push] using h
  · simpa [Seen, hn (z := x)] using h
  · simpa [Seen, Buffering.view_push] using h

theorem Seen.pop (h : Seen m c r) (hr : Reads c r) (hp : B.pop c z = some (v, c')) :
    Seen (update m z v) c' r := by
  have hz : z = r1 ∨ z = r2 := hr.own z (by simp [Buffering.pending_pop_self hp])
  have hx : x ≠ z := by rintro rfl; simp at hz
  have hy : y ≠ z := by rintro rfl; simp at hz
  cases r
  case storeX | fence | storeY => exact h
  all_goals simpa [Seen, Buffering.view_pop hp, hx, hy] using h

-- The store to `y` is the last one.
theorem Writes.drain (h : Writes fenced m b w) (hp : B.pop b y = some (v, b')) :
    w = .returned ∧ Stored m b x := by
  have hq := Buffering.pending_pop_self hp
  obtain ⟨rfl, -⟩ | ⟨-, hy⟩ := h.storesY
  · exact ⟨rfl, (h.storesX.resolve_left (by simp)).2⟩
  · simp [Unset, hq] at hy

theorem Seen.drain (h : Seen m c r) (hw : Writes fenced m b w) (hp : B.pop b z = some (v, b'))
    (ht : z = y → r = .loadY → B.pending b x = []) : Seen (update m z v) c r := by
  obtain rfl := hw.eq_one hp
  obtain rfl | rfl := hw.own z (by simp [Buffering.pending_pop_self hp])
  · cases r <;> simp_all [Seen, Buffering.view_update_ne]
  · cases r
    case loadY =>
      have hx := (hw.drain hp).2.view
      rw [Buffering.view_nil (ht rfl rfl)] at hx
      simp [Seen, hx]
    all_goals simp_all [Seen, Buffering.view_update_ne]

theorem seen_of_inTime (hr : ((machine B n fenced m₀).restrict InTime).Reachable s) :
    Seen s.mem (s.buf reader) (s.threads reader) := by
  refine hr.invariant (S := (machine B n fenced m₀).restrict InTime)
    (I := fun s => Seen s.mem (s.buf reader) (s.threads reader)) ?init ?step
  case init =>
    intro _ hs
    cases hs
    simp [Seen, Rounds.test, rounds]
  case step =>
    intro s l s' hr h e
    have hv := valid_of_reachable hr.of_restrict
    obtain ⟨ht, e⟩ := e
    cases e
    case move t m b k e =>
      cases t
      case writer =>
        obtain ⟨rfl, -⟩ := writer_cases e
        simpa using h
      case reader =>
        obtain ⟨rfl, -⟩ := reader_cases e
        simpa using h.exec hv.2 e
    case drain t z v b hp =>
      cases t
      case writer => simpa using h.drain hv.1 hp fun hz => ht (by rw [hz])
      case reader => simpa using h.pop hv.2 hp

theorem not_fails_of_inTime (hr : ((machine B n fenced m₀).restrict InTime).Reachable s) :
    ¬((rounds n fenced).test m₀).Fails s := by
  rintro (⟨_, hf⟩ | ⟨hh, hf, hn⟩)
  · exact hf
  · have h := seen_of_inTime hr
    have hr : threadReader (s.threads reader) = .halt := hh reader
    have hm (z) : B.view s.mem (s.buf reader) z = s.mem z := Buffering.view_nil (hf reader z)
    refine hn fun ⟨h₁, h₂⟩ => ?_
    cases hk : s.threads reader <;> rw [hk] at h hr
    case returned => simp [Seen, hm, h₁, h₂] at h
    case storeX | fence | storeY => exact h
    all_goals cases hr

end Clean

section Late

-- The reader can read the new value of `y` and then the old one of `x`.
theorem solo_reader (n : Nat) (fenced : Bool) (m₀ : Mem Val) (hc : B.Empty c) (hx : m x = (0 : Int))
    (hy : m y = (1 : Int)) :
    ∃ c', B.Empty c' ∧ Machine.Solo B .flushing ((rounds n fenced).test m₀).program reader m c .loadY
      (update (update m r1 1) r2 0) c' .returned := by
  have hv : B.view m c = m := funext fun z => Buffering.view_nil (hc z)
  have loadY : (threadReader .loadY).exec B .flushing m c = some (m, c, .storeR1 1) := by
    simp [threadReader, Op.exec, hv, hy]
  have storeR1 : (threadReader (.storeR1 1)).exec B .flushing m c = some (m, B.push c r1 (1 : Int), .loadX) := rfl
  have loadX : (threadReader .loadX).exec B .flushing m (B.push c r1 (1 : Int)) =
      some (m, B.push c r1 (1 : Int), .storeR2 0) := by
    simp [threadReader, Op.exec, Buffering.view_push, hv, hx]
  have storeR2 : (threadReader (.storeR2 0)).exec B .flushing m (B.push c r1 (1 : Int)) =
    some (m, B.push (B.push c r1 (1 : Int)) r2 (0 : Int), .returned) := rfl
  obtain ⟨c', he, h⟩ := Machine.Solo.drained (D := .flushing) (P := ((rounds n fenced).test m₀).program)
    (t := reader) m (B.push (B.push c r1 (1 : Int)) r2 (0 : Int)) .returned
  rw [Buffering.view_push, Buffering.view_push, hv] at h
  exact ⟨c', he, .move loadY (.move storeR1 (.move loadX (.move storeR2 h)))⟩

theorem leads_fails (r : (machine B n fenced m₀).Reachable s) (e : (machine B n fenced m₀).Step s l s')
    (h : ¬InTime s l) : (machine B n fenced m₀).Leads ((rounds n fenced).test m₀).Fails s' := by
  simp only [InTime, Classical.not_imp] at h
  obtain ⟨rfl, hr, hx⟩ := h
  have hv := valid_of_reachable r
  cases e
  case drain b v hp =>
    obtain ⟨hw, hs⟩ := hv.1.drain hp
    obtain ⟨-, hm⟩ := hs.resolve_right fun h => hx h.1
    obtain rfl := hv.1.eq_one hp
    have hn {z : Var} (hzx : z ≠ x) (hzy : z ≠ y) : B.pending b z = [] :=
      by_contra fun hz => ((hv.1.pop hp).own z hz).elim hzx hzy
    obtain ⟨c, hc, reads⟩ :=
      solo_reader n fenced m₀ (m := update s.mem y (1 : Int)) (hv.2.fresh hr) (by simp [hm]) (by simp)
    obtain ⟨b', hb', drains⟩ := Machine.Solo.drained (D := .flushing) (P := ((rounds n fenced).test m₀).program)
      (t := writer) (update (update (update s.mem y (1 : Int)) r1 1) r2 0) b .returned
    refine (Machine.Solo.leads (t := reader) (by simpa using hr) (by simpa using reads)).trans fun s₁ hs₁ => ?_
    subst hs₁
    refine (Machine.Solo.leads (t := writer) (by simpa using hw) (by simpa using drains)).trans fun s₂ hs₂ => ?_
    subst hs₂
    refine .refl (.inr ⟨fun t => ?_, fun t => ?_, fun h => h ⟨?_, ?_⟩⟩)
    · cases t <;> rfl
    · cases t
      · simpa using hb'
      · simpa using hc
    · simp [Buffering.view_nil (hn (z := r1) (by decide) (by decide))]
    · simp [Buffering.view_nil (hn (z := r2) (by decide) (by decide))]

theorem violates_of_unfenced (n : Nat) (m₀ : Mem Val) :
    ((rounds n false).test m₀).Violates (.perLocation _) .flushing := by
  have r : (machine (.perLocation Val) n false m₀).Reachable _ := .init rfl
  have r := r.step (.move (t := writer) rfl)
  have r := r.step (.move (t := writer) rfl)
  obtain ⟨b, hp⟩ : ∃ b, (Buffering.perLocation Val).pop _ y = some ((1 : Int), b) :=
    Buffering.exists_pop_perLocation (b := update (update (fun _ => []) x [1]) y [1]) rfl
  exact (leads_fails r (.drain (t := writer) hp) fun h => nomatch h rfl rfl).exists_reachable
    (r.step (.drain (t := writer) hp))

end Late

-- Where the writer has stored to.
def log : Pc → List Var
  | .storeX => []
  | .fence | .storeY => [x]
  | _ => [x, y]

theorem logged (n : Nat) (fenced : Bool) (m₀ : Mem Val) :
    Machine.Logged .flushing ((rounds n fenced).test m₀).program writer log where
  exec m b w m' b' w' e := by
    obtain ⟨-, ⟨rfl, rfl, rfl⟩ | ⟨rfl, rfl, -, rfl⟩ | ⟨rfl, rfl, rfl⟩⟩ := writer_cases e
    · exact .inr ⟨x, _, rfl, by split <;> rfl⟩
    · exact .inl ⟨rfl, rfl⟩
    · exact .inr ⟨y, _, rfl, rfl⟩

theorem inTime_of_fifo {s s' : State (.fifo Val)} {l : Label} (r : (machine (.fifo Val) n fenced m₀).Reachable s)
    (e : (machine (.fifo Val) n fenced m₀).Step s l s') : InTime s l := by
  rintro rfl -
  cases e
  case drain b v hp =>
    have hw := ((valid_of_reachable r).1.drain hp).1
    have h := Machine.Queued.of_reachable (logged n fenced m₀) r
    rw [hw] at h
    exact h.pending_eq_nil (p := [x]) (q := []) rfl (by decide) hp (by simp)

theorem inTime_of_fenced (r : (machine B n true m₀).Reachable s) (e : (machine B n true m₀).Step s l s') :
    InTime s l := by
  rintro rfl -
  cases e
  case drain b v hp =>
    have h := (valid_of_reachable r).1
    have hw := (h.drain hp).1
    exact ((h.fence rfl).resolve_left (by simp [hw])).resolve_left (by simp [hw])

-- A single iteration, from whatever the last one has left in the results. The assertion can fail exactly after a
-- step in which the store to `y` overtakes the one to `x` before the reader has read `y`.
theorem inTime_exact (B : Buffering Var Val) (n : Nat) (fenced : Bool) (m₀ : Mem Val) :
    (machine B n fenced m₀).Exact InTime ((rounds n fenced).test m₀).Fails where
  safe _ _ r := not_fails_of_inTime r.reachable
  sharp _ _ _ r e h := leads_fails r e h

theorem not_violates_of_inTime (n : Nat) (fenced : Bool) (m₀ : Mem Val)
    (h : ∀ s l s', (machine B n fenced m₀).Reachable s → (machine B n fenced m₀).Step s l s' → InTime s l) :
    ¬((rounds n fenced).test m₀).Violates B .flushing := by
  rintro ⟨s, ⟨ls, r⟩, hf⟩
  exact not_fails_of_inTime (r.restrict fun s l s' r => h s l s' r.of_restrict).reachable hf

theorem not_violates_fifo (n : Nat) (fenced : Bool) (m₀ : Mem Val) :
    ¬((rounds n fenced).test m₀).Violates (.fifo _) .flushing :=
  not_violates_of_inTime n fenced m₀ fun _ _ _ => inTime_of_fifo

theorem violates_perLocation_iff (n : Nat) (fenced : Bool) (m₀ : Mem Val) :
    ((rounds n fenced).test m₀).Violates (.perLocation _) .flushing ↔ fenced = false := by
  cases fenced
  case false => simp [violates_of_unfenced]
  case true =>
    have h := not_violates_of_inTime (B := .perLocation _) n true m₀ fun _ _ _ => inTime_of_fenced
    simp [h]

theorem continues_iff {i : Nat} : (rounds n fenced).Continues i ↔ i < n := by
  simp [Rounds.Continues, rounds]

-- The loop detects nothing under total store order, however often it is tried. Under partial store order any
-- iteration can, unless there is a fence.
theorem pso_detects_iff (n : Nat) (fenced : Bool) (mem₀ : Mem Val) :
    ¬(rounds n fenced).Reports (.fifo _) .flushing mem₀ ∧
    ((rounds n fenced).Reports (.perLocation _) .flushing mem₀ ↔ 0 < n ∧ fenced = false) ∧
    ∀ s, ((rounds n fenced).system (.perLocation _) .flushing mem₀).Reachable s → s.main = .check →
      (((rounds n fenced).system (.perLocation _) .flushing mem₀).Leads (fun s => s.main = .reported) s ↔
        s.i < n ∧ fenced = false) := by
  refine ⟨fun h => ?_, ?_, fun s r hs => ?_⟩
  · exact ((Rounds.reports_iff fun m => iff_false_intro (not_violates_fifo n fenced m)).mp h).2
  · rw [Rounds.reports_iff (violates_perLocation_iff n fenced), continues_iff]
  · rw [Rounds.leads_reported_iff (violates_perLocation_iff n fenced) r hs, continues_iff]

theorem pso_detects_iff_thousand :
    (rounds 1000 false).Reports (.perLocation _) .flushing fun _ => (0 : Int) :=
  (pso_detects_iff 1000 false _).2.1.mpr ⟨by decide, rfl⟩

end Harness.PsoTest

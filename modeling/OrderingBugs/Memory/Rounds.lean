import OrderingBugs.Memory.Test
import OrderingBugs.Transition.Exact

open Function

-- Nothing is buffered.
def Discipline.sequential : Discipline where
  buffered _ := false
  fenceWaits _ := true
  rmwWaits _ := true

-- What threads have to pass before they start: a counter that `main` changes.
structure Gate where
  clear : Nat → Nat
  post  : Nat → Nat
  pass? : Nat → Option Nat

namespace Gate

-- `sem_post` and `sem_wait`
def semaphore : Gate where
  clear := id
  post := (· + 1)
  pass?
    | 0 => none
    | n + 1 => some n

-- A variable that is set once, and that the threads wait for in a loop.
def flag : Gate where
  clear _ := 0
  post _ := 1
  pass? n := if n = 0 then none else some n

-- What is left when a number of threads have passed.
def pass (g : Gate) : Nat → Nat → Option Nat
  | 0, v => some v
  | k + 1, v => (g.pass? v).bind (g.pass k)

end Gate

-- A `main` that runs the same threads over and over: it resets variables, creates the threads, lets them pass
-- the gate, joins them, and reports what is not as expected.
structure Rounds (Tid Loc : Type) (Val : Loc → Type) (L : Type) where
  program  : Program Tid Loc Val L
  threads  : Tid → L
  reset    : Mem Val → Mem Val
  Expected : Mem Val → Prop
  gate     : Gate
  posts    : Nat
  order    : List Tid
  limit    : Option Nat
  nodup    : order.Nodup
  complete : ∀ t, t ∈ order
  opens    : ∀ v, (gate.pass order.length (gate.post^[posts] (gate.clear v))).isSome

namespace Rounds

variable {Tid Loc L : Type} {Val : Loc → Type}

inductive Main (Tid : Type)
  | check
  | create (ts : List Tid)
  | post (n : Nat)
  | join (ts : List Tid)
  | reported
  | finished

inductive Place
  | absent
  | waiting
  | running
  deriving DecidableEq

variable [DecidableEq Loc]

structure State (B : Buffering Loc Val) (Tid L : Type) where
  machine : Machine.State B Tid L
  main    : Main Tid
  i       : Nat
  gate    : Nat
  place   : Tid → Place

inductive Label (Tid Loc L : Type)
  | main
  | pass (t : Tid)
  | machine (l : Machine.Label Tid Loc L)

variable (R : Rounds Tid Loc Val L)

def Continues (i : Nat) : Prop :=
  ∀ n ∈ R.limit, i < n

-- A single round, from the memory that the last one has left.
def test (m : Mem Val) : Test Tid Loc Val L where
  program := R.program
  mem := R.reset m
  threads := R.threads
  Failed _ := False
  Post m _ := R.Expected m

variable [DecidableEq Tid] {B : Buffering Loc Val} {D : Discipline}

-- Between two rounds `main` is alone. Creating and joining a thread waits for the buffers.
inductive Step (D : Discipline) : State B Tid L → Label Tid Loc L → State B Tid L → Prop
  | begin {s : State B Tid L} :
    s.main = .check → R.Continues s.i →
    Step D s .main
      { s with
        machine := ⟨R.reset s.machine.mem, fun _ => B.empty, R.threads⟩
        main := .create R.order
        gate := R.gate.clear s.gate
        place := fun _ => .absent }
  | finish {s : State B Tid L} :
    s.main = .check → ¬R.Continues s.i → Step D s .main { s with main := .finished }
  | create {s : State B Tid L} {t : Tid} {ts : List Tid} :
    s.main = .create (t :: ts) →
    Step D s .main { s with main := .create ts, place := update s.place t .waiting }
  | created {s : State B Tid L} :
    s.main = .create [] → Step D s .main { s with main := .post R.posts }
  | post {s : State B Tid L} {n : Nat} :
    s.main = .post (n + 1) → Step D s .main { s with main := .post n, gate := R.gate.post s.gate }
  | posted {s : State B Tid L} :
    s.main = .post 0 → Step D s .main { s with main := .join R.order }
  | join {s : State B Tid L} {t : Tid} {ts : List Tid} :
    s.main = .join (t :: ts) → s.place t = .running → R.program t (s.machine.threads t) = .halt →
    B.Empty (s.machine.buf t) → Step D s .main { s with main := .join ts }
  | report {s : State B Tid L} :
    s.main = .join [] → ¬R.Expected s.machine.mem → Step D s .main { s with main := .reported }
  | next {s : State B Tid L} :
    s.main = .join [] → R.Expected s.machine.mem → Step D s .main { s with main := .check, i := s.i + 1 }
  | pass {s : State B Tid L} {t : Tid} {g : Nat} :
    s.place t = .waiting → R.gate.pass? s.gate = some g →
    Step D s (.pass t) { s with gate := g, place := update s.place t .running }
  | machine {s : State B Tid L} {l : Machine.Label Tid Loc L} {M : Machine.State B Tid L} :
    Machine.Step D R.program s.machine l M →
    (∀ t l₁ l₂, l = .move t l₁ l₂ → s.place t = .running) →
    Step D s (.machine l) { s with machine := M }

def system (B : Buffering Loc Val) (D : Discipline) (mem₀ : Mem Val) :
    System (State B Tid L) (Label Tid Loc L) where
  Init s := s = ⟨⟨mem₀, fun _ => B.empty, R.threads⟩, .check, 0, 0, fun _ => .absent⟩
  Step := R.Step D

def Reports (B : Buffering Loc Val) (D : Discipline) (mem₀ : Mem Val) : Prop :=
  ∃ s, (R.system B D mem₀).Reachable s ∧ s.main = .reported

variable {R} {mem₀ : Mem Val} {s s' : State B Tid L} {M M' : Machine.State B Tid L} {ts : List Tid}

section Sound

-- The round has started from the given state.
def Origin (R : Rounds Tid Loc Val L) (D : Discipline) (mem₀ : Mem Val) (M : Machine.State B Tid L)
    (s : State B Tid L) : Prop :=
  (R.system B D mem₀).Reachable s ∧ s.main = .check ∧ R.Continues s.i ∧
    ((R.test s.machine.mem).machine B D).Reachable M

-- The threads that are not left have come to their ends.
def Joined (R : Rounds Tid Loc Val L) (ts : List Tid) (M : Machine.State B Tid L) : Prop :=
  ∀ t, t ∉ ts → R.program t (M.threads t) = .halt ∧ B.Empty (M.buf t)

theorem Joined.step {l : Machine.Label Tid Loc L} (h : R.Joined ts M)
    (e : Machine.Step D R.program M l M') : R.Joined ts M' := by
  intro t ht
  have ht := h t ht
  cases e
  case move u m b k e =>
    by_cases hu : t = u
    case neg => simpa [hu] using ht
    case pos =>
      subst hu
      rw [ht.1] at e
      cases e
  case drain u x v b hp =>
    by_cases hu : t = u
    case neg => simpa [hu] using ht
    case pos =>
      subst hu
      have hn := ht.2 x
      rw [Buffering.pending_pop_self hp] at hn
      cases hn

-- What is known at each place of `main`.
def Invariant (R : Rounds Tid Loc Val L) (D : Discipline) (mem₀ : Mem Val) (M : Machine.State B Tid L) :
    Main Tid → Prop
  | .check | .finished => True
  | .create _ | .post _ => ∃ s, Origin R D mem₀ M s
  | .join ts => (∃ s, Origin R D mem₀ M s) ∧ R.Joined ts M
  | .reported => ∃ s : State B Tid L, (R.system B D mem₀).Reachable s ∧ s.main = .check ∧ R.Continues s.i ∧
    (R.test s.machine.mem).Violates B D

theorem Origin.step {l : Machine.Label Tid Loc L} (h : Origin R D mem₀ M s)
    (e : Machine.Step D R.program M l M') : Origin R D mem₀ M' s :=
  ⟨h.1, h.2.1, h.2.2.1, h.2.2.2.step e⟩

theorem Invariant.machine {l : Machine.Label Tid Loc L} {pc : Main Tid} (h : Invariant R D mem₀ M pc)
    (e : Machine.Step D R.program M l M') : Invariant R D mem₀ M' pc := by
  cases pc
  case check | finished => trivial
  case create | post => exact h.imp fun _ h => h.step e
  case join => exact ⟨h.1.imp fun _ h => h.step e, h.2.step e⟩
  case reported => exact h

theorem violates_of_joined {m : Mem Val} (r : ((R.test m).machine B D).Reachable M) (h : R.Joined [] M)
    (hn : ¬R.Expected M.mem) : (R.test m).Violates B D :=
  ⟨M, r, .inr ⟨fun t => (h t List.not_mem_nil).1, fun t => (h t List.not_mem_nil).2, hn⟩⟩

theorem invariant_of_reachable (r : (R.system B D mem₀).Reachable s) :
    Invariant R D mem₀ s.machine s.main := by
  refine r.invariant (I := fun s => Invariant R D mem₀ s.machine s.main) ?init ?step
  case init =>
    intro _ hs
    cases hs
    trivial
  case step =>
    intro s l s' r h e
    cases e
    case begin hm hc => exact ⟨s, r, hm, hc, .init rfl⟩
    case finish | next => trivial
    case create hm | created hm | post hm =>
      rw [hm] at h
      exact h
    case posted hm =>
      rw [hm] at h
      exact ⟨h, fun t ht => absurd (R.complete t) ht⟩
    case join t ts hm hr hh he =>
      rw [hm] at h
      refine ⟨h.1, fun u hu => ?_⟩
      by_cases hut : u = t
      case pos => subst hut; exact ⟨hh, he⟩
      case neg => exact h.2 u (by simp [hut, hu])
    case report hm hn =>
      rw [hm] at h
      obtain ⟨⟨s₀, r₀, h₀, hc, r'⟩, hj⟩ := h
      exact ⟨s₀, r₀, h₀, hc, violates_of_joined r' hj hn⟩
    case pass => exact h
    case machine e _ => exact h.machine e

end Sound

section Complete

variable {R : Rounds Tid Loc Val L} {p : State B Tid L → Prop} {i g : Nat} {place : Tid → Place}

theorem leads_create (h : ∀ place', (∀ t, t ∈ ts ∨ place t = .waiting → place' t = .waiting) →
      (R.system B D mem₀).Leads p ⟨M, .create [], i, g, place'⟩) :
    (R.system B D mem₀).Leads p ⟨M, .create ts, i, g, place⟩ := by
  induction ts generalizing place
  case nil => exact h _ (by simp)
  case cons t ts hi =>
    refine .step (.create rfl) (hi fun place' hp => h place' fun u hu => hp u ?_)
    by_cases hut : u = t
    case pos => simp [hut]
    case neg => simpa [hut] using hu

theorem leads_post {n : Nat} (h : (R.system B D mem₀).Leads p ⟨M, .join R.order, i, R.gate.post^[n] g, place⟩) :
    (R.system B D mem₀).Leads p ⟨M, .post n, i, g, place⟩ := by
  induction n generalizing g
  case zero => exact .step (.posted rfl) h
  case succ hi => exact .step (.post rfl) (hi h)

theorem leads_pass {pc : Main Tid} (hn : ts.Nodup) (hw : ∀ t ∈ ts, place t = .waiting)
    (hg : (R.gate.pass ts.length g).isSome)
    (h : ∀ g' place', (∀ t, t ∈ ts ∨ place t = .running → place' t = .running) →
      (R.system B D mem₀).Leads p ⟨M, pc, i, g', place'⟩) :
    (R.system B D mem₀).Leads p ⟨M, pc, i, g, place⟩ := by
  induction ts generalizing g place
  case nil => exact h g place (by simp)
  case cons t ts hi =>
    rw [List.nodup_cons] at hn
    simp only [List.length_cons, Gate.pass] at hg
    obtain ⟨g', hg', hg⟩ : ∃ g', R.gate.pass? g = some g' ∧ (R.gate.pass ts.length g').isSome := by
      cases h : R.gate.pass? g <;> simp_all
    refine .step (.pass (t := t) (hw t (by simp)) hg') (hi hn.2 (fun u hu => ?_) hg fun g'' place' hp => ?_)
    · have hut : u ≠ t := fun hut => hn.1 (hut ▸ hu)
      simpa [hut] using hw u (by simp [hu])
    · refine h g'' place' fun u hu => hp u ?_
      by_cases hut : u = t
      case pos => simp [hut]
      case neg => simpa [hut] using hu

theorem leads_machine {pc : Main Tid} {ls : List (Machine.Label Tid Loc L)} {m : Mem Val}
    (hp : ∀ t, place t = .running) (e : ((R.test m).machine B D).Steps M ls M')
    (h : (R.system B D mem₀).Leads p ⟨M', pc, i, g, place⟩) :
    (R.system B D mem₀).Leads p ⟨M, pc, i, g, place⟩ := by
  induction e
  case refl => exact h
  case step e _ hi => exact .step (.machine e fun t _ _ _ => hp t) (hi h)

theorem leads_join (hp : ∀ t, place t = .running)
    (hj : ∀ t, R.program t (M.threads t) = .halt ∧ B.Empty (M.buf t))
    (h : (R.system B D mem₀).Leads p ⟨M, .join [], i, g, place⟩) :
    (R.system B D mem₀).Leads p ⟨M, .join ts, i, g, place⟩ := by
  induction ts
  case nil => exact h
  case cons t ts hi => exact .step (.join rfl (hp t) (hj t).1 (hj t).2) hi

-- The threads of a round can do what the test can do.
theorem leads_reported (hm : s.main = .check) (hc : R.Continues s.i)
    (hv : (R.test s.machine.mem).Violates B D) :
    (R.system B D mem₀).Leads (fun s => s.main = .reported) s := by
  obtain ⟨M, pc, i, g, place⟩ := s
  obtain rfl : pc = .check := hm
  obtain ⟨M', ⟨ls, r⟩, hf⟩ := hv
  have e := r.exists_steps fun _ => id
  obtain ⟨_, hf⟩ | ⟨hh, he, hn⟩ := hf
  · exact hf.elim
  · refine .step (.begin rfl hc) (leads_create fun place hw => .step (.created rfl) (leads_post ?_))
    refine leads_pass R.nodup (fun t _ => hw t (.inl (R.complete t))) (R.opens g) fun g place hp => ?_
    have hp (t) := hp t (.inl (R.complete t))
    exact leads_machine hp e (leads_join hp (fun t => ⟨hh t, he t⟩) (.step (.report rfl hn) (.refl rfl)))

end Complete

-- A round reports what its test can end with, and nothing else.
theorem reports_iff_exists : R.Reports B D mem₀ ↔ ∃ s : State B Tid L, (R.system B D mem₀).Reachable s ∧
    s.main = .check ∧ R.Continues s.i ∧ (R.test s.machine.mem).Violates B D where
  mp := by
    rintro ⟨s, r, hm⟩
    have h := invariant_of_reachable r
    rwa [hm] at h
  mpr := by
    rintro ⟨s, r, hm, hc, hv⟩
    exact (leads_reported hm hc hv).exists_reachable r

-- After the last round there is nothing left to report.
theorem continues_of_leads (hm : s.main = .check)
    (h : (R.system B D mem₀).Leads (fun s => s.main = .reported) s) : R.Continues s.i := by
  by_contra hc
  obtain ⟨ls, s', e, h⟩ := h
  have hs : (s'.main = .check ∨ s'.main = .finished) ∧ ¬R.Continues s'.i := by
    refine e.invariant (I := fun s => (s.main = .check ∨ s.main = .finished) ∧ ¬R.Continues s.i)
      (fun s l s' hs e => ?_) ⟨.inl hm, hc⟩
    cases e <;> simp_all
  simp [h] at hs

section Uniform

variable {V : Prop} (h : ∀ m, (R.test m).Violates B D ↔ V)

include h

-- Where it makes no difference what the last round has left, the first one is as good as any.
theorem reports_iff : R.Reports B D mem₀ ↔ R.Continues 0 ∧ V := by
  rw [reports_iff_exists]
  constructor
  · rintro ⟨s, -, -, hc, hv⟩
    exact ⟨fun n hn => Nat.zero_lt_of_lt (hc n hn), (h _).mp hv⟩
  · rintro ⟨hc, hv⟩
    exact ⟨_, .init rfl, rfl, hc, (h _).mpr hv⟩

theorem leads_reported_iff (r : (R.system B D mem₀).Reachable s) (hm : s.main = .check) :
    (R.system B D mem₀).Leads (fun s => s.main = .reported) s ↔ R.Continues s.i ∧ V where
  mp hl := ⟨continues_of_leads hm hl, ((reports_iff h).mp (hl.exists_reachable r)).2⟩
  mpr hc := leads_reported hm hc.1 ((h _).mpr hc.2)

end Uniform
end Rounds

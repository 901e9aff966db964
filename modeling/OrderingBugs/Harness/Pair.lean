import OrderingBugs.Memory.Code

open Function

-- The observation harnesses run a writer and a reader against each other, until the reader has seen
-- what it looks for.
namespace Harness

inductive Tid
  | writer
  | reader
  deriving DecidableEq

variable {Loc W R : Type} [DecidableEq Loc] {Val : Loc → Type}

abbrev Pcs (W R : Type) : Tid → Type
  | .writer => W
  | .reader => R

instance [DecidableEq W] [DecidableEq R] : (t : Tid) → DecidableEq (Pcs W R t)
  | .writer => inferInstanceAs (DecidableEq W)
  | .reader => inferInstanceAs (DecidableEq R)

def pcs (w : W) (r : R) : (t : Tid) → Pcs W R t
  | .writer => w
  | .reader => r

def code (writer : W → Op Loc Val W) (reader : R → Op Loc Val R) : Code Tid Loc Val (Pcs W R)
  | .writer => writer
  | .reader => reader

abbrev State (Val : Loc → Type) (W R : Type) :=
  Interleaving.State Val Tid ((t : Tid) × Pcs W R t)

abbrev Label (W R : Type) :=
  Interleaving.Label Tid ((t : Tid) × Pcs W R t)

-- The harness in a state in which both threads are at given places.
abbrev state (m : Mem Val) (w : W) (r : R) : State Val W R :=
  Code.Interleaved.state m (pcs w r)

abbrev system (writer : W → Op Loc Val W) (reader : R → Op Loc Val R) (mem₀ : Mem Val) (w₀ : W)
    (r₀ : R) : System (State Val W R) (Label W R) :=
  Code.Interleaved.system (code writer reader) mem₀ (pcs w₀ r₀)

-- The threads are at the given place.
def State.writerAt (s : State Val W R) (w : W) : Prop :=
  s.threads .writer = ⟨.writer, w⟩

def State.readerAt (s : State Val W R) (r : R) : Prop :=
  s.threads .reader = ⟨.reader, r⟩

instance [DecidableEq W] [DecidableEq R] {s : State Val W R} {w : W} : Decidable (s.writerAt w) :=
  inferInstanceAs (Decidable (_ = _))

instance [DecidableEq W] [DecidableEq R] {s : State Val W R} {r : R} : Decidable (s.readerAt r) :=
  inferInstanceAs (Decidable (_ = _))

section

variable {w w' : W} {r r' : R} {m : Mem Val}

omit [DecidableEq Loc]

@[simp]
theorem writerAt_state : State.writerAt (state m w r) w' ↔ w = w' := by
  simp [State.writerAt, Code.tag, pcs]

@[simp]
theorem readerAt_state : State.readerAt (state m w r) r' ↔ r = r' := by
  simp [State.readerAt, Code.tag, pcs]

@[simp]
theorem pcs_inj : pcs w r = pcs w' r' ↔ w = w' ∧ r = r' :=
  ⟨fun h => ⟨congrFun h .writer, congrFun h .reader⟩, by rintro ⟨rfl, rfl⟩; rfl⟩

theorem state_inj {m' : Mem Val} : state m w r = state m' w' r' ↔ m = m' ∧ w = w' ∧ r = r' where
  mp h := by
    simp only [state, Interleaving.State.mk.injEq] at h
    have hw := congrFun h.2 .writer
    have hr := congrFun h.2 .reader
    simp only [Code.tag, pcs, Sigma.mk.injEq, heq_eq_eq, true_and] at hw hr
    exact ⟨h.1, hw, hr⟩
  mpr := by rintro ⟨rfl, rfl, rfl⟩; rfl

theorem eq_pcs (pc : (t : Tid) → Pcs W R t) : pc = pcs (pc .writer) (pc .reader) := by
  ext1 t
  cases t <;> rfl

@[simp]
theorem update_pcs_writer : update (pcs w r) .writer w' = pcs w' r :=
  (eq_pcs _).trans rfl

@[simp]
theorem update_pcs_reader : update (pcs w r) .reader r' = pcs w r' :=
  (eq_pcs _).trans rfl

end

variable {writer : W → Op Loc Val W} {reader : R → Op Loc Val R} {mem₀ : Mem Val} {w₀ : W} {r₀ : R}

-- A step of the harness is one of the writer or of the reader.
theorem step_cases {m : Mem Val} {w : W} {r : R} {s' : State Val W R} {l : Label W R}
    (e : (system writer reader mem₀ w₀ r₀).Step (state m w r) l s') :
    (∃ m' w', (writer w).interleave m = some (m', w') ∧
      l = (.writer, ⟨.writer, w⟩, ⟨.writer, w'⟩) ∧ s' = state m' w' r) ∨
    ∃ m' r', (reader r).interleave m = some (m', r') ∧
      l = (.reader, ⟨.reader, r⟩, ⟨.reader, r'⟩) ∧ s' = state m' w r' := by
  obtain ⟨t, m', k, h, rfl, rfl⟩ := Code.Interleaved.interleave_of_step e
  cases t
  case writer => exact .inl ⟨m', k, h, rfl, by rw [update_pcs_writer]⟩
  case reader => exact .inr ⟨m', k, h, rfl, by rw [update_pcs_reader]⟩

theorem exists_state {I : Mem Val → W → R → Prop} (hi : I mem₀ w₀ r₀)
    (hw : ∀ m w r m' w', I m w r → (writer w).interleave m = some (m', w') → I m' w' r)
    (hr : ∀ m w r m' r', I m w r → (reader r).interleave m = some (m', r') → I m' w r')
    {s : State Val W R} (h : (system writer reader mem₀ w₀ r₀).Reachable s) :
    ∃ m w r, s = state m w r ∧ I m w r := by
  have ⟨m, pc, hs, h⟩ := Code.Interleaved.invariant
    (I := fun m pc => I m (pc .writer) (pc .reader)) hi (fun m pc t m' l h e => by
      cases t
      case writer => exact hw _ _ _ _ _ h e
      case reader => exact hr _ _ _ _ _ h e) h
  exact ⟨m, _, _, hs.trans (congrArg _ (eq_pcs pc)), h⟩

-- In particular, the threads of a reachable state are where their code can be.
theorem eq_state {s : State Val W R} (h : (system writer reader mem₀ w₀ r₀).Reachable s) :
    ∃ m w r, s = state m w r :=
  have ⟨m, w, r, hs, _⟩ := exists_state (I := fun _ _ _ => True) trivial (by simp) (by simp) h
  ⟨m, w, r, hs⟩

theorem invariant {I : Mem Val → W → R → Prop} (hi : I mem₀ w₀ r₀)
    (hw : ∀ m w r m' w', I m w r → (writer w).interleave m = some (m', w') → I m' w' r)
    (hr : ∀ m w r m' r', I m w r → (reader r).interleave m = some (m', r') → I m' w r')
    {m : Mem Val} {w : W} {r : R} (h : (system writer reader mem₀ w₀ r₀).Reachable (state m w r)) :
    I m w r := by
  have ⟨m', w', r', hs, h⟩ := exists_state hi hw hr h
  obtain ⟨rfl, rfl, rfl⟩ := state_inj.mp hs
  exact h

section Exact

variable {C : State Val W R → Label W R → Prop} {Bad : State Val W R → Prop}

-- What holds initially, and is kept by the operations that meet a condition.
theorem restrict_invariant {I : Mem Val → W → R → Prop} (hi : I mem₀ w₀ r₀)
    (hw : ∀ m w r m' w', I m w r → C (state m w r) (.writer, ⟨.writer, w⟩, ⟨.writer, w'⟩) →
      (writer w).interleave m = some (m', w') → I m' w' r)
    (hr : ∀ m w r m' r', I m w r → C (state m w r) (.reader, ⟨.reader, r⟩, ⟨.reader, r'⟩) →
      (reader r).interleave m = some (m', r') → I m' w r')
    {s : State Val W R} (r : ((system writer reader mem₀ w₀ r₀).restrict C).Reachable s) :
    ∃ m w r, s = state m w r ∧ I m w r := by
  have ⟨m, pc, hs, h⟩ := Code.Interleaved.restrict_invariant
    (I := fun m pc => I m (pc .writer) (pc .reader)) hi (fun m pc t m' l => ?_) r
  · exact ⟨m, _, _, hs.trans (congrArg _ (eq_pcs pc)), h⟩
  · rw [eq_pcs pc]
    cases t
    case writer => exact hw _ _ _ _ _
    case reader => exact hr _ _ _ _ _

-- The two halves of an exact condition, for each of the threads.
theorem safe {I : Mem Val → W → R → Prop} (hi : I mem₀ w₀ r₀)
    (hw : ∀ m w r m' w', I m w r → C (state m w r) (.writer, ⟨.writer, w⟩, ⟨.writer, w'⟩) →
      (writer w).interleave m = some (m', w') → I m' w' r)
    (hr : ∀ m w r m' r', I m w r → C (state m w r) (.reader, ⟨.reader, r⟩, ⟨.reader, r'⟩) →
      (reader r).interleave m = some (m', r') → I m' w r')
    (hb : ∀ m w r, I m w r → ¬Bad (state m w r)) :
    ∀ ls s, ((system writer reader mem₀ w₀ r₀).restrict C).Run ls s → ¬Bad s := by
  intro ls s h
  obtain ⟨m, w, r, hs, hx⟩ := restrict_invariant hi hw hr h.reachable
  exact hs ▸ hb m w r hx

theorem sharp
    (hw : ∀ m w r m' w', (system writer reader mem₀ w₀ r₀).Reachable (state m w r) →
      (writer w).interleave m = some (m', w') →
      ¬C (state m w r) (.writer, ⟨.writer, w⟩, ⟨.writer, w'⟩) →
      (system writer reader mem₀ w₀ r₀).Leads Bad (state m' w' r))
    (hr : ∀ m w r m' r', (system writer reader mem₀ w₀ r₀).Reachable (state m w r) →
      (reader r).interleave m = some (m', r') →
      ¬C (state m w r) (.reader, ⟨.reader, r⟩, ⟨.reader, r'⟩) →
      (system writer reader mem₀ w₀ r₀).Leads Bad (state m' w r')) :
    ∀ s l s', (system writer reader mem₀ w₀ r₀).Reachable s →
      (system writer reader mem₀ w₀ r₀).Step s l s' → ¬C s l →
      (system writer reader mem₀ w₀ r₀).Leads Bad s' := by
  refine Code.Interleaved.sharp fun m pc t m' l => ?_
  rw [eq_pcs pc]
  cases t
  case writer => rw [update_pcs_writer]; exact hw _ _ _ _ _
  case reader => rw [update_pcs_reader]; exact hr _ _ _ _ _

end Exact

section Leads

variable {p : State Val W R → Prop} {m n : Mem Val} {w v : W} {r q : R}

@[simp]
theorem next_writer :
    Code.Interleaved.next (code writer reader) m (pcs w r) .writer =
      ((writer w).interleave m).map fun (m, w) => (m, pcs w r) := by
  simp [Code.Interleaved.next, code, pcs]

@[simp]
theorem next_reader :
    Code.Interleaved.next (code writer reader) m (pcs w r) .reader =
      ((reader r).interleave m).map fun (m, r) => (m, pcs w r) := by
  simp [Code.Interleaved.next, code, pcs]

-- Lets the threads move in a given order.
theorem leads_of_schedule (ts : List Tid)
    (h : ∃ m' w' r', Code.Interleaved.schedule (code writer reader) m (pcs w r) ts =
      some (m', pcs w' r') ∧ p (state m' w' r')) :
    (system writer reader mem₀ w₀ r₀).Leads p (state m w r) := by
  obtain ⟨m', w', r', h, hp⟩ := h
  have ⟨_, es⟩ : ∃ ls, (system writer reader mem₀ w₀ r₀).Steps _ ls _ :=
    Code.Interleaved.steps_of_schedule h
  exact ⟨_, _, es, hp⟩

theorem leads_writer (e : (writer w).interleave m = some (n, v))
    (h : (system writer reader mem₀ w₀ r₀).Leads p (state n v r)) :
    (system writer reader mem₀ w₀ r₀).Leads p (state m w r) := by
  refine .trans (leads_of_schedule (p := (· = state n v r)) [.writer] ?_) fun _ hs => hs ▸ h
  simp [Code.Interleaved.schedule, e]

theorem leads_reader (e : (reader r).interleave m = some (n, q))
    (h : (system writer reader mem₀ w₀ r₀).Leads p (state n w q)) :
    (system writer reader mem₀ w₀ r₀).Leads p (state m w r) := by
  refine .trans (leads_of_schedule (p := (· = state n w q)) [.reader] ?_) fun _ hs => hs ▸ h
  simp [Code.Interleaved.schedule, e]

theorem reachable_writer (h : (system writer reader mem₀ w₀ r₀).Reachable (state m w r))
    (e : (writer w).interleave m = some (n, v)) :
    (system writer reader mem₀ w₀ r₀).Reachable (state n v r) :=
  have ⟨_, hr, hs⟩ := leads_writer e (.refl (p := (· = state n v r)) rfl) |>.exists_reachable h
  hs ▸ hr

theorem exists_reachable_of_schedule (ts : List Tid) [DecidablePred p]
    (h : (Code.Interleaved.schedule (code writer reader) mem₀ (pcs w₀ r₀) ts).any
      (fun s => p (Code.Interleaved.state s.1 s.2)) = true) :
    ∃ s, (system writer reader mem₀ w₀ r₀).Reachable s ∧ p s :=
  Code.Interleaved.exists_reachable_of_schedule _ _ _ ts h

end Leads

-- The harness on a machine with store buffers.
namespace Buffered

def bufs {α : Type} (b c : α) : Tid → α
  | .writer => b
  | .reader => c

section

omit [DecidableEq Loc]

variable {α : Type} {b b' c c' : α}

theorem eq_bufs (f : Tid → α) : f = bufs (f .writer) (f .reader) := by
  ext1 t
  cases t <;> rfl

@[simp]
theorem update_bufs_writer : update (bufs b c) .writer b' = bufs b' c :=
  (eq_bufs _).trans rfl

@[simp]
theorem update_bufs_reader : update (bufs b c) .reader c' = bufs b c' :=
  (eq_bufs _).trans rfl

end

variable {B : Buffering Loc Val} {D : Discipline}

abbrev State (B : Buffering Loc Val) (W R : Type) :=
  Machine.State B Tid ((t : Tid) × Pcs W R t)

abbrev Label (Loc W R : Type) :=
  Machine.Label Tid Loc ((t : Tid) × Pcs W R t)

abbrev state (m : Mem Val) (b c : B.Buf) (w : W) (r : R) : State B W R :=
  Code.Buffered.state m (bufs b c) (pcs w r)

abbrev system (B : Buffering Loc Val) (D : Discipline) (writer : W → Op Loc Val W)
    (reader : R → Op Loc Val R) (mem₀ : Mem Val) (w₀ : W) (r₀ : R) :
    System (State B W R) (Label Loc W R) :=
  Code.Buffered.system B D (code writer reader) mem₀ (pcs w₀ r₀)

def State.writerAt (s : State B W R) (w : W) : Prop :=
  s.threads .writer = ⟨.writer, w⟩

def State.readerAt (s : State B W R) (r : R) : Prop :=
  s.threads .reader = ⟨.reader, r⟩

instance [DecidableEq W] [DecidableEq R] {s : State B W R} {r : R} : Decidable (s.readerAt r) :=
  inferInstanceAs (Decidable (_ = _))

@[simp]
theorem writerAt_state {m : Mem Val} {b c : B.Buf} {w w' : W} {r : R} :
    State.writerAt (state m b c w r) w' ↔ w = w' := by
  simp [State.writerAt, Code.tag, pcs]

@[simp]
theorem readerAt_state {m : Mem Val} {b c : B.Buf} {w : W} {r r' : R} :
    State.readerAt (state m b c w r) r' ↔ r = r' := by
  simp [State.readerAt, Code.tag, pcs]

-- A step of the harness is one of the writer or of the reader, or drains one of their buffers.
theorem step_cases {m : Mem Val} {b c : B.Buf} {w : W} {r : R} {s' : State B W R} {l : Label Loc W R}
    (e : Machine.Step D (code writer reader).program (state m b c w r) l s') :
    (∃ m' b' w', (writer w).exec B D m b = some (m', b', w') ∧
      l = .move .writer ⟨.writer, w⟩ ⟨.writer, w'⟩ ∧ s' = state m' b' c w' r) ∨
    (∃ m' c' r', (reader r).exec B D m c = some (m', c', r') ∧
      l = .move .reader ⟨.reader, r⟩ ⟨.reader, r'⟩ ∧ s' = state m' b c' w r') ∨
    (∃ x v b', B.pop b x = some (v, b') ∧ l = .drain .writer x ∧
      s' = state (update m x v) b' c w r) ∨
    (∃ x v c', B.pop c x = some (v, c') ∧ l = .drain .reader x ∧
      s' = state (update m x v) b c' w r) := by
  obtain ⟨t, m', b', k, h, rfl, rfl⟩ | ⟨t, x, v, b', h, rfl, rfl⟩ := Code.Buffered.step_cases e
  all_goals cases t
  · exact .inl ⟨m', b', k, h, rfl, by simp [state]⟩
  · exact .inr (.inl ⟨m', b', k, h, rfl, by simp [state]⟩)
  · exact .inr (.inr (.inl ⟨x, v, b', h, rfl, by simp [state]⟩))
  · exact .inr (.inr (.inr ⟨x, v, b', h, rfl, by simp [state]⟩))

section Invariant

variable {mem₀ : Mem Val} {w₀ : W} {r₀ : R} {I : Mem Val → B.Buf → B.Buf → W → R → Prop}

theorem init_state :
    (system B D writer reader mem₀ w₀ r₀).Init (state mem₀ B.empty B.empty w₀ r₀) :=
  congrArg (fun f => (⟨mem₀, f, _⟩ : State B W R)) (eq_bufs fun _ => B.empty).symm

-- What holds initially, and is kept by the operations and drains that meet a condition.
theorem restrict_invariant {C : State B W R → Label Loc W R → Prop}
    (hi : I mem₀ B.empty B.empty w₀ r₀)
    (hw : ∀ m b c w r m' b' w', I m b c w r →
      C (state m b c w r) (.move .writer ⟨.writer, w⟩ ⟨.writer, w'⟩) →
      (writer w).exec B D m b = some (m', b', w') → I m' b' c w' r)
    (hr : ∀ m b c w r m' c' r', I m b c w r →
      C (state m b c w r) (.move .reader ⟨.reader, r⟩ ⟨.reader, r'⟩) →
      (reader r).exec B D m c = some (m', c', r') → I m' b c' w r')
    (dw : ∀ m b c w r x v b', I m b c w r → C (state m b c w r) (.drain .writer x) →
      B.pop b x = some (v, b') → I (update m x v) b' c w r)
    (dr : ∀ m b c w r x v c', I m b c w r → C (state m b c w r) (.drain .reader x) →
      B.pop c x = some (v, c') → I (update m x v) b c' w r)
    {s : State B W R} (r : ((system B D writer reader mem₀ w₀ r₀).restrict C).Reachable s) :
    ∃ m b c w r, s = state m b c w r ∧ I m b c w r := by
  refine r.invariant (S := (system B D writer reader mem₀ w₀ r₀).restrict C)
    (I := fun s => ∃ m b c w r, s = state m b c w r ∧ I m b c w r) (fun s h => ?_) ?_
  · exact ⟨mem₀, B.empty, B.empty, w₀, r₀, by rw [h, state, ← eq_bufs fun _ => B.empty], hi⟩
  · rintro _ l s' - ⟨m, b, c, w, r, rfl, h⟩ ⟨hc, e⟩
    obtain ⟨m', b', w', he, rfl, rfl⟩ | ⟨m', c', r', he, rfl, rfl⟩ | ⟨x, v, b', he, rfl, rfl⟩ |
      ⟨x, v, c', he, rfl, rfl⟩ := step_cases e
    · exact ⟨m', b', c, w', r, rfl, hw _ _ _ _ _ _ _ _ h hc he⟩
    · exact ⟨m', b, c', w, r', rfl, hr _ _ _ _ _ _ _ _ h hc he⟩
    · exact ⟨_, b', c, w, r, rfl, dw _ _ _ _ _ _ _ _ h hc he⟩
    · exact ⟨_, b, c', w, r, rfl, dr _ _ _ _ _ _ _ _ h hc he⟩

theorem invariant (hi : I mem₀ B.empty B.empty w₀ r₀)
    (hw : ∀ m b c w r m' b' w', I m b c w r →
      (writer w).exec B D m b = some (m', b', w') → I m' b' c w' r)
    (hr : ∀ m b c w r m' c' r', I m b c w r →
      (reader r).exec B D m c = some (m', c', r') → I m' b c' w r')
    (dw : ∀ m b c w r x v b', I m b c w r → B.pop b x = some (v, b') → I (update m x v) b' c w r)
    (dr : ∀ m b c w r x v c', I m b c w r → B.pop c x = some (v, c') → I (update m x v) b c' w r)
    {s : State B W R} (r : (system B D writer reader mem₀ w₀ r₀).Reachable s) :
    ∃ m b c w r, s = state m b c w r ∧ I m b c w r := by
  obtain ⟨_, r⟩ := r
  refine restrict_invariant hi (fun _ _ _ _ _ _ _ _ h _ => hw _ _ _ _ _ _ _ _ h)
    (fun _ _ _ _ _ _ _ _ h _ => hr _ _ _ _ _ _ _ _ h)
    (fun _ _ _ _ _ _ _ _ h _ => dw _ _ _ _ _ _ _ _ h)
    (fun _ _ _ _ _ _ _ _ h _ => dr _ _ _ _ _ _ _ _ h)
    (r.restrict (C := fun _ _ => True) fun _ _ _ _ _ => trivial).reachable

-- What a state leads to after an operation of a thread, or after a store of it has drained.
section Leads

variable {p : State B W R → Prop} {m n : Mem Val} {b c d : B.Buf} {w v : W} {r q : R}

theorem leads_writer (e : (writer w).exec B D m b = some (n, d, v))
    (h : (system B D writer reader mem₀ w₀ r₀).Leads p (state n d c v r)) :
    (system B D writer reader mem₀ w₀ r₀).Leads p (state m b c w r) := by
  have e : Machine.Step D (code writer reader).program (state m b c w r) _
      (Code.Buffered.state n (update (bufs b c) .writer d) (update (pcs w r) .writer v)) :=
    Code.Buffered.step_of_exec (t := Tid.writer) e
  rw [update_bufs_writer, update_pcs_writer] at e
  exact h.step e

theorem leads_reader (e : (reader r).exec B D m c = some (n, d, q))
    (h : (system B D writer reader mem₀ w₀ r₀).Leads p (state n b d w q)) :
    (system B D writer reader mem₀ w₀ r₀).Leads p (state m b c w r) := by
  have e : Machine.Step D (code writer reader).program (state m b c w r) _
      (Code.Buffered.state n (update (bufs b c) .reader d) (update (pcs w r) .reader q)) :=
    Code.Buffered.step_of_exec (t := Tid.reader) e
  rw [update_bufs_reader, update_pcs_reader] at e
  exact h.step e

theorem leads_drain_writer {x : Loc} {u : Val x} (e : B.pop b x = some (u, d))
    (h : (system B D writer reader mem₀ w₀ r₀).Leads p (state (update m x u) d c w r)) :
    (system B D writer reader mem₀ w₀ r₀).Leads p (state m b c w r) := by
  have e : Machine.Step D (code writer reader).program (state m b c w r) (.drain .writer x)
      (Code.Buffered.state (update m x u) (update (bufs b c) .writer d) (pcs w r)) :=
    .drain (s := state m b c w r) (t := .writer) e
  rw [update_bufs_writer] at e
  exact h.step e

theorem leads_drain_reader {x : Loc} {u : Val x} (e : B.pop c x = some (u, d))
    (h : (system B D writer reader mem₀ w₀ r₀).Leads p (state (update m x u) b d w r)) :
    (system B D writer reader mem₀ w₀ r₀).Leads p (state m b c w r) := by
  have e : Machine.Step D (code writer reader).program (state m b c w r) (.drain .reader x)
      (Code.Buffered.state (update m x u) (update (bufs b c) .reader d) (pcs w r)) :=
    .drain (s := state m b c w r) (t := .reader) e
  rw [update_bufs_reader] at e
  exact h.step e

end Leads
end Invariant
end Buffered
end Harness

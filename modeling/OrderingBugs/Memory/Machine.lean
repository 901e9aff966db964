import OrderingBugs.Transition.System
import OrderingBugs.Memory.Buffer

open Function

variable {Tid Loc L : Type} [DecidableEq Tid] [DecidableEq Loc] {Val : Loc → Type}

namespace Op

variable (B : Buffering Loc Val) (D : Discipline)

-- The effect of an operation on memory and on the buffer of the thread that executes it. It is
-- `none` while the operation has to wait, and for a thread that has halted.
def exec (m : Mem Val) (b : B.Buf) : Op Loc Val L → Option (Mem Val × B.Buf × L)
  | halt => none
  | skip k => some (m, b, k)
  | load _ x k => some (m, b, k (B.view m b x))
  | store o x v k =>
    if D.buffered o then some (m, B.push b x v, k)
    else if B.Empty b then some (update m x v, b, k)
    else none
  | rmw o x f k =>
    if (D.rmwWaits o → B.Empty b) ∧ B.pending b x = []
    then some (update m x (f (m x)), b, k (m x))
    else none
  | fence o k =>
    if D.fenceWaits o → B.Empty b then some (m, b, k) else none

variable {B D} {m m' : Mem Val} {b b' : B.Buf} {l k : L} {o : Order} {x : Loc}

-- A store is put into the buffer, or written to memory while the buffers are empty.
theorem exec_store {v : Val x} (h : (store o x v k).exec B D m b = some (m', b', l)) :
    l = k ∧ ((m' = m ∧ b' = B.push b x v ∧ D.buffered o = true) ∨
      (m' = update m x v ∧ b' = b ∧ B.Empty b ∧ D.buffered o = false)) := by
  simp only [exec] at h
  split at h
  case isTrue ho => cases h; exact ⟨rfl, .inl ⟨rfl, rfl, ho⟩⟩
  case isFalse ho =>
    split at h <;> cases h
    case _ he => exact ⟨rfl, .inr ⟨rfl, rfl, he, by simpa using ho⟩⟩

theorem exec_rmw {f : Val x → Val x} {k : Val x → L}
    (h : (rmw o x f k).exec B D m b = some (m', b', l)) :
    l = k (m x) ∧ m' = update m x (f (m x)) ∧ b' = b ∧ (D.rmwWaits o = true → B.Empty b) := by
  simp only [exec] at h
  split at h <;> cases h
  case _ he => exact ⟨rfl, rfl, rfl, he.1⟩

-- It does not overtake the stores to its own location.
theorem pending_of_exec_rmw {f : Val x → Val x} {k : Val x → L}
    (h : (rmw o x f k).exec B D m b = some (m', b', l)) : B.pending b x = [] := by
  simp only [exec] at h
  split at h <;> cases h
  case _ he => exact he.2

def Writes (x : Loc) : Op Loc Val L → Prop
  | store _ y .. | rmw _ y .. => x = y
  | halt | skip _ | load .. | fence .. => False

-- An operation that does not write to a variable leaves it alone, in memory and in the buffer.
theorem exec_frame {op : Op Loc Val L} (hw : ¬op.Writes x) (h : op.exec B D m b = some (m', b', l)) :
    m' x = m x ∧ B.pending b' x = B.pending b x := by
  cases op
  case halt => cases h
  case skip | load => cases h; exact ⟨rfl, rfl⟩
  case store =>
    obtain ⟨-, ⟨rfl, rfl, -⟩ | ⟨rfl, rfl, -⟩⟩ := exec_store h
    · exact ⟨rfl, Buffering.pending_push_ne hw⟩
    · exact ⟨update_of_ne hw .., rfl⟩
  case rmw =>
    obtain ⟨-, rfl, rfl, -⟩ := exec_rmw h
    exact ⟨update_of_ne hw .., rfl⟩
  case fence =>
    simp only [exec] at h
    split at h <;> cases h
    exact ⟨rfl, rfl⟩

section Empty

variable (he : B.Empty b)

include he

theorem exec_store_of_empty (o : Order) (v : Val x) (k : L) :
    ∃ m' b', (store o x v k).exec B D m b = some (m', b', k) := by
  by_cases ho : D.buffered o <;> simp [exec, ho, he]

theorem exec_rmw_of_empty (o : Order) (f : Val x → Val x) (k : Val x → L) :
    (rmw o x f k).exec B D m b = some (update m x (f (m x)), b, k (m x)) := by
  simp [exec, he, he x]

theorem exec_fence_of_empty (o : Order) (k : L) :
    (fence o k).exec B D m b = some (m, b, k) := by
  simp [exec, he]

end Empty
end Op

-- Threads with store buffers in front of a shared memory.
namespace Machine

structure State (B : Buffering Loc Val) (Tid L : Type) where
  mem     : Mem Val
  buf     : Tid → B.Buf
  threads : Tid → L

-- A step either moves a thread from one local state to another, or lets a buffered store of a thread
-- reach memory.
inductive Label (Tid Loc L : Type)
  | move (t : Tid) (l l' : L)
  | drain (t : Tid) (x : Loc)

-- The local transitions of threads that a label shows.
def Label.moves : Label Tid Loc L → List (Tid × L × L)
  | move t l l' => [(t, l, l')]
  | drain .. => []

variable {B : Buffering Loc Val}

def State.Flushed (s : State B Tid L) : Prop :=
  ∀ t, B.Empty (s.buf t)

instance [Fintype Tid] {s : State B Tid L} : Decidable s.Flushed :=
  Fintype.decidableForallFintype

inductive Step (D : Discipline) (P : Program Tid Loc Val L) :
    State B Tid L → Label Tid Loc L → State B Tid L → Prop
  | move {s : State B Tid L} {t : Tid} {m : Mem Val} {b : B.Buf} {l : L} :
    (P t (s.threads t)).exec B D s.mem (s.buf t) = some (m, b, l) →
    Step D P s (.move t (s.threads t) l)
      { mem := m, buf := update s.buf t b, threads := update s.threads t l }
  | drain {s : State B Tid L} {t : Tid} {x : Loc} {v : Val x} {b : B.Buf} :
    B.pop (s.buf t) x = some (v, b) →
    Step D P s (.drain t x) { s with mem := update s.mem x v, buf := update s.buf t b }

-- The machine started with given memory and local states, and with empty buffers.
def system (B : Buffering Loc Val) (D : Discipline) (P : Program Tid Loc Val L)
    (mem₀ : Mem Val) (threads₀ : Tid → L) : System (State B Tid L) (Label Tid Loc L) where
  Init s := s = { mem := mem₀, buf := fun _ => B.empty, threads := threads₀ }
  Step := Step D P

section Update

variable {Q : Tid → L → B.Buf → Prop} {f : Tid → L} {g : Tid → B.Buf} {t : Tid} {l : L} {b : B.Buf}

-- What holds of the thread that has moved, and of all others, holds of every thread.
theorem forall_update (ht : Q t l b) (h : ∀ u, u ≠ t → Q u (f u) (g u)) (u : Tid) :
    Q u (update f t l u) (update g t b u) := by
  by_cases hu : u = t
  case pos => subst hu; simpa using ht
  case neg => simpa [hu] using h u hu

theorem forall_update_buf (ht : Q t (f t) b) (h : ∀ u, u ≠ t → Q u (f u) (g u)) (u : Tid) :
    Q u (f u) (update g t b u) := by
  simpa using forall_update ht h u

end Update

variable {D : Discipline} {P : Program Tid Loc Val L} {s s' : State B Tid L}

-- A buffer that is not empty can always drain.
theorem exists_drain_of_not_flushed (h : ¬s.Flushed) :
    ∃ t x s', Step D P s (.drain t x) s' := by
  simp only [State.Flushed, Buffering.Empty, not_forall] at h
  have ⟨t, x, h⟩ := h
  have ⟨x, _, _, h⟩ := B.exists_pop h
  exact ⟨t, x, _, .drain h⟩

-- A store that is put into empty buffers can drain at once.
theorem exists_drain_of_push {m : Mem Val} {g : Tid → B.Buf} {f : Tid → L} {t : Tid} {x : Loc}
    {v : Val x} (he : B.Empty (g t)) :
    ∃ b, B.Empty b ∧ Step D P ⟨m, update g t (B.push (g t) x v), f⟩ (.drain t x)
      ⟨update m x v, update g t b, f⟩ := by
  have ⟨b, hb, he⟩ := Buffering.pop_push_of_empty (x := x) (v := v) he
  let s : State B Tid L := ⟨m, update g t (B.push (g t) x v), f⟩
  replace hb : B.pop (s.buf t) x = some (v, b) := by simpa [s] using hb
  exact ⟨b, he, by simpa [s] using Step.drain (D := D) (P := P) hb⟩

-- A variable that no operation puts a store to into the buffer is in none of the buffers.
theorem pending_eq_nil_of_reachable {x : Loc} {mem₀ : Mem Val} {threads₀ : Tid → L}
    (h : ∀ t l m b m' b' l', (P t l).exec B D m b = some (m', b', l') → B.pending b x = [] →
      B.pending b' x = [])
    (r : (system B D P mem₀ threads₀).Reachable s) (t : Tid) : B.pending (s.buf t) x = [] := by
  revert t
  refine r.invariant (I := fun s => ∀ t, B.pending (s.buf t) x = []) (fun s hs => ?init)
    fun s l s' _ hx e => ?step
  case init => cases hs; exact fun _ => B.pending_empty x
  case step =>
    cases e
    all_goals refine (forall_update_iff s.buf fun _ b => B.pending b x = []).mpr ⟨?_, fun u _ => hx u⟩
    case move e => exact h _ _ _ _ _ _ _ e (hx _)
    case drain e => exact Buffering.pending_pop_eq_nil e (hx _)

section Schedule

-- The choices a scheduler makes: which thread moves, or which buffered store drains.
inductive Choice (Tid Loc : Type)
  | move (t : Tid)
  | drain (t : Tid) (x : Loc)

def State.next (D : Discipline) (P : Program Tid Loc Val L) (s : State B Tid L) :
    Choice Tid Loc → Option (State B Tid L)
  | .move t =>
    match (P t (s.threads t)).exec B D s.mem (s.buf t) with
    | none => none
    | some (m, b, l) =>
      some { mem := m, buf := update s.buf t b, threads := update s.threads t l }
  | .drain t x =>
    match B.pop (s.buf t) x with
    | none => none
    | some (v, b) => some { s with mem := update s.mem x v, buf := update s.buf t b }

def State.schedule (D : Discipline) (P : Program Tid Loc Val L) (s : State B Tid L) :
    List (Choice Tid Loc) → Option (State B Tid L)
  | [] => some s
  | c :: cs =>
    match s.next D P c with
    | none => none
    | some s => s.schedule D P cs

theorem State.next_step {c : Choice Tid Loc} (h : s.next D P c = some s') :
    ∃ l, Step D P s l s' := by
  cases c <;> simp only [next] at h
  case move =>
    split at h <;> cases h
    case _ h => exact ⟨_, .move h⟩
  case drain =>
    split at h <;> cases h
    case _ h => exact ⟨_, .drain h⟩

theorem State.schedule_reachable {mem₀ : Mem Val} {threads₀ : Tid → L}
    {cs : List (Choice Tid Loc)} (r : (system B D P mem₀ threads₀).Reachable s)
    (h : s.schedule D P cs = some s') : (system B D P mem₀ threads₀).Reachable s' := by
  induction cs generalizing s <;> simp only [schedule] at h
  case nil => exact Option.some.inj h ▸ r
  case cons hi =>
    split at h
    case h_1 => cases h
    case h_2 h' =>
      have ⟨_, e⟩ := next_step h'
      exact hi (r.step e) h

-- A schedule that leads to a state with a given property.
theorem exists_reachable_of_schedule (B : Buffering Loc Val) (D : Discipline)
    (P : Program Tid Loc Val L) (mem₀ : Mem Val) (threads₀ : Tid → L) (cs : List (Choice Tid Loc))
    {p : State B Tid L → Prop} [DecidablePred p]
    (h : (State.schedule D P ⟨mem₀, fun _ => B.empty, threads₀⟩ cs).any (p ·) = true) :
    ∃ s, (system B D P mem₀ threads₀).Reachable s ∧ p s := by
  simp only [Option.any_eq_true_iff_get, decide_eq_true_eq] at h
  have ⟨hs, hp⟩ := h
  exact ⟨_, State.schedule_reachable (.init rfl) (Option.eq_some_of_isSome hs), hp⟩

end Schedule
end Machine

import OrderingBugs.Memory.C11
import OrderingBugs.Memory.Fifo

open Function

variable {Tid Loc L : Type} {Val : Loc → Type}

-- Loads, stores and full fences.
def Op.Simple : Op Loc Val L → Prop
  | halt | skip _ | load .. | store .. => True
  | rmw .. => False
  | fence o _ => o = .seqCst

def Test.Simple (T : Test Tid Loc Val L) : Prop :=
  ∀ t l, (T.program t l).Simple

-- On programs without anything else, the machine for C11 is one with store buffers: with partial store order if
-- the delayed stores are relaxed, and with total store order if they have release semantics.
namespace C11

variable [DecidableEq Loc]

-- An entry and the buffered store that it is without its order.
def Entry.Same (e : Entry Loc Val) (p : Buffering.Entry Val) : Prop :=
  ∃ o, e = .store o p.1 p.2 false

def Same (b : List (Entry Loc Val)) (c : (Buffering.fifo Val).Buf) : Prop :=
  List.Forall₂ Entry.Same b c

variable {m m' : Mem Val} {b b' : List (Entry Loc Val)} {c c' : (Buffering.fifo Val).Buf} {l : L}

namespace Same

theorem view_eq (h : Same b c) : (Buffering.fifo Val).view m c = flush m b := by
  rw [Buffering.fifo_view_eq_flush]
  induction h generalizing m
  case nil => rfl
  case cons h _ hi =>
    obtain ⟨o, rfl⟩ := h
    exact hi

theorem not_reserves (h : Same b c) (x : Loc) : reserves x b = false := by
  induction h
  case nil => rfl
  case cons h _ hi =>
    obtain ⟨o, rfl⟩ := h
    simp [reserves, hi]

theorem eq_nil_iff (h : Same b c) : b = [] ↔ (Buffering.fifo Val).Empty c := by
  rw [Buffering.fifo_empty_iff]
  cases h
  case nil => exact iff_of_true rfl rfl
  case cons => exact iff_of_false nofun nofun

theorem push {o : Order} {x : Loc} {v : Val x} (h : Same b c) :
    Same (b ++ [.store o x v false]) ((Buffering.fifo Val).push c x v) :=
  List.rel_append h (.cons ⟨o, rfl⟩ .nil)

theorem exec {free : Loc → Prop} {op : Op Loc Val L} (hs : op.Simple) (h : Same b c)
    (e : Exec free m b op m' b' l) :
    ∃ c', op.exec (.fifo Val) .flushing m c = some (m', c', l) ∧ Same b' c' := by
  cases e
  case skip => exact ⟨c, rfl, h⟩
  case load => exact ⟨c, by simp [Op.exec, h.view_eq], h⟩
  case store hb _ => exact ⟨c, by simp [Op.exec, Discipline.flushing, h.eq_nil_iff.mp hb], h⟩
  case delay ho => exact ⟨_, by simp [Op.exec, Discipline.flushing, ho], h.push⟩
  case rmw | delayRmw => cases hs
  case fence hb => exact ⟨c, by simp [Op.exec, Discipline.flushing, h.eq_nil_iff.mp hb], h⟩
  case delayFence ho _ => exact absurd hs ho
  case skipFence hr => cases hs; cases hr

theorem exists_exec {free : Loc → Prop} {op : Op Loc Val L} (hs : op.Simple) (hf : ∀ x, free x) (h : Same b c)
    (e : op.exec (.fifo Val) .flushing m c = some (m', c', l)) :
    ∃ b', Exec free m b op m' b' l ∧ Same b' c' := by
  cases op
  case halt => cases e
  case skip => cases e; exact ⟨b, .skip, h⟩
  case load =>
    cases e
    rw [h.view_eq]
    exact ⟨b, .load, h⟩
  case store o x v k =>
    obtain ⟨rfl, ⟨rfl, rfl, ho⟩ | ⟨rfl, rfl, he, ho⟩⟩ := Op.exec_store e
    · exact ⟨_, .delay (by simpa [Discipline.flushing] using ho), h.push⟩
    · obtain rfl : o = .seqCst := by simpa [Discipline.flushing] using ho
      exact ⟨b, .store (h.eq_nil_iff.mpr he) (hf x), h⟩
  case rmw => cases hs
  case fence o k =>
    cases hs
    simp only [Op.exec] at e
    split at e <;> cases e
    case _ he => exact ⟨b, .fence (h.eq_nil_iff.mpr (he rfl)), h⟩

-- What overtakes all entries before it is the oldest store to its location.
theorem pop_unordered {o : Order} {x : Loc} {v : Val x} {rmw : Bool} {c : (Buffering.unordered Val).Buf}
    (h : Same (b ++ .store o x v rmw :: b') c) (ho : ∀ e ∈ b, (Entry.store o x v rmw).overtakes e = true) :
    ∃ c', (Buffering.unordered Val).pop c x = some (v, c') ∧ Same (b ++ b') c' := by
  induction b generalizing c
  case nil =>
    cases h
    case cons h hs =>
      obtain ⟨_, h⟩ := h
      cases h
      exact ⟨_, by simp [Buffering.unordered], hs⟩
  case cons e b hi =>
    cases h
    case cons p c h hs =>
      obtain ⟨o', rfl⟩ := h
      obtain ⟨c', hp, hs'⟩ := hi hs fun e he => ho e (List.mem_cons_of_mem _ he)
      have hx : p.1 ≠ x := by
        have := ho _ List.mem_cons_self
        simp [Entry.overtakes] at this
        exact Ne.symm this.2
      obtain ⟨w, hv, hc⟩ := Option.map_eq_some_iff.mp hp
      obtain ⟨rfl, rfl⟩ := Prod.mk.inj hc
      refine ⟨_, ?_, .cons ⟨o', rfl⟩ hs'⟩
      simp [Buffering.unordered, Buffering.Entry.at?, hx, hv]

theorem pop_fifo {o : Order} {x : Loc} {v : Val x} {rmw : Bool} (h : Same (.store o x v rmw :: b) c) :
    ∃ c', (Buffering.fifo Val).pop c x = some (v, c') ∧ Same b c' := by
  cases h
  case cons h hs =>
    obtain ⟨_, h⟩ := h
    cases h
    exact ⟨_, by simp [Buffering.fifo], hs⟩

theorem exists_of_pop {x : Loc} {v : Val x} (h : Same b c) (hp : (Buffering.fifo Val).pop c x = some (v, c')) :
    ∃ o b', b = .store o x v false :: b' ∧ Same b' c' := by
  rw [Buffering.fifo_pop hp] at h
  cases h
  case cons h hs =>
    obtain ⟨o, rfl⟩ := h
    exact ⟨o, _, rfl, hs⟩

theorem not_fence (h : Same (.fence :: b) c) : False := by
  cases h
  case cons h _ =>
    obtain ⟨_, h⟩ := h
    cases h

end Same

-- An entry that overtakes nothing.
def Entry.InOrder (e : Entry Loc Val) : Prop :=
  ∀ e', e.overtakes e' = false

theorem Exec.inOrder {free : Loc → Prop} {op : Op Loc Val L} (hs : op.Simple)
    (hr : ∀ o x v k, op = .store o x v k → Discipline.releases o = true) (h : ∀ e ∈ b, e.InOrder)
    (e : Exec free m b op m' b' l) : ∀ e ∈ b', e.InOrder := by
  cases e
  case delay o x v ho =>
    have hn : (Entry.store o x v false).InOrder := fun e' => by
      cases e' <;> simp [Entry.overtakes, hr o x v _ rfl]
    simpa [or_imp, forall_and] using ⟨h, hn⟩
  case rmw | delayRmw => cases hs
  case delayFence ho _ => exact absurd hs ho
  all_goals exact h

section Simulation

variable [DecidableEq Tid] {T : Test Tid Loc Val L}

theorem all_same {s : State Val Tid L} {g : Tid → (Buffering.fifo Val).Buf} {t : Tid}
    (h : ∀ t, Same (s.buf t) (g t)) (ht : Same b c) (u : Tid) : Same (update s.buf t b u) (update g t c u) := by
  by_cases hu : u = t
  case pos => subst hu; simpa using ht
  case neg => simpa [hu] using h u

omit [DecidableEq Tid] in
theorem free_of_same {s : State Val Tid L} {g : Tid → (Buffering.fifo Val).Buf} (h : ∀ t, Same (s.buf t) (g t))
    (t : Tid) (x : Loc) : s.Free t x :=
  fun u _ => (h u).not_reserves x

-- Total store order is among what C11 allows, whatever the orders of the stores are.
def ofFifo (T : Test Tid Loc Val L) (hT : T.Simple) :
    (T.machine (.fifo Val) .flushing).Simulation (machine T) (fun _ => ([] : List Empty)) (fun _ => []) where
  Rel s c := c.mem = s.mem ∧ c.threads = s.threads ∧ ∀ t, Same (c.buf t) (s.buf t)
  init s h := ⟨_, rfl, by cases h; exact ⟨rfl, rfl, fun _ => .nil⟩⟩
  step s c l s' _ _ hr e := by
    obtain ⟨m, f, g⟩ := c
    obtain ⟨rfl, rfl, hb⟩ := hr
    have hf := free_of_same hb
    cases e
    case move t _ _ _ e =>
      obtain ⟨b, e, h⟩ := (hb t).exists_exec (hT t _) (hf t) e
      exact ⟨_, _, .single (.move e), rfl, rfl, rfl, all_same hb h⟩
    case drain t x v _ e =>
      obtain ⟨o, b, hbt, h⟩ := (hb t).exists_of_pop e
      exact ⟨_, _, .single (.drain (b := []) hbt nofun (hf t x)), rfl, rfl, rfl, all_same hb h⟩

-- Partial store order is all that C11 allows.
def toUnordered (T : Test Tid Loc Val L) (hT : T.Simple) :
    (machine T).Simulation (T.machine (.unordered Val) .flushing) (fun _ => ([] : List Empty)) (fun _ => []) where
  Rel s c := c.mem = s.mem ∧ c.threads = s.threads ∧ ∀ t, Same (s.buf t) (c.buf t)
  init s h := ⟨_, rfl, by cases h; exact ⟨rfl, rfl, fun _ => .nil⟩⟩
  step s c t s' _ _ hr e := by
    obtain ⟨m, g, f⟩ := c
    obtain ⟨rfl, rfl, hb⟩ := hr
    cases e
    case move e =>
      obtain ⟨c, e, h⟩ := (hb t).exec (hT t _) e
      exact ⟨_, _, .single (.move e), rfl, rfl, rfl, all_same hb h⟩
    case drain hbt ho _ =>
      obtain ⟨c, e, h⟩ := (hbt ▸ hb t).pop_unordered ho
      exact ⟨_, _, .single (.drain e), rfl, rfl, rfl, all_same hb h⟩
    case fence hbt => exact (hbt ▸ hb t).not_fence.elim

-- With stores that all have release semantics it is total store order.
def toFifo (T : Test Tid Loc Val L) (hT : T.Simple)
    (hr : ∀ t l o x v k, T.program t l = .store o x v k → Discipline.releases o = true) :
    (machine T).Simulation (T.machine (.fifo Val) .flushing) (fun _ => ([] : List Empty)) (fun _ => []) where
  Rel s c := c.mem = s.mem ∧ c.threads = s.threads ∧ (∀ t, Same (s.buf t) (c.buf t)) ∧
    ∀ t, ∀ e ∈ s.buf t, e.InOrder
  init s h := ⟨_, rfl, by cases h; exact ⟨rfl, rfl, fun _ => .nil, fun _ _ => nofun⟩⟩
  step s c t s' _ _ hc e := by
    obtain ⟨m, g, f⟩ := c
    obtain ⟨rfl, rfl, hb, ho⟩ := hc
    have all {b : List (Entry Loc Val)} (h : ∀ e ∈ b, e.InOrder) (u : Tid) : ∀ e ∈ update s.buf t b u, e.InOrder := by
      by_cases hu : u = t
      case pos => subst hu; simpa using h
      case neg => simpa [hu] using ho u
    cases e
    case move e =>
      obtain ⟨c, e', h⟩ := (hb t).exec (hT t _) e
      exact ⟨_, _, .single (.move e'), rfl, rfl, rfl, all_same hb h, all (e.inOrder (hT t _) (hr t _) (ho t))⟩
    case drain b b' o x v rmw hbt hd _ =>
      have hm := ho t
      rw [hbt] at hm
      obtain rfl : b = [] := List.eq_nil_iff_forall_not_mem.mpr fun e he => by
        simpa [hd e he] using hm _ (List.mem_append_right _ List.mem_cons_self) e
      obtain ⟨c, e, h⟩ := (hbt ▸ hb t).pop_fifo
      exact ⟨_, _, .single (.drain e), rfl, rfl, rfl, all_same hb h, all fun e he => hm e (List.mem_cons_of_mem _ he)⟩
    case fence hbt => exact (hbt ▸ hb t).not_fence.elim

-- So the same assertions are violated.
theorem Violates.of_fifo (hT : T.Simple) (h : T.Violates (.fifo _) .flushing) : Violates T := by
  obtain ⟨s, r, hf⟩ := h
  obtain ⟨⟨m, g, f⟩, r, rfl, rfl, hb⟩ := (ofFifo T hT).reachable r
  exact ⟨_, r, hf.imp_right fun ⟨hh, he, hp⟩ => ⟨hh, fun t => (hb t).eq_nil_iff.mpr (he t), hp⟩⟩

theorem Violates.unordered (hT : T.Simple) (h : Violates T) : T.Violates (.unordered _) .flushing := by
  obtain ⟨s, r, hf⟩ := h
  obtain ⟨⟨m, g, f⟩, r, rfl, rfl, hb⟩ := (toUnordered T hT).reachable r
  exact ⟨_, r, hf.imp_right fun ⟨hh, he, hp⟩ => ⟨hh, fun t => (hb t).eq_nil_iff.mp (he t), hp⟩⟩

theorem Violates.fifo (hT : T.Simple)
    (hr : ∀ t l o x v k, T.program t l = .store o x v k → Discipline.releases o = true) (h : Violates T) :
    T.Violates (.fifo _) .flushing := by
  obtain ⟨s, r, hf⟩ := h
  obtain ⟨⟨m, g, f⟩, r, rfl, rfl, hb, -⟩ := (toFifo T hT hr).reachable r
  exact ⟨_, r, hf.imp_right fun ⟨hh, he, hp⟩ => ⟨hh, fun t => (hb t).eq_nil_iff.mp (he t), hp⟩⟩

end Simulation
end C11

import OrderingBugs.Memory.Machine

open Function

variable {Tid Loc L : Type} [DecidableEq Tid] [DecidableEq Loc] {Val : Loc → Type}

namespace Machine

-- The variable `x` is a mutex for the sections of the program in which threads are `Inside`: stores to it
-- are never buffered, a thread gets inside only by locking a free mutex, and frees it when it leaves.
structure Mutex (B : Buffering Loc Val) (D : Discipline) (P : Program Tid Loc Val L) (x : Loc)
    (locked : Val x → Prop) (Inside : L → Prop) : Prop where
  exec : ∀ t l m b m' b' l', (P t l).exec B D m b = some (m', b', l') → B.pending b x = [] →
    B.pending b' x = [] ∧
      ((m' x = m x ∧ (Inside l' ↔ Inside l)) ∨
       (¬locked (m x) ∧ locked (m' x) ∧ ¬Inside l ∧ Inside l') ∨
       (¬locked (m' x) ∧ Inside l ∧ ¬Inside l'))

namespace Mutex

variable {B : Buffering Loc Val} {D : Discipline} {P : Program Tid Loc Val L} {x : Loc}
variable {locked : Val x → Prop} {Inside : L → Prop}

-- At most one thread is inside, and while there is one the mutex is locked.
structure Exclusive (x : Loc) (locked : Val x → Prop) (Inside : L → Prop)
    (s : State B Tid L) : Prop where
  pending : ∀ t, B.pending (s.buf t) x = []
  locked  : ∀ t, Inside (s.threads t) → locked (s.mem x)
  unique  : ∀ t u, Inside (s.threads t) → Inside (s.threads u) → t = u

theorem exclusive (h : Mutex B D P x locked Inside) {mem₀ : Mem Val} {threads₀ : Tid → L}
    (hi : ∀ t, ¬Inside (threads₀ t)) {s : State B Tid L}
    (r : (system B D P mem₀ threads₀).Reachable s) : Exclusive x locked Inside s := by
  refine r.invariant (fun s hs => ?init) fun s l s' _ hx e => ?step
  case init =>
    cases hs
    exact ⟨fun _ => B.pending_empty x, fun t ht => (hi t ht).elim, fun t _ ht => (hi t ht).elim⟩
  case step =>
    obtain ⟨hp, hl, hu⟩ := hx
    cases e
    case move t m' b' k e =>
      have ⟨hb, he⟩ := h.exec _ _ _ _ _ _ _ e (hp t)
      refine ⟨(forall_update_iff s.buf fun _ b => B.pending b x = []).mpr ⟨hb, fun u _ => hp u⟩,
        fun u hi => ?locked, fun u v hi hj => ?unique⟩
      case locked =>
        by_cases hut : u = t
        case pos => subst hut; grind [update_self]
        case neg => grind [update_of_ne]
      case unique => grind [update_self, update_of_ne]
    case drain t y v b' hd =>
      have hy : x ≠ y := by
        rintro rfl
        have hn := hp t
        rw [Buffering.pending_pop_self hd] at hn
        cases hn
      refine ⟨(forall_update_iff s.buf fun _ b => B.pending b x = []).mpr
        ⟨Buffering.pending_pop_eq_nil hd (hp t), fun u _ => hp u⟩, fun u hi => ?_, hu⟩
      simpa [hy] using hl u hi

end Mutex
end Machine

import OrderingBugs.Memory.Machine

open Function

variable {Tid Loc L : Type} [DecidableEq Tid] [DecidableEq Loc] {Val : Loc → Type}

-- A property of memory that depends on some of the locations only.
def Mem.Local (X : Set Loc) (p : Mem Val → Prop) : Prop :=
  ∀ m m', (∀ x ∈ X, m' x = m x) → p m → p m'

namespace Machine

variable {B : Buffering Loc Val} {X : Set Loc} {G : Tid → L → B.Buf → Prop}
variable {R : L → Mem Val → Prop} {J : Mem Val → Prop}

-- At most one thread has what it takes to use the variables.
def Guarded (G : Tid → L → B.Buf → Prop) (s : State B Tid L) : Prop :=
  ∀ t u, G t (s.threads t) (s.buf t) → G u (s.threads u) (s.buf u) → t = u

-- The thread that guards the variables in `X` is the only one that has stores to them in its buffers. What
-- this thread reads suits the place where it is, and what it leaves behind suits every other thread.
structure Region (X : Set Loc) (G : Tid → L → B.Buf → Prop) (R : L → Mem Val → Prop)
    (J : Mem Val → Prop) (s : State B Tid L) : Prop where
  owner : ∀ t, ∀ x ∈ X, B.pending (s.buf t) x ≠ [] → G t (s.threads t) (s.buf t)
  held  : ∀ t, G t (s.threads t) (s.buf t) → R (s.threads t) (B.view s.mem (s.buf t))
  free  : (∀ t, ¬G t (s.threads t) (s.buf t)) → J s.mem

namespace Region

-- What a step makes of the variables, in terms of the thread that moves or whose store drains.
inductive Change (X : Set Loc) (G : Tid → L → B.Buf → Prop) (R : L → Mem Val → Prop) (J : Mem Val → Prop)
    (t : Tid) (m : Mem Val) (b : B.Buf) (l : L) (m' : Mem Val) (b' : B.Buf) (l' : L) : Prop
  | hold : G t l b → G t l' b' → (R l (B.view m b) → R l' (B.view m' b')) → Change ..
  | stay : ¬G t l b → ¬G t l' b' → (∀ x ∈ X, B.pending b x = [] → B.pending b' x = []) →
    (∀ x ∈ X, m' x = m x) → Change ..
  | acquire : ¬G t l b → G t l' b' → (∀ x ∈ X, B.pending b x = [] → B.pending b' x = []) →
    (∀ x ∈ X, m' x = m x) → (J m → R l' m) → Change ..
  | release : G t l b → ¬G t l' b' → (∀ x ∈ X, B.pending b' x = []) → (R l (B.view m b) → J m') →
    Change ..

variable {s : State B Tid L} {t : Tid} {m : Mem Val} {b : B.Buf} {l : L}

omit [DecidableEq Tid] in
theorem pending_eq_nil (h : Region X G R J s) (hg : ¬G t (s.threads t) (s.buf t)) {x : Loc} (hx : x ∈ X) :
    B.pending (s.buf t) x = [] := by
  by_contra hp
  exact hg (h.owner t x hx hp)

section Local

variable (hR : ∀ l, Mem.Local X (R l)) (hJ : Mem.Local X J)

include hR hJ

theorem change (h : Region X G R J s) (hu : Guarded G s)
    (hu' : Guarded G ⟨m, update s.buf t b, update s.threads t l⟩)
    (hc : Change X G R J t s.mem (s.buf t) (s.threads t) m b l) :
    Region X G R J ⟨m, update s.buf t b, update s.threads t l⟩ := by
  -- The other threads keep what they have, if they have it at all.
  have ho (hp : ∀ x ∈ X, B.pending b x ≠ [] → G t l b) (u : Tid) :
      ∀ x ∈ X, B.pending (update s.buf t b u) x ≠ [] →
        G u (update s.threads t l u) (update s.buf t b u) :=
    forall_update (Q := fun u l b => ∀ x ∈ X, B.pending b x ≠ [] → G u l b) hp (fun u _ => h.owner u) u
  cases hc
  case hold hg hg' hr =>
    refine ⟨ho fun _ _ _ => hg', fun u hgu => ?_, fun hn => absurd (by simpa using hg') (hn t)⟩
    obtain rfl : t = u := hu' t u (by simpa using hg') hgu
    simpa using hr (h.held t hg)
  case stay hg hg' hp hm =>
    refine ⟨ho fun x hx hn => absurd (hp x hx (h.pending_eq_nil hg hx)) hn, fun u hgu => ?_, fun hn => ?_⟩
    · have hut : u ≠ t := by
        rintro rfl
        exact hg' (by simpa using hgu)
      simp only [update_of_ne hut] at hgu ⊢
      exact hR _ _ _ (fun x hx => by simp [Buffering.view, hm x hx]) (h.held u hgu)
    · refine hJ _ _ hm (h.free fun u hgu => ?_)
      by_cases hut : u = t
      case pos => exact hg (hut ▸ hgu)
      case neg => exact hn u (by simpa [hut] using hgu)
  case acquire hg hg' hp hm hr =>
    refine ⟨ho fun _ _ _ => hg', fun u hgu => ?_, fun hn => absurd (by simpa using hg') (hn t)⟩
    obtain rfl : t = u := hu' t u (by simpa using hg') hgu
    simp only [update_self]
    refine hR _ _ _ (fun x hx => ?_) (hr (h.free fun u hgu => ?_))
    · rw [Buffering.view_nil (hp x hx (h.pending_eq_nil hg hx)), hm x hx]
    · by_cases hut : u = t
      case pos => exact hg (hut ▸ hgu)
      case neg => exact hut (hu' u t (by simpa [hut] using hgu) (by simpa using hg'))
  case release hg hg' hp hj =>
    refine ⟨ho fun x hx hn => absurd (hp x hx) hn, fun u hgu => ?_, fun _ => hj (h.held t hg)⟩
    have hut : u ≠ t := by
      rintro rfl
      exact hg' (by simpa using hgu)
    exact (hut (hu u t (by simpa [hut] using hgu) hg)).elim

-- A store that drains changes nothing for the guard, unless the thread gives up the variables with it.
theorem drain {y : Loc} {v : Val y} (h : Region X G R J s) (hu : Guarded G s)
    (hp : B.pop (s.buf t) y = some (v, b)) (hg : G t (s.threads t) b → G t (s.threads t) (s.buf t))
    (hr : G t (s.threads t) (s.buf t) → ¬G t (s.threads t) b →
      (∀ x ∈ X, B.pending b x = []) ∧ ∀ m, R (s.threads t) m → J m) :
    Region X G R J ⟨update s.mem y v, update s.buf t b, s.threads⟩ := by
  have hv : B.view (update s.mem y v) b = B.view s.mem (s.buf t) := funext fun _ => Buffering.view_pop hp
  have hu' : Guarded G ⟨update s.mem y v, update s.buf t b, s.threads⟩ := by
    have hs (u) (hgu : G u (s.threads u) (update s.buf t b u)) : G u (s.threads u) (s.buf u) := by
      by_cases hut : u = t
      case pos => subst hut; exact hg (by simpa using hgu)
      case neg => simpa [hut] using hgu
    exact fun u w hgu hgw => hu u w (hs u hgu) (hs w hgw)
  have hc : Change X G R J t s.mem (s.buf t) (s.threads t) (update s.mem y v) b (s.threads t) := by
    by_cases hb : G t (s.threads t) (s.buf t) <;> by_cases hb' : G t (s.threads t) b
    case pos => exact .hold hb hb' (hv ▸ id)
    case neg =>
      have ⟨hn, hj⟩ := hr hb hb'
      refine .release hb hb' hn fun hw => ?_
      rw [← hv] at hw
      exact hJ _ _ (fun x hx => (Buffering.view_nil (hn x hx)).symm) (hj _ hw)
    case pos => exact absurd (hg hb') hb
    case neg =>
      refine .stay hb hb' (fun x _ => Buffering.pending_pop_eq_nil hp) fun x hx => update_of_ne ?_ ..
      rintro rfl
      have hn := h.pending_eq_nil hb hx
      simp [Buffering.pending_pop_self hp] at hn
  simpa using h.change hR hJ hu (by simpa using hu') hc

end Local
end Region
end Machine

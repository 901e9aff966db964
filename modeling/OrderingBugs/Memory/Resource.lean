import OrderingBugs.Memory.Region

open Function

variable {Tid Loc L : Type} [DecidableEq Tid] [DecidableEq Loc] {Val : Loc → Type}

namespace Machine

variable {B : Buffering Loc Val} {x : Loc} {G : Tid → L → B.Buf → Prop}
variable {R : L → Val x → Prop} {J : Val x → Prop}

-- The thread that guards the variable `x` is the only one that has stores to it in its buffers. What this
-- thread reads suits the place where it is, and what it leaves behind suits every other thread.
structure Resource (x : Loc) (G : Tid → L → B.Buf → Prop) (R : L → Val x → Prop) (J : Val x → Prop)
    (s : State B Tid L) : Prop where
  owner : ∀ t, B.pending (s.buf t) x ≠ [] → G t (s.threads t) (s.buf t)
  held  : ∀ t, G t (s.threads t) (s.buf t) → R (s.threads t) (B.view s.mem (s.buf t) x)
  free  : (∀ t, ¬G t (s.threads t) (s.buf t)) → J (s.mem x)

namespace Resource

-- What a step makes of the variable, in terms of the thread that moves or whose store drains.
inductive Change (x : Loc) (G : Tid → L → B.Buf → Prop) (R : L → Val x → Prop) (J : Val x → Prop)
    (t : Tid) (m : Mem Val) (b : B.Buf) (l : L) (m' : Mem Val) (b' : B.Buf) (l' : L) : Prop
  | hold : G t l b → G t l' b' → (R l (B.view m b x) → R l' (B.view m' b' x)) → Change ..
  | stay : ¬G t l b → ¬G t l' b' → (B.pending b x = [] → B.pending b' x = []) → m' x = m x → Change ..
  | acquire : ¬G t l b → G t l' b' → (B.pending b x = [] → B.pending b' x = []) → m' x = m x →
    (J (m x) → R l' (m x)) → Change ..
  | release : G t l b → ¬G t l' b' → B.pending b' x = [] → (R l (B.view m b x) → J (m' x)) → Change ..

variable {s : State B Tid L} {t : Tid} {m : Mem Val} {b : B.Buf} {l : L}

omit [DecidableEq Tid] in
-- A resource is a region of a single variable.
theorem iff_region :
    Resource x G R J s ↔ Region {x} G (fun l m => R l (m x)) (fun m => J (m x)) s where
  mp h := ⟨fun t _ hx => hx ▸ h.owner t, h.held, h.free⟩
  mpr h := ⟨fun t => h.owner t x rfl, h.held, h.free⟩

omit [DecidableEq Loc] in
theorem local_singleton {p : Val x → Prop} : Mem.Local {x} fun m => p (m x) :=
  fun _ _ h hp => (congrArg p (h x rfl)).mpr hp

omit [DecidableEq Tid] in
theorem Change.region {m' : Mem Val} {b' : B.Buf} {l' : L} (h : Change x G R J t m b l m' b' l') :
    Region.Change {x} G (fun l m => R l (m x)) (fun m => J (m x)) t m b l m' b' l' := by
  cases h
  case hold hg hg' hr => exact .hold hg hg' hr
  case stay hg hg' hp hm => exact .stay hg hg' (fun _ hx => hx ▸ hp) fun _ hx => hx ▸ hm
  case acquire hg hg' hp hm hr =>
    exact .acquire hg hg' (fun _ hx => hx ▸ hp) (fun _ hx => hx ▸ hm) hr
  case release hg hg' hp hj => exact .release hg hg' (fun _ hx => hx ▸ hp) hj

theorem change (h : Resource x G R J s) (hu : Guarded G s)
    (hu' : Guarded G ⟨m, update s.buf t b, update s.threads t l⟩)
    (hc : Change x G R J t s.mem (s.buf t) (s.threads t) m b l) :
    Resource x G R J ⟨m, update s.buf t b, update s.threads t l⟩ :=
  iff_region.mpr <| (iff_region.mp h).change (fun _ => local_singleton) local_singleton hu hu' hc.region

theorem drain {y : Loc} {v : Val y} (h : Resource x G R J s) (hu : Guarded G s)
    (hp : B.pop (s.buf t) y = some (v, b)) (hg : G t (s.threads t) b → G t (s.threads t) (s.buf t))
    (hr : G t (s.threads t) (s.buf t) → ¬G t (s.threads t) b →
      B.pending b x = [] ∧ ∀ w, R (s.threads t) w → J w) :
    Resource x G R J ⟨update s.mem y v, update s.buf t b, s.threads⟩ :=
  iff_region.mpr <| (iff_region.mp h).drain (fun _ => local_singleton) local_singleton hu hp hg
    fun h h' => have ⟨hp, hj⟩ := hr h h'; ⟨fun _ hx => hx ▸ hp, fun _ => hj _⟩

end Resource
end Machine

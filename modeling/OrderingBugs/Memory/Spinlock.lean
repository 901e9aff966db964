import OrderingBugs.Memory.Resource

open Function

variable {Tid Loc L : Type} [DecidableEq Tid] [DecidableEq Loc] {Val : Loc → Type}

namespace Machine

-- A thread has a lock while it is inside, and as long as the store that gives it up has not drained.
def Owns (B : Buffering Loc Val) (x : Loc) (Inside : L → Prop) (l : L) (b : B.Buf) : Prop :=
  Inside l ∨ B.pending b x ≠ []

-- What an operation makes of the lock `x`.
inductive Spinlock.Change {B : Buffering Loc Val} (x : Loc) (locked : Val x → Prop) (Inside : L → Prop)
    (m : Mem Val) (b : B.Buf) (l : L) (m' : Mem Val) (b' : B.Buf) (l' : L) : Prop
  | stay : (locked (m' x) ↔ locked (m x)) → B.pending b' x = B.pending b x → (Inside l' ↔ Inside l) →
    Change ..
  | lock : B.pending b x = [] → B.pending b' x = [] → ¬locked (m x) → locked (m' x) → ¬Inside l →
    Inside l' → Change ..
  | unlock (v : Val x) : m' x = m x → B.pending b' x = B.pending b x ++ [v] → ¬locked v → Inside l →
    ¬Inside l' → Change ..
  | unlockNow : B.pending b' x = [] → ¬locked (m' x) → Inside l → ¬Inside l' → Change ..

-- The variable `x` is a spin lock for the sections of the program in which threads are `Inside`. Other than
-- with a mutex, the store with which a thread gives it up may be buffered.
structure Spinlock (B : Buffering Loc Val) (D : Discipline) (P : Program Tid Loc Val L) (x : Loc)
    (locked : Val x → Prop) (Inside : L → Prop) : Prop where
  exec : ∀ t l m b m' b' l', (P t l).exec B D m b = some (m', b', l') →
    Spinlock.Change x locked Inside m b l m' b' l'

namespace Spinlock

variable {B : Buffering Loc Val} {D : Discipline} {P : Program Tid Loc Val L} {x : Loc}
variable {locked : Val x → Prop} {Inside : L → Prop}

-- At most one thread has the lock, and while one has it the lock is taken.
structure Exclusive (x : Loc) (locked : Val x → Prop) (Inside : L → Prop)
    (s : State B Tid L) : Prop where
  inside  : ∀ t, Inside (s.threads t) → B.pending (s.buf t) x = []
  pending : ∀ t, B.pending (s.buf t) x = [] ∨ ∃ v, B.pending (s.buf t) x = [v] ∧ ¬locked v
  locked  : ∀ t, Owns B x Inside (s.threads t) (s.buf t) → locked (s.mem x)
  unique  : Guarded (fun _ => Owns B x Inside) s

namespace Exclusive

variable {s : State B Tid L} {t : Tid} {m : Mem Val} {b : B.Buf} {l : L}

omit [DecidableEq Tid] in
theorem init {mem₀ : Mem Val} {threads₀ : Tid → L} (hi : ∀ t, ¬Inside (threads₀ t)) :
    Exclusive x locked Inside (⟨mem₀, fun _ => B.empty, threads₀⟩ : State B Tid L) := by
  have ho (t) : ¬Owns B x Inside (threads₀ t) B.empty :=
    not_or_intro (hi t) (not_not_intro (B.pending_empty x))
  exact ⟨fun t ht => (hi t ht).elim, fun _ => .inl (B.pending_empty x), fun t ht => (ho t ht).elim,
    fun t _ ht => (ho t ht).elim⟩

-- What a step has to establish for the thread that takes it.
theorem set (h : Exclusive x locked Inside s) (hi : Inside l → B.pending b x = [])
    (hp : B.pending b x = [] ∨ ∃ v, B.pending b x = [v] ∧ ¬locked v)
    (ho : Owns B x Inside l b → locked (m x) ∧ ∀ u, u ≠ t → ¬Owns B x Inside (s.threads u) (s.buf u))
    (hm : ∀ u, u ≠ t → Owns B x Inside (s.threads u) (s.buf u) → locked (m x)) :
    Exclusive x locked Inside ⟨m, update s.buf t b, update s.threads t l⟩ where
  inside := forall_update (Q := fun _ l b => Inside l → B.pending b x = []) hi fun u _ => h.inside u
  pending := (forall_update_iff s.buf fun _ b => B.pending b x = [] ∨ ∃ v, B.pending b x = [v] ∧ ¬locked v).mpr
    ⟨hp, fun u _ => h.pending u⟩
  locked := forall_update (Q := fun _ l b => Owns B x Inside l b → locked (m x)) (fun h => (ho h).1) hm
  unique u w hu hw := by
    by_cases hut : u = t <;> by_cases hwt : w = t
    · exact hut.trans hwt.symm
    · exact absurd (by simpa [hwt] using hw) ((ho (by simpa [hut] using hu)).2 w hwt)
    · exact absurd (by simpa [hut] using hu) ((ho (by simpa [hwt] using hw)).2 u hut)
    · exact h.unique u w (by simpa [hut] using hu) (by simpa [hwt] using hw)

omit [DecidableEq Tid] in
-- While one thread has the lock no other one does.
theorem not_owns (h : Exclusive x locked Inside s) (ht : Owns B x Inside (s.threads t) (s.buf t)) (u : Tid)
    (hu : u ≠ t) : ¬Owns B x Inside (s.threads u) (s.buf u) :=
  fun ho => hu (h.unique u t ho ht)

theorem change (h : Exclusive x locked Inside s)
    (hc : Change x locked Inside s.mem (s.buf t) (s.threads t) m b l) :
    Exclusive x locked Inside ⟨m, update s.buf t b, update s.threads t l⟩ := by
  cases hc
  case stay hm hb hl =>
    have ho : Owns B x Inside l b ↔ Owns B x Inside (s.threads t) (s.buf t) := by rw [Owns, Owns, hb, hl]
    refine h.set (fun hi => hb ▸ h.inside t (hl.mp hi)) (hb ▸ h.pending t) (fun hl => ?_) fun u _ hu => ?_
    · exact ⟨hm.mpr (h.locked t (ho.mp hl)), h.not_owns (ho.mp hl)⟩
    · exact hm.mpr (h.locked u hu)
  case lock hb hb' hn hl hi hi' =>
    have ho (u) : ¬Owns B x Inside (s.threads u) (s.buf u) := fun hu => hn (h.locked u hu)
    exact h.set (fun _ => hb') (.inl hb') (fun _ => ⟨hl, fun u _ => ho u⟩) fun u _ hu => absurd hu (ho u)
  case unlock v hm hb hv hi hi' =>
    have ho : Owns B x Inside (s.threads t) (s.buf t) := .inl hi
    have hb' : B.pending b x = [v] := by rw [hb, h.inside t hi, List.nil_append]
    refine h.set (fun hl => absurd hl hi') (.inr ⟨v, hb', hv⟩) (fun _ => ?_) fun u hu hw => ?_
    · exact ⟨hm ▸ h.locked t ho, h.not_owns ho⟩
    · exact absurd hw (h.not_owns ho u hu)
  case unlockNow hb hm hi hi' =>
    have ho : Owns B x Inside (s.threads t) (s.buf t) := .inl hi
    refine h.set (fun hl => absurd hl hi') (.inl hb) (fun hl => ?_) fun u hu hw => ?_
    · exact absurd hl (not_or_intro hi' (not_not_intro hb))
    · exact absurd hw (h.not_owns ho u hu)

theorem drain {y : Loc} {v : Val y} (h : Exclusive x locked Inside s)
    (hp : B.pop (s.buf t) y = some (v, b)) :
    Exclusive x locked Inside ⟨update s.mem y v, update s.buf t b, s.threads⟩ := by
  have hc : Change x locked Inside s.mem (s.buf t) (s.threads t) (update s.mem y v) b (s.threads t) ∨
      x = y := by
    by_cases hy : x = y
    case pos => exact .inr hy
    case neg =>
      refine .inl (.stay ?_ (Buffering.pending_pop_ne hp hy).symm .rfl)
      rw [update_of_ne hy]
  obtain hc | rfl := hc
  case inl => simpa using h.change hc
  case inr =>
    -- The store that gives up the lock drains.
    have hb := Buffering.pending_pop_self hp
    have ho : Owns B x Inside (s.threads t) (s.buf t) := .inr (by simp [hb])
    obtain hn | ⟨w, hw, -⟩ := h.pending t
    case inl => simp [hn] at hb
    case inr =>
      have hb' : B.pending b x = [] := by simpa [hw] using congrArg List.tail hb.symm
      have hi : ¬Inside (s.threads t) := fun hi => by simp [h.inside t hi] at hw
      have := h.set (t := t) (m := update s.mem x v) (b := b) (l := s.threads t)
        (fun _ => hb') (.inl hb') (fun hl => absurd hl (not_or_intro hi (not_not_intro hb')))
        fun u hu hw => absurd hw (h.not_owns ho u hu)
      simpa using this

end Exclusive

theorem exclusive (h : Spinlock B D P x locked Inside) {mem₀ : Mem Val} {threads₀ : Tid → L}
    (hi : ∀ t, ¬Inside (threads₀ t)) {s : State B Tid L}
    (r : (system B D P mem₀ threads₀).Reachable s) : Exclusive x locked Inside s := by
  refine r.invariant (fun s hs => ?init) fun s l s' _ hx e => ?step
  case init => cases hs; exact .init hi
  case step =>
    cases e
    case move e => exact hx.change (h.exec _ _ _ _ _ _ _ e)
    case drain e => exact hx.drain e

end Spinlock
end Machine

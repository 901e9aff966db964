import OrderingBugs.Memory.Inclusion

open Function

variable {Tid Loc L : Type} {Val : Loc → Type}

-- The location whose value an operation takes from memory.
def Op.reads? : Op Loc Val L → Option Loc
  | load _ x _ | rmw _ x _ _ => some x
  | halt | skip _ | store .. | fence .. => none

namespace Machine

variable {P : Program Tid Loc Val L}

section Overtaking

variable [DecidableEq Loc] {B : Buffering Loc Val} {s : State B Tid L}

-- A thread reads a location while one of its own stores to another location is still buffered.
inductive Overtakes (P : Program Tid Loc Val L) : State B Tid L → Label Tid Loc L → Prop
  | move {s : State B Tid L} {t : Tid} {l l' : L} {x y : Loc} :
    (P t l).reads? = some y → x ≠ y → B.pending (s.buf t) x ≠ [] → Overtakes P s (.move t l l')

def Ordered (P : Program Tid Loc Val L) (s : State B Tid L) (l : Label Tid Loc L) : Prop :=
  ¬Overtakes P s l

theorem Ordered.of_flushed (h : s.Flushed) {t : Tid} {l l' : L} : Ordered P s (.move t l l') :=
  fun | .move (x := x) _ _ hp => hp (h t x)

theorem Ordered.drain {t : Tid} {x : Loc} : Ordered P s (.drain t x) :=
  nofun

theorem Ordered.pending_eq_nil {t : Tid} {l l' : L} {x y : Loc} (h : Ordered P s (.move t l l'))
    (hr : (P t l).reads? = some y) (hn : x ≠ y) : B.pending (s.buf t) x = [] := by
  by_contra hp
  exact h (.move hr hn hp)

end Overtaking

-- What a thread can do after its store of `v` to `x` without looking at any other location.
inductive Follow (P : Program Tid Loc Val L) (t : Tid) (e : Buffering.Entry Val) : L → L → Prop
  | skip {l l' : L} : P t l = .skip l' → Follow P t e l l'
  | fence {l l' : L} {o : Order} : P t l = .fence o l' → Follow P t e l l'
  | load {l : L} {o : Order} {k : Val e.1 → L} : P t l = .load o e.1 k → Follow P t e l (k e.2)

-- The thread at `l` gets to `l'` by storing the entries of a buffer, each followed by operations
-- that do not look past it.
inductive Lag (P : Program Tid Loc Val L) (t : Tid) :
    L → List (Buffering.Entry Val) → L → Prop
  | sync {l : L} : Lag P t l [] l
  | store {l k l₁ l' : L} {o : Order} {e : Buffering.Entry Val} {b : List (Buffering.Entry Val)} :
    P t l = .store o e.1 e.2 k → Relation.ReflTransGen (Follow P t e) k l₁ → Lag P t l₁ b l' →
    Lag P t l (e :: b) l'

namespace Lag

variable {t : Tid} {l l' k : L} {b : List (Buffering.Entry Val)} {e : Buffering.Entry Val}

theorem eq_of_nil (h : Lag P t l [] l') : l = l' := by
  cases h
  rfl

theorem append_store {o : Order} (h : Lag P t l b l') (hs : P t l' = .store o e.1 e.2 k) :
    Lag P t l (b ++ [e]) k := by
  induction h
  case sync => exact .store hs .refl .sync
  case store h hf _ hi => exact .store h hf (hi hs)

theorem follow (h : Lag P t l b l') (hb : b.getLast? = some e) (hf : Follow P t e l' k) :
    Lag P t l b k := by
  induction h
  case sync => simp at hb
  case store b hs hf' h hi =>
    cases b
    case nil =>
      cases h
      simp at hb
      subst hb
      exact .store hs (hf'.tail hf) .sync
    case cons => exact .store hs hf' (hi (by simpa using hb) hf)

end Lag

-- The operations that follow a store read the stored value from memory.
theorem Follow.interleave [DecidableEq Loc] {t : Tid} {e : Buffering.Entry Val} {l l' : L}
    {m : Mem Val} (h : Follow P t e l l') (he : m e.1 = e.2) :
    (P t l).interleave m = some (m, l') := by
  cases h <;> simp_all [Op.interleave]

variable [DecidableEq Tid]

theorem Lag.all_update {f f' : Tid → L} {g : Tid → List (Buffering.Entry Val)} {t : Tid} {l l' : L}
    {b : List (Buffering.Entry Val)} (h : ∀ u, Lag P u (f u) (g u) (f' u)) (ht : Lag P t l b l')
    (u : Tid) : Lag P u (update f t l u) (update g t b u) (update f' t l' u) := by
  by_cases hu : u = t
  case pos => subst hu; simpa using ht
  case neg => simpa [hu] using h u

-- The thread that is behind need not move when the other one does.
theorem Lag.all_update_ahead {f f' : Tid → L} {g : Tid → List (Buffering.Entry Val)} {t : Tid} {l : L}
    {b : List (Buffering.Entry Val)} (h : ∀ u, Lag P u (f u) (g u) (f' u))
    (ht : Lag P t (f t) b l) (u : Tid) : Lag P u (f u) (update g t b u) (update f' t l u) := by
  have := Lag.all_update h ht u
  rwa [update_eq_self] at this

variable [DecidableEq Loc]

theorem follow_steps (mem₀ : Mem Val) (threads₀ : Tid → L) {m : Mem Val} {f : Tid → L} {t : Tid}
    {l l' : L} {e : Buffering.Entry Val} (h : Relation.ReflTransGen (Follow P t e) l l') (he : m e.1 = e.2)
    (hl : f t = l) :
    ∃ ls, (Interleaving.system P mem₀ threads₀).Steps ⟨m, f⟩ ls ⟨m, update f t l'⟩ := by
  induction h using Relation.ReflTransGen.head_induction_on generalizing f
  case refl => exact ⟨[], hl ▸ (update_eq_self t f).symm ▸ .refl⟩
  case head h _ hi =>
    subst hl
    have e := Interleaving.Step.move (s := ⟨m, f⟩) (h.interleave he)
    have ⟨_, e'⟩ := hi (f := update f t _) (update_self ..)
    rw [update_idem] at e'
    exact ⟨_, .step e e'⟩

omit [DecidableEq Tid] in
-- While its buffer is not empty, a thread that overtakes no store only adds a store or follows the
-- last one.
theorem Ordered.lag {D : Discipline} {s : State (.fifo Val) Tid L} {t : Tid} {k l : L}
    {m : Mem Val} {b : List (Buffering.Entry Val)} (ho : Ordered P s (.move t (s.threads t) l))
    (hn : s.buf t ≠ ([] : List (Buffering.Entry Val)))
    (h : (P t (s.threads t)).exec (.fifo Val) D s.mem (s.buf t) = some (m, b, l))
    (hl : Lag P t k (s.buf t) (s.threads t)) : m = s.mem ∧ Lag P t k b l := by
  have ⟨e, he⟩ := Option.isSome_iff_exists.mp (List.getLast?_isSome.mpr hn)
  have hne : ¬(Buffering.fifo Val).Empty (s.buf t) := mt Buffering.fifo_empty_iff.mp hn
  cases hop : P t (s.threads t) <;> simp only [hop, Op.exec, reduceCtorEq] at h
  case skip =>
    cases h
    exact ⟨rfl, hl.follow he (.skip hop)⟩
  case fence =>
    split at h <;> cases h
    exact ⟨rfl, hl.follow he (.fence hop)⟩
  case load x _ =>
    cases h
    have hx : e.1 = x := by
      by_contra hx
      exact Buffering.fifo_pending_last he (ho.pending_eq_nil (by simp [hop, Op.reads?]) hx)
    subst hx
    rw [Buffering.fifo_view_last he]
    exact ⟨rfl, hl.follow he (.load hop)⟩
  case store o x v _ =>
    split at h
    case isTrue => cases h; exact ⟨rfl, hl.append_store (e := ⟨x, v⟩) hop⟩
    case isFalse => cases h
  case rmw x _ _ =>
    split at h <;> cases h
    case _ hw =>
      refine absurd (fun y => ?_) hne
      by_cases hy : y = x
      case pos => exact hy ▸ hw.2
      case neg => exact ho.pending_eq_nil (by simp [hop, Op.reads?]) hy

-- A run with total store order in which no thread overtakes its own stores is an interleaving: each
-- store and the operations that follow it happen when the store drains.
def ofOrdered (D : Discipline) (P : Program Tid Loc Val L) (mem₀ : Mem Val)
    (threads₀ : Tid → L) :
    ((system (.fifo Val) D P mem₀ threads₀).restrict (Ordered P)).Simulation
      (Interleaving.system P mem₀ threads₀) (fun _ => ([] : List Empty)) (fun _ => []) where
  Rel s c := c.mem = s.mem ∧ ∀ t, Lag P t (c.threads t) (s.buf t) (s.threads t)
  init s h := ⟨_, rfl, by cases h; exact ⟨rfl, fun _ => .sync⟩⟩
  step s c l s' _ _ hr e := by
    obtain ⟨hm, hl⟩ := hr
    obtain ⟨ho, e⟩ := e
    cases e
    case move t m b l h =>
      by_cases he : s.buf t = ([] : List (Buffering.Entry Val))
      case neg =>
        have ⟨hm', hl'⟩ := ho.lag he h (hl t)
        exact ⟨[], c, .refl, rfl, hm.trans hm'.symm, Lag.all_update_ahead hl hl'⟩
      case pos =>
        have hs := (he ▸ hl t).eq_of_nil
        cases Op.interleave_of_empty (Buffering.fifo_empty_iff.mpr he) h
        case inl hi =>
          obtain ⟨rfl, hi⟩ := hi
          rw [← hm, ← hs] at hi
          exact ⟨_, _, .single (.move hi), rfl, rfl, Lag.all_update hl (by rw [he]; exact .sync)⟩
        case inr hi =>
          obtain ⟨o, x, v, hop, rfl, rfl⟩ := hi
          have hl' := Lag.append_store (e := ⟨x, v⟩) (hl t) hop
          exact ⟨[], c, .refl, rfl, hm, Lag.all_update_ahead hl hl'⟩
    case drain t x v b h =>
      have hb : s.buf t = (⟨x, v⟩ :: b : List (Buffering.Entry Val)) := Buffering.fifo_pop h
      have hl' := hl t
      rw [hb] at hl'
      match hl' with
      | .store hs hf hl' =>
        have e : Interleaving.Step P c _ _ := .move (by rw [hs]; rfl)
        have ⟨_, e'⟩ := follow_steps mem₀ threads₀ hf
          (m := update c.mem x v) (f := update c.threads t _) (update_self x ..) (update_self t ..)
        rw [update_idem] at e'
        refine ⟨_, _, .step e e', by simp, congrArg (update · x v) hm, fun u => ?_⟩
        have := Lag.all_update hl hl' u
        rwa [update_eq_self] at this

end Machine

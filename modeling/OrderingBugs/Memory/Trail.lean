import OrderingBugs.Memory.C11

open Function

variable {Tid Loc L : Type} {Val : Loc → Type}

-- An access to memory, or a fence, without the values.
inductive Access (Loc : Type)
  | load (o : Order) (x : Loc)
  | store (o : Order) (x : Loc)
  | rmw (o : Order) (x : Loc)
  | fence (o : Order)
  deriving DecidableEq

def Op.access? : Op Loc Val L → Option (Access Loc)
  | halt | skip _ => none
  | load o x _ => some (.load o x)
  | store o x _ _ => some (.store o x)
  | rmw o x _ _ => some (.rmw o x)
  | fence o _ => some (.fence o)

namespace C11

-- What the code of a thread tells about the stores that may not have got to memory yet: there are none, or the
-- last one is to the given location, and a fence with release semantics may have followed.
inductive Trail (Loc : Type)
  | clear
  | store (x : Loc) (fenced : Bool)

def Trail.location? : Trail Loc → Option Loc
  | clear => none
  | store x _ => some x

def Trail.fence : Trail Loc → Trail Loc
  | clear => clear
  | store x _ => store x true

def Trail.next (d : Trail Loc) : Access Loc → Trail Loc
  | .load .. => d
  | .store o x | .rmw o x => if o = .seqCst then clear else store x false
  | .fence o => if o = .seqCst then clear else if Discipline.releases o then d.fence else d

-- The access does not get ahead of the stores before it: a load because the last one is to the same location, and
-- a store because of its release semantics, of a fence, or of its location.
def Trail.Admits : Trail Loc → Access Loc → Prop
  | clear, _ | store .., .fence _ => True
  | store x _, .load _ y => x = y
  | store x fenced, .store o y | store x fenced, .rmw o y => Discipline.releases o = true ∨ fenced = true ∨ x = y

instance [DecidableEq Loc] (d : Trail Loc) (a : Access Loc) : Decidable (d.Admits a) :=
  match d, a with
  | .clear, _ | .store .., .fence _ => isTrue trivial
  | .store x _, .load _ y => inferInstanceAs (Decidable (x = y))
  | .store x fenced, .store o y | .store x fenced, .rmw o y =>
    inferInstanceAs (Decidable (Discipline.releases o = true ∨ fenced = true ∨ x = y))

-- None of the accesses gets ahead of a store.
def Fenced (d : Trail Loc) : List (Access Loc) → Prop
  | [] => True
  | a :: as => d.Admits a ∧ Fenced (d.next a) as

instance decidableFenced [DecidableEq Loc] : (d : Trail Loc) → (as : List (Access Loc)) → Decidable (Fenced d as)
  | _, [] => isTrue trivial
  | d, a :: as => @instDecidableAnd _ _ _ (decidableFenced (d.next a) as)

def Trail.after (d : Trail Loc) (op : Op Loc Val L) : Trail Loc :=
  op.access?.elim d d.next

variable [DecidableEq Loc]

-- The places that a thread gets to if it runs through its code, whatever it finds in memory.
inductive Path (P : Program Tid Loc Val L) (t : Tid) (l₀ : L) : Trail Loc → L → Prop
  | start : Path P t l₀ .clear l₀
  | step {d : Trail Loc} {l l' : L} {m m' : Mem Val} :
    Path P t l₀ d l → (P t l).interleave m = some (m', l') → Path P t l₀ (d.after (P t l)) l'

-- On all paths through the code of the thread no access gets ahead of a store.
def FencedThread (T : Test Tid Loc Val L) (t : Tid) : Prop :=
  ∀ d l a, Path T.program t (T.threads t) d l → (T.program t l).access? = some a → d.Admits a

-- A thread all of whose stores are sequentially consistent has none to get ahead of.
theorem fencedThread_of_seqCst {T : Test Tid Loc Val L} {t : Tid}
    (h : ∀ l o x, (T.program t l).access? = some (.store o x) ∨ (T.program t l).access? = some (.rmw o x) →
      o = .seqCst) : FencedThread T t := by
  suffices hc : ∀ d l, Path T.program t (T.threads t) d l → d = .clear from
    fun d l a hp _ => hc d l hp ▸ trivial
  intro d l hp
  induction hp
  case start => rfl
  case step d l _ _ _ _ _ hd =>
    subst hd
    cases ha : (T.program t l).access?
    case none => simp [Trail.after, ha]
    case some a =>
      cases a
      case load => simp [Trail.after, ha, Trail.next]
      case store o x | rmw o x => simp [Trail.after, ha, Trail.next, h l o x (by simp [ha])]
      case fence => simp [Trail.after, ha, Trail.next, Trail.fence]

-- The store that an entry stands for.
def Entry.stored? : Entry Loc Val → Option (Buffering.Entry Val)
  | store _ x v _ => some ⟨x, v⟩
  | fence => none

abbrev stores (b : List (Entry Loc Val)) : List (Buffering.Entry Val) :=
  b.filterMap Entry.stored?

variable {m m' : Mem Val} {b b' : List (Entry Loc Val)} {e : Entry Loc Val} {p : Buffering.Entry Val}

theorem flush_last (h : (stores b).getLast? = some p) : flush m b p.1 = p.2 := by
  induction b using List.reverseRecOn
  case nil => cases h
  case append_singleton b e hi =>
    match e with
    | .fence => simpa [stores, Entry.stored?, Entry.apply] using hi (by simpa [stores, Entry.stored?] using h)
    | .store o x v rmw =>
      obtain rfl : ⟨x, v⟩ = p := by simpa [stores, Entry.stored?] using h
      simp [Entry.apply]

theorem flush_of_stores_eq_nil (h : stores b = []) : flush m b = m := by
  induction b generalizing m
  case nil => rfl
  case cons e b hi =>
    match e with
    | .fence => exact hi h
    | .store .. => cases h

-- What a thread executes has the effect that it has on memory under interleaving, once all entries have got
-- there.
theorem Exec.interleave {free : Loc → Prop} {op : Op Loc Val L} {l : L} (h : Exec free m b op m' b' l) :
    op.interleave (flush m b) = some (flush m' b', l) := by
  cases h <;> simp_all [Op.interleave, Entry.apply]

-- The entries of a thread, as far as the code tells.
structure Kept (d : Trail Loc) (b : List (Entry Loc Val)) : Prop where
  chain  : b.IsChain fun e e' => e'.overtakes e = false
  last   : ∀ p, (stores b).getLast? = some p → ∃ fenced, d = .store p.1 fenced
  fenced : ∀ x e, d = .store x true → b.getLast? = some e → e = .fence

namespace Kept

variable {d : Trail Loc}

theorem nil : Kept d ([] : List (Entry Loc Val)) :=
  ⟨.nil, nofun, nofun⟩

theorem of_cons (h : Kept d (e :: b)) : Kept d b where
  chain := h.chain.tail
  last p hp := h.last p <| by
    cases e <;> simp_all [stores, Entry.stored?, List.getLast?_cons]
  fenced x e' hd he := h.fenced x e' hd (by simp [List.getLast?_cons, he])

-- So it gets to memory in the order of the code.
theorem eq_nil_of_overtakes (h : Kept d (b ++ e :: b')) (ho : ∀ e' ∈ b, e.overtakes e' = true) : b = [] := by
  induction b using List.reverseRecOn
  case nil => rfl
  case append_singleton b e' _ =>
    rw [List.append_assoc] at h
    have hc := (List.isChain_append.mp h.chain).2.1
    simp [ho e'] at hc

theorem append_store {o : Order} {x : Loc} {v : Val x} {rmw : Bool} (h : Kept d b)
    (hd : d.Admits (.store o x)) : Kept (.store x false) (b ++ [.store o x v rmw]) where
  chain := by
    refine List.isChain_append.mpr ⟨h.chain, .singleton _, fun e he e' he' => ?_⟩
    obtain rfl : Entry.store o x v rmw = e' := by simpa using he'
    match e with
    | .fence => rfl
    | .store _ y w _ =>
      obtain ⟨b, rfl⟩ := List.getLast?_eq_some_iff.mp he
      obtain ⟨fenced, rfl⟩ := h.last ⟨y, w⟩ (by simp [stores, Entry.stored?])
      obtain hr | rfl | hx : Discipline.releases o = true ∨ fenced = true ∨ y = x := hd
      · simp [Entry.overtakes, hr]
      · cases h.fenced y _ rfl he
      · simp [Entry.overtakes, hx]
  last p hp := by
    obtain rfl : ⟨x, v⟩ = p := by simpa [stores, Entry.stored?] using hp
    exact ⟨false, rfl⟩
  fenced _ _ hd _ := by cases hd

theorem append_fence (h : Kept d b) : Kept d.fence (b ++ [.fence]) where
  chain := by
    refine List.isChain_append.mpr ⟨h.chain, .singleton _, fun e _ e' he' => ?_⟩
    obtain rfl : Entry.fence = e' := by simpa using he'
    rfl
  last p hp := by
    obtain ⟨fenced, rfl⟩ := h.last p (by simpa [stores, Entry.stored?] using hp)
    exact ⟨true, rfl⟩
  fenced _ _ _ he := by simpa using he.symm

theorem exec {free : Loc → Prop} {op : Op Loc Val L} {l : L} (h : Kept d b) (e : Exec free m b op m' b' l)
    (hd : ∀ a, op.access? = some a → d.Admits a) : Kept (d.after op) b' := by
  cases e
  case skip | load => exact h
  case store hb _ => subst hb; exact nil
  case rmw hb _ => subst hb; exact nil
  case fence hb => subst hb; exact nil
  case delay ho =>
    simpa [Trail.after, Op.access?, Trail.next, ho] using h.append_store (hd _ rfl)
  case delayRmw o x f k ho _ =>
    have hd : d.Admits (.store o x) := by
      have := hd _ rfl
      cases d <;> exact this
    simpa [Trail.after, Op.access?, Trail.next, ho] using h.append_store hd
  case delayFence ho hr => simpa [Trail.after, Op.access?, Trail.next, ho, hr] using h.append_fence
  case skipFence o hr =>
    have ho : o ≠ .seqCst := by
      rintro rfl
      cases hr
    simpa [Trail.after, Op.access?, Trail.next, ho, hr] using h

end Kept

-- The thread at `l` gets to `l'` by running through its entries, from the given memory on. After each store
-- comes what does not look past it. A read-modify-write finds in memory what it has read.
inductive Lag (P : Program Tid Loc Val L) (t : Tid) : Mem Val → L → List (Entry Loc Val) → L → Prop
  | sync {m : Mem Val} {l : L} : Lag P t m l [] l
  | store {m : Mem Val} {l k l₁ l' : L} {o o' : Order} {x : Loc} {v : Val x} {b : List (Entry Loc Val)} :
    P t l = .store o x v k → Relation.ReflTransGen (Machine.Follow P t ⟨x, v⟩) k l₁ →
    Lag P t (update m x v) l₁ b l' → Lag P t m l (.store o' x v false :: b) l'
  | rmw {m : Mem Val} {l l₁ l' : L} {o o' : Order} {x : Loc} {f : Val x → Val x} {k : Val x → L}
      {b : List (Entry Loc Val)} :
    P t l = .rmw o x f k → Relation.ReflTransGen (Machine.Follow P t ⟨x, f (m x)⟩) (k (m x)) l₁ →
    Lag P t (update m x (f (m x))) l₁ b l' → Lag P t m l (.store o' x (f (m x)) true :: b) l'
  | fence {m : Mem Val} {l l' : L} {b : List (Entry Loc Val)} : Lag P t m l b l' → Lag P t m l (.fence :: b) l'

namespace Lag

variable {P : Program Tid Loc Val L} {t : Tid} {l l' k : L}

theorem eq_of_nil (h : Lag P t m l [] l') : l = l' := by
  cases h
  rfl

theorem eq_of_stores_eq_nil (h : Lag P t m l b l') (hb : stores b = []) : l = l' := by
  induction h
  case sync => rfl
  case store | rmw => cases hb
  case fence hi => exact hi hb

theorem of_stores_eq_nil (hb : stores b = []) : Lag P t m l b l := by
  induction b
  case nil => exact .sync
  case cons e b hi =>
    match e with
    | .fence => exact .fence (hi hb)
    | .store .. => cases hb

-- Memory matters only where the thread has read it already.
theorem congr (h : Lag P t m l b l') (hm : ∀ x, reserves x b = true → m' x = m x) : Lag P t m' l b l' := by
  induction h generalizing m'
  case sync => exact .sync
  case fence hi => exact .fence (hi hm)
  case store m _ _ _ _ _ _ x v _ hs hf _ hi =>
    refine .store hs hf (hi fun y hy => ?_)
    by_cases hxy : y = x
    case pos => subst hxy; simp
    case neg => simpa [hxy] using hm y (by simp [reserves, Ne.symm hxy, hy])
  case rmw m _ _ _ _ _ x f _ _ hs hf _ hi =>
    have hx : m' x = m x := hm x (by simp [reserves])
    rw [← hx] at hf hi ⊢
    refine .rmw hs hf (hi fun y hy => ?_)
    by_cases hxy : y = x
    case pos => subst hxy; simp
    case neg => simpa [hxy] using hm y (by simp [reserves, Ne.symm hxy, hy])

theorem append_fence (h : Lag P t m l b l') : Lag P t m l (b ++ [.fence]) l' := by
  induction h
  case sync => exact .fence .sync
  case store hs hf _ hi => exact .store hs hf hi
  case rmw hs hf _ hi => exact .rmw hs hf hi
  case fence hi => exact .fence hi

theorem append_store {o o' : Order} {x : Loc} {v : Val x} (h : Lag P t m l b l')
    (hs : P t l' = .store o x v k) : Lag P t m l (b ++ [.store o' x v false]) k := by
  induction h
  case sync => exact .store hs .refl .sync
  case store h hf _ hi => exact .store h hf (hi hs)
  case rmw h hf _ hi => exact .rmw h hf (hi hs)
  case fence hi => exact .fence (hi hs)

theorem append_rmw {o o' : Order} {x : Loc} {f : Val x → Val x} {k : Val x → L} (h : Lag P t m l b l')
    (hs : P t l' = .rmw o x f k) :
    Lag P t m l (b ++ [.store o' x (f (flush m b x)) true]) (k (flush m b x)) := by
  induction h
  case sync => exact .rmw hs .refl .sync
  case store h hf _ hi => exact .store h hf (hi hs)
  case rmw h hf _ hi => exact .rmw h hf (hi hs)
  case fence hi => exact .fence (hi hs)

theorem follow (h : Lag P t m l b l') (hb : (stores b).getLast? = some p)
    (hf : Machine.Follow P t p l' k) : Lag P t m l b k := by
  induction h
  case sync => cases hb
  case fence hi => exact .fence (hi hb hf)
  case store m _ _ _ _ _ _ x v b hs hf' h hi =>
    cases hl : (stores b).getLast?
    case some q =>
      have hq : q = p := by simpa [stores, Entry.stored?, List.getLast?_cons, hl] using hb
      exact .store hs hf' (hi (hq ▸ hl) hf)
    case none =>
      have hn : stores b = [] := List.getLast?_eq_none_iff.mp hl
      obtain rfl : ⟨x, v⟩ = p := by simpa [stores, Entry.stored?, hn] using hb
      obtain rfl := h.eq_of_stores_eq_nil hn
      exact .store hs (hf'.tail hf) (of_stores_eq_nil hn)
  case rmw m _ _ _ _ _ x f _ b hs hf' h hi =>
    cases hl : (stores b).getLast?
    case some q =>
      have hq : q = p := by simpa [stores, Entry.stored?, List.getLast?_cons, hl] using hb
      exact .rmw hs hf' (hi (hq ▸ hl) hf)
    case none =>
      have hn : stores b = [] := List.getLast?_eq_none_iff.mp hl
      obtain rfl : ⟨x, f (m x)⟩ = p := by simpa [stores, Entry.stored?, hn] using hb
      obtain rfl := h.eq_of_stores_eq_nil hn
      exact .rmw hs (hf'.tail hf) (of_stores_eq_nil hn)

-- A thread that does not get ahead of its stores adds to its entries, or follows the last one, or it has
-- nothing that could be overtaken and does what it does under interleaving.
theorem exec {d : Trail Loc} {free : Loc → Prop} (h : Lag P t m l b l') (hk : Kept d b)
    (hd : ∀ a, (P t l').access? = some a → d.Admits a) (e : Exec free m b (P t l') m' b' k) :
    (m' = m ∧ Lag P t m l b' k) ∨
      (l = l' ∧ (P t l').interleave m = some (m', k) ∧ stores b' = [] ∧ ∀ x, m' x ≠ m x → free x) := by
  have hi := e.interleave
  have alone (hb : stores b = []) (hb' : stores b' = []) (hf : ∀ x, m' x ≠ m x → free x) :
      l = l' ∧ (P t l').interleave m = some (m', k) ∧ stores b' = [] ∧ ∀ x, m' x ≠ m x → free x := by
    rw [flush_of_stores_eq_nil hb, flush_of_stores_eq_nil hb'] at hi
    exact ⟨h.eq_of_stores_eq_nil hb, hi, hb', hf⟩
  have follows (hf : ∀ p, (stores b).getLast? = some p → Machine.Follow P t p l' k) :
      stores b = [] ∨ Lag P t m l b k := by
    cases hl : (stores b).getLast?
    case none => exact .inl (List.getLast?_eq_none_iff.mp hl)
    case some p => exact .inr (h.follow hl (hf p hl))
  generalize hop : P t l' = op at *
  cases e
  case skip => exact (follows fun _ _ => .skip hop).symm.imp (⟨rfl, ·⟩) fun hb => alone hb hb (by simp)
  case skipFence => exact (follows fun _ _ => .fence hop).symm.imp (⟨rfl, ·⟩) fun hb => alone hb hb (by simp)
  case delayFence =>
    refine (follows fun _ _ => .fence hop).symm.imp (⟨rfl, ·.append_fence⟩) fun hb => alone hb ?_ (by simp)
    simpa [stores, Entry.stored?] using hb
  case load o x k =>
    refine (follows fun p hp => ?_).symm.imp (⟨rfl, ·⟩) fun hb => alone hb hb (by simp)
    obtain ⟨fenced, rfl⟩ := hk.last p hp
    obtain rfl : p.1 = x := hd _ rfl
    rw [flush_last hp]
    exact .load hop
  case delay => exact .inl ⟨rfl, h.append_store hop⟩
  case delayRmw => exact .inl ⟨rfl, h.append_rmw hop⟩
  case store x v hb hx =>
    subst hb
    refine .inr (alone rfl rfl fun y hy => ?_)
    by_cases hyx : y = x
    case pos => exact hyx ▸ hx
    case neg => simp [hyx] at hy
  case rmw x f k hb hx =>
    subst hb
    refine .inr (alone rfl rfl fun y hy => ?_)
    by_cases hyx : y = x
    case pos => exact hyx ▸ hx
    case neg => simp [hyx] at hy
  case fence hb =>
    subst hb
    exact .inr (alone rfl rfl (by simp))

-- The thread can catch up on its own, which gets memory to where its entries will get it.
theorem steps [DecidableEq Tid] (h : Lag P t m l b l') {mem₀ : Mem Val} {threads₀ f : Tid → L} (hl : f t = l) :
    ∃ ls, (Interleaving.system P mem₀ threads₀).Steps ⟨m, f⟩ ls ⟨flush m b, update f t l'⟩ := by
  induction h generalizing f
  case sync => exact ⟨[], by rw [← hl, update_eq_self]; exact .refl⟩
  case fence hi => exact hi hl
  case store m _ _ _ _ _ _ x v _ hs hf _ hi =>
    subst hl
    have e : Interleaving.Step P ⟨m, f⟩ _ _ := .move (by rw [hs]; rfl)
    obtain ⟨_, e'⟩ := Machine.follow_steps mem₀ threads₀ hf (m := update m x v) (f := update f t _)
      (update_self x ..) (update_self t ..)
    obtain ⟨_, e''⟩ := hi (update_self t _ _)
    simp only [update_idem] at e' e''
    exact ⟨_, .step e (e'.trans e'')⟩
  case rmw m _ _ _ _ _ x g _ _ hs hf _ hi =>
    subst hl
    have e : Interleaving.Step P ⟨m, f⟩ _ _ := .move (by rw [hs]; rfl)
    obtain ⟨_, e'⟩ := Machine.follow_steps mem₀ threads₀ hf (m := update m x (g (m x))) (f := update f t _)
      (update_self x ..) (update_self t ..)
    obtain ⟨_, e''⟩ := hi (update_self t _ _)
    simp only [update_idem] at e' e''
    exact ⟨_, .step e (e'.trans e'')⟩

end Lag

section Simulation

variable [DecidableEq Tid] {T : Test Tid Loc Val L} {s : State Val Tid L} {t : Tid}

theorem kept_of_reachable (hT : ∀ t, FencedThread T t) (r : (machine T).Reachable s) (t : Tid) :
    ∃ d, Path T.program t (T.threads t) d (s.threads t) ∧ Kept d (s.buf t) := by
  revert t
  refine r.invariant (I := fun s => ∀ t, ∃ d, Path T.program t (T.threads t) d (s.threads t) ∧ Kept d (s.buf t))
    (fun s hs => ?init) fun s t s' _ h e => ?step
  case init =>
    cases hs
    exact fun t => ⟨.clear, .start, .nil⟩
  case step =>
    intro u
    by_cases hu : u = t
    case neg =>
      cases e <;> simpa [hu] using h u
    case pos =>
      subst hu
      obtain ⟨d, hp, hk⟩ := h u
      cases e
      case fence hb => exact ⟨d, hp, by simpa using (hb ▸ hk).of_cons⟩
      case drain hb ho _ =>
        obtain rfl := (hb ▸ hk).eq_nil_of_overtakes ho
        exact ⟨d, hp, by simpa using (hb ▸ hk).of_cons⟩
      case move e =>
        refine ⟨d.after (T.program u (s.threads u)), ?_, ?_⟩
        · simpa using hp.step e.interleave
        · simpa using hk.exec e fun a => hT u d _ a hp

-- If no thread gets ahead of its stores, the runs are interleavings in which the threads are behind: each store,
-- and what follows it, happens when it gets to memory.
def ofFenced (T : Test Tid Loc Val L) (hT : ∀ t, FencedThread T t) :
    (machine T).Simulation T.interleaving (fun _ => ([] : List Empty)) (fun _ => []) where
  Rel s c := ∃ f, c = ⟨s.mem, f⟩ ∧ ∀ t, Lag T.program t s.mem (f t) (s.buf t) (s.threads t)
  init s h := ⟨_, rfl, by cases h; exact ⟨_, rfl, fun _ => .sync⟩⟩
  step s c t s' r _ hr e := by
    obtain ⟨f, rfl, hl⟩ := hr
    obtain ⟨d, hp, hk⟩ := kept_of_reachable hT r t
    -- The others only care for the locations that they have reserved.
    have others {m : Mem Val} (hm : ∀ x, m x ≠ s.mem x → s.Free t x) (u : Tid) (hu : u ≠ t) :
        Lag T.program u m (f u) (s.buf u) (s.threads u) :=
      (hl u).congr fun x hx => by
        by_contra hn
        simp [hm x hn u hu] at hx
    have all {m : Mem Val} {b : List (Entry Loc Val)} {k l : L} (hm : ∀ x, m x ≠ s.mem x → s.Free t x)
        (ht : Lag T.program t m k b l) (u : Tid) :
        Lag T.program u m (update f t k u) (update s.buf t b u) (update s.threads t l u) := by
      by_cases hu : u = t
      case pos => subst hu; simpa using ht
      case neg => simpa [hu] using others hm u hu
    cases e
    case fence b hb =>
      cases hb ▸ hl t
      case fence h => exact ⟨[], _, .refl, rfl, f, rfl, by simpa using all (by simp) h⟩
    case move m b l e =>
      obtain ⟨rfl, h⟩ | ⟨ht, hi, hb, hm⟩ := (hl t).exec hk (fun a => hT t d _ a hp) e
      case inl => exact ⟨[], _, .refl, rfl, f, rfl, by simpa using all (by simp) h⟩
      case inr =>
        have e' : Interleaving.Step T.program ⟨s.mem, f⟩ _ _ := .move (t := t) (ht.symm ▸ hi)
        exact ⟨_, _, .single e', rfl, _, rfl, all hm (.of_stores_eq_nil hb)⟩
    case drain b b' o x v rmw hb ho hx =>
      obtain rfl := (hb ▸ hk).eq_nil_of_overtakes ho
      have hm : ∀ y, update s.mem x v y ≠ s.mem y → s.Free t y := fun y hy => by
        by_cases hyx : y = x
        case pos => exact hyx ▸ hx
        case neg => simp [hyx] at hy
      have catchUp {k l₁ : L} (hi : (T.program t (f t)).interleave s.mem = some (update s.mem x v, k))
          (hf : Relation.ReflTransGen (Machine.Follow T.program t ⟨x, v⟩) k l₁)
          (h : Lag T.program t (update s.mem x v) l₁ b' (s.threads t)) :
          ∃ ls c', T.interleaving.Steps ⟨s.mem, f⟩ ls c' ∧ ls.flatMap (fun _ => ([] : List Empty)) = [] ∧
            ∃ f', c' = ⟨update s.mem x v, f'⟩ ∧
              ∀ u, Lag T.program u (update s.mem x v) (f' u) (update s.buf t ([] ++ b') u) (s.threads u) := by
        have e : Interleaving.Step T.program ⟨s.mem, f⟩ _ _ := .move hi
        obtain ⟨_, e'⟩ := Machine.follow_steps T.mem T.threads hf (m := update s.mem x v) (f := update f t _)
          (update_self x ..) (update_self t ..)
        rw [update_idem] at e'
        exact ⟨_, _, .step e e', by simp, _, rfl, by simpa using all hm h⟩
      cases hb ▸ hl t
      case store hf hs h => exact catchUp (by rw [hs]; rfl) hf h
      case rmw hf hs h => exact catchUp (by rw [hs]; rfl) hf h

-- So there is an interleaving that violates the same assertions.
theorem Violates.interleaving (hT : ∀ t, FencedThread T t) (h : Violates T) : T.InterleavingViolates := by
  obtain ⟨s, r, hf⟩ := h
  obtain ⟨_, r, f, rfl, hl⟩ := (ofFenced T hT).reachable r
  obtain ⟨t, hf⟩ | ⟨hh, hb, hp⟩ := hf
  case inl =>
    obtain ⟨_, es⟩ := (hl t).steps rfl
    exact ⟨_, r.steps es, .inl ⟨t, by simpa using hf⟩⟩
  case inr =>
    obtain rfl : f = s.threads := funext fun t => (hb t ▸ hl t).eq_of_nil
    exact ⟨_, r, .inr ⟨hh, hp⟩⟩

end Simulation
end C11

import OrderingBugs.Memory.Strengthening

open Function

-- A machine for the memory orders of C11, in which the stores of a thread can be delayed past everything
-- else that the thread does. What is sequentially consistent is not delayed, and what has release semantics
-- gets to memory after everything that is before it. Loads take place in the order of the code, and all other
-- threads see a store at the same time.
namespace C11

variable {Tid Loc L : Type} [DecidableEq Tid] [DecidableEq Loc] {Val : Loc → Type}

-- What a thread has executed and the others have not seen yet: a store, which may be the one of a
-- read-modify-write, or a fence with release semantics.
inductive Entry (Loc : Type) (Val : Loc → Type)
  | store (o : Order) (x : Loc) (v : Val x) (rmw : Bool)
  | fence

-- The entry can get to memory before one that has been executed earlier.
def Entry.overtakes : Entry Loc Val → Entry Loc Val → Bool
  | store o x _ _, store _ y _ _ => !Discipline.releases o && x ≠ y
  | store .., fence | fence, _ => false

def Entry.apply (m : Mem Val) : Entry Loc Val → Mem Val
  | store _ x v _ => update m x v
  | fence => m

-- Memory after all entries have got there, as the thread itself sees it.
def flush (m : Mem Val) (b : List (Entry Loc Val)) : Mem Val :=
  b.foldl Entry.apply m

-- The next store of the thread to a location belongs to a read-modify-write that has read memory already.
-- Nothing may come in between.
def reserves (x : Loc) : List (Entry Loc Val) → Bool
  | [] => false
  | .store _ y _ rmw :: b => if y = x then rmw else reserves x b
  | .fence :: b => reserves x b

def Entry.Stores (x : Loc) : Entry Loc Val → Prop
  | store _ y _ _ => y = x
  | fence => False

section Exec

variable (free : Loc → Prop) (m : Mem Val) (b : List (Entry Loc Val))

-- What a thread can do with its next operation, where the free locations are those that no other thread has
-- reserved. A read-modify-write reads what the thread has stored last, or else memory.
inductive Exec : Op Loc Val L → Mem Val → List (Entry Loc Val) → L → Prop
  | skip {k : L} : Exec (.skip k) m b k
  | load {o : Order} {x : Loc} {k : Val x → L} : Exec (.load o x k) m b (k (flush m b x))
  | store {x : Loc} {v : Val x} {k : L} : b = [] → free x → Exec (.store .seqCst x v k) (update m x v) b k
  | delay {o : Order} {x : Loc} {v : Val x} {k : L} :
    o ≠ .seqCst → Exec (.store o x v k) m (b ++ [.store o x v false]) k
  | rmw {x : Loc} {f : Val x → Val x} {k : Val x → L} :
    b = [] → free x → Exec (.rmw .seqCst x f k) (update m x (f (m x))) b (k (m x))
  | delayRmw {o : Order} {x : Loc} {f : Val x → Val x} {k : Val x → L} :
    o ≠ .seqCst → free x ∨ (∃ e ∈ b, e.Stores x) →
    Exec (.rmw o x f k) m (b ++ [.store o x (f (flush m b x)) true]) (k (flush m b x))
  | fence {k : L} : b = [] → Exec (.fence .seqCst k) m b k
  | delayFence {o : Order} {k : L} :
    o ≠ .seqCst → Discipline.releases o = true → Exec (.fence o k) m (b ++ [.fence]) k
  | skipFence {o : Order} {k : L} : Discipline.releases o = false → Exec (.fence o k) m b k

end Exec

structure State (Val : Loc → Type) (Tid L : Type) where
  mem     : Mem Val
  buf     : Tid → List (Entry Loc Val)
  threads : Tid → L

-- No other thread has reserved the location.
def State.Free (s : State Val Tid L) (t : Tid) (x : Loc) : Prop :=
  ∀ u ≠ t, reserves x (s.buf u) = false

-- A thread moves, or one of its stores gets to memory, or a fence has nothing to keep back any more.
inductive Step (P : Program Tid Loc Val L) : State Val Tid L → Tid → State Val Tid L → Prop
  | move {s : State Val Tid L} {t : Tid} {m : Mem Val} {b : List (Entry Loc Val)} {l : L} :
    Exec (s.Free t) s.mem (s.buf t) (P t (s.threads t)) m b l →
    Step P s t ⟨m, update s.buf t b, update s.threads t l⟩
  | drain {s : State Val Tid L} {t : Tid} {b b' : List (Entry Loc Val)} {o : Order} {x : Loc} {v : Val x}
      {rmw : Bool} :
    s.buf t = b ++ .store o x v rmw :: b' → (∀ e ∈ b, (Entry.store o x v rmw).overtakes e = true) →
    s.Free t x → Step P s t ⟨update s.mem x v, update s.buf t (b ++ b'), s.threads⟩
  | fence {s : State Val Tid L} {t : Tid} {b : List (Entry Loc Val)} :
    s.buf t = .fence :: b → Step P s t ⟨s.mem, update s.buf t b, s.threads⟩

def system (P : Program Tid Loc Val L) (mem₀ : Mem Val) (threads₀ : Tid → L) :
    System (State Val Tid L) Tid where
  Init s := s = ⟨mem₀, fun _ => [], threads₀⟩
  Step := Step P

section Test

variable (T : Test Tid Loc Val L)

def machine : System (State Val Tid L) Tid :=
  system T.program T.mem T.threads

def Fails (s : State Val Tid L) : Prop :=
  (∃ t, T.Failed (s.threads t)) ∨ (T.Halted s.threads ∧ (∀ t, s.buf t = []) ∧ ¬T.Post s.mem s.threads)

-- Some execution that the orders allow violates an assertion.
def Violates : Prop :=
  ∃ s, (machine T).Reachable s ∧ Fails T s

end Test

section Flush

variable {m m' : Mem Val} {b b' : List (Entry Loc Val)} {e : Entry Loc Val} {x y : Loc}

@[simp]
theorem flush_nil : flush m ([] : List (Entry Loc Val)) = m :=
  rfl

@[simp]
theorem flush_cons : flush m (e :: b) = flush (e.apply m) b :=
  rfl

@[simp]
theorem flush_append : flush m (b ++ b') = flush (flush m b) b' :=
  List.foldl_append

-- What is stored to other locations makes no difference.
theorem flush_of_not_stores (h : ∀ e ∈ b, ¬e.Stores x) : flush m b x = m x := by
  induction b generalizing m
  case nil => rfl
  case cons e b hi =>
    rw [flush_cons, hi fun e' he' => h e' (List.mem_cons_of_mem _ he')]
    match e, h e List.mem_cons_self with
    | .store _ y v _, he => exact update_of_ne (Ne.symm he) ..
    | .fence, _ => rfl

theorem not_reserves (h : ∀ e ∈ b, ¬e.Stores x) : reserves x b = false := by
  induction b
  case nil => rfl
  case cons e b hi =>
    have hb := hi fun e' he' => h e' (List.mem_cons_of_mem _ he')
    match e, h e List.mem_cons_self with
    | .store .., he => exact (if_neg he).trans hb
    | .fence, _ => exact hb

end Flush

section Eager

variable {P : Program Tid Loc Val L} (mem₀ : Mem Val) (threads₀ : Tid → L) {s : State Val Tid L} {t : Tid}
variable {m : Mem Val} {l : L}

-- A thread executes its next operation with given entries.
theorem Step.of_exec {f : Tid → L} {g : Tid → List (Entry Loc Val)} {b b' : List (Entry Loc Val)} {m' : Mem Val}
    (e : Exec (State.Free ⟨m, update g t b, f⟩ t) m b (P t (f t)) m' b' l) :
    Step P ⟨m, update g t b, f⟩ t ⟨m', update g t b', update f t l⟩ := by
  have h : Step P ⟨m, update g t b, f⟩ t ⟨m', update (update g t b) t b', _⟩ := .move (by simpa using e)
  rwa [update_idem] at h

-- A store gets to memory before the one that the thread has executed first.
theorem Step.of_overtakes {f : Tid → L} {g : Tid → List (Entry Loc Val)} {e : Entry Loc Val} {o : Order} {x : Loc}
    {v : Val x} {rmw : Bool} (h : (Entry.store o x v rmw).overtakes e = true)
    (hf : ∀ u ≠ t, reserves x (g u) = false) :
    Step P ⟨m, update g t [e, .store o x v rmw], f⟩ t ⟨update m x v, update g t [e], f⟩ := by
  have h : Step P ⟨m, update g t [e, .store o x v rmw], f⟩ t ⟨_, update (update g t _) t [e], f⟩ :=
    .drain (b := [e]) (update_self ..) (by simpa using h) fun u hu => by simpa [hu] using hf u hu
  rwa [update_idem] at h

-- The entries of a thread get to memory one after the other.
theorem steps_of_flush {b : List (Entry Loc Val)} {f : Tid → L} {g : Tid → List (Entry Loc Val)} (hg : g t = [])
    (hf : ∀ e ∈ b, ∀ x, e.Stores x → ∀ u ≠ t, reserves x (g u) = false) :
    ∃ ls, (system P mem₀ threads₀).Steps ⟨m, update g t b, f⟩ ls ⟨flush m b, g, f⟩ := by
  induction b generalizing m
  case nil =>
    rw [show update g t [] = g from hg ▸ update_eq_self ..]
    exact ⟨[], .refl⟩
  case cons e b hi =>
    obtain ⟨_, es⟩ := hi (m := e.apply m) fun e he => hf e (List.mem_cons_of_mem _ he)
    have h : Step P ⟨m, update g t (e :: b), f⟩ t ⟨e.apply m, update (update g t (e :: b)) t b, f⟩ := by
      match e with
      | .fence => exact .fence (update_self ..)
      | .store o x v rmw =>
        refine .drain (b := []) (update_self ..) (by simp) fun u hu => ?_
        simpa [hu] using hf _ List.mem_cons_self x rfl u hu
    rw [update_idem] at h
    exact ⟨_, .step h es⟩

-- A thread that has no entries can do what it does under interleaving, unless a location that it stores to is
-- reserved.
theorem steps_of_interleave (hb : s.buf t = []) (h : (P t (s.threads t)).interleave s.mem = some (m, l))
    (hf : ∀ x, (P t (s.threads t)).Writes x → s.Free t x) :
    ∃ ls, (system P mem₀ threads₀).Steps s ls ⟨m, s.buf, update s.threads t l⟩ := by
  have now (he : Exec (s.Free t) s.mem [] (P t (s.threads t)) m [] l) :
      ∃ ls, (system P mem₀ threads₀).Steps s ls ⟨m, s.buf, update s.threads t l⟩ := by
    have h : Step P s t ⟨m, update s.buf t [], update s.threads t l⟩ := .move (by rwa [hb])
    rw [show update s.buf t [] = s.buf from hb ▸ update_eq_self ..] at h
    exact ⟨_, .single h⟩
  have later {e : Entry Loc Val} (he : Exec (s.Free t) s.mem [] (P t (s.threads t)) s.mem [e] l)
      (hm : e.apply s.mem = m) (hx : ∀ x, e.Stores x → (P t (s.threads t)).Writes x) :
      ∃ ls, (system P mem₀ threads₀).Steps s ls ⟨m, s.buf, update s.threads t l⟩ := by
    have h : Step P s t ⟨s.mem, update s.buf t [e], update s.threads t l⟩ := .move (by rwa [hb])
    obtain ⟨_, hs⟩ := steps_of_flush mem₀ threads₀ (P := P) (m := s.mem) (b := [e])
      (f := update s.threads t l) hb fun e' he x hx' => hf x (hx x (List.mem_singleton.mp he ▸ hx'))
    exact ⟨_, .step h (by rwa [flush_cons, flush_nil, hm] at hs)⟩
  generalize P t (s.threads t) = op at *
  cases op <;> simp only [Op.interleave, Option.some.injEq, Prod.mk.injEq, reduceCtorEq] at h
  case skip =>
    obtain ⟨rfl, rfl⟩ := h
    exact now .skip
  case load =>
    obtain ⟨rfl, rfl⟩ := h
    exact now .load
  case store o x v k =>
    obtain ⟨rfl, rfl⟩ := h
    by_cases ho : o = .seqCst
    case pos => subst ho; exact now (.store rfl (hf x rfl))
    case neg => exact later (.delay ho) rfl fun _ => Eq.symm
  case rmw o x f k =>
    obtain ⟨rfl, rfl⟩ := h
    by_cases ho : o = .seqCst
    case pos => subst ho; exact now (.rmw rfl (hf x rfl))
    case neg => exact later (.delayRmw ho (.inl (hf x rfl))) rfl fun _ => Eq.symm
  case fence o k =>
    obtain ⟨rfl, rfl⟩ := h
    by_cases ho : o = .seqCst
    case pos => subst ho; exact now (.fence rfl)
    case neg =>
      cases hr : Discipline.releases o
      case true => exact later (.delayFence ho hr) rfl fun _ => id
      case false => exact now (.skipFence hr)

end Eager

variable {T : Test Tid Loc Val L}

-- Interleavings are runs in which nothing is delayed.
def ofInterleaving (T : Test Tid Loc Val L) :
    T.interleaving.Simulation (machine T) (fun _ => ([] : List Empty)) (fun _ => []) where
  Rel s c := c = ⟨s.mem, fun _ => [], s.threads⟩
  init s h := ⟨_, rfl, by cases h; rfl⟩
  step s c l s' _ _ hr e := by
    subst hr
    cases e
    case move h =>
      obtain ⟨ls, es⟩ := steps_of_interleave T.mem T.threads (s := ⟨s.mem, fun _ => [], s.threads⟩) rfl h
        fun _ _ _ _ => rfl
      exact ⟨ls, _, es, by simp, rfl⟩

theorem violates_of_interleaving (h : T.InterleavingViolates) : Violates T := by
  obtain ⟨s, r, hf⟩ := h
  obtain ⟨_, r, rfl⟩ := (ofInterleaving T).reachable r
  exact ⟨_, r, hf.imp_right fun ⟨hh, hp⟩ => ⟨hh, fun _ => rfl, hp⟩⟩

-- What an operation does with a stronger order, it can do with its own one, or it finds no entries and acts on
-- memory at once.
theorem Exec.of_mapOrder {f : Order → Order} {free : Loc → Prop} {m m' : Mem Val}
    {b b' : List (Entry Loc Val)} {op : Op Loc Val L} {l : L} (hf : ∀ o, f o = o ∨ f o = .seqCst)
    (h : Exec free m b (op.mapOrder f) m' b' l) :
    Exec free m b op m' b' l ∨
      (b = [] ∧ b' = [] ∧ op.interleave m = some (m', l) ∧ ∀ x, op.Writes x → free x) := by
  cases op <;> simp only [Op.mapOrder] at h
  case halt => cases h
  case skip => exact .inl h
  case load => cases h; exact .inl .load
  case store o x v k =>
    obtain ho | ho := hf o <;> rw [ho] at h
    case inl => exact .inl h
    case inr =>
      cases h
      case store hb hx => exact .inr ⟨hb, hb, rfl, fun _ h => h ▸ hx⟩
      case delay hn => exact absurd rfl hn
  case rmw o x g k =>
    obtain ho | ho := hf o <;> rw [ho] at h
    case inl => exact .inl h
    case inr =>
      cases h
      case rmw hb hx => exact .inr ⟨hb, hb, rfl, fun _ h => h ▸ hx⟩
      case delayRmw hn _ => exact absurd rfl hn
  case fence o k =>
    obtain ho | ho := hf o <;> rw [ho] at h
    case inl => exact .inl h
    case inr =>
      cases h
      case fence hb => exact .inr ⟨hb, hb, rfl, fun _ h => h.elim⟩
      case delayFence hn _ => exact absurd rfl hn
      case skipFence hr => cases hr

def ofMapOrder (T : Test Tid Loc Val L) {f : Order → Order} (hf : ∀ o, f o = o ∨ f o = .seqCst) :
    (machine (T.mapOrder f)).Simulation (machine T) (fun _ => ([] : List Empty)) (fun _ => []) where
  Rel s c := c = s
  init s h := ⟨s, h, rfl⟩
  step s c t s' _ _ hr e := by
    subst hr
    cases e
    case drain h hd hf => exact ⟨_, _, .single (.drain h hd hf), rfl, rfl⟩
    case fence h => exact ⟨_, _, .single (.fence h), rfl, rfl⟩
    case move m b l e =>
      obtain e | ⟨hb, rfl, hi, hw⟩ := e.of_mapOrder hf
      case inl => exact ⟨_, _, .single (.move e), rfl, rfl⟩
      case inr =>
        obtain ⟨ls, es⟩ := steps_of_interleave T.mem T.threads hb hi hw
        exact ⟨ls, _, es, by simp, by rw [← hb, update_eq_self]⟩

-- A program has all executions of one in which some of the orders are stronger.
theorem Violates.of_mapOrder {f : Order → Order} (hf : ∀ o, f o = o ∨ f o = .seqCst)
    (h : Violates (T.mapOrder f)) : Violates T := by
  obtain ⟨s, r, h⟩ := h
  obtain ⟨c, r', rfl⟩ := (ofMapOrder T hf).reachable r
  simp only [Fails, Test.halted_mapOrder_iff] at h
  exact ⟨c, r', h⟩

end C11

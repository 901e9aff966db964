import OrderingBugs.Memory.Trail

open Function

variable {Tid Loc L : Type} {Val : Loc → Type}

-- From `l` on, the thread performs the given accesses, whatever it finds in memory.
inductive Program.Performs [DecidableEq Loc] (P : Program Tid Loc Val L) (t : Tid) : L → List (Access Loc) → Prop
  | halt {l : L} : P t l = .halt → Performs P t l []
  | skip {l k : L} {as : List (Access Loc)} : P t l = .skip k → Performs P t k as → Performs P t l as
  | access {l : L} {a : Access Loc} {as : List (Access Loc)} :
    (P t l).access? = some a → (∀ m m' k, (P t l).interleave m = some (m', k) → Performs P t k as) →
    Performs P t l (a :: as)

namespace Access

def mapOrder (f : Order → Order) : Access Loc → Access Loc
  | load o x => load (f o) x
  | store o x => store (f o) x
  | rmw o x => rmw (f o) x
  | fence o => fence (f o)

theorem access?_mapOrder {f : Order → Order} {op : Op Loc Val L} :
    (op.mapOrder f).access? = op.access?.map (mapOrder f) := by
  cases op <;> rfl

def read? : Access Loc → Option Loc
  | load _ x | rmw _ x => some x
  | store .. | fence _ => none

def written? : Access Loc → Option Loc
  | store _ x | rmw _ x => some x
  | load .. | fence _ => none

def op (a : Access Loc) (v : ℕ) (k : ℕ → L) (k' : L) : Op Loc (fun _ => ℕ) L :=
  match a with
  | load o x => .load o x k
  | store o x => .store o x v k'
  | rmw o x => .rmw o x (fun _ => v) k
  | fence o => .fence o k'

-- The registers after an access whose result is kept in the register `p`.
def read (a : Access Loc) (p : ℕ) (m : Loc → ℕ) (ρ : ℕ → ℕ) : ℕ → ℕ :=
  a.read?.elim ρ fun x => update ρ p (m x)

variable {a : Access Loc} {m : Loc → ℕ} {ρ : ℕ → ℕ} {p q v : ℕ} {x : Loc}

theorem op_writes_iff {k : ℕ → L} {k' : L} : (a.op v k k').Writes x ↔ a.written? = some x := by
  cases a <;> simp [op, Op.Writes, written?, eq_comm]

theorem read_of_ne (h : q ≠ p) : a.read p m ρ q = ρ q := by
  cases a <;> simp [read, read?, h]

theorem read_self (h : a.read? = some x) : a.read p m ρ p = m x := by
  simp [read, h]

variable [DecidableEq Loc]

-- Memory after an access that stores `v`.
def write (a : Access Loc) (v : ℕ) (m : Loc → ℕ) : Loc → ℕ :=
  a.written?.elim m fun x => update m x v

theorem write_of_ne (h : a.written? ≠ some x) : a.write v m x = m x := by
  cases a <;> simp_all [written?, write, Ne.symm]

theorem write_self (h : a.written? = some x) : a.write v m x = v := by
  simp [write, h]

theorem op_interleave {k : (ℕ → ℕ) → L} :
    (a.op v (fun w => k (update ρ p w)) (k ρ)).interleave m = some (a.write v m, k (a.read p m ρ)) := by
  cases a <;> rfl

end Access

namespace Program.Performs

variable [DecidableEq Loc] {P : Program Tid Loc Val L} {t : Tid} {l : L} {as : List (Access Loc)}

theorem mapOrder {f : Order → Order} (h : P.Performs t l as) :
    Program.Performs (fun t l => (P t l).mapOrder f) t l (as.map (Access.mapOrder f)) := by
  induction h
  case halt h => exact .halt (by simp [h])
  case skip h _ hi => exact .skip (by simp [h, Op.mapOrder]) hi
  case access h _ hi =>
    exact .access (by simp [Access.access?_mapOrder, h]) fun m m' k e => hi m m' k (by simpa using e)

-- The accesses that are still to come.
theorem exists_of_path {d : C11.Trail Loc} {l' : L} (h : P.Performs t l as) (hf : C11.Fenced .clear as)
    (hp : C11.Path P t l d l') : ∃ as', P.Performs t l' as' ∧ C11.Fenced d as' := by
  induction hp
  case start => exact ⟨as, h, hf⟩
  case step e hi =>
    obtain ⟨as', h, hf⟩ := hi
    cases h
    case halt h => simp [h, Op.interleave] at e
    case skip h hk =>
      rw [h] at e ⊢
      cases e
      exact ⟨as', hk, hf⟩
    case access h hk => exact ⟨_, hk _ _ _ e, by simpa [C11.Trail.after, h] using hf.2⟩

theorem fencedThread {T : Test Tid Loc Val L} (h : T.program.Performs t (T.threads t) as)
    (hf : C11.Fenced .clear as) : C11.FencedThread T t := by
  intro d l a hp ha
  obtain ⟨as', h, hf⟩ := exists_of_path h hf hp
  cases h
  case halt h => simp [h, Op.access?] at ha
  case skip h _ => simp [h, Op.access?] at ha
  case access h _ =>
    obtain rfl := Option.some.inj (h.symm.trans ha)
    exact hf.1

end Program.Performs

-- Tests whose threads perform given accesses one after the other. The access with the number `p` of the thread
-- `t` stores `val t p`, and what it reads is kept in the register `p`.
structure Test.Straight (T : Test Tid Loc (fun _ => ℕ) L) (code : Tid → List (Access Loc)) (val : Tid → ℕ → ℕ)
    (place : Tid → ℕ → (ℕ → ℕ) → L) : Prop where
  mem     : T.mem = fun _ => 0
  threads : T.threads = fun t => place t 0 fun _ => 0
  halt    : ∀ t p ρ, (code t)[p]? = none → T.program t (place t p ρ) = .halt
  access  : ∀ t p ρ a, (code t)[p]? = some a →
    T.program t (place t p ρ) = a.op (val t p) (fun v => place t (p + 1) (update ρ p v)) (place t (p + 1) ρ)

namespace Test.Straight

variable {T : Test Tid Loc (fun _ => ℕ) L} {code : Tid → List (Access Loc)} {val : Tid → ℕ → ℕ}
variable {place : Tid → ℕ → (ℕ → ℕ) → L} {t : Tid} {p : ℕ} {ρ : ℕ → ℕ} {m m' : Loc → ℕ} {l : L}

theorem interleave [DecidableEq Loc] (h : T.Straight code val place)
    (e : (T.program t (place t p ρ)).interleave m = some (m', l)) :
    ∃ a, (code t)[p]? = some a ∧ m' = a.write (val t p) m ∧ l = place t (p + 1) (a.read p m ρ) := by
  cases ha : (code t)[p]?
  case none => rw [h.halt t p ρ ha] at e; cases e
  case some a =>
    rw [h.access t p ρ a ha, Access.op_interleave] at e
    cases e
    exact ⟨a, rfl, rfl, rfl⟩

theorem length_le (h : T.Straight code val place) (hh : T.program t (place t p ρ) = .halt) :
    (code t).length ≤ p := by
  cases ha : (code t)[p]?
  case none => exact List.getElem?_eq_none_iff.mp ha
  case some a =>
    rw [h.access t p ρ a ha] at hh
    cases a <;> cases hh

theorem mapOrder {f : Order → Order} (h : T.Straight code val place) :
    (T.mapOrder f).Straight (fun t => (code t).map (Access.mapOrder f)) val place where
  mem := h.mem
  threads := h.threads
  halt t p ρ hp := by
    have hp : (code t)[p]? = none := by simpa using hp
    simp [Test.mapOrder, h.halt t p ρ hp, Op.mapOrder]
  access t p ρ a hp := by
    rw [List.getElem?_map] at hp
    obtain ⟨a, ha, rfl⟩ := Option.map_eq_some_iff.mp hp
    simp only [Test.mapOrder, h.access t p ρ a ha]
    cases a <;> rfl

-- What holds in the beginning and is kept by every access holds of all interleavings.
theorem reachable [DecidableEq Tid] [DecidableEq Loc] {I : (Loc → ℕ) → (Tid → ℕ) → (Tid → ℕ → ℕ) → Prop}
    (h : T.Straight code val place) (hi : I (fun _ => 0) (fun _ => 0) fun _ _ => 0)
    (hs : ∀ m p ρ t a, I m p ρ → (code t)[p t]? = some a →
      I (a.write (val t (p t)) m) (update p t (p t + 1)) (update ρ t (a.read (p t) m (ρ t))))
    {s : Interleaving.State (fun _ : Loc => ℕ) Tid L} (r : T.interleaving.Reachable s) :
    ∃ p ρ, s.threads = (fun t => place t (p t) (ρ t)) ∧ I s.mem p ρ := by
  refine r.invariant (I := fun s => ∃ p ρ, s.threads = (fun t => place t (p t) (ρ t)) ∧ I s.mem p ρ) ?init ?step
  case init =>
    intro s hs
    cases hs
    exact ⟨_, _, h.threads, h.mem ▸ hi⟩
  case step =>
    rintro ⟨m, _⟩ _ _ _ ⟨p, ρ, rfl, hI⟩ e
    cases e
    case move t m' l e =>
      obtain ⟨a, ha, rfl, rfl⟩ := h.interleave e
      refine ⟨_, _, funext fun u => ?_, hs m p ρ t a hI ha⟩
      by_cases hu : u = t
      case pos => subst hu; simp
      case neg => simp [hu]

-- All of the accesses are performed.
theorem performs [DecidableEq Loc] (h : T.Straight code val place) (t : Tid) :
    T.program.Performs t (T.threads t) (code t) := by
  suffices hp : ∀ as p ρ, (code t).drop p = as → T.program.Performs t (place t p ρ) as by
    simpa [h.threads] using hp _ 0 _ rfl
  intro as
  induction as
  case nil =>
    intro p ρ hp
    exact .halt (h.halt t p ρ (by simpa using hp))
  case cons a as hi =>
    intro p ρ hp
    have ha : (code t)[p]? = some a := by simpa [hp] using (List.head?_drop (l := code t) (i := p)).symm
    refine .access ?_ fun m m' k e => ?_
    · rw [h.access t p ρ a ha]
      cases a <;> rfl
    · obtain ⟨_, _, rfl, rfl⟩ := h.interleave e
      exact hi _ _ (by rw [← List.tail_drop, hp]; rfl)

end Test.Straight

namespace C11

-- A load or a fence that does not wait for the stores before it, and that the stores after it do not wait for
-- unless `fenced` says so.
def Idle (fenced : Bool) (a : Access Loc) : Prop :=
  a.written? = none ∧ ∀ o, a = .fence o → o ≠ .seqCst ∧ (Discipline.releases o = true → fenced = true)

section Run

variable [DecidableEq Tid] [DecidableEq Loc] {T : Test Tid Loc (fun _ => ℕ) L} {code : Tid → List (Access Loc)}
variable {val : Tid → ℕ → ℕ} {place : Tid → ℕ → (ℕ → ℕ) → L} {t : Tid} {n p : ℕ} {ρ : ℕ → ℕ}

-- A thread can run ahead with all its stores getting to memory at once.
theorem exists_eager (h : T.Straight code val place) {I : ℕ → (Loc → ℕ) → (ℕ → ℕ) → Prop}
    (hs : ∀ p a m ρ, (code t)[p]? = some a → I p m ρ → I (p + 1) (a.write (val t p) m) (a.read p m ρ))
    {s : State (fun _ : Loc => ℕ) Tid L} (hb : s.buf t = [])
    (hf : ∀ a ∈ code t, ∀ x, a.written? = some x → s.Free t x) (hl : s.threads t = place t p ρ)
    (hi : I p s.mem ρ) (hn : p ≤ n) (hn' : n ≤ (code t).length) :
    ∃ ls m ρ', (machine T).Steps s ls ⟨m, s.buf, update s.threads t (place t n ρ')⟩ ∧ I n m ρ' := by
  induction n, hn using Nat.le_induction
  case base => exact ⟨[], _, ρ, by rw [← hl, update_eq_self]; exact .refl, hi⟩
  case succ n _ ih =>
    obtain ⟨_, m, ρ', es, hi⟩ := ih (by omega)
    have ha : (code t)[n]? = some (code t)[n] := List.getElem?_eq_getElem (by omega)
    have hop := h.access t n ρ' _ ha
    rw [← update_self t (place t n ρ') s.threads] at hop
    obtain ⟨_, es'⟩ := steps_of_interleave T.mem T.threads (P := T.program) (t := t)
      (s := ⟨m, s.buf, update s.threads t (place t n ρ')⟩) hb (hop ▸ Access.op_interleave) fun x hx =>
        hf _ (List.getElem_mem _) x (Access.op_writes_iff.mp (hop ▸ hx))
    rw [update_idem] at es'
    exact ⟨_, _, _, es.trans es', hs n _ m ρ' ha hi⟩

-- A thread can go on without waiting for its stores.
theorem exists_idle (h : T.Straight code val place) {fenced : Bool} {m : Loc → ℕ} {b : List (Entry Loc fun _ => ℕ)}
    {g : Tid → List (Entry Loc fun _ => ℕ)} {f : Tid → L} (hl : f t = place t p ρ) (hn : p ≤ n)
    (ha : ∀ q, p ≤ q → q < n → ∃ a, (code t)[q]? = some a ∧ Idle fenced a) :
    ∃ ls b' ρ', (machine T).Steps ⟨m, update g t b, f⟩ ls ⟨m, update g t (b ++ b'), update f t (place t n ρ')⟩ ∧
      (∀ e ∈ b', e = .fence) ∧ (fenced = false → b' = []) ∧ ∀ q ≥ n, ρ' q = ρ q := by
  induction n, hn using Nat.le_induction
  case base =>
    exact ⟨[], [], ρ, by rw [← hl, update_eq_self, List.append_nil]; exact .refl, nofun, fun _ => rfl, fun _ _ => rfl⟩
  case succ n hp ih =>
    obtain ⟨ls, b', ρ', es, hb, hb', hρ⟩ := ih fun q hq hqn => ha q hq (by omega)
    obtain ⟨a, ha, hw, hf⟩ := ha n hp (by omega)
    have hop := h.access t n ρ' a ha
    rw [← update_self t (place t n ρ') f] at hop
    have move {b₁ : List (Entry Loc fun _ => ℕ)} {ρ₁ : ℕ → ℕ}
        (e : Step T.program ⟨m, update g t (b ++ b'), update f t (place t n ρ')⟩ t
          ⟨m, update g t (b ++ b' ++ b₁), update (update f t (place t n ρ')) t (place t (n + 1) ρ₁)⟩) :
        (machine T).Steps ⟨m, update g t b, f⟩ (ls ++ [t])
          ⟨m, update g t (b ++ (b' ++ b₁)), update f t (place t (n + 1) ρ₁)⟩ := by
      rw [update_idem, List.append_assoc] at e
      exact es.trans (.single e)
    cases a
    case store | rmw => cases hw
    case load o x =>
      refine ⟨_, b' ++ [], update ρ' n (flush m (b ++ b') x), move (.of_exec ?_), by simpa using hb,
        by simpa using hb', fun q hq => ?_⟩
      · rw [hop, List.append_nil]
        exact .load
      · rw [update_of_ne (by omega), hρ q (by omega)]
    case fence o =>
      obtain ⟨ho, hr⟩ := hf o rfl
      cases hro : Discipline.releases o
      case true =>
        refine ⟨_, b' ++ [.fence], ρ', move (.of_exec ?_), ?_, by simp [hr hro], fun q hq => hρ q (by omega)⟩
        · rw [hop]
          exact .delayFence ho hro
        · simpa [or_imp, forall_and] using hb
      case false =>
        refine ⟨_, b' ++ [], ρ', move (.of_exec ?_), by simpa using hb, by simpa using hb',
          fun q hq => hρ q (by omega)⟩
        rw [hop, List.append_nil]
        exact .skipFence hro

-- It puts its store to a location that nobody has reserved into its buffer.
theorem exists_delay (h : T.Straight code val place) {a : Access Loc} {o : Order} {x : Loc} {m : Loc → ℕ}
    {b : List (Entry Loc fun _ => ℕ)} {g : Tid → List (Entry Loc fun _ => ℕ)} {f : Tid → L}
    (hl : f t = place t p ρ) (ha : (code t)[p]? = some a) (hx : a = .store o x ∨ a = .rmw o x) (ho : o ≠ .seqCst)
    (hf : ∀ u ≠ t, reserves x (g u) = false) :
    ∃ rmw, (machine T).Step ⟨m, update g t b, f⟩ t ⟨m, update g t (b ++ [.store o x (val t p) rmw]),
      update f t (place t (p + 1) (a.read p (flush m b) ρ))⟩ := by
  have hop := h.access t p ρ a ha
  rw [← hl] at hop
  obtain rfl | rfl := hx
  · refine ⟨false, .of_exec ?_⟩
    rw [hop]
    exact .delay ho
  · refine ⟨true, .of_exec ?_⟩
    rw [hop]
    exact .delayRmw ho (.inl fun u hu => by simpa [hu] using hf u hu)

end Run

end C11

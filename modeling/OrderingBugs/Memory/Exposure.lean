import OrderingBugs.Memory.Straight

open Function

namespace C11

variable {Loc L : Type} [DecidableEq Loc]

-- The access to the given location that stores last before the given place, counted from one.
def last (as : List (Access Loc)) (x : Loc) : ℕ → ℕ
  | 0 => 0
  | p + 1 => if as[p]?.bind Access.written? = some x then p + 1 else last as x p

section Last

variable {as : List (Access Loc)} {a : Access Loc} {x : Loc} {p q : ℕ}

theorem last_le : last as x p ≤ p := by
  induction p
  case zero => exact le_rfl
  case succ p hi =>
    simp only [last]
    split
    · exact le_rfl
    · exact hi.trans p.le_succ

theorem last_mono (h : p ≤ q) : last as x p ≤ last as x q := by
  induction q, h using Nat.le_induction
  case base => exact le_rfl
  case succ q _ hi =>
    refine hi.trans ?_
    simp only [last]
    split
    · exact last_le.trans q.le_succ
    · exact le_rfl

theorem last_succ_self (h : as[p]?.bind Access.written? = some x) : last as x (p + 1) = p + 1 := by
  simp [last, h]

theorem last_succ (h : as[p]?.bind Access.written? ≠ some x) : last as x (p + 1) = last as x p := by
  simp [last, h]

theorem last_eq (h : p ≤ q) (hw : ∀ n, p ≤ n → n < q → as[n]?.bind Access.written? ≠ some x) :
    last as x q = last as x p := by
  induction q, h using Nat.le_induction
  case base => rfl
  case succ q hq hi => rw [last_succ (hw q hq (by omega)), hi fun n hn hnq => hw n hn (by omega)]

theorem write_last {m : Loc → ℕ} (h : as[p]? = some a) (hm : m x = last as x p) :
    a.write (p + 1) m x = last as x (p + 1) := by
  by_cases hx : a.written? = some x
  case pos => rw [Access.write_self hx, last_succ_self (by simpa [h] using hx)]
  case neg => rw [Access.write_of_ne hx, last_succ (by simpa [h] using hx), hm]

end Last

-- The access `i` is a store to `x` that may not have got to memory before the access `j`, and that later stores wait
-- for if it is `fenced`.
structure Delayed (as : List (Access Loc)) (x : Loc) (fenced : Bool) (i j : ℕ) : Prop where
  lt    : i < j
  store : ∃ a o, as[i]? = some a ∧ (a = .store o x ∨ a = .rmw o x) ∧ o ≠ .seqCst
  idle  : ∀ q, i < q → q < j → ∃ a, as[q]? = some a ∧ Idle fenced a

namespace Delayed

variable {as : List (Access Loc)} {a : Access Loc} {x y : Loc} {fenced fenced' : Bool} {i j : ℕ}

omit [DecidableEq Loc] in
theorem written (h : Delayed as x fenced i j) : as[i]?.bind Access.written? = some x := by
  obtain ⟨a, o, ha, hx, -⟩ := h.store
  rw [ha]
  obtain rfl | rfl := hx <;> rfl

-- Nothing is stored to other locations meanwhile.
theorem last_eq (h : Delayed as x fenced i j) (hxy : x ≠ y) : last as y j = last as y i := by
  refine C11.last_eq h.lt.le fun q hq hqj => ?_
  rcases hq.eq_or_lt with rfl | hq
  · simpa [h.written] using hxy
  · obtain ⟨a, ha, hw, -⟩ := h.idle q hq hqj
    simp [ha, hw]

omit [DecidableEq Loc] in
theorem succ (h : Delayed as x fenced i j) (hf : fenced = true → fenced' = true) (ha : as[j]? = some a)
    (hi : Idle fenced' a) : Delayed as x fenced' i (j + 1) where
  lt := h.lt.trans j.lt_succ_self
  store := h.store
  idle q hq hqj := by
    rcases (Nat.lt_succ_iff.mp hqj).lt_or_eq with hlt | rfl
    · obtain ⟨a, ha, hw, hf'⟩ := h.idle q hq hlt
      exact ⟨a, ha, hw, fun o ho => ⟨(hf' o ho).1, hf ∘ (hf' o ho).2⟩⟩
    · exact ⟨a, ha, hi⟩

omit [DecidableEq Loc] in
-- What the code tells about the stores before a place is right.
theorem exists_of_trail (hj : j ≤ as.length) (h : (as.take j).foldl Trail.next .clear = .store x fenced) :
    ∃ i, Delayed as x fenced i j := by
  induction j generalizing fenced
  case zero => cases h
  case succ j hi =>
    have ha : as[j]? = some as[j] := List.getElem?_eq_getElem (by omega)
    rw [List.take_add_one, ha, List.foldl_append] at h
    change ((as.take j).foldl Trail.next .clear).next as[j] = _ at h
    have later {fenced' : Bool} (hd : (as.take j).foldl Trail.next .clear = .store x fenced')
        (hf : fenced' = true → fenced = true) (hw : Idle fenced as[j]) : ∃ i, Delayed as x fenced i (j + 1) := by
      obtain ⟨i, hd⟩ := hi (by omega) hd
      exact ⟨i, hd.succ hf ha hw⟩
    generalize as[j] = a at *
    generalize (as.take j).foldl Trail.next .clear = d at *
    cases a
    case load => exact later h id ⟨rfl, nofun⟩
    case store o y | rmw o y =>
      by_cases ho : o = .seqCst
      case pos => simp [Trail.next, ho] at h
      case neg =>
        obtain ⟨rfl, rfl⟩ : y = x ∧ false = fenced := by simpa [Trail.next, ho] using h
        exact ⟨j, j.lt_succ_self, ⟨_, o, ha, by simp, ho⟩, fun q _ _ => by omega⟩
    case fence o =>
      by_cases ho : o = .seqCst
      case pos => simp [Trail.next, ho] at h
      case neg =>
        cases hr : Discipline.releases o
        case false => exact later (by simpa [Trail.next, ho, hr] using h) id ⟨rfl, by rintro _ ⟨⟩; simp [ho, hr]⟩
        case true =>
          cases d
          case clear => simp [Trail.next, Trail.fence, ho, hr] at h
          case store y fenced' =>
            obtain ⟨rfl, rfl⟩ : y = x ∧ true = fenced := by simpa [Trail.next, Trail.fence, ho, hr] using h
            exact later rfl (fun _ => rfl) ⟨rfl, by rintro _ ⟨⟩; simp [ho]⟩

end Delayed

-- A thread that looks at `y`, stores to it, and looks at `x`, with a fence where it matters.
def probe (o o' : Order) (x y : Loc) : List (Access Loc) :=
  [.load o y, .store o' y, .fence .seqCst, .load o x]

omit [DecidableEq Loc] in
theorem probe_cases {o o' : Order} {x y : Loc} {a : Access Loc} {q : ℕ} (h : (probe o o' x y)[q]? = some a) :
    (q = 0 ∧ a = .load o y) ∨ (q = 1 ∧ a = .store o' y) ∨ (q = 2 ∧ a = .fence .seqCst) ∨ (q = 3 ∧ a = .load o x) := by
  match q with
  | 0 | 1 | 2 | 3 => cases h; simp
  | _ + 4 => cases h

omit [DecidableEq Loc] in
theorem fenced_probe {o o' : Order} {x y : Loc} : Fenced .clear (probe o o' x y) := by
  by_cases ho : o' = .seqCst <;> simp [probe, Fenced, Trail.Admits, Trail.next, ho]

-- The thread finds the access `j` of the other one and nothing of what that one has done since the access `i`,
-- and the other one does not find its store.
def Overtaken (as : List (Access Loc)) (y : Loc) (i j : ℕ) (ρ : Bool → ℕ → ℕ) : Prop :=
  ρ false 0 = last as y (j + 1) ∧ ρ true j ≠ as.length + 1 ∧ ρ false 3 ≤ i

instance (as : List (Access Loc)) (y : Loc) (i j : ℕ) (ρ : Bool → ℕ → ℕ) : Decidable (Overtaken as y i j ρ) :=
  inferInstanceAs (Decidable (_ ∧ _ ∧ _))

-- A test that asserts that this does not happen. All stores are told apart by their values.
structure Exposure (T : Test Bool Loc (fun _ => ℕ) L) (place : Bool → ℕ → (ℕ → ℕ) → L) (as : List (Access Loc))
    (o o' : Order) (x y : Loc) (i j : ℕ) : Prop extends
    T.Straight (Bool.rec (probe o o' x y) as) (Bool.rec (fun _ => as.length + 1) (· + 1)) place where
  passes : ∀ t p ρ, ¬T.Failed (place t p ρ)
  post   : ∀ m (p : Bool → ℕ) ρ, T.Post m (fun t => place t (p t) (ρ t)) ↔ ¬Overtaken as y i j ρ

namespace Exposure

variable {T : Test Bool Loc (fun _ => ℕ) L} {place : Bool → ℕ → (ℕ → ℕ) → L} {as : List (Access Loc)}
variable {o o' : Order} {x y : Loc} {i j : ℕ} {fenced : Bool}

-- What holds in all interleavings, where `p` counts the accesses that the threads have performed: once the second
-- thread has found the access `j`, the first one is behind it. From then on either the first one finds what the
-- second one has stored to `y`, or the second one finds what the first one has stored to `x`.
structure Seen (as : List (Access Loc)) (x y : Loc) (i j : ℕ) (m : Loc → ℕ) (p : Bool → ℕ) (ρ : Bool → ℕ → ℕ) :
    Prop where
  first  : m x = last as x (p true)
  second : p false ≤ 1 → m y = last as y (p true)
  found  : 1 ≤ p false → ρ false 0 = last as y (j + 1) → last as y (j + 1) ≤ p true
  stored : 2 ≤ p false → ρ false 0 = last as y (j + 1) → p true ≤ j → m y = as.length + 1
  missed : 4 ≤ p false → ρ false 0 = last as y (j + 1) →
    i < ρ false 3 ∨ p true ≤ j ∨ ρ true j = as.length + 1

theorem seen_true {m : Loc → ℕ} {p : Bool → ℕ} {ρ : Bool → ℕ → ℕ} {a c : Access Loc}
    (h : Seen as x y i j m p ρ) (hc : as[j]? = some c) (hy : c.read? = some y ∨ c.written? = some y)
    (ha : as[p true]? = some a) :
    Seen as x y i j (a.write (p true + 1) m) (update p true (p true + 1))
      (update ρ true (a.read (p true) m (ρ true))) where
  first := by simpa using write_last ha h.first
  second hp := by simpa using write_last ha (h.second (by simpa using hp))
  found hp hf := by
    have := h.found (by simpa using hp) (by simpa using hf)
    simp
    omega
  stored hp hf hj := by
    simp only [ne_eq, Bool.false_eq_true, not_false_eq_true, update_of_ne, update_self] at hp hf hj
    have hn := h.found (by omega) hf
    have ha' : a.written? ≠ some y := by
      intro hw
      have hl : last as y (p true + 1) = p true + 1 := last_succ_self (by simpa [ha] using hw)
      have hm : last as y (p true + 1) ≤ last as y (j + 1) := last_mono (by omega)
      omega
    rw [Access.write_of_ne ha']
    exact h.stored hp hf (by omega)
  missed hp hf := by
    simp only [ne_eq, Bool.false_eq_true, not_false_eq_true, update_of_ne, update_self] at hp hf ⊢
    have hn := h.found (by omega) hf
    rcases lt_trichotomy (p true) j with hlt | rfl | hgt
    · exact .inr (.inl hlt)
    · obtain rfl : c = a := by simpa [ha] using hc.symm
      refine .inr (.inr ?_)
      rcases hy with hy | hy
      · rw [Access.read_self hy]
        exact h.stored (by omega) hf le_rfl
      · rw [last_succ_self (by simpa [ha] using hy)] at hn
        omega
    · rcases h.missed hp hf with h' | h' | h'
      · exact .inl h'
      · omega
      · exact .inr (.inr (by rwa [Access.read_of_ne hgt.ne]))

theorem seen_false {m : Loc → ℕ} {p : Bool → ℕ} {ρ : Bool → ℕ → ℕ} {a : Access Loc} (h : Seen as x y i j m p ρ)
    (hxy : x ≠ y) (hij : i < j) (hx : as[i]?.bind Access.written? = some x)
    (ha : (probe o o' x y)[p false]? = some a) :
    Seen as x y i j (a.write (as.length + 1) m) (update p false (p false + 1))
      (update ρ false (a.read (p false) m (ρ false))) := by
  rcases probe_cases ha with ⟨hp, rfl⟩ | ⟨hp, rfl⟩ | ⟨hp, rfl⟩ | ⟨hp, rfl⟩ <;> rw [hp]
  case inl =>
    refine ⟨h.first, fun _ => h.second (by omega), fun _ hf => ?_, by simp, by simp⟩
    simp only [Access.read, Access.read?, Option.elim_some, update_self, h.second (by omega)] at hf
    simpa [← hf] using last_le
  case inr.inl =>
    refine ⟨?_, by simp, ?_, ?_, by simp⟩
    · simpa [Access.write, Access.written?, hxy] using h.first
    · simpa [Access.read, Access.read?] using h.found (by omega)
    · simp [Access.write, Access.written?]
  case inr.inr.inl =>
    refine ⟨h.first, by simp, ?_, ?_, by simp⟩
    · simpa [Access.read, Access.read?] using h.found (by omega)
    · simpa [Access.read, Access.read?, Access.write, Access.written?] using h.stored (by omega)
  case inr.inr.inr =>
    refine ⟨h.first, by simp, ?_, ?_, fun _ _ => ?_⟩
    · simpa [Access.read, Access.read?] using h.found (by omega)
    · simpa [Access.read, Access.read?, Access.write, Access.written?] using h.stored (by omega)
    · have := h.first
      have := last_succ_self hx
      have (hj : ¬p true ≤ j) : last as x (i + 1) ≤ last as x (p true) := last_mono (by omega)
      simp [Access.read, Access.read?]
      omega

-- So the assertion does not fail.
theorem not_interleavingViolates {c : Access Loc} (h : Exposure T place as o o' x y i j) (hxy : x ≠ y)
    (hd : Delayed as x fenced i j) (hc : as[j]? = some c) (hy : c.read? = some y ∨ c.written? = some y) :
    ¬T.InterleavingViolates := by
  rintro ⟨s, r, hf⟩
  obtain ⟨p, ρ, hl, hI⟩ := h.toStraight.reachable (I := Seen as x y i j)
    ⟨rfl, fun _ => rfl, by simp, by simp, by simp⟩ (fun m p ρ t a hI ha => by
      cases t
      case false => exact seen_false hI hxy hd.lt hd.written ha
      case true => exact seen_true hI hc hy ha) r
  obtain ⟨t, hf⟩ | ⟨hh, hp⟩ := hf
  case inl => exact h.passes _ _ _ (hl ▸ hf)
  case inr =>
    rw [hl] at hp hh
    refine hp ((h.post _ _ _).mpr fun ⟨h₁, h₂, h₃⟩ => ?_)
    have hn : as.length ≤ p true := h.length_le (hh true)
    have hm : 4 ≤ p false := h.length_le (hh false)
    have := (List.getElem?_eq_some_iff.mp hc).1
    rcases hI.missed hm h₁ with h' | h' | h'
    · omega
    · omega
    · exact h₂ h'

variable {a c : Access Loc} {o₂ : Order}

-- Once the thread has got ahead of its store to `x`, the other one can do all it does before that store gets to
-- memory.
theorem violates_of_overtaken (h : Exposure T place as o o' x y i j) (hxy : x ≠ y) (hj : j < as.length)
    {m : Loc → ℕ} {b : List (Entry Loc fun _ => ℕ)} {f : Bool → L} {ρ : ℕ → ℕ}
    (r : (machine T).Reachable ⟨m, update (fun _ => []) true b, f⟩) (hb : reserves y b = false)
    (ht : f true = place true (j + 1) ρ) (hu : f false = place false 0 fun _ => 0) (hρ : ρ j ≠ as.length + 1)
    (hy : m y = last as y (j + 1)) (hx : m x ≤ i) : Violates T := by
  -- The other thread runs to its end, then the stores get to memory, then this thread runs to its end.
  obtain ⟨_, m₁, σ, es₁, -, -, h₀, h₃⟩ := exists_eager h.toStraight (t := false) (n := 4)
    (I := fun q m' σ => (q ≤ 1 → m' y = m y) ∧ m' x = m x ∧ (1 ≤ q → σ 0 = m y) ∧ (4 ≤ q → σ 3 = m x))
    (fun q a m' σ ha hI => by
      obtain ⟨h₁, h₂, h₃, h₄⟩ := hI
      rcases probe_cases ha with ⟨rfl, rfl⟩ | ⟨rfl, rfl⟩ | ⟨rfl, rfl⟩ | ⟨rfl, rfl⟩ <;>
        simp_all [Access.read, Access.read?, Access.write, Access.written?])
    (s := ⟨m, update (fun _ => []) true b, f⟩) (by simp)
    (fun a ha z hz u hu => by
      obtain rfl : u = true := by simpa using hu
      obtain rfl : y = z := by
        obtain ⟨q, ha⟩ := List.mem_iff_getElem?.mp ha
        rcases probe_cases ha with ⟨-, rfl⟩ | ⟨-, rfl⟩ | ⟨-, rfl⟩ | ⟨-, rfl⟩ <;> simp_all [Access.written?]
      simpa using hb)
    hu ⟨fun _ => rfl, rfl, by simp, by simp⟩ (by omega) le_rfl
  obtain ⟨_, es₂⟩ := steps_of_flush T.mem T.threads (P := T.program) (t := true) (m := m₁) (b := b)
    (f := update f false (place false 4 σ)) (g := fun _ => []) rfl fun _ _ _ _ _ _ => rfl
  obtain ⟨_, m₂, ρ', es₃, -, hρ'⟩ := exists_eager h.toStraight (t := true) (n := as.length)
    (I := fun q _ ρ' => j < q ∧ ρ' j = ρ j)
    (fun q a m ρ' _ hI => ⟨hI.1.trans q.lt_succ_self, by rw [Access.read_of_ne hI.1.ne, hI.2]⟩)
    (s := ⟨flush m₁ b, fun _ => [], update f false (place false 4 σ)⟩) rfl (fun _ _ _ _ _ _ => rfl)
    (by simpa using ht) ⟨by omega, rfl⟩ hj le_rfl
  have hl : update (update f false (place false 4 σ)) true (place true as.length ρ') =
      fun t => place t (Bool.rec 4 as.length t) (Bool.rec σ ρ' t) := by
    funext t
    cases t <;> simp
  rw [hl] at es₃
  refine ⟨_, ((r.steps es₁).steps es₂).steps es₃, .inr ⟨fun t => ?_, fun _ => rfl, ?_⟩⟩
  · cases t
    case false => exact h.halt _ _ _ rfl
    case true => exact h.halt _ _ _ (List.getElem?_eq_none le_rfl)
  · rw [h.post, not_not]
    exact ⟨(h₀ (by omega)).trans hy, by simpa [hρ'] using hρ, (h₃ le_rfl).le.trans hx⟩

-- The thread can go on after its store to `x` without letting it get to memory.
theorem exists_delayed (h : Exposure T place as o o' x y i j) (hd : Delayed as x fenced i j) :
    ∃ m o₁ rmw b f ρ,
      (machine T).Reachable ⟨m, update (fun _ => []) true (.store o₁ x (i + 1) rmw :: b), f⟩ ∧
      f true = place true j ρ ∧ (f false = place false 0 fun _ => 0) ∧ (∀ z, m z = last as z i) ∧ ρ j = 0 ∧
      (∀ e ∈ b, e = .fence) ∧ (fenced = false → b = []) := by
  obtain ⟨a, o₁, ha, hax, ho⟩ := hd.store
  have hn := (List.getElem?_eq_some_iff.mp ha).1
  obtain ⟨_, m, ρ₁, es₁, hm, hρ₁⟩ := exists_eager h.toStraight (t := true) (n := i)
    (I := fun p m ρ => (∀ z, m z = last as z p) ∧ ∀ q ≥ p, ρ q = 0)
    (fun p a m ρ ha hI => ⟨fun z => write_last ha (hI.1 z), fun q hq => by
      rw [Access.read_of_ne (by omega), hI.2 q (by omega)]⟩)
    (s := ⟨T.mem, fun _ => [], T.threads⟩) rfl (fun _ _ _ _ _ _ => rfl) (congrFun h.threads true)
    ⟨fun _ => congrFun h.mem _, fun _ _ => rfl⟩ (Nat.zero_le i) hn.le
  obtain ⟨rmw, e₂⟩ := exists_delay h.toStraight (t := true) (m := m) (b := []) (g := fun _ => [])
    (f := update T.threads true (place true i ρ₁)) (update_self ..) ha hax ho fun _ _ => rfl
  rw [update_eq_self (f := fun _ => [])] at e₂
  obtain ⟨_, b, ρ₃, es₃, hb, hb', hρ₃⟩ := exists_idle h.toStraight (t := true) (n := j) (m := m)
    (b := [.store o₁ x (i + 1) rmw]) (g := fun _ => []) (update_self ..) hd.lt hd.idle
  refine ⟨m, o₁, rmw, b, _, ρ₃, ((System.Reachable.init rfl).steps es₁ |>.step e₂).steps es₃, update_self ..,
    by simpa using congrFun h.threads false, hm, ?_, hb, hb'⟩
  rw [hρ₃ j le_rfl, Access.read_of_ne hd.lt.ne', hρ₁ j hd.lt.le]

-- If the access `j` does not wait for that store either, the assertion fails.
theorem violates (h : Exposure T place as o o' x y i j) (hxy : x ≠ y) (hd : Delayed as x fenced i j)
    (hc : as[j]? = some c)
    (hcy : c = .load o₂ y ∨
      (c = .store o₂ y ∨ c = .rmw o₂ y) ∧ Discipline.releases o₂ = false ∧ fenced = false) : Violates T := by
  have hj := (List.getElem?_eq_some_iff.mp hc).1
  obtain ⟨m, o₁, rmw, b, f, ρ, r, ht, hu, hm, hρ, hb, hb'⟩ := h.exists_delayed hd
  have hmx : m x ≤ i := (hm x).le.trans last_le
  have hmy : m y = last as y j := (hm y).trans (hd.last_eq hxy).symm
  have hly : last as y j < as.length + 1 := by
    have : last as y j ≤ j := last_le
    omega
  have hs : ∀ e ∈ (.store o₁ x (i + 1) rmw :: b : List (Entry Loc fun _ => ℕ)), ¬e.Stores y := by
    rintro e (_ | ⟨_, he⟩)
    · exact hxy
    · rw [hb e he]; exact id
  obtain rfl | ⟨hcy, hr, rfl⟩ := hcy
  case inl =>
    have e : Step T.program ⟨m, update (fun _ => []) true (.store o₁ x (i + 1) rmw :: b), f⟩ true _ :=
      .of_exec (by
        rw [ht, h.access true j ρ _ hc]
        exact .load)
    refine h.violates_of_overtaken hxy hj (r.step e) (not_reserves hs) (update_self ..) (by simpa using hu) ?_ ?_
      hmx
    · rw [update_self, flush_of_not_stores hs, hmy]
      exact hly.ne
    · rw [hmy, last_succ (by simp [hc, Access.written?])]
  case inr =>
    -- Both stores wait, and the second one is the first to get to memory.
    obtain rfl := hb' rfl
    have hcw : c.written? = some y := by obtain rfl | rfl := hcy <;> rfl
    have hoc : o₂ ≠ .seqCst := by
      rintro rfl
      cases hr
    obtain ⟨rmw', e⟩ := exists_delay h.toStraight (m := m) (b := [.store o₁ x (i + 1) rmw]) (g := fun _ => []) ht hc
      hcy hoc fun _ _ => rfl
    have ho : (Entry.store o₂ y (j + 1) rmw').overtakes (.store o₁ x (i + 1) rmw : Entry Loc fun _ => ℕ) = true := by
      simp [Entry.overtakes, hr, hxy.symm]
    refine h.violates_of_overtaken hxy hj ((r.step e).step (.of_overtakes ho fun _ _ => rfl)) (not_reserves hs)
      (update_self ..) (by simpa using hu) ?_ ?_ (by simpa [hxy] using hmx)
    · obtain rfl | rfl := hcy
      · simp [Access.read, Access.read?, hρ]
      · rw [Access.read_self rfl, flush_of_not_stores hs, hmy]
        exact hly.ne
    · rw [update_self, last_succ_self (by simpa [hc] using hcw)]

end Exposure

section Fenced

variable {as : List (Access Loc)}

omit [DecidableEq Loc] in
-- The first access that gets ahead of a store.
theorem exists_of_not_fenced {d : Trail Loc} (h : ¬Fenced d as) :
    ∃ j c, as[j]? = some c ∧ ¬((as.take j).foldl Trail.next d).Admits c := by
  induction as generalizing d
  case nil => exact absurd trivial h
  case cons a as hi =>
    by_cases ha : d.Admits a
    case neg => exact ⟨0, a, rfl, ha⟩
    case pos =>
      obtain ⟨j, c, hc, hn⟩ := hi fun hf => h ⟨ha, hf⟩
      exact ⟨j + 1, c, hc, hn⟩

-- Where a thread gets ahead of a store, another thread can notice that does not get ahead of any.
theorem exists_exposure (h : ¬Fenced .clear as) :
    ∃ x y i j, ∀ (K : Type) (T : Test Bool Loc (fun _ => ℕ) K) place o o', Exposure T place as o o' x y i j →
      Violates T ∧ ¬T.InterleavingViolates := by
  obtain ⟨j, c, hc, hn⟩ := exists_of_not_fenced h
  have hj := (List.getElem?_eq_some_iff.mp hc).1
  generalize hd : (as.take j).foldl Trail.next .clear = d at hn
  cases d
  case clear => exact absurd trivial hn
  case store x fenced =>
    obtain ⟨i, hd⟩ := Delayed.exists_of_trail hj.le hd
    have exposed {o₂ : Order} {y : Loc} (hxy : x ≠ y) (hcy : c.read? = some y ∨ c.written? = some y)
        (hco : c = .load o₂ y ∨
          (c = .store o₂ y ∨ c = .rmw o₂ y) ∧ Discipline.releases o₂ = false ∧ fenced = false) :
        ∃ x y i j, ∀ (K : Type) (T : Test Bool Loc (fun _ => ℕ) K) place o o', Exposure T place as o o' x y i j →
          Violates T ∧ ¬T.InterleavingViolates :=
      ⟨x, y, i, j, fun _ _ _ _ _ h => ⟨h.violates hxy hd hc hco, h.not_interleavingViolates hxy hd hc hcy⟩⟩
    cases c
    case fence => exact absurd trivial hn
    case load => exact exposed hn (.inl rfl) (.inl rfl)
    case store | rmw =>
      simp only [Trail.Admits, not_or, Bool.not_eq_true] at hn
      exact exposed hn.2.2 (.inr rfl) (.inr ⟨by simp, hn.1, hn.2.1⟩)

end Fenced
end C11

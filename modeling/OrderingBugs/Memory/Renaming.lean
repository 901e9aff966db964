import OrderingBugs.Memory.Machine

open Function

variable {Tid Loc L Tid' Loc' L' : Type} {Val : Loc → Type} {Val' : Loc' → Type}

-- The operations of a thread of a larger program that look like those of a thread of a smaller one, which
-- has less locations and fewer values.
inductive Op.Renamed (loc : Loc → Loc') (val : (x : Loc) → Val x → Val' (loc x)) (f : L → L') :
    Op Loc Val L → Op Loc' Val' L' → Prop
  | halt : Renamed loc val f .halt .halt
  | skip {l : L} : Renamed loc val f (.skip l) (.skip (f l))
  | load {o : Order} {x : Loc} {k : Val x → L} {k' : Val' (loc x) → L'} :
    (∀ v, k' (val x v) = f (k v)) → Renamed loc val f (.load o x k) (.load o (loc x) k')
  | store {o : Order} {x : Loc} {v : Val x} {l : L} :
    Renamed loc val f (.store o x v l) (.store o (loc x) (val x v) (f l))
  | rmw {o : Order} {x : Loc} {g : Val x → Val x} {g' : Val' (loc x) → Val' (loc x)} {k : Val x → L}
      {k' : Val' (loc x) → L'} :
    (∀ v, g' (val x v) = val x (g v)) → (∀ v, k' (val x v) = f (k v)) →
    Renamed loc val f (.rmw o x g k) (.rmw o (loc x) g' k')
  | fence {o : Order} {l : L} : Renamed loc val f (.fence o l) (.fence o (f l))

namespace Machine

-- The threads of a smaller program among those of a larger one.
structure Renaming (P : Program Tid Loc Val L) (P' : Program Tid' Loc' Val' L') where
  tid    : Tid → Tid'
  loc    : Loc → Loc'
  val    : (x : Loc) → Val x → Val' (loc x)
  thread : L → L'
  tid_injective : Injective tid
  loc_injective : Injective loc
  op : ∀ t l, (P t l).Renamed loc val thread (P' (tid t) (thread l))

namespace Renaming

variable [DecidableEq Loc] [DecidableEq Loc'] [Fintype Loc] [Fintype Loc']
variable {P : Program Tid Loc Val L} {P' : Program Tid' Loc' Val' L'} (ρ : Renaming P P')

-- Memory contains the same, and so does the buffer of a thread.
structure Same (m : Mem Val) (b : (Buffering.perLocation Val).Buf) (m' : Mem Val')
    (b' : (Buffering.perLocation Val').Buf) : Prop where
  mem   : ∀ x, m' (ρ.loc x) = ρ.val x (m x)
  buf   : ∀ x, (Buffering.perLocation Val').pending b' (ρ.loc x) =
    ((Buffering.perLocation Val).pending b x).map (ρ.val x)
  other : ∀ y, y ∉ Set.range ρ.loc → (Buffering.perLocation Val').pending b' y = []

namespace Same

variable {D : Discipline} {m m₁ : Mem Val} {m' : Mem Val'} {b b₁ : (Buffering.perLocation Val).Buf}
variable {b' : (Buffering.perLocation Val').Buf} {l l₁ : L} {x : Loc} {v : Val x} {t : Tid}
variable {ρ} (h : ρ.Same m b m' b')

include h

theorem view : (Buffering.perLocation Val').view m' b' (ρ.loc x) =
    ρ.val x ((Buffering.perLocation Val).view m b x) := by
  simp only [Buffering.view, h.mem, h.buf, List.getLast?_map]
  cases ((Buffering.perLocation Val).pending b x).getLast? <;> rfl

theorem empty_iff : (Buffering.perLocation Val').Empty b' ↔ (Buffering.perLocation Val).Empty b where
  mp he x := by simpa [h.buf] using he (ρ.loc x)
  mpr he y := by
    by_cases hy : y ∈ Set.range ρ.loc
    case neg => exact h.other y hy
    case pos =>
      obtain ⟨x, rfl⟩ := hy
      simp [h.buf, he x]

theorem push : ρ.Same m ((Buffering.perLocation Val).push b x v) m'
    ((Buffering.perLocation Val').push b' (ρ.loc x) (ρ.val x v)) where
  mem := h.mem
  buf y := by
    by_cases hy : y = x
    case pos => subst hy; simp [Buffering.pending_push_self, h.buf]
    case neg => simp [Buffering.pending_push_ne, hy, ρ.loc_injective.ne hy, h.buf]
  other y hy := by
    have hx : y ≠ ρ.loc x := fun hx => hy ⟨x, hx.symm⟩
    simpa [Buffering.pending_push_ne, hx] using h.other y hy

theorem update : ρ.Same (update m x v) b (update m' (ρ.loc x) (ρ.val x v)) b' where
  mem y := by
    by_cases hy : y = x
    case pos => subst hy; simp
    case neg => simp [hy, ρ.loc_injective.ne hy, h.mem]
  buf := h.buf
  other := h.other

theorem of_mem {n : Mem Val} {n' : Mem Val'} (hm : ∀ x, n' (ρ.loc x) = ρ.val x (n x)) : ρ.Same n b n' b' where
  __ := h
  mem := hm

theorem pop (hp : (Buffering.perLocation Val).pop b x = some (v, b₁)) :
    ∃ b₁', (Buffering.perLocation Val').pop b' (ρ.loc x) = some (ρ.val x v, b₁') ∧
      ρ.Same (Function.update m x v) b₁ (Function.update m' (ρ.loc x) (ρ.val x v)) b₁' := by
  have hb := h.buf x
  rw [Buffering.pending_pop_self hp] at hb
  have ⟨b₁', hp'⟩ := Buffering.exists_pop_perLocation hb
  refine ⟨b₁', hp', h.update.mem, fun y => ?_, fun y hy => ?_⟩
  · by_cases hy : y = x
    case pos =>
      subst hy
      rw [Buffering.pending_pop_self hp'] at hb
      exact (List.cons.inj hb).2
    case neg =>
      rw [← Buffering.pending_pop_ne hp hy, ← Buffering.pending_pop_ne hp' (ρ.loc_injective.ne hy)]
      exact h.buf y
  · rw [← Buffering.pending_pop_ne hp' fun hx => hy ⟨x, hx.symm⟩]
    exact h.other y hy

theorem exec (e : (P t l).exec (.perLocation Val) D m b = some (m₁, b₁, l₁)) :
    ∃ m₁' b₁', (P' (ρ.tid t) (ρ.thread l)).exec (.perLocation Val') D m' b' =
      some (m₁', b₁', ρ.thread l₁) ∧ ρ.Same m₁ b₁ m₁' b₁' := by
  have hop := ρ.op t l
  generalize P t l = op at e hop
  generalize P' (ρ.tid t) (ρ.thread l) = op' at hop
  cases hop
  case halt => cases e
  case skip => cases e; exact ⟨m', b', rfl, h⟩
  case load hk =>
    cases e
    exact ⟨m', b', by simp [Op.exec, h.view, hk], h⟩
  case store o x v k =>
    obtain ⟨rfl, ⟨rfl, rfl, ho⟩ | ⟨rfl, rfl, he, ho⟩⟩ := Op.exec_store e
    · exact ⟨_, _, by simp [Op.exec, ho], h.push⟩
    · exact ⟨_, _, by simp [Op.exec, ho, h.empty_iff.mpr he], h.update⟩
  case rmw o x g _ _ _ hg hk =>
    simp only [Op.exec] at e
    split at e <;> cases e
    case _ he =>
      have he' : (D.rmwWaits o = true → (Buffering.perLocation Val').Empty b') ∧
          (Buffering.perLocation Val').pending b' (ρ.loc x) = [] :=
        ⟨fun ho => h.empty_iff.mpr (he.1 ho), by simp [h.buf, he.2]⟩
      exact ⟨_, b', by simp only [Op.exec, if_pos he', h.mem, hg, hk], h.update⟩
  case fence o _ =>
    simp only [Op.exec] at e
    split at e <;> cases e
    case _ he =>
      have he' (ho : D.fenceWaits o = true) : (Buffering.perLocation Val').Empty b' :=
        h.empty_iff.mpr (he ho)
      exact ⟨m', b', by simp only [Op.exec, if_pos he'], h⟩

end Same

variable [DecidableEq Tid] [DecidableEq Tid']

-- The larger program can do what the smaller one does, while its other threads do nothing.
def simulation (D : Discipline) (mem₀ : Mem Val) (mem₀' : Mem Val') (threads₀ : Tid → L)
    (threads₀' : Tid' → L') (hm : ∀ x, mem₀' (ρ.loc x) = ρ.val x (mem₀ x))
    (ht : ∀ t, threads₀' (ρ.tid t) = ρ.thread (threads₀ t)) :
    (system (.perLocation Val) D P mem₀ threads₀).Simulation
      (system (.perLocation Val') D P' mem₀' threads₀') (fun _ => ([] : List Empty)) (fun _ => []) where
  Rel s s' := (∀ t, s'.threads (ρ.tid t) = ρ.thread (s.threads t)) ∧
    ∀ t, ρ.Same s.mem (s.buf t) s'.mem (s'.buf (ρ.tid t))
  init s hs := by
    cases hs
    exact ⟨_, rfl, ht, fun t => ⟨hm, fun _ => rfl, fun _ _ => rfl⟩⟩
  step s s' a s₁ _ _ h e := by
    obtain ⟨hl, hs⟩ := h
    cases e
    case move t m b l e =>
      have ⟨m', b', e', hs'⟩ := (hs t).exec e
      rw [← hl t] at e'
      refine ⟨_, _, .single (.move e'), rfl, fun u => ?_, fun u => ?_⟩
      · by_cases hu : u = t
        case pos => subst hu; simp
        case neg => simpa [hu, ρ.tid_injective.ne hu] using hl u
      · by_cases hu : u = t
        case pos => subst hu; simpa using hs'
        case neg => simpa [hu, ρ.tid_injective.ne hu] using (hs u).of_mem hs'.mem
    case drain t x v b e =>
      have ⟨b', e', hs'⟩ := (hs t).pop e
      refine ⟨_, _, .single (.drain e'), rfl, hl, fun u => ?_⟩
      by_cases hu : u = t
      case pos => subst hu; simpa using hs'
      case neg => simpa [hu, ρ.tid_injective.ne hu] using (hs u).of_mem hs'.mem

-- What a thread of the smaller program can get to, its counterpart in the larger one can get to as well.
theorem exists_reachable (D : Discipline) {mem₀ : Mem Val} (mem₀' : Mem Val') {threads₀ : Tid → L}
    (threads₀' : Tid' → L') (hm : ∀ x, mem₀' (ρ.loc x) = ρ.val x (mem₀ x))
    (ht : ∀ t, threads₀' (ρ.tid t) = ρ.thread (threads₀ t)) {s : State (.perLocation Val) Tid L}
    (r : (system (.perLocation Val) D P mem₀ threads₀).Reachable s) :
    ∃ s', (system (.perLocation Val') D P' mem₀' threads₀').Reachable s' ∧
      ∀ t, s'.threads (ρ.tid t) = ρ.thread (s.threads t) :=
  have ⟨s', r', hl, _⟩ := (ρ.simulation D mem₀ mem₀' threads₀ threads₀' hm ht).reachable r
  ⟨s', r', hl⟩

end Renaming
end Machine

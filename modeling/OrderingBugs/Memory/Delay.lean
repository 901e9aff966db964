import OrderingBugs.Memory.Machine

open Function

variable {Tid Loc L : Type} [DecidableEq Tid] [DecidableEq Loc] {Val : Loc → Type}

-- Stores are only ever added to the buffer of the thread that executes an operation.
theorem Op.exec_pending_prefix {B : Buffering Loc Val} {D : Discipline} {op : Op Loc Val L}
    {m m' : Mem Val} {b b' : B.Buf} {l : L} (e : op.exec B D m b = some (m', b', l)) (x : Loc) :
    B.pending b x <+: B.pending b' x := by
  cases op
  case halt => cases e
  case skip => cases e; exact List.prefix_rfl
  case load => cases e; exact List.prefix_rfl
  case rmw => exact (Op.exec_rmw e).2.2.1 ▸ List.prefix_rfl
  case fence =>
    simp only [exec] at e
    split at e <;> cases e
    exact List.prefix_rfl
  case store y _ _ =>
    obtain ⟨-, ⟨-, rfl, -⟩ | ⟨-, rfl, -⟩⟩ := Op.exec_store e
    · by_cases hx : x = y
      case pos => subst hx; simp [Buffering.pending_push_self]
      case neg => rw [Buffering.pending_push_ne hx]
    · exact List.prefix_rfl

namespace Machine

variable (D : Discipline) (P : Program Tid Loc Val L) (t : Tid) (x : Loc)

-- The thread `t` puts a store to `x` into its buffer.
def Issues : Label Tid Loc L → Prop
  | .move u l _ => u = t ∧ ∃ o v k, P t l = .store o x v k ∧ D.buffered o = true
  | .drain .. => False

-- A store to `x` of a thread other than `t` reaches memory.
def Arrives : Label Tid Loc L → Prop
  | .move u l _ => u ≠ t ∧ ∃ o v k, P u l = .store o x v k ∧ D.buffered o = false
  | .drain u y => u ≠ t ∧ y = x

-- While a store to `x` of the thread `t` is delayed, none of another thread reaches memory. So the
-- delayed store overwrites no store that is later than it.
def Undisturbed (ls : List (Label Tid Loc L)) : Prop :=
  ∀ ls₁ i ls₂, ls = ls₁ ++ i :: ls₂ → Issues D P t x i → .drain t x ∉ ls₂ →
    ∀ l ∈ ls₂, ¬Arrives D P t x l

variable {D P t x} {B : Buffering Loc Val} {s s' : State B Tid L} {l : Label Tid Loc L}

theorem pending_of_issues (h : Issues D P t x l) (e : Step D P s l s') :
    B.pending (s'.buf t) x ≠ [] := by
  cases e
  case drain => exact h.elim
  case move e =>
    obtain ⟨rfl, o, v, k, hop, ho⟩ := h
    rw [hop] at e
    obtain ⟨-, ⟨-, rfl, -⟩ | ⟨-, -, -, hn⟩⟩ := Op.exec_store e
    · simp [Buffering.pending_push_self]
    · simp [ho] at hn

-- Only its own drain takes a store out of the buffer.
theorem pending_of_step (h : B.pending (s.buf t) x ≠ []) (hl : l ≠ .drain t x)
    (e : Step D P s l s') : B.pending (s'.buf t) x ≠ [] := by
  cases e
  case move u _ _ _ e =>
    by_cases hu : t = u
    case pos =>
      subst hu
      simp only [update_self]
      intro hn
      have hp := Op.exec_pending_prefix e x
      exact h (List.prefix_nil.mp (hn ▸ hp))
    case neg => simpa [hu] using h
  case drain u y _ _ hp =>
    by_cases hu : t = u
    case pos =>
      subst hu
      have hy : x ≠ y := fun hx => hl (hx ▸ rfl)
      simpa [← Buffering.pending_pop_ne hp hy] using h
    case neg => simpa [hu] using h

-- Runs are undisturbed if no store of another thread reaches memory while there is one of `t` in the
-- buffer.
theorem undisturbed {mem₀ : Mem Val} {threads₀ : Tid → L} {C : State B Tid L → Label Tid Loc L → Prop}
    (hC : ∀ s l, C s l → Arrives D P t x l → B.pending (s.buf t) x = []) {ls : List (Label Tid Loc L)}
    (r : ((system B D P mem₀ threads₀).restrict C).Run ls s) : Undisturbed D P t x ls := by
  suffices h : ∀ ls₁ i ls₂, ls = ls₁ ++ i :: ls₂ → Issues D P t x i → .drain t x ∉ ls₂ →
      B.pending (s.buf t) x ≠ [] ∧ ∀ l ∈ ls₂, ¬Arrives D P t x l from
    fun ls₁ i ls₂ he hi hd => (h ls₁ i ls₂ he hi hd).2
  induction r
  case init => simp
  case step ls _ _ _ r e hr =>
    intro ls₁ i ls₂ he hi hd
    obtain rfl | ⟨ls₂, l, rfl⟩ := ls₂.eq_nil_or_concat
    case inl =>
      obtain ⟨rfl, h⟩ := List.append_inj' he rfl
      cases h
      exact ⟨pending_of_issues hi e.2, nofun⟩
    case inr =>
      rw [List.concat_eq_append, ← List.cons_append, ← List.append_assoc] at he
      obtain ⟨rfl, h⟩ := List.append_inj' he rfl
      cases h
      simp only [List.concat_eq_append, List.mem_append, List.mem_singleton, not_or] at hd ⊢
      have ⟨hp, ha⟩ := hr _ _ _ rfl hi hd.1
      refine ⟨pending_of_step hp (Ne.symm hd.2) e.2, ?_⟩
      rintro l (hl | rfl) har
      · exact ha l hl har
      · exact hp (hC _ _ e.1 har)

end Machine

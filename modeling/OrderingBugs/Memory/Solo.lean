import OrderingBugs.Memory.Machine
import OrderingBugs.Memory.Termination

open Function

variable {Tid Loc L : Type} [DecidableEq Tid] [DecidableEq Loc] {Val : Loc → Type}

-- Runs in which a single thread gets on.
namespace Machine

-- What a thread can do while the others stand still: it moves, and its stores drain.
inductive Solo (B : Buffering Loc Val) (D : Discipline) (P : Program Tid Loc Val L) (t : Tid) :
    Mem Val → B.Buf → L → Mem Val → B.Buf → L → Prop
  | refl {m : Mem Val} {b : B.Buf} {l : L} : Solo B D P t m b l m b l
  | move {m m' m'' : Mem Val} {b b' b'' : B.Buf} {l l' l'' : L} :
    (P t l).exec B D m b = some (m', b', l') → Solo B D P t m' b' l' m'' b'' l'' →
    Solo B D P t m b l m'' b'' l''
  | drain {m m'' : Mem Val} {b b' b'' : B.Buf} {l l'' : L} {x : Loc} {v : Val x} :
    B.pop b x = some (v, b') → Solo B D P t (update m x v) b' l m'' b'' l'' →
    Solo B D P t m b l m'' b'' l''

namespace Solo

variable {B : Buffering Loc Val} {D : Discipline} {P : Program Tid Loc Val L} {t : Tid}
variable {m m' : Mem Val} {b b' : B.Buf} {l l' : L} {mem₀ : Mem Val} {threads₀ : Tid → L}

omit [DecidableEq Tid] in
theorem drained [Fintype Loc] (m : Mem Val) (b : B.Buf) (l : L) :
    ∃ b', B.Empty b' ∧ Solo B D P t m b l (B.view m b) b' l := by
  induction hn : ∑ x, (B.pending b x).length using Nat.strongRecOn generalizing m b
  case ind n hi =>
    by_cases he : B.Empty b
    case pos =>
      have hv : B.view m b = m := funext fun x => Buffering.view_nil (he x)
      exact ⟨b, he, by rw [hv]; exact .refl⟩
    case neg =>
      obtain ⟨x, hx⟩ := not_forall.mp he
      obtain ⟨y, v, b', hp⟩ := B.exists_pop hx
      have hlt : ∑ z, (B.pending b' z).length < ∑ z, (B.pending b z).length := by
        refine Finset.sum_lt_sum (fun z _ => ?_) ⟨y, Finset.mem_univ y, by simp [Buffering.pending_pop_self hp]⟩
        by_cases hz : z = y
        case pos => subst hz; simp [Buffering.pending_pop_self hp]
        case neg => rw [Buffering.pending_pop_ne hp hz]
      obtain ⟨b'', he, h⟩ := hi _ (hn ▸ hlt) (update m y v) b' rfl
      have hv : B.view (update m y v) b' = B.view m b := funext fun z => Buffering.view_pop hp
      exact ⟨b'', he, .drain hp (by rw [← hv]; exact h)⟩

theorem leads {s : State B Tid L} (hl : s.threads t = l) (h : Solo B D P t s.mem (s.buf t) l m' b' l') :
    (system B D P mem₀ threads₀).Leads (· = ⟨m', update s.buf t b', update s.threads t l'⟩) s := by
  obtain ⟨m, g, f⟩ := s
  dsimp only at hl h ⊢
  generalize hb : g t = b at h
  induction h generalizing g f
  case refl =>
    subst hb hl
    rw [update_eq_self, update_eq_self]
    exact .refl rfl
  case move e _ hi =>
    subst hb hl
    have h := hi (update g t _) (update f t _) (update_self ..) (update_self ..)
    rw [update_idem, update_idem] at h
    exact .step (.move (s := ⟨_, g, f⟩) e) h
  case drain e _ hi =>
    subst hb
    have h := hi (update g t _) f hl (update_self ..)
    rw [update_idem] at h
    exact .step (.drain (s := ⟨_, g, f⟩) e) h

end Solo

-- All buffers can drain while the threads stand still.
theorem leads_flushed [Fintype Tid] {D : Discipline} {P : Program Tid Loc Val L} {mem₀ : Mem Val}
    {threads₀ : Tid → L} (s : State (.fifo Val) Tid L) :
    (system (.fifo Val) D P mem₀ threads₀).Leads (fun s' => s'.Flushed ∧ s'.threads = s.threads) s := by
  let size (b : (Buffering.fifo Val).Buf) : Nat := List.length b
  refine .of_measure (p := fun s' => s'.threads = s.threads) (fun s => ∑ t, size (s.buf t))
    (fun s' ht hn => ?_) rfl
  have ⟨t, x, s'', e⟩ := exists_drain_of_not_flushed (D := D) (P := P) fun hf => hn ⟨hf, ht⟩
  cases e
  case drain b v hp =>
    have hb : size b < size (s'.buf t) := by
      rw [Buffering.fifo_pop hp]
      exact Nat.lt_succ_self _
    exact ⟨_, _, .drain hp, Interleaving.sum_update_lt hb, ht⟩

end Machine

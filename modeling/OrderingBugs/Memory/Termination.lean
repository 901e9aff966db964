import OrderingBugs.Transition.Exact
import OrderingBugs.Memory.Interleaving
import Mathlib.Algebra.BigOperators.Group.Finset.Basic
import Mathlib.Algebra.Order.BigOperators.Group.Finset

open Function

variable {Tid Loc L : Type} [DecidableEq Tid] [DecidableEq Loc] {Val : Loc → Type}

namespace Interleaving

variable [Fintype Tid] {rank : L → Nat} {f : Tid → L} {t : Tid} {l : L}

theorem sum_update_lt (h : rank l < rank (f t)) : ∑ u, rank (update f t l u) < ∑ u, rank (f u) := by
  refine Finset.sum_lt_sum (fun u _ => ?_) ⟨t, Finset.mem_univ t, by simpa using h⟩
  exact forall_update_iff f (fun u l => rank l ≤ rank (f u)) |>.mpr ⟨h.le, fun _ _ => le_rfl⟩ u

-- Finitely many threads that get on one at a time, each for a bounded number of steps, come to an end.
theorem leads_of_rank {P : Program Tid Loc Val L} {mem₀ : Mem Val} {threads₀ : Tid → L}
    {p q : State Val Tid L → Prop} (rank : L → Nat)
    (h : ∀ s, p s → ¬q s → ∃ t m l, (P t (s.threads t)).interleave s.mem = some (m, l) ∧
      rank l < rank (s.threads t) ∧ p ⟨m, update s.threads t l⟩)
    {s : State Val Tid L} (hs : p s) : (system P mem₀ threads₀).Leads q s := by
  refine .of_measure (fun s => ∑ u, rank (s.threads u)) (fun s hp hq => ?_) hs
  obtain ⟨t, m, l, e, hr, hp⟩ := h s hp hq
  exact ⟨_, _, .move e, sum_update_lt hr, hp⟩

end Interleaving

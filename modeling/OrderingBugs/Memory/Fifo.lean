import OrderingBugs.Memory.Buffer

open Function

-- What holds of memory while a queue of stores drains.
namespace Buffering

variable {Loc : Type} [DecidableEq Loc] {Val : Loc → Type}

-- Memory after all buffered stores have drained.
def flush (m : Mem Val) : List (Entry Val) → Mem Val
  | [] => m
  | e :: b => flush (update m e.1 e.2) b

-- Every state of memory that the queue drains through has a property.
def Along (Q : Mem Val → Prop) (m : Mem Val) : List (Entry Val) → Prop
  | [] => Q m
  | e :: b => Q m ∧ Along Q (update m e.1 e.2) b

variable {Q Q' : Mem Val → Prop} {m : Mem Val} {b b' : (fifo Val).Buf} {x y : Loc} {v : Val x}
variable {w : Val y}

instance : Membership (Entry Val) (fifo Val).Buf :=
  inferInstanceAs (Membership (Entry Val) (List (Entry Val)))

theorem mem_fifo_push {e : Entry Val} : e ∈ (fifo Val).push b x v ↔ e ∈ b ∨ e = ⟨x, v⟩ :=
  List.mem_append.trans (or_congr_right List.mem_singleton)

theorem mem_fifo_pop {e : Entry Val} (h : (fifo Val).pop b x = some (v, b')) :
    e ∈ b ↔ e = ⟨x, v⟩ ∨ e ∈ b' :=
  fifo_pop h ▸ List.mem_cons

theorem flush_push : flush m ((fifo Val).push b x v) = update (flush m b) x v := by
  change flush m (List.append b _) = _
  induction b generalizing m
  case nil => rfl
  case cons hi => exact hi

-- The owner of the queue reads as if it had drained.
theorem fifo_view_eq_flush : (fifo Val).view m b = flush m b := by
  induction b using List.reverseRecOn
  case nil => rfl
  case append_singleton b e hi =>
    refine .trans ?_ flush_push.symm
    rw [← hi]
    exact view_push

namespace Along

theorem here (h : Along Q m b) : Q m := by
  cases b
  case nil => exact h
  case cons => exact h.1

theorem flush (h : Along Q m b) : Q (flush m b) := by
  induction b generalizing m
  case nil => exact h
  case cons hi => exact hi h.2

theorem imp (hq : ∀ m, Q m → Q' m) (h : Along Q m b) : Along Q' m b := by
  induction b generalizing m
  case nil => exact hq _ h
  case cons hi => exact ⟨hq _ h.1, hi h.2⟩

theorem view (h : Along Q m b) : Q ((fifo Val).view m b) := by
  rw [fifo_view_eq_flush]
  exact h.flush

theorem push (h : Along Q m b) (hq : Q (update ((fifo Val).view m b) x v)) :
    Along Q m ((fifo Val).push b x v) := by
  rw [fifo_view_eq_flush] at hq
  change Along Q m (List.append b _)
  induction b generalizing m
  case nil => exact ⟨h, hq⟩
  case cons hi => exact ⟨h.1, hi h.2 hq⟩

theorem pop (h : Along Q m b) (hp : (fifo Val).pop b x = some (v, b')) :
    Along Q (update m x v) b' := by
  rw [fifo_pop hp] at h
  exact h.2

-- Memory is changed by someone else. A store to the same variable in the queue hides the change.
theorem interfere (h : Along Q m b) (hq : ∀ m, Q m → Q' (update m y w))
    (hn : ∀ e ∈ b, e.1 = y → ∀ m, Q m → Q' m) : Along Q' (update m y w) b := by
  induction b generalizing m
  case nil => exact hq _ h
  case cons e b hi =>
    refine ⟨hq _ h.1, ?_⟩
    by_cases he : e.1 = y
    case pos =>
      have hb : Along Q' (update m e.1 e.2) b := h.2.imp (hn e List.mem_cons_self he)
      subst he
      simpa using hb
    case neg =>
      rw [update_comm (Ne.symm he)]
      exact hi h.2 fun e' hm => hn e' (List.mem_cons_of_mem _ hm)

end Along
end Buffering

import Mathlib.Data.List.Nodup

namespace List

variable {α : Type*} {q : List α} {a b c : α}

-- `b` stands directly behind `a`.
def Adjacent : List α → α → α → Prop
  | [], _, _ => False
  | x :: q, a, b => (x = a ∧ q.head? = some b) ∨ q.Adjacent a b

namespace Adjacent

theorem left_mem (h : q.Adjacent a b) : a ∈ q := by
  induction q
  case nil => exact h.elim
  case cons hi =>
    cases h
    case inl h => exact h.1 ▸ mem_cons_self
    case inr h => exact mem_cons_of_mem _ (hi h)

theorem right_mem (h : q.Adjacent a b) : b ∈ q := by
  induction q
  case nil => exact h.elim
  case cons hi =>
    cases h
    case inl h => exact mem_cons_of_mem _ (mem_of_head? h.2)
    case inr h => exact mem_cons_of_mem _ (hi h)

-- Nobody stands in front of the head.
theorem ne_head (h : (c :: q).Adjacent a b) (hd : (c :: q).Nodup) : b ≠ c := by
  rintro rfl
  have hb : b ∈ q := h.elim (fun h => mem_of_head? h.2) right_mem
  exact (nodup_cons.mp hd).1 hb

theorem ne (h : q.Adjacent a b) (hd : q.Nodup) : a ≠ b := by
  induction q
  case nil => exact h.elim
  case cons hi =>
    cases h
    case inl h => exact h.1 ▸ (ne_head (.inl h) hd).symm
    case inr h => exact hi h (nodup_cons.mp hd).2

theorem left_unique (h₁ : q.Adjacent a c) (h₂ : q.Adjacent b c) (hd : q.Nodup) : a = b := by
  induction q
  case nil => exact h₁.elim
  case cons x q hi =>
    have hq := (nodup_cons.mp hd).2
    have hc {y z : α} (h : q.head? = some z) : ¬q.Adjacent y z := by
      cases q <;> cases h
      exact fun h => h.ne_head hq rfl
    rcases h₁ with ⟨rfl, h₁⟩ | h₁ <;> rcases h₂ with ⟨rfl, h₂⟩ | h₂
    · rfl
    · exact absurd h₂ (hc h₁)
    · exact absurd h₁ (hc h₂)
    · exact hi h₁ h₂ hq

theorem right_unique (h₁ : q.Adjacent a b) (h₂ : q.Adjacent a c) (hd : q.Nodup) : b = c := by
  induction q
  case nil => exact h₁.elim
  case cons x q hi =>
    have ⟨hx, hq⟩ := nodup_cons.mp hd
    rcases h₁ with ⟨hb, h₁⟩ | h₁ <;> rcases h₂ with ⟨hc, h₂⟩ | h₂
    · exact Option.some.inj (h₁.symm.trans h₂)
    · exact absurd (hb ▸ h₂.left_mem) hx
    · exact absurd (hc ▸ h₁.left_mem) hx
    · exact hi h₁ h₂ hq

theorem cons (h : q.Adjacent a b) : (c :: q).Adjacent a b :=
  .inr h

-- Nobody stands behind the last element.
theorem getLast?_ne (h : q.Adjacent a b) (hd : q.Nodup) : q.getLast? ≠ some a := by
  induction q
  case nil => exact h.elim
  case cons x q hi =>
    have ⟨hx, hq⟩ := nodup_cons.mp hd
    have hn : q ≠ [] := fun hn => by simp [hn, Adjacent] at h
    rw [getLast?_cons_of_ne_nil hn]
    cases h
    case inl h => exact fun hl => hx (h.1 ▸ mem_of_getLast? hl)
    case inr h => exact hi h hq

end Adjacent

theorem adjacent_cons_cons : (a :: b :: q).Adjacent a b :=
  .inl ⟨rfl, rfl⟩

theorem adjacent_append_singleton_iff :
    (q ++ [c]).Adjacent a b ↔ q.Adjacent a b ∨ (q.getLast? = some a ∧ b = c) := by
  induction q
  case nil => simp [Adjacent]
  case cons x q hi =>
    cases q
    case nil => simp [Adjacent, eq_comm]
    case cons => simp_all [Adjacent, or_assoc]

theorem exists_adjacent (h : a ∈ q) (hl : q.getLast? ≠ some a) : ∃ b, q.Adjacent a b := by
  induction q
  case nil => cases h
  case cons x q hi =>
    cases q
    case nil => simp_all
    case cons y q =>
      rcases mem_cons.mp h with rfl | h
      · exact ⟨y, .inl ⟨rfl, rfl⟩⟩
      · have ⟨b, hb⟩ := hi h (by simpa using hl)
        exact ⟨b, hb.cons⟩

theorem exists_adjacent_of_ne_head (h : b ∈ q) (hh : q.head? ≠ some b) : ∃ a, q.Adjacent a b := by
  induction q
  case nil => cases h
  case cons x q hi =>
    by_cases hq : q.head? = some b
    case pos => exact ⟨x, .inl ⟨rfl, hq⟩⟩
    case neg =>
      have hb : b ∈ q := (mem_cons.mp h).resolve_left fun hx => hh (hx ▸ rfl)
      have ⟨a, ha⟩ := hi hb hq
      exact ⟨a, ha.cons⟩

end List

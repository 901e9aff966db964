import Mathlib.Data.List.Basic

open Function

variable {N P : Type}

-- The nodes of a singly linked list. A node leads to where its link points to, a pointer is the address of a
-- node or the end of the list.
inductive Linked (Next : N → P → Prop) (addr : N → P) (last : P) : P → List N → Prop
  | nil : Linked Next addr last last []
  | cons {n : N} {p : P} {ns : List N} :
    Next n p → Linked Next addr last p ns → Linked Next addr last (addr n) (n :: ns)

-- A node has one link, it is known by its address, and its address is not the end of the list.
structure Linked.Functional (Next : N → P → Prop) (addr : N → P) (last : P) : Prop where
  next_unique    : ∀ n p q, Next n p → Next n q → p = q
  addr_injective : Injective addr
  addr_ne_last   : ∀ n p, Next n p → addr n ≠ last

namespace Linked

variable {Next Next' : N → P → Prop} {addr : N → P} {last p : P} {n : N} {ns ns₁ ns₂ : List N}

-- Only the links of the nodes of the list matter.
theorem congr (h : Linked Next addr last p ns) (hn : ∀ n ∈ ns, ∀ p, Next n p → Next' n p) :
    Linked Next' addr last p ns := by
  induction h
  case nil => exact .nil
  case cons n _ _ hp _ hi =>
    refine .cons (hn n (by simp) _ hp) (hi fun n hm => ?_)
    exact hn n (by simp [hm])

theorem cons_iff : Linked Next addr last p (n :: ns) ↔
    p = addr n ∧ ∃ q, Next n q ∧ Linked Next addr last q ns where
  mp
  | .cons hq h => ⟨rfl, _, hq, h⟩
  mpr := by
    rintro ⟨rfl, q, hq, h⟩
    exact .cons hq h

theorem nil_iff : Linked Next addr last p [] ↔ p = last where
  mp
  | .nil => rfl
  mpr
  | rfl => .nil

theorem unique (hf : Functional Next addr last) (h₁ : Linked Next addr last p ns₁)
    (h₂ : Linked Next addr last p ns₂) : ns₁ = ns₂ := by
  induction h₁ generalizing ns₂
  case nil =>
    cases ns₂
    case nil => rfl
    case cons =>
      obtain ⟨he, _, hq, -⟩ := cons_iff.mp h₂
      exact absurd he.symm (hf.addr_ne_last _ _ hq)
  case cons hp _ hi =>
    cases ns₂
    case nil => exact absurd (nil_iff.mp h₂) (hf.addr_ne_last _ _ hp)
    case cons =>
      obtain ⟨he, _, hq, h₂⟩ := cons_iff.mp h₂
      obtain rfl := hf.addr_injective he
      obtain rfl := hf.next_unique _ _ _ hp hq
      rw [hi h₂]

theorem ne_last (hf : Functional Next addr last) (h : Linked Next addr last p ns) (hn : n ∈ ns) :
    addr n ≠ last := by
  induction h
  case nil => cases hn
  case cons hp _ hi =>
    obtain rfl | hn := List.mem_cons.mp hn
    case inl => exact hf.addr_ne_last _ _ hp
    case inr => exact hi hn

variable [DecidableEq N]

-- What a node of the list leads to is the rest of the list.
theorem dropWhile (h : Linked Next addr last p ns) (hn : n ∈ ns) :
    Linked Next addr last (addr n) (ns.dropWhile (· ≠ n)) := by
  induction h
  case nil => cases hn
  case cons k _ ns hp h hi =>
    by_cases hk : k = n
    case pos => subst hk; simpa using .cons hp h
    case neg => simpa [hk] using hi ((List.mem_cons.mp hn).resolve_left (Ne.symm hk))

-- A list that came back to a node would not end.
theorem nodup (hf : Functional Next addr last) (h : Linked Next addr last p ns) : ns.Nodup := by
  induction h
  case nil => exact .nil
  case cons n _ ns hp h hi =>
    refine List.nodup_cons.mpr ⟨fun hn => ?_, hi⟩
    have he : ns.dropWhile (· ≠ n) = n :: ns := (h.dropWhile hn).unique hf (.cons hp h)
    have hl := (ns.dropWhile_sublist (· ≠ n)).length_le
    rw [he] at hl
    exact absurd hl (Nat.not_succ_le_self _)

end Linked

import OrderingBugs.Memory.Machine
import Mathlib.Data.List.Basic
import Mathlib.Data.List.Nodup

open Function

variable {Tid Loc L : Type} [DecidableEq Tid] [DecidableEq Loc] {Val : Loc → Type}

-- Under total store order, the queue of a thread holds the last of its stores.
namespace Machine

-- Where a thread has stored to so far, if that only depends on the place that it is at.
structure Logged (D : Discipline) (P : Program Tid Loc Val L) (t : Tid) (log : L → List Loc) : Prop where
  exec : ∀ m (b : (Buffering.fifo Val).Buf) l m' b' l',
    (P t l).exec (.fifo Val) D m b = some (m', b', l') →
    (b' = b ∧ log l' = log l) ∨ ∃ x v, b' = (Buffering.fifo Val).push b x v ∧ log l' = log l ++ [x]

def Queued (log : L → List Loc) (b : (Buffering.fifo Val).Buf) (l : L) : Prop :=
  List.IsSuffix (List.map Sigma.fst b) (log l)

variable {D : Discipline} {P : Program Tid Loc Val L} {t : Tid} {log : L → List Loc}
variable {b b' : (Buffering.fifo Val).Buf} {l : L} {x y : Loc} {v : Val x} {p q : List Loc}

namespace Queued

omit [DecidableEq Tid] in
theorem exec {m m' : Mem Val} {l' : L} (h : Queued log b l) (hl : Logged D P t log)
    (e : (P t l).exec (.fifo Val) D m b = some (m', b', l')) : Queued log b' l' := by
  obtain ⟨rfl, he⟩ | ⟨x, v, rfl, he⟩ := hl.exec _ _ _ _ _ _ e
  · rwa [Queued, he]
  · obtain ⟨q, h⟩ := h
    refine ⟨q, ?_⟩
    rw [he, ← h]
    exact (congrArg (q ++ ·) (List.map_append ..)).trans (List.append_assoc ..).symm

theorem pop (h : Queued log b l) (hp : (Buffering.fifo Val).pop b x = some (v, b')) : Queued log b' l := by
  rw [Buffering.fifo_pop hp] at h
  exact (List.suffix_cons ..).trans h

theorem of_reachable {mem₀ : Mem Val} {threads₀ : Tid → L} {s : State (.fifo Val) Tid L}
    (hl : Logged D P t log) (r : (system (.fifo Val) D P mem₀ threads₀).Reachable s) :
    Queued log (s.buf t) (s.threads t) := by
  refine r.invariant (I := fun s => Queued log (s.buf t) (s.threads t)) ?init ?step
  case init =>
    intro _ hs
    cases hs
    exact List.nil_suffix
  case step =>
    intro s _ _ _ h e
    cases e
    case move u m b k e =>
      by_cases hu : t = u
      case pos => subst hu; simpa using h.exec hl e
      case neg => simpa [hu] using h
    case drain u x v b hp =>
      by_cases hu : t = u
      case pos => subst hu; simpa using h.pop hp
      case neg => simpa [hu] using h

-- A store reaches memory after those that the thread has executed before it.
theorem pending_eq_nil (h : Queued log b l) (hl : log l = p ++ x :: q) (hn : (log l).Nodup)
    (hp : (Buffering.fifo Val).pop b x = some (v, b')) (hy : y ∈ p) :
    (Buffering.fifo Val).pending b y = [] := by
  rw [hl] at hn
  rw [Queued, Buffering.fifo_pop hp, hl] at h
  rw [Buffering.fifo_pop hp]
  have hd := List.disjoint_of_nodup_append hn
  obtain ⟨r, h⟩ := h
  have hx : x ∉ p := fun hx => hd hx (by simp)
  have hxq : x ∉ q := (List.nodup_cons.mp hn.of_append_right).1
  obtain ⟨-, -, hb⟩ := (List.append_cons_inj_of_notMem hx hxq).mp h.symm
  refine List.filterMap_eq_nil_iff.mpr fun e he => dif_neg fun hey => hd hy ?_
  rw [hb, ← hey]
  exact List.mem_map_of_mem (f := Sigma.fst) he

-- Those that it has executed after a store that has not reached memory have not either.
theorem pending_ne_nil (h : Queued log b l) (hl : log l = p ++ x :: q) (hn : (log l).Nodup)
    (hx : (Buffering.fifo Val).pending b x ≠ []) (hy : y ∈ q) : (Buffering.fifo Val).pending b y ≠ [] := by
  have mem_iff (z : Loc) : (Buffering.fifo Val).pending b z ≠ [] ↔ z ∈ List.map Sigma.fst b := by
    refine (not_congr List.filterMap_eq_nil_iff).trans (Iff.trans ?_ List.mem_map.symm)
    simp [Buffering.Entry.at?]
  rw [mem_iff] at hx ⊢
  rw [hl] at hn
  rw [Queued, hl] at h
  obtain ⟨r, h⟩ := h
  obtain ⟨p', q', hb⟩ := List.append_of_mem hx
  rw [hb, ← List.append_assoc] at h
  have hd := List.disjoint_of_nodup_append hn
  have hxp : x ∉ p := fun hx => hd hx (by simp)
  have hxq : x ∉ q := (List.nodup_cons.mp hn.of_append_right).1
  obtain ⟨-, -, rfl⟩ := (List.append_cons_inj_of_notMem hxp hxq).mp h.symm
  rw [hb]
  simp [hy]

end Queued
end Machine

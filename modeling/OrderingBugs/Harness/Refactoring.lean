import OrderingBugs.Harness.Pair

open Function

-- Tests as they are given to CBMC, in which two threads set and check variables without any loop. The
-- variables that are set, and those that are checked, are parameters.
namespace Harness.Refactoring

variable {Loc : Type} [DecidableEq Loc]

variable (Loc) in
abbrev Val (_ : Loc) : Type :=
  Int

-- `thread_writer`
def threadWriter : List Loc → Op Loc (Val Loc) (List Loc)
  | [] => .halt
  | x :: xs => .store .plain x 1 xs

inductive ReaderPc
  | loadFlag
  | loadChecked
  | returned
  | failed
  deriving DecidableEq

-- `thread_reader`, which asserts that a variable is set if it finds another one set.
def threadReader (flag checked : Loc) : ReaderPc → Op Loc (Val Loc) ReaderPc
  | .loadFlag => .load .plain flag fun v => if v = 1 then .loadChecked else .returned
  | .loadChecked => .load .plain checked fun v => if v = 1 then .returned else .failed
  | .returned | .failed => .halt

abbrev refactoring (stores : List Loc) (flag checked : Loc) :
    System (State (Val Loc) (List Loc) ReaderPc) (Label (List Loc) ReaderPc) :=
  system threadWriter (threadReader flag checked) (fun _ => 0) stores .loadFlag

-- The assertion can fail.
def Violates (stores : List Loc) (flag checked : Loc) : Prop :=
  ∃ s, (refactoring stores flag checked).Reachable s ∧ s.readerAt .failed

-- The variables that are set are those that the writer has come past.
structure Stored (stores : List Loc) (flag : Loc) (m : Mem (Val Loc)) (xs : List Loc)
    (r : ReaderPc) : Prop where
  mem    : ∃ ys, stores = ys ++ xs ∧ ∀ x, m x = if x ∈ ys then 1 else 0
  flag   : r = .loadChecked → m flag = 1
  failed : r ≠ .failed

variable {stores xs xs' : List Loc} {flag checked : Loc} {m m' : Mem (Val Loc)} {r r' : ReaderPc}

namespace Stored

theorem init : Stored stores flag (fun _ => 0) stores .loadFlag :=
  ⟨⟨[], by simp⟩, nofun, nofun⟩

theorem write (h : Stored stores flag m xs r)
    (e : (threadWriter xs).interleave m = some (m', xs')) : Stored stores flag m' xs' r := by
  obtain ⟨⟨ys, hs, hm⟩, hf, hr⟩ := h
  obtain _ | ⟨x, xs⟩ := xs <;> cases e
  case cons =>
    refine ⟨⟨ys ++ [x], by simp [hs], fun y => ?_⟩, fun hr => ?_, hr⟩
    · by_cases hy : y = x <;> simp [hy, hm]
    · by_cases hx : flag = x <;> simp [hx, hf hr]

-- As long as the flag is not set first, the reader finds set what it checks.
theorem read (hc : ∀ ys zs, stores = ys ++ flag :: zs → checked ∈ ys) (h : Stored stores flag m xs r)
    (e : (threadReader flag checked r).interleave m = some (m', r')) : Stored stores flag m' xs r' := by
  obtain ⟨⟨ys, hs, hm⟩, hf, hr⟩ := h
  cases r <;> cases e
  case loadFlag =>
    refine ⟨⟨ys, hs, hm⟩, fun hr => ?_, ?_⟩
    · by_contra hv
      simp [hv] at hr
    · dsimp only
      split <;> simp
  case loadChecked =>
    have hy : flag ∈ ys := by simpa [hm] using hf rfl
    obtain ⟨as, bs, rfl⟩ := List.append_of_mem hy
    have hx : checked ∈ as := hc as (bs ++ xs) (by simp [hs])
    refine ⟨⟨_, hs, hm⟩, ?_, ?_⟩ <;> simp [hm, hx]

end Stored

-- The writer alone can come past a part of its stores.
theorem leads_append {p : State (Val Loc) (List Loc) ReaderPc → Prop} {ys : List Loc}
    (h : ∀ m', (∀ x, m' x = if x ∈ ys then 1 else m x) →
      (refactoring stores flag checked).Leads p (state m' xs r)) :
    (refactoring stores flag checked).Leads p (state m (ys ++ xs) r) := by
  induction ys generalizing m
  case nil => exact h m (by simp)
  case cons y ys hi =>
    refine leads_writer rfl (hi fun m' hm => h m' fun x => ?_)
    by_cases hx : x = y <;> simp [hm, hx]

-- The assertion can fail precisely if the writer sets the flag before it has set what the reader checks.
theorem violates_iff (hn : flag ≠ checked) :
    Violates stores flag checked ↔ ∃ ys zs, stores = ys ++ flag :: zs ∧ checked ∉ ys where
  mp h := by
    obtain ⟨s, r, hf⟩ := h
    by_contra hc
    have ⟨m, xs, q, hs, hx⟩ := exists_state (I := fun m xs r => Stored stores flag m xs r) .init
      (fun _ _ _ _ _ => .write) (fun _ _ _ _ _ => .read fun ys zs hs => by
        by_contra hy
        exact hc ⟨ys, zs, hs, hy⟩) r
    exact hx.failed (readerAt_state.mp (hs ▸ hf))
  mpr := by
    rintro ⟨ys, zs, rfl, hy⟩
    refine System.Leads.exists_reachable (.init rfl) (leads_append fun m hm => leads_writer rfl ?_)
    refine leads_reader (n := update m flag 1) (q := .loadChecked) ?_ <|
      leads_reader (n := update m flag 1) (q := .failed) ?_ <| .refl (by simp)
    · simp [threadReader, Op.interleave]
    · simp [threadReader, Op.interleave, hm, hy, Ne.symm hn]

end Harness.Refactoring

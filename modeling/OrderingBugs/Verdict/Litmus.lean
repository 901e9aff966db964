import OrderingBugs.Memory.Exposure
import OrderingBugs.Memory.Simple

open Function

-- Straight-line tests: finitely many threads, each a finite sequence of accesses to shared
-- variables, full fences and assertions over the registers of the thread.
namespace Litmus

inductive Instr (Loc Reg V : Type)
  | load (r : Reg) (x : Loc)
  | store (x : Loc) (e : (Reg → V) → V)
  | fence
  | assert (p : (Reg → V) → Bool)

structure Thread (Loc Reg V : Type) where
  code   : List (Instr Loc Reg V)
  regs   : Reg → V
  failed : Bool := false

structure Program (Tid Loc Reg V : Type) where
  code : Tid → List (Instr Loc Reg V)
  mem  : Loc → V
  regs : Tid → Reg → V
  post : (Loc → V) → (Tid → Reg → V) → Bool

variable {Tid Loc Reg V : Type} [DecidableEq Tid] [DecidableEq Loc] [DecidableEq Reg]

def Thread.op : Thread Loc Reg V → Op Loc (fun _ => V) (Thread Loc Reg V)
  | ⟨[], _, _⟩ => .halt
  | ⟨.load r x :: is, ρ, f⟩ => .load .plain x fun v => ⟨is, update ρ r v, f⟩
  | ⟨.store x e :: is, ρ, f⟩ => .store .plain x (e ρ) ⟨is, ρ, f⟩
  | ⟨.fence :: is, ρ, f⟩ => .fence .seqCst ⟨is, ρ, f⟩
  | ⟨.assert p :: is, ρ, f⟩ => .skip ⟨is, ρ, f || !p ρ⟩

def Program.test (P : Program Tid Loc Reg V) : Test Tid Loc (fun _ => V) (Thread Loc Reg V) where
  program _ := Thread.op
  mem := P.mem
  threads t := { code := P.code t, regs := P.regs t }
  Failed l := l.failed = true
  Post m f := P.post m (fun t => (f t).regs) = true

instance (P : Program Tid Loc Reg V) : DecidablePred P.test.Failed :=
  fun l => inferInstanceAs (Decidable (l.failed = true))

instance (P : Program Tid Loc Reg V) (m : Loc → V) (f : Tid → Thread Loc Reg V) : Decidable (P.test.Post m f) :=
  inferInstanceAs (Decidable (P.post m _ = true))

-- What an instruction does to memory.
def Instr.access? : Instr Loc Reg V → Option (Access Loc)
  | load _ x => some (.load .plain x)
  | store x _ => some (.store .plain x)
  | fence => some (.fence .seqCst)
  | assert _ => none

def accesses (is : List (Instr Loc Reg V)) : List (Access Loc) :=
  is.filterMap Instr.access?

-- No load comes after a store to another location, unless there is a full fence or a store to its own location
-- between them, where `last` is the location that has been stored to last since the last fence.
def fencedFrom (last : Option Loc) : List (Instr Loc Reg V) → Bool
  | [] => true
  | .load _ y :: is => last.all (· = y) && fencedFrom last is
  | .store x _ :: is => fencedFrom (some x) is
  | .fence :: is => fencedFrom none is
  | .assert _ :: is => fencedFrom last is

def Program.Fenced (P : Program Tid Loc Reg V) : Prop :=
  ∀ t, fencedFrom none (P.code t) = true

-- With release semantics for all stores, what C11 allows is total store order.
def release : Order → Order
  | .plain => .release
  | o => o

theorem release_stronger (o : Order) :
    Discipline.flushing.Stronger o (release o) ∧ Discipline.flushing.Stronger (release o) o :=
  have h : release o = .seqCst ↔ o = .seqCst := by cases o <;> simp [release]
  ⟨Discipline.flushing_stronger h.symm, Discipline.flushing_stronger h⟩

abbrev released (as : List (Access Loc)) : List (Access Loc) :=
  as.map (Access.mapOrder release)

omit [DecidableEq Reg] in
theorem fenced_released_iff {is : List (Instr Loc Reg V)} :
    C11.Fenced .clear (released (accesses is)) ↔ fencedFrom none is = true := by
  suffices h : ∀ d : C11.Trail Loc, C11.Fenced d (released (accesses is)) ↔ fencedFrom d.location? is = true from
    h .clear
  induction is
  case nil => exact fun _ => iff_of_true trivial rfl
  case cons i is hi =>
    intro d
    cases i
    case assert => exact hi d
    case load r y =>
      rw [fencedFrom, Bool.and_eq_true, ← hi d]
      refine and_congr_left' ?_
      cases d <;> simp [Access.mapOrder, C11.Trail.Admits, C11.Trail.location?]
    case store x e =>
      refine (and_iff_right ?_).trans (hi (.store x false))
      cases d
      case clear => trivial
      case store => exact .inl rfl
    case fence =>
      refine (and_iff_right ?_).trans (hi .clear)
      cases d <;> trivial

variable {P : Program Tid Loc Reg V}

omit [DecidableEq Tid] in
theorem performs {t : Tid} {l : Thread Loc Reg V} :
    Program.Performs (fun _ : Tid => Thread.op) t l (accesses l.code) := by
  obtain ⟨code, ρ, f⟩ := l
  induction code generalizing ρ f
  case nil => exact .halt rfl
  case cons i is hi =>
    cases i
    case assert => exact .skip rfl (hi ..)
    all_goals
      refine .access rfl fun m m' k h => ?_
      cases h
      exact hi ..

omit [DecidableEq Tid] [DecidableEq Loc] in
theorem simple_test : (P.test.mapOrder release).Simple := by
  intro t l
  obtain ⟨_ | ⟨_ | _ | _ | _, _⟩, _, _⟩ := l <;> trivial

-- A fenced program has no failing run with total store order unless it has one without any buffers.
theorem Program.Fenced.interleavingViolates (h : P.Fenced) (hv : P.test.Violates (.fifo _) .flushing) :
    P.test.InterleavingViolates := by
  have hv := C11.Violates.of_fifo simple_test ((Test.violates_mapOrder_iff release_stronger).mpr hv)
  refine Test.interleavingViolates_mapOrder_iff.mp (hv.interleaving fun t => ?_)
  exact performs.mapOrder.fencedThread (fenced_released_iff.mpr (h t))

section OfAccesses

-- An instruction for an access, where `p` is the register for what is loaded, and `v` what is stored.
def Instr.ofAccess (p v : ℕ) : Access Loc → Instr Loc ℕ ℕ
  | .load _ x => .load p x
  | .store _ x | .rmw _ x => .store x fun _ => v
  | .fence _ => .fence

-- A program whose threads have given accesses.
def Program.ofAccesses (code : Tid → List (Access Loc)) (val : Tid → ℕ → ℕ) (post : (Tid → ℕ → ℕ) → Bool) :
    Program Tid Loc ℕ ℕ where
  code t := (code t).mapIdx fun p => Instr.ofAccess p (val t p)
  mem _ := 0
  regs _ _ := 0
  post _ := post

variable {code : Tid → List (Access Loc)} {val : Tid → ℕ → ℕ} {post : (Tid → ℕ → ℕ) → Bool}

omit [DecidableEq Loc] [DecidableEq Reg] in
theorem access?_ofAccess {is : List (Instr Loc Reg V)} {a : Access Loc} {p v : ℕ} (h : a ∈ accesses is) :
    (Instr.ofAccess p v a).access? = some a := by
  obtain ⟨i, -, hi⟩ := List.mem_filterMap.mp h
  cases i <;> cases hi <;> rfl

omit [DecidableEq Tid] [DecidableEq Loc] in
theorem accesses_ofAccesses {t : Tid} (h : ∀ a ∈ code t, ∀ p v, (Instr.ofAccess p v a).access? = some a) :
    accesses ((Program.ofAccesses code val post).code t) = code t := by
  simp only [Program.ofAccesses]
  generalize code t = as at h
  generalize val t = w
  suffices hf : ∀ f : ℕ → ℕ, accesses (as.mapIdx fun p => Instr.ofAccess (f p) (w (f p))) = as from hf id
  induction as
  case nil => exact fun _ => rfl
  case cons a as hi =>
    intro f
    rw [List.mapIdx_cons, accesses, List.filterMap_cons_some (h a List.mem_cons_self ..)]
    exact congrArg _ (hi (fun a ha => h a (List.mem_cons_of_mem _ ha)) (f <| · + 1))

omit [DecidableEq Tid] [DecidableEq Loc] in
theorem straight_ofAccesses (h : ∀ t, ∀ a ∈ code t, ∀ p v, (Instr.ofAccess p v a).access? = some a) :
    (Program.ofAccesses code val post).test.Straight code val
      fun t p ρ => ⟨((Program.ofAccesses code val post).code t).drop p, ρ, false⟩ where
  mem := rfl
  threads := rfl
  halt t p ρ hp := by
    have hn : ((Program.ofAccesses code val post).code t).drop p = [] := by
      simpa [Program.ofAccesses] using hp
    simp [Program.test, hn, Thread.op]
  access t p ρ a hp := by
    have hd : ((Program.ofAccesses code val post).code t).drop p =
        Instr.ofAccess p (val t p) a :: ((Program.ofAccesses code val post).code t).drop (p + 1) := by
      obtain ⟨hn, rfl⟩ := List.getElem?_eq_some_iff.mp hp
      rw [List.drop_eq_getElem_cons (by simpa [Program.ofAccesses] using hn)]
      simp [Program.ofAccesses]
    have ha := h t a (List.mem_of_getElem? hp) p (val t p)
    simp only [Program.test, hd]
    cases a <;> cases ha <;> rfl

omit [DecidableEq Reg] in
-- Next to a thread that is not fenced, there can be one that is fenced and makes it fail with total store order
-- only.
theorem exists_program {is : List (Instr Loc Reg V)} (h : fencedFrom none is ≠ true) :
    ∃ P : Program Bool Loc ℕ ℕ, accesses (P.code true) = accesses is ∧ fencedFrom none (P.code false) = true ∧
      P.test.Violates (.fifo _) .flushing ∧ ¬P.test.InterleavingViolates := by
  obtain ⟨x, y, i, j, he⟩ := C11.exists_exposure (mt fenced_released_iff.mp h)
  let code : Bool → List (Access Loc) := Bool.rec (C11.probe .plain .plain x y) (accesses is)
  let val : Bool → ℕ → ℕ := Bool.rec (fun _ => (released (accesses is)).length + 1) (· + 1)
  let P := Program.ofAccesses code val fun ρ => decide ¬C11.Overtaken (released (accesses is)) y i j ρ
  have ha (t : Bool) (a : Access Loc) (ha : a ∈ code t) (p v : ℕ) : (Instr.ofAccess p v a).access? = some a := by
    cases t
    case false =>
      simp only [code, C11.probe, List.mem_cons, List.not_mem_nil, or_false] at ha
      rcases ha with rfl | rfl | rfl | rfl <;> rfl
    case true => exact access?_ofAccess ha
  have hc : (fun t => released (code t)) = Bool.rec (C11.probe .release .release x y) (released (accesses is)) := by
    funext t
    cases t <;> rfl
  have hP : C11.Exposure (P.test.mapOrder release) (fun t p ρ => ⟨(P.code t).drop p, ρ, false⟩)
      (released (accesses is)) .release .release x y i j :=
    { toStraight := hc ▸ (straight_ofAccesses ha).mapOrder
      passes := fun _ _ _ h => Bool.false_ne_true h
      post := fun _ _ _ => decide_eq_true_iff }
  have hf : fencedFrom none (P.code false) = true := by
    rw [← fenced_released_iff, accesses_ofAccesses (ha false)]
    exact C11.fenced_probe
  obtain ⟨hv, hi⟩ := he _ _ _ _ _ hP
  refine ⟨P, accesses_ofAccesses (ha true), hf, ?_, mt Test.interleavingViolates_mapOrder_iff.mpr hi⟩
  refine (Test.violates_mapOrder_iff release_stronger).mp (hv.fifo simple_test fun t l o x v k hk => ?_)
  obtain ⟨_ | ⟨_ | _ | _ | _, _⟩, _, _⟩ := l <;> cases hk
  rfl

end OfAccesses
end Litmus

import OrderingBugs.Memory.Operation
import Mathlib.Data.Fintype.Pi
import Mathlib.Data.List.Basic

open Function

-- The store buffers of a single thread. `pending b x` lists the buffered stores to `x`, the oldest
-- first, and determines what the owner of the buffer and the memory can observe of it. `pop b x` is
-- the oldest store to `x`, if the buffer allows it to reach memory next.
structure Buffering (Loc : Type) [DecidableEq Loc] (Val : Loc → Type) where
  Buf     : Type
  empty   : Buf
  push    : Buf → (x : Loc) → Val x → Buf
  pop     : Buf → (x : Loc) → Option (Val x × Buf)
  pending : Buf → (x : Loc) → List (Val x)
  pending_empty : ∀ x, pending empty x = []
  pending_push  : ∀ b x v, pending (push b x v) = update (pending b) x (pending b x ++ [v])
  pending_pop   : ∀ {b x v b'}, pop b x = some (v, b') →
    pending b = update (pending b') x (v :: pending b' x)
  exists_pop    : ∀ {b x}, pending b x ≠ [] → ∃ y v b', pop b y = some (v, b')
  decEmpty      : ∀ b, Decidable (∀ x, pending b x = [])

namespace Buffering

variable {Loc : Type} [DecidableEq Loc] {Val : Loc → Type}

def Empty (B : Buffering Loc Val) (b : B.Buf) : Prop :=
  ∀ x, B.pending b x = []

instance (B : Buffering Loc Val) (b : B.Buf) : Decidable (B.Empty b) :=
  B.decEmpty b

-- The value a thread with buffer `b` reads: its own newest buffered store, else memory.
def view (B : Buffering Loc Val) (m : Mem Val) (b : B.Buf) (x : Loc) : Val x :=
  (B.pending b x).getLast?.getD (m x)

variable {B : Buffering Loc Val} {b b' : B.Buf} {x y : Loc} {v : Val x} {w : Val y} {m m' : Mem Val}

theorem empty_empty : B.Empty B.empty :=
  B.pending_empty

theorem view_nil (h : B.pending b x = []) : B.view m b x = m x := by
  simp [view, h]

theorem view_of_pending {vs : List (Val x)} (h : B.pending b x = vs ++ [v]) :
    B.view m b x = v := by
  simp [view, h]

-- What a thread reads is in memory or in its buffer.
theorem view_cases (B : Buffering Loc Val) (m : Mem Val) (b : B.Buf) (x : Loc) :
    (B.pending b x = [] ∧ B.view m b x = m x) ∨ B.view m b x ∈ B.pending b x := by
  cases h : (B.pending b x).getLast?
  case none => exact .inl ⟨List.getLast?_eq_none_iff.mp h, by simp [view, h]⟩
  case some => exact .inr (by simpa [view, h] using List.mem_of_getLast? h)

theorem pending_push_self : B.pending (B.push b x v) x = B.pending b x ++ [v] := by
  simp [B.pending_push]

theorem pending_push_ne (h : y ≠ x) : B.pending (B.push b x v) y = B.pending b y := by
  simp [B.pending_push, h]

theorem pending_pop_self (h : B.pop b x = some (v, b')) :
    B.pending b x = v :: B.pending b' x := by
  simp [B.pending_pop h]

theorem pending_pop_ne (h : B.pop b x = some (v, b')) (hn : y ≠ x) :
    B.pending b y = B.pending b' y := by
  simp [B.pending_pop h, hn]

theorem pending_pop_eq_nil (h : B.pop b x = some (v, b')) (hn : B.pending b y = []) :
    B.pending b' y = [] := by
  by_cases hy : y = x
  case pos => subst hy; simp [pending_pop_self h] at hn
  case neg => rwa [← pending_pop_ne h hy]

-- What holds of all buffered stores still does after another one for which it holds, or one fewer.
theorem forall_pending_push {p : (x : Loc) → Val x → Prop} (h : ∀ y, ∀ w ∈ B.pending b y, p y w)
    (hv : p x v) : ∀ y, ∀ w ∈ B.pending (B.push b x v) y, p y w := by
  intro y w hw
  by_cases hy : y = x
  case pos =>
    subst hy
    rw [pending_push_self, List.mem_append, List.mem_singleton] at hw
    exact hw.elim (h _ w) (· ▸ hv)
  case neg => exact h y w (pending_push_ne hy ▸ hw)

theorem forall_pending_pop {p : (x : Loc) → Val x → Prop} (h : ∀ y, ∀ w ∈ B.pending b y, p y w)
    (hp : B.pop b x = some (v, b')) : p x v ∧ ∀ y, ∀ w ∈ B.pending b' y, p y w := by
  refine ⟨h x v (by simp [pending_pop_self hp]), fun y w hw => h y w ?_⟩
  by_cases hy : y = x
  case pos => subst hy; simp [pending_pop_self hp, hw]
  case neg => rwa [pending_pop_ne hp hy]

theorem view_congr (h : m' x = m x) : B.view m' b x = B.view m b x := by
  simp [view, h]

theorem view_update_ne (h : x ≠ y) : B.view (update m y w) b x = B.view m b x :=
  view_congr (update_of_ne h ..)

-- A change of memory is seen unless a store of the reader's own hides it.
theorem view_update_self (B : Buffering Loc Val) (m : Mem Val) (b : B.Buf) (v : Val x) :
    B.view (update m x v) b x = v ∨ B.view (update m x v) b x = B.view m b x := by
  cases h : (B.pending b x).getLast? <;> simp [view, h]

theorem view_push : B.view m (B.push b x v) = update (B.view m b) x v := by
  ext1 y
  by_cases h : y = x
  case pos => subst h; simp [view, pending_push_self]
  case neg => simp [view, pending_push_ne h, h]

-- Its owner does not notice when a store drains.
theorem view_pop (h : B.pop b y = some (w, b')) : B.view (update m y w) b' x = B.view m b x := by
  by_cases hx : x = y
  case pos => subst hx; simp [view, pending_pop_self h, List.getLast?_cons]
  case neg => simp [view, pending_pop_ne h hx, hx]

-- A store that is put into empty buffers can drain, and leaves them empty.
theorem pop_push_of_empty (he : B.Empty b) :
    ∃ b', B.pop (B.push b x v) x = some (v, b') ∧ B.Empty b' := by
  have hx : B.pending (B.push b x v) x = [v] := by simp [pending_push_self, he x]
  have hn (y) (h : y ≠ x) : B.pending (B.push b x v) y = [] := by
    simp [pending_push_ne h, he y]
  have ⟨y, w, b', hp⟩ := B.exists_pop (b := B.push b x v) (x := x) (by simp [hx])
  have hw := pending_pop_self hp
  have hy : y = x := by
    by_contra h
    simp [hn y h] at hw
  subst hy
  simp only [hx, List.cons.injEq] at hw
  refine ⟨b', hw.1 ▸ hp, fun z => ?_⟩
  by_cases hz : z = y
  case pos => exact hz ▸ hw.2.symm
  case neg => exact (pending_pop_ne hp hz).symm.trans (hn z hz)

-- A buffered store: its location and value.
abbrev Entry (Val : Loc → Type) :=
  (x : Loc) × Val x

def Entry.at? (x : Loc) (e : Entry Val) : Option (Val x) :=
  if h : e.1 = x then some (h ▸ e.2) else none

@[simp]
theorem Entry.at?_self : Entry.at? x (⟨x, v⟩ : Entry Val) = some v := by
  simp [Entry.at?]

@[simp]
theorem Entry.at?_fst {e : Entry Val} : Entry.at? e.1 e = some e.2 :=
  at?_self

@[simp]
theorem Entry.at?_ne (h : x ≠ y) : Entry.at? y (⟨x, v⟩ : Entry Val) = none := by
  simp [Entry.at?, h]

theorem filterMap_at?_eq_nil_iff {b : List (Entry Val)} :
    (∀ x, b.filterMap (Entry.at? x) = []) ↔ b = [] where
  mp h := by
    cases b
    case nil => rfl
    case cons e b => simpa using h e.1
  mpr h := by simp [h]

-- Total store order: one queue for all locations, and only its oldest entry can drain.
def fifo (Val : Loc → Type) : Buffering Loc Val where
  Buf := List (Entry Val)
  empty := []
  push b x v := b ++ [⟨x, v⟩]
  pop
    | [], _ => none
    | e :: b, x => (e.at? x).map (·, b)
  pending b x := b.filterMap (Entry.at? x)
  pending_empty _ := rfl
  pending_push b x v := by
    ext1 y
    by_cases h : x = y
    case pos => subst h; simp
    case neg => simp [h, Ne.symm h]
  pending_pop {b x v b'} h := by
    cases b <;> simp at h
    case cons e b =>
      obtain ⟨he, rfl⟩ := h
      obtain ⟨y, w⟩ := e
      by_cases hy : y = x
      case neg => simp [hy] at he
      case pos =>
        subst hy
        ext1 z
        by_cases hz : y = z
        case pos => subst hz; simpa using he
        case neg => simp [hz, Ne.symm hz]
  exists_pop {b x} h := by
    cases b
    case nil => exact absurd rfl h
    case cons e b => exact ⟨e.1, e.2, b, by simp⟩
  decEmpty b := decidable_of_iff (b = []) filterMap_at?_eq_nil_iff.symm

theorem fifo_empty_iff {b : (fifo Val).Buf} : (fifo Val).Empty b ↔ b = ([] : List (Entry Val)) :=
  filterMap_at?_eq_nil_iff

theorem fifo_pop {b b' : (fifo Val).Buf} (h : (fifo Val).pop b x = some (v, b')) :
    b = (⟨x, v⟩ :: b' : List (Entry Val)) := by
  cases b <;> simp [fifo] at h
  case cons e b =>
    obtain ⟨w, he, h⟩ := h
    cases h
    simp only [Entry.at?] at he
    split at he <;> simp at he
    case _ hx => cases hx; cases he; rfl

theorem fifo_view_last {b : (fifo Val).Buf} {e : Entry Val} (h : List.getLast? b = some e) :
    (fifo Val).view m b e.1 = e.2 := by
  have ⟨b', hb⟩ := List.getLast?_eq_some_iff.mp h
  subst hb
  exact view_of_pending (show _ = b'.filterMap (Entry.at? e.1) ++ [e.2] by simp [fifo])

theorem fifo_pending_last {b : (fifo Val).Buf} {e : Entry Val} (h : List.getLast? b = some e) :
    (fifo Val).pending b e.1 ≠ [] := by
  have ⟨b', hb⟩ := List.getLast?_eq_some_iff.mp h
  subst hb
  simp [fifo]

-- The oldest entry for a location, and the buffer without it.
theorem filterMap_at?_eraseP {b : List (Entry Val)} (h : b.findSome? (Entry.at? x) = some v) :
    (fun y => b.filterMap (Entry.at? y)) =
      update (fun y => (b.eraseP (·.1 = x)).filterMap (Entry.at? y)) x
        (v :: (b.eraseP (·.1 = x)).filterMap (Entry.at? x)) := by
  induction b
  case nil => cases h
  case cons e b hi =>
    obtain ⟨y, u⟩ := e
    ext1 z
    by_cases hy : y = x
    case pos =>
      subst hy
      obtain rfl : u = v := by simpa using h
      by_cases hz : y = z
      case pos => subst hz; simp
      case neg => simp [hz, Ne.symm hz]
    case neg =>
      replace hi := congrFun (hi (by simpa [hy] using h)) z
      by_cases hx : z = x
      case pos => subst hx; simpa [hy] using hi
      case neg =>
        simp only [update_of_ne hx] at hi ⊢
        simp [hy, List.filterMap_cons, hi]

-- Partial store order for any number of locations: one list, of which the oldest entry for each location
-- can drain.
def unordered (Val : Loc → Type) : Buffering Loc Val where
  Buf := List (Entry Val)
  empty := []
  push b x v := b ++ [⟨x, v⟩]
  pop b x := (b.findSome? (Entry.at? x)).map (·, b.eraseP (·.1 = x))
  pending b x := b.filterMap (Entry.at? x)
  pending_empty _ := rfl
  pending_push := by exact (fifo Val).pending_push
  pending_pop h := by
    obtain ⟨w, hw, h⟩ := Option.map_eq_some_iff.mp h
    obtain ⟨rfl, rfl⟩ := Prod.mk.inj h
    exact filterMap_at?_eraseP hw
  exists_pop {b x} h := by
    cases b
    case nil => exact absurd rfl h
    case cons e b => exact ⟨e.1, e.2, b, by simp⟩
  decEmpty b := decidable_of_iff (b = []) filterMap_at?_eq_nil_iff.symm

-- Partial store order: a queue for each location, drained independently.
def perLocation [Fintype Loc] (Val : Loc → Type) : Buffering Loc Val where
  Buf := (x : Loc) → List (Val x)
  empty _ := []
  push b x v := update b x (b x ++ [v])
  pop b x :=
    match b x with
    | [] => none
    | v :: vs => some (v, update b x vs)
  pending b := b
  pending_empty _ := rfl
  pending_push _ _ _ := rfl
  pending_pop {b x v b'} h := by
    split at h <;> simp at h
    case _ hb =>
      obtain ⟨rfl, rfl⟩ := h
      simp [← hb]
  exists_pop {b x} h := by
    match hb : b x with
    | [] => exact absurd hb h
    | v :: vs => exact ⟨x, v, update b x vs, by simp [hb]⟩
  decEmpty b := Fintype.decidableForallFintype

theorem exists_pop_perLocation [Fintype Loc] {b : (perLocation Val).Buf} {q : List (Val x)}
    (h : (perLocation Val).pending b x = v :: q) : ∃ b', (perLocation Val).pop b x = some (v, b') := by
  change b x = v :: q at h
  simp [perLocation, h]

-- The queues per location that a buffer holds.
def toPerLocation [Fintype Loc] (B : Buffering Loc Val) (b : B.Buf) : (perLocation Val).Buf :=
  B.pending b

section PerLocation

variable [Fintype Loc]

@[simp]
theorem pending_toPerLocation :
    (perLocation Val).pending (B.toPerLocation b) = B.pending b :=
  rfl

@[simp]
theorem empty_toPerLocation_iff : (perLocation Val).Empty (B.toPerLocation b) ↔ B.Empty b :=
  Iff.rfl

@[simp]
theorem view_toPerLocation :
    (perLocation Val).view m (B.toPerLocation b) x = B.view m b x :=
  rfl

theorem toPerLocation_empty : B.toPerLocation B.empty = (perLocation Val).empty :=
  funext B.pending_empty

theorem toPerLocation_push :
    B.toPerLocation (B.push b x v) = (perLocation Val).push (B.toPerLocation b) x v :=
  B.pending_push b x v

theorem toPerLocation_pop (h : B.pop b x = some (v, b')) :
    (perLocation Val).pop (B.toPerLocation b) x = some (v, B.toPerLocation b') := by
  have hp := B.pending_pop h
  simp [perLocation, toPerLocation, hp]

end PerLocation
end Buffering

import OrderingBugs.Memory.Mutex
import Mathlib.Data.List.Basic

open Function

-- The lazily created package table of DragonWell (`12-DragonWell8Easy.cpp`).
namespace DragonWell

def packageTableEntrySize : Nat := 10

-- The members of a `PackageEntryTable`.
inductive Member
  | bucket (i : Nat)
  | lock
  deriving DecidableEq

inductive Loc
  | heap
  | globalPackageTable
  | globalTableLock
  | field (table : Nat) (member : Member)
  deriving DecidableEq

-- Tables and package entries are addresses. The heap is the next address that `new` returns.
abbrev Val : Loc → Type
  | .heap => Nat
  | .globalPackageTable => Option Nat
  | .globalTableLock => Bool
  | .field _ (.bucket _) => Option Nat
  | .field _ .lock => Int

def pthreadMutexInitializer : Int := 0

inductive ConstructorPc
  | initBuckets (i : Nat)
  | initLock
  | loop (i : Nat)
  deriving DecidableEq

inductive Pc
  | check
  | lock
  | recheck
  | new
  | construct (table : Nat) (pc : ConstructorPc)
  | publish (table : Nat)
  | unlock
  | load
  deriving DecidableEq

variable {L : Type}

-- The constructor `PackageEntryTable`, with the initializers of the members.
def packageEntryTable (this : Nat) (k : ConstructorPc → L) (ret : L) : ConstructorPc → Op Loc Val L
  | .initBuckets i =>
    if i < packageTableEntrySize
    then .store .plain (.field this (.bucket i)) none (k (.initBuckets (i + 1)))
    else .skip (k .initLock)
  | .initLock => .store .plain (.field this .lock) pthreadMutexInitializer (k (.loop 0))
  | .loop i =>
    if i < packageTableEntrySize
    then .store .plain (.field this (.bucket i)) none (k (.loop (i + 1)))
    else .skip ret

-- `getOrCreatePackageEntryTable`
def getOrCreatePackageEntryTable (k : Pc → L) (construct : Nat → L) (ret : Option Nat → L) :
    Pc → Op Loc Val L
  | .check => .load .plain .globalPackageTable fun
    | none => k .lock
    | some _ => k .load
  | .lock => .rmw .seqCst .globalTableLock (fun _ => true) fun locked =>
    if locked then k .lock else k .recheck
  | .recheck => .load .plain .globalPackageTable fun
    | none => k .new
    | some _ => k .unlock
  | .new => .rmw .relaxed .heap (· + 1) construct
  | .construct table pc =>
    packageEntryTable table (fun pc => k (.construct table pc)) (k (.publish table)) pc
  | .publish table => .store .plain .globalPackageTable (some table) (k .unlock)
  | .unlock => .store .seqCst .globalTableLock false (k .load)
  | .load => .load .plain .globalPackageTable ret

-- A thread with the call it is in, the tables that it has run the constructor for, and what its calls have
-- returned, the last one first.
structure Thread where
  current     : Option Pc
  constructed : List Nat
  returned    : List (Option Nat)

variable {Tid : Type}

-- Threads that call the function any number of times.
def program : Program Tid Loc Val Thread
  | _, ⟨none, ts, rs⟩ => .skip ⟨some .check, ts, rs⟩
  | _, ⟨some pc, ts, rs⟩ =>
    getOrCreatePackageEntryTable (fun pc => ⟨some pc, ts, rs⟩)
      (fun table => ⟨some (.construct table (.initBuckets 0)), table :: ts, rs⟩)
      (fun r => ⟨none, ts, r :: rs⟩) pc

-- Memory that has not been handed out by `new` contains anything.
def start (junk : (table : Nat) → (member : Member) → Val (.field table member)) : Mem Val
  | .heap => (0 : Nat)
  | .globalPackageTable => none
  | .globalTableLock => false
  | .field table member => junk table member

section

variable (Tid) [DecidableEq Tid]

abbrev State (B : Buffering Loc Val) :=
  Machine.State B Tid Thread

abbrev Label :=
  Machine.Label Tid Loc Thread

def system (B : Buffering Loc Val)
    (junk : (table : Nat) → (member : Member) → Val (.field table member)) :
    System (State Tid B) (Label Tid) :=
  Machine.system B .weak program (start junk) fun _ => ⟨none, [], []⟩

end

-- The members of a table are as the constructor leaves them.
structure Constructed (m : Mem Val) (table : Nat) : Prop where
  buckets : ∀ i < packageTableEntrySize, m (.field table (.bucket i)) = none
  lock    : m (.field table .lock) = pthreadMutexInitializer

-- Nothing else is ever stored to a member of a table.
def Fits : (x : Loc) → Val x → Prop
  | .field _ (.bucket _), v => v = none
  | .field _ .lock, v => v = pthreadMutexInitializer
  | .heap, _ | .globalPackageTable, _ | .globalTableLock, _ => True

variable {B : Buffering Loc Val} {m m' : Mem Val} {b b' : B.Buf} {l l' : Thread} {t : Tid} {table : Nat}
variable {x : Loc} {v : Val x}

theorem Constructed.update (h : Constructed m table) (hf : Fits x v) :
    Constructed (update m x v) table := by
  obtain ⟨hb, hl⟩ := h
  constructor
  · intro i hi
    by_cases hx : Loc.field table (.bucket i) = x
    case pos => subst hx; exact (update_self ..).trans hf
    case neg => rw [update_of_ne hx]; exact hb i hi
  · by_cases hx : Loc.field table .lock = x
    case pos => subst hx; exact (update_self ..).trans hf
    case neg => rw [update_of_ne hx]; exact hl

theorem Constructed.congr (h : Constructed m table)
    (hm : ∀ member, m' (.field table member) = m (.field table member)) : Constructed m' table :=
  ⟨fun i hi => (hm _).trans (h.buckets i hi), (hm _).trans h.lock⟩

-- How far the constructor has come, in terms of what the thread that runs it reads.
def ConstructorPc.Built (m : Mem Val) (table : Nat) : ConstructorPc → Prop
  | initBuckets i => ∀ j < i, m (.field table (.bucket j)) = none
  | initLock => ∀ j < packageTableEntrySize, m (.field table (.bucket j)) = none
  | loop _ => Constructed m table

theorem ConstructorPc.Built.congr {pc : ConstructorPc} (h : pc.Built m table)
    (hm : ∀ member, m' (.field table member) = m (.field table member)) : pc.Built m' table := by
  cases pc
  case initBuckets | initLock => exact fun j hj => (hm _).trans (h j hj)
  case loop => exact Constructed.congr h hm

theorem construct_cases {k : ConstructorPc → L} {ret l' : L} {pc : ConstructorPc}
    (e : (packageEntryTable table k ret pc).exec B .weak m b = some (m', b', l')) :
    m' = m ∧
    (b' = b ∨ ∃ member v, b' = B.push b (.field table member) v ∧ Fits (.field table member) v) ∧
    ((∃ pc', l' = k pc' ∧ (pc.Built (B.view m b) table → pc'.Built (B.view m b') table)) ∨
      (l' = ret ∧ (pc.Built (B.view m b) table → Constructed (B.view m b') table))) := by
  cases pc <;> simp only [packageEntryTable] at e
  case initBuckets i =>
    split at e <;> cases e
    case isTrue =>
      refine ⟨rfl, .inr ⟨_, _, rfl, rfl⟩, .inl ⟨_, rfl, fun h j hj => ?_⟩⟩
      rw [Buffering.view_push]
      by_cases hij : j = i
      case pos => subst hij; exact update_self ..
      case neg => exact (update_of_ne (by simp [hij]) ..).trans (h j (by omega))
    case isFalse hi => exact ⟨rfl, .inl rfl, .inl ⟨_, rfl, fun h j hj => h j (by omega)⟩⟩
  case initLock =>
    cases e
    refine ⟨rfl, .inr ⟨_, _, rfl, rfl⟩, .inl ⟨_, rfl, fun h => ?_⟩⟩
    rw [Buffering.view_push]
    exact ⟨fun i hi => (update_of_ne (by simp) ..).trans (h i hi), update_self ..⟩
  case loop i =>
    split at e <;> cases e
    case isTrue =>
      refine ⟨rfl, .inr ⟨_, _, rfl, rfl⟩, .inl ⟨_, rfl, fun h => ?_⟩⟩
      rw [Buffering.view_push]
      exact Constructed.update h rfl
    case isFalse => exact ⟨rfl, .inl rfl, .inr ⟨rfl, id⟩⟩

def Inside (l : Thread) : Prop :=
  match l.current with
  | none | some .check | some .lock | some .load => False
  | _ => True

theorem mutex : Machine.Mutex B .weak (program : Program Tid Loc Val Thread) .globalTableLock (· = true) Inside := by
  refine ⟨fun t l m b m' b' l' e hb => ?_⟩
  obtain ⟨_ | pc, ts, rs⟩ := l
  case none => cases e; exact ⟨hb, .inl ⟨rfl, .rfl⟩⟩
  case some =>
    cases pc <;> simp only [program, getOrCreatePackageEntryTable] at e
    case check | recheck =>
      cases e
      refine ⟨hb, .inl ⟨rfl, ?_⟩⟩
      dsimp only
      split <;> simp [Inside]
    case lock =>
      obtain ⟨rfl, rfl, rfl, -⟩ := Op.exec_rmw e
      refine ⟨hb, ?_⟩
      cases hl : m .globalTableLock <;> simp [Inside]
    case new =>
      obtain ⟨rfl, rfl, rfl, -⟩ := Op.exec_rmw e
      exact ⟨hb, .inl ⟨rfl, by simp [Inside]⟩⟩
    case construct table pc =>
      obtain ⟨rfl, rfl | ⟨member, v, rfl, -⟩, ⟨pc', rfl, -⟩ | ⟨rfl, -⟩⟩ := construct_cases e
      all_goals exact ⟨by simpa [Buffering.pending_push] using hb, .inl ⟨rfl, by simp [Inside]⟩⟩
    case publish =>
      cases e
      exact ⟨by simpa [Buffering.pending_push] using hb, .inl ⟨rfl, by simp [Inside]⟩⟩
    case unlock =>
      obtain ⟨rfl, ⟨-, -, ho⟩ | ⟨rfl, rfl, -⟩⟩ := Op.exec_store e
      · cases ho
      · exact ⟨hb, .inr (.inr ⟨by simp, by simp [Inside]⟩)⟩
    case load => cases e; exact ⟨hb, .inl ⟨rfl, by simp [Inside]⟩⟩

-- A thread changes neither the table nor the pointer to it except by stores that it buffers.
theorem exec_frame (e : (program t l).exec B .weak m b = some (m', b', l')) (hh : x ≠ .heap)
    (hl : x ≠ .globalTableLock) : m' x = m x := by
  obtain ⟨_ | pc, ts, rs⟩ := l
  case none => cases e; rfl
  case some =>
    cases pc <;> simp only [program, getOrCreatePackageEntryTable] at e
    case check | recheck | load | publish => cases e; rfl
    case lock | new =>
      obtain ⟨-, rfl, -⟩ := Op.exec_rmw e
      exact update_of_ne ‹_› ..
    case construct => rw [(construct_cases e).1]
    case unlock =>
      obtain ⟨-, ⟨rfl, -⟩ | ⟨rfl, -⟩⟩ := Op.exec_store e
      · rfl
      · exact update_of_ne hl ..

theorem construct_frame (e : (program t l).exec B .weak m b = some (m', b', l'))
    (h : Constructed m table) : Constructed m' table :=
  h.congr fun _ => exec_frame e nofun nofun

-- No table exists as far as the thread is concerned.
structure Unaware (b : B.Buf) (l : Thread) : Prop where
  empty       : B.Empty b
  current     : ∀ pc ∈ l.current, pc = .check ∨ pc = .lock ∨ pc = .recheck ∨ pc = .new
  constructed : l.constructed = []
  returned    : l.returned = []

-- The thread creates the table, and nothing is visible to others yet.
structure Creator (m : Mem Val) (table : Nat) (b : B.Buf) (l : Thread) : Prop where
  fits        : ∀ x, ∀ v ∈ B.pending b x, Fits x v
  current     :
    (∃ pc, l.current = some (.construct table pc) ∧ pc.Built (B.view m b) table ∧
      B.pending b .globalPackageTable = []) ∨
    (l.current = some (.publish table) ∧ Constructed (B.view m b) table ∧
      B.pending b .globalPackageTable = []) ∨
    (l.current = some .unlock ∧ Constructed (B.view m b) table ∧
      B.pending b .globalPackageTable = [some table])
  constructed : l.constructed = [table]
  returned    : l.returned = []

-- The thread holds the lock while the pointer can be seen by others.
structure Publisher (m : Mem Val) (table : Nat) (b : B.Buf) (l : Thread) : Prop where
  fits        : ∀ x, ∀ v ∈ B.pending b x, Fits x v
  pending     : B.pending b .globalPackageTable = []
  built       : Constructed (B.view m b) table
  current     : l.current = some .unlock
  constructed : l.constructed = [table]
  returned    : l.returned = []

-- The table exists, and the thread has run the constructor for the given ones.
structure Aware (table : Nat) (tables : List Nat) (b : B.Buf) (l : Thread) : Prop where
  empty       : B.Empty b
  current     : ∀ pc ∈ l.current, pc = .check ∨ pc = .lock ∨ pc = .recheck ∨ pc = .unlock ∨ pc = .load
  constructed : l.constructed = tables
  returned    : ∀ r ∈ l.returned, r = some table

theorem Creator.inside (h : Creator m table b l) : Inside l := by
  obtain ⟨_, hc, -⟩ | ⟨hc, -⟩ | ⟨hc, -⟩ := h.current <;> simp [Inside, hc]

theorem Publisher.inside (h : Publisher m table b l) : Inside l := by
  simp [Inside, h.current]

theorem Creator.congr (h : Creator m table b l)
    (hm : ∀ member, m' (.field table member) = m (.field table member)) : Creator m' table b l := by
  have hv (member) : B.view m' b (.field table member) = B.view m b (.field table member) :=
    Buffering.view_congr (hm member)
  refine ⟨h.fits, ?_, h.constructed, h.returned⟩
  obtain ⟨pc, hl, hb, hp⟩ | ⟨hl, hb, hp⟩ | ⟨hl, hb, hp⟩ := h.current
  · exact .inl ⟨pc, hl, hb.congr hv, hp⟩
  · exact .inr (.inl ⟨hl, hb.congr hv, hp⟩)
  · exact .inr (.inr ⟨hl, hb.congr hv, hp⟩)

theorem Publisher.congr (h : Publisher m table b l)
    (hm : ∀ member, m' (.field table member) = m (.field table member)) : Publisher m' table b l where
  fits := h.fits
  pending := h.pending
  built := h.built.congr fun member => Buffering.view_congr (hm member)
  current := h.current
  constructed := h.constructed
  returned := h.returned

theorem Unaware.exec (hm : m .globalPackageTable = none) (h : Unaware b l)
    (e : (program t l).exec B .weak m b = some (m', b', l')) :
    Unaware b' l' ∨ (Inside l ∧ ∃ table, Creator m' table b' l') := by
  obtain ⟨he, hc, ht, hr⟩ := h
  obtain ⟨_ | pc, ts, rs⟩ := l
  case none => cases e; exact .inl ⟨he, by simp, ht, hr⟩
  case some =>
    obtain rfl | rfl | rfl | rfl := hc _ rfl
    case inl | inr.inr.inl =>
      cases e
      rw [Buffering.view_nil (he _), hm]
      exact .inl ⟨he, by simp, ht, hr⟩
    case inr.inl =>
      obtain ⟨rfl, -, rfl, -⟩ := Op.exec_rmw e
      refine .inl ⟨he, ?_, ?_, ?_⟩ <;> dsimp only <;> split
      case refine_1.isTrue | refine_1.isFalse => simp
      case refine_2.isTrue | refine_2.isFalse => exact ht
      case refine_3.isTrue | refine_3.isFalse => exact hr
    case inr.inr.inr =>
      obtain ⟨rfl, -, rfl, -⟩ := Op.exec_rmw e
      refine .inr ⟨trivial, _, fun x v hv => by simp [he x] at hv, .inl ⟨_, rfl, ?_, he _⟩, by simp_all, hr⟩
      exact fun j hj => absurd hj (by omega)

theorem Creator.exec (h : Creator m table b l) (e : (program t l).exec B .weak m b = some (m', b', l')) :
    Creator m' table b' l' := by
  obtain ⟨hf, hc, ht, hr⟩ := h
  obtain ⟨pc, ts, rs⟩ := l
  obtain ⟨pc, rfl, hb, hp⟩ | ⟨rfl, hb, hp⟩ | ⟨rfl, hb, hp⟩ := hc
  · simp only [program, getOrCreatePackageEntryTable] at e
    obtain ⟨rfl, hb', hk⟩ := construct_cases e
    have hf' : ∀ x, ∀ v ∈ B.pending b' x, Fits x v := by
      obtain rfl | ⟨member, w, rfl, hw⟩ := hb'
      · exact hf
      · exact Buffering.forall_pending_push hf hw
    have hp' : B.pending b' .globalPackageTable = [] := by
      obtain rfl | ⟨member, w, rfl, -⟩ := hb'
      · exact hp
      · exact (Buffering.pending_push_ne (by simp)).trans hp
    obtain ⟨pc', rfl, hk⟩ | ⟨rfl, hk⟩ := hk
    · exact ⟨hf', .inl ⟨pc', rfl, hk hb, hp'⟩, ht, hr⟩
    · exact ⟨hf', .inr (.inl ⟨rfl, hk hb, hp'⟩), ht, hr⟩
  · cases e
    refine ⟨Buffering.forall_pending_push hf trivial, .inr (.inr ⟨rfl, ?_, ?_⟩), ht, hr⟩
    · rw [Buffering.view_push]
      exact hb.update trivial
    · simp [Buffering.pending_push_self, hp]
  · -- The lock cannot be released before the pointer has reached memory.
    obtain ⟨-, ⟨-, -, ho⟩ | ⟨-, -, he, -⟩⟩ := Op.exec_store e
    · cases ho
    · simp [he .globalPackageTable] at hp

theorem Publisher.exec (h : Publisher m table b l)
    (e : (program t l).exec B .weak m b = some (m', b', l')) :
    Constructed m' table ∧ Aware table [table] b' l' := by
  obtain ⟨-, -, hb, hc, ht, hr⟩ := h
  obtain ⟨pc, ts, rs⟩ := l
  obtain rfl : pc = _ := hc
  obtain ⟨rfl, ⟨-, -, ho⟩ | ⟨-, rfl, he, -⟩⟩ := Op.exec_store e
  · cases ho
  · exact ⟨construct_frame e (hb.congr fun _ => (Buffering.view_nil (he _)).symm), he, by simp, ht,
      by simp_all⟩

theorem Aware.exec {tables : List Nat} (hm : m .globalPackageTable = some table)
    (h : Aware table tables b l) (e : (program t l).exec B .weak m b = some (m', b', l')) :
    Aware table tables b' l' := by
  obtain ⟨he, hc, ht, hr⟩ := h
  obtain ⟨_ | pc, ts, rs⟩ := l
  case none => cases e; exact ⟨he, by simp, ht, hr⟩
  case some =>
    obtain rfl | rfl | rfl | rfl | rfl := hc _ rfl
    case inl | inr.inr.inl =>
      cases e
      rw [Buffering.view_nil (he _), hm]
      exact ⟨he, by simp, ht, hr⟩
    case inr.inl =>
      obtain ⟨rfl, -, rfl, -⟩ := Op.exec_rmw e
      refine ⟨he, ?_, ?_, ?_⟩ <;> dsimp only <;> split
      case refine_1.isTrue | refine_1.isFalse => simp
      case refine_2.isTrue | refine_2.isFalse => exact ht
      case refine_3.isTrue | refine_3.isFalse => exact hr
    case inr.inr.inr.inl =>
      obtain ⟨rfl, ⟨-, -, ho⟩ | ⟨-, rfl, -⟩⟩ := Op.exec_store e
      · cases ho
      · exact ⟨he, by simp, ht, hr⟩
    case inr.inr.inr.inr =>
      cases e
      refine ⟨he, by simp, ht, ?_⟩
      rw [Buffering.view_nil (he _), hm]
      simpa using hr

theorem Creator.drain (h : Creator m table b l) (e : B.pop b x = some (v, b')) :
    (x ≠ .globalPackageTable ∧ Creator (update m x v) table b' l) ∨
    (update m x v .globalPackageTable = some table ∧ Publisher (update m x v) table b' l) := by
  obtain ⟨hf, hc, ht, hr⟩ := h
  have hf' := (Buffering.forall_pending_pop hf e).2
  have hv : B.view (update m x v) b' = B.view m b := funext fun _ => Buffering.view_pop e
  by_cases hx : x = .globalPackageTable
  case pos =>
    subst hx
    rw [Buffering.pending_pop_self e] at hc
    obtain ⟨pc, -, -, hp⟩ | ⟨-, -, hp⟩ | ⟨hl, hb, hp⟩ := hc
    · cases hp
    · cases hp
    · rw [List.cons.injEq] at hp
      exact .inr ⟨(update_self ..).trans hp.1, hf', hp.2, hv ▸ hb, hl, ht, hr⟩
  case neg =>
    rw [← hv, Buffering.pending_pop_ne e (Ne.symm hx)] at hc
    exact .inl ⟨hx, hf', hc, ht, hr⟩

theorem Publisher.drain (h : Publisher m table b l) (e : B.pop b x = some (v, b')) :
    x ≠ .globalPackageTable ∧ Fits x v ∧ Publisher (update m x v) table b' l := by
  obtain ⟨hf, hp, hb, hc, ht, hr⟩ := h
  have ⟨hx, hf'⟩ := Buffering.forall_pending_pop hf e
  have hv : B.view (update m x v) b' = B.view m b := funext fun _ => Buffering.view_pop e
  refine ⟨?_, hx, hf', Buffering.pending_pop_eq_nil e hp, hv ▸ hb, hc, ht, hr⟩
  rintro rfl
  simp [Buffering.pending_pop_self e] at hp

theorem not_pop_of_empty (h : B.Empty b) : B.pop b x ≠ some (v, b') := fun e => by
  simpa [Buffering.pending_pop_self e] using h x

variable [DecidableEq Tid] {s s' : State Tid B} {k : Label Tid}
variable {junk : (table : Nat) → (member : Member) → Val (.field table member)}

-- How far the creation of the table has come.
inductive Phase (s : State Tid B) : Prop
  | fresh :
    s.mem .globalPackageTable = none → (∀ u, Unaware (s.buf u) (s.threads u)) → Phase s
  | creating (t : Tid) (table : Nat) :
    s.mem .globalPackageTable = none → Creator s.mem table (s.buf t) (s.threads t) →
    (∀ u ≠ t, Unaware (s.buf u) (s.threads u)) → Phase s
  | publishing (t : Tid) (table : Nat) :
    s.mem .globalPackageTable = some table → Publisher s.mem table (s.buf t) (s.threads t) →
    (∀ u ≠ t, Aware table [] (s.buf u) (s.threads u)) → Phase s
  | complete (t : Tid) (table : Nat) :
    s.mem .globalPackageTable = some table → Constructed s.mem table →
    Aware table [table] (s.buf t) (s.threads t) →
    (∀ u ≠ t, Aware table [] (s.buf u) (s.threads u)) → Phase s

theorem Unaware.aware (h : Unaware b l) (hi : ¬Inside l) : Aware table [] b l where
  empty := h.empty
  current pc hp := by
    obtain rfl | rfl | rfl | rfl := h.current pc hp
    case inr.inr.inr =>
      rw [Option.mem_def] at hp
      simp [Inside, hp] at hi
    all_goals simp
  constructed := h.constructed
  returned := by simp [h.returned]

namespace Phase

omit [DecidableEq Tid] in
theorem init : Phase (B := B) ⟨start junk, fun _ : Tid => B.empty, fun _ => ⟨none, [], []⟩⟩ :=
  .fresh rfl fun _ => ⟨B.empty_empty, by simp, rfl, rfl⟩

theorem move (hx : Machine.Mutex.Exclusive .globalTableLock (· = true) Inside s) (h : Phase s)
    (e : (program t (s.threads t)).exec B .weak s.mem (s.buf t) = some (m', b', l')) :
    Phase (B := B) ⟨m', update s.buf t b', update s.threads t l'⟩ := by
  have hg : m' .globalPackageTable = s.mem .globalPackageTable := exec_frame e nofun nofun
  have hf (table member) : m' (.field table member) = s.mem (.field table member) := exec_frame e nofun nofun
  cases h
  case fresh hm h =>
    obtain ht | ⟨-, table, ht⟩ := (h t).exec hm e
    · exact .fresh (hg.trans hm) (Machine.forall_update (Q := fun _ l b => Unaware b l) ht fun u _ => h u)
    · exact .creating t table (hg.trans hm) (by simpa using ht) fun u hu => by simpa [hu] using h u
  case creating u table hm hu h =>
    by_cases htu : t = u
    case pos =>
      subst htu
      exact .creating t table (hg.trans hm) (by simpa using hu.exec e) fun u hu => by simpa [hu] using h u hu
    case neg =>
      obtain ht | ⟨hi, -⟩ := (h t htu).exec hm e
      · exact .creating u table (hg.trans hm) (by simpa [Ne.symm htu] using hu.congr (hf table))
          (Machine.forall_update (Q := fun v l b => v ≠ u → Unaware b l) (fun _ => ht) fun v _ => h v)
      · exact absurd (hx.unique t u hi hu.inside) htu
  case publishing u table hm hu h =>
    by_cases htu : t = u
    case pos =>
      subst htu
      have ⟨hc, ht⟩ := hu.exec e
      exact .complete t table (hg.trans hm) hc (by simpa using ht) fun u hu => by simpa [hu] using h u hu
    case neg =>
      exact .publishing u table (hg.trans hm) (by simpa [Ne.symm htu] using hu.congr (hf table))
        (Machine.forall_update (Q := fun v l b => v ≠ u → Aware table [] b l)
          (fun _ => (h t htu).exec hm e) fun v _ => h v)
  case complete u table hm hc hu h =>
    refine .complete u table (hg.trans hm) (hc.congr (hf table)) ?_
      (Machine.forall_update (Q := fun v l b => v ≠ u → Aware table [] b l)
        (fun htu => (h t htu).exec hm e) fun v _ => h v)
    by_cases htu : t = u
    case pos => subst htu; simpa using hu.exec hm e
    case neg => simpa [Ne.symm htu] using hu

theorem drain (hx : Machine.Mutex.Exclusive .globalTableLock (· = true) Inside s) (h : Phase s)
    (e : B.pop (s.buf t) x = some (v, b')) :
    Phase (B := B) ⟨update s.mem x v, update s.buf t b', s.threads⟩ := by
  cases h
  case fresh h => exact absurd e (not_pop_of_empty (h t).empty)
  case creating u table hm hu h =>
    by_cases htu : t = u
    case neg => exact absurd e (not_pop_of_empty (h t htu).empty)
    subst htu
    obtain ⟨hg, hc⟩ | ⟨hg, hp⟩ := hu.drain e
    · exact .creating t table ((update_of_ne (Ne.symm hg) ..).trans hm) (by simpa using hc)
        fun u hu => by simpa [hu] using h u hu
    · refine .publishing t table hg (by simpa using hp) fun u hut => ?_
      have ha : Aware table [] (s.buf u) (s.threads u) :=
        (h u hut).aware fun hi => hut (hx.unique u t hi hu.inside)
      simpa [hut] using ha
  case publishing u table hm hu h =>
    by_cases htu : t = u
    case neg => exact absurd e (not_pop_of_empty (h t htu).empty)
    subst htu
    obtain ⟨hg, -, hp⟩ := hu.drain e
    exact .publishing t table ((update_of_ne (Ne.symm hg) ..).trans hm) (by simpa using hp)
      fun u hu => by simpa [hu] using h u hu
  case complete u table hm hc hu h =>
    by_cases htu : t = u
    case neg => exact absurd e (not_pop_of_empty (h t htu).empty)
    subst htu
    exact absurd e (not_pop_of_empty hu.empty)

theorem of_reachable (r : (system Tid B junk).Reachable s) : Phase s := by
  refine r.invariant (fun s hs => ?init) fun s k s' r h e => ?step
  case init => cases hs; exact init
  case step =>
    have hx := mutex.exclusive (fun _ => id) r
    cases e
    case move e => exact h.move hx e
    case drain e => exact h.drain hx e

end Phase

-- How the creation of the table looks to a single thread.
inductive Stage (s : State Tid B) (t : Tid) : Prop
  | unaware :
    s.mem .globalPackageTable = none → Unaware (s.buf t) (s.threads t) → Stage s t
  | creator (table : Nat) :
    s.mem .globalPackageTable = none → Creator s.mem table (s.buf t) (s.threads t) → Stage s t
  | publisher (table : Nat) :
    s.mem .globalPackageTable = some table → Publisher s.mem table (s.buf t) (s.threads t) → Stage s t
  | aware (table : Nat) (tables : List Nat) :
    s.mem .globalPackageTable = some table → Aware table tables (s.buf t) (s.threads t) → Stage s t

theorem Phase.stage (h : Phase s) (t : Tid) : Stage s t := by
  cases h
  case fresh hm h => exact .unaware hm (h t)
  case creating c table hm hc h =>
    by_cases htc : t = c
    case pos => exact .creator table hm (htc ▸ hc)
    case neg => exact .unaware hm (h t htc)
  case publishing c table hm hc h =>
    by_cases htc : t = c
    case pos => exact .publisher table hm (htc ▸ hc)
    case neg => exact .aware table [] hm (h t htc)
  case complete c table hm _ hc h =>
    by_cases htc : t = c
    case pos => exact .aware table [table] hm (htc ▸ hc)
    case neg => exact .aware table [] hm (h t htc)

namespace Stage

omit [DecidableEq Tid] in
-- Only tables that can be seen have been returned, and to threads that have nothing in their buffers.
theorem of_returned (h : Stage s t) {r : Option Nat} (hr : r ∈ (s.threads t).returned) :
    (∃ table, r = some table ∧ s.mem .globalPackageTable = some table) ∧ B.Empty (s.buf t) := by
  cases h
  case unaware h => simp [h.returned] at hr
  case creator h => simp [h.returned] at hr
  case publisher h => simp [h.returned] at hr
  case aware table _ hm h => exact ⟨⟨table, h.returned r hr, hm⟩, h.empty⟩

omit [DecidableEq Tid] in
theorem empty (h : Stage s t) (hi : ¬Inside (s.threads t)) : B.Empty (s.buf t) := by
  cases h
  case unaware h => exact h.empty
  case creator h => exact absurd h.inside hi
  case publisher h => exact absurd h.inside hi
  case aware h => exact h.empty

omit [DecidableEq Tid] in
-- What drains while the pointer can be seen belongs to the table, or is nothing at all.
theorem fits (h : Stage s t) (hm : s.mem .globalPackageTable = some table)
    (e : B.pop (s.buf t) x = some (v, b')) : x ≠ .globalPackageTable ∧ Fits x v := by
  cases h
  case unaware h => exact absurd e (not_pop_of_empty h.empty)
  case creator hn _ => cases hn.symm.trans hm
  case publisher h =>
    obtain ⟨hx, hf, -⟩ := h.drain e
    exact ⟨hx, hf⟩
  case aware h => exact absurd e (not_pop_of_empty h.empty)

end Stage

-- All calls return what the pointer is.
theorem Phase.returned (h : Phase s) (t u : Tid) :
    ∀ p ∈ (s.threads t).returned, ∀ q ∈ (s.threads u).returned, p = q ∧ p ≠ none := by
  intro p ht q hu
  obtain ⟨⟨a, rfl, ha⟩, -⟩ := (h.stage t).of_returned ht
  obtain ⟨⟨b, rfl, hb⟩, -⟩ := (h.stage u).of_returned hu
  exact ⟨ha.symm.trans hb, nofun⟩

-- The constructor has run for at most one table, and this is what all calls have returned.
structure SingleTable (s : State Tid B) : Prop where
  once        : ∀ t, (s.threads t).constructed.length ≤ 1
  constructed : ∀ t u, ∀ p ∈ (s.threads t).constructed, ∀ q ∈ (s.threads u).constructed, t = u ∧ p = q
  returned    : ∀ t u, ∀ p ∈ (s.threads t).returned, ∀ q ∈ (s.threads u).returned, p = q ∧ p ≠ none

theorem SingleTable.of_creator {c : Tid} (h : Phase s) (hc : (s.threads c).constructed = [table])
    (ho : ∀ u ≠ c, (s.threads u).constructed = []) : SingleTable s := by
  have hu (u) (q) (hq : q ∈ (s.threads u).constructed) : u = c ∧ q = table := by
    by_cases hu : u = c
    case pos => subst hu; simpa [hc] using hq
    case neg => simp [ho u hu] at hq
  refine ⟨fun t => ?once, fun t u p hp q hq => ?constructed, h.returned⟩
  case once =>
    by_cases ht : t = c
    case pos => simp [ht, hc]
    case neg => simp [ho t ht]
  case constructed =>
    obtain ⟨rfl, rfl⟩ := hu t p hp
    obtain ⟨rfl, rfl⟩ := hu u q hq
    exact ⟨rfl, rfl⟩

theorem Phase.singleTable (h : Phase s) : SingleTable s := by
  have hp := h
  cases h
  case fresh h =>
    refine ⟨fun t => ?_, fun t _ p hp => ?_, hp.returned⟩
    · simp [(h t).constructed]
    · simp [(h t).constructed] at hp
  case creating hc h => exact .of_creator hp hc.constructed fun u hu => (h u hu).constructed
  case publishing hc h => exact .of_creator hp hc.constructed fun u hu => (h u hu).constructed
  case complete hc h => exact .of_creator hp hc.constructed fun u hu => (h u hu).constructed

-- The pointer is never changed again.
theorem Phase.stable (h : Phase s) (e : (system Tid B junk).Step s k s')
    (hm : s.mem .globalPackageTable = some table) : s'.mem .globalPackageTable = some table := by
  cases e
  case move e => exact (exec_frame (x := .globalPackageTable) e nofun nofun).trans hm
  case drain t x v b e => exact (update_of_ne (Ne.symm ((h.stage t).fits hm e).1) ..).trans hm

theorem single_table (Tid : Type) [DecidableEq Tid] (B : Buffering Loc Val)
    (junk : (table : Nat) → (member : Member) → Val (.field table member)) {s : State Tid B}
    (r : (system Tid B junk).Reachable s) :
    SingleTable s ∧ ∀ k s' table, (system Tid B junk).Step s k s' →
      s.mem .globalPackageTable = some table → s'.mem .globalPackageTable = some table :=
  ⟨(Phase.of_reachable r).singleTable, fun _ _ _ => (Phase.of_reachable r).stable⟩

-- What `new` returns contains a pointer in the first bucket before it is constructed.
def dirty : (table : Nat) → (member : Member) → Val (.field table member)
  | _, .bucket _ => some (0 : Nat)
  | _, .lock => pthreadMutexInitializer

theorem single_table_both : ∃ s, (system Bool (Buffering.unordered Val) dirty).Reachable s ∧
    (some 0 ∈ (s.threads true).returned ∧ some 0 ∈ (s.threads false).returned) ∧ SingleTable s := by
  have ⟨s, r, h⟩ := Machine.exists_reachable_of_schedule (Buffering.unordered Val) .weak
    (program : Program Bool Loc Val Thread) (start dirty) (fun _ => ⟨none, [], []⟩)
    (.replicate 29 (.move true) ++ [.drain true .globalPackageTable] ++ .replicate 3 (.move false) ++
      (List.range 10).flatMap (fun i => .replicate 2 (.drain true (.field 0 (.bucket i)))) ++
      [.drain true (.field 0 .lock), .move true, .move true])
    (p := fun s => some 0 ∈ (s.threads true).returned ∧ some 0 ∈ (s.threads false).returned)
    (by decide)
  exact ⟨s, r, h, (single_table Bool _ dirty r).1⟩

end DragonWell

import OrderingBugs.Transition.Exact
import OrderingBugs.Memory.Renaming
import OrderingBugs.Memory.Solo
import OrderingBugs.Memory.Spinlock

open Function

-- The lock of Xen as it is given to CBMC (`CBMC/Layer1/8-CVE-2020-11739-Xen.c`). It is given up with a plain
-- store.
namespace Xen.Cbmc

inductive Loc
  | cnts
  | cs
  deriving DecidableEq

instance : Fintype Loc where
  elems := {.cnts, .cs}
  complete x := by cases x <;> decide

abbrev Val (_ : Loc) : Type :=
  Int

inductive Pc
  | writeLock
  | loadIncr
  | storeIncr (v : Int)
  | loadAssert
  | assert (v : Int)
  | loadDecr
  | storeDecr (v : Int)
  | writeUnlock
  | done
  | failed
  deriving DecidableEq

variable {Tid : Type}

-- `thread_func` with `write_lock` and `write_unlock`. The assumption waits until the exchange succeeds.
def threadFunc : Program Tid Loc Val Pc
  | _, .writeLock => .rmw .seqCst .cnts (fun v => if v = 0 then 0xff else v) fun v =>
    if v = 0 then .loadIncr else .writeLock
  | _, .loadIncr => .load .plain .cs .storeIncr
  | _, .storeIncr v => .store .plain .cs (v + 1) .loadAssert
  | _, .loadAssert => .load .plain .cs .assert
  | _, .assert v => .skip (if v = 1 then .loadDecr else .failed)
  | _, .loadDecr => .load .plain .cs .storeDecr
  | _, .storeDecr v => .store .plain .cs (v - 1) .writeUnlock
  | _, .writeUnlock => .store .plain .cnts 0 .done
  | _, .done | _, .failed => .halt

def start : Mem Val
  | .cnts | .cs => 0

variable [DecidableEq Tid] {B : Buffering Loc Val}

def system (B : Buffering Loc Val) (Tid : Type) [DecidableEq Tid] :
    System (Machine.State B Tid Pc) (Machine.Label Tid Loc Pc) :=
  Machine.system B .flushing threadFunc start fun _ => .writeLock

def Failed (s : Machine.State B Tid Pc) : Prop :=
  ∃ t, s.threads t = .failed

-- The store that gives up the lock does not overtake the stores to `cs`, as long as there is a thread left
-- that the lock has to keep out.
def InOrder (s : Machine.State B Tid Pc) (l : Machine.Label Tid Loc Pc) : Prop :=
  ∀ t u, l = .drain t .cnts → s.threads u = .writeLock → B.pending (s.buf t) .cs = []

def Inside (pc : Pc) : Prop :=
  pc ≠ .writeLock ∧ pc ≠ .done

-- What `cs` shows to the thread that has the lock.
def Shows (pc : Pc) (v : Int) : Prop :=
  match pc with
  | .writeLock | .loadIncr | .writeUnlock | .done => v = 0
  | .storeIncr w => v = 0 ∧ w = 0
  | .loadAssert | .loadDecr => v = 1
  | .assert w | .storeDecr w => v = 1 ∧ w = 1
  | .failed => False

variable {s s' : Machine.State B Tid Pc} {l : Machine.Label Tid Loc Pc} {t u : Tid}
variable {m m' : Mem Val} {b b' : B.Buf} {pc pc' : Pc}

omit [DecidableEq Tid] in
theorem spinlock :
    Machine.Spinlock B .flushing (threadFunc : Program Tid Loc Val Pc) .cnts (· ≠ 0) Inside := by
  refine ⟨fun t pc m b m' b' pc' e => ?_⟩
  cases pc
  case writeLock =>
    have hn := Op.pending_of_exec_rmw e
    obtain ⟨rfl, rfl, rfl, -⟩ := Op.exec_rmw e
    by_cases hv : m .cnts = 0
    case pos => exact .lock hn hn (by simp [hv]) (by simp [hv]) (by simp [Inside]) (by simp [hv, Inside])
    case neg =>
      simp only [if_neg hv]
      exact .stay (by simp) rfl .rfl
  case loadIncr | loadAssert | loadDecr =>
    cases e
    exact .stay .rfl rfl (by simp [Inside])
  case storeIncr | storeDecr =>
    cases e
    exact .stay .rfl (Buffering.pending_push_ne (by decide)) (by simp [Inside])
  case assert =>
    cases e
    exact .stay .rfl rfl (by split <;> simp [Inside])
  case writeUnlock =>
    cases e
    exact .unlock 0 rfl Buffering.pending_push_self (by simp) (by simp [Inside]) (by simp [Inside])
  case done | failed => cases e

theorem exclusive (r : (system B Tid).Reachable s) :
    Machine.Spinlock.Exclusive .cnts (· ≠ 0) Inside s :=
  spinlock.exclusive (by simp [Inside]) r

omit [DecidableEq Tid] in
-- The thread that has the lock does to `cs` what it expects.
theorem change (e : (threadFunc t pc).exec B .flushing m b = some (m', b', pc')) :
    Machine.Resource.Change .cs (fun _ : Tid => Machine.Owns B .cnts Inside) Shows (· = 0) t m b pc m' b'
      pc' := by
  cases pc
  case writeLock =>
    have hn := Op.pending_of_exec_rmw e
    obtain ⟨rfl, rfl, rfl, -⟩ := Op.exec_rmw e
    have ho : ¬Machine.Owns B .cnts Inside .writeLock b' := by simp [Machine.Owns, Inside, hn]
    by_cases hv : m .cnts = 0
    case pos =>
      simp only [if_pos hv]
      exact .acquire ho (.inl (by simp [Inside])) id rfl id
    case neg =>
      simp only [if_neg hv]
      exact .stay ho ho id rfl
  case loadIncr | loadAssert | loadDecr =>
    cases e
    exact .hold (.inl (by simp [Inside])) (.inl (by simp [Inside])) fun h => ⟨h, h⟩
  case storeIncr | storeDecr =>
    cases e
    refine .hold (.inl (by simp [Inside])) (.inl (by simp [Inside])) fun h => ?_
    rw [Buffering.view_push]
    simp [Shows, h.2]
  case assert v =>
    cases e
    exact .hold (.inl (by simp [Inside])) (.inl (by split <;> simp [Inside])) (by simp +contextual [Shows])
  case writeUnlock =>
    cases e
    refine .hold (.inl (by simp [Inside])) (.inr (by simp [Buffering.pending_push_self])) fun h => ?_
    rw [Buffering.view_push]
    exact h
  case done | failed => cases e

abbrev Counted (s : Machine.State B Tid Pc) : Prop :=
  Machine.Resource .cs (fun _ => Machine.Owns B .cnts Inside) Shows (· = 0) s

omit [DecidableEq Tid] in
theorem eq_of_not_inside (h : ¬Inside pc) : pc = .writeLock ∨ pc = .done := by
  by_contra hn
  exact h (not_or.mp hn)

omit [DecidableEq Tid] in
theorem shows_of_not_inside {v : Int} (h : ¬Inside pc) (hv : Shows pc v) : v = 0 := by
  obtain rfl | rfl := eq_of_not_inside h
  all_goals exact hv

-- A lock that is given up in order keeps the counter right, unless there is nobody left to take it.
theorem Counted.drain {x : Loc} {v : Val x} (h : Counted s)
    (hx : Machine.Spinlock.Exclusive .cnts (· ≠ 0) Inside s) (hi : InOrder s (.drain t x))
    (hp : B.pop (s.buf t) x = some (v, b)) :
    Counted ⟨update s.mem x v, update s.buf t b, s.threads⟩ ∨ ∀ u, s.threads u = .done := by
  by_cases hr : Machine.Owns B .cnts Inside (s.threads t) (s.buf t) →
      ¬Machine.Owns B .cnts Inside (s.threads t) b → B.pending b .cs = []
  case pos =>
    refine .inl (Machine.Resource.drain h hx.unique hp (fun ho => ?_) fun ho hn => ⟨hr ho hn, fun w => ?_⟩)
    · exact ho.imp_right fun hb hn => hb (Buffering.pending_pop_eq_nil hp hn)
    · exact shows_of_not_inside (not_or.mp hn).1
  case neg =>
    simp only [Classical.not_imp] at hr
    obtain ⟨ho, hn, hb⟩ := hr
    cases x
    case cs =>
      -- The thread still has the lock.
      have hc := Buffering.pending_pop_ne (y := .cnts) hp (by decide)
      exact absurd (ho.imp_right (hc ▸ ·)) hn
    case cnts =>
      refine .inr fun u => ?_
      have hu : ¬Inside (s.threads u) := by
        by_cases hut : u = t
        case pos => exact hut ▸ (not_or.mp hn).1
        case neg => exact (not_or.mp (hx.not_owns ho u hut)).1
      refine (eq_of_not_inside hu).resolve_left fun hl => ?_
      exact hb (Buffering.pending_pop_eq_nil hp (hi t u rfl hl))

theorem counted_or_done (r : ((system B Tid).restrict InOrder).Reachable s) :
    Counted s ∨ ∀ t, s.threads t = .done := by
  refine r.invariant (S := (system B Tid).restrict InOrder)
    (I := fun s => Counted s ∨ ∀ t, s.threads t = .done) ?init ?step
  case init =>
    intro s hs
    cases hs
    exact .inl ⟨fun _ hp => absurd (B.pending_empty _) hp, by simp [Machine.Owns, Inside, B.pending_empty],
      fun _ => rfl⟩
  case step =>
    intro s l s' r h e
    obtain ⟨hi, e⟩ := e
    have hx := exclusive r.of_restrict
    have hx' := exclusive (r.of_restrict.step e)
    cases e
    case move t _ _ _ e =>
      cases h
      case inl h => exact .inl (h.change hx.unique hx'.unique (change e))
      case inr h =>
        rw [h t] at e
        cases e
    case drain hp =>
      cases h
      case inl h => exact h.drain hx hi hp
      case inr h => exact .inr h

theorem not_failed_of_inOrder (r : ((system B Tid).restrict InOrder).Reachable s) : ¬Failed s := by
  rintro ⟨t, ht⟩
  cases counted_or_done r
  case inl h => exact (ht ▸ h.held t (.inl (by simp [Inside, ht])) : Shows .failed _)
  case inr h => simp [h t] at ht

section Tso

-- Nothing is behind the store that gives up the lock.
structure Last (pc : Pc) (b : List (Buffering.Entry Val)) : Prop where
  before : pc ≠ .done → ∀ e ∈ b, e.1 ≠ .cnts
  last   : b.Pairwise fun e _ => e.1 ≠ .cnts

theorem Last.push {x : Loc} {v : Val x} {b : List (Buffering.Entry Val)} (h : Last pc b) (hn : pc ≠ .done)
    (hx : pc' = .done ∨ x ≠ .cnts) : Last pc' (b ++ [⟨x, v⟩]) where
  before hd e he := by
    obtain he | he := List.mem_append.mp he
    case inl => exact h.before hn e he
    case inr => exact List.mem_singleton.mp he ▸ hx.resolve_left hd
  last := List.pairwise_append.mpr ⟨h.last, List.pairwise_singleton .., fun e he _ _ => h.before hn e he⟩

theorem Last.move {b : List (Buffering.Entry Val)} (h : Last pc b) (hn : pc ≠ .done) : Last pc' b :=
  ⟨fun _ => h.before hn, h.last⟩

theorem last_of_tso {s : Machine.State (.fifo Val) Tid Pc} (r : (system (.fifo Val) Tid).Reachable s)
    (t : Tid) : Last (s.threads t) (s.buf t) := by
  revert t
  refine r.invariant (I := fun s => ∀ t, Last (s.threads t) (s.buf t)) ?init ?step
  case init =>
    intro s hs t
    cases hs
    exact ⟨fun _ _ he => absurd he List.not_mem_nil, .nil⟩
  case step =>
    intro s l s' _ h e
    cases e
    case move t m b pc e =>
      refine Machine.forall_update (Q := fun _ pc (b : (Buffering.fifo Val).Buf) => Last pc b) ?_
        fun u _ => h u
      have ht := h t
      generalize s.threads t = pc₀ at e ht
      cases pc₀
      case writeLock =>
        obtain ⟨rfl, -, rfl, -⟩ := Op.exec_rmw e
        exact ht.move nofun
      case loadIncr | loadAssert | loadDecr | assert => cases e; exact ht.move nofun
      case storeIncr | storeDecr => cases e; exact ht.push nofun (.inr nofun)
      case writeUnlock => cases e; exact ht.push nofun (.inl rfl)
      case done | failed => cases e
    case drain t x v b hp =>
      refine Machine.forall_update_buf (Q := fun _ pc (b : (Buffering.fifo Val).Buf) => Last pc b) ?_
        fun u _ => h u
      have ht := h t
      rw [Buffering.fifo_pop hp] at ht
      exact ⟨fun hn e he => ht.before hn e (List.mem_cons_of_mem _ he), ht.last.of_cons⟩

theorem inOrder_of_tso {s s' : Machine.State (.fifo Val) Tid Pc} (r : (system (.fifo Val) Tid).Reachable s)
    (e : (system (.fifo Val) Tid).Step s l s') : InOrder s l := by
  rintro t u rfl -
  cases e
  case drain b v hp =>
    have hl := (last_of_tso r t).last
    rw [Buffering.fifo_pop hp] at hl ⊢
    obtain _ | ⟨e, b⟩ := b
    case nil => rfl
    case cons => exact absurd rfl ((List.pairwise_cons.mp hl).1 e List.mem_cons_self)

end Tso

-- A thread that has not taken the lock yet has not stored anything.
theorem empty_of_writeLock (r : (system B Tid).Reachable s) (t : Tid) (ht : s.threads t = .writeLock) :
    B.Empty (s.buf t) := by
  revert t
  refine r.invariant (I := fun s => ∀ t, s.threads t = .writeLock → B.Empty (s.buf t)) ?init ?step
  case init =>
    intro s hs t _
    cases hs
    exact Buffering.empty_empty
  case step =>
    intro s l s' _ h e
    cases e
    case move t m b pc e =>
      refine Machine.forall_update (Q := fun _ pc b => pc = Pc.writeLock → B.Empty b) ?_ fun u _ => h u
      have ht := h t
      generalize s.threads t = pc₀ at e ht
      cases pc₀
      case writeLock =>
        obtain ⟨-, -, rfl, -⟩ := Op.exec_rmw e
        exact fun _ => ht rfl
      case assert => cases e; exact fun hl => by split at hl <;> cases hl
      case done | failed => cases e
      all_goals cases e; exact nofun
    case drain t x v b hp =>
      refine Machine.forall_update_buf (Q := fun _ pc b => pc = Pc.writeLock → B.Empty b) ?_ fun u _ => h u
      exact fun hl y => Buffering.pending_pop_eq_nil hp (h t hl y)

-- A thread that finds the lock free takes it and increments what it finds in memory.
theorem leads_storeIncr (hu : s.threads u = .writeLock) (hb : B.Empty (s.buf u)) (hm : s.mem .cnts = 0) :
    (system B Tid).Leads (· = ⟨update s.mem .cnts 0xff,
      update s.buf u (B.push (s.buf u) .cs (s.mem .cs + 1)), update s.threads u .loadAssert⟩) s := by
  have lock : (threadFunc u .writeLock).exec B .flushing s.mem (s.buf u) =
      some (update s.mem .cnts 0xff, s.buf u, .loadIncr) := by
    simp [threadFunc, Op.exec_rmw_of_empty hb, hm]
  have load : (threadFunc u .loadIncr).exec B .flushing (update s.mem .cnts 0xff) (s.buf u) =
      some (update s.mem .cnts 0xff, s.buf u, .storeIncr (s.mem .cs)) := by
    simp [threadFunc, Op.exec, Buffering.view_nil (hb .cs)]
  exact Machine.Solo.leads hu (.move lock (.move load (.move rfl .refl)))

-- Its assertion fails on anything but 1.
theorem leads_failed (hu : s.threads u = .loadAssert) (hv : B.view s.mem (s.buf u) .cs ≠ 1) :
    (system B Tid).Leads Failed s := by
  have assert : (threadFunc u (.assert (B.view s.mem (s.buf u) .cs))).exec B .flushing s.mem (s.buf u) =
      some (s.mem, s.buf u, .failed) := by
    simp [threadFunc, Op.exec, hv]
  exact (Machine.Solo.leads hu (.move rfl (.move assert .refl))).trans fun s' hs => .refl ⟨u, by simp [hs]⟩

-- The store to `cs` that is still buffered ruins the section of the thread that takes the lock next.
theorem leads_failed_of_overtaken {s : Machine.State (.perLocation Val) Tid Pc} (ht : t ≠ u) {v : Int}
    {q : List Int} (hq : (Buffering.perLocation Val).pending (s.buf t) .cs = v :: q)
    (hu : s.threads u = .writeLock) (hb : (Buffering.perLocation Val).Empty (s.buf u))
    (hm : s.mem .cnts = 0) : (system (.perLocation Val) Tid).Leads Failed s := by
  have ⟨b, hp⟩ := Buffering.exists_pop_perLocation hq
  by_cases hv : v = 1
  case pos =>
    -- It finds 1 and makes it 2.
    subst hv
    let s' : Machine.State (.perLocation Val) Tid Pc := ⟨update s.mem .cs 1, update s.buf t b, s.threads⟩
    have h : (system (.perLocation Val) Tid).Leads _ s' :=
      leads_storeIncr (s := s') (u := u) hu (by simpa [s', ht.symm] using hb) (by simpa [s'] using hm)
    refine .step (.drain hp) (h.trans fun s'' hs => ?_)
    subst hs
    refine leads_failed (u := u) (by simp) ?_
    simp [Buffering.view_push, s']
  case neg =>
    -- What it has stored is replaced before it looks at it.
    refine (leads_storeIncr hu hb hm).trans fun s' hs => ?_
    subst hs
    have ⟨b', he, e⟩ := Machine.exists_drain_of_push (D := .flushing) (P := threadFunc) (t := u) (x := .cs)
      (m := update s.mem .cnts 0xff) (f := update s.threads u .loadAssert) (v := s.mem .cs + 1) hb
    have hp' : (Buffering.perLocation Val).pop (update s.buf u b' t) .cs = some (v, b) := by simpa [ht] using hp
    refine .step e (.step (.drain hp') (leads_failed (u := u) (by simp) ?_))
    simpa [ht.symm, Buffering.view_nil (he .cs)] using hv

-- Two of the threads, while the others do nothing.
def pair (t u : Tid) (i : Bool) : Tid :=
  if i then t else u

omit [DecidableEq Tid] in
theorem pair_injective (ht : t ≠ u) : Injective (pair t u) := by
  intro i j h
  cases i <;> cases j <;> simp_all [pair, eq_comm]

omit [DecidableEq Tid] in
theorem renamed_threadFunc (t u : Tid) (i : Bool) (pc : Pc) :
    ((threadFunc : Program Bool Loc Val Pc) i pc).Renamed id (fun _ => id) id (threadFunc (pair t u i) pc) := by
  cases pc <;> constructor <;> simp

def twoThreads (ht : t ≠ u) :
    Machine.Renaming (threadFunc : Program Bool Loc Val Pc) (threadFunc : Program Tid Loc Val Pc) where
  tid := pair t u
  loc := id
  val _ := id
  thread := id
  tid_injective := pair_injective ht
  loc_injective := injective_id
  op := renamed_threadFunc t u

-- The store that gives up the lock overtakes both stores to `cs`, of which the first one drains before the
-- second thread takes the lock.
theorem exists_failed (ht : t ≠ u) :
    ∃ s, (system (.perLocation Val) Tid).Reachable s ∧ s.threads u = .failed := by
  have ⟨s, r, hf⟩ := Machine.exists_reachable_of_schedule (.perLocation Val) .flushing
    (threadFunc : Program Bool Loc Val Pc) start (fun _ => .writeLock)
    (.replicate 8 (.move true) ++ [.drain true .cnts, .drain true .cs] ++ .replicate 5 (.move false))
    (p := fun s => s.threads false = .failed) (by decide +kernel)
  have ⟨s, r, hs⟩ := (twoThreads ht).exists_reachable .flushing start (fun _ => .writeLock) (fun _ => rfl)
    (fun _ => rfl) r
  exact ⟨s, r, (hs false).trans hf⟩

-- The assertion can fail under partial store order, exactly after a step in which the store that gives up the
-- lock overtakes those to `cs` while there is a thread left to take it. Total store order rules this out.
theorem inOrder_exact (Tid : Type) [DecidableEq Tid] :
    (system (.perLocation Val) Tid).Exact InOrder Failed ∧
    (∀ s, (system (.fifo Val) Tid).Reachable s → ¬Failed s) ∧
    ∀ t u : Tid, t ≠ u → ∃ s, (system (.perLocation Val) Tid).Reachable s ∧ s.threads u = .failed := by
  refine ⟨⟨fun ls s r => not_failed_of_inOrder r.reachable, fun s l s' r e hi => ?_⟩, fun s r => ?_,
    fun t u => exists_failed⟩
  · simp only [InOrder, not_forall] at hi
    obtain ⟨t, u, rfl, hu, hq⟩ := hi
    have hb := empty_of_writeLock r u hu
    have ht : t ≠ u := by
      rintro rfl
      exact hq (hb .cs)
    obtain ⟨v, q, hq⟩ := List.exists_cons_of_ne_nil hq
    have hl := (exclusive r).pending t
    cases e
    case drain b w hp =>
      have hw : w = 0 ∧ (Buffering.perLocation Val).pending b .cnts = [] := by
        rw [Buffering.pending_pop_self hp] at hl
        simpa using hl
      have hq' : (Buffering.perLocation Val).pending (update s.buf t b t) .cs = v :: q := by
        simpa [← Buffering.pending_pop_ne hp] using hq
      exact leads_failed_of_overtaken ht hq' hu (by simpa [ht.symm] using hb) (by simpa using hw.1)
  · obtain ⟨_, r⟩ := r
    exact not_failed_of_inOrder (r.restrict fun s l s' r e => inOrder_of_tso r.of_restrict e).reachable

theorem inOrder_exact_two :
    ∃ s, (system (.perLocation Val) Bool).Reachable s ∧ s.threads false = .failed :=
  (inOrder_exact Bool).2.2 true false (by decide)

end Xen.Cbmc

import OrderingBugs.Memory.Solo
import OrderingBugs.Memory.Termination
import OrderingBugs.Memory.Test
import Mathlib.Data.Set.Card

open Function

-- Tests in which every thread stores to a variable of its own, and then looks at the one of its peer.
structure Crossing (Tid Loc V : Type) where
  order  : Order
  own    : Tid → Loc
  peer   : Tid → Tid
  result : Tid → Loc
  fenced : Tid → Bool
  new    : Tid → V
  mem    : Loc → V
  own_injective    : Injective own
  result_injective : Injective result
  distinct : ∀ t u, own t ≠ result u
  peer_ne  : ∀ t, peer t ≠ t
  new_ne   : ∀ t, new t ≠ mem (own t)

namespace Crossing

-- A thread keeps what it has loaded.
inductive Thread (V : Type)
  | store
  | fence
  | load
  | storeResult (v : V)
  | done (v : V)

variable {Tid Loc V : Type} (C : Crossing Tid Loc V)

-- What the variable of the thread that a thread looks at starts with.
def old (t : Tid) : V :=
  C.mem (C.own (C.peer t))

def program : Program Tid Loc (fun _ => V) (Thread V)
  | t, .store => .store C.order (C.own t) (C.new t) (if C.fenced t then .fence else .load)
  | _, .fence => .fence .seqCst .load
  | t, .load => .load C.order (C.own (C.peer t)) .storeResult
  | t, .storeResult v => .store C.order (C.result t) v (.done v)
  | _, .done _ => .halt

-- Not all threads have missed the store of the other one.
def test : Test Tid Loc (fun _ => V) (Thread V) where
  program := C.program
  mem := C.mem
  threads _ := .store
  Failed _ := False
  Post m _ := ∃ t, m (C.result t) ≠ C.old t

-- The threads that have loaded something, and what.
def Thread.Loads (v : V) : Thread V → Prop
  | storeResult w | done w => w = v
  | store | fence | load => False

-- In every group of threads that look at each other there is one without a fence.
def Escapes : Prop :=
  ∀ S : Set Tid, S.Nonempty → (∀ t ∈ S, C.peer t ∈ S) → ∃ t ∈ S, C.fenced t = false

-- The machine delays the stores, except for the fences.
structure Delays (C : Crossing Tid Loc V) (D : Discipline) : Prop where
  buffered   : D.buffered C.order = true
  fenceWaits : D.fenceWaits .seqCst = true

variable {C} [DecidableEq Tid] [DecidableEq Loc] {B : Buffering Loc fun _ => V} {D : Discipline}

abbrev State (B : Buffering Loc fun _ => V) (Tid : Type) :=
  Machine.State B Tid (Thread V)

abbrev Label (Tid Loc V : Type) :=
  Machine.Label Tid Loc (Thread V)

-- What a thread does when it moves. It leaves memory alone.
inductive Change (C : Crossing Tid Loc V) (t : Tid) (m : Mem fun _ : Loc => V) :
    Thread V → B.Buf → Thread V → B.Buf → Prop
  | store {b : B.Buf} :
    Change C t m .store b (if C.fenced t then .fence else .load) (B.push b (C.own t) (C.new t))
  | fence {b : B.Buf} : B.Empty b → Change C t m .fence b .load b
  | load {b : B.Buf} : Change C t m .load b (.storeResult (B.view m b (C.own (C.peer t)))) b
  | storeResult {b : B.Buf} {v : V} :
    Change C t m (.storeResult v) b (.done v) (B.push b (C.result t) v)

omit [DecidableEq Tid] in
theorem change_of_exec (hD : C.Delays D) {t : Tid} {m m' : Mem fun _ : Loc => V} {b b' : B.Buf}
    {k k' : Thread V} (e : (C.program t k).exec B D m b = some (m', b', k')) :
    m' = m ∧ Change C t m k b k' b' := by
  cases k
  case store =>
    obtain ⟨rfl, ⟨rfl, rfl, -⟩ | ⟨-, -, -, hb⟩⟩ := Op.exec_store e
    · exact ⟨rfl, .store⟩
    · simp [hD.buffered] at hb
  case fence =>
    simp only [program, Op.exec] at e
    split at e <;> cases e
    case _ he => exact ⟨rfl, .fence (he hD.fenceWaits)⟩
  case load => cases e; exact ⟨rfl, .load⟩
  case storeResult =>
    obtain ⟨rfl, ⟨rfl, rfl, -⟩ | ⟨-, -, -, hb⟩⟩ := Op.exec_store e
    · exact ⟨rfl, .storeResult⟩
    · simp [hD.buffered] at hb
  case done => cases e

-- A thread stores to its own variables only, and reads there what it has stored.
structure Valid (C : Crossing Tid Loc V) (m : Mem fun _ : Loc => V) (t : Tid) (k : Thread V) (b : B.Buf) :
    Prop where
  owner  : ∀ x, B.pending b x ≠ [] → x = C.own t ∨ x = C.result t
  stored : k ≠ .store → B.view m b (C.own t) = C.new t
  result : ∀ v, k = .done v → B.view m b (C.result t) = v

variable {s s' : State B Tid} {l : Label Tid Loc V} {t u : Tid} {S : Set Tid} {m : Mem fun _ : Loc => V}
variable {b b' : B.Buf} {k k' : Thread V}

namespace Valid

omit [DecidableEq Tid] in
theorem change (h : Valid C m t k b) (hc : Change C t m k b k' b') : Valid C m t k' b' := by
  cases hc
  case store =>
    refine ⟨fun x hx => ?_, fun _ => by simp [Buffering.view_push], fun v hv => by split at hv <;> cases hv⟩
    by_cases hxo : x = C.own t
    case pos => exact .inl hxo
    case neg => exact h.owner x (by rwa [Buffering.pending_push_ne hxo] at hx)
  case fence | load => exact ⟨h.owner, fun _ => h.stored nofun, nofun⟩
  case storeResult v =>
    refine ⟨fun x hx => ?_, fun _ => ?_, fun w hw => by cases hw; simp [Buffering.view_push]⟩
    · by_cases hxo : x = C.result t
      case pos => exact .inr hxo
      case neg => exact h.owner x (by rwa [Buffering.pending_push_ne hxo] at hx)
    · rw [Buffering.view_push, update_of_ne (C.distinct t t)]
      exact h.stored nofun

omit [DecidableEq Tid] in
theorem pop {x : Loc} {v : V} (h : Valid C m t k b) (hp : B.pop b x = some (v, b')) :
    Valid C (update m x v) t k b' where
  owner y hy := h.owner y (mt (Buffering.pending_pop_eq_nil hp) hy)
  stored hk := (Buffering.view_pop hp).trans (h.stored hk)
  result w hw := (Buffering.view_pop hp).trans (h.result w hw)

omit [DecidableEq Tid] in
-- The stores of other threads are to other variables.
theorem other {x : Loc} {v : V} (h : Valid C m t k b) (hu : t ≠ u) (hx : x = C.own u ∨ x = C.result u) :
    Valid C (update m x v) t k b := by
  have ho : C.own t ≠ x := by
    rintro rfl
    exact hx.elim (hu <| C.own_injective ·) (C.distinct _ _)
  have hr : C.result t ≠ x := by
    rintro rfl
    exact hx.elim (C.distinct _ _ ·.symm) (hu <| C.result_injective ·)
  exact ⟨h.owner, fun hk => (Buffering.view_update_ne ho).trans (h.stored hk),
    fun w hw => (Buffering.view_update_ne hr).trans (h.result w hw)⟩

theorem of_reachable (hD : C.Delays D) (r : (C.test.machine B D).Reachable s) (t : Tid) :
    Valid C s.mem t (s.threads t) (s.buf t) := by
  revert t
  refine r.invariant (I := fun s => ∀ t, Valid C s.mem t (s.threads t) (s.buf t)) ?init ?step
  case init =>
    intro s hs t
    cases hs
    exact ⟨fun x hx => absurd (B.pending_empty x) hx, absurd rfl, nofun⟩
  case step =>
    intro s l s' _ h e
    cases e
    case move t _ _ _ e =>
      obtain ⟨rfl, hc⟩ := change_of_exec hD e
      exact Machine.forall_update (Q := Valid C _) ((h t).change hc) fun u _ => h u
    case drain t x v b hp =>
      have hx : x = C.own t ∨ x = C.result t := (h t).owner x (by simp [Buffering.pending_pop_self hp])
      exact Machine.forall_update_buf (Q := Valid C _) ((h t).pop hp) fun u hu => (h u).other hu hx

end Valid

omit [DecidableEq Tid] [DecidableEq Loc] in
theorem exists_loads_of_halt (h : C.program t k = .halt) : ∃ v, k = .done v ∧ k.Loads v := by
  cases k
  case done v => exact ⟨v, rfl, rfl⟩
  all_goals cases h

-- A fence waits for the store.
theorem empty_of_fenced (hD : C.Delays D) (r : (C.test.machine B D).Reachable s) (t : Tid)
    (hf : C.fenced t = true) (ht : s.threads t = .load) : B.Empty (s.buf t) := by
  revert t
  refine r.invariant (I := fun s => ∀ t, C.fenced t = true → s.threads t = .load → B.Empty (s.buf t))
    ?init ?step
  case init =>
    intro s hs t _ ht
    cases hs
    cases ht
  case step =>
    intro s l s' _ h e
    cases e
    case move t _ b k e =>
      refine Machine.forall_update (Q := fun t k b => C.fenced t = true → k = Thread.load → B.Empty b) ?_
        fun u _ => h u
      rintro hf rfl
      obtain ⟨-, hc⟩ := change_of_exec hD e
      generalize s.threads t = k₀, s.buf t = b₀, hl : Thread.load = k at hc
      cases hc
      case store => simp [hf] at hl
      case fence he => exact he
      all_goals cases hl
    case drain t x v b hp =>
      refine Machine.forall_update_buf (Q := fun t k b => C.fenced t = true → k = Thread.load → B.Empty b) ?_
        fun u _ => h u
      exact fun hf ht y => Buffering.pending_pop_eq_nil hp (h t hf ht y)

section Safe

-- The threads of a group load nothing before their own store has reached memory.
def Late (C : Crossing Tid Loc V) (S : Set Tid) (s : State B Tid) (l : Label Tid Loc V) : Prop :=
  ∀ t ∈ S, ∀ k, l = .move t .load k → B.pending (s.buf t) (C.own t) = []

-- Whoever has loaded last in a group has seen a store, or its peer has not loaded anything yet.
structure Latest (C : Crossing Tid Loc V) (S : Set Tid) (s : State B Tid) : Prop where
  drained : ∀ t ∈ S, ∀ v, (s.threads t).Loads v → B.pending (s.buf t) (C.own t) = []
  latest  : ∀ t ∈ S, ∀ v, (s.threads t).Loads v → ∃ u ∈ S, ∃ v, (s.threads u).Loads v ∧
    (v ≠ C.old u ∨ ∀ w, ¬(s.threads (C.peer u)).Loads w)

omit [DecidableEq Tid] in
theorem Change.loads_iff (h : Change C t m k b k' b') (hk : k ≠ .load) (v : V) : k'.Loads v ↔ k.Loads v := by
  cases h
  case store => split <;> rfl
  case load => exact absurd rfl hk
  all_goals rfl

omit [DecidableEq Tid] in
theorem Change.pending_eq_nil (h : Change C t m k b k' b') {v : V} (hv : k.Loads v)
    (hb : B.pending b (C.own t) = []) : B.pending b' (C.own t) = [] := by
  cases h
  case storeResult => rwa [Buffering.pending_push_ne (C.distinct t t)]
  all_goals cases hv

variable (hc : ∀ t ∈ S, C.peer t ∈ S)

include hc

omit [DecidableEq Tid] in
-- What a thread loads from a peer that has loaded already is not what was there at the start.
theorem Latest.load (h : Latest C S s) (hs : ∀ t, Valid C s.mem t (s.threads t) (s.buf t)) (ht : t ∈ S) {w : V}
    (hw : (s.threads (C.peer t)).Loads w) : B.view s.mem (s.buf t) (C.own (C.peer t)) ≠ C.old t := by
  have hd := h.drained (C.peer t) (hc t ht) w hw
  have hn : B.pending (s.buf t) (C.own (C.peer t)) = [] := by
    by_contra hn
    obtain h | h := (hs t).owner _ hn
    · exact C.peer_ne t (C.own_injective h)
    · exact C.distinct _ _ h
  have hm := (hs (C.peer t)).stored fun h => by simp [h, Thread.Loads] at hw
  rw [Buffering.view_nil hd] at hm
  rw [Buffering.view_nil hn, hm]
  exact C.new_ne _

theorem Latest.step (hD : C.Delays D) (h : Latest C S s) (hs : ∀ t, Valid C s.mem t (s.threads t) (s.buf t))
    (hl : Late C S s l) (e : (C.test.machine B D).Step s l s') : Latest C S s' := by
  cases e
  case drain t x v b hp =>
    refine ⟨fun u hu w hw => ?_, h.latest⟩
    have hd := h.drained u hu w hw
    by_cases hut : u = t
    case pos => subst hut; simpa using Buffering.pending_pop_eq_nil hp hd
    case neg => simpa [hut] using hd
  case move t _ b k e =>
    obtain ⟨rfl, hch⟩ := change_of_exec hD e
    by_cases hk : s.threads t = .load ∧ t ∈ S
    case pos =>
      obtain ⟨hk, ht⟩ := hk
      have hb := hl t ht k (hk ▸ rfl)
      have hv (w) := h.load hc hs ht (w := w)
      have hp : update s.threads t k (C.peer t) = s.threads (C.peer t) := update_of_ne (C.peer_ne t) ..
      rw [hk] at hch
      cases hch
      let v := B.view s.mem (s.buf t) (C.own (C.peer t))
      refine ⟨fun u hu w hw => ?_, fun _ _ _ _ => ⟨t, ht, v, by simp [Thread.Loads, v], ?_⟩⟩
      · by_cases hut : u = t
        case pos => subst hut; simpa using hb
        case neg => simpa [hut] using h.drained u hu w (by simpa [hut] using hw)
      · dsimp only
        rw [hp]
        exact or_iff_not_imp_right.mpr fun h => have ⟨w, hw⟩ := not_forall_not.mp h; hv w hw
    case neg =>
      have hi (u) (hu : u ∈ S) (v) : (update s.threads t k u).Loads v ↔ (s.threads u).Loads v := by
        by_cases hut : u = t
        case pos =>
          subst hut
          rw [update_self]
          exact hch.loads_iff (fun h => hk ⟨h, hu⟩) v
        case neg => rw [update_of_ne hut]
      refine ⟨fun u hu w hw => ?_, fun u hu w hw => ?_⟩
      · have hv := (hi u hu w).mp hw
        have hd := h.drained u hu w hv
        by_cases hut : u = t
        case pos => subst hut; simpa using hch.pending_eq_nil hv hd
        case neg => simpa [hut] using hd
      · obtain ⟨u, hu, v, hv, ho⟩ := h.latest u hu w ((hi u hu w).mp hw)
        refine ⟨u, hu, v, (hi u hu v).mpr hv, ho.imp_right fun ho w hw => ho w ?_⟩
        exact (hi _ (hc u hu) w).mp hw

theorem not_fails_of_late (hD : C.Delays D) (hS : S.Nonempty)
    (r : ((C.test.machine B D).restrict (Late C S)).Reachable s) : ¬C.test.Fails s := by
  have hl : Latest C S s := by
    refine r.invariant (S := (C.test.machine B D).restrict (Late C S)) (I := Latest C S) ?init ?step
    case init =>
      intro s hs
      cases hs
      exact ⟨fun _ _ _ hv => hv.elim, fun _ _ _ hv => hv.elim⟩
    case step =>
      intro s l s' r h e
      exact h.step hc hD (Valid.of_reachable hD r.of_restrict) e.1 e.2
  rintro (⟨_, hf⟩ | ⟨hh, hf, hp⟩)
  · exact hf
  · obtain ⟨t, ht⟩ := hS
    obtain ⟨v, -, hv⟩ := exists_loads_of_halt (hh t)
    obtain ⟨u, -, w, hw, ho⟩ := hl.latest t ht v hv
    obtain ⟨w', hd, -⟩ := exists_loads_of_halt (hh u)
    obtain rfl : w' = w := by simpa [hd, Thread.Loads] using hw
    have hr := (Valid.of_reachable hD r.of_restrict u).result w' hd
    rw [Buffering.view_nil (hf u _)] at hr
    obtain ho | ho := ho
    · exact hp ⟨u, hr ▸ ho⟩
    · obtain ⟨w, -, hw⟩ := exists_loads_of_halt (hh (C.peer u))
      exact ho w hw

-- With a fence in every thread of a group, at least one of them sees a store.
theorem not_violates_of_fenced (hD : C.Delays D) (hS : S.Nonempty) (hf : ∀ t ∈ S, C.fenced t = true) :
    ¬C.test.Violates B D := by
  rintro ⟨s, ⟨ls, r⟩, h⟩
  refine not_fails_of_late hc hD hS (r.restrict fun s l s' r e => ?_).reachable h
  rintro t ht k rfl
  generalize hk : Thread.load = k' at e
  cases e
  exact empty_of_fenced hD r.of_restrict t (hf t ht) hk.symm (C.own t)

end Safe

-- So it does without reordering.
theorem not_interleavingViolates [Nonempty Tid] : ¬C.test.InterleavingViolates := by
  -- What is delayed does not matter.
  let D : Discipline := ⟨fun _ => true, fun _ => true, fun _ => true⟩
  have hD : C.Delays D := ⟨rfl, rfl⟩
  rw [← Test.orderedViolates_iff (D := D)]
  rintro ⟨s, r, h⟩
  have hl : ((C.test.machine (.fifo _) D).restrict (Late C Set.univ)).Reachable s := by
    obtain ⟨ls, r⟩ := r
    refine ⟨ls, r.mono (S := C.test.ordered (.fifo _) D) (fun _ => id) fun s l s' _ e => ⟨?_, e.2⟩⟩
    rintro t - k rfl
    exact e.1.pending_eq_nil rfl (C.own_injective.ne (C.peer_ne t).symm)
  exact not_fails_of_late (fun _ _ => Set.mem_univ _) hD Set.univ_nonempty hl h

section Reach

-- All threads have loaded what was there at the start, or have not started yet and still find it there.
structure Missing (C : Crossing Tid Loc V) (s : State (.fifo fun _ : Loc => V) Tid) : Prop where
  missed : ∀ t, (s.threads t = .store ∧ s.buf t = ([] : List (Buffering.Entry fun _ : Loc => V))) ∨
    s.threads t = .done (C.old t)
  fresh  : ∀ t, s.threads t = .store → s.mem (C.own (C.peer t)) = C.old t

omit [DecidableEq Tid] [DecidableEq Loc] in
-- Of the threads that have not started yet, one can be next without spoiling the load of another one.
theorem Escapes.exists_next [Finite Tid] (h : C.Escapes) (hS : S.Nonempty) :
    ∃ t ∈ S, C.fenced t = false ∨ ∀ u ∈ S, C.peer u ≠ t := by
  by_contra hn
  simp only [not_exists, not_and, not_or, Bool.not_eq_false, not_forall, not_not] at hn
  have hs : S ⊆ C.peer '' S := fun t ht => have ⟨u, hu, h⟩ := (hn t ht).2; ⟨u, hu, h⟩
  have he : S = C.peer '' S := Set.eq_of_subset_of_ncard_le hs (Set.ncard_image_le S.toFinite)
  obtain ⟨t, ht, hf⟩ := h S hS fun t ht => he ▸ Set.mem_image_of_mem _ ht
  exact absurd (hn t ht).1 (by simp [hf])

variable (hD : C.Delays D)

include hD

omit [DecidableEq Tid] in
theorem exec_store (m : Mem fun _ : Loc => V) :
    (C.program t .store).exec (.fifo fun _ => V) D m ([] : List (Buffering.Entry fun _ : Loc => V)) =
      some (m, [⟨C.own t, C.new t⟩], if C.fenced t then .fence else .load) := by
  simp only [program, Op.exec, hD.buffered, if_true]
  rfl

omit [DecidableEq Tid] in
theorem exec_storeResult (m : Mem fun _ : Loc => V) (b : List (Buffering.Entry fun _ : Loc => V)) (v : V) :
    (C.program t (.storeResult v)).exec (.fifo fun _ => V) D m b = some (m, b ++ [⟨C.result t, v⟩], .done v) := by
  simp only [program, Op.exec, hD.buffered, if_true]
  rfl

omit [DecidableEq Tid] in
-- A thread without a fence can keep its store back.
theorem solo_of_unfenced (hf : C.fenced t = false) (hm : m (C.own (C.peer t)) = C.old t) :
    Machine.Solo (.fifo fun _ => V) D C.program t m ([] : List (Buffering.Entry fun _ : Loc => V)) .store
      m [⟨C.own t, C.new t⟩, ⟨C.result t, C.old t⟩] (.done (C.old t)) := by
  have load : (C.program t .load).exec (.fifo fun _ => V) D m [⟨C.own t, C.new t⟩] =
      some (m, [⟨C.own t, C.new t⟩], .storeResult (C.old t)) := by
    have hn : C.own t ≠ C.own (C.peer t) := C.own_injective.ne (C.peer_ne t).symm
    simp [program, Op.exec, Buffering.view, Buffering.fifo, hn, hm]
  have store := exec_store (t := t) hD m
  rw [hf] at store
  exact .move store (.move load (.move (exec_storeResult hD ..) .refl))

omit [DecidableEq Tid] in
theorem solo_of_fenced (hf : C.fenced t = true) (hm : m (C.own (C.peer t)) = C.old t) :
    Machine.Solo (.fifo fun _ => V) D C.program t m ([] : List (Buffering.Entry fun _ : Loc => V)) .store
      (update m (C.own t) (C.new t)) [⟨C.result t, C.old t⟩] (.done (C.old t)) := by
  have drain : (Buffering.fifo fun _ : Loc => V).pop [⟨C.own t, C.new t⟩] (C.own t) =
      some (C.new t, ([] : List (Buffering.Entry fun _ : Loc => V))) := by
    simp [Buffering.fifo]
  have fence : (C.program t .fence).exec (.fifo fun _ => V) D (update m (C.own t) (C.new t))
      ([] : List (Buffering.Entry fun _ : Loc => V)) = some (update m (C.own t) (C.new t), [], .load) :=
    Op.exec_fence_of_empty (Buffering.fifo_empty_iff.mpr rfl) ..
  have load : (C.program t .load).exec (.fifo fun _ => V) D (update m (C.own t) (C.new t))
      ([] : List (Buffering.Entry fun _ : Loc => V)) =
      some (update m (C.own t) (C.new t), [], .storeResult (C.old t)) := by
    have hn : C.own (C.peer t) ≠ C.own t := C.own_injective.ne (C.peer_ne t)
    simp [program, Op.exec, Buffering.view, Buffering.fifo, hn, hm]
  have store := exec_store (t := t) hD m
  rw [hf] at store
  exact .move store (.drain drain (.move fence (.move load (.move (exec_storeResult hD ..) .refl))))

def Thread.rank : Thread V → Nat
  | store => 1
  | fence | load | storeResult _ | done _ => 0

-- The next thread goes on until it is done.
theorem Missing.leads_next {s : State (.fifo fun _ : Loc => V) Tid} (h : Missing C s) (ht : s.threads t = .store)
    (hn : C.fenced t = false ∨ ∀ u, s.threads u = .store → C.peer u ≠ t) :
    (C.test.machine (.fifo _) D).Leads
      (fun s' => Missing C s' ∧ s'.threads = update s.threads t (.done (C.old t))) s := by
  have hb : s.buf t = ([] : List (Buffering.Entry fun _ : Loc => V)) :=
    (h.missed t).elim And.right fun hd => by simp [ht] at hd
  have next (m' : Mem fun _ : Loc => V) (b' : (Buffering.fifo fun _ : Loc => V).Buf)
      (hs : Machine.Solo (.fifo fun _ => V) D C.program t s.mem (s.buf t) .store m' b' (.done (C.old t)))
      (hm : ∀ u, s.threads u = .store → u ≠ t → m' (C.own (C.peer u)) = s.mem (C.own (C.peer u))) :
      (C.test.machine (.fifo _) D).Leads
        (fun s' => Missing C s' ∧ s'.threads = update s.threads t (.done (C.old t))) s := by
    refine (Machine.Solo.leads ht hs).trans fun s' hs' => .refl ?_
    subst hs'
    refine ⟨⟨fun u => ?_, fun u hu => ?_⟩, rfl⟩
    · by_cases hut : u = t
      case pos => subst hut; simp
      case neg =>
        dsimp only
        rw [update_of_ne hut, update_of_ne hut]
        exact h.missed u
    · have hut : u ≠ t := by
        rintro rfl
        simp at hu
      simp only [update_of_ne hut] at hu
      exact (hm u hu hut).trans (h.fresh u hu)
  cases hf : C.fenced t
  case false => exact next _ _ (hb ▸ solo_of_unfenced hD hf (h.fresh t ht)) fun _ _ _ => rfl
  case true =>
    refine next _ _ (hb ▸ solo_of_fenced hD hf (h.fresh t ht)) fun u hu _ => update_of_ne ?_ ..
    exact C.own_injective.ne (hn.resolve_left (by simp [hf]) u hu)

theorem Missing.leads_done [Fintype Tid] (hC : C.Escapes) {s : State (.fifo fun _ : Loc => V) Tid}
    (h : Missing C s) :
    (C.test.machine (.fifo _) D).Leads (fun s => ∀ t, s.threads t = .done (C.old t)) s := by
  induction hr : ∑ t, (s.threads t).rank using Nat.strongRecOn generalizing s
  case ind n hi =>
    by_cases hs : ∃ t, s.threads t = .store
    case neg =>
      refine .refl fun t => (h.missed t).resolve_left fun ht => hs ⟨t, ht.1⟩
    case pos =>
      obtain ⟨t, ht, hn⟩ := hC.exists_next (S := { t | s.threads t = .store }) hs
      refine (h.leads_next hD ht hn).trans fun s' h' => hi _ ?_ h'.1 rfl
      rw [← hr, h'.2]
      refine Interleaving.sum_update_lt ?_
      rw [show s.threads t = .store from ht]
      exact Nat.one_pos

theorem violates_of_escapes [Fintype Tid] (hC : C.Escapes) : C.test.Violates (.fifo _) D := by
  let s : State (.fifo fun _ : Loc => V) Tid := ⟨C.mem, fun _ => (Buffering.fifo _).empty, fun _ => .store⟩
  have r : (C.test.machine (.fifo _) D).Reachable s := .init rfl
  have h : Missing C s := ⟨fun _ => .inl ⟨rfl, rfl⟩, fun _ _ => rfl⟩
  have hl : (C.test.machine (.fifo _) D).Leads
      (fun s => s.Flushed ∧ ∀ t, s.threads t = .done (C.old t)) s :=
    (h.leads_done hD hC).trans fun s' hd =>
      (Machine.leads_flushed s').trans fun s'' hs => .refl ⟨hs.1, fun t => hs.2 ▸ hd t⟩
  obtain ⟨s', r', hf, hd⟩ := hl.exists_reachable r
  refine ⟨s', r', .inr ⟨fun t => by rw [hd]; rfl, hf, ?_⟩⟩
  rintro ⟨t, ht⟩
  have hr := (Valid.of_reachable hD r' t).result _ (hd t)
  rw [Buffering.view_nil (hf t _)] at hr
  exact ht hr

end Reach

theorem escapes_of_violates (hD : C.Delays D) (h : C.test.Violates B D) : C.Escapes := by
  intro S hS hc
  by_contra hn
  simp only [not_exists, not_and, Bool.not_eq_false] at hn
  exact not_violates_of_fenced hc hD hS hn h

-- All threads can miss the store of their peer exactly if there is no group of threads that look at each other
-- and all have a fence.
theorem violates_fifo_iff [Fintype Tid] (hD : C.Delays D) : C.test.Violates (.fifo _) D ↔ C.Escapes :=
  ⟨escapes_of_violates hD, violates_of_escapes hD⟩

-- A weaker machine makes no difference.
theorem violates_perLocation_iff [Fintype Tid] [Fintype Loc] (hD : C.Delays D) :
    C.test.Violates (.perLocation _) D ↔ C.Escapes :=
  ⟨escapes_of_violates hD, fun h => (violates_of_escapes hD h).perLocation⟩

end Crossing

import OrderingBugs.Dpdk.Tso
import Mathlib.Algebra.BigOperators.Ring.Finset

open Function

namespace Dpdk

open Mcs

-- A critical section that increments a counter.
def increment : List Access :=
  [.load, .store (· + 1)]

variable {Tid : Type} [DecidableEq Tid] {mem₀ : Mem (Val Tid Int Int)}

-- The thread has executed the store of the counter in its round.
def Stored (l : State Tid) : Prop :=
  match l.pc with
  | .critical [] _ | .unlock _ => True
  | _ => False

-- The increments that a thread has executed.
def count (l : State Tid) : Nat :=
  match l.pc with
  | .critical [] _ | .unlock _ => l.rounds + 1
  | _ => l.rounds

-- The values of the counter that a buffer holds.
abbrev pendingData (b : (Buffering.fifo (Val Tid Int Int)).Buf) : List Int :=
  (Buffering.fifo (Val Tid Int Int)).pending b .data

-- A buffer holds a store to the counter as its oldest entry only.
def InFront (b : List (Buffering.Entry (Val Tid Int Int))) : Prop :=
  ∀ v, ⟨.data, v⟩ ∉ b.tail

variable {s : TsoState Tid} {t u : Tid} {m : Mem (Val Tid Int Int)} {l : State Tid}
variable {b b' : (Buffering.fifo (Val Tid Int Int)).Buf} {x : Loc Tid} {v : Val Tid Int Int x}

theorem InFront.push (h : InFront b) (hx : x ≠ .data) : InFront ((Buffering.fifo _).push b x v) := by
  intro w hw
  change List (Buffering.Entry (Val Tid Int Int)) at b
  cases b
  case nil => cases hw
  case cons e b =>
    rcases List.mem_append.mp hw with hw | hw
    · exact h w hw
    · simp at hw
      exact hx hw.1.symm

theorem pendingData_push (hx : x ≠ .data) :
    pendingData ((Buffering.fifo _).push b x v) = pendingData b :=
  Buffering.pending_push_ne hx.symm

omit [DecidableEq Tid] in
theorem InFront.of_not_mem {b : List (Buffering.Entry (Val Tid Int Int))}
    (h : ∀ v, ⟨.data, v⟩ ∉ b) : InFront b :=
  fun v hv => h v (List.mem_of_mem_tail hv)

theorem not_mem_of_pendingData {b : List (Buffering.Entry (Val Tid Int Int))}
    (h : pendingData b = []) (v : Int) : ⟨.data, v⟩ ∉ b := by
  intro hv
  have := List.filterMap_eq_nil_iff.mp h _ hv
  simp at this

-- After the oldest entry, no store to the counter is left.
theorem InFront.pop (h : InFront b) (hp : (Buffering.fifo _).pop b x = some (v, b')) :
    pendingData b' = [] ∧ (x = .data ∨ pendingData b = []) := by
  have hb := Buffering.fifo_pop hp
  have hn : pendingData b' = [] := by
    refine List.filterMap_eq_nil_iff.mpr fun ⟨y, w⟩ he => ?_
    have hy : y ≠ .data := by
      rintro rfl
      exact h w (by rwa [hb])
    exact Buffering.Entry.at?_ne hy
  refine ⟨hn, ?_⟩
  by_cases hx : x = .data
  case pos => exact .inl hx
  case neg => exact .inr ((Buffering.pending_pop_ne hp (Ne.symm hx)).trans hn)

variable [Fintype Tid]

-- The value of the counter that the executed increments amount to.
def total (mem₀ : Mem (Val Tid Int Int)) (threads : Tid → State Tid) : Int :=
  mem₀ .data + ∑ t, (count (threads t) : Int)

theorem total_update_of_eq {f : Tid → State Tid} (h : count l = count (f t)) :
    total mem₀ (update f t l) = total mem₀ f := by
  have hf : (fun u => count (update f t l u)) = fun u => count (f u) := by
    ext1 u
    by_cases hu : u = t
    case pos => subst hu; simpa using h
    case neg => simp [hu]
  simp only [total, congrFun hf]

theorem total_update_of_succ {f : Tid → State Tid} (h : count l = count (f t) + 1) :
    total mem₀ (update f t l) = total mem₀ f + 1 := by
  have hf (u : Tid) :
      (count (update f t l u) : Int) = count (f u) + if u = t then 1 else 0 := by
    by_cases hu : u = t
    case pos => subst hu; simp [h]
    case neg => simp [hu]
  simp [total, hf, Finset.sum_add_distrib, add_assoc]

-- No increment is lost: the counter is up to date in memory or in the buffer of the one thread that has
-- stored it, and so is the register of a thread that is about to store it.
structure Counted (mem₀ : Mem (Val Tid Int Int)) (s : TsoState Tid) : Prop where
  front    : ∀ t, InFront (s.buf t)
  owner    : ∀ t, pendingData (s.buf t) ≠ [] →
    HasLock stage t (s.threads t) (s.buf t) ∧ (InQueue (s.threads t) → Stored (s.threads t))
  buffered : ∀ t v, v ∈ pendingData (s.buf t) → v = total mem₀ s.threads
  memory   : (∀ t, pendingData (s.buf t) = []) → s.mem .data = total mem₀ s.threads
  register : ∀ t f r, (s.threads t).pc = .critical [.store f] r → r = total mem₀ s.threads
  body     : ∀ t as r, (s.threads t).pc = .critical as r → as <:+ increment

namespace Counted

theorem eq_of_pending (h : Counted mem₀ s) (hv : Valid stage s) (ht : pendingData (s.buf t) ≠ [])
    (hu : HasLock stage u (s.threads u) (s.buf u)) : t = u :=
  hv.owner_unique (h.owner t ht).1 hu

theorem drain (h : Counted mem₀ s)
    (hp : (Buffering.fifo _).pop (s.buf t) x = some (v, b)) :
    Counted mem₀ { s with mem := update s.mem x v, buf := update s.buf t b } := by
  have ⟨hb, hx⟩ := (h.front t).pop hp
  have hpd (u : Tid) : pendingData (update s.buf t b u) ≠ [] →
      u ≠ t ∧ pendingData (s.buf u) ≠ [] := by
    by_cases hu : u = t
    case pos => subst hu; simp [hb]
    case neg => simp [hu]
  refine ⟨(forall_update_iff s.buf fun _ b => InFront b).mpr
    ⟨InFront.of_not_mem (not_mem_of_pendingData hb), fun u _ => h.front u⟩, fun u hn => ?owner,
    fun u w hw => ?buffered, fun hn => ?memory, h.register, h.body⟩
  case owner =>
    have ⟨hu, hn⟩ := hpd u hn
    simpa [hu] using h.owner u hn
  case buffered =>
    have ⟨hu, _⟩ := hpd u (List.ne_nil_of_mem hw)
    exact h.buffered u w (by simpa [hu] using hw)
  case memory =>
    by_cases hx' : x = .data
    case pos =>
      subst hx'
      have hv : v ∈ pendingData (s.buf t) := by simp [pendingData, Buffering.pending_pop_self hp]
      simpa using h.buffered t v hv
    case neg =>
      suffices ∀ u, pendingData (s.buf u) = [] by simpa [Ne.symm hx'] using h.memory this
      intro u
      by_cases hu : u = t
      case pos => exact hu ▸ hx.resolve_left hx'
      case neg => simpa [hu] using hn u

theorem quiet (h : Counted mem₀ s) (hm : m .data = s.mem .data)
    (hp : pendingData b = pendingData (s.buf t)) (hf : InFront b)
    (hc : count l = count (s.threads t))
    (ho : pendingData b ≠ [] → HasLock stage t l b ∧ (InQueue l → Stored l))
    (hr : ∀ f r, l.pc = .critical [.store f] r → r = total mem₀ s.threads)
    (hs : ∀ as r, l.pc = .critical as r → as <:+ increment) :
    Counted mem₀ ⟨m, update s.buf t b, update s.threads t l⟩ := by
  have hpd (u : Tid) : pendingData (update s.buf t b u) = pendingData (s.buf u) := by
    by_cases hu : u = t
    case pos => subst hu; simpa using hp
    case neg => simp [hu]
  constructor
  case front => exact (forall_update_iff s.buf fun _ b => InFront b).mpr ⟨hf, fun u _ => h.front u⟩
  case owner =>
    exact Machine.forall_update (Q := fun u l b => pendingData b ≠ [] → HasLock stage u l b ∧
      (InQueue l → Stored l)) ho fun u _ => h.owner u
  case buffered =>
    intro u w hw
    rw [total_update_of_eq hc]
    exact h.buffered u w (hpd u ▸ hw)
  case memory =>
    intro hn
    rw [total_update_of_eq hc]
    exact hm.trans (h.memory fun u => hpd u ▸ hn u)
  case register =>
    rw [total_update_of_eq hc]
    exact (forall_update_iff s.threads fun _ l => ∀ f r, l.pc = .critical [.store f] r →
      r = total mem₀ s.threads).mpr ⟨hr, fun u _ => h.register u⟩
  case body =>
    exact (forall_update_iff s.threads fun _ l => ∀ as r, l.pc = .critical as r →
      as <:+ increment).mpr ⟨hs, fun u _ => h.body u⟩

theorem pending_eq_nil (h : Counted mem₀ s) (hi : InQueue (s.threads t))
    (hs : ¬Stored (s.threads t)) : pendingData (s.buf t) = [] := by
  by_contra hn
  exact hs ((h.owner t hn).2 hi)

-- While the thread in the critical section has not stored the counter, it is in memory.
theorem all_pending_eq_nil (h : Counted mem₀ s) (hv : Valid stage s)
    (hσ : stage (s.threads t) = .holding) (hs : ¬Stored (s.threads t)) (u : Tid) :
    pendingData (s.buf u) = [] := by
  by_contra hn
  have hu := h.eq_of_pending hv hn (.inl (by rw [hσ]; trivial))
  subst hu
  exact hn (h.pending_eq_nil (inQueue_iff.mpr (by rw [hσ]; trivial)) hs)

theorem store (h : Counted mem₀ s) (hv : Valid stage s) (hd : Settled stage s) {f : Int → Int}
    {r : Int} {n : Nat} {as : List Access} (ht : s.threads t = ⟨.critical (.store f :: as) r, n⟩) :
    Counted mem₀ ⟨s.mem, update s.buf t ((Buffering.fifo _).push (s.buf t) .data (f r)),
      update s.threads t ⟨.critical as r, n⟩⟩ := by
  obtain ⟨rfl, rfl⟩ : f = (· + 1) ∧ as = [] := by
    simpa [increment, List.suffix_cons_iff] using h.body t _ r (congrArg Thread.pc ht)
  have hσ : stage (s.threads t) = .holding := by rw [ht]; rfl
  have hs : ¬Stored (s.threads t) := by rw [ht]; exact id
  have hn := h.all_pending_eq_nil hv hσ hs
  have hb := Buffering.fifo_empty_iff.mp (hd.empty hv hσ (hn t))
  have hr := h.register t _ r (congrArg Thread.pc ht)
  have hN : total mem₀ (update s.threads t ⟨.critical [] r, n⟩) = total mem₀ s.threads + 1 :=
    total_update_of_succ (by simp [count, ht])
  have hp : pendingData ((Buffering.fifo _).push (s.buf t) .data (r + 1)) = [r + 1] := by
    simp [Buffering.pending_push_self, hn t]
  have hpd (u : Tid) (hu : u ≠ t) : pendingData (update s.buf t
      ((Buffering.fifo _).push (s.buf t) .data (r + 1)) u) = [] := by
    simpa [hu] using hn u
  constructor
  case front =>
    refine (forall_update_iff s.buf fun _ b => InFront b).mpr ⟨?_, fun u _ => h.front u⟩
    simp [hb, Buffering.fifo, InFront]
  case owner =>
    intro u hu
    obtain rfl : u = t := not_imp_comm.mp (hpd u) hu
    simp [HasLock, Thread.stage, Stage.Owns, Stored]
  case buffered =>
    intro u w hw
    obtain rfl : u = t := not_imp_comm.mp (hpd u) (List.ne_nil_of_mem hw)
    rw [hN, ← hr]
    simpa [hp] using hw
  case memory =>
    intro hu
    simpa [hp] using hu t
  case register =>
    -- Only the thread that has just stored is in the critical section, and it is through with it.
    intro u f r' hu
    have hut : u ≠ t := by
      rintro rfl
      simp at hu
    have hσu : stage (s.threads u) = .holding :=
      stage_of_inCriticalSection ⟨_, _, by simpa [hut] using hu⟩
    exact absurd (hv.owner_unique (.inl (hσu ▸ trivial)) (.inl (hσ ▸ trivial))) hut
  case body =>
    refine (forall_update_iff s.threads fun _ l => ∀ as r, l.pc = .critical as r →
      as <:+ increment).mpr ⟨fun as r' hu => ?_, fun u _ => h.body u⟩
    obtain ⟨rfl, _⟩ : [] = as ∧ r = r' := by simpa using hu
    exact List.nil_suffix

theorem same (h : Counted mem₀ s) (hm : m .data = s.mem .data) (hc : count l = count (s.threads t))
    (ho : pendingData (s.buf t) ≠ [] → HasLock stage t l (s.buf t) ∧ (InQueue l → Stored l))
    (hr : ∀ f r, l.pc = .critical [.store f] r → r = total mem₀ s.threads)
    (hs : ∀ as r, l.pc = .critical as r → as <:+ increment) :
    Counted mem₀ ⟨m, update s.buf t (s.buf t), update s.threads t l⟩ :=
  h.quiet hm rfl (h.front t) hc ho hr hs

theorem push (h : Counted mem₀ s) (hx : x ≠ .data) (hc : count l = count (s.threads t))
    (ho : pendingData (s.buf t) ≠ [] →
      HasLock stage t l ((Buffering.fifo _).push (s.buf t) x v) ∧ (InQueue l → Stored l))
    (hl : ∀ as r, l.pc ≠ .critical as r) :
    Counted mem₀ ⟨s.mem, update s.buf t ((Buffering.fifo _).push (s.buf t) x v),
      update s.threads t l⟩ :=
  h.quiet rfl (pendingData_push hx) ((h.front t).push hx) hc (by rwa [pendingData_push hx])
    (fun _ _ hp => absurd hp (hl _ _)) (fun _ _ hp => absurd hp (hl _ _))

theorem load (h : Counted mem₀ s) (hv : Valid stage s) {r : Int} {n : Nat} {as : List Access}
    (ht : s.threads t = ⟨.critical (.load :: as) r, n⟩) :
    Counted mem₀ ⟨s.mem, update s.buf t (s.buf t),
      update s.threads t ⟨.critical as ((Buffering.fifo _).view s.mem (s.buf t) .data), n⟩⟩ := by
  obtain rfl : as = [.store (· + 1)] := by
    simpa [increment, List.suffix_cons_iff] using h.body t _ r (congrArg Thread.pc ht)
  have hσ : stage (s.threads t) = .holding := by rw [ht]; rfl
  have hs : ¬Stored (s.threads t) := by rw [ht]; exact id
  have hn := h.all_pending_eq_nil hv hσ hs
  have hr : (Buffering.fifo _).view s.mem (s.buf t) .data = total mem₀ s.threads := by
    rw [Buffering.view_nil (hn t), h.memory hn]
  refine h.same rfl (by simp [ht, count]) (fun hb => absurd (hn t) hb) (fun f r' he => ?_)
    fun as r' he => ?_
  · obtain ⟨_, rfl⟩ : _ ∧ _ = r' := by simpa using he
    exact hr
  · obtain ⟨rfl, _⟩ : [.store (· + 1)] = as ∧ _ := by simpa using he
    exact List.suffix_cons ..

theorem move (h : Counted mem₀ s) (hv : Valid stage s) (hd : Settled stage s)
    (e : (program increment t (s.threads t)).exec (.fifo _) .flushing s.mem (s.buf t) =
      some (m, b, l)) :
    Counted mem₀ ⟨m, update s.buf t b, update s.threads t l⟩ := by
  have ho := h.owner t
  have hnil := h.pending_eq_nil (t := t)
  generalize hl : s.threads t = l₀ at e ho hnil
  have hc := congrArg count hl
  match l₀ with
  | ⟨.idle, n⟩ =>
    cases e
    exact h.same rfl hc.symm ho nofun nofun
  | ⟨.lock .storeLocked, n⟩ =>
    cases e
    exact h.push nofun hc.symm (fun hn => ⟨(ho hn).1.push id id (by simp), nofun⟩) nofun
  | ⟨.lock .storeNext, n⟩ =>
    cases e
    exact h.push nofun hc.symm (fun hn => ⟨(ho hn).1.push id id nofun, nofun⟩) nofun
  | ⟨.lock .exchange, n⟩ =>
    obtain ⟨rfl, rfl, rfl, he⟩ := Op.exec_rmw e
    cases hm : s.mem .tail
    case none =>
      exact h.same (by simp) hc.symm (fun hn => absurd (he rfl .data) hn) nofun (by simp)
    case some => exact h.same (by simp) hc.symm (fun hn => absurd (he rfl .data) hn) nofun nofun
  | ⟨.lock (.storePrevNext p), n⟩ =>
    cases e
    exact h.push nofun hc.symm (fun hn => absurd (hnil trivial id) hn) nofun
  | ⟨.lock .fence, n⟩ =>
    cases e
    exact h.same rfl hc.symm (fun hn => absurd (hnil trivial id) hn) nofun nofun
  | ⟨.lock .spin, n⟩ =>
    cases e
    beta_reduce
    by_cases hs : (Buffering.fifo _).view s.mem (s.buf t) (.locked t) ≠ 0
    case pos =>
      rw [if_pos hs]
      exact h.same rfl hc.symm (fun hn => absurd (hnil trivial id) hn) nofun nofun
    case neg =>
      rw [if_neg hs]
      exact h.same rfl hc.symm (fun hn => absurd (hnil trivial id) hn) nofun (by simp)
  | ⟨.critical [] r, n⟩ =>
    cases e
    exact h.same rfl hc.symm (fun _ => ⟨.inl trivial, fun _ => trivial⟩) nofun nofun
  | ⟨.critical (.load :: as) r, n⟩ =>
    cases e
    exact h.load hv hl
  | ⟨.critical (.store f :: as) r, n⟩ =>
    cases e
    exact h.store hv hd hl
  | ⟨.unlock .loadNext, n⟩ | ⟨.unlock .spin, n⟩ =>
    cases e
    cases hn : (Buffering.fifo _).view s.mem (s.buf t) (.next t)
    all_goals exact h.same rfl hc.symm (fun _ => ⟨.inl trivial, fun _ => trivial⟩) nofun nofun
  | ⟨.unlock .loadSuccessor, n⟩ =>
    cases e
    have ⟨u, hu⟩ := hv.view_next_of_signalled (t := t) (by rw [hl]; rfl)
    rw [hu]
    exact h.same rfl hc.symm (fun _ => ⟨.inl trivial, fun _ => trivial⟩) nofun nofun
  | ⟨.unlock .compareExchange, n⟩ =>
    obtain ⟨rfl, rfl, rfl, he⟩ := Op.exec_rmw e
    by_cases hm : s.mem .tail = some t
    case pos =>
      simp only [if_pos hm]
      exact h.same (by simp) hc.symm (fun hn => absurd (he rfl .data) hn) nofun nofun
    case neg =>
      simp only [if_neg hm]
      exact h.same (by simp) hc.symm (fun hn => absurd (he rfl .data) hn) nofun nofun
  | ⟨.unlock .fence, n⟩ =>
    cases e
    exact h.same rfl hc.symm (fun _ => ⟨.inl trivial, fun _ => trivial⟩) nofun nofun
  | ⟨.unlock (.storeLocked u), n⟩ =>
    cases e
    have hu := hv.ne_of_passing (t := t) (n := u) (by rw [hl]; rfl)
    refine h.push nofun hc.symm (fun _ => ⟨.inr ⟨id, u, hu, ?_⟩, nofun⟩) nofun
    simp [Buffering.pending_push_self]
  | ⟨.fault, n⟩ => cases e

end Counted

theorem counted_of_reachable (ht : mem₀ .tail = none) (r : (tso increment mem₀).Reachable s) :
    Counted mem₀ s := by
  refine r.invariant (I := Counted mem₀) ?init ?step
  case init =>
    intro s hs
    cases hs
    refine ⟨fun t => nofun, fun t h => absurd rfl h, nofun, fun _ => ?_, nofun, nofun⟩
    simp [total, count]
  case step =>
    intro s l s' r h e
    cases e
    case drain hp => exact h.drain hp
    case move e => exact h.move (valid_of_tso ht r) (settled_of_tso ht r) e

-- At most one thread is in its critical section, and increments in it are not lost.
theorem tso_exclusive (mem₀ : Mem (Val Tid Int Int)) (ht : mem₀ .tail = none) :
    (∀ as s, (tso as mem₀).Reachable s → ∀ t u, (s.threads t).InCriticalSection →
      (s.threads u).InCriticalSection → t = u) ∧
    (∀ s, (tso increment mem₀).Reachable s → (∀ t, (s.threads t).pc = .idle) → s.Flushed →
      s.mem .data = mem₀ .data + ∑ t, ((s.threads t).rounds : Int)) := by
  refine ⟨fun as s r t u hct hcu => ?exclusive, fun s r hi hf => ?counter⟩
  case exclusive =>
    have hσt := stage_of_inCriticalSection hct
    have hσu := stage_of_inCriticalSection hcu
    exact (valid_of_tso ht r).owner_unique (.inl (hσt ▸ trivial)) (.inl (hσu ▸ trivial))
  case counter =>
    have h := (counted_of_reachable ht r).memory fun t => hf t .data
    simpa [total, count, hi] using h

-- The second thread exchanges `tail` while the first one is in its critical section, and links itself
-- after the compare-and-swap of the first one has failed.
def contended (t u : Tid) : List (Machine.Choice Tid (Loc Tid)) :=
  List.flatten [.replicate 3 (.move t), [.drain t (.locked t), .drain t (.next t)],
    .replicate 3 (.move t), .replicate 3 (.move u), [.drain u (.locked u), .drain u (.next u), .move u],
    [.drain t .data], .replicate 4 (.move t), [.move u, .drain u (.next t)], .replicate 3 (.move t),
    [.drain t (.locked u)], .replicate 6 (.move u), [.drain u .data, .move u]]

theorem tso_exclusive_contended :
    ∃ s : TsoState (Fin 2), (tso increment fresh).Reachable s ∧ (∀ t, (s.threads t).rounds = 1) ∧
      s.mem .data = 2 := by
  have ⟨s, r, hi, hf, hr⟩ := Machine.exists_reachable_of_schedule (.fifo _) .flushing
    (program increment) fresh (fun _ => ⟨.idle, 0⟩) (contended (0 : Fin 2) 1)
    (p := fun s => (∀ t, (s.threads t).pc = .idle) ∧ s.Flushed ∧ ∀ t, (s.threads t).rounds = 1)
    (by decide +kernel)
  refine ⟨s, r, hr, ?_⟩
  simpa [hr, fresh] using (tso_exclusive fresh rfl).2 s r hi hf

end Dpdk

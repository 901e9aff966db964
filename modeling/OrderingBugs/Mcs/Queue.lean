import OrderingBugs.Mcs.Protocol

open Function

namespace Mcs

variable {Tid : Type}

namespace Phase

variable {φ : Phase Tid} {o : Option Tid}

@[grind =]
theorem owns_iff :
    φ.Owns ↔ φ = holding ∨ φ = contended ∨ φ = signalled ∨ ∃ s, φ = passing s := by
  cases φ <;> simp [Owns]

@[grind =]
theorem leaving_iff : φ.Leaving ↔ φ = signalled ∨ ∃ s, φ = passing s := by
  cases φ <;> simp [Leaving]

@[grind =]
theorem released_iff : φ.Released ↔ φ = out ∨ ∃ s, φ = passing s := by
  cases φ <;> simp [Released]

@[grind =]
theorem exchanged_eq : exchanged o = match o with | none => holding | some p => linking p :=
  rfl

end Phase

@[simp, grind .]
theorem Init.reset_ne_done {i : Init} : i.reset ≠ done := by
  cases i <;> simp [reset]

-- How far the thread `s` behind `p` and the thread `p` have come. First `s` has yet to link itself, then
-- `p` can find it, and finally `p` passes the lock on.
@[grind cases, grind intro]
inductive Link (a : State Tid) (p s : Tid) : Prop
  | unlinked : a.phase s = .linking p → (a.nextInit p = .done → a.next p = none) →
    ¬(a.phase p).Leaving → Link a p s
  | linked : a.phase s = .waiting → a.nextInit p = .done → a.next p = some s →
    ¬(a.phase p).Released → Link a p s
  | passing : a.phase s = .waiting → a.phase p = .passing s → Link a p s

-- What holds of a thread `s` directly behind `p` in the queue.
@[grind cases, grind intro]
structure Edge (a : State Tid) (p s : Tid) : Prop where
  locked : a.lockedInit s = .done → a.locked s = true
  link   : Link a p s

-- The first thread in the queue has entered, or nothing keeps it from entering.
@[grind cases, grind intro]
structure Front (a : State Tid) (entered : Bool) (t : Tid) : Prop where
  owns    : entered = true → (a.phase t).Owns
  granted : entered = false → a.phase t = .waiting ∧ a.lockedInit t = .done ∧ a.locked t = false

-- The last thread in the queue has no successor.
@[grind cases, grind intro]
structure Back (a : State Tid) (t : Tid) : Prop where
  next    : a.nextInit t = .done → a.next t = none
  staying : ¬(a.phase t).Leaving ∧ a.phase t ≠ .contended

-- The queue that the nodes form.
structure Queued (a : State Tid) (c : Fifo.State Tid) : Prop where
  nodup  : c.queue.Nodup
  mem    : ∀ t, t ∈ c.queue ↔ a.phase t ≠ .out
  tail   : a.tail = c.queue.getLast?
  idle   : c.queue = [] → c.entered = false
  edge   : ∀ p s, c.queue.Adjacent p s → Edge a p s
  front  : ∀ t, c.queue.head? = some t → Front a c.entered t
  back   : ∀ t, c.queue.getLast? = some t → Back a t
  issued : ∀ t, ¬(a.phase t).Released → a.nextInit t ≠ .stale ∧ a.lockedInit t ≠ .stale
  fresh  : ∀ t, (a.phase t).Released →
    (a.nextInit t = .done → a.next t = none) ∧ (a.lockedInit t = .done → a.locked t = true)

namespace Queued

variable {a a' : State Tid} {c : Fifo.State Tid} {t p s : Tid}

-- Only the first thread in the queue owns the lock.
theorem head_of_owns (h : Queued a c) (ho : (a.phase t).Owns) : c.queue.head? = some t := by
  have ht : t ∈ c.queue := (h.mem t).mpr fun hn => by simp [hn, Phase.Owns] at ho
  by_contra hh
  have ⟨p, hp⟩ := List.exists_adjacent_of_ne_head ht hh
  cases (h.edge p t hp).link <;> simp_all [Phase.Owns]

theorem owner_unique (h : Queued a c) (ht : (a.phase t).Owns) (hs : (a.phase s).Owns) : t = s :=
  Option.some.inj ((h.head_of_owns ht).symm.trans (h.head_of_owns hs))

theorem eq_cons_of_owns (h : Queued a c) (ho : (a.phase t).Owns) : ∃ q, c = ⟨t :: q, true⟩ := by
  have hh := h.head_of_owns ho
  have he : c.entered = true := by grind [h.front t hh]
  obtain ⟨_ | ⟨_, q⟩, _⟩ := c <;> cases hh
  cases he
  exact ⟨q, rfl⟩

-- The thread that a thread is linking to stands in front of it.
theorem adjacent_of_linking (h : Queued a c) (hl : a.phase t = .linking p) :
    c.queue.Adjacent p t := by
  have ht : t ∈ c.queue := (h.mem t).mpr (by simp [hl])
  have hh : c.queue.head? ≠ some t := fun hh => by grind [h.front t hh]
  have ⟨p', hp⟩ := List.exists_adjacent_of_ne_head ht hh
  cases (h.edge p' t hp).link
  case unlinked hu _ _ => exact Phase.linking.inj (hu.symm.trans hl) ▸ hp
  case linked hw _ _ _ => simp [hl] at hw
  case passing hw _ => simp [hl] at hw

-- A thread does not find out about a successor before there is one.
theorem exists_adjacent (h : Queued a c) (ho : (a.phase t).Leaving ∨ a.phase t = .contended) :
    ∃ s, c.queue.Adjacent t s := by
  refine List.exists_adjacent ((h.mem t).mpr fun hn => ?_) fun hl => ?_
  · simp [hn, Phase.Leaving] at ho
  · exact ho.elim (h.back t hl).staying.1 (h.back t hl).staying.2

theorem next_of_signalled (h : Queued a c) (ht : a.phase t = .signalled) :
    ∃ s, c.queue.Adjacent t s ∧ a.nextInit t = .done ∧ a.next t = some s := by
  have ⟨s, hs⟩ := h.exists_adjacent (t := t) (.inl (by simp [ht, Phase.Leaving]))
  grind [h.edge t s hs]

theorem adjacent_of_passing (h : Queued a c) (ht : a.phase t = .passing s) :
    c.queue.Adjacent t s ∧ a.phase s = .waiting := by
  have ⟨s', hs⟩ := h.exists_adjacent (t := t) (.inl (by simp [ht, Phase.Leaving]))
  grind [h.edge t s' hs]

-- The only thread that has been granted the lock is the first one.
theorem head_of_granted (h : Queued a c) (ht : a.phase t = .waiting) (hd : a.lockedInit t = .done)
    (hl : a.locked t = false) : ∃ q, c = ⟨t :: q, false⟩ := by
  have hh : c.queue.head? = some t := by
    by_contra hh
    have ⟨p, hp⟩ := List.exists_adjacent_of_ne_head ((h.mem t).mpr (by simp [ht])) hh
    simpa [hl] using (h.edge p t hp).locked hd
  have he : c.entered = false := by grind [h.front t hh]
  obtain ⟨_ | ⟨_, q⟩, _⟩ := c <;> cases hh
  cases he
  exact ⟨q, rfl⟩

theorem initial (h : Initial a) : Queued a ⟨[], false⟩ where
  nodup := .nil
  mem t := by simp [h.phase t]
  tail := h.tail
  idle _ := rfl
  edge := nofun
  front := nofun
  back := nofun
  issued t ht := absurd (h.phase t ▸ trivial) ht
  fresh t _ := by simp [h.nextInit t, h.lockedInit t]

variable [DecidableEq Tid]

attribute [local grind =] update_apply

theorem issueNext (h : Queued a c) (e : Step a (.issueNext t) a') : Queued a' c := by
  cases e
  case issueNext =>
    exact { h with
      edge := fun p s hps => by grind [h.edge p s hps]
      front := fun u hu => by grind [h.front u hu]
      back := fun u hu => by grind [h.back u hu]
      issued := fun u hu => by grind [h.issued u hu]
      fresh := fun u hu => by grind [h.fresh u hu] }

theorem issueLocked (h : Queued a c) (e : Step a (.issueLocked t) a') : Queued a' c := by
  cases e
  case issueLocked =>
    exact { h with
      edge := fun p s hps => by grind [h.edge p s hps]
      front := fun u hu => by grind [h.front u hu]
      back := fun u hu => by grind [h.back u hu]
      issued := fun u hu => by grind [h.issued u hu]
      fresh := fun u hu => by grind [h.fresh u hu] }

theorem settleNext (h : Queued a c) (e : Step a (.settleNext t) a') : Queued a' c := by
  cases e
  case settleNext =>
    exact { h with
      edge := fun p s hps => by grind [h.edge p s hps]
      front := fun u hu => by grind [h.front u hu]
      back := fun u hu => by grind [h.back u hu]
      issued := fun u hu => by grind [h.issued u hu]
      fresh := fun u hu => by grind [h.fresh u hu] }

theorem settleLocked (h : Queued a c) (e : Step a (.settleLocked t) a') : Queued a' c := by
  cases e
  case settleLocked =>
    exact { h with
      edge := fun p s hps => by grind [h.edge p s hps]
      front := fun u hu => by grind [h.front u hu]
      back := fun u hu => by grind [h.back u hu]
      issued := fun u hu => by grind [h.issued u hu]
      fresh := fun u hu => by grind [h.fresh u hu] }

-- The new thread stands behind the thread it found in `tail`.
theorem exchange (h : Queued a c) {o : Option Tid} (e : Step a (.exchange t o) a') :
    t ∉ c.queue ∧ o = c.queue.getLast? ∧ Queued a' ⟨c.queue ++ [t], c.entered || o.isNone⟩ := by
  cases e
  case exchange hp hn hl =>
    have ht : t ∉ c.queue := fun ht => (h.mem t).mp ht hp
    have hf := h.fresh t (by simp [hp, Phase.Released])
    refine ⟨ht, h.tail, ?_⟩
    exact {
      nodup := by simpa [List.nodup_append] using ⟨h.nodup, fun u hu hut => ht (hut ▸ hu)⟩
      mem := fun u => by grind [h.mem u]
      tail := by simp
      idle := by simp
      edge := fun p s hps => by
        rcases List.adjacent_append_singleton_iff.mp hps with hps | ⟨hlast, rfl⟩
        · have := hps.left_mem
          have := hps.right_mem
          grind [h.edge p s hps]
        · have := List.mem_of_getLast? hlast
          refine ⟨hf.2, .unlinked ?linking (h.back p hlast).next ?staying⟩
          case linking => simp [h.tail, hlast, Phase.exchanged]
          case staying => grind [h.back p hlast]
      front := fun u hu => by
        cases hq : c.queue.head?
        case none =>
          have hq : c.queue = [] := by simpa using hq
          have : a.tail = none := by simp [h.tail, hq]
          obtain rfl : u = t := by simpa [hq] using hu.symm
          grind
        case some v =>
          obtain rfl : u = v := by simpa [hq] using hu.symm
          have := List.mem_of_head? hq
          grind [h.front u hq, h.tail]
      back := fun u hu => by
        obtain rfl : u = t := by simpa using hu.symm
        exact ⟨hf.1, by grind⟩
      issued := fun u hu => by grind [h.issued u]
      fresh := fun u hu => by grind [h.fresh u] }

theorem link (h : Queued a c) (e : Step a (.link t) a') : Queued a' c := by
  cases e
  case link p hi hp =>
    have hpt := h.adjacent_of_linking hp
    have hne := hpt.ne h.nodup
    have hl := hpt.getLast?_ne h.nodup
    have hr : ¬(a.phase p).Released := by
      have := (h.mem p).mp hpt.left_mem
      cases (h.edge p t hpt).link <;> grind
    have hd : a.nextInit p = .done := by
      have := (h.issued p hr).1
      cases h : a.nextInit p <;> simp_all
    exact { h with
      mem := fun u => by grind [h.mem u]
      edge := fun q s hqs => by
        by_cases hq : q = p
        case pos =>
          subst hq
          obtain rfl := hqs.right_unique hpt h.nodup
          exact ⟨(h.edge q s hqs).locked, .linked (by simp) hd (by simp) (by simpa [hne] using hr)⟩
        case neg =>
          have hs : s ≠ t := fun hs => hq (hqs.left_unique (hs ▸ hpt) h.nodup)
          grind [h.edge q s hqs]
      front := fun u hu => by grind [h.front u hu]
      back := fun u hu => by grind [h.back u hu]
      issued := fun u hu => by grind [h.issued u]
      fresh := fun u hu => by grind [h.fresh u] }

theorem enter (h : Queued a c) (e : Step a (.enter t) a') :
    ∃ q, c = ⟨t :: q, false⟩ ∧ Queued a' ⟨t :: q, true⟩ := by
  cases e
  case enter hp hi hl =>
    obtain ⟨q, rfl⟩ := h.head_of_granted hp hi hl
    refine ⟨q, rfl, ?_⟩
    exact { h with
      mem := fun u => by grind [h.mem u]
      idle := nofun
      edge := fun p s hps => by grind [h.edge p s hps]
      front := fun u hu => by grind [h.front u hu]
      back := fun u hu => by grind [h.back u hu]
      issued := fun u hu => by grind [h.issued u]
      fresh := fun u hu => by grind [h.fresh u] }

-- A thread that finds itself in `tail` is alone.
theorem reset (h : Queued a c) (e : Step a (.reset t) a') :
    c = ⟨[t], true⟩ ∧ Queued a' ⟨[], false⟩ := by
  cases e
  case reset hp ht =>
    obtain ⟨q, rfl⟩ := h.eq_cons_of_owns (t := t) (by simp [hp, Phase.Owns])
    obtain rfl : q = [] := by
      cases q
      case nil => rfl
      case cons =>
        have hn := List.adjacent_cons_cons.getLast?_ne h.nodup
        exact absurd (h.tail ▸ ht) hn
    have hu (u : Tid) : u ≠ t → a.phase u = .out := by simpa [not_imp_comm] using (h.mem u).mpr
    refine ⟨rfl, ?_⟩
    exact {
      nodup := .nil
      mem := fun u => by grind
      tail := rfl
      idle := fun _ => rfl
      edge := nofun
      front := nofun
      back := nofun
      issued := fun u hu => by grind
      fresh := fun u hu => by grind [h.fresh u] }

theorem contend (h : Queued a c) (e : Step a (.contend t) a') : Queued a' c := by
  cases e
  case contend =>
    exact { h with
      mem := fun u => by grind [h.mem u]
      edge := fun p s hps => by grind [h.edge p s hps]
      front := fun u hu => by grind [h.front u hu]
      back := fun u hu => by grind [h.back u hu, h.tail]
      issued := fun u hu => by grind [h.issued u]
      fresh := fun u hu => by grind [h.fresh u] }

theorem signal (h : Queued a c) (e : Step a (.signal t) a') : Queued a' c := by
  cases e
  case signal =>
    exact { h with
      mem := fun u => by grind [h.mem u]
      edge := fun p s hps => by grind [h.edge p s hps]
      front := fun u hu => by grind [h.front u hu]
      back := fun u hu => by grind [h.back u hu]
      issued := fun u hu => by grind [h.issued u]
      fresh := fun u hu => by grind [h.fresh u] }

theorem take (h : Queued a c) (e : Step a (.take t) a') : Queued a' c := by
  cases e
  case take =>
    exact { h with
      mem := fun u => by grind [h.mem u]
      edge := fun p s hps => by grind [h.edge p s hps]
      front := fun u hu => by grind [h.front u hu]
      back := fun u hu => by grind [h.back u hu]
      issued := fun u hu => by grind [h.issued u]
      fresh := fun u hu => by grind [h.fresh u] }

-- The lock goes to the thread directly behind.
theorem handoff (h : Queued a c) (e : Step a (.handoff t) a') :
    ∃ q, c = ⟨t :: q, true⟩ ∧ Queued a' ⟨q, false⟩ := by
  cases e
  case handoff s hi hp =>
    have ⟨hts, hs⟩ := h.adjacent_of_passing hp
    have hd : a.lockedInit s = .done := by
      have := (h.issued s (by simp [hs, Phase.Released])).2
      cases h : a.lockedInit s <;> simp_all
    have hne := hts.ne h.nodup
    obtain ⟨q, rfl⟩ := h.eq_cons_of_owns (t := t) (by simp [hp, Phase.Owns])
    have ⟨ht, hq⟩ := List.nodup_cons.mp h.nodup
    have hqs : q.head? = some s := by
      rcases hts with ⟨_, hqs⟩ | hqs
      · exact hqs
      · exact absurd hqs.left_mem ht
    refine ⟨q, rfl, ?_⟩
    exact {
      nodup := hq
      mem := fun u => by grind [h.mem u]
      tail := by cases q <;> simp_all [h.tail]
      idle := fun _ => rfl
      edge := fun p u hpu => by
        have hu : u ≠ s := by
          rintro rfl
          exact ht (hpu.cons.left_unique hts h.nodup ▸ hpu.left_mem)
        have := hpu.left_mem
        have := hpu.right_mem
        grind [h.edge p u hpu.cons]
      front := fun u hu => by grind
      back := fun u hu => by
        have hl : (t :: q).getLast? = some u := by cases q <;> simp_all
        have := List.mem_of_getLast? hu
        grind [h.back u hl]
      issued := fun u hu => by grind [h.issued u]
      fresh := fun u hu => by grind [h.fresh u] }

end Queued

-- The protocol is a fair lock.
def toFifo (Tid : Type) [DecidableEq Tid] :
    (system Tid).Simulation (Fifo.system Tid) Label.events Fifo.Label.events where
  Rel := Queued
  init a h := ⟨_, rfl, .initial h⟩
  step a c l a' _ _ h e := by
    cases l
    case issueNext => exact ⟨[], c, .refl, rfl, h.issueNext e⟩
    case issueLocked => exact ⟨[], c, .refl, rfl, h.issueLocked e⟩
    case settleNext => exact ⟨[], c, .refl, rfl, h.settleNext e⟩
    case settleLocked => exact ⟨[], c, .refl, rfl, h.settleLocked e⟩
    case exchange t o =>
      have ⟨ht, ho, h'⟩ := h.exchange e
      cases o
      case none =>
        have hq : c.queue = [] := by simpa using ho.symm
        obtain ⟨_, _⟩ := c
        cases hq
        cases h.idle rfl
        exact ⟨_, _, .step (.arrive ht) (.single .enter), rfl, h'⟩
      case some => exact ⟨_, _, .single (.arrive ht), rfl, by simpa using h'⟩
    case link => exact ⟨[], c, .refl, rfl, h.link e⟩
    case enter =>
      obtain ⟨q, rfl, h'⟩ := h.enter e
      exact ⟨_, _, .single .enter, rfl, h'⟩
    case reset =>
      obtain ⟨rfl, h'⟩ := h.reset e
      exact ⟨_, _, .single .leave, rfl, h'⟩
    case contend => exact ⟨[], c, .refl, rfl, h.contend e⟩
    case signal => exact ⟨[], c, .refl, rfl, h.signal e⟩
    case take => exact ⟨[], c, .refl, rfl, h.take e⟩
    case handoff =>
      obtain ⟨q, rfl, h'⟩ := h.handoff e
      exact ⟨_, _, .single .leave, rfl, h'⟩

end Mcs

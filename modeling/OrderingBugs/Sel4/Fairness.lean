import OrderingBugs.Sel4.Lifetime
import OrderingBugs.Lock.Adjacent
import OrderingBugs.Lock.Fifo

open Function

namespace Sel4

-- The thread is between its exchange and the end of its round.
def Pc.InQueue : Pc Addr → Prop
  | spin _ | critical | storeFalse _ => True
  | _ => False

-- The thread has taken the lock and not given it up yet.
def Pc.Owns : Pc Addr → Prop
  | critical | storeFalse _ => True
  | _ => False

@[grind =]
theorem Pc.inQueue_iff {pc : Pc Addr} : pc.InQueue ↔ (∃ a, pc = .spin a) ∨ pc.Owns := by
  cases pc <;> simp [InQueue, Owns]

@[grind =]
theorem Pc.owns_iff {pc : Pc Addr} : pc.Owns ↔ pc = .critical ∨ ∃ o, pc = .storeFalse o := by
  cases pc <;> simp [Owns]

def Label.events : Label Tid Addr → List (Fifo.Event Tid)
  | exchange t => [.arrive t]
  | load t _ false => [.enter t]
  | _ => []

variable {Tid Addr : Type} {s s' : State Tid Addr} {c : Fifo.State Tid} {t p : Tid} {a : Addr}

-- The first thread in the queue has entered, or nothing keeps it from entering.
@[grind cases, grind intro]
structure Front (s : State Tid Addr) (entered : Bool) (t : Tid) : Prop where
  owns    : entered = true → (s.pc t).Owns
  granted : entered = false → ∃ a, s.pc t = .spin a ∧ s.heap.val a = false

-- The queue that the threads form: each one spins on the node of the one before it.
structure Queued (s : State Tid Addr) (c : Fifo.State Tid) : Prop where
  nodup  : c.queue.Nodup
  mem    : ∀ t, t ∈ c.queue ↔ (s.pc t).InQueue
  idle   : c.queue = [] → c.entered = false
  node   : ∀ t, t ∈ c.queue → ∃ a, s.key t = some a ∧ s.heap.val a = true
  edge   : ∀ p t, c.queue.Adjacent p t → ∃ a, s.key p = some a ∧ s.pc t = .spin a
  front  : ∀ t, c.queue.head? = some t → Front s c.entered t
  back   : ∀ t, c.queue.getLast? = some t → s.key t = some s.tail
  free   : c.queue = [] → s.heap.val s.tail = false
  issued : ∀ t a, s.pc t = .setspecific a ∨ s.pc t = .exchange a → s.heap.val a = true

namespace Queued

theorem head_of_owns (h : Queued s c) (ho : (s.pc t).Owns) : ∃ q, c = ⟨t :: q, true⟩ := by
  have ht : t ∈ c.queue := (h.mem t).mpr (Pc.inQueue_iff.mpr (.inr ho))
  have hh : c.queue.head? = some t := by
    by_contra hh
    have ⟨p, hp⟩ := List.exists_adjacent_of_ne_head ht hh
    have ⟨a, _, hs⟩ := h.edge p t hp
    simp [hs, Pc.Owns] at ho
  have he : c.entered = true := by
    by_contra he
    have ⟨a, hs, _⟩ := (h.front t hh).granted (by simpa using he)
    simp [hs, Pc.Owns] at ho
  obtain ⟨_ | ⟨_, q⟩, _⟩ := c <;> cases hh
  cases he
  exact ⟨q, rfl⟩

-- A thread that finds its predecessor's node unlocked is the first one.
theorem head_of_granted (h : Queued s c) (hs : s.pc t = .spin a) (hv : s.heap.val a = false) :
    ∃ q, c = ⟨t :: q, false⟩ := by
  have ht : t ∈ c.queue := (h.mem t).mpr (by simp [hs, Pc.InQueue])
  have hh : c.queue.head? = some t := by
    by_contra hh
    have ⟨p, hp⟩ := List.exists_adjacent_of_ne_head ht hh
    have ⟨b, hb, hsb⟩ := h.edge p t hp
    have ⟨b', hb', hv'⟩ := h.node p hp.left_mem
    grind
  have he : c.entered = false := by
    by_contra he
    have := (h.front t hh).owns (by simpa using he)
    simp [hs, Pc.Owns] at this
  obtain ⟨_ | ⟨_, q⟩, _⟩ := c <;> cases hh
  cases he
  exact ⟨q, rfl⟩

theorem owner_unique (h : Queued s c) (ht : (s.pc t).Owns) (hp : (s.pc p).Owns) : t = p := by
  have ⟨q, hq⟩ := h.head_of_owns ht
  have ⟨q', hq'⟩ := h.head_of_owns hp
  cases hq.symm.trans hq'
  rfl

variable [DecidableEq Tid] [DecidableEq Addr]

attribute [local grind =] update_apply

-- A new node is none of those that are in use.
theorem malloc (h : Queued s c) (k : Keyed s) (o : Owned s) (e : Step s (.malloc t a) s') :
    Queued s' c := by
  have hk (u b) (hu : s.key u = some b) : s.heap.live b = true := o.live u b (.inl hu)
  have hp (u b) (hu : Private s u b) : s.heap.live b = true := o.live u b (.inr hu)
  have ht := o.tail (e.not_destroyed_of_malloc k)
  cases e
  case malloc =>
    exact { h with
      mem := fun u => by grind [h.mem u]
      node := fun u hu => by grind [h.node u hu]
      edge := fun p u hpu => by grind [h.edge p u hpu]
      front := fun u hu => by grind [h.front u hu, o.pred u]
      free := fun hq => by grind [h.free hq]
      issued := fun u b hu => by grind [h.issued u b, hp u b, Private] }

theorem storeTrue (h : Queued s c) (o : Owned s) (e : Step s (.storeTrue t a) s') : Queued s' c := by
  cases e
  case storeTrue hs =>
    have ⟨ht, hp⟩ := o.hidden t a (.inl hs)
    exact { h with
      mem := fun u => by grind [h.mem u]
      node := fun u hu => by grind [h.node u hu]
      edge := fun p u hpu => by grind [h.edge p u hpu]
      front := fun u hu => by grind [h.front u hu]
      free := fun hq => by grind [h.free hq]
      issued := fun u b hu => by grind [h.issued u b] }

theorem setspecific (h : Queued s c) (e : Step s (.setspecific t) s') : Queued s' c := by
  cases e
  case setspecific a hs =>
    have ht : t ∉ c.queue := by grind [h.mem t]
    exact { h with
      mem := fun u => by grind [h.mem u]
      node := fun u hu => by grind [h.node u hu]
      edge := fun p u hpu => by grind [h.edge p u hpu, hpu.left_mem]
      front := fun u hu => by grind [h.front u hu]
      back := fun u hu => by grind [h.back u hu, List.mem_of_getLast? hu]
      issued := fun u b hu => by grind [h.issued u b] }

-- The new thread spins on the node of the last one.
theorem exchange (h : Queued s c) (k : Keyed s) (e : Step s (.exchange t) s') :
    t ∉ c.queue ∧ Queued s' { c with queue := c.queue ++ [t] } := by
  cases e
  case exchange a hs =>
    have ht : t ∉ c.queue := by grind [h.mem t]
    have hk := k.exchange t a hs
    have hv := h.issued t a (.inr hs)
    refine ⟨ht, ?_⟩
    exact {
      nodup := by simpa [List.nodup_append] using ⟨h.nodup, fun u hu hut => ht (hut ▸ hu)⟩
      mem := fun u => by grind [h.mem u]
      idle := by simp
      node := fun u hu => by
        rcases List.mem_append.mp hu with hu | hu
        · exact h.node u hu
        · cases List.mem_singleton.mp hu
          exact ⟨a, hk, hv⟩
      edge := fun p u hpu => by
        rcases List.adjacent_append_singleton_iff.mp hpu with hpu | ⟨hlast, rfl⟩
        · grind [h.edge p u hpu, hpu.right_mem]
        · grind [h.back p hlast]
      front := fun u hu => by
        cases hq : c.queue.head?
        case none =>
          have hq : c.queue = [] := by simpa using hq
          obtain rfl : u = t := by simpa [hq] using hu.symm
          grind [h.free hq, h.idle hq]
        case some v =>
          obtain rfl : u = v := by simpa [hq] using hu.symm
          grind [h.front u hq, List.mem_of_head? hq]
      back := fun u hu => by
        obtain rfl : u = t := by simpa using hu.symm
        exact hk
      free := by simp
      issued := fun u b hu => by grind [h.issued u b] }

theorem enter (h : Queued s c) (e : Step s (.load t a false) s') :
    ∃ q, c = ⟨t :: q, false⟩ ∧ Queued s' ⟨t :: q, true⟩ := by
  cases e
  case enter hv hs =>
    obtain ⟨q, rfl⟩ := h.head_of_granted hs hv
    have ht (p) (hp : (t :: q).Adjacent p t) : False := hp.ne_head h.nodup rfl
    refine ⟨q, rfl, ?_⟩
    exact { h with
      mem := fun u => by grind [h.mem u]
      idle := nofun
      edge := fun p u hpu => by grind [h.edge p u hpu]
      front := fun u hu => by grind [h.front u hu]
      issued := fun u b hu => by grind [h.issued u b] }

theorem getspecific (h : Queued s c) (e : Step s (.getspecific t) s') : Queued s' c := by
  cases e
  case getspecific hs =>
    exact { h with
      mem := fun u => by grind [h.mem u]
      edge := fun p u hpu => by grind [h.edge p u hpu]
      front := fun u hu => by grind [h.front u hu]
      issued := fun u b hu => by grind [h.issued u b] }

-- The lock goes to the thread that spins on the node.
theorem storeFalse (h : Queued s c) (k : Keyed s) (o : Owned s) (e : Step s (.storeFalse t a) s') :
    ∃ q, c = ⟨t :: q, true⟩ ∧ Queued s' ⟨q, false⟩ := by
  cases e
  case storeFalse hs =>
    obtain ⟨q, rfl⟩ := h.head_of_owns (t := t) (by simp [hs, Pc.Owns])
    have hk := k.storeFalse t a hs
    have ⟨ht, hq⟩ := List.nodup_cons.mp h.nodup
    have hn (u b) (hu : u ≠ t) (ho : Owns s u b) : b ≠ a :=
      fun hb => hu (o.unique u t a (hb ▸ ho) (.inl hk))
    refine ⟨q, rfl, ?_⟩
    exact {
      nodup := hq
      mem := fun u => by grind [h.mem u]
      idle := fun _ => rfl
      node := fun u hu => by
        have ⟨b, hb, hv⟩ := h.node u (List.mem_cons_of_mem _ hu)
        have hut : u ≠ t := fun hut => ht (hut ▸ hu)
        exact ⟨b, hb, by simpa [hn u b hut (.inl hb)] using hv⟩
      edge := fun p u hpu => by grind [h.edge p u hpu.cons, hpu.right_mem]
      front := fun u hu => by
        have ⟨b, hb, hsb⟩ := h.edge t u (.inl ⟨rfl, hu⟩)
        grind
      back := fun u hu => by
        have hl : (t :: q).getLast? = some u := by cases q <;> simp_all
        exact h.back u hl
      free := fun hq => by
        obtain rfl : q = [] := hq
        grind [h.back t rfl]
      issued := fun u b hu => by
        have hut : u ≠ t := by grind
        have hb : Private s u b := .inr (by grind)
        grind [h.issued u b, hn u b hut (.inr hb)] }

end Queued

-- No thread exits, so no node is ever freed and `malloc` returns fresh ones only.
def Stays (_ : State Tid Addr) : Label Tid Addr → Prop
  | .exit .. => False
  | _ => True

variable [DecidableEq Tid] [DecidableEq Addr] {heap : Heap Addr Bool} {ls : List (Label Tid Addr)}

theorem unwatched_of_stays (r : ((clh Tid heap).restrict Stays).Run ls s) :
    ((clh Tid heap).restrict Unwatched).Run ls s := by
  refine System.Run.mono (S := (clh Tid heap).restrict Stays) (T := (clh Tid heap).restrict Unwatched)
    (fun _ => id) (fun s l s' _ e => ⟨?_, e.2⟩) r
  cases l
  case exit => exact e.1.elim
  all_goals trivial

-- The lock is a fair one.
def toFifo (heap : Heap Addr Bool) :
    ((clh Tid heap).restrict Stays).Simulation (Fifo.system Tid) Label.events
      Fifo.Label.events where
  Rel := Queued
  init s hs := by
    obtain ⟨dummy, _, rfl⟩ := hs
    refine ⟨_, rfl, .nil, ?_, fun _ => rfl, nofun, nofun, nofun, nofun, ?_, ?_⟩
    · simp [clhLockInit, Pc.InQueue]
    · simp [clhLockInit]
    · simp [clhLockInit]
  step s c l s' r _ h e := by
    have ⟨ls, r⟩ := r
    have k := keyed_of_reachable r.of_restrict.reachable
    have o := owned_of_reachable (unwatched_of_stays r).reachable
    cases l
    case malloc => exact ⟨[], c, .refl, rfl, h.malloc k o e.2⟩
    case storeTrue => exact ⟨[], c, .refl, rfl, h.storeTrue o e.2⟩
    case setspecific => exact ⟨[], c, .refl, rfl, h.setspecific e.2⟩
    case exchange =>
      have ⟨ht, h'⟩ := h.exchange k e.2
      exact ⟨_, _, .single (.arrive ht), rfl, h'⟩
    case load v =>
      cases v
      case false =>
        obtain ⟨q, rfl, h'⟩ := h.enter e.2
        exact ⟨_, _, .single .enter, rfl, h'⟩
      case true =>
        obtain ⟨-, e⟩ := e
        cases e
        exact ⟨[], c, .refl, rfl, h⟩
    case getspecific => exact ⟨[], c, .refl, rfl, h.getspecific e.2⟩
    case storeFalse =>
      obtain ⟨q, rfl, h'⟩ := h.storeFalse k o e.2
      exact ⟨_, _, .single .leave, rfl, h'⟩
    case exit => exact e.1.elim
    case destroy =>
      obtain ⟨-, e⟩ := e
      cases e
      exact ⟨[], c, .refl, rfl, { h with
        front := fun u hu => ⟨(h.front u hu).owns, (h.front u hu).granted⟩ }⟩

def Label.exchange? : Label Tid Addr → Option Tid
  | exchange t => some t
  | _ => none

def Label.entrant? : Label Tid Addr → Option Tid
  | load t _ false => some t
  | _ => none

-- The threads in the order of their exchanges.
def exchanges (ls : List (Label Tid Addr)) : List Tid :=
  ls.filterMap Label.exchange?

-- The threads in the order of their entries into the critical section.
def entries (ls : List (Label Tid Addr)) : List Tid :=
  ls.filterMap Label.entrant?

omit [DecidableEq Tid] [DecidableEq Addr] in
theorem arrivals_events (l : Label Tid Addr) : Fifo.arrivals l.events = l.exchange?.toList := by
  cases l
  case load v => cases v <;> rfl
  all_goals rfl

omit [DecidableEq Tid] [DecidableEq Addr] in
theorem entries_events (l : Label Tid Addr) : Fifo.entries l.events = l.entrant?.toList := by
  cases l
  case load v => cases v <;> rfl
  all_goals rfl

-- At most one thread is in its critical section, and threads enter it in the order of their exchanges.
theorem clh_fair (heap : Heap Addr Bool) :
    ∀ ls s, ((clh Tid heap).restrict Stays).Run ls s →
      (∀ t u, s.pc t = .critical → s.pc u = .critical → t = u) ∧ entries ls <+: exchanges ls := by
  intro ls s r
  have ⟨_, c, rc, h, he⟩ := (toFifo heap).run r
  refine ⟨fun t u ht hu => h.owner_unique (by simp [ht, Pc.Owns]) (by simp [hu, Pc.Owns]), ?_⟩
  rw [exchanges, entries, ← Fifo.arrivals_flatMap fun l _ => arrivals_events l,
    ← Fifo.entries_flatMap fun l _ => entries_events l, ← he]
  exact Fifo.entries_prefix_arrivals rc

-- The first thread enters, and the second one queues up behind it.
theorem clh_fair_queued :
    ∃ ls s, ((clh (Fin 2) noObjects).restrict Stays).Run ls s ∧ s.pc 0 = .critical ∧
      s.pc 1 = .spin 1 ∧ entries ls <+: exchanges ls := by
  have r := System.Run.init (S := (clh (Fin 2) noObjects).restrict Stays) ⟨0, rfl, rfl⟩
  have r := r.step ⟨by trivial, .malloc (t := 0) (a := 1) (v := false) rfl rfl⟩
  have r := r.step ⟨by trivial, .storeTrue (t := 0) rfl⟩
  have r := r.step ⟨by trivial, .setspecific (t := 0) rfl⟩
  have r := r.step ⟨by trivial, .exchange (t := 0) rfl⟩
  have r := r.step ⟨by trivial, .malloc (t := 1) (a := 2) (v := false) rfl rfl⟩
  have r := r.step ⟨by trivial, .storeTrue (t := 1) rfl⟩
  have r := r.step ⟨by trivial, .setspecific (t := 1) rfl⟩
  have r := r.step ⟨by trivial, .exchange (t := 1) rfl⟩
  have r := r.step ⟨by trivial, .enter (t := 0) rfl rfl⟩
  exact ⟨_, _, r, rfl, rfl, (clh_fair noObjects _ _ r).2⟩

end Sel4

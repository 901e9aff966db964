import OrderingBugs.Sel4.Lock

open Function

namespace Sel4

variable {Tid Addr : Type} {s s' : State Tid Addr} {t u : Tid} {a : Addr} {l : Label Tid Addr}

-- Only live nodes are accessed, and only live nodes are freed.
structure Safe (s : State Tid Addr) (l : Label Tid Addr) : Prop where
  access : ∀ a, l.access? = some a → s.heap.live a = true
  free   : ∀ a, l.free? = some a → s.heap.live a = true

-- The thread has allocated the node and not exchanged `tail` with it.
def Private (s : State Tid Addr) (t : Tid) (a : Addr) : Prop :=
  s.pc t = .storeTrue a ∨ s.pc t = .setspecific a ∨ s.pc t = .exchange a

-- The node is the thread's to write and free.
def Owns (s : State Tid Addr) (t : Tid) (a : Addr) : Prop :=
  s.key t = some a ∨ Private s t a

-- What is known of the local state of the threads.
structure Keyed (s : State Tid Addr) : Prop where
  exchange   : ∀ t a, s.pc t = .exchange a → s.key t = some a
  storeFalse : ∀ t a, s.pc t = .storeFalse (some a) → s.key t = some a
  exited     : ∀ t, s.pc t = .exited → s.key t = none
  joined     : s.destroyed = true → ∀ t, s.pc t = .exited

-- Nobody frees a node that others can still get at.
structure Owned (s : State Tid Addr) : Prop where
  live    : ∀ t a, Owns s t a → s.heap.live a = true
  unique  : ∀ t u a, Owns s t a → Owns s u a → t = u
  pred    : ∀ t a, s.pc t = .spin a → s.heap.live a = true
  tail    : s.destroyed = false → s.heap.live s.tail = true
  hidden  : ∀ t a, Private s t a → a ≠ s.tail ∧ ∀ u, s.pc u ≠ .spin a

-- A thread exits only when `tail` does not point to its last node, and no thread spins on it.
def Unwatched (s : State Tid Addr) : Label Tid Addr → Prop
  | .exit _ a => ∀ b, a = some b → b ≠ s.tail ∧ ∀ u, s.pc u ≠ .spin b
  | _ => True

variable [DecidableEq Tid] [DecidableEq Addr]

attribute [local grind =] update_apply
attribute [local grind] Owns Private

theorem Keyed.step (h : Keyed s) (e : Step s l s') : Keyed s' := by
  have := h.joined
  cases e
  all_goals
    exact {
      exchange := fun u b => by grind [h.exchange u b]
      storeFalse := fun u b => by grind [h.storeFalse u b]
      exited := fun u => by grind [h.exited u]
      joined := fun hd u => by grind }

omit [DecidableEq Tid] [DecidableEq Addr] in
theorem Keyed.not_owns (h : Keyed s) (ht : s.pc t = .exited) : ¬Owns s t a := by
  grind [h.exited t ht]

namespace Step

section

variable (e : Step s l s')

include e

-- Nodes are acquired by allocating them.
theorem private_or (h : Private s' u a) : Private s u a ∨ l = .malloc u a := by
  cases e <;> grind

theorem owns_or (h : Owns s' u a) : Owns s u a ∨ l = .malloc u a := by
  cases e <;> grind

-- They get to others through `tail`.
theorem pred_or (h : s'.pc u = .spin a) : s.pc u = .spin a ∨ (l = .exchange u ∧ a = s.tail) := by
  cases e <;> grind

theorem tail_or : s'.tail = s.tail ∨ ∃ u, l = .exchange u ∧ Private s u s'.tail := by
  cases e <;> grind

theorem live_iff : s'.heap.live a = true ↔
    (s.heap.live a = true ∧ l.free? ≠ some a) ∨ ∃ t, l = .malloc t a := by
  cases e <;> grind [Label.free?]

-- They are given up in the end.
theorem free_or (hf : l.free? = some a) :
    (∃ u, l = .exit u (some a) ∧ Owns s u a ∧ ∀ b, ¬Owns s' u b) ∨
      (a = s.tail ∧ s.destroyed = false ∧ s'.destroyed = true ∧ ∀ t, s.pc t = .exited) := by
  cases e <;> grind [Label.free?]

-- A thread accesses its own node, or the one it spins on.
theorem access_or (k : Keyed s) (ha : l.access? = some a) : ∃ t, Owns s t a ∨ s.pc t = .spin a := by
  cases e <;> cases ha
  case storeTrue t hp => exact ⟨t, .inl (.inr (.inl hp))⟩
  case spin t hp _ => exact ⟨t, .inr hp⟩
  case enter t hp _ => exact ⟨t, .inr hp⟩
  case storeFalse t hp => exact ⟨t, .inl (.inl (k.storeFalse t a hp))⟩

theorem private_persists (h : Private s u a) : Private s' u a ∨ l = .exchange u := by
  cases e <;> grind

theorem key_persists (h : s.key u = some a) :
    s'.key u = some a ∨ l = .setspecific u ∨ l = .exit u (some a) := by
  cases e <;> grind

theorem destroyed_of_not (h : s'.destroyed = false) : s.destroyed = false := by
  cases e <;> grind

end

theorem not_live_of_malloc (e : Step s (.malloc t a) s') : s.heap.live a = false := by
  cases e; assumption

theorem not_destroyed_of_malloc (e : Step s (.malloc t a) s') (k : Keyed s) : s.destroyed = false := by
  have := k.joined
  cases e; grind

theorem private_of_malloc (e : Step s (.malloc t a) s') : Private s' t a := by
  cases e; grind

theorem private_of_setspecific (e : Step s (.setspecific t) s') : ∃ a, Private s' t a := by
  cases e
  case setspecific a _ => exact ⟨a, by grind⟩

theorem key_of_exchange (e : Step s (.exchange t) s') (k : Keyed s) : s'.key t = some s'.tail := by
  have hk := k.exchange
  cases e; grind

theorem private_of_exchange (e : Step s (.exchange t) s') : Private s t s'.tail := by
  cases e; grind

theorem not_private_of_exchange (e : Step s (.exchange t) s') : ¬Private s' t a := by
  cases e; grind

end Step

namespace Owned

variable (h : Owned s) (k : Keyed s) (hw : Unwatched s l) (e : Step s l s')

include h k e

-- A thread keeps its nodes.
theorem live_of_owns (ho : Owns s' u a) : s'.heap.live a = true := by
  refine e.live_iff.mpr ?_
  rcases e.owns_or ho with hs | hm
  · refine .inl ⟨h.live u a hs, fun hf => ?_⟩
    rcases e.free_or hf with ⟨v, -, hv, hn⟩ | ⟨-, -, -, he⟩
    · exact hn a (h.unique u v a hs hv ▸ ho)
    · exact k.not_owns (he u) hs
  · exact .inr ⟨u, hm⟩

omit k in
theorem owner_unique (ht : Owns s' t a) (hu : Owns s' u a) : t = u := by
  have hn {w : Tid} (hm : l = .malloc w a) : s.heap.live a ≠ true := by
    subst hm
    simp [e.not_live_of_malloc]
  rcases e.owns_or ht with hst | hmt <;> rcases e.owns_or hu with hsu | hmu
  · exact h.unique t u a hst hsu
  · exact absurd (h.live t a hst) (hn hmu)
  · exact absurd (h.live u a hsu) (hn hmt)
  · cases hmt.symm.trans hmu
    rfl

include hw

-- Nobody spins on a node that is freed.
theorem live_of_pred (hp : s'.pc u = .spin a) : s'.heap.live a = true := by
  refine e.live_iff.mpr (.inl ?_)
  rcases e.pred_or hp with hs | ⟨rfl, rfl⟩
  · refine ⟨h.pred u a hs, fun hf => ?_⟩
    rcases e.free_or hf with ⟨v, rfl, -, -⟩ | ⟨-, -, -, he⟩
    · exact (hw a rfl).2 u hs
    · simp [he u] at hs
  · refine ⟨h.tail ?_, nofun⟩
    by_contra hd
    have := k.joined (by simpa using hd) u
    grind [e.private_of_exchange]

omit k in
theorem live_tail (hd : s'.destroyed = false) : s'.heap.live s'.tail = true := by
  refine e.live_iff.mpr (.inl ?_)
  rcases e.tail_or with ht | ⟨u, rfl, hu⟩
  · rw [ht]
    refine ⟨h.tail (e.destroyed_of_not hd), fun hf => ?_⟩
    rcases e.free_or hf with ⟨v, rfl, -, -⟩ | ⟨-, -, hd', -⟩
    · exact (hw _ rfl).1 rfl
    · simp [hd] at hd'
  · exact ⟨h.live u _ (.inr hu), nofun⟩

omit hw

-- A node is not known to others before its owner exchanges `tail` with it.
theorem hidden_of_private (hp : Private s' t a) : a ≠ s'.tail ∧ ∀ u, s'.pc u ≠ .spin a := by
  rcases e.private_or hp with hs | rfl
  · have ⟨ht, hu⟩ := h.hidden t a hs
    refine ⟨?_, fun u hp => (e.pred_or hp).elim (hu u) fun ⟨_, ha⟩ => ht ha⟩
    rintro rfl
    rcases e.tail_or with he | ⟨u, rfl, hu⟩
    · exact ht he
    · cases h.unique t u _ (.inr hs) (.inr hu)
      exact e.not_private_of_exchange hp
  · have hl := e.not_live_of_malloc
    have hd := h.tail (e.not_destroyed_of_malloc k)
    refine ⟨?_, fun u hp => ?_⟩
    · rintro rfl
      rcases e.tail_or with he | ⟨_, he, _⟩
      · simp [he, hd] at hl
      · cases he
    · have := (e.pred_or hp).elim (h.pred u a) fun ⟨he, _⟩ => nomatch he
      simp [this] at hl

include hw

theorem step : Owned s' where
  live _ _ := h.live_of_owns k e
  unique _ _ _ := h.owner_unique e
  pred _ _ := h.live_of_pred k hw e
  tail := h.live_tail hw e
  hidden _ _ := h.hidden_of_private k e

end Owned

variable {heap : Heap Addr Bool} {ls : List (Label Tid Addr)}

theorem keyed_of_reachable (r : (clh Tid heap).Reachable s) : Keyed s := by
  refine r.invariant (fun s h => ?_) fun _ _ _ _ h e => h.step e
  obtain ⟨dummy, _, rfl⟩ := h
  exact ⟨nofun, nofun, nofun, nofun⟩

theorem owned_of_reachable (r : ((clh Tid heap).restrict Unwatched).Reachable s) : Owned s := by
  refine r.invariant (fun s h => ?_) fun s _ _ r h e =>
    h.step (keyed_of_reachable r.of_restrict) e.1 e.2
  obtain ⟨dummy, _, rfl⟩ := h
  have hn (t : Tid) (a : Addr) : ¬Owns (clhLockInit heap dummy) t a := by
    simp [Owns, Private, clhLockInit]
  refine ⟨fun t a h => absurd h (hn t a), fun t _ a h => absurd h (hn t a), nofun, fun _ => ?_,
    fun t a h => absurd (.inr h) (hn t a)⟩
  simp [clhLockInit]

theorem Owned.safe (h : Owned s) (k : Keyed s) (e : Step s l s') : Safe s l where
  access a ha :=
    have ⟨t, ht⟩ := e.access_or k ha
    ht.elim (h.live t a) (h.pred t a)
  free a hf :=
    match e.free_or hf with
    | .inl ⟨t, _, ht, _⟩ => h.live t a ht
    | .inr ⟨ha, hd, _⟩ => ha ▸ h.tail hd

-- Some thread still owns the last node, or has freed it.
def Spent (s : State Tid Addr) : Prop :=
  (∃ t, s.key t = some s.tail) ∨ (∃ t a, Private s t a) ∨ s.heap.live s.tail = false

theorem Spent.step (h : Spent s) (k : Keyed s) (e : Step s l s') : Spent s' := by
  rcases e.tail_or with ht | ⟨u, rfl, -⟩
  case inr => exact .inl ⟨u, e.key_of_exchange k⟩
  rcases h with ⟨u, hu⟩ | ⟨u, a, hu⟩ | hl
  · rcases e.key_persists hu with hu | rfl | rfl
    · exact .inl ⟨u, ht ▸ hu⟩
    · exact .inr (.inl ⟨u, e.private_of_setspecific⟩)
    · refine .inr (.inr (Bool.eq_false_iff.mpr fun hl => ?_))
      rcases e.live_iff.mp (ht ▸ hl) with ⟨_, hf⟩ | ⟨_, he⟩
      · exact hf rfl
      · cases he
  · rcases e.private_persists hu with hu | rfl
    · exact .inr (.inl ⟨u, a, hu⟩)
    · exact .inl ⟨u, e.key_of_exchange k⟩
  · cases hl' : s'.heap.live s'.tail
    case false => exact .inr (.inr hl')
    case true =>
      rcases e.live_iff.mp (ht ▸ hl') with ⟨hl', _⟩ | ⟨u, rfl⟩
      · simp [hl] at hl'
      · exact .inr (.inl ⟨u, _, e.private_of_malloc⟩)

theorem spent_of_run (r : (clh Tid heap).Run ls s) (h : .exchange t ∈ ls) : Spent s := by
  induction r
  case init => cases h
  case step r e hi =>
    have k := keyed_of_reachable r.reachable
    rcases List.mem_append.mp h with h | h
    · exact (hi h).step k e
    · cases List.mem_singleton.mp h
      exact .inl ⟨t, e.key_of_exchange k⟩

-- While threads exit only when nobody can get at their last nodes, only live nodes are accessed and
-- freed, and `tail` points to a live one. Once a thread has taken the lock, this cannot last until the
-- end: the node that `clh_lock_destroy` frees has been freed before.
theorem clh_lifetime (heap : Heap Addr Bool) :
    (∀ ls s, ((clh Tid heap).restrict Unwatched).Run ls s →
      (∀ l s', (clh Tid heap).Step s l s' → Safe s l) ∧
      (s.destroyed = false → s.heap.live s.tail = true)) ∧
    ∀ ls s s' t a, (clh Tid heap).Run ls s → .exchange (t : Tid) ∈ ls → (clh Tid heap).Step s (.destroy a) s' →
      s.heap.live a = false := by
  refine ⟨fun ls s r => ?safe, fun ls s s' t a r ht e => ?destroy⟩
  case safe =>
    have h := owned_of_reachable r.reachable
    exact ⟨fun l s' e => h.safe (keyed_of_reachable r.of_restrict.reachable) e, h.tail⟩
  case destroy =>
    have k := keyed_of_reachable r.reachable
    have hs := spent_of_run r ht
    cases e
    case destroy hx _ =>
      have hn (u : Tid) (b : Addr) : ¬Owns s u b := k.not_owns (hx u)
      rcases hs with ⟨u, hu⟩ | ⟨u, b, hu⟩ | hl
      · exact absurd (.inl hu) (hn u _)
      · exact absurd (.inr hu) (hn u b)
      · exact hl

def noObjects : Heap Nat Bool where
  live _ := false
  val _ := false

-- A single thread takes the lock and exits before the lock is destroyed.
theorem exists_destroy_after_exit :
    ∃ ls s s', (clh Unit noObjects).Run ls s ∧ .exchange () ∈ ls ∧
      (clh _ noObjects).Step s (.destroy 1) s' ∧ s.heap.live 1 = false := by
  have r := System.Run.init (S := clh Unit noObjects) ⟨0, rfl, rfl⟩
  have r := r.step (.malloc (t := ()) (a := 1) (v := false) rfl rfl)
  have r := r.step (.storeTrue (t := ()) rfl)
  have r := r.step (.setspecific (t := ()) rfl)
  have r := r.step (.exchange (t := ()) rfl)
  have r := r.step (.enter (t := ()) rfl rfl)
  have r := r.step (.getspecific (t := ()) rfl)
  have r := r.step (.storeFalse (t := ()) rfl)
  have r := r.step (.exit (t := ()) rfl)
  exact ⟨_, _, _, r, by simp, .destroy (fun _ => rfl) rfl, rfl⟩

-- The first thread exits after the second one has queued up behind it and left again.
theorem clh_lifetime_unwatched :
    (∃ ls s, ((clh (Fin 2) noObjects).restrict Unwatched).Run ls s ∧ s.pc 0 = .exited ∧
      s.heap.live s.tail = true) ∧
    ∃ ls s s', (clh Unit noObjects).Run ls s ∧
      (clh _ noObjects).Step s (.destroy 1) s' ∧ s.heap.live 1 = false := by
  have r := System.Run.init (S := (clh (Fin 2) noObjects).restrict Unwatched) ⟨0, rfl, rfl⟩
  have r := r.step ⟨by trivial, .malloc (t := 0) (a := 1) (v := false) rfl rfl⟩
  have r := r.step ⟨by trivial, .storeTrue (t := 0) rfl⟩
  have r := r.step ⟨by trivial, .setspecific (t := 0) rfl⟩
  have r := r.step ⟨by trivial, .exchange (t := 0) rfl⟩
  have r := r.step ⟨by trivial, .enter (t := 0) rfl rfl⟩
  have r := r.step ⟨by trivial, .malloc (t := 1) (a := 2) (v := false) rfl rfl⟩
  have r := r.step ⟨by trivial, .storeTrue (t := 1) rfl⟩
  have r := r.step ⟨by trivial, .setspecific (t := 1) rfl⟩
  have r := r.step ⟨by trivial, .exchange (t := 1) rfl⟩
  have r := r.step ⟨by trivial, .getspecific (t := 0) rfl⟩
  have r := r.step ⟨by trivial, .storeFalse (t := 0) rfl⟩
  have r := r.step ⟨by trivial, .enter (t := 1) rfl rfl⟩
  have r := r.step ⟨?unwatched, .exit (t := 0) rfl⟩
  case unwatched =>
    intro b hb
    cases hb
    exact ⟨nofun, Fin.forall_fin_two.mpr ⟨nofun, nofun⟩⟩
  have ⟨_, _, _, r', ht, e, _⟩ := exists_destroy_after_exit
  exact ⟨⟨_, _, r, rfl, ((clh_lifetime noObjects).1 _ _ r).2 rfl⟩,
    ⟨_, _, _, r', e, (clh_lifetime noObjects).2 _ _ _ _ _ r' ht e⟩⟩

theorem not_clh_lifetime :
    ¬∀ s, (clh Unit noObjects).Reachable s →
      (∀ l s', (clh _ noObjects).Step s l s' → Safe s l) ∧
      (s.destroyed = false → s.heap.live s.tail = true) := by
  intro h
  have ⟨_, s, s', r, _, e, hl⟩ := exists_destroy_after_exit
  have hs := ((h s r.reachable).1 _ s' e).free 1 rfl
  simp [hl] at hs

end Sel4

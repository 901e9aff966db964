import OrderingBugs.Memory.Resource
import OrderingBugs.Memory.Inclusion
import OrderingBugs.Lock.Adjacent

open Function

-- The CLH lock of seL4 as it is given to CBMC (`CBMC/Layer1/3-sel4-dynamic.c`). A node is that of a
-- thread, or the dummy node.
namespace Sel4.Cbmc

inductive Loc (Tid : Type)
  | tail
  | locked (n : Option Tid)
  | cs
  deriving DecidableEq

abbrev Val (Tid : Type) : Loc Tid → Type
  | .tail => Option Tid
  | .locked _ => Bool
  | .cs => Int

inductive LockPc (Tid : Type)
  | storeTrue
  | exchange
  | assume (pred : Option Tid)
  deriving DecidableEq

inductive Pc (Tid : Type)
  | lock (pc : LockPc Tid)
  | loadIncr
  | storeIncr (r : Int)
  | assert
  | loadDecr
  | storeDecr (r : Int)
  | unlock
  | returned
  | failed
  deriving DecidableEq

section Program

variable {L : Type}

-- `clh_lock`, where `__CPROVER_assume` waits for its condition
def clhLock (myNode : Option Tid) (k : LockPc Tid → L) (ret : L) : LockPc Tid → Op (Loc Tid) (Val Tid) L
  | .storeTrue => .store .plain (.locked myNode) true (k .exchange)
  | .exchange => .rmw .acquire .tail (fun _ => myNode) fun pred => k (.assume pred)
  | .assume pred => .load .plain (.locked pred) fun v => if v then k (.assume pred) else ret

-- `clh_unlock`
def clhUnlock (myNode : Option Tid) (ret : L) : Op (Loc Tid) (Val Tid) L :=
  .store .plain (.locked myNode) false ret

end Program

-- `thread_func`, which ends when its assertion fails
def threadFunc : Program Tid (Loc Tid) (Val Tid) (Pc Tid)
  | t, .lock pc => clhLock (some t) .lock .loadIncr pc
  | _, .loadIncr => .load .plain .cs .storeIncr
  | _, .storeIncr r => .store .plain .cs (r + 1) .assert
  | _, .assert => .load .plain .cs fun r => if r = 1 then .loadDecr else .failed
  | _, .loadDecr => .load .plain .cs .storeDecr
  | _, .storeDecr r => .store .plain .cs (r - 1) .unlock
  | t, .unlock => clhUnlock (some t) .returned
  | _, .returned | _, .failed => .halt

-- The lock after `clh_lock_init`, with what the nodes on the stacks of the threads contain.
def start (nodes : Tid → Bool) : Mem (Val Tid)
  | .tail => none
  | .locked none => false
  | .locked (some t) => nodes t
  | .cs => 0

variable {Tid : Type} [DecidableEq Tid]

abbrev State (Tid : Type) [DecidableEq Tid] :=
  Machine.State (.fifo (Val Tid)) Tid (Pc Tid)

def tso (nodes : Tid → Bool) : System (State Tid) (Machine.Label Tid (Loc Tid) (Pc Tid)) :=
  Machine.system _ .flushing threadFunc (start nodes) fun _ => .lock .storeTrue

def interleaved (nodes : Tid → Bool) :
    System (Interleaving.State (Val Tid) Tid (Pc Tid)) (Interleaving.Label Tid (Pc Tid)) :=
  Interleaving.system threadFunc (start nodes) fun _ => .lock .storeTrue

-- The thread has found its predecessor's node unlocked and not yet unlocked its own one.
def Pc.Entered : Pc Tid → Prop
  | lock _ | returned => False
  | _ => True

-- The thread has entered, and its last store has not reached memory.
def Owns (t : Tid) (pc : Pc Tid) (b : (Buffering.fifo (Val Tid)).Buf) : Prop :=
  pc.Entered ∨ (pc = .returned ∧ (Buffering.fifo (Val Tid)).pending b (.locked (some t)) ≠ [])

def Inside (t : Tid) (pc : Pc Tid) (b : (Buffering.fifo (Val Tid)).Buf) : Prop :=
  (∃ p, pc = .lock (.assume p)) ∨ Owns t pc b

-- What memory and the buffer of the thread contain of its own node.
def Node (v : Bool) (q : List Bool) : Pc Tid → Prop
  | .lock .storeTrue => q = []
  | .lock .exchange => q = [true] ∨ (q = [] ∧ v = true)
  | .returned => (q = [false] ∧ v = true) ∨ (q = [] ∧ v = false)
  | _ => q = [] ∧ v = true

-- The buffer of a thread holds no stores to variables that the thread does not store to, and when it
-- contains the store with which the thread unlocks its node, this is the last one.
structure Shape (t : Tid) (m : Mem (Val Tid)) (pc : Pc Tid) (b : (Buffering.fifo (Val Tid)).Buf) :
    Prop where
  tail  : (Buffering.fifo (Val Tid)).pending b .tail = []
  other : ∀ n, n ≠ some t → (Buffering.fifo (Val Tid)).pending b (.locked n) = []
  own   : Node (m (.locked (some t))) ((Buffering.fifo (Val Tid)).pending b (.locked (some t))) pc
  last  : pc = .returned → b = ([] : List (Buffering.Entry (Val Tid))) ∨
    List.getLast? b = some ⟨.locked (some t), false⟩

-- The queue that the nodes form behind a node `d` that has been unlocked. Each thread waits for the node
-- in front of its own one.
structure Queued (d : Option Tid) (q : List (Option Tid)) (s : State Tid) : Prop where
  nodup : (d :: q).Nodup
  dummy : none ∉ q
  mem   : ∀ t, some t ∈ q ↔ Inside t (s.threads t) (s.buf t)
  tail  : (d :: q).getLast? = some (s.mem .tail)
  edge  : ∀ p t, (d :: q).Adjacent p (some t) →
    s.threads t = .lock (.assume p) ∨ (p = d ∧ Owns t (s.threads t) (s.buf t))
  free  : s.mem (.locked d) = false ∧ ∀ t, d = some t → s.threads t = .returned
  shape : ∀ t, Shape t s.mem (s.threads t) (s.buf t)

namespace Shape

variable {t : Tid} {m m' : Mem (Val Tid)} {pc pc' : Pc Tid} {b b' : (Buffering.fifo (Val Tid)).Buf}

theorem frame (h : Shape t m pc b) (hm : m' (.locked (some t)) = m (.locked (some t))) : Shape t m' pc b where
  __ := h
  own := hm ▸ h.own

theorem last_of_pop {x : Loc Tid} {v : Val Tid x} (h : Shape t m pc b) (hp : pc = .returned)
    (hb : (Buffering.fifo (Val Tid)).pop b x = some (v, b')) :
    b' = ([] : List (Buffering.Entry (Val Tid))) ∨ List.getLast? b' = some ⟨.locked (some t), false⟩ := by
  have hb := Buffering.fifo_pop hb
  change List (Buffering.Entry (Val Tid)) at b'
  cases b'
  case nil => exact .inl rfl
  case cons => exact .inr (by simpa [hb] using h.last hp)

theorem load (h : Shape t m pc b) (hn : ∀ v q, Node v q pc → Node v q pc') (hr : pc' ≠ .returned) :
    Shape t m pc' b where
  __ := h
  own := hn _ _ h.own
  last hp := absurd hp hr

theorem storeCs {v : Int} (h : Shape t m pc b) (hn : ∀ v q, Node v q pc → Node v q pc')
    (hr : pc' ≠ .returned) : Shape t m pc' ((Buffering.fifo _).push b .cs v) where
  tail := (Buffering.pending_push_ne (by simp)).trans h.tail
  other n hn' := (Buffering.pending_push_ne (by simp)).trans (h.other n hn')
  own := by
    rw [Buffering.pending_push_ne (by simp)]
    exact hn _ _ h.own
  last hp := absurd hp hr

theorem storeLocked {v : Bool} (h : Shape t m pc b)
    (hn : Node (m (.locked (some t))) ((Buffering.fifo (Val Tid)).pending b (.locked (some t)) ++ [v]) pc')
    (hr : pc' = .returned → v = false) : Shape t m pc' ((Buffering.fifo _).push b (.locked (some t)) v) where
  tail := (Buffering.pending_push_ne (by simp)).trans h.tail
  other n hn' := (Buffering.pending_push_ne (by simpa using hn')).trans (h.other n hn')
  own := by rwa [Buffering.pending_push_self]
  last hp := .inr (hr hp ▸ List.getLast?_concat)

end Shape

namespace Queued

variable {d p : Option Tid} {q : List (Option Tid)} {s : State Tid} {t u : Tid}
variable {m : Mem (Val Tid)} {b : (Buffering.fifo (Val Tid)).Buf} {pc : Pc Tid}

theorem inside_of_adjacent (h : Queued d q s) (ha : (d :: q).Adjacent p (some t)) :
    Inside t (s.threads t) (s.buf t) :=
  (h.mem t).mp ((List.mem_cons.mp ha.right_mem).resolve_left (ha.ne_head h.nodup))

-- A node in the queue is locked.
theorem locked (h : Queued d q s) {n : Option Tid} (hn : n ∈ q) : s.mem (.locked n) = true := by
  obtain _ | t := n
  case none => exact absurd hn h.dummy
  case some =>
    have hi := (h.mem t).mp hn
    have hs := (h.shape t).own
    cases hp : s.threads t <;> simp only [hp, Node, Inside, Owns, Pc.Entered] at hs hi <;> grind [Node]

theorem exists_adjacent (h : Queued d q s) (ht : some t ∈ q) : ∃ p, (d :: q).Adjacent p (some t) := by
  have hd : some t ≠ d := fun hd => (List.nodup_cons.mp h.nodup).1 (hd ▸ ht)
  exact List.exists_adjacent_of_ne_head (List.mem_cons_of_mem d ht) (by simpa using hd.symm)

-- The thread that owns the lock is the first one.
theorem adjacent_of_owns (h : Queued d q s) (ho : Owns t (s.threads t) (s.buf t)) :
    (d :: q).Adjacent d (some t) := by
  have ⟨p, hp⟩ := h.exists_adjacent ((h.mem t).mpr (.inr ho))
  obtain hw | ⟨rfl, -⟩ := h.edge p t hp
  · simp [hw, Owns, Pc.Entered] at ho
  · exact hp

-- A thread waits for the node in front of its own one.
theorem adjacent_of_assume (h : Queued d q s) (hp : s.threads t = .lock (.assume p)) :
    (d :: q).Adjacent p (some t) := by
  have ht : some t ∈ q := (h.mem t).mpr (.inl ⟨p, hp⟩)
  have ⟨p', ha⟩ := h.exists_adjacent ht
  obtain hw | ⟨-, ho⟩ := h.edge p' t ha
  · cases hp.symm.trans hw
    exact ha
  · simp [hp, Owns, Pc.Entered] at ho

theorem guarded (h : Queued d q s) : Machine.Guarded Owns s := fun _ _ ht hu =>
  Option.some.inj ((h.adjacent_of_owns ht).right_unique (h.adjacent_of_owns hu) h.nodup)

-- Steps that leave the queue as it is.
theorem keep (h : Queued d q s) (ht : m .tail = s.mem .tail)
    (hm : ∀ n, n ≠ some t → m (.locked n) = s.mem (.locked n)) (hf : m (.locked d) = false)
    (hi : Inside t pc b ↔ Inside t (s.threads t) (s.buf t))
    (he : ∀ p, (d :: q).Adjacent p (some t) → pc = .lock (.assume p) ∨ (p = d ∧ Owns t pc b))
    (hr : s.threads t = .returned → pc = .returned) (hs : Shape t m pc b) :
    Queued d q ⟨m, update s.buf t b, update s.threads t pc⟩ where
  nodup := h.nodup
  dummy := h.dummy
  mem := Machine.forall_update (Q := fun u pc b => some u ∈ q ↔ Inside u pc b) ((h.mem t).trans hi.symm)
    fun u _ => h.mem u
  tail := h.tail.trans (congrArg some ht.symm)
  edge p := Machine.forall_update (Q := fun u pc b => (d :: q).Adjacent p (some u) →
    pc = .lock (.assume p) ∨ (p = d ∧ Owns u pc b)) (he p) fun u _ => h.edge p u
  free := ⟨hf, (forall_update_iff s.threads fun u pc => d = some u → pc = .returned).mpr
    ⟨fun hd => hr (h.free.2 t hd), fun u _ => h.free.2 u⟩⟩
  shape := Machine.forall_update (Q := fun u => Shape u m) hs
    fun u hu => (h.shape u).frame (hm (some u) (by simpa using hu))

theorem keep_threads (h : Queued d q s) (ht : m .tail = s.mem .tail)
    (hm : ∀ n, n ≠ some t → m (.locked n) = s.mem (.locked n)) (hf : m (.locked d) = false)
    (hi : Inside t (s.threads t) b ↔ Inside t (s.threads t) (s.buf t))
    (ho : Owns t (s.threads t) (s.buf t) → Owns t (s.threads t) b) (hs : Shape t m (s.threads t) b) :
    Queued d q ⟨m, update s.buf t b, s.threads⟩ := by
  have he p (ha : (d :: q).Adjacent p (some t)) :=
    (h.edge p t ha).imp_right fun ⟨hd, h⟩ => And.intro hd (ho h)
  simpa using h.keep ht hm hf hi he id hs

-- A thread joins the queue behind the last node.
theorem exchange (h : Queued d q s) (hp : s.threads t = .lock .exchange)
    (he : (Buffering.fifo (Val Tid)).Empty (s.buf t)) :
    Queued d (q ++ [some t]) ⟨update s.mem .tail (some t), update s.buf t (s.buf t),
      update s.threads t (.lock (.assume (s.mem .tail)))⟩ := by
  have hs := h.shape t
  have hq : some t ∉ q := by simp [h.mem, hp, Inside, Owns, Pc.Entered]
  have hd : d ≠ some t := fun hd => by simpa [hp] using h.free.2 t hd
  have hv : s.mem (.locked (some t)) = true := by simpa [hp, Node, he (.locked _)] using hs.own
  constructor
  case nodup =>
    rw [← List.cons_append, List.nodup_append]
    simpa [h.nodup] using ⟨hd, fun n hn hnt => hq (hnt ▸ hn)⟩
  case dummy => simp [h.dummy]
  case mem =>
    intro u
    by_cases hu : u = t
    case pos => subst hu; simp [Inside]
    case neg => simpa [hu] using h.mem u
  case tail => rw [← List.cons_append]; exact List.getLast?_concat
  case edge =>
    intro p u ha
    rw [← List.cons_append, List.adjacent_append_singleton_iff] at ha
    obtain ha | ⟨hl, hu⟩ := ha
    · have hu : u ≠ t := by
        rintro rfl
        exact hq ((h.mem u).mpr (h.inside_of_adjacent ha))
      simpa [hu] using h.edge p u ha
    · obtain rfl : u = t := by simpa using hu
      have hp : p = s.mem .tail := Option.some.inj (hl.symm.trans h.tail)
      simp [hp]
  case free =>
    refine ⟨by simpa using h.free.1, fun u hu => ?_⟩
    have hut : u ≠ t := fun hut => hd (hut ▸ hu)
    simpa [hut] using h.free.2 u hu
  case shape =>
    refine Machine.forall_update (Q := fun u => Shape u (update s.mem .tail (some t))) ?_
      fun u _ => (h.shape u).frame (by simp)
    exact ⟨hs.tail, hs.other, by simp [Node, he (.locked _), hv], nofun⟩

-- The first thread leaves the queue when its node is unlocked.
theorem release (h : Queued d q s) (hp : s.threads t = .returned)
    (hb : (Buffering.fifo _).pop (s.buf t) (.locked (some t)) = some (false, b)) :
    ∃ q', Queued (some t) q' ⟨update s.mem (.locked (some t)) false, update s.buf t b, s.threads⟩ := by
  have hpd := Buffering.pending_pop_self hb
  have ho : Owns t (s.threads t) (s.buf t) := .inr ⟨hp, by simp [hpd]⟩
  have ⟨hd, hq⟩ := List.nodup_cons.mp h.nodup
  obtain ⟨q, rfl⟩ : ∃ q', q = some t :: q' := by
    obtain ⟨-, hh⟩ | ha := h.adjacent_of_owns ho
    · exact List.head?_eq_some_iff.mp hh
    · exact absurd ha.left_mem hd
  have ht := (List.nodup_cons.mp hq).1
  have hs := h.shape t
  have hpb : (Buffering.fifo (Val Tid)).pending b (.locked (some t)) = [] := by
    have := hs.own
    simp only [hp, Node, hpd] at this
    exact (by simpa using this : _ ∧ _).1
  refine ⟨q, hq, fun hn => h.dummy (List.mem_cons_of_mem _ hn), fun u => ?mem, ?tail, fun p u ha => ?edge,
    ?free, fun u => ?shape⟩
  case mem =>
    by_cases hu : u = t
    case pos => subst hu; simp [ht, hp, hpb, Inside, Owns, Pc.Entered]
    case neg => simpa [hu] using h.mem u
  case tail => simpa using h.tail
  case edge =>
    have hu : u ≠ t := by
      rintro rfl
      exact ha.ne_head hq rfl
    obtain hw | ⟨rfl, -⟩ := h.edge p u ha.cons
    · exact .inl (by simpa [hu] using hw)
    · exact absurd ha.left_mem hd
  case free =>
    refine ⟨by simp, fun u hu => ?_⟩
    obtain rfl : t = u := by simpa using hu
    exact hp
  case shape =>
    by_cases hu : u = t
    case neg => simpa [hu] using (h.shape u).frame (by simp [hu])
    case pos =>
      subst hu
      have hn (y : Loc Tid) (hy : y ≠ .locked (some u)) := Buffering.pending_pop_ne hb hy
      refine ⟨?_, fun n hn' => ?_, by simp [hp, Node, hpb], fun _ => ?_⟩
      · simpa [hn] using hs.tail
      · simpa [hn, hn'] using hs.other n hn'
      · simpa only [update_self] using hs.last_of_pop hp hb

-- The owner of the lock stays where it is.
theorem entered (h : Queued d q s) (hp : (s.threads t).Entered) (ho : Owns t pc b)
    (hs : Shape t s.mem pc b) : Queued d q ⟨s.mem, update s.buf t b, update s.threads t pc⟩ := by
  refine h.keep rfl (fun _ _ => rfl) h.free.1 ⟨fun _ => .inr (.inl hp), fun _ => .inr ho⟩ (fun p ha => ?_)
    (fun hr => ?_) hs
  · obtain hw | ⟨rfl, -⟩ := h.edge p t ha
    · simp [hw, Pc.Entered] at hp
    · exact .inr ⟨rfl, ho⟩
  · simp [hr, Pc.Entered] at hp

-- What the thread does keeps the queue in order.
theorem move (h : Queued d q s)
    (e : (threadFunc t (s.threads t)).exec (.fifo (Val Tid)) .flushing s.mem (s.buf t) = some (m, b, pc)) :
    ∃ q', Queued d q' ⟨m, update s.buf t b, update s.threads t pc⟩ := by
  have hs := h.shape t
  generalize hp : s.threads t = pc₀ at e hs
  rcases pc₀ with (_ | _ | p) | _ | r | _ | _ | r | _ | _ | _
  case lock.storeTrue =>
    cases e
    refine ⟨q, h.keep rfl (fun _ _ => rfl) h.free.1 ?_ ?_ (by simp [hp]) ?_⟩
    · simp [hp, Inside, Owns, Pc.Entered]
    · intro p hp'
      have := h.inside_of_adjacent hp'
      simp [hp, Inside, Owns, Pc.Entered] at this
    · have hn : (Buffering.fifo (Val Tid)).pending (s.buf t) (.locked (some t)) = [] := hs.own
      exact hs.storeLocked (by simp [hn, Node]) (by simp)
  case lock.exchange =>
    obtain ⟨rfl, rfl, rfl, he⟩ := Op.exec_rmw e
    exact ⟨_, h.exchange hp (he rfl)⟩
  case lock.assume =>
    have ht : some t ∈ q := (h.mem t).mpr (.inl ⟨p, hp⟩)
    have ha : (d :: q).Adjacent p (some t) := h.adjacent_of_assume hp
    have hv : (Buffering.fifo (Val Tid)).view s.mem (s.buf t) (.locked p) = s.mem (.locked p) :=
      Buffering.view_nil (hs.other p (ha.ne h.nodup))
    cases e
    dsimp only
    rw [hv]
    split
    case isTrue =>
      rw [← hp, update_eq_self, update_eq_self]
      exact ⟨q, h⟩
    case isFalse hf =>
      obtain rfl : p = d := by
        by_contra hd
        exact hf (h.locked ((List.mem_cons.mp ha.left_mem).resolve_left hd))
      refine ⟨q, h.keep rfl (fun _ _ => rfl) h.free.1 ?_ (fun p' ha' => ?_) (by simp [hp]) ?_⟩
      · exact ⟨fun _ => .inl ⟨p, hp⟩, fun _ => .inr (.inl trivial)⟩
      · exact .inr ⟨ha'.left_unique ha h.nodup, .inl trivial⟩
      · exact hs.load (fun _ _ => id) (by simp)
  case loadIncr | loadDecr =>
    cases e
    exact ⟨q, h.entered (hp ▸ trivial) (.inl trivial) (hs.load (fun _ _ => id) (by simp))⟩
  case storeIncr | storeDecr =>
    cases e
    exact ⟨q, h.entered (hp ▸ trivial) (.inl trivial) (hs.storeCs (fun _ _ => id) (by simp))⟩
  case assert =>
    cases e
    dsimp only
    split
    all_goals exact ⟨q, h.entered (hp ▸ trivial) (.inl trivial) (hs.load (fun _ _ => id) (by simp))⟩
  case unlock =>
    cases e
    have ⟨hn, hv⟩ : (Buffering.fifo (Val Tid)).pending (s.buf t) (.locked (some t)) = [] ∧
      s.mem (.locked (some t)) = true := hs.own
    refine ⟨q, h.entered (hp ▸ trivial) (.inr ⟨rfl, ?_⟩) (hs.storeLocked ?_ fun _ => rfl)⟩
    · simp [Buffering.pending_push_self]
    · simp [Node, hn, hv]
  case returned | failed => cases e

theorem drain {x : Loc Tid} {v : Val Tid x} (h : Queued d q s)
    (hb : (Buffering.fifo _).pop (s.buf t) x = some (v, b)) :
    ∃ d' q', Queued d' q' ⟨update s.mem x v, update s.buf t b, s.threads⟩ := by
  have hs := h.shape t
  have hx := Buffering.pending_pop_self hb
  have hy (y) (hy : y ≠ x) := Buffering.pending_pop_ne hb hy
  have hl := fun hp => hs.last_of_pop hp hb
  cases x
  case tail => simp [hs.tail] at hx
  case cs =>
    have hn (n : Option Tid) := hy (.locked n) (by simp)
    refine ⟨d, q, h.keep_threads (by simp) (by simp) (by simpa using h.free.1) (by simp [Inside, Owns, hn])
      (by simp [Owns, hn]) ⟨?_, fun n hn' => ?_, ?_, hl⟩⟩
    · exact hy .tail (by simp) ▸ hs.tail
    · exact hn n ▸ hs.other n hn'
    · simpa [hn] using hs.own
  case locked n =>
    obtain rfl : n = some t := by
      by_contra hn
      simp [hs.other n hn] at hx
    have hn := hs.own
    rw [hx] at hn
    by_cases hp : s.threads t = .returned
    case pos =>
      obtain ⟨⟨rfl, -⟩, -⟩ : (v = false ∧ _) ∧ _ := by simpa [hp, Node] using hn
      exact ⟨some t, h.release hp hb⟩
    case neg =>
      have he : s.threads t = .lock .exchange := by
        rcases hp' : s.threads t with (_ | _ | _) | _ | _ | _ | _ | _ | _ | _ | _ <;> simp_all [Node]
      have ⟨hv, hb⟩ : v = true ∧ (Buffering.fifo (Val Tid)).pending b (.locked (some t)) = [] := by
        simpa [he, Node] using hn
      have hd : d ≠ some t := fun hd => hp (h.free.2 t hd)
      refine ⟨d, q, h.keep_threads (by simp) (by simp +contextual) (by simpa [hd] using h.free.1)
        (by simp [he, Inside, Owns]) (by simp [he, Owns]) ⟨?_, fun n hn' => ?_, ?_, hl⟩⟩
      · exact hy .tail (by simp) ▸ hs.tail
      · exact hy (.locked n) (by simpa using hn') ▸ hs.other n hn'
      · simp [he, Node, hb, hv]

end Queued

-- What the owner of the lock finds in `cs`.
def Pc.Expects : Pc Tid → Int → Prop
  | loadIncr, v | unlock, v | returned, v => v = 0
  | storeIncr r, v => r = 0 ∧ v = 0
  | assert, v | loadDecr, v => v = 1
  | storeDecr r, v => r = 1 ∧ v = 1
  | failed, _ => False
  | lock _, _ => True

abbrev Counted (s : State Tid) : Prop :=
  Machine.Resource (x := .cs) Owns Pc.Expects (· = 0) s

section Counted

variable {d : Option Tid} {q : List (Option Tid)} {s : State Tid} {t : Tid} {m : Mem (Val Tid)}
variable {b : (Buffering.fifo (Val Tid)).Buf} {pc : Pc Tid}

open Machine.Resource in
theorem change
    (e : (threadFunc t (s.threads t)).exec (.fifo (Val Tid)) .flushing s.mem (s.buf t) = some (m, b, pc)) :
    Change .cs Owns Pc.Expects (· = 0) t s.mem (s.buf t) (s.threads t) m b pc := by
  generalize s.threads t = pc₀ at e
  rcases pc₀ with (_ | _ | p) | _ | r | _ | _ | r | _ | _ | _
  case lock.storeTrue =>
    cases e
    refine .stay (by simp [Owns, Pc.Entered]) (by simp [Owns, Pc.Entered]) ?_ rfl
    exact (Buffering.pending_push_ne (by simp)).trans
  case lock.exchange =>
    obtain ⟨rfl, rfl, rfl, -⟩ := Op.exec_rmw e
    exact .stay (by simp [Owns, Pc.Entered]) (by simp [Owns, Pc.Entered]) id (by simp)
  case lock.assume =>
    cases e
    dsimp only
    split
    case isTrue => exact .stay (by simp [Owns, Pc.Entered]) (by simp [Owns, Pc.Entered]) id rfl
    case isFalse => exact .acquire (by simp [Owns, Pc.Entered]) (.inl trivial) id rfl id
  case loadIncr | loadDecr =>
    cases e
    exact .hold (.inl trivial) (.inl trivial) fun h => ⟨h, h⟩
  case storeIncr | storeDecr =>
    cases e
    refine .hold (.inl trivial) (.inl trivial) fun h => ?_
    simp [Buffering.view, Buffering.pending_push_self, Pc.Expects, h.1]
  case assert =>
    cases e
    refine .hold (.inl trivial) ?_ fun (h : _ = 1) => ?_
    · dsimp only
      split <;> exact .inl trivial
    · simp [h, Pc.Expects]
  case unlock =>
    cases e
    refine .hold (.inl trivial) (.inr ⟨rfl, by simp [Buffering.pending_push_self]⟩) fun h => ?_
    simpa [Buffering.view, Buffering.pending_push_ne, Pc.Expects] using h
  case returned | failed => cases e

theorem Counted.drain {x : Loc Tid} {v : Val Tid x} (h : Counted s) (hq : Queued d q s)
    (hb : (Buffering.fifo _).pop (s.buf t) x = some (v, b)) :
    Counted ⟨update s.mem x v, update s.buf t b, s.threads⟩ := by
  refine Machine.Resource.drain h hq.guarded hb (fun ho => ?_) fun ho hn => ?_
  · exact ho.imp_right fun ⟨hp, hl⟩ => ⟨hp, mt (Buffering.pending_pop_eq_nil hb) hl⟩
  · obtain ho | ⟨hp, -⟩ := ho
    case inl => exact absurd (.inl ho) hn
    case inr =>
      rw [hp]
      refine ⟨?_, fun _ => id⟩
      obtain rfl | hl := (hq.shape t).last_of_pop hp hb
      · rfl
      · exact absurd (.inr ⟨hp, Buffering.fifo_pending_last hl⟩) hn

end Counted

variable {nodes : Tid → Bool} {s : State Tid}

theorem invariant (r : (tso nodes).Reachable s) : (∃ d q, Queued d q s) ∧ Counted s := by
  refine r.invariant (I := fun s => (∃ d q, Queued d q s) ∧ Counted s) ?init ?step
  case init =>
    intro s hs
    cases hs
    refine ⟨⟨none, [], ?_⟩, ?_⟩
    · constructor
      all_goals simp [Inside, Owns, Pc.Entered, start, List.Adjacent]
      exact fun t => ⟨rfl, fun _ _ => rfl, rfl, by simp⟩
    · exact ⟨fun t ht => absurd rfl ht, fun t ht => trivial, fun _ => rfl⟩
  case step =>
    rintro s l s' - ⟨⟨d, q, hq⟩, hc⟩ e
    cases e
    case move e =>
      obtain ⟨q', hq'⟩ := hq.move e
      exact ⟨⟨d, q', hq'⟩, hc.change hq.guarded hq'.guarded (change e)⟩
    case drain hb => exact ⟨hq.drain hb, hc.drain hq hb⟩

-- The assertion holds of every thread that reaches it, with total store order and hence also under
-- interleaving.
theorem assert_holds (nodes : Tid → Bool) :
    (∀ s, (tso nodes).Reachable s → ∀ t, s.threads t ≠ .failed) ∧
    (∀ s, (interleaved nodes).Reachable s → ∀ t, s.threads t ≠ .failed) := by
  have htso (s) (r : (tso nodes).Reachable s) (t) : s.threads t ≠ .failed := by
    intro hp
    have ⟨_, hc⟩ := invariant r
    have := hc.held t (.inl (hp ▸ trivial))
    rw [hp] at this
    exact this
  refine ⟨htso, fun s r t => ?_⟩
  have ⟨s', r', _, hs, _⟩ := (Machine.ofInterleaving (.fifo (Val Tid)) .flushing threadFunc (start nodes) _
    (C := fun _ _ => True) (fun _ _ _ _ _ => trivial) fun _ _ _ => trivial).reachable r
  exact hs ▸ htso s' r'.of_restrict t

end Sel4.Cbmc

import OrderingBugs.Transition.Exact
import OrderingBugs.Memory.Interleaving
import OrderingBugs.Memory.Machine

open Function Buffering

-- The test that looks for double allocations in the pool (`7-OpenBLAS_genmc.c`), with a pool of any size.
namespace OpenBlas.Genmc

inductive Loc
  | memoryPool (i : Nat)
  deriving DecidableEq

abbrev Val (_ : Loc) : Type :=
  Int

-- There is no allocated position while it is -1.
inductive Pc
  | check (i : Nat)
  | load (i : Nat)
  | store (i : Nat)
  | assert (allocatedPos : Nat)
  | returned (allocatedPos : Option Nat)
  | failed (allocatedPos : Nat)
  deriving DecidableEq

-- `thread_allocate`
def threadAllocate (numBuffers : Nat) : Pc → Op Loc Val Pc
  | .check i => .skip (if i < numBuffers then .load i else .returned none)
  | .load i => .load .relaxed (.memoryPool i) fun state =>
    if state = 0 then .store i else .check (i + 1)
  | .store i => .store .relaxed (.memoryPool i) 1 (.assert i)
  | .assert i => .load .relaxed (.memoryPool i) fun state =>
    if state = 1 then .returned (some i) else .failed i
  | .returned _ | .failed _ => .halt

def start : Mem Val
  | .memoryPool _ => 0

variable (Tid : Type) [DecidableEq Tid] (numBuffers : Nat)

def interleaved : System (Interleaving.State Val Tid Pc) (Interleaving.Label Tid Pc) :=
  Interleaving.system (fun _ => threadAllocate numBuffers) start fun _ => .check 0

abbrev State :=
  Machine.State (unordered Val) Tid Pc

def pso : System (State Tid) (Machine.Label Tid Loc Pc) :=
  Machine.system _ .weak (fun _ => threadAllocate numBuffers) start fun _ => .check 0

-- The position that a thread has finished its scan with.
def Pc.allocated : Pc → Option Nat
  | check _ | load _ | store _ => none
  | assert i | failed i => some i
  | returned p => p

variable {Tid}

-- Two threads have been given the same position.
def Double (f : Tid → Pc) : Prop :=
  ∃ t u i, t ≠ u ∧ (f t).allocated = some i ∧ (f u).allocated = some i

def Fails (f : Tid → Pc) : Prop :=
  ∃ t i, f t = .failed i

-- A position is taken only while memory shows it as free, and nobody has taken it without memory showing this.
def TakesFree (s : Interleaving.State Val Tid Pc) (l : Interleaving.Label Tid Pc) : Prop :=
  ∀ i, l.2.1 = .store i → s.mem (.memoryPool i) = 0

def TakesFreePso (s : State Tid) : Machine.Label Tid Loc Pc → Prop
  | .move _ pc _ => ∀ i, pc = .store i →
    s.mem (.memoryPool i) = 0 ∧ ∀ u, (unordered Val).pending (s.buf u) (.memoryPool i) = []
  | .drain .. => True

variable {numBuffers} {f : Tid → Pc} {t : Tid} {pc pc' : Pc} {i : Nat} {taken taken' : Nat → Prop}

-- The positions that are taken are those that threads have been given, and no assertion has failed.
structure Matches (taken : Nat → Prop) (f : Tid → Pc) : Prop where
  taken  : ∀ i, taken i ↔ ∃ t, (f t).allocated = some i
  passes : ∀ t i, f t ≠ .failed i

-- A step of a thread as far as allocations are concerned.
inductive Change (pc pc' : Pc) (taken taken' : Nat → Prop) : Prop
  | stay : (∀ i, pc ≠ .store i) → pc'.allocated = pc.allocated → (∀ i, taken' i ↔ taken i) → Change ..
  | take (i : Nat) : pc = .store i → pc' = .assert i → (∀ j, taken' j ↔ taken j ∨ j = i) → Change ..

theorem Matches.change (h : Matches taken f) (hc : Change (f t) pc taken taken')
    (hp : ∀ i, pc ≠ .failed i) : Matches taken' (update f t pc) := by
  refine ⟨fun i => ?_, (forall_update_iff f fun _ pc => ∀ i, pc ≠ .failed i).mpr
    ⟨hp, fun u _ => h.passes u⟩⟩
  have hu : (∃ u, (update f t pc u).allocated = some i) ↔
      pc.allocated = some i ∨ ∃ u, u ≠ t ∧ (f u).allocated = some i :=
    exists_update_iff f fun _ pc => pc.allocated = some i
  have ht : (∃ u, (f u).allocated = some i) ↔
      (f t).allocated = some i ∨ ∃ u, u ≠ t ∧ (f u).allocated = some i := by
    simpa using exists_update_iff (a := t) f (b := f t) fun _ pc => pc.allocated = some i
  rw [hu]
  cases hc
  case stay _ ha ht' => rw [ht', h.taken, ht, ha]
  case take j hj hj' ht' =>
    rw [ht', h.taken, ht, hj, hj']
    simp [Pc.allocated, or_comm, eq_comm]

-- A position is given out twice when it is taken once more.
theorem Matches.double_iff (h : Matches taken f) (hc : Change (f t) pc taken taken') :
    Double (update f t pc) ↔ Double f ∨ ∃ i, f t = .store i ∧ taken i := by
  cases hc
  case stay hn ha _ =>
    have hv (u : Tid) : (update f t pc u).allocated = (f u).allocated := by
      by_cases hu : u = t
      case pos => subst hu; simpa using ha
      case neg => simp [hu]
    simp [Double, hv, hn]
  case take i hi hp _ =>
    have ht : (f t).allocated = none := hi ▸ rfl
    have hn : (update f t pc t).allocated = some i := by simp [hp, Pc.allocated]
    have hv (u : Tid) (hu : u ≠ t) : (update f t pc u).allocated = (f u).allocated := by simp [hu]
    constructor
    case mp =>
      rintro ⟨u, w, j, hne, hu, hw⟩
      by_cases hut : u = t <;> by_cases hwt : w = t
      · exact absurd (hut.trans hwt.symm) hne
      · obtain rfl : i = j := by simpa [hut, hp, Pc.allocated] using hu
        exact .inr ⟨i, hi, (h.taken i).mpr ⟨w, hv w hwt ▸ hw⟩⟩
      · obtain rfl : i = j := by simpa [hwt, hp, Pc.allocated] using hw
        exact .inr ⟨i, hi, (h.taken i).mpr ⟨u, hv u hut ▸ hu⟩⟩
      · exact .inl ⟨u, w, j, hne, hv u hut ▸ hu, hv w hwt ▸ hw⟩
    case mpr =>
      have hne (u : Tid) (j : Nat) (hu : (f u).allocated = some j) : u ≠ t := by
        rintro rfl
        cases ht.symm.trans hu
      rintro (⟨u, w, j, huw, hu, hw⟩ | ⟨j, hj, htk⟩)
      · exact ⟨u, w, j, huw, (hv u (hne u j hu)).trans hu, (hv w (hne w j hw)).trans hw⟩
      · obtain rfl : i = j := by simpa [hi] using hj
        obtain ⟨u, hu⟩ := (h.taken i).mp htk
        exact ⟨u, t, i, hne u i hu, (hv u (hne u i hu)).trans hu, hn⟩

-- Memory shows the positions that are taken, or will show them.
def Marked (m : Mem Val) (i : Nat) : Prop :=
  m (.memoryPool i) ≠ 0

def Taken {B : Buffering Loc Val} (m : Mem Val) (b : Tid → B.Buf) (i : Nat) : Prop :=
  Marked m i ∨ ∃ t, B.pending (b t) (.memoryPool i) ≠ []

theorem marked_update {m : Mem Val} {j : Nat} :
    Marked (update m (.memoryPool i) 1) j ↔ Marked m j ∨ j = i := by
  by_cases h : j = i <;> simp [Marked, h]

section Taken

variable {B : Buffering Loc Val} {m : Mem Val} {g : Tid → B.Buf} {b : B.Buf} {v : Int} {j : Nat}

-- The buffer of one thread and those of the others.
theorem taken_iff :
    Taken m g j ↔ Marked m j ∨ B.pending (g t) (.memoryPool j) ≠ [] ∨
      ∃ u, u ≠ t ∧ B.pending (g u) (.memoryPool j) ≠ [] := by
  simpa [Taken] using or_congr_right
    (exists_update_iff g (a := t) (b := g t) fun _ b => B.pending b (.memoryPool j) ≠ [])

theorem taken_update_iff {m' : Mem Val} :
    Taken m' (update g t b) j ↔ Marked m' j ∨ B.pending b (.memoryPool j) ≠ [] ∨
      ∃ u, u ≠ t ∧ B.pending (g u) (.memoryPool j) ≠ [] :=
  or_congr_right (exists_update_iff g fun _ b => B.pending b (.memoryPool j) ≠ [])

theorem taken_push :
    Taken m (update g t (B.push (g t) (.memoryPool i) 1)) j ↔ Taken m g j ∨ j = i := by
  rw [taken_update_iff, taken_iff (t := t)]
  by_cases h : j = i
  case pos => subst h; simp [pending_push_self]
  case neg =>
    have hn : Loc.memoryPool j ≠ .memoryPool i := by simpa
    simp [h, pending_push_ne hn]

theorem taken_pop (h : B.pop (g t) (.memoryPool i) = some (v, b)) (hv : v = 1) :
    Taken (update m (.memoryPool i) v) (update g t b) j ↔ Taken m g j := by
  subst hv
  rw [taken_update_iff, taken_iff (t := t), marked_update]
  by_cases hj : j = i
  case pos => subst hj; simp [pending_pop_self h]
  case neg =>
    have hn : Loc.memoryPool j ≠ .memoryPool i := by simpa
    simp [hj, pending_pop_ne h hn]

end Taken

namespace Interleaved

variable {s s' : Interleaving.State Val Tid Pc} {l : Interleaving.Label Tid Pc}

structure Sound (s : Interleaving.State Val Tid Pc) : Prop where
  allocated : Matches (Marked s.mem) s.threads
  memory    : ∀ i, s.mem (.memoryPool i) = 0 ∨ s.mem (.memoryPool i) = 1

namespace Sound

omit [DecidableEq Tid] in
theorem init : Sound (⟨start, fun _ : Tid => .check 0⟩ : Interleaving.State Val Tid Pc) := by
  refine ⟨⟨fun i => ?_, nofun⟩, fun i => .inl rfl⟩
  simp [Marked, start, Pc.allocated]

theorem step (h : Sound s) (e : (interleaved Tid numBuffers).Step s l s') :
    Sound s' ∧ (Double s'.threads ↔ Double s.threads ∨ ¬TakesFree s l) := by
  cases e
  case move t m pc e =>
    have hm := h.memory
    obtain ⟨hc, hp, hm'⟩ : Change (s.threads t) pc (Marked s.mem) (Marked m) ∧
        (∀ i, pc ≠ .failed i) ∧ ∀ i, m (.memoryPool i) = 0 ∨ m (.memoryPool i) = 1 := by
      generalize ht : s.threads t = pc' at e
      cases pc' <;> cases e
      case check i => split <;> exact ⟨.stay nofun rfl fun _ => .rfl, nofun, hm⟩
      case load i =>
        dsimp only
        split <;> exact ⟨.stay nofun rfl fun _ => .rfl, nofun, hm⟩
      case store i => exact ⟨.take i rfl rfl fun _ => marked_update, nofun, by grind [update]⟩
      case assert i =>
        have hi : s.mem (.memoryPool i) = 1 :=
          (hm i).resolve_left ((h.allocated.taken i).mpr ⟨t, ht ▸ rfl⟩)
        simp only [hi, if_true]
        exact ⟨.stay nofun rfl fun _ => .rfl, nofun, hm⟩
    refine ⟨⟨h.allocated.change hc hp, hm'⟩, ?_⟩
    rw [h.allocated.double_iff hc]
    simp [TakesFree, Marked]

theorem of_reachable (r : (interleaved Tid numBuffers).Reachable s) : Sound s :=
  r.invariant (fun _ hs => by cases hs; exact init) fun _ _ _ _ h e => (h.step e).1

end Sound
end Interleaved

namespace Pso

variable {s s' : State Tid} {l : Machine.Label Tid Loc Pc}

structure Sound (s : State Tid) : Prop where
  allocated : Matches (Taken s.mem s.buf) s.threads
  memory    : ∀ i, s.mem (.memoryPool i) = 0 ∨ s.mem (.memoryPool i) = 1
  pending   : ∀ t i, ∀ v ∈ (unordered Val).pending (s.buf t) (.memoryPool i), v = 1
  own       : ∀ t i, (s.threads t).allocated = some i →
    s.mem (.memoryPool i) = 1 ∨ (unordered Val).pending (s.buf t) (.memoryPool i) ≠ []

namespace Sound

omit [DecidableEq Tid] in
theorem init : Sound (⟨start, fun _ => (unordered Val).empty, fun _ => .check 0⟩ : State Tid) := by
  refine ⟨⟨fun i => ?_, nofun⟩, fun i => .inl rfl, nofun, nofun⟩
  simp [Taken, Marked, start, Pc.allocated, (unordered Val).pending_empty]

omit [DecidableEq Tid] in
-- A thread reads what it has stored, as nobody stores anything else.
theorem view_eq (h : Sound s) (ht : (s.threads t).allocated = some i) :
    (unordered Val).view s.mem (s.buf t) (.memoryPool i) = 1 := by
  obtain ⟨hp, hv⟩ | hv := view_cases _ s.mem (s.buf t) (.memoryPool i)
  · exact hv.trans ((h.own t i ht).resolve_right (not_not_intro hp))
  · exact h.pending t i _ hv

-- A step that leaves memory and buffers alone.
theorem stay (h : Sound s) (hn : ∀ i, s.threads t ≠ .store i) (hp : ∀ i, pc ≠ .failed i)
    (ha : pc.allocated = (s.threads t).allocated) :
    Sound ⟨s.mem, update s.buf t (s.buf t), update s.threads t pc⟩ ∧
      (Double (update s.threads t pc) ↔ Double s.threads) := by
  have hc : Change (s.threads t) pc (Taken s.mem s.buf) (Taken s.mem s.buf) := .stay hn ha fun _ => .rfl
  rw [update_eq_self]
  refine ⟨⟨h.allocated.change hc hp, h.memory, h.pending, fun u i hu => h.own u i ?_⟩, ?_⟩
  · by_cases hut : u = t
    case pos => subst hut; rw [← ha]; simpa using hu
    case neg => simpa [hut] using hu
  · simp [h.allocated.double_iff hc, hn]

theorem store (h : Sound s) (ht : s.threads t = .store i) :
    Sound ⟨s.mem, update s.buf t ((unordered Val).push (s.buf t) (.memoryPool i) 1),
      update s.threads t (.assert i)⟩ ∧
      (Double (update s.threads t (.assert i)) ↔ Double s.threads ∨ Taken s.mem s.buf i) := by
  have hc : Change (s.threads t) (.assert i) (Taken s.mem s.buf) (Taken s.mem (update s.buf t
      ((unordered Val).push (s.buf t) (.memoryPool i) 1))) := .take i ht rfl fun _ => taken_push
  refine ⟨⟨h.allocated.change hc nofun, h.memory, ?pending, ?own⟩, ?_⟩
  case pending =>
    refine (forall_update_iff s.buf fun _ b => ∀ j, ∀ v ∈ (unordered Val).pending b (.memoryPool j),
      v = 1).mpr ⟨fun j v hv => ?_, fun u _ => h.pending u⟩
    rw [(unordered Val).pending_push] at hv
    have := h.pending t
    grind [update]
  case own =>
    refine Machine.forall_update (Q := fun _ (pc : Pc) b => ∀ j, pc.allocated = some j →
      s.mem (.memoryPool j) = 1 ∨ (unordered Val).pending b (.memoryPool j) ≠ []) (fun j hj => ?_)
      fun u _ => h.own u
    obtain rfl : i = j := by simpa [Pc.allocated] using hj
    exact .inr (by simp [pending_push_self])
  · rw [h.allocated.double_iff hc]
    simp [ht]

theorem drain {x : Loc} {v : Val x} {b : (unordered Val).Buf} (h : Sound s)
    (hp : (unordered Val).pop (s.buf t) x = some (v, b)) :
    Sound ⟨update s.mem x v, update s.buf t b, s.threads⟩ := by
  obtain ⟨i⟩ := x
  have hv : v = 1 := h.pending t i v (by simp [pending_pop_self hp])
  refine ⟨⟨fun j => (taken_pop hp hv).trans (h.allocated.taken j), h.allocated.passes⟩,
    fun j => ?memory, ?pending, ?own⟩
  case memory => grind [update, h.memory j]
  case pending =>
    refine (forall_update_iff s.buf fun _ b => ∀ j, ∀ v ∈ (unordered Val).pending b (.memoryPool j),
      v = 1).mpr ⟨fun j w hw => h.pending t j w ?_, fun u _ => h.pending u⟩
    rw [(unordered Val).pending_pop hp]
    grind [update]
  case own =>
    refine Machine.forall_update_buf (Q := fun _ (pc : Pc) b => ∀ j, pc.allocated = some j →
      update s.mem (.memoryPool i) v (.memoryPool j) = 1 ∨
        (unordered Val).pending b (.memoryPool j) ≠ []) (fun j hj => ?_) fun u _ j hj => ?_
    · have := h.own t j hj
      rw [(unordered Val).pending_pop hp] at this
      grind [update]
    · have := h.own u j hj
      grind [update]

theorem step (h : Sound s) (e : (pso Tid numBuffers).Step s l s') :
    Sound s' ∧ (Double s'.threads ↔ Double s.threads ∨ ¬TakesFreePso s l) := by
  cases e
  case move t m b pc e =>
    generalize hpc : s.threads t = pc' at e
    cases pc'
    case store i =>
      cases e
      simpa [TakesFreePso, Taken, Marked, imp_iff_not_or] using h.store hpc
    case check i =>
      cases e
      refine (h.stay (t := t) (by simp [hpc]) ?_ ?_).imp_right fun hd => hd.trans (by simp [TakesFreePso])
      · split <;> nofun
      · rw [hpc]
        split <;> rfl
    case load i =>
      cases e
      refine (h.stay (t := t) (by simp [hpc]) ?_ ?_).imp_right fun hd => hd.trans (by simp [TakesFreePso])
      · dsimp only
        split <;> nofun
      · rw [hpc]
        dsimp only
        split <;> rfl
    case assert i =>
      cases e
      have hi := h.view_eq (t := t) (i := i) (by rw [hpc]; rfl)
      simp only [hi, if_true]
      refine (h.stay (t := t) (by simp [hpc]) ?_ (by rw [hpc]; rfl)).imp_right fun hd =>
        hd.trans (by simp [TakesFreePso])
      nofun
    case returned | failed => cases e
  case drain t x v b hp => exact ⟨h.drain hp, by simp [TakesFreePso]⟩

theorem of_reachable (r : (pso Tid numBuffers).Reachable s) : Sound s :=
  r.invariant (fun _ hs => by cases hs; exact init) fun _ _ _ _ h e => (h.step e).1

end Sound
end Pso

-- No assertion ever fails, and so a run reports its double allocations only if it has none.
theorem takesFree_iff (Tid : Type) [DecidableEq Tid] (numBuffers : Nat) :
    (∀ ls s, (interleaved Tid numBuffers).Run ls s →
      ((Double s.threads → (interleaved Tid numBuffers).Leads (Fails ·.threads) s) ↔
        ((interleaved Tid numBuffers).restrict TakesFree).Run ls s)) ∧
    (∀ ls s, (pso Tid numBuffers).Run ls s →
      ((Double s.threads → (pso Tid numBuffers).Leads (Fails ·.threads) s) ↔
        ((pso Tid numBuffers).restrict TakesFreePso).Run ls s)) := by
  have hd : ¬Double fun _ : Tid => Pc.check 0 := by simp [Double, Pc.allocated]
  refine ⟨fun ls s r => ?interleaved, fun ls s r => ?pso⟩
  case interleaved =>
    have hf : ¬(interleaved Tid numBuffers).Leads (Fails ·.threads) s := fun hl =>
      have ⟨_, r, t, i, hf⟩ := hl.exists_reachable r.reachable
      (Interleaved.Sound.of_reachable r).allocated.passes t i hf
    rw [System.run_restrict_iff (p := (Double ·.threads)) (fun s hs => by cases hs; exact hd)
      fun s l s' r e => ((Interleaved.Sound.of_reachable r).step e).2]
    simp [hf, r]
  case pso =>
    have hf : ¬(pso Tid numBuffers).Leads (Fails ·.threads) s := fun hl =>
      have ⟨_, r, t, i, hf⟩ := hl.exists_reachable r.reachable
      (Pso.Sound.of_reachable r).allocated.passes t i hf
    rw [System.run_restrict_iff (p := (Double ·.threads)) (fun s hs => by cases hs; exact hd)
      fun s l s' r e => ((Pso.Sound.of_reachable r).step e).2]
    simp [hf, r]

-- Both threads of the test get the first position, and both assertions hold.
theorem not_reports : ¬∀ s, (interleaved Bool 2).Reachable s →
    (∀ t, ∃ p, s.threads t = .returned p) → Double s.threads → Fails s.threads := by
  have ⟨s, r, ht, hf⟩ := Interleaving.exists_reachable_of_schedule (fun _ : Bool => threadAllocate 2)
    start (fun _ => .check 0) [true, true, false, false, true, true, false, false]
    (p := fun s => s.threads true = .returned (some 0) ∧ s.threads false = .returned (some 0))
    (by decide)
  have hr (t : Bool) : s.threads t = .returned (some 0) := by cases t <;> assumption
  intro h
  obtain ⟨t, i, hi⟩ := h s r (fun t => ⟨_, hr t⟩) ⟨true, false, 0, nofun, by rw [ht]; rfl, by rw [hf]; rfl⟩
  cases (hr t).symm.trans hi

end OpenBlas.Genmc

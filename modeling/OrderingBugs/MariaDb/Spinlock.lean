import OrderingBugs.Memory.Spinlock

open Function

-- The spin lock of MariaDB and its test (`22-MariaDB.c`), on machines with any kind of store buffers.
namespace MariaDb

inductive Loc
  | lock
  | data
  | flag
  | stop
  deriving DecidableEq

instance : Fintype Loc where
  elems := {.lock, .data, .flag, .stop}
  complete x := by cases x <;> decide

abbrev Val (_ : Loc) : Type :=
  Int

variable {L : Type}

-- `spin_lock`
def spinLock (retry ret : L) : Op Loc Val L :=
  .rmw .acquire .lock (fun _ => 1) fun v => if v ≠ 0 then retry else ret

-- `spin_unlock`
def spinUnlock (ret : L) : Op Loc Val L :=
  .store .release .lock 0 ret

inductive WriterPc
  | loadStop
  | lock
  | storeData
  | storeFlag
  | unlock
  | done
  deriving DecidableEq

inductive ReaderPc
  | loadStop
  | lock
  | loadFlag
  | loadData (f : Int)
  | unlock (f d : Int)
  | check (f d : Int)
  | storeStop
  | abort
  | done
  deriving DecidableEq

inductive MainPc
  | storeStop
  | done
  deriving DecidableEq

-- `writer`
def writer (k : WriterPc → L) : WriterPc → Op Loc Val L
  | .loadStop => .load .plain .stop fun v => if v = 0 then k .lock else k .done
  | .lock => spinLock (k .lock) (k .storeData)
  | .storeData => .store .plain .data 42 (k .storeFlag)
  | .storeFlag => .store .plain .flag 1 (k .unlock)
  | .unlock => spinUnlock (k .loadStop)
  | .done => .halt

-- `reader`
def reader (k : ReaderPc → L) : ReaderPc → Op Loc Val L
  | .loadStop => .load .plain .stop fun v => if v = 0 then k .lock else k .done
  | .lock => spinLock (k .lock) (k .loadFlag)
  | .loadFlag => .load .plain .flag fun f => k (.loadData f)
  | .loadData f => .load .plain .data fun d => k (.unlock f d)
  | .unlock f d => spinUnlock (k (.check f d))
  | .check f d => .skip (if f = 1 ∧ d ≠ 42 then k .storeStop else k .loadStop)
  | .storeStop => .store .plain .stop 1 (k .abort)
  | .abort | .done => .halt

-- `main`, once it has created the threads.
def main (k : MainPc → L) : MainPc → Op Loc Val L
  | .storeStop => .store .plain .stop 1 (k .done)
  | .done => .halt

inductive Pc
  | writer (pc : WriterPc)
  | reader (pc : ReaderPc)
  | main (pc : MainPc)
  deriving DecidableEq

inductive Role
  | writer
  | reader
  | main

def Role.start : Role → Pc
  | writer => .writer .loadStop
  | reader => .reader .loadStop
  | main => .main .storeStop

variable {Tid : Type}

def program : Program Tid Loc Val Pc
  | _, .writer pc => writer .writer pc
  | _, .reader pc => reader .reader pc
  | _, .main pc => main .main pc

def start : Mem Val
  | .lock | .data | .flag | .stop => 0

-- Any number of threads of each kind.
def system [DecidableEq Tid] (B : Buffering Loc Val) (roles : Tid → Role) :
    System (Machine.State B Tid Pc) (Machine.Label Tid Loc Pc) :=
  Machine.system B .weak program start fun t => (roles t).start

-- The thread is between `spin_lock` and `spin_unlock`.
def Inside : Pc → Prop
  | .writer .storeData | .writer .storeFlag | .writer .unlock => True
  | .reader .loadFlag | .reader (.loadData _) | .reader (.unlock ..) => True
  | _ => False

-- The data is there before the flag, for whoever has the lock.
def Published (m : Mem Val) : Prop :=
  m .flag = 0 ∨ m .data = 42

-- What the thread that has the lock reads at each place.
def Expects (pc : Pc) (m : Mem Val) : Prop :=
  match pc with
  | .writer .storeFlag | .writer .unlock => m .data = 42
  | .reader (.loadData f) => Published m ∧ f = m .flag
  | _ => Published m

variable {B : Buffering Loc Val} {m m' : Mem Val} {b b' : B.Buf} {pc pc' : Pc} {t : Tid}

section Lock

variable {retry ret : Pc}

theorem spinLock_change (e : (spinLock retry ret).exec B .weak m b = some (m', b', pc'))
    (hp : ¬Inside pc) (hr : ¬Inside retry) (hi : Inside ret) :
    Machine.Spinlock.Change .lock (· ≠ 0) Inside m b pc m' b' pc' := by
  have hn := Op.pending_of_exec_rmw e
  obtain ⟨rfl, rfl, rfl, -⟩ := Op.exec_rmw e
  by_cases hv : m .lock ≠ 0
  case pos =>
    rw [if_pos hv]
    exact .stay (by simp [hv]) rfl (by simp [hp, hr])
  case neg =>
    rw [if_neg hv]
    exact .lock hn hn hv (by simp) hp hi

theorem spinUnlock_change (e : (spinUnlock ret).exec B .weak m b = some (m', b', pc'))
    (hp : Inside pc) (hr : ¬Inside ret) :
    Machine.Spinlock.Change .lock (· ≠ 0) Inside m b pc m' b' pc' := by
  obtain ⟨rfl, ⟨-, -, ho⟩ | ⟨rfl, rfl, he, -⟩⟩ := Op.exec_store e
  · cases ho
  · exact .unlockNow (he .lock) (by simp) hp hr

-- An operation within a section, or outside of all of them.
theorem frame_change (e : (program t pc).exec B .weak m b = some (m', b', pc'))
    (hw : ¬(program t pc).Writes .lock) (hi : Inside pc' ↔ Inside pc) :
    Machine.Spinlock.Change .lock (· ≠ 0) Inside m b pc m' b' pc' :=
  have ⟨hm, hb⟩ := Op.exec_frame hw e
  .stay (by rw [hm]) hb hi

end Lock

theorem spinlock : Machine.Spinlock B .weak (program : Program Tid Loc Val Pc) .lock (· ≠ 0) Inside := by
  refine ⟨fun t pc m b m' b' pc' e => ?_⟩
  obtain pc | pc | pc := pc
  case writer =>
    cases pc
    case lock => exact spinLock_change e (by simp [Inside]) (by simp [Inside]) (by simp [Inside])
    case unlock => exact spinUnlock_change e (by simp [Inside]) (by simp [Inside])
    case loadStop => refine frame_change e nofun ?_; cases e; dsimp only; split <;> simp [Inside]
    case storeData | storeFlag => refine frame_change e nofun ?_; cases e; simp [Inside]
    case done => cases e
  case reader =>
    cases pc
    case lock => exact spinLock_change e (by simp [Inside]) (by simp [Inside]) (by simp [Inside])
    case unlock => exact spinUnlock_change e (by simp [Inside]) (by simp [Inside])
    case loadStop | check => refine frame_change e nofun ?_; cases e; beta_reduce; split <;> simp [Inside]
    case loadFlag | loadData | storeStop => refine frame_change e nofun ?_; cases e; simp [Inside]
    case abort | done => cases e
  case main =>
    cases pc
    case storeStop => refine frame_change e nofun ?_; cases e; simp [Inside]
    case done => cases e

-- The variables that the lock protects.
def Shared : Set Loc :=
  {.data, .flag}

abbrev Guard (_ : Tid) (pc : Pc) (_ : B.Buf) : Prop :=
  Inside pc

theorem local_published : Mem.Local Shared Published :=
  fun m m' h hp => by simpa [Published, h .data (by simp [Shared]), h .flag (by simp [Shared])] using hp

theorem local_expects (pc : Pc) : Mem.Local Shared (Expects pc) := by
  intro m m' h hp
  have hd := h .data (by simp [Shared])
  have hf := h .flag (by simp [Shared])
  unfold Expects at *
  split at hp <;> simp_all [Published]

-- An operation outside of all sections.
theorem frame_region (e : (program t pc).exec B .weak m b = some (m', b', pc'))
    (hw : ∀ x ∈ Shared, ¬(program t pc).Writes x) (hi : ¬Inside pc) (hi' : ¬Inside pc') :
    Machine.Region.Change Shared Guard Expects Published t m b pc m' b' pc' :=
  .stay hi hi' (fun x hx hb => (Op.exec_frame (hw x hx) e).2.trans hb)
    fun x hx => (Op.exec_frame (hw x hx) e).1

theorem spinLock_region {retry ret : Pc} (e : (spinLock retry ret).exec B .weak m b = some (m', b', pc'))
    (hp : ¬Inside pc) (hr : ¬Inside retry) (hi : Inside ret) (hm : ∀ m, Published m → Expects ret m) :
    Machine.Region.Change Shared Guard Expects Published t m b pc m' b' pc' := by
  obtain ⟨rfl, rfl, rfl, -⟩ := Op.exec_rmw e
  have hu : ∀ x ∈ Shared, update m .lock 1 x = m x := by simp [Shared]
  by_cases hv : m .lock ≠ 0
  case pos =>
    rw [if_pos hv]
    exact .stay hp hr (fun _ _ => id) hu
  case neg =>
    rw [if_neg hv]
    exact .acquire hp hi (fun _ _ => id) hu (hm m)

theorem spinUnlock_region {ret : Pc} (e : (spinUnlock ret).exec B .weak m b = some (m', b', pc'))
    (hp : Inside pc) (hr : ¬Inside ret) (hm : ∀ m, Expects pc m → Published m) :
    Machine.Region.Change Shared Guard Expects Published t m b pc m' b' pc' := by
  obtain ⟨rfl, ⟨-, -, ho⟩ | ⟨rfl, rfl, he, -⟩⟩ := Op.exec_store e
  · cases ho
  · refine .release hp hr (fun x _ => he x) fun h => ?_
    refine local_published m _ (by simp [Shared]) (hm m ?_)
    rwa [show m = B.view m b' from funext fun x => (Buffering.view_nil (he x)).symm]

theorem region (e : (program t pc).exec B .weak m b = some (m', b', pc')) :
    Machine.Region.Change Shared Guard Expects Published t m b pc m' b' pc' := by
  obtain pc | pc | pc := pc
  case writer =>
    cases pc
    case lock =>
      exact spinLock_region e (by simp [Inside]) (by simp [Inside]) (by simp [Inside]) fun _ => id
    case unlock => exact spinUnlock_region e (by simp [Inside]) (by simp [Inside]) fun _ h => .inr h
    case loadStop =>
      refine frame_region e nofun (by simp [Inside]) ?_
      cases e
      dsimp only
      split <;> simp [Inside]
    case storeData =>
      cases e
      refine .hold trivial trivial fun _ => ?_
      rw [Buffering.view_push]
      exact update_self ..
    case storeFlag =>
      cases e
      refine .hold trivial trivial fun h => ?_
      rw [Buffering.view_push]
      exact h
    case done => cases e
  case reader =>
    cases pc
    case lock =>
      exact spinLock_region e (by simp [Inside]) (by simp [Inside]) (by simp [Inside]) fun _ => id
    case unlock => exact spinUnlock_region e (by simp [Inside]) (by simp [Inside]) fun _ => id
    case loadStop | check =>
      refine frame_region e nofun (by simp [Inside]) ?_
      cases e
      beta_reduce
      split <;> simp [Inside]
    case storeStop =>
      refine frame_region e (by simp [Shared, program, reader, Op.Writes]) (by simp [Inside]) ?_
      cases e
      simp [Inside]
    case loadFlag => cases e; exact .hold trivial trivial fun h => ⟨h, rfl⟩
    case loadData f => cases e; exact .hold trivial trivial fun h => h.1
    case abort | done => cases e
  case main =>
    cases pc
    case storeStop =>
      refine frame_region e (by simp [Shared, program, main, Op.Writes]) (by simp [Inside]) ?_
      cases e
      simp [Inside]
    case done => cases e

-- What a reader has read while it had the lock.
def Consistent : Pc → Prop
  | .reader (.unlock f d) | .reader (.check f d) => f = 1 → d = 42
  | .reader .storeStop | .reader .abort => False
  | _ => True

theorem Consistent.exec (h : Consistent pc) (hx : Inside pc → Expects pc (B.view m b))
    (e : (program t pc).exec B .weak m b = some (m', b', pc')) : Consistent pc' := by
  obtain pc | pc | pc := pc
  case writer =>
    cases pc
    case lock => rw [(Op.exec_rmw e).1]; split <;> trivial
    case unlock => rw [(Op.exec_store e).1]; trivial
    case loadStop => cases e; beta_reduce; split <;> trivial
    case storeData | storeFlag => cases e; trivial
    case done => cases e
  case reader =>
    cases pc
    case lock => rw [(Op.exec_rmw e).1]; split <;> trivial
    case unlock => rw [(Op.exec_store e).1]; exact h
    case loadStop => cases e; beta_reduce; split <;> trivial
    case loadFlag => cases e; trivial
    case loadData f =>
      cases e
      obtain ⟨hf | hd, rfl⟩ := hx trivial
      · exact fun h => absurd (hf.symm.trans h) (by decide)
      · exact fun _ => hd
    case check f d =>
      cases e
      rw [if_neg fun ⟨hf, hd⟩ => hd (h hf)]
      trivial
    case storeStop | abort => cases h
    case done => cases e
  case main =>
    cases pc
    case storeStop => cases e; trivial
    case done => cases e

variable [DecidableEq Tid] {roles : Tid → Role} {s : Machine.State B Tid Pc}

theorem exclusive_of_reachable (r : (system B roles).Reachable s) :
    Machine.Spinlock.Exclusive .lock (· ≠ 0) Inside s :=
  spinlock.exclusive (fun t => by cases roles t <;> simp [Role.start, Inside]) r

theorem guarded_of_reachable (r : (system B roles).Reachable s) : Machine.Guarded (B := B) Guard s :=
  fun t u ht hu => (exclusive_of_reachable r).unique t u (.inl ht) (.inl hu)

theorem region_of_reachable (r : (system B roles).Reachable s) :
    Machine.Region Shared Guard Expects Published s := by
  refine r.invariant (fun s hs => ?init) fun s l s' r h e => ?step
  case init =>
    cases hs
    refine ⟨fun t x _ hx => absurd (B.pending_empty x) hx, fun t ht => ?_, fun _ => .inl rfl⟩
    cases hr : roles t <;> simp [hr, Role.start, Inside] at ht
  case step =>
    have hu := guarded_of_reachable r
    have hu' := guarded_of_reachable (r.step e)
    cases e
    case move e => exact h.change local_expects local_published hu hu' (region e)
    case drain hp => exact h.drain local_expects local_published hu hp id fun h h' => absurd h h'

theorem consistent_of_reachable (r : (system B roles).Reachable s) (t : Tid) :
    Consistent (s.threads t) := by
  revert t
  refine r.invariant (I := fun s => ∀ t, Consistent (s.threads t)) (fun s hs => ?init)
    fun s l s' r h e => ?step
  case init =>
    cases hs
    exact fun t => by cases h : roles t <;> simp [h, Role.start, Consistent]
  case step =>
    cases e
    case move t _ _ _ e =>
      exact (forall_update_iff s.threads fun _ pc => Consistent pc).mpr
        ⟨(h t).exec ((region_of_reachable r).held t) e, fun u _ => h u⟩
    case drain => exact h

-- A reader has the value `f` of the flag and the value `d` of the data.
def Obtains (pc : Pc) (f d : Int) : Prop :=
  pc = .reader (.unlock f d) ∨ pc = .reader (.check f d)

theorem lock_suffices (B : Buffering Loc Val) (roles : Tid → Role) (s : Machine.State B Tid Pc)
    (r : (system B roles).Reachable s) :
    (∀ t u, Inside (s.threads t) → Inside (s.threads u) → t = u) ∧
    (∀ t, ¬Inside (s.threads t) → B.pending (s.buf t) .data = [] ∧ B.pending (s.buf t) .flag = []) ∧
    (∀ t f d, Obtains (s.threads t) f d → ¬(f = 1 ∧ d ≠ 42)) ∧
    (∀ t, s.threads t ≠ .reader .storeStop ∧ s.threads t ≠ .reader .abort) := by
  have hc := consistent_of_reachable r
  have hr := region_of_reachable r
  refine ⟨guarded_of_reachable r, fun t ht => ?_, fun t f d ho ⟨hf, hd⟩ => ?_, fun t => ?_⟩
  · exact ⟨hr.pending_eq_nil ht (by simp [Shared]), hr.pending_eq_nil ht (by simp [Shared])⟩
  · have := hc t
    obtain ho | ho := ho
    all_goals
      rw [ho] at this
      exact hd (this hf)
  · have := hc t
    constructor
    all_goals
      intro h
      rw [h] at this
      exact this

-- The flag drains before the data, and the reader enters once both have.
theorem lock_suffices_swapped :
    ∃ s, (system (.perLocation Val) fun t => if t then .writer else .reader).Reachable s ∧
      Obtains (s.threads false) 1 42 ∧ ¬Inside (s.threads true) ∧ s.buf true .data = [] := by
  have ⟨s, r, hf, ht⟩ := Machine.exists_reachable_of_schedule (.perLocation Val) .weak program start
    (fun t => (if t then Role.writer else Role.reader).start)
    [.move true, .move true, .move true, .move true, .drain true .flag, .drain true .data, .move true,
      .move false, .move false, .move false, .move false]
    (p := fun s => s.threads false = .reader (.unlock 1 42) ∧ s.threads true = .writer .loadStop)
    (by decide +kernel)
  have hi : ¬Inside (s.threads true) := by simp [ht, Inside]
  exact ⟨s, r, .inl hf, hi, ((lock_suffices _ _ s r).2.1 true hi).1⟩

end MariaDb

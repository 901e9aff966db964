import OrderingBugs.Memory.Termination
import Mathlib.Data.Fintype.Option

open Function

-- The test for a use after free of an XDP socket (`3-xsk_genmc.c`), with any number of threads that map it.
namespace Xsk.Genmc

inductive Loc
  | refcnt
  | valid
  | error
  deriving DecidableEq

-- The reference count wraps around.
abbrev Val : Loc → Type
  | .refcnt => BitVec 32
  | .valid | .error => Int

inductive MmapPc
  | loadValid
  | fetchAdd
  | storeError
  | mapped (refs : BitVec 32)
  | refused
  deriving DecidableEq

inductive ClosePc
  | storeValid
  | fetchSub
  | closed
  deriving DecidableEq

inductive Pc
  | mmap (pc : MmapPc)
  | close (pc : ClosePc)
  deriving DecidableEq

-- `thread_mmap`
def threadMmap : MmapPc → Op Loc Val Pc
  | .loadValid => .load .relaxed .valid fun v => if v ≠ 0 then .mmap .fetchAdd else .mmap .storeError
  | .fetchAdd => .rmw .relaxed .refcnt (· + 1) fun refs => .mmap (.mapped refs)
  | .storeError => .store .relaxed .error 1 (.mmap .refused)
  | .mapped _ | .refused => .halt

-- `thread_close`
def threadClose : ClosePc → Op Loc Val Pc
  | .storeValid => .store .relaxed .valid 0 (.close .fetchSub)
  | .fetchSub => .rmw .relaxed .refcnt (· - 1) fun _ => .close .closed
  | .closed => .halt

variable {M : Type}

-- All threads but one map the socket, and that one closes it.
def program : Program (Option M) Loc Val Pc
  | _, .mmap pc => threadMmap pc
  | _, .close pc => threadClose pc

def start : Mem Val
  | .refcnt => (1 : BitVec 32)
  | .valid => (1 : Int)
  | .error => (0 : Int)

def threads₀ : Option M → Pc
  | some _ => .mmap .loadValid
  | none => .close .storeValid

abbrev State (M : Type) :=
  Interleaving.State Val (Option M) Pc

abbrev Label (M : Type) :=
  Interleaving.Label (Option M) Pc

variable (M) in
def system [DecidableEq M] : System (State M) (Label M) :=
  Interleaving.system program start threads₀

def Pc.Returned : Pc → Prop
  | mmap (.mapped _) | mmap .refused | close .closed => True
  | _ => False

-- All threads have been joined.
def Joined (s : State M) : Prop :=
  ∀ t, (s.threads t).Returned

-- The assertion at the end of `main`
def AssertionFails (s : State M) : Prop :=
  Joined s ∧ s.mem .error ≠ 0

-- A thread has added to the reference count when it was 0.
def Resurrected (ls : List (Label M)) : Prop :=
  ∃ t, (t, .mmap .fetchAdd, .mmap (.mapped 0)) ∈ ls

-- A thread has made its check after the socket has been closed.
def ChecksClosed (ls : List (Label M)) : Prop :=
  ∃ c t l, List.Sublist [(c, Pc.close .storeValid, Pc.close .fetchSub), (t, .mmap .loadValid, l)] ls

-- The test reports a run that takes a freed object again, and no run in which nobody maps the socket after
-- it has been closed.
structure Complete (ls : List (Label M)) (s : State M) : Prop where
  reported : Joined s → Resurrected ls → s.mem .error = 1 ∧ AssertionFails s
  closed   : s.mem .error = 1 → ChecksClosed ls

-- The error has been found, or is bound to be.
def Noticed (s : State M) : Prop :=
  s.mem .error = 1 ∨ ∃ t, s.threads t = .mmap .storeError ∨
    (s.threads t = .mmap .loadValid ∧ s.mem .valid = 0)

-- Where a thread adds to a reference count of 0, this does not go unnoticed.
def Watched (s : State M) (l : Label M) : Prop :=
  l.2.1 = .mmap .fetchAdd → s.mem .refcnt = (0 : BitVec 32) → Noticed s

variable [DecidableEq M] {ls : List (Label M)} {s s' : State M} {l : Label M}

-- What the history of a run says about its state.
structure Recorded (ls : List (Label M)) (s : State M) : Prop where
  closed  : s.mem .valid = 0 → ∃ c, (c, .close .storeValid, .close .fetchSub) ∈ ls
  checked : (s.mem .error = 1 ∨ ∃ t, s.threads t = .mmap .storeError) → ChecksClosed ls
  mapped  : Resurrected ls → ∃ t, s.threads t = .mmap (.mapped 0)

omit [DecidableEq M] in
theorem ChecksClosed.append (h : ChecksClosed ls) : ChecksClosed (ls ++ [l]) :=
  let ⟨c, t, k, h⟩ := h
  ⟨c, t, k, h.trans (List.sublist_append_left ls [l])⟩

omit [DecidableEq M] in
theorem ChecksClosed.of_mem {c t : Option M} {k : Pc}
    (h : (c, .close .storeValid, .close .fetchSub) ∈ ls) :
    ChecksClosed (ls ++ [(t, .mmap .loadValid, k)]) :=
  ⟨c, t, k, (List.singleton_sublist.mpr h).append (List.Sublist.refl _)⟩

-- What some thread is at, it still is after a step of another one.
theorem exists_update_of_ne {f : Option M → Pc} {t : Option M} {k pc : Pc} (ht : f t ≠ pc)
    (h : ∃ u, f u = pc) : ∃ u, update f t k u = pc := by
  obtain ⟨u, hu⟩ := h
  have hut : u ≠ t := by
    rintro rfl
    exact ht hu
  exact ⟨u, by simpa [hut] using hu⟩

theorem exists_of_update {f : Option M → Pc} {t : Option M} {k pc : Pc} (hk : k ≠ pc)
    (h : ∃ u, update f t k u = pc) : ∃ u, f u = pc :=
  (exists_update_iff f (p := fun _ l => l = pc)).mp h |>.elim (absurd · hk) fun ⟨u, _, hu⟩ => ⟨u, hu⟩

-- A thread that has mapped the socket is through.
theorem exists_mapped_update {t : Option M} {m : Mem Val} {k : Pc}
    (e : (program t (s.threads t)).interleave s.mem = some (m, k))
    (h : ∃ u, s.threads u = .mmap (.mapped 0)) : ∃ u, update s.threads t k u = .mmap (.mapped 0) := by
  refine exists_update_of_ne (fun ht => ?_) h
  rw [ht] at e
  cases e

theorem Recorded.of_run (r : (system M).Run ls s) : Recorded ls s := by
  refine r.invariant (I := Recorded) (fun s hs => ?init) fun ls s l s' _ h e => ?step
  case init =>
    cases hs
    refine ⟨fun h => by simp [start] at h, ?_, by simp [Resurrected]⟩
    rintro (h | ⟨_ | _, h⟩)
    all_goals simp [start, threads₀] at h
  case step =>
    obtain ⟨hc, hk, hm⟩ := h
    cases e
    case move t m k e =>
      have hm' (h : Resurrected (ls ++ [(t, s.threads t, k)])) :
          ∃ u, update s.threads t k u = .mmap (.mapped 0) := by
        obtain ⟨u, hu⟩ := h
        obtain hu | hu := List.mem_append.mp hu
        case inl => exact exists_mapped_update e (hm ⟨u, hu⟩)
        case inr =>
          obtain ⟨-, -, hk⟩ : u = t ∧ _ ∧ _ = k := by simpa using hu
          exact ⟨t, by simp [hk]⟩
      have hc' (h : s.mem .valid = 0) :
          ∃ c, (c, .close .storeValid, .close .fetchSub) ∈ ls ++ [(t, s.threads t, k)] :=
        have ⟨c, hc⟩ := hc h
        ⟨c, List.mem_append_left _ hc⟩
      have hk' (h : s.mem .error = 1 ∨ ∃ u, update s.threads t k u = .mmap .storeError)
          (hn : k ≠ .mmap .storeError) : ChecksClosed (ls ++ [(t, s.threads t, k)]) :=
        (hk (h.imp_right (exists_of_update hn))).append
      generalize hpc : s.threads t = pc at e hm' hc' hk'
      obtain (_ | _ | _ | _ | _) | (_ | _ | _) := pc
      case mmap.loadValid =>
        cases e
        refine ⟨hc', fun h => ?_, hm'⟩
        by_cases hv : s.mem .valid = 0
        case pos =>
          have ⟨c, hc⟩ := hc hv
          exact .of_mem hc
        case neg => exact hk' h (by simp [hv])
      case mmap.storeError =>
        cases e
        exact ⟨hc', fun _ => (hk (.inr ⟨t, hpc⟩)).append, hm'⟩
      case close.storeValid =>
        cases e
        exact ⟨fun _ => ⟨t, by simp⟩, fun h => hk' h nofun, hm'⟩
      case mmap.fetchAdd | close.fetchSub =>
        cases e
        exact ⟨hc', fun h => hk' h nofun, hm'⟩
      case mmap.mapped | mmap.refused | close.closed => cases e

-- What has been noticed stays so.
theorem Noticed.step (h : Noticed s) (e : (system M).Step s l s') : Noticed s' := by
  cases e
  case move t m k e =>
    obtain he | ⟨u, hu⟩ := h
    case inl =>
      left
      generalize s.threads t = pc at e
      obtain (_ | _ | _ | _ | _) | (_ | _ | _) := pc
      all_goals cases e
      all_goals simp [he]
    case inr =>
      by_cases hut : u = t
      case pos =>
        subst hut
        obtain hu | ⟨hu, hv⟩ := hu
        all_goals rw [hu] at e; cases e
        · exact .inl (by simp)
        · exact .inr ⟨u, .inl (by simp [hv])⟩
      case neg =>
        refine .inr ⟨u, ?_⟩
        simp only [update_of_ne hut]
        refine hu.imp_right fun ⟨hu, hv⟩ => ⟨hu, ?_⟩
        generalize s.threads t = pc at e
        obtain (_ | _ | _ | _ | _) | (_ | _ | _) := pc
        all_goals cases e
        all_goals simp [hv]

omit [DecidableEq M] in
theorem Noticed.error (h : Noticed s) (hj : Joined s) : s.mem .error = 1 := by
  obtain he | ⟨t, ht | ⟨ht, -⟩⟩ := h
  · exact he
  · exact absurd (hj t) (ht ▸ id)
  · exact absurd (hj t) (ht ▸ id)

omit [DecidableEq M] in
-- A thread that has taken a freed object has added to a reference count of 0.
theorem refcnt_of_mapped {t : Option M} {m m' : Mem Val} {pc : Pc}
    (e : (program t pc).interleave m = some (m', .mmap (.mapped 0))) :
    pc = .mmap .fetchAdd ∧ m .refcnt = (0 : BitVec 32) := by
  obtain (_ | _ | _ | _ | _) | (_ | _ | _) := pc
  case mmap.loadValid =>
    simp only [program, threadMmap, Op.interleave, Option.some.injEq, Prod.mk.injEq] at e
    split at e <;> cases e.2
  case mmap.fetchAdd =>
    simp only [program, threadMmap, Op.interleave, Option.some.injEq, Prod.mk.injEq, Pc.mmap.injEq,
      MmapPc.mapped.injEq] at e
    exact ⟨rfl, e.2⟩
  all_goals cases e

-- While every step is watched, a reference count of 0 is noticed when it is added to.
theorem noticed_of_mapped (r : ((system M).restrict Watched).Reachable s)
    (h : ∃ t, s.threads t = .mmap (.mapped 0)) : Noticed s := by
  revert h
  refine r.invariant (S := (system M).restrict Watched)
    (I := fun s => (∃ t, s.threads t = .mmap (.mapped 0)) → Noticed s) (fun s hs => ?init) ?step
  case init =>
    cases hs
    rintro ⟨_ | _, h⟩
    all_goals cases h
  case step =>
    rintro s l s' - hn ⟨hw, e⟩ ⟨u, hu⟩
    refine Noticed.step ?_ e
    cases e
    case move t m k e =>
      by_cases hut : u = t
      case neg => exact hn ⟨u, by simpa [hut] using hu⟩
      case pos =>
        subst hut
        obtain rfl : k = _ := by simpa using hu
        obtain ⟨hpc, hr⟩ := refcnt_of_mapped e
        exact hw hpc hr

def Pc.rank : Pc → Nat
  | mmap .loadValid | close .storeValid => 2
  | mmap .fetchAdd | mmap .storeError | close .fetchSub => 1
  | mmap (.mapped _) | mmap .refused | close .closed => 0

theorem not_noticed_update {t : Option M} {m : Mem Val} {k : Pc} (hn : ¬Noticed s)
    (he : m .error = s.mem .error) (hs : k ≠ .mmap .storeError) (hl : k ≠ .mmap .loadValid)
    (hv : m .valid = 0 → s.mem .valid = 0 ∨ ∀ u, s.threads u ≠ .mmap .loadValid) :
    ¬Noticed ⟨m, update s.threads t k⟩ := by
  simp only [Noticed, not_or, not_exists, not_and] at hn ⊢
  refine ⟨he ▸ hn.1, fun u => ?_⟩
  by_cases hu : u = t
  case pos => subst hu; simp [hs, hl]
  case neg =>
    simp only [update_of_ne hu]
    refine ⟨(hn.2 u).1, fun hp hm => ?_⟩
    obtain hm | hm := hv hm
    · exact (hn.2 u).2 hp hm
    · exact hm u hp

-- What has not been noticed is never reported, if the threads that have still to check do so before the
-- socket is closed.
theorem leads_unreported [Fintype M] (h : ¬Noticed s) :
    (system M).Leads (fun s => Joined s ∧ s.mem .error ≠ 1) s := by
  refine Interleaving.leads_of_rank (p := fun s => ¬Noticed s) Pc.rank (fun s hn hq => ?_) h
  by_cases hl : ∃ t, s.threads t = .mmap .loadValid
  case pos =>
    obtain ⟨t, ht⟩ := hl
    have hv : s.mem .valid ≠ 0 := fun hv => hn (.inr ⟨t, .inr ⟨ht, hv⟩⟩)
    refine ⟨t, s.mem, .mmap .fetchAdd, by simp [ht, program, threadMmap, Op.interleave, hv], ?_, ?_⟩
    · simp [ht, Pc.rank]
    · exact not_noticed_update hn rfl nofun nofun fun h => absurd h hv
  case neg =>
    rw [not_exists] at hl
    obtain ⟨t, ht⟩ : ∃ t, ¬(s.threads t).Returned := by
      by_contra hj
      exact hq ⟨by simpa [Joined] using hj, fun he => hn (.inl he)⟩
    obtain ⟨m, k, e, hr, he, hs, hv⟩ : ∃ m k, (program t (s.threads t)).interleave s.mem = some (m, k) ∧
        k.rank < (s.threads t).rank ∧ m .error = s.mem .error ∧ k ≠ .mmap .storeError ∧
        k ≠ .mmap .loadValid := by
      have hs : s.threads t ≠ .mmap .storeError := fun hs => hn (.inr ⟨t, .inl hs⟩)
      have hl := hl t
      generalize s.threads t = pc at ht hl hs ⊢
      obtain (_ | _ | _ | _ | _) | (_ | _ | _) := pc
      case mmap.loadValid => exact absurd rfl hl
      case mmap.storeError => exact absurd rfl hs
      case mmap.mapped | mmap.refused | close.closed => exact absurd trivial ht
      all_goals exact ⟨_, _, rfl, Nat.lt_succ_self _, by simp, nofun, nofun⟩
    exact ⟨t, m, k, e, hr, not_noticed_update hn he hs hv fun _ => .inr hl⟩

-- The test is complete on the runs in which every step is watched.
theorem watched_exact (M : Type) [DecidableEq M] [Fintype M] :
    (system M).ExactRuns Watched Complete := by
  refine ⟨fun ls s r => ?safe, fun ls s l s' _ e hw => ?sharp⟩
  case safe =>
    have h := Recorded.of_run r.of_restrict
    refine ⟨fun hj hr => ?_, fun he => h.checked (.inl he)⟩
    have he := (noticed_of_mapped r.reachable (h.mapped hr)).error hj
    exact ⟨he, hj, by simp [he]⟩
  case sharp =>
    simp only [Watched, Classical.not_imp] at hw
    obtain ⟨hl, hr, hn⟩ := hw
    cases e
    case move t m k e =>
      replace hl : s.threads t = .mmap .fetchAdd := hl
      rw [hl] at e ⊢
      cases e
      obtain ⟨ls', s'', es, hj, he⟩ : (system M).Leads (fun s => Joined s ∧ s.mem .error ≠ 1)
          ⟨update s.mem .refcnt (s.mem .refcnt + 1), update s.threads t (.mmap (.mapped (s.mem .refcnt)))⟩ :=
        leads_unreported (not_noticed_update hn (by simp) nofun nofun fun h => .inl (by simpa using h))
      exact ⟨ls', s'', es, fun hc => he (hc.reported hj ⟨t, by simp [hr]⟩).1⟩

-- The socket is closed between the check and the increment of the only other thread.
theorem not_complete : ¬∀ ls s, (system Unit).Run ls s → Complete ls s := by
  intro h
  have r : (system Unit).Run _ _ := .init rfl
  replace r := r.step (.move (t := some ()) rfl)
  replace r := r.step (.move (t := none) rfl)
  replace r := r.step (.move (t := none) rfl)
  replace r := r.step (.move (t := some ()) rfl)
  have hc := (h _ _ r).reported (by rintro (_ | _) <;> trivial) ⟨some (), by decide⟩
  exact absurd hc.1 (by decide)

end Xsk.Genmc

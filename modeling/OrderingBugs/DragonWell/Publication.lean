import OrderingBugs.DragonWell.PackageTable
import OrderingBugs.Transition.Exact

open Function

-- What threads find in the table that they are returned.
namespace DragonWell

variable {Tid : Type} [DecidableEq Tid] {B : Buffering Loc Val} {s s' : State Tid B} {k : Label Tid}
variable {junk : (table : Nat) → (member : Member) → Val (.field table member)}
variable {m m' : Mem Val} {b b' : B.Buf} {l l' : Thread} {t : Tid} {table : Nat} {x : Loc} {v : Val x}

-- The check without the lock finds the pointer only when the table is as the constructor leaves it, in
-- memory.
def ChecksComplete (s : State Tid B) : Label Tid → Prop
  | .move _ l _ => l.current = some .check → ∀ table, s.mem .globalPackageTable = some table →
      Constructed s.mem table
  | .drain .. => True

-- Some thread has been returned a table that it does not find constructed.
def Torn (s : State Tid B) : Prop :=
  ∃ t table, some table ∈ (s.threads t).returned ∧ ¬Constructed (B.view s.mem (s.buf t)) table

-- The thread is past the checks, or has been.
def Got (l : Thread) : Prop :=
  l.current = some .load ∨ l.returned ≠ []

-- Where the pointer can be seen, no thread has got past the checks before the table was complete.
def Safe (s : State Tid B) : Prop :=
  ∀ t table, Got (s.threads t) → s.mem .globalPackageTable = some table → Constructed s.mem table

omit [DecidableEq Tid] in
theorem Got.of_exec (h : Got l') (e : (program t l).exec B .weak m b = some (m', b', l')) :
    Got l ∨ (l.current = some .check ∧ B.view m b .globalPackageTable ≠ none) ∨
      l.current = some .unlock := by
  obtain ⟨_ | pc, ts, rs⟩ := l
  case none => cases e; exact .inl (.inr (h.resolve_left (by simp)))
  case some =>
    have hr (hc : l'.current ≠ some .load) (hr : l'.returned = rs) : Got ⟨some pc, ts, rs⟩ :=
      .inr (hr ▸ h.resolve_left hc)
    cases pc <;> simp only [program, getOrCreatePackageEntryTable] at e
    case check =>
      cases e
      cases hg : B.view m b .globalPackageTable <;> simp only [hg] at hr
      case none => exact .inl (hr (by simp) trivial)
      case some => exact .inr (.inl ⟨rfl, by simp⟩)
    case lock =>
      obtain ⟨rfl, -⟩ := Op.exec_rmw e
      refine .inl (hr ?_ ?_) <;> split <;> simp
    case recheck =>
      cases e
      refine .inl (hr ?_ ?_) <;> dsimp only <;> split <;> simp
    case new =>
      obtain ⟨rfl, -⟩ := Op.exec_rmw e
      exact .inl (hr (by simp) rfl)
    case construct =>
      obtain ⟨-, -, ⟨pc', rfl, -⟩ | ⟨rfl, -⟩⟩ := construct_cases e
      all_goals exact .inl (hr (by simp) rfl)
    case publish => cases e; exact .inl (hr (by simp) rfl)
    case unlock => exact .inr (.inr rfl)
    case load => exact .inl (.inl rfl)

omit [DecidableEq Tid] in
-- The thread that created the table releases the lock when the table is complete.
theorem Phase.constructed_of_unlock (hx : Machine.Mutex.Exclusive .globalTableLock (· = true) Inside s)
    (h : Phase s) (hu : (s.threads t).current = some .unlock)
    (e : (program t (s.threads t)).exec B .weak s.mem (s.buf t) = some (m', b', l'))
    (hm : s.mem .globalPackageTable = some table) : Constructed m' table := by
  have hi : Inside (s.threads t) := by simp [Inside, hu]
  cases h
  case fresh hn _ => cases hn.symm.trans hm
  case creating hn _ _ => cases hn.symm.trans hm
  case publishing c p hg hc _ =>
    obtain rfl := hx.unique t c hi hc.inside
    obtain rfl : p = table := Option.some.inj (hg.symm.trans hm)
    exact (hc.exec e).1
  case complete c p hg hb _ _ =>
    obtain rfl : p = table := Option.some.inj (hg.symm.trans hm)
    exact construct_frame e hb

omit [DecidableEq Tid] in
-- Before the pointer can be seen nobody gets past the checks.
theorem Stage.not_got (h : Stage s t) (hm : s.mem .globalPackageTable = none) : ¬Got (s.threads t) := by
  intro hg
  cases h
  case unaware h =>
    have hl := h.current .load
    simp only [Got, h.returned, ne_eq, not_true, or_false] at hg
    simp [hg] at hl
  case creator h =>
    obtain ⟨_, hl, -⟩ | ⟨hl, -⟩ | ⟨hl, -⟩ := h.current <;> simp [Got, hl, h.returned] at hg
  case publisher hn _ => cases hm.symm.trans hn
  case aware hn _ => cases hm.symm.trans hn

theorem Safe.drain (h : Phase s) (hs : Safe s) (e : B.pop (s.buf t) x = some (v, b')) :
    Safe (B := B) ⟨update s.mem x v, update s.buf t b', s.threads⟩ := by
  intro u table hu hm
  cases hg : s.mem .globalPackageTable
  case none => exact absurd hu ((h.stage u).not_got hg)
  case some p =>
    have ⟨hx, hf⟩ := (h.stage t).fits hg e
    exact (hs u table hu ((update_of_ne (Ne.symm hx) ..).symm.trans hm)).update hf

theorem Safe.step (hx : Machine.Mutex.Exclusive .globalTableLock (· = true) Inside s) (h : Phase s)
    (hs : Safe s) (hc : ChecksComplete s k) (e : (system Tid B junk).Step s k s') : Safe s' := by
  cases e
  case drain e => exact hs.drain h e
  case move t m b l e =>
    intro u table hu hm
    have hg : s.mem .globalPackageTable = some table :=
      (exec_frame (x := .globalPackageTable) e nofun nofun).symm.trans hm
    by_cases hut : u = t
    case neg => exact construct_frame e (hs u table (by simpa [hut] using hu) hg)
    subst hut
    obtain ht | ⟨ht, -⟩ | ht := Got.of_exec (by simpa using hu) e
    · exact construct_frame e (hs u table ht hg)
    · exact construct_frame e (hc ht table hg)
    · exact h.constructed_of_unlock hx ht e hg

theorem Safe.not_torn (h : Phase s) (hs : Safe s) : ¬Torn s := by
  rintro ⟨t, table, hr, hn⟩
  obtain ⟨⟨_, hp, hg⟩, he⟩ := (h.stage t).of_returned hr
  cases hp
  have hb : Constructed s.mem table := hs t table (.inr (List.ne_nil_of_mem hr)) hg
  exact hn (hb.congr fun _ => Buffering.view_nil (he _))

theorem leads_torn_of_load {ts : List Nat} {rs : List (Option Nat)}
    (hl : s.threads t = ⟨some .load, ts, rs⟩) (hm : s.mem .globalPackageTable = some table)
    (hb : ¬Constructed s.mem table) (he : B.Empty (s.buf t)) : (system Tid B junk).Leads Torn s := by
  have e : (program t (s.threads t)).exec B .weak s.mem (s.buf t) =
      some (s.mem, s.buf t, ⟨none, ts, some table :: rs⟩) := by
    rw [hl]
    simp [program, getOrCreatePackageEntryTable, Op.exec, Buffering.view_nil (he _), hm]
  refine .step (.move e) (.refl ⟨t, table, by simp, fun h => hb (h.congr fun _ => ?_)⟩)
  exact (Buffering.view_nil (by simpa using he _)).symm

theorem leads_torn (r : (system Tid B junk).Reachable s) (e : (system Tid B junk).Step s k s')
    (hc : ¬ChecksComplete s k) : (system Tid B junk).Leads Torn s' := by
  cases e
  case drain => exact absurd trivial hc
  case move t m b l e =>
    simp only [ChecksComplete, Classical.not_imp, not_forall] at hc
    obtain ⟨ht, table, hm, hb⟩ := hc
    have he : B.Empty (s.buf t) := ((Phase.of_reachable r).stage t).empty (by simp [Inside, ht])
    rcases hl : s.threads t with ⟨pc, ts, rs⟩
    obtain rfl : pc = some .check := by simpa [hl] using ht
    rw [hl] at e
    cases e
    rw [Buffering.view_nil (he _), hm]
    exact leads_torn_of_load (update_self ..) hm hb (by simpa using he)

theorem checksComplete_exact (Tid : Type) [DecidableEq Tid] (B : Buffering Loc Val)
    (junk : (table : Nat) → (member : Member) → Val (.field table member)) :
    (system Tid B junk).Exact ChecksComplete Torn := by
  refine ⟨fun ls s r => ?safe, fun s k s' r e hc => leads_torn r e hc⟩
  case safe =>
    have hr := r.reachable.of_restrict
    refine Safe.not_torn (Phase.of_reachable hr) (r.reachable.invariant (I := Safe) (fun s hs => ?_)
      fun s k s' r h e => h.step (mutex.exclusive (fun _ => id) r.of_restrict)
        (Phase.of_reachable r.of_restrict) e.1 e.2)
    cases hs
    exact fun t table ht => by simp [Got] at ht

-- The pointer reaches memory before anything else does, and the other thread returns the table.
theorem exists_torn : ∃ s, (system Bool (Buffering.unordered Val) dirty).Reachable s ∧ Torn s := by
  have ⟨s, r, hr, hb⟩ := Machine.exists_reachable_of_schedule (Buffering.unordered Val) .weak
    (program : Program Bool Loc Val Thread) (start dirty) (fun _ => ⟨none, [], []⟩)
    (.replicate 29 (.move true) ++ [.drain true .globalPackageTable] ++ .replicate 3 (.move false))
    (p := fun s => some 0 ∈ (s.threads false).returned ∧
      (Buffering.unordered Val).view s.mem (s.buf false) (.field 0 (.bucket 0)) = some (0 : Nat))
    (by decide)
  refine ⟨s, r, false, 0, hr, fun h => ?_⟩
  cases hb.symm.trans (h.buckets 0 (by decide))

end DragonWell

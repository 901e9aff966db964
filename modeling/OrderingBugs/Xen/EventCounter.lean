import OrderingBugs.Xen.EventChannels
import OrderingBugs.Memory.Termination

open Function

-- Threads that allocate event channels at the same time.
namespace Xen.EventChannels

-- A thread with the call that it is in, and the number of calls it has completed.
structure Thread where
  current : Option Pc
  calls   : Nat
  deriving DecidableEq

def thread (ports : Nat → EvtchnPort) : Thread → Op Loc Val Thread
  | ⟨none, n⟩ => .skip ⟨some .checkMax, n⟩
  | ⟨some pc, n⟩ => evtchnAllocatePort (ports n) (⟨some ·, n⟩) (fun _ => ⟨none, n + 1⟩) pc

abbrev State (Tid : Type) :=
  Interleaving.State Val Tid Thread

abbrev Label (Tid : Type) :=
  Interleaving.Label Tid Thread

variable {Tid : Type}

-- A step with which a call extends the range of valid ports.
def Extends : Label Tid → Bool
  | (_, ⟨some (.storeValid _), _⟩, _) => true
  | _ => false

-- The number of calls that have taken the extending branch.
def extensions (ls : List (Label Tid)) : Nat :=
  ls.countP Extends

variable [DecidableEq Tid]

-- The threads, each with the ports that it asks for one after the other.
def system (ports : Tid → Nat → EvtchnPort) : System (State Tid) (Label Tid) :=
  Interleaving.system (fun t => thread (ports t)) initDomain fun _ => ⟨none, 0⟩

def Quiescent (s : State Tid) : Prop :=
  ∀ t, (s.threads t).current = none

-- No port becomes invalid again, there are not more valid ports than there are ports, and all extensions of
-- their range show when no call is in progress.
structure Counts (ports : Tid → Nat → EvtchnPort) (ls : List (Label Tid)) (s : State Tid) : Prop where
  monotone : ∀ ls₁ s₁, ls₁ <+: ls → (system ports).Run ls₁ s₁ →
    s₁.mem .validEvtchns ≤ s.mem .validEvtchns
  bounded : s.mem .validEvtchns ≤ s.mem .maxEvtchnPort + 1
  counted : Quiescent s →
    (s.mem .validEvtchns).toNat = (initDomain .validEvtchns).toNat + extensions ls

-- A thread extends the range of valid ports only if that still is what the thread has loaded, and has not
-- come to its end.
def Careful (s : State Tid) (l : Label Tid) : Prop :=
  ∀ v, l.2.1.current = some (.storeValid v) → s.mem .validEvtchns = v ∧ v ≤ s.mem .maxEvtchnPort

variable {ports : Tid → Nat → EvtchnPort} {ls ls' : List (Label Tid)} {s s' : State Tid} {l : Label Tid}

-- What a step makes of the range of valid ports.
inductive Effect (s : State Tid) (l : Label Tid) (s' : State Tid) : Prop
  | extend {t : Tid} {n : Nat} {v : EvtchnPort} : s.threads t = ⟨some (.storeValid v), n⟩ →
    l.2.1 = ⟨some (.storeValid v), n⟩ → Extends l = true →
    s' = ⟨update s.mem .validEvtchns (v + 1), update s.threads t ⟨none, n + 1⟩⟩ → Effect ..
  | keep : (∀ v, l.2.1.current ≠ some (.storeValid v)) → Extends l = false →
    s'.mem .validEvtchns = s.mem .validEvtchns → s'.mem .maxEvtchnPort = s.mem .maxEvtchnPort →
    (∀ u v, (s'.threads u).current = some (.storeValid v) →
      (s.threads u).current = some (.storeValid v) ∨ v = s.mem .validEvtchns) → Effect ..

theorem effect (e : (system ports).Step s l s') : Effect s l s' := by
  cases e
  case move t m k e =>
    generalize hl : s.threads t = l at e
    have hu (h : ∀ v, k.current = some (.storeValid v) → v = s.mem .validEvtchns) (u : Tid) (v : EvtchnPort)
        (hv : (update s.threads t k u).current = some (.storeValid v)) :
        (s.threads u).current = some (.storeValid v) ∨ v = s.mem .validEvtchns := by
      by_cases hut : u = t
      case pos => subst hut; exact .inr (h v (by simpa using hv))
      case neg => exact .inl (by simpa [hut] using hv)
    obtain ⟨_ | pc, n⟩ := l
    case none => cases e; exact .keep nofun rfl rfl rfl (hu nofun)
    case some =>
      cases pc
      case checkMax | checkValid | loadEvtchn =>
        cases e
        refine .keep nofun rfl rfl rfl (hu fun v hv => ?_)
        dsimp only at hv
        split at hv <;> cases hv
      case storeEvtchn => cases e; exact .keep nofun rfl (by simp) (by simp) (hu nofun)
      case loadValid =>
        cases e
        exact .keep nofun rfl rfl rfl (hu fun v hv => by cases hv; rfl)
      case storeValid v => cases e; exact .extend hl rfl rfl rfl

omit [DecidableEq Tid] in
@[simp]
theorem extensions_append_singleton :
    extensions (ls ++ [l]) = extensions ls + if Extends l then 1 else 0 := by
  simp [extensions, List.countP_append, List.countP_cons]

-- By how much the range of valid ports, and what the threads are about to make of it, is behind the number
-- of extensions.
structure Behind (d : Nat) (ls : List (Label Tid)) (s : State Tid) : Prop where
  valid  : (s.mem .validEvtchns).toNat + d ≤ 5 + extensions ls
  loaded : ∀ t v, (s.threads t).current = some (.storeValid v) → v.toNat + d ≤ 5 + extensions ls

theorem toNat_add_one_le (v : EvtchnPort) : (v + 1).toNat ≤ v.toNat + 1 := by
  rw [BitVec.toNat_add]
  exact Nat.mod_le _ _

theorem Behind.step {d : Nat} (h : Behind d ls s) (e : (system ports).Step s l s') :
    Behind d (ls ++ [l]) s' := by
  obtain ⟨ht, -, hl, rfl⟩ | ⟨-, hl, hv, -, hu⟩ := effect e
  case extend t n v =>
    have hw := h.loaded t v (by rw [ht])
    have := toNat_add_one_le v
    refine ⟨by simp [hl]; omega, fun u w hu => ?_⟩
    have hut : u ≠ t := by
      rintro rfl
      simp at hu
    have := h.loaded u w (by simpa [hut] using hu)
    simp [hl]
    omega
  case keep =>
    refine ⟨by simpa [hl, hv] using h.valid, fun t v ht => ?_⟩
    obtain ht | rfl := hu t v ht
    · simpa [hl] using h.loaded t v ht
    · simpa [hl] using h.valid

theorem Behind.steps {d : Nat} (h : Behind d ls s) (es : (system ports).Steps s ls' s') :
    Behind d (ls ++ ls') s' := by
  induction es generalizing ls
  case refl => simpa using h
  case step e _ hi => simpa using hi (h.step e)

-- An extension after which the range is not larger than there were extensions before has been lost.
theorem Behind.extend (h : Behind 0 ls s) (e : (system ports).Step s l s') (hl : Extends l = true)
    (hv : (s'.mem .validEvtchns).toNat ≤ 5 + extensions ls) : Behind 1 (ls ++ [l]) s' := by
  obtain ⟨ht, -, -, rfl⟩ | ⟨-, hn, -⟩ := effect e
  case keep => simp [hl] at hn
  case extend t n v =>
    simp only [update_self] at hv
    refine ⟨by simp only [update_self, extensions_append_singleton, hl, if_true]; omega, fun u w hu => ?_⟩
    have hut : u ≠ t := by
      rintro rfl
      simp at hu
    have := h.loaded u w (by simpa [hut] using hu)
    simp only [extensions_append_singleton, hl, if_true]
    omega

-- An update that has been lost stays lost. Otherwise the range is up to date, and no thread is ahead of it.
structure UpToDate (ls : List (Label Tid)) (s : State Tid) : Prop where
  behind : Behind 0 ls s
  valid  : (s.mem .validEvtchns).toNat = 5 + extensions ls

omit [DecidableEq Tid] in
theorem UpToDate.init : UpToDate [] (⟨initDomain, fun _ => ⟨none, 0⟩⟩ : State Tid) :=
  ⟨⟨by simp [initDomain, extensions], nofun⟩, by simp [initDomain, extensions]⟩

theorem UpToDate.step (h : UpToDate ls s) (e : (system ports).Step s l s') :
    Behind 1 (ls ++ [l]) s' ∨ UpToDate (ls ++ [l]) s' := by
  have hb := h.behind.step e
  have hv := h.valid
  by_cases hl : Extends l = true
  case pos =>
    by_cases hs : (s'.mem .validEvtchns).toNat ≤ 5 + extensions ls
    case pos => exact .inl (h.behind.extend e hl hs)
    case neg =>
      have := hb.valid
      simp only [extensions_append_singleton, hl, if_true] at this
      exact .inr ⟨hb, by simp [hl]; omega⟩
  case neg =>
    obtain ⟨-, -, hn, -⟩ | ⟨-, -, hm, -⟩ := effect e
    case extend => exact absurd hn hl
    case keep => exact .inr ⟨hb, by simp [hl, hm, hv]⟩

theorem behind_or_upToDate (r : (system ports).Run ls s) : Behind 1 ls s ∨ UpToDate ls s := by
  refine r.invariant (I := fun ls s => Behind 1 ls s ∨ UpToDate ls s) (fun s hs => ?init)
    fun ls s l s' _ h e => ?step
  case init => cases hs; exact .inr .init
  case step => exact h.elim (fun h => .inl (h.step e)) (·.step e)

theorem maxEvtchnPort_eq (r : (system ports).Reachable s) : s.mem .maxEvtchnPort = uintMax := by
  refine r.invariant (I := fun s => s.mem .maxEvtchnPort = uintMax) (fun s hs => ?init)
    fun s l s' _ h e => ?step
  case init => cases hs; rfl
  case step =>
    obtain ⟨-, -, -, rfl⟩ | ⟨-, -, -, hm, -⟩ := effect e
    case extend => simpa using h
    case keep => exact hm.trans h

-- A step that is not careful loses an update, or goes beyond the last port.
theorem behind_or_lt (r : (system ports).Run ls s) (e : (system ports).Step s l s') (hc : ¬Careful s l) :
    Behind 1 (ls ++ [l]) s' ∨ s'.mem .maxEvtchnPort + 1 < s'.mem .validEvtchns := by
  obtain h | h := behind_or_upToDate r
  case inl => exact .inl (h.step e)
  case inr =>
    have hm := maxEvtchnPort_eq r.reachable
    obtain ⟨ht, hl, hx, rfl⟩ | ⟨hn, -⟩ := effect e
    case keep => exact absurd (fun v hv => absurd hv (hn v)) hc
    case extend t n v =>
      have hv := h.behind.loaded t v (by rw [ht])
      simp only [Careful, hl, Option.some.injEq, Pc.storeValid.injEq, forall_eq', not_and] at hc
      by_cases hs : (v + 1).toNat ≤ 5 + extensions ls
      case pos => exact .inl (h.behind.extend e hx (by simpa using hs))
      case neg =>
        have := h.valid
        have := toNat_add_one_le v
        have hw := hc (BitVec.eq_of_toNat_eq (by omega))
        rw [hm] at hw
        simp only [update_self, ne_eq, reduceCtorEq, not_false_eq_true, update_of_ne, hm]
        right
        simp only [uintMax] at hw ⊢
        generalize extensions ls = n at *
        bv_omega

def Pc.rank : Pc → Nat
  | checkMax => 5
  | checkValid => 4
  | loadEvtchn | storeEvtchn => 3
  | loadValid => 2
  | storeValid _ => 1

def Thread.rank (l : Thread) : Nat :=
  (l.current.map Pc.rank).getD 0

-- The calls that are in progress can be completed before others are made.
theorem leads_quiescent [Fintype Tid] (ports : Tid → Nat → EvtchnPort) (s : State Tid) :
    (system ports).Leads Quiescent s := by
  refine Interleaving.leads_of_rank (p := fun _ => True) Thread.rank (fun s _ hq => ?_) trivial
  simp only [Quiescent, not_forall] at hq
  obtain ⟨t, ht⟩ := hq
  refine ⟨t, ?_⟩
  generalize s.threads t = l at ht
  obtain ⟨_ | pc, n⟩ := l
  case none => exact absurd rfl ht
  case some =>
    cases pc
    case checkMax | checkValid | loadEvtchn =>
      refine ⟨_, _, rfl, ?_, trivial⟩
      dsimp only
      split <;> simp [Thread.rank, Pc.rank]
    all_goals exact ⟨_, _, rfl, Nat.lt_succ_self _, trivial⟩

-- A careful step does not lose an update, nor does it go beyond the last port.
theorem UpToDate.careful (h : UpToDate ls s) (hm : s.mem .maxEvtchnPort = uintMax)
    (hb : s.mem .validEvtchns ≤ uintMax + 1) (hc : Careful s l) (e : (system ports).Step s l s') :
    UpToDate (ls ++ [l]) s' ∧ s'.mem .validEvtchns ≤ uintMax + 1 ∧
      s.mem .validEvtchns ≤ s'.mem .validEvtchns := by
  have hv := h.valid
  have hs := h.behind.step e
  obtain ⟨ht, hl, hx, rfl⟩ | ⟨-, hl, he, -⟩ := effect e
  case keep => exact ⟨⟨hs, by simp [hl, he, hv]⟩, by rwa [he], by rw [he]; exact BitVec.le_refl _⟩
  case extend t n v =>
    obtain ⟨rfl, hw⟩ := hc v (by rw [hl])
    rw [hm] at hw
    simp only [uintMax, update_self] at hw ⊢
    refine ⟨⟨hs, ?_⟩, by bv_omega, by bv_omega⟩
    simp only [update_self, extensions_append_singleton, hx, if_true]
    generalize extensions ls = n at *
    bv_omega

-- What careful threads keep up: the range of valid ports is exact, and as large as it has ever been.
structure Kept (ports : Tid → Nat → EvtchnPort) (ls : List (Label Tid)) (s : State Tid) : Prop where
  upToDate : UpToDate ls s
  bounded  : s.mem .validEvtchns ≤ uintMax + 1
  monotone : ∀ ls₁ s₁, ls₁ <+: ls → (system ports).Run ls₁ s₁ → s₁.mem .validEvtchns ≤ s.mem .validEvtchns

theorem Kept.of_run (r : ((system ports).restrict Careful).Run ls s) : Kept ports ls s := by
  refine r.invariant (S := (system ports).restrict Careful) (I := Kept ports) (fun s hs => ?init) ?step
  case init =>
    cases hs
    refine ⟨.init, (by decide : (5 : EvtchnPort) ≤ uintMax + 1), fun ls₁ s₁ hl r₁ => ?_⟩
    obtain rfl := List.prefix_nil.mp hl
    cases System.Run.nil_iff.mp r₁
    exact BitVec.le_refl _
  case step =>
    rintro ls s l s' r ⟨hu, hb, hm⟩ ⟨hc, e⟩
    have ⟨hu', hb', hv⟩ := hu.careful (maxEvtchnPort_eq r.of_restrict.reachable) hb hc e
    refine ⟨hu', hb', fun ls₁ s₁ hl r₁ => ?_⟩
    obtain rfl | hl := List.prefix_concat_iff.mp hl
    case inl =>
      obtain rfl := Interleaving.run_unique r₁ (r.of_restrict.step e)
      exact BitVec.le_refl _
    case inr => exact BitVec.le_trans (hm ls₁ s₁ hl r₁) hv

theorem counts_exact [Fintype Tid] (ports : Tid → Nat → EvtchnPort) :
    (system ports).ExactRuns Careful (Counts ports) := by
  refine ⟨fun ls s r => ?safe, fun ls s l s' r e hc => ?sharp⟩
  case safe =>
    have h := Kept.of_run r
    refine ⟨h.monotone, ?_, fun _ => h.upToDate.valid⟩
    rw [maxEvtchnPort_eq r.of_restrict.reachable]
    exact h.bounded
  case sharp =>
    obtain h | h := behind_or_lt r e hc
    case inl =>
      -- The update that has been lost shows when the calls have been completed.
      obtain ⟨ls', s'', es, hq⟩ := leads_quiescent ports s'
      refine ⟨ls', s'', es, fun hn => ?_⟩
      have hv := (h.steps es).valid
      rw [List.append_assoc, List.singleton_append, hn.counted hq] at hv
      simp [initDomain] at hv
    case inr => exact ⟨[], s', .refl, fun hn => absurd h (BitVec.not_lt.mpr hn.bounded)⟩

-- Two calls for the sixth port load the same range of valid ports.
theorem not_counts : ¬∀ (ports : Bool → Nat → EvtchnPort) ls s, (system ports).Run ls s →
    Counts ports ls s := by
  intro h
  have r : (system fun (_ : Bool) _ => 6).Run _ _ := .init rfl
  iterate 5 replace r := r.step (.move (t := true) rfl)
  iterate 5 replace r := r.step (.move (t := false) rfl)
  replace r := r.step (.move (t := true) rfl)
  replace r := r.step (.move (t := false) rfl)
  exact absurd ((h _ _ _ r).counted fun t => by cases t <;> rfl) (by decide)

end Xen.EventChannels

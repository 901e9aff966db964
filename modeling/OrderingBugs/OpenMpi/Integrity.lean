import OrderingBugs.OpenMpi.Lifo

open Function

-- When the list stays intact.
namespace OpenMpi

open Harness

variable {pushOperations popOperations : Nat} {spurious : Nat → Bool} {next : Ptr} {free : Int}
variable {m m' : Mem Val} {w w' : Push} {r r' : Pop} {i : Nat} {ps : List Ptr} {n : Ptr}

variable (pushOperations popOperations spurious next free) in
-- The list can break in some continuation of the run.
abbrev CanBreak : State Val Push Pop → Prop :=
  (lifo pushOperations popOperations spurious next free).Leads (¬Intact pushOperations ·)

-- A node that is linked to itself is on no list.
theorem not_chain_of_loop {is : List Item} (h : m (.opalListNext .node) = Ptr.node) : ¬Chain m .node is := by
  intro hc
  generalize hp : Ptr.node = p at hc
  induction hc
  case ghost => cases hp
  case link hi => cases hp; exact hi h.symm

-- With `item` at the sentinel, the push thread pushes the sentinel from wherever it is in its loop.
section Ghost

theorem canBreak_compareExchange (hh : m .opalLifoHead = n) :
    CanBreak pushOperations popOperations spurious next free
      (state m ⟨some (.compareExchange n .ghost), i, ps⟩ r) := by
  refine leads_writer rfl (.refl ?_)
  rw [intact_state]
  intro h
  simpa [hh] using h.ghost

variable (hg : m .item = Ptr.ghost)

include hg

theorem canBreak_loadItemExchange (hh : m .opalLifoHead = n) :
    CanBreak pushOperations popOperations spurious next free
      (state m ⟨some (.loadItemExchange n), i, ps⟩ r) := by
  refine leads_writer rfl ?_
  rw [hg]
  exact canBreak_compareExchange hh

theorem canBreak_storeNext {item : Item} (hh : m .opalLifoHead = n) :
    CanBreak pushOperations popOperations spurious next free
      (state m ⟨some (.storeNext n (.addr item)), i, ps⟩ r) :=
  leads_writer rfl (canBreak_loadItemExchange (by simpa) (by simpa))

theorem canBreak_loadItemNext (hh : m .opalLifoHead = n) :
    CanBreak pushOperations popOperations spurious next free
      (state m ⟨some (.loadItemNext n), i, ps⟩ r) := by
  refine leads_writer rfl ?_
  rw [hg]
  exact canBreak_storeNext hg hh

theorem canBreak_loadHead :
    CanBreak pushOperations popOperations spurious next free (state m ⟨some .loadHead, i, ps⟩ r) :=
  leads_writer rfl (canBreak_loadItemNext hg rfl)

theorem canBreak_storeFree {item : Item} :
    CanBreak pushOperations popOperations spurious next free
      (state m ⟨some (.storeFree (.addr item)), i, ps⟩ r) :=
  leads_writer rfl (canBreak_loadHead (by simpa))

theorem canBreak_loadItem :
    CanBreak pushOperations popOperations spurious next free (state m ⟨some .loadItem, i, ps⟩ r) := by
  refine leads_writer rfl ?_
  rw [hg]
  exact canBreak_storeFree hg

theorem canBreak_none (hi : i < pushOperations) :
    CanBreak pushOperations popOperations spurious next free (state m ⟨none, i, ps⟩ r) :=
  leads_writer (by simp [pushThreadFunc, hi, Op.interleave]; exact ⟨rfl, rfl⟩) (canBreak_loadItem hg)

-- The push that has published the node marks the sentinel in its place as safe to pop.
theorem canBreak_loadItemFree (hh : m .opalLifoHead = Ptr.node) (hf : m (.itemFree .node) = (1 : Int)) :
    CanBreak pushOperations popOperations spurious next free (state m ⟨some .loadItemFree, i, ps⟩ r) := by
  refine leads_writer rfl ?_
  rw [hg]
  refine leads_writer (v := ⟨none, i + 1, ps⟩) rfl ?_
  by_cases hi : i + 1 < pushOperations
  case pos => exact canBreak_none (by simpa) hi
  case neg =>
    refine .refl ?_
    rw [intact_state]
    rintro ⟨⟨is, hc, -, hz⟩, -⟩
    replace hz := hz rfl (Nat.le_of_not_lt hi)
    rw [update_of_ne (by decide), hh] at hc
    cases hc
    case link => simpa [hf] using hz .node (by simp)

end Ghost

-- A push of the node while it is on the list links it to itself.
theorem canBreak_of_onList (hh : m .opalLifoHead = Ptr.node) (hm : m .item = Ptr.node) :
    CanBreak pushOperations popOperations spurious next free
      (state m ⟨some (.storeFree .node), i, ps⟩ r) := by
  have hh' : update m (.itemFree .node) (1 : Int) .opalLifoHead = Ptr.node := by simpa
  have hm' : update m (.itemFree .node) (1 : Int) .item = Ptr.node := by simpa
  refine leads_writer rfl (leads_writer rfl ?_)
  rw [hh']
  refine leads_writer rfl ?_
  rw [hm']
  refine leads_writer rfl (.refl ?_)
  rw [intact_state]
  rintro ⟨⟨is, hc, -⟩, -⟩
  rw [update_of_ne (by decide), hh'] at hc
  exact not_chain_of_loop (update_self ..) hc

-- A pop that takes `item` to the sentinel leaves it there for the push thread.
theorem canBreak_of_readsItem (h : Fine pushOperations m w r) (hi : ReadsItem pushOperations w) :
    CanBreak pushOperations popOperations spurious next free (state (update m .item .ghost) w r') := by
  have hw := h.push
  have hg : update m .item Ptr.ghost .item = Ptr.ghost := update_self ..
  have hu : update m .item Ptr.ghost .opalLifoHead = m .opalLifoHead := by simp
  obtain ⟨_ | pc, i, ps⟩ := w
  case none => exact canBreak_none hg hi
  case some =>
    cases pc
    case loadItem => exact canBreak_loadItem hg
    case storeFree =>
      obtain ⟨rfl, -⟩ := hw
      exact canBreak_storeFree hg
    case loadHead => exact canBreak_loadHead hg
    case loadItemNext =>
      obtain ⟨rfl, hh, -⟩ := hw
      exact canBreak_loadItemNext hg (hu.trans hh)
    case storeNext =>
      obtain ⟨rfl, rfl, hh, -⟩ := hw
      exact canBreak_storeNext hg (hu.trans hh)
    case loadItemExchange =>
      obtain ⟨-, rfl, hh, -⟩ := hw
      exact canBreak_loadItemExchange hg (hu.trans hh)
    case compareExchange =>
      obtain ⟨rfl, -, rfl, hh, hf⟩ := hw
      refine leads_writer (n := update (update m .item .ghost) .opalLifoHead .node)
        (v := ⟨some .loadItemFree, i, .node :: ps⟩) ?_ <|
        canBreak_loadItemFree (by simp) (by simp) (by simpa)
      simp [pushThreadFunc, opalLifoPushAtomic, Op.interleave, hh]
    case loadItemFree =>
      obtain ⟨hh, hf⟩ := hw
      exact canBreak_loadItemFree hg (hu.trans hh) (by simpa)
    case clearFree =>
      obtain ⟨rfl, -⟩ := hw
      exact leads_writer rfl (canBreak_none (by simp) hi)

section Careful

variable {s s' : State Val Push Pop} {l : Label Push Pop}

theorem fine_of_restrict
    (h : (carefulLifo pushOperations popOperations spurious next free).Reachable s) :
    ∃ m w r, s = state m w r ∧ Fine pushOperations m w r :=
  restrict_invariant .init (fun _ w _ _ _ h hc e => h.write (hc.1 w rfl) e)
    (fun _ w r _ _ h hc e => h.read (fun hr => hc.2 r rfl hr w (by simp)) e) h

theorem canBreak_of_not_careful (h : Fine pushOperations m w r)
    (e : (lifo pushOperations popOperations spurious next free).Step (state m w r) l s')
    (hc : ¬Careful pushOperations (state m w r) l) :
    CanBreak pushOperations popOperations spurious next free s' := by
  obtain ⟨m', w', hx, rfl, rfl⟩ | ⟨m', r', hx, rfl, rfl⟩ := step_cases e
  case inl =>
    have ⟨hp, hh⟩ : w.current = some .loadItem ∧ m .opalLifoHead ≠ Ptr.ghost := by
      by_contra hn
      refine hc ⟨fun v hv hp => ?_, nofun⟩
      cases hv
      exact by_contra fun hh => hn ⟨hp, hh⟩
    replace hh := (h.head.resolve_left (hh ·.1)).1
    have hm := h.item (by simp [ReadsItem, hp])
    obtain ⟨pc, i, ps⟩ := w
    obtain rfl : pc = _ := hp
    cases hx
    rw [hm]
    exact canBreak_of_onList hh hm
  case inr =>
    have ⟨hp, hi⟩ : r.current = some (.storeItem .ghost) ∧ ReadsItem pushOperations w := by
      by_contra hn
      refine hc ⟨nofun, fun q hq hp v hv hi => hn ?_⟩
      cases hq
      exact ⟨hp, (writerAt_state.mp hv) ▸ hi⟩
    obtain ⟨pc, i, n, k⟩ := r
    obtain rfl : pc = _ := hp
    cases hx
    exact canBreak_of_readsItem h hi

-- The exchange of the push that is under way has succeeded.
def PushPc.published : Option PushPc → Nat
  | some loadItemFree | some (clearFree _) => 1
  | _ => 0

-- The threads count their operations, and the pushes are those that have succeeded.
structure Counted (pushOperations popOperations : Nat) (w : Push) (r : Pop) : Prop where
  push   : w.current ≠ none → w.i < pushOperations
  pop    : r.current ≠ none → r.i < popOperations
  pushed : w.pushed.length = w.i + PushPc.published w.current

theorem Counted.write (h : Counted pushOperations popOperations w r)
    (e : (pushThreadFunc pushOperations w).interleave m = some (m', w')) :
    Counted pushOperations popOperations w' r := by
  obtain ⟨hw, hr, hp⟩ := h
  obtain ⟨_ | pc, i, ps⟩ := w
  case none =>
    simp only [pushThreadFunc] at e
    split at e <;> cases e
    exact ⟨fun _ => ‹_›, hr, hp⟩
  case some =>
    replace hw : i < pushOperations := hw (by simp)
    cases pc <;> simp only [pushThreadFunc, opalLifoPushAtomic] at e
    case loadItem | loadHead | loadItemNext | loadItemExchange | loadItemFree =>
      cases e
      exact ⟨fun _ => hw, hr, hp⟩
    case storeFree | storeNext =>
      obtain ⟨_, e⟩ := Ptr.interleave_deref e
      cases e
      exact ⟨fun _ => hw, hr, hp⟩
    case compareExchange =>
      cases e
      dsimp only
      split
      case isTrue => exact ⟨fun _ => hw, hr, congrArg (· + 1) hp⟩
      case isFalse => exact ⟨fun _ => hw, hr, hp⟩
    case clearFree =>
      obtain ⟨_, e⟩ := Ptr.interleave_deref e
      cases e
      exact ⟨by simp, hr, hp⟩

theorem Counted.read (h : Counted pushOperations popOperations w r)
    (e : (popThreadFunc popOperations spurious r).interleave m = some (m', r')) :
    Counted pushOperations popOperations w r' := by
  obtain ⟨hw, hr, hp⟩ := h
  obtain ⟨_ | pc, i, n, k⟩ := r
  case none =>
    simp only [popThreadFunc] at e
    split at e <;> cases e
    exact ⟨hw, fun _ => ‹_›, hp⟩
  case some =>
    replace hr : i < popOperations := hr (by simp)
    cases pc <;> simp only [popThreadFunc, opalLifoPopAtomic] at e
    case loadHead | loadItemFree | loadItemNext | loadExpected | storeExpected | loadItemClear =>
      cases e
      exact ⟨hw, fun _ => hr, hp⟩
    case storeItem =>
      cases e
      split
      case isTrue => exact ⟨hw, by simp, hp⟩
      case isFalse => exact ⟨hw, fun _ => hr, hp⟩
    case loadFree =>
      obtain ⟨_, e⟩ := Ptr.interleave_deref e
      cases e
      dsimp only
      split <;> exact ⟨hw, fun _ => hr, hp⟩
    case loadNext | clearFree =>
      obtain ⟨_, e⟩ := Ptr.interleave_deref e
      cases e
      exact ⟨hw, fun _ => hr, hp⟩
    case compareExchange =>
      cases e
      dsimp only
      split
      case isTrue => exact ⟨hw, by simp, hp⟩
      case isFalse => exact ⟨hw, fun _ => hr, hp⟩

theorem Counted.of_reachable
    (h : (lifo pushOperations popOperations spurious next free).Reachable (state m w r)) :
    Counted pushOperations popOperations w r :=
  invariant (I := fun _ w r => Counted pushOperations popOperations w r) ⟨(absurd rfl ·), (absurd rfl ·), rfl⟩
    (fun _ _ _ _ _ h => h.write) (fun _ _ _ _ _ h => h.read) h

theorem careful (hn : pushOperations = 0 ∨ (pushOperations = 1 ∧ popOperations = 0))
    (h : Fine pushOperations m w r) (hc : Counted pushOperations popOperations w r)
    (e : (lifo pushOperations popOperations spurious next free).Step (state m w r) l s') :
    Careful pushOperations (state m w r) l := by
  obtain ⟨m', w', -, rfl, rfl⟩ | ⟨m', r', -, rfl, rfl⟩ := step_cases e
  case inl =>
    refine ⟨fun v hv hp => ?_, nofun⟩
    cases hv
    have hi := hc.push (by simp [hp])
    have hl : w.pushed.length = w.i := by simpa [hp, PushPc.published] using hc.pushed
    obtain ⟨hg, -⟩ | ⟨-, -, hl'⟩ := h.head
    · exact hg
    · omega
  case inr =>
    refine ⟨nofun, fun q hq hp v hv => ?_⟩
    cases hq
    cases writerAt_state.mp hv
    have hj := hc.pop (by simp [hp])
    have hw := hc.push
    obtain ⟨pc, i, ps⟩ := w
    obtain rfl : pushOperations = 0 := by omega
    obtain _ | pc := pc
    case none => simp [ReadsItem]
    case some => simp at hw

theorem canBreak_init (hn : ¬(pushOperations = 0 ∨ (pushOperations = 1 ∧ popOperations = 0))) :
    CanBreak pushOperations popOperations spurious next free
      (state (opalLifoInit next free) ⟨none, 0, []⟩ ⟨none, 0, 0, 0⟩) := by
  by_cases hk : popOperations = 0
  case neg =>
    -- The pop finds the list empty before the first push.
    refine leads_reader (n := opalLifoInit next free) (q := ⟨some .loadHead, 0, 0, 0⟩) ?_ <|
      leads_reader rfl <| leads_reader rfl <| canBreak_none (update_self ..) (by omega)
    simp [popThreadFunc, Op.interleave, Nat.pos_of_ne_zero hk]
  case pos =>
    -- The second push is one of the node that is on the list.
    have h₀ : 0 < pushOperations := by omega
    have h₁ : 1 < pushOperations := by omega
    refine .trans (p := fun s => ∃ m, s = state m ⟨some (.storeFree .node), 1, [.node]⟩ ⟨none, 0, 0, 0⟩ ∧
      m .opalLifoHead = Ptr.node ∧ m .item = Ptr.node) (leads_of_schedule (.replicate 12 .writer) ?_) ?_
    · simp [Code.Interleaved.schedule, pushThreadFunc, opalLifoPushAtomic, Ptr.deref, Op.interleave,
        opalLifoInit, h₀, h₁]
    · rintro _ ⟨m, rfl, hh, hm⟩
      exact canBreak_of_onList hh hm

-- The list stays intact as long as the threads are careful, and whichever step is not, the list can break
-- after the first one. All runs are careful only if there is hardly anything to do.
theorem careful_exact (pushOperations popOperations : Nat) (spurious : Nat → Bool) (next : Ptr) (free : Int) :
    (∀ ls s, (carefulLifo pushOperations popOperations spurious next free).Run ls s →
      Intact pushOperations s) ∧
    (∀ ls s l s', (carefulLifo pushOperations popOperations spurious next free).Run ls s →
      (lifo pushOperations popOperations spurious next free).Step s l s' → ¬Careful pushOperations s l →
      CanBreak pushOperations popOperations spurious next free s') ∧
    ((∀ s, (lifo pushOperations popOperations spurious next free).Reachable s → Intact pushOperations s) ↔
      pushOperations = 0 ∨ (pushOperations = 1 ∧ popOperations = 0)) := by
  have hs (ls s) (h : (carefulLifo pushOperations popOperations spurious next free).Run ls s) :
      Intact pushOperations s := by
    obtain ⟨m, w, r, rfl, hf⟩ := fine_of_restrict h.reachable
    exact intact_state.mpr hf.integrity
  refine ⟨hs, fun ls s l s' h e hc => ?sharp, fun h => ?only, fun hn s h => ?all⟩
  case sharp =>
    obtain ⟨m, w, r, rfl, hf⟩ := fine_of_restrict h.reachable
    exact canBreak_of_not_careful hf e hc
  case only =>
    by_contra hn
    have hb : CanBreak pushOperations popOperations spurious next free _ := canBreak_init hn
    have ⟨s, r, hb⟩ := hb.exists_reachable (.init rfl)
    exact hb (h s r)
  case all =>
    obtain ⟨ls, h⟩ := h
    refine hs ls s (h.restrict fun s l s' r e => ?_)
    obtain ⟨m, w, q, rfl, hf⟩ := fine_of_restrict r
    exact careful hn hf (.of_reachable r.of_restrict) e

end Careful

-- With one push and one pop, the pop finds the list empty before the sentinel is pushed in place of the
-- node.
theorem not_intact : ¬∀ s, (lifo 1 1 (fun _ => false) .null 0).Reachable s → Intact 1 s := by
  have ⟨s, r, hw, hr⟩ : ∃ s, (lifo 1 1 (fun _ => false) .null 0).Reachable s ∧
      s.writerAt ⟨some .loadItemFree, 0, [.ghost]⟩ ∧ s.readerAt ⟨none, 1, 0, 0⟩ :=
    exists_reachable_of_schedule (.replicate 3 .reader ++ .replicate 8 .writer) (by decide)
  exact fun h => absurd (h s r _ _ hw hr).ghost (by simp)

end OpenMpi

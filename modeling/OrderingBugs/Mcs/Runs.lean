import OrderingBugs.Mcs.Refinement

open Function

namespace Mcs

variable {Tid F V L : Type} [DecidableEq Tid] [Flag F] {B : Buffering (Loc Tid) (Val Tid F V)}
variable {stage : L → Stage Tid} {s s' : Machine.State B Tid L} {t u n : Tid} {D : Discipline}
variable {P : Program Tid (Loc Tid) (Val Tid F V) L} {mem₀ : Mem (Val Tid F V)} {threads₀ : Tid → L}

-- The state stands for one of the protocol, and its nodes form a queue.
def Valid (stage : L → Stage Tid) (s : Machine.State B Tid L) : Prop :=
  ∃ a c, Rel stage s a ∧ Queued a c

-- The stages of the thread that has the lock.
def Stage.Owns : Stage Tid → Prop
  | holding | contended | signalled | passing _ => True
  | outside .. | linking _ | linked | faulted => False

-- The thread is in such a stage, or its hand-off has not reached memory yet.
def HasLock (stage : L → Stage Tid) (t : Tid) (l : L) (b : B.Buf) : Prop :=
  (stage l).Owns ∨ (¬(stage l).Inside ∧ ∃ n, n ≠ t ∧ B.pending b (.locked n) ≠ [])

omit [DecidableEq Tid] in
theorem Stage.Owns.inside {σ : Stage Tid} (h : σ.Owns) : σ.Inside := by
  cases σ <;> trivial

-- Outside of the lock, a thread keeps its hand-off in its buffers while it starts the next round.
omit [Flag F] in
theorem HasLock.push {l l' : L} {b : B.Buf} {x : Loc Tid} {v : Val Tid F V x}
    (h : HasLock stage t l b) (hi : ¬(stage l).Inside) (hi' : ¬(stage l').Inside)
    (hx : ∀ n, n ≠ t → .locked n ≠ x) : HasLock stage t l' (B.push b x v) := by
  rcases h with ho | ⟨_, n, hn, hp⟩
  · exact absurd ho.inside hi
  · exact .inr ⟨hi', n, hn, by rwa [Buffering.pending_push_ne (hx n hn)]⟩

namespace Rel

variable {a : State Tid} {c : Fifo.State Tid} (h : Rel stage s a)

include h

theorem phase_owns (ho : HasLock stage t (s.threads t) (s.buf t)) : (a.phase t).Owns := by
  rcases ho with ho | ⟨hi, n, hn, hp⟩
  · have hσ := (h.shape t).stage
    cases hs : stage (s.threads t) <;> simp_all [At, Stage.Owns, Phase.Owns]
  · have hg : grant? (stage (s.threads t)) (a.phase t) = some n := by
      by_contra hg
      simp [(h.shape t).locked, hn, hg] at hp
    simp [(grant?_eq_some_iff.mp hg).2, Phase.Owns]

theorem phase_ne_out (hi : (stage (s.threads t)).Inside) : a.phase t ≠ .out := by
  have hσ := (h.shape t).stage
  cases hs : stage (s.threads t) <;> simp_all [At, Stage.Inside]
  rcases hσ with hσ | ⟨_, hσ⟩ <;> simp [hσ]

theorem inside_of_not_released (hr : ¬(a.phase t).Released) : (stage (s.threads t)).Inside := by
  have hσ := (h.shape t).stage
  cases hs : stage (s.threads t) <;> simp_all [At, Stage.Inside]

-- The last thread in the queue is inside.
theorem inside_of_back (q : Queued a c) (hl : c.queue.getLast? = some t) :
    (stage (s.threads t)).Inside := by
  refine h.inside_of_not_released fun hr => ?_
  have ho := (q.mem t).mp (List.mem_of_getLast? hl)
  exact (q.back t hl).staying.1 (by grind)

theorem inside_of_linking (q : Queued a c) (hl : a.phase t = .linking n) :
    (stage (s.threads n)).Inside := by
  have hn := q.adjacent_of_linking hl
  refine h.inside_of_not_released fun hr => ?_
  have ho := (q.mem n).mp hn.left_mem
  cases (q.edge n t hn).link <;> grind

theorem inside_of_passing (q : Queued a c) (hp : a.phase t = .passing n) :
    (stage (s.threads n)).Inside :=
  h.inside_of_not_released (by simp [(q.adjacent_of_passing hp).2, Phase.Released])

end Rel

namespace Valid

variable (h : Valid stage s)

include h

-- At most one thread has the lock.
theorem owner_unique (ht : HasLock stage t (s.threads t) (s.buf t))
    (hu : HasLock stage u (s.threads u) (s.buf u)) : t = u :=
  have ⟨_, _, h, q⟩ := h
  q.owner_unique (h.phase_owns ht) (h.phase_owns hu)

theorem ne_of_passing (hs : stage (s.threads t) = .passing n) : n ≠ t := by
  obtain ⟨a, c, h, q⟩ := h
  have hσ := (h.shape t).stage
  simp only [hs, At] at hσ
  exact ((q.adjacent_of_passing hσ.1).1.ne q.nodup).symm

-- A thread that reads the field `next` once more finds its successor there.
theorem view_next_of_signalled (hs : stage (s.threads t) = .signalled) :
    ∃ n, B.view s.mem (s.buf t) (.next t) = some n :=
  have ⟨_, _, h, q⟩ := h
  have ⟨n, hn, _⟩ := h.take q hs
  ⟨n, hn⟩

-- No thread follows a null pointer.
theorem not_faulted (t : Tid) : stage (s.threads t) ≠ .faulted := by
  obtain ⟨a, _, h, _⟩ := h
  intro hs
  simpa [hs, At] using (h.shape t).stage

-- The lock is free if and only if no thread is between its exchange and the end of its round.
theorem tail_eq_none_iff : s.mem .tail = none ↔ ∀ t, ¬(stage (s.threads t)).Inside := by
  obtain ⟨a, c, h, q⟩ := h
  have ht : s.mem .tail = c.queue.getLast? := h.tail.trans q.tail
  rw [ht]
  constructor
  · intro hn t hi
    have hq : c.queue = [] := by simpa using hn
    have := (q.mem t).mpr (h.phase_ne_out hi)
    simp [hq] at this
  · intro hi
    cases hl : c.queue.getLast?
    case none => rfl
    case some t => exact absurd (h.inside_of_back q hl) (hi t)

-- If the compare-and-swap of a thread fails, there is a successor.
theorem exists_successor (hs : stage (s.threads t) = .contended) :
    ∃ u, stage (s.threads u) = .linking t ∨ B.pending (s.buf u) (.next t) = [some u] ∨
      s.mem (.next t) = some u := by
  obtain ⟨a, c, h, q⟩ := h
  have hφ : a.phase t = .contended := by simpa [hs, At] using (h.shape t).stage
  obtain ⟨u, hu⟩ := q.exists_adjacent (.inr hφ)
  have hut := hu.ne q.nodup
  refine ⟨u, ?_⟩
  cases (q.edge t u hu).link
  case unlinked hl _ _ =>
    have hσ := (h.shape u).stage
    have hn := (h.shape u).next t
    cases hs : stage (s.threads u) <;>
      simp_all [At, Phase.Released, link?, Phase.predecessor?]
  case linked hn _ => exact .inr (.inr ((congrFun h.next t).trans hn))
  case passing hp => simp [hφ] at hp

-- Some thread inside is not held up once everything has reached memory.
theorem exists_inside (he : s.Flushed) (hi : (stage (s.threads t)).Inside) :
    ∃ u, (stage (s.threads u)).Inside ∧
      (stage (s.threads u) = .linked → Flag.test (s.mem (.locked u)) = false) ∧
      (stage (s.threads u) = .contended → s.mem (.next u) ≠ none) := by
  have hv := h
  obtain ⟨a, c, h, q⟩ := h
  have hq : c.queue ≠ [] := List.ne_nil_of_mem ((q.mem t).mpr (h.phase_ne_out hi))
  obtain ⟨u, hu⟩ : ∃ u, c.queue.head? = some u := ⟨_, List.head?_eq_some_head hq⟩
  have hσ := (h.shape u).stage
  cases hc : c.entered
  case false =>
    have ⟨hφ, _, hl⟩ := (q.front u hu).granted hc
    refine ⟨u, h.inside_of_not_released (by simp [hφ, Phase.Released]), fun _ => ?_, fun hs => ?_⟩
    · exact (congrFun h.locked u).trans hl
    · simp [hs, hφ, At] at hσ
  case true =>
    have ho := (q.front u hu).owns hc
    have hi : (stage (s.threads u)).Inside := by
      by_contra hi
      obtain ⟨n, hn⟩ : ∃ n, a.phase u = .passing n := by
        cases hs : stage (s.threads u) <;> simp_all [At, Stage.Inside]
        grind
      have hp := he u (.locked n)
      simp [(h.shape u).locked, grant?_eq_some_iff.mpr ⟨hi, hn⟩] at hp
    by_cases hs : stage (s.threads u) = .contended
    case pos =>
      obtain ⟨v, hl | hp | hn⟩ := hv.exists_successor hs
      · exact ⟨v, by simp [hl, Stage.Inside], by simp [hl], by simp [hl]⟩
      · simp [he v (.next u)] at hp
      · exact ⟨u, hi, by simp [hs], by simp [hn]⟩
    case neg =>
      refine ⟨u, hi, fun hl => ?_, fun hc => absurd hc hs⟩
      rcases hσ with hσ
      simp only [hl, At] at hσ
      rcases hσ with hφ | ⟨_, hφ⟩ <;> simp [hφ, Phase.Owns] at ho

end Valid

section Runs

variable (hP : Implements D P stage) (h₀ : Ready stage mem₀ threads₀)

include hP h₀

theorem valid_of_reachable
    (r : (guarded B D P stage mem₀ threads₀).Reachable s) : Valid stage s := by
  obtain ⟨a, r, h⟩ := (toProtocol B hP h₀).reachable r
  obtain ⟨c, _, q⟩ := (toFifo Tid).reachable r
  exact ⟨a, c, h, q⟩

-- Threads enter the lock in the order in which they exchange its tail.
theorem entries_prefix_arrivals {ls : List (Machine.Label Tid (Loc Tid) L)}
    (r : (guarded B D P stage mem₀ threads₀).Run ls s) :
    Fifo.entries (ls.flatMap (events stage)) <+: Fifo.arrivals (ls.flatMap (events stage)) := by
  have ⟨_, _, r, _, he⟩ := (toProtocol B hP h₀).run r
  have ⟨_, _, r, _, he'⟩ := (toFifo Tid).run r
  rw [← he, ← he']
  exact Fifo.entries_prefix_arrivals r

end Runs

section Sealed

-- The exchange of a thread finds its buffers empty.
def Sealed (P : Program Tid (Loc Tid) (Val Tid F V) L) (stage : L → Stage Tid)
    (s : Machine.State B Tid L) : Machine.Label Tid (Loc Tid) L → Prop
  | .move t l _ => ∀ o f k, P t l = .rmw o .tail f k → stage l = .outside true true →
    B.Empty (s.buf t)
  | .drain .. => True

omit [Flag F] in
theorem sealed_of_rmwWaits (hw : ∀ o, D.rmwWaits o = true) {l : Machine.Label Tid (Loc Tid) L}
    (e : Machine.Step D P s l s') : Sealed P stage s l := by
  cases e
  case drain => trivial
  case move e =>
    intro o f k hop _
    rw [hop] at e
    exact (Op.exec_rmw e).2.2.2 (hw o)

-- A thread that is inside has no store to its own node left in its buffers.
def Settled (stage : L → Stage Tid) (s : Machine.State B Tid L) : Prop :=
  ∀ t, (stage (s.threads t)).Inside →
    B.pending (s.buf t) (.next t) = [] ∧ B.pending (s.buf t) (.locked t) = []

namespace Settled

variable {l : Machine.Label Tid (Loc Tid) L} (h : Settled stage s) (hP : Implements D P stage)

include h

omit [Flag F] in
theorem pop {x : Loc Tid} {v : Val Tid F V x} {b : B.Buf} (hp : B.pop (s.buf t) x = some (v, b)) :
    Settled stage { s with mem := update s.mem x v, buf := update s.buf t b } := by
  intro u hi
  have ⟨hn, hl⟩ := h u hi
  by_cases hu : u = t
  case pos =>
    subst hu
    simpa using ⟨Buffering.pending_pop_eq_nil hp hn, Buffering.pending_pop_eq_nil hp hl⟩
  case neg => simpa [hu] using ⟨hn, hl⟩

include hP

theorem exec (hv : Valid stage s) {m : Mem (Val Tid F V)} {b : B.Buf} {l : L}
    (hs : Sealed P stage s (.move t (s.threads t) l))
    (e : (P t (s.threads t)).exec B D s.mem (s.buf t) = some (m, b, l)) (hi : (stage l).Inside) :
    B.pending b (.next t) = [] ∧ B.pending b (.locked t) = [] := by
  have acts := hP t (s.threads t)
  generalize hop : P t (s.threads t) = op at acts e
  generalize hσ : stage (s.threads t) = σ at acts
  cases acts
  case halt => cases e
  case skip hk => cases e; exact h t (hσ ▸ hk ▸ hi)
  case fence hk =>
    simp only [Op.exec] at e
    split at e <;> cases e
    exact h t (hσ ▸ hk ▸ hi)
  case loadData hk => cases e; exact h t (hσ ▸ hk _ ▸ hi)
  case storeData hk =>
    obtain ⟨rfl, ⟨-, rfl, -⟩ | ⟨-, rfl, -⟩⟩ := Op.exec_store e
    · simpa [Buffering.pending_push_ne] using h t (hσ ▸ hk ▸ hi)
    · exact h t (hσ ▸ hk ▸ hi)
  case initNext hl => rw [(Op.exec_store e).1, hl] at hi; exact hi.elim
  case initLocked hl => rw [(Op.exec_store e).1, hl] at hi; exact hi.elim
  case pass hl => rw [(Op.exec_store e).1, hl] at hi; exact hi.elim
  case exchange =>
    obtain ⟨-, -, rfl, -⟩ := Op.exec_rmw e
    have he := hs _ _ _ hop hσ
    exact ⟨he _, he _⟩
  case cas hw _ _ =>
    obtain ⟨-, -, rfl, he⟩ := Op.exec_rmw e
    exact ⟨he hw _, he hw _⟩
  case link p _ hl =>
    have hown := h t (hσ ▸ trivial)
    obtain ⟨-, ⟨-, rfl, -⟩ | ⟨-, rfl, -⟩⟩ := Op.exec_store e
    · obtain ⟨a, c, h, q⟩ := hv
      have hφ : a.phase t = .linking p := by simpa [hσ, At] using (h.shape t).stage
      have hne := (q.adjacent_of_linking hφ).ne q.nodup
      simpa [Buffering.pending_push_ne, hne.symm] using hown
    · exact hown
  case spin | inspect | await | take => cases e; exact h t (hσ ▸ trivial)

theorem step (hv : Valid stage s) (hs : Sealed P stage s l) (e : Machine.Step D P s l s') :
    Settled stage s' := by
  cases e
  case drain hp => exact h.pop hp
  case move t _ _ _ e =>
    intro u hi
    by_cases hu : u = t
    case pos => subst hu; simpa using h.exec hP hv hs e (by simpa using hi)
    case neg => simpa [hu] using h u (by simpa [hu] using hi)

theorem timely (hv : Valid stage s) (e : Machine.Step D P s l s') : Timely D P s l := by
  obtain ⟨a, c, hr, q⟩ := hv
  cases e
  case drain t x _ _ hp =>
    intro n hx hn
    have hp := Buffering.pending_pop_self hp
    cases x <;> cases hx
    case next =>
      have hl : link? (stage (s.threads t)) (a.phase t) = some n := by
        by_contra hl
        simp [(hr.shape t).next, hn, hl] at hp
      exact (h n (hr.inside_of_linking q (link?_eq_some_iff.mp hl).2)).1
    case locked =>
      have hg : grant? (stage (s.threads t)) (a.phase t) = some n := by
        by_contra hg
        simp [(hr.shape t).locked, hn, hg] at hp
      exact (h n (hr.inside_of_passing q (grant?_eq_some_iff.mp hg).2)).2
  case move t _ _ _ e =>
    intro o x v k n hop _ hx hn
    have acts := hP t (s.threads t)
    have hσ := (hr.shape t).stage
    rw [hop] at acts
    generalize stage (s.threads t) = σ at acts hσ
    cases acts <;> cases hx
    case initNext | initLocked => exact absurd rfl hn
    case link => exact (h n (hr.inside_of_linking q hσ)).1
    case pass => exact (h n (hr.inside_of_passing q hσ.1)).2

omit hP [Flag F] in
theorem clean (hs : Sealed P stage s l) (e : Machine.Step D P s l s') : Clean P stage s l := by
  cases e
  case drain => trivial
  case move =>
    refine ⟨fun o f k hop hσ n _ => hs o f k hop hσ _, fun n o v k _ hσ => ?_⟩
    exact (h _ (hσ ▸ trivial)).2

end Settled

-- A thread that has just got the lock has empty buffers, apart from the data.
theorem Settled.empty (h : Settled stage s) (hv : Valid stage s) (hs : stage (s.threads t) = .holding)
    (hd : B.pending (s.buf t) .data = []) : B.Empty (s.buf t) := by
  obtain ⟨a, c, hr, _⟩ := hv
  have ⟨hn, hl⟩ := h t (hs ▸ trivial)
  intro x
  cases x
  case tail => exact (hr.shape t).tail
  case data => exact hd
  case next n =>
    by_cases hnt : n = t
    case pos => exact hnt ▸ hn
    case neg => simp [(hr.shape t).next, hnt, hs, link?]
  case locked n =>
    by_cases hnt : n = t
    case pos => exact hnt ▸ hl
    case neg => simp [(hr.shape t).locked, hnt, hs, grant?]

section

variable (hP : Implements D P stage) (h₀ : Ready stage mem₀ threads₀)
variable (hs : ∀ s l s', (Machine.system B D P mem₀ threads₀).Reachable s →
  Machine.Step D P s l s' → Sealed P stage s l)

include hP h₀ hs

theorem settled_of_reachable
    (r : (guarded B D P stage mem₀ threads₀).Reachable s) : Settled stage s := by
  refine r.invariant (fun s h t hi => ?_) fun s l s' r h e => ?_
  · cases h
    simp [h₀.outside t, Stage.Inside] at hi
  · exact h.step hP (valid_of_reachable hP h₀ r) (hs _ _ _ r.of_restrict e.2) e.2

-- If exchanges find the buffers empty, then all stores reach memory in time.
theorem run_of_sealed {ls : List (Machine.Label Tid (Loc Tid) L)}
    (r : (Machine.system B D P mem₀ threads₀).Run ls s) :
    (guarded B D P stage mem₀ threads₀).Run ls s := by
  refine r.restrict fun s l s' r e => ?_
  have h := settled_of_reachable hP h₀ hs r
  have hv := valid_of_reachable hP h₀ r
  exact ⟨h.timely hP hv e, h.clean (hs _ _ _ r.of_restrict e) e⟩

end
end Sealed

section Prompt

-- The hand-off acts on memory directly.
def Prompt (D : Discipline) (P : Program Tid (Loc Tid) (Val Tid F V) L) (stage : L → Stage Tid) :
    Prop :=
  ∀ t l o n v k, P t l = .store o (.locked n) v k → stage l = .passing n → D.buffered o = false

-- No thread outside has a hand-off left in its buffers.
def Handed (stage : L → Stage Tid) (s : Machine.State B Tid L) : Prop :=
  ∀ t n, n ≠ t → ¬(stage (s.threads t)).Inside → B.pending (s.buf t) (.locked n) = []

namespace Handed

variable {l : Machine.Label Tid (Loc Tid) L} (h : Handed stage s) (hP : Implements D P stage)
variable (hd : Prompt D P stage)

include h hP hd

theorem exec {m : Mem (Val Tid F V)} {b : B.Buf} {l : L}
    (e : (P t (s.threads t)).exec B D s.mem (s.buf t) = some (m, b, l)) (hn : n ≠ t)
    (hi : ¬(stage l).Inside) : B.pending b (.locked n) = [] := by
  have acts := hP t (s.threads t)
  generalize hop : P t (s.threads t) = op at acts e
  generalize hσ : stage (s.threads t) = σ at acts
  cases acts
  case halt => cases e
  case skip hk => cases e; exact h t n hn (hσ ▸ hk ▸ hi)
  case fence hk =>
    simp only [Op.exec] at e
    split at e <;> cases e
    exact h t n hn (hσ ▸ hk ▸ hi)
  case loadData hk => cases e; exact h t n hn (hσ ▸ hk _ ▸ hi)
  case storeData hk =>
    obtain ⟨rfl, ⟨-, rfl, -⟩ | ⟨-, rfl, -⟩⟩ := Op.exec_store e
    · simpa [Buffering.pending_push_ne] using h t n hn (hσ ▸ hk ▸ hi)
    · exact h t n hn (hσ ▸ hk ▸ hi)
  case initNext =>
    have hown := h t n hn (hσ ▸ id)
    obtain ⟨-, ⟨-, rfl, -⟩ | ⟨-, rfl, -⟩⟩ := Op.exec_store e
    · simpa [Buffering.pending_push_ne] using hown
    · exact hown
  case initLocked =>
    have hown := h t n hn (hσ ▸ id)
    obtain ⟨-, ⟨-, rfl, -⟩ | ⟨-, rfl, -⟩⟩ := Op.exec_store e
    · simpa [Buffering.pending_push_ne, hn] using hown
    · exact hown
  case exchange k hn hp =>
    rw [(Op.exec_rmw e).1] at hi
    cases ht : s.mem .tail <;> simp [ht, hn, hp, Stage.Inside] at hi
  case link hl => simp [(Op.exec_store e).1, hl, Stage.Inside] at hi
  case spin hset hclear =>
    cases e
    cases hv : Flag.test (B.view s.mem (s.buf t) (.locked t))
    · simp [hclear _ hv, Stage.Inside] at hi
    · simp [hset _ hv, Stage.Inside] at hi
  case inspect hnone hsome | await hnone hsome | take hnone hsome =>
    cases e
    cases hv : B.view s.mem (s.buf t) (.next t) <;> simp [hv, hnone, hsome, Stage.Inside] at hi
  case cas hw _ _ =>
    obtain ⟨-, -, rfl, he⟩ := Op.exec_rmw e
    exact he hw _
  case pass =>
    obtain ⟨-, ⟨-, -, ho⟩ | ⟨-, rfl, he, -⟩⟩ := Op.exec_store e
    · simp [hd t _ _ _ _ _ hop hσ] at ho
    · exact he _

theorem step (e : Machine.Step D P s l s') : Handed stage s' := by
  intro u n hn hi
  cases e
  case drain t _ _ _ hp =>
    have hown := h u n hn hi
    by_cases hu : u = t
    case pos => subst hu; simpa using Buffering.pending_pop_eq_nil hp hown
    case neg => simpa [hu] using hown
  case move t _ _ _ e =>
    by_cases hu : u = t
    case pos => subst hu; simpa using h.exec hP hd e hn (by simpa using hi)
    case neg => simpa [hu] using h u n hn (by simpa [hu] using hi)

omit hP [Flag F] in
theorem clean (e : Machine.Step D P s l s') : Clean P stage s l := by
  cases e
  case drain => trivial
  case move t _ _ _ e =>
    refine ⟨fun o f k _ hσ n hn => h t n hn (hσ ▸ id), fun n o v k hop hσ => ?_⟩
    rw [hop] at e
    obtain ⟨-, ⟨-, -, ho⟩ | ⟨-, -, he, -⟩⟩ := Op.exec_store e
    · simp [hd t _ _ _ _ _ hop hσ] at ho
    · exact he _

end Handed

section

variable (hP : Implements D P stage) (h₀ : Ready stage mem₀ threads₀) (hd : Prompt D P stage)

include hP hd

theorem handed_of_reachable
    (r : (guarded B D P stage mem₀ threads₀).Reachable s) : Handed stage s := by
  refine r.invariant (I := Handed stage) (fun s h t n _ _ => ?_) fun s l s' _ h e => ?_
  · cases h
    exact B.pending_empty _
  · exact h.step hP hd e.2

-- If hand-offs act on memory directly, then it is enough that stores reach memory in time.
theorem run_of_prompt {ls : List (Machine.Label Tid (Loc Tid) L)}
    (r : ((Machine.system B D P mem₀ threads₀).restrict (Timely D P)).Run ls s) :
    (guarded B D P stage mem₀ threads₀).Run ls s := by
  refine System.Run.mono (S := (Machine.system B D P mem₀ threads₀).restrict (Timely D P))
    (fun _ => id) (fun s l s' r e => ?_) r
  exact ⟨⟨e.1, (handed_of_reachable hP hd r).clean hd e.2⟩, e.2⟩

end
end Prompt
end Mcs

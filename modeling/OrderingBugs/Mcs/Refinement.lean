import OrderingBugs.Mcs.Stage

open Function

namespace Mcs

section Memory

variable {Tid F V : Type} [DecidableEq Tid] [Flag F] {m : Mem (Val Tid F V)} {n : Tid}

-- The fields of the nodes in memory.
def nexts (m : Mem (Val Tid F V)) : Tid → Option Tid :=
  fun n => m (.next n)

def lockeds (m : Mem (Val Tid F V)) : Tid → Bool :=
  fun n => Flag.test (m (.locked n))

omit [Flag F] in
@[simp]
theorem nexts_update_next {v : Option Tid} :
    nexts (update m (.next n) v) = update (nexts m) n v := by
  ext1 u
  by_cases hu : u = n
  case pos => subst hu; simp [nexts]
  case neg => simp [nexts, hu]

omit [Flag F] in
@[simp]
theorem nexts_update_locked {v : F} : nexts (update m (.locked n) v) = nexts m := by
  ext1; simp [nexts]

omit [Flag F] in
@[simp]
theorem nexts_update_tail {v : Option Tid} : nexts (update m .tail v) = nexts m := by
  ext1; simp [nexts]

omit [Flag F] in
@[simp]
theorem nexts_update_data {v : V} : nexts (update m .data v) = nexts m := by
  ext1; simp [nexts]

@[simp]
theorem lockeds_update_locked {v : F} :
    lockeds (update m (.locked n) v) = update (lockeds m) n (Flag.test v) := by
  ext1 u
  by_cases hu : u = n
  case pos => subst hu; simp [lockeds]
  case neg => simp [lockeds, hu]

@[simp]
theorem lockeds_update_next {v : Option Tid} : lockeds (update m (.next n) v) = lockeds m := by
  ext1; simp [lockeds]

@[simp]
theorem lockeds_update_tail {v : Option Tid} : lockeds (update m .tail v) = lockeds m := by
  ext1; simp [lockeds]

@[simp]
theorem lockeds_update_data {v : V} : lockeds (update m .data v) = lockeds m := by
  ext1; simp [lockeds]

end Memory

variable {Tid F V L : Type}

def Phase.predecessor? : Phase Tid → Option Tid
  | linking p => some p
  | _ => none

def Phase.successor? : Phase Tid → Option Tid
  | passing s => some s
  | _ => none

-- The node to which a thread has executed its link while the store is not in memory yet.
def link? : Stage Tid → Phase Tid → Option Tid
  | .linked, φ => φ.predecessor?
  | _, _ => none

-- The node to which a thread has executed the hand-off while the store is not in memory yet.
def grant? : Stage Tid → Phase Tid → Option Tid
  | .outside .., φ => φ.successor?
  | _, _ => none

theorem link?_eq_some_iff {σ : Stage Tid} {φ : Phase Tid} {p : Tid} :
    link? σ φ = some p ↔ σ = .linked ∧ φ = .linking p := by
  cases σ <;> cases φ <;> simp [link?, Phase.predecessor?]

theorem grant?_eq_some_iff {σ : Stage Tid} {φ : Phase Tid} {s : Tid} :
    grant? σ φ = some s ↔ ¬σ.Inside ∧ φ = .passing s := by
  cases σ <;> cases φ <;> simp [grant?, Phase.successor?, Stage.Inside]

-- The phases in which a thread can be in a stage.
def At : Stage Tid → Phase Tid → Init → Init → Prop
  | .outside i j, φ, nextInit, lockedInit =>
    φ.Released ∧ nextInit ≠ (if i then .stale else .pending) ∧
      lockedInit ≠ (if j then .stale else .pending)
  | .linking p, φ, _, _ => φ = .linking p
  | .linked, φ, _, _ => φ = .waiting ∨ ∃ p, φ = .linking p
  | .holding, φ, _, _ => φ = .holding
  | .contended, φ, _, _ => φ = .contended
  | .signalled, φ, _, _ => φ = .signalled
  | .passing s, φ, nextInit, _ => φ = .passing s ∧ nextInit ≠ .pending
  | .faulted, _, _, _ => False

variable [DecidableEq Tid] [Flag F]

-- The stage of the thread `t` in terms of the protocol, and its stores to variables of the lock that are
-- not in memory yet.
structure Shape (t : Tid) (σ : Stage Tid) (φ : Phase Tid) (nextInit lockedInit : Init)
    (pending : (x : Loc Tid) → List (Val Tid F V x)) : Prop where
  stage  : At σ φ nextInit lockedInit
  tail   : pending .tail = []
  next   : ∀ n, pending (.next n) =
    (if n = t ∧ nextInit = .pending then [none] else []) ++
    (if link? σ φ = some n then [some t] else [])
  locked : ∀ n, pending (.locked n) =
    (if n = t ∧ lockedInit = .pending then [Flag.set] else []) ++
    (if grant? σ φ = some n then [Flag.clear] else [])

variable {B : Buffering (Loc Tid) (Val Tid F V)}

-- The machine in terms of the protocol.
structure Rel (stage : L → Stage Tid) (s : Machine.State B Tid L) (a : State Tid) : Prop where
  tail   : s.mem .tail = a.tail
  next   : nexts s.mem = a.next
  locked : lockeds s.mem = a.locked
  shape  : ∀ t, Shape t (stage (s.threads t)) (a.phase t) (a.nextInit t) (a.lockedInit t)
    (B.pending (s.buf t))

-- The events that a step of the machine shows.
def events (stage : L → Stage Tid) : Machine.Label Tid (Loc Tid) L → List (Fifo.Event Tid)
  | .move t l l' =>
    match stage l, stage l' with
    | .outside .., .holding => [.arrive t, .enter t]
    | .outside .., .linking _ => [.arrive t]
    | .linked, .holding => [.enter t]
    | _, _ => []
  | .drain .. => []

omit [DecidableEq Tid] in
theorem events_of_stage_eq {l l' : L} (h : stage l' = stage l) :
    events stage (.move t l l') = [] := by
  simp only [events, h]
  cases stage l <;> rfl

-- Steps of the protocol lead to a state that stands for the given one of the machine.
def Matches (stage : L → Stage Tid) (a : State Tid) (es : List (Fifo.Event Tid))
    (s : Machine.State B Tid L) : Prop :=
  ∃ ls a', (system Tid).Steps a ls a' ∧ ls.flatMap Label.events = es ∧ Rel stage s a'

variable {stage : L → Stage Tid} {s s' : Machine.State B Tid L} {a a' : State Tid} {t u n : Tid}
variable {D : Discipline} {m : Mem (Val Tid F V)} {b : B.Buf} {l : L}

def Label.thread : Label Tid → Tid
  | issueNext t | issueLocked t | settleNext t | settleLocked t | exchange t _ | link t | enter t
  | reset t | contend t | signal t | take t | handoff t => t

-- The steps of a thread leave what is known about the other threads as it is.
def Frame (t : Tid) (a a' : State Tid) : Prop :=
  ∀ u, u ≠ t →
    a'.phase u = a.phase u ∧ a'.nextInit u = a.nextInit u ∧ a'.lockedInit u = a.lockedInit u

omit [Flag F] in
theorem Step.frame {l : Label Tid} (e : Step a l a') : Frame l.thread a a' := by
  intro u hu
  cases e <;> simp_all [Label.thread]

namespace Rel

theorem matches_nil (h : Rel stage s a) : Matches stage a [] s :=
  ⟨[], a, .refl, rfl, h⟩

variable (h : Rel stage s a)

include h

theorem update (frame : Frame t a a') (tail : m .tail = a'.tail) (next : nexts m = a'.next)
    (locked : lockeds m = a'.locked)
    (shape : Shape t (stage l) (a'.phase t) (a'.nextInit t) (a'.lockedInit t) (B.pending b)) :
    Rel stage ⟨m, Function.update s.buf t b, Function.update s.threads t l⟩ a' where
  tail := tail
  next := next
  locked := locked
  shape u := by
    by_cases hu : u = t
    case pos => subst hu; simpa using shape
    case neg =>
      have ⟨hp, hn, hl⟩ := frame u hu
      simpa [hu, hp, hn, hl] using h.shape u

theorem update_buf (frame : Frame t a a') (tail : m .tail = a'.tail) (next : nexts m = a'.next)
    (locked : lockeds m = a'.locked)
    (shape : Shape t (stage (s.threads t)) (a'.phase t) (a'.nextInit t) (a'.lockedInit t)
      (B.pending b)) :
    Rel stage ⟨m, Function.update s.buf t b, s.threads⟩ a' := by
  simpa using h.update (l := s.threads t) frame tail next locked shape

theorem view_next (hl : link? (stage (s.threads t)) (a.phase t) = none) :
    B.view s.mem (s.buf t) (.next t) = if a.nextInit t = .pending then none else a.next t := by
  simp only [Buffering.view, (h.shape t).next, hl, ← h.next]
  split_ifs <;> simp_all [nexts]

theorem view_locked (hl : grant? (stage (s.threads t)) (a.phase t) = none) :
    Flag.test (B.view s.mem (s.buf t) (.locked t)) =
      if a.lockedInit t = .pending then true else a.locked t := by
  simp only [Buffering.view, (h.shape t).locked, hl, ← h.locked]
  split_ifs <;> simp_all [lockeds]

-- A buffered store reaches memory.
theorem drain {c : Fifo.State Tid} (q : Queued a c) {x : Loc Tid} {v : Val Tid F V x}
    (hp : B.pop (s.buf t) x = some (v, b))
    (ht : ∀ n, x.owner? = some n → n ≠ t → B.pending (s.buf n) x = []) :
    Matches stage a [] ⟨Function.update s.mem x v, Function.update s.buf t b, s.threads⟩ := by
  obtain ⟨hσ, htail, hnext, hlocked⟩ := h.shape t
  have hx := Buffering.pending_pop_self hp
  have hy (y : Loc Tid) (hy : y ≠ x) := Buffering.pending_pop_ne hp hy
  cases x
  case tail => simp [htail] at hx
  case data =>
    refine matches_nil (h.update_buf (fun _ _ => ⟨rfl, rfl, rfl⟩) ?_ ?_ ?_ ⟨hσ, ?_, ?_, ?_⟩)
    · simpa using h.tail
    · simpa using h.next
    · simpa using h.locked
    · exact hy .tail (by simp) ▸ htail
    · exact fun u => hy (.next u) (by simp) ▸ hnext u
    · exact fun u => hy (.locked u) (by simp) ▸ hlocked u
  case next n =>
    have hl' := hnext n
    rw [hx] at hl'
    by_cases hl : link? (stage (s.threads t)) (a.phase t) = some n
    case pos =>
      obtain ⟨hσ, hφ⟩ := link?_eq_some_iff.mp hl
      have hne := (q.adjacent_of_linking hφ).ne q.nodup
      have hi : a.nextInit n ≠ .pending := by
        intro hi
        have := ht n rfl hne
        simp [(h.shape n).next, hi] at this
      simp [hl, hne] at hl'
      obtain ⟨rfl, hb⟩ := hl'
      have e : Step a (.link t) _ := .link hφ hi
      refine ⟨_, _, .single e, rfl, h.update_buf e.frame ?_ ?_ ?_ ⟨?_, ?_, ?_, ?_⟩⟩
      · simpa using h.tail
      · simp [h.next]
      · simpa using h.locked
      · simp [hσ, At]
      · exact hy .tail (by simp) ▸ htail
      · intro u
        by_cases hu : u = n
        case pos => subst hu; simp [hb, hne, link?_eq_some_iff]
        case neg => rw [← hy (.next u) (by simpa using hu), hnext]; simp [link?_eq_some_iff, hφ, Ne.symm hu]
      · exact fun u => (hy (.locked u) (by simp) ▸ hlocked u).trans (by simp [hσ, grant?])
    case neg =>
      have hn : n = t ∧ a.nextInit t = .pending := by
        by_contra hn
        simp [hl, hn] at hl'
      obtain ⟨rfl, hi⟩ := hn
      simp [hl, hi] at hl'
      obtain ⟨rfl, hb⟩ := hl'
      have e : Step a (.settleNext n) _ := .settleNext hi
      refine ⟨_, _, .single e, rfl, h.update_buf e.frame ?_ ?_ ?_ ⟨?_, ?_, ?_, ?_⟩⟩
      · simpa using h.tail
      · simp [h.next]
      · simpa using h.locked
      · cases hs : stage (s.threads n) <;> simp_all [At]
      · exact hy .tail (by simp) ▸ htail
      · intro u
        by_cases hu : u = n
        case pos => subst hu; simp [hb, hl]
        case neg => rw [← hy (.next u) (by simpa using hu), hnext]; simp [hu]
      · exact fun u => hy (.locked u) (by simp) ▸ hlocked u
  case locked n =>
    have hl' := hlocked n
    rw [hx] at hl'
    by_cases hl : grant? (stage (s.threads t)) (a.phase t) = some n
    case pos =>
      obtain ⟨hi, hφ⟩ := grant?_eq_some_iff.mp hl
      have hne := (q.adjacent_of_passing hφ).1.ne q.nodup
      have hi : a.lockedInit n ≠ .pending := by
        intro hi
        have := ht n rfl hne.symm
        simp [(h.shape n).locked, hi] at this
      simp [hl, hne.symm] at hl'
      obtain ⟨rfl, hb⟩ := hl'
      have e : Step a (.handoff t) _ := .handoff hφ hi
      refine ⟨_, _, .single e, rfl, h.update_buf e.frame ?_ ?_ ?_ ⟨?_, ?_, ?_, ?_⟩⟩
      · simpa using h.tail
      · simpa using h.next
      · simp [h.locked]
      · cases hs : stage (s.threads t) <;> simp_all [At, Phase.Released, Stage.Inside]
      · exact hy .tail (by simp) ▸ htail
      · exact fun u => (hy (.next u) (by simp) ▸ hnext u).trans (by simp [link?_eq_some_iff, hφ])
      · intro u
        by_cases hu : u = n
        case pos => subst hu; simp [hb, hne.symm, grant?_eq_some_iff]
        case neg =>
          rw [← hy (.locked u) (by simpa using hu), hlocked]
          simp [grant?_eq_some_iff, hφ, Ne.symm hu]
    case neg =>
      have hn : n = t ∧ a.lockedInit t = .pending := by
        by_contra hn
        simp [hl, hn] at hl'
      obtain ⟨rfl, hi⟩ := hn
      simp [hl, hi] at hl'
      obtain ⟨rfl, hb⟩ := hl'
      have e : Step a (.settleLocked n) _ := .settleLocked hi
      refine ⟨_, _, .single e, rfl, h.update_buf e.frame ?_ ?_ ?_ ⟨?_, ?_, ?_, ?_⟩⟩
      · simpa using h.tail
      · simpa using h.next
      · simp [h.locked]
      · cases hs : stage (s.threads n) <;> simp_all [At]
      · exact hy .tail (by simp) ▸ htail
      · exact fun u => hy (.next u) (by simp) ▸ hnext u
      · intro u
        by_cases hu : u = n
        case pos => subst hu; simp [hb, hl]
        case neg => rw [← hy (.locked u) (by simpa using hu), hlocked]; simp [hu]

end Rel

namespace Matches

theorem trans {ls : List (Label Tid)} {es es' : List (Fifo.Event Tid)} (e : (system Tid).Steps a ls a')
    (he : ls.flatMap Label.events = es) (h : Matches stage a' es' s) :
    Matches stage a (es ++ es') s :=
  have ⟨_, a'', e', he', h⟩ := h
  ⟨_, a'', e.trans e', by simp [he, he'], h⟩

theorem single {k : Label Tid} (e : Step a k a') (h : Rel stage s a') :
    Matches stage a k.events s :=
  ⟨[k], a', .single e, by simp, h⟩

-- Buffers matter only for what is pending in them.
theorem of_pending {g g' : Tid → B.Buf} {f : Tid → L} {es : List (Fifo.Event Tid)}
    (h : Matches stage a es ⟨m, g, f⟩) (hg : ∀ t, B.pending (g t) = B.pending (g' t)) :
    Matches stage a es ⟨m, g', f⟩ :=
  have ⟨ls, a', e, he, h⟩ := h
  ⟨ls, a', e, he, h.tail, h.next, h.locked, fun t => hg t ▸ h.shape t⟩

end Matches

section Move

-- A thread exchanges `tail` after its last hand-off has reached memory, and hands the lock over after
-- the store that initialises its own field has.
def Clean (P : Program Tid (Loc Tid) (Val Tid F V) L) (stage : L → Stage Tid)
    (s : Machine.State B Tid L) : Machine.Label Tid (Loc Tid) L → Prop
  | .move t l _ =>
    (∀ o f k, P t l = .rmw o .tail f k → stage l = .outside true true →
      ∀ n, n ≠ t → B.pending (s.buf t) (.locked n) = []) ∧
    (∀ n o v k, P t l = .store o (.locked n) v k → stage l = .passing n →
      B.pending (s.buf t) (.locked t) = [])
  | .drain .. => True

-- A store that is not buffered is one that drains at once.
theorem Matches.store (r : (system Tid).Reachable a) {o : Order} {x : Loc Tid} {v : Val Tid F V x}
    {k : L} (h : Matches stage a (events stage (.move t (s.threads t) k))
      ⟨s.mem, update s.buf t (B.push (s.buf t) x v), update s.threads t k⟩)
    (ht : D.buffered o = false → ∀ n, x.owner? = some n → n ≠ t → B.pending (s.buf n) x = [])
    (e : (Op.store o x v k).exec B D s.mem (s.buf t) = some (m, b, l)) :
    Matches stage a (events stage (.move t (s.threads t) l))
      ⟨m, update s.buf t b, update s.threads t l⟩ := by
  obtain ⟨rfl, ⟨rfl, rfl, -⟩ | ⟨rfl, rfl, he, ho⟩⟩ := Op.exec_store e
  · exact h
  · obtain ⟨ls, a₁, e₁, hev, h₁⟩ := h
    have ⟨c, _, q⟩ := (toFifo Tid).reachable (r.steps e₁)
    have ⟨b', hb, he'⟩ := Buffering.pop_push_of_empty (x := x) (v := v) he
    have hd := h₁.drain (t := t) q (x := x) (v := v) (b := b') (by simpa using hb)
      (fun n hx hn => by simpa [hn] using ht ho n hx hn)
    rw [← List.append_nil (events ..)]
    refine (Matches.trans e₁ hev hd).of_pending fun u => ?_
    by_cases hu : u = t
    case pos => subst hu; simpa using funext fun x => (he' x).trans (he x).symm
    case neg => simp [hu]

namespace Rel

variable (h : Rel stage s a)

include h

-- Nothing happens that concerns the lock.
theorem stay (hs : stage l = stage (s.threads t)) :
    Rel stage ⟨s.mem, Function.update s.buf t (s.buf t), Function.update s.threads t l⟩ a :=
  h.update (fun _ _ => ⟨rfl, rfl, rfl⟩) h.tail h.next h.locked (hs ▸ h.shape t)

theorem storeData {v : V} (hs : stage l = stage (s.threads t)) :
    Rel stage ⟨s.mem, Function.update s.buf t (B.push (s.buf t) .data v),
      Function.update s.threads t l⟩ a := by
  have ⟨hσ, htail, hnext, hlocked⟩ := h.shape t
  have hy (y : Loc Tid) (hy : y ≠ .data) := Buffering.pending_push_ne (b := s.buf t) (v := v) hy
  refine h.update (fun _ _ => ⟨rfl, rfl, rfl⟩) h.tail h.next h.locked ⟨?_, ?_, ?_, ?_⟩
  · rwa [hs]
  · exact (hy .tail nofun).trans htail
  · exact fun n => (hy (.next n) nofun).trans (hs ▸ hnext n)
  · exact fun n => (hy (.locked n) nofun).trans (hs ▸ hlocked n)

theorem initNext {i : Bool} (hs : stage (s.threads t) = .outside false i)
    (hl : stage l = .outside true i) :
    Matches stage a [] ⟨s.mem, Function.update s.buf t (B.push (s.buf t) (.next t) none),
      Function.update s.threads t l⟩ := by
  have ⟨hσ, htail, hnext, hlocked⟩ := h.shape t
  have hy (y : Loc Tid) (hy : y ≠ .next t) := Buffering.pending_push_ne (b := s.buf t) (v := none) hy
  simp only [hs, At, Bool.false_eq_true, if_false] at hσ
  have e : Step a (.issueNext t) _ := .issueNext hσ.1 hσ.2.1
  refine .single e (h.update e.frame h.tail h.next h.locked ⟨?_, ?_, ?_, ?_⟩)
  · simpa [hl, At] using ⟨hσ.1, hσ.2.2⟩
  · exact (hy .tail nofun).trans htail
  · intro n
    by_cases hn : n = t
    case pos => subst hn; simp [Buffering.pending_push_self, hnext, hσ.2.1, hs, hl, link?]
    case neg => rw [hy (.next n) (by simpa using hn), hnext]; simp [hn, hs, hl, link?]
  · exact fun n => (hy (.locked n) nofun).trans (by simp [hlocked, hs, hl, grant?])

theorem initLocked {c : Fifo.State Tid} (q : Queued a c) {i : Bool}
    (hs : stage (s.threads t) = .outside i false)
    (hl : stage l = .outside i true) :
    Matches stage a [] ⟨s.mem, Function.update s.buf t (B.push (s.buf t) (.locked t) Flag.set),
      Function.update s.threads t l⟩ := by
  have ⟨hσ, htail, hnext, hlocked⟩ := h.shape t
  have hy (y : Loc Tid) (hy : y ≠ .locked t) :=
    Buffering.pending_push_ne (b := s.buf t) (v := Flag.set) hy
  simp only [hs, At, Bool.false_eq_true, if_false] at hσ
  have e : Step a (.issueLocked t) _ := .issueLocked hσ.1 hσ.2.2
  refine .single e (h.update e.frame h.tail h.next h.locked ⟨?_, ?_, ?_, ?_⟩)
  · simpa [hl, At] using ⟨hσ.1, hσ.2.1⟩
  · exact (hy .tail nofun).trans htail
  · exact fun n => (hy (.next n) nofun).trans (by simp [hnext, hs, hl, link?])
  · intro n
    by_cases hn : n = t
    case pos =>
      subst hn
      have hg : (a.phase n).successor? ≠ some n := fun hg => by
        have hφ := (grant?_eq_some_iff.mp (show grant? (.outside i false) _ = _ from hg)).2
        exact (q.adjacent_of_passing hφ).1.ne q.nodup rfl
      simp [Buffering.pending_push_self, hlocked, hσ.2.2, hs, hl, hg, grant?]
    case neg => rw [hy (.locked n) (by simpa using hn), hlocked]; simp [hn, hs, hl, grant?]

theorem link {p : Tid} (hs : stage (s.threads t) = .linking p) (hl : stage l = .linked) :
    Matches stage a [] ⟨s.mem, Function.update s.buf t (B.push (s.buf t) (.next p) (some t)),
      Function.update s.threads t l⟩ := by
  have ⟨hσ, htail, hnext, hlocked⟩ := h.shape t
  have hy (y : Loc Tid) (hy : y ≠ .next p) :=
    Buffering.pending_push_ne (b := s.buf t) (v := some t) hy
  simp only [hs, At] at hσ
  refine matches_nil (h.update (fun _ _ => ⟨rfl, rfl, rfl⟩) h.tail h.next h.locked ⟨?_, ?_, ?_, ?_⟩)
  · simp [hl, hσ, At]
  · exact (hy .tail nofun).trans htail
  · intro n
    by_cases hn : n = p
    case pos => subst hn; simp [Buffering.pending_push_self, hnext, hσ, hs, hl, link?, Phase.predecessor?]
    case neg =>
      rw [hy (.next n) (by simpa using hn), hnext]
      simp [hσ, hs, hl, link?, Phase.predecessor?, Ne.symm hn]
  · exact fun n => (hy (.locked n) nofun).trans (by simp [hlocked, hs, hl, grant?])

theorem pass {n : Tid} (hs : stage (s.threads t) = .passing n) (hl : stage l = .outside false false)
    (hc : B.pending (s.buf t) (.locked t) = []) :
    Matches stage a [] ⟨s.mem, Function.update s.buf t (B.push (s.buf t) (.locked n) Flag.clear),
      Function.update s.threads t l⟩ := by
  have ⟨hσ, htail, hnext, hlocked⟩ := h.shape t
  have hy (y : Loc Tid) (hy : y ≠ .locked n) :=
    Buffering.pending_push_ne (b := s.buf t) (v := Flag.clear) hy
  simp only [hs, At] at hσ
  have hi : a.lockedInit t ≠ .pending := fun hi => by simp [hlocked, hi] at hc
  refine matches_nil (h.update (fun _ _ => ⟨rfl, rfl, rfl⟩) h.tail h.next h.locked ⟨?_, ?_, ?_, ?_⟩)
  · rw [hl]
    exact ⟨hσ.1 ▸ trivial, hσ.2, hi⟩
  · exact (hy .tail nofun).trans htail
  · exact fun u => (hy (.next u) nofun).trans (by simp [hnext, hs, hl, link?])
  · intro u
    by_cases hu : u = n
    case pos => subst hu; simp [Buffering.pending_push_self, hlocked, hσ, hs, hl, grant?, Phase.successor?]
    case neg =>
      rw [hy (.locked u) (by simpa using hu), hlocked]
      simp [hσ, hs, hl, grant?, Phase.successor?, Ne.symm hu]

-- The steps of the protocol that concern no store of the thread.
theorem step {k : Mcs.Label Tid} (e : Step a k a') (hk : k.thread = t) (tail : m .tail = a'.tail)
    (next : nexts m = a'.next) (locked : lockeds m = a'.locked)
    (hn : a'.nextInit t = .pending ↔ a.nextInit t = .pending)
    (hd : a'.lockedInit t = .pending ↔ a.lockedInit t = .pending)
    (hσ : At (stage l) (a'.phase t) (a'.nextInit t) (a'.lockedInit t))
    (hl : link? (stage l) (a'.phase t) = link? (stage (s.threads t)) (a.phase t))
    (hg : grant? (stage l) (a'.phase t) = grant? (stage (s.threads t)) (a.phase t)) :
    Matches stage a k.events
      ⟨m, Function.update s.buf t (s.buf t), Function.update s.threads t l⟩ := by
  have ⟨_, htail, hnext, hlocked⟩ := h.shape t
  refine .single e (h.update (hk ▸ e.frame) tail next locked ⟨hσ, htail, fun n => ?_, fun n => ?_⟩)
  · simp [hnext, hn, hl]
  · simp [hlocked, hd, hg]

theorem exchange {c : Fifo.State Tid} (q : Queued a c) (hs : stage (s.threads t) = .outside true true)
    (hl : stage l = match s.mem .tail with | none => .holding | some p => .linking p)
    (hc : ∀ n, n ≠ t → B.pending (s.buf t) (.locked n) = []) :
    Matches stage a (Label.exchange t a.tail).events
      ⟨Function.update s.mem .tail (some t), Function.update s.buf t (s.buf t),
        Function.update s.threads t l⟩ := by
  have ⟨hσ, _, _, hlocked⟩ := h.shape t
  simp only [hs, At, if_true] at hσ
  have hφ : a.phase t = .out := by
    refine (Phase.released_iff.mp hσ.1).resolve_right fun ⟨n, hn⟩ => ?_
    have hne := (q.adjacent_of_passing hn).1.ne q.nodup
    have := hc n hne.symm
    simp [hlocked, hs, hn, grant?, Phase.successor?] at this
  have ht : s.mem .tail = a.tail := h.tail
  rw [ht] at hl
  refine h.step (.exchange hφ hσ.2.1 hσ.2.2) rfl ?_ ?_ ?_ .rfl .rfl ?_ ?_ ?_
  · simp
  · simpa using h.next
  · simpa using h.locked
  all_goals
    cases hp : a.tail <;> simp [hl, hp, hs, hφ, At, link?, grant?, Phase.exchanged, Phase.successor?]

theorem enter {c : Fifo.State Tid} (q : Queued a c) (hs : stage (s.threads t) = .linked)
    (hl : stage l = .holding) (hv : Flag.test (B.view s.mem (s.buf t) (.locked t)) = false) :
    Matches stage a [.enter t]
      ⟨s.mem, Function.update s.buf t (s.buf t), Function.update s.threads t l⟩ := by
  have hσ := (h.shape t).stage
  simp only [hs, At] at hσ
  rw [h.view_locked (by simp [hs, grant?])] at hv
  have hd : a.lockedInit t = .done := by
    have hi := (q.issued t (by rcases hσ with hφ | ⟨_, hφ⟩ <;> simp [hφ, Phase.Released])).2
    cases hd : a.lockedInit t <;> simp_all
  have hv : a.locked t = false := by simpa [hd] using hv
  have hφ : a.phase t = .waiting := by
    refine hσ.resolve_right ?_
    rintro ⟨p, hφ⟩
    simpa [hv] using (q.edge p t (q.adjacent_of_linking hφ)).locked hd
  refine h.step (.enter hφ hd hv) rfl h.tail h.next h.locked .rfl .rfl ?_ ?_ ?_
  all_goals simp [hs, hl, hφ, At, link?, grant?, Phase.predecessor?]

theorem reset (hs : stage (s.threads t) = .holding)
    (hl : stage l = .outside false false) (he : B.Empty (s.buf t)) (ht : s.mem .tail = some t) :
    Matches stage a []
      ⟨Function.update s.mem .tail none, Function.update s.buf t (s.buf t),
        Function.update s.threads t l⟩ := by
  have ⟨hσ, _, hnext, hlocked⟩ := h.shape t
  simp only [hs, At] at hσ
  have hn : a.nextInit t ≠ .pending := fun hi => by simpa [hnext, hi] using he (.next t)
  have hd : a.lockedInit t ≠ .pending := fun hi => by simpa [hlocked, hi] using he (.locked t)
  have hr {i : Init} (hi : i ≠ .pending) : i.reset ≠ .pending := by cases i <;> simp_all [Init.reset]
  refine h.step (.reset hσ (h.tail ▸ ht)) rfl ?_ ?_ ?_ ?_ ?_ ?_ ?_ ?_
  · simp
  · simpa using h.next
  · simpa using h.locked
  · simp [hn, hr hn]
  · simp [hd, hr hd]
  · simpa [hl, At, Phase.Released] using ⟨hr hn, hr hd⟩
  · simp [hs, hl, link?]
  · simp [hs, hl, grant?, Phase.successor?]

theorem contend (hs : stage (s.threads t) = .holding) (hl : stage l = .contended)
    (ht : s.mem .tail ≠ some t) :
    Matches stage a []
      ⟨s.mem, Function.update s.buf t (s.buf t), Function.update s.threads t l⟩ := by
  have hσ := (h.shape t).stage
  simp only [hs, At] at hσ
  refine h.step (.contend hσ (h.tail ▸ ht)) rfl h.tail h.next h.locked .rfl .rfl ?_ ?_ ?_
  all_goals simp [hs, hl, At, link?, grant?]

theorem signal {c : Fifo.State Tid} (q : Queued a c) {n : Tid}
    (hs : stage (s.threads t) = .holding ∨ stage (s.threads t) = .contended)
    (hl : stage l = .signalled) (hv : B.view s.mem (s.buf t) (.next t) = some n) :
    Matches stage a []
      ⟨s.mem, Function.update s.buf t (s.buf t), Function.update s.threads t l⟩ := by
  have hφ : a.phase t = .holding ∨ a.phase t = .contended := by
    have hσ := (h.shape t).stage
    rcases hs with hs | hs <;> simp_all [At]
  have hk : link? (stage (s.threads t)) (a.phase t) = none := by
    rcases hs with hs | hs <;> simp [hs, link?]
  have hg : grant? (stage (s.threads t)) (a.phase t) = none := by
    rcases hs with hs | hs <;> simp [hs, grant?]
  rw [h.view_next hk] at hv
  have hd : a.nextInit t = .done := by
    have hi := (q.issued t (by rcases hφ with hφ | hφ <;> simp [hφ, Phase.Released])).1
    cases hd : a.nextInit t <;> simp_all
  have hv : a.next t = some n := by simpa [hd] using hv
  refine h.step (.signal hφ hd (by simp [hv])) rfl h.tail h.next h.locked .rfl .rfl ?_ ?_ ?_
  · simp [hl, At]
  · rw [hk, hl]; rfl
  · rw [hg, hl]; rfl

theorem take {c : Fifo.State Tid} (q : Queued a c) (hs : stage (s.threads t) = .signalled) :
    ∃ n, B.view s.mem (s.buf t) (.next t) = some n ∧ ∀ l, stage l = .passing n →
      Matches stage a []
        ⟨s.mem, Function.update s.buf t (s.buf t), Function.update s.threads t l⟩ := by
  have hσ := (h.shape t).stage
  simp only [hs, At] at hσ
  have ⟨n, _, hd, hn⟩ := q.next_of_signalled hσ
  refine ⟨n, ?_, fun l hl => ?_⟩
  · simp [h.view_next (t := t) (by simp [hs, link?]), hd, hn]
  · refine h.step (.take hσ hn) rfl h.tail h.next h.locked ?_ ?_ ?_ ?_ ?_
    · simp [hd, Init.reset]
    · cases a.lockedInit t <;> simp [Init.reset]
    · simp [hl, hd, At, Init.reset]
    · simp [hs, hl, link?]
    · simp [hs, hl, grant?]

end Rel

-- What a thread does is matched by the protocol.
theorem Matches.move (h : Rel stage s a) (r : (system Tid).Reachable a)
    {P : Program Tid (Loc Tid) (Val Tid F V) L}
    (acts : Acts D t stage (stage (s.threads t)) (P t (s.threads t)))
    (ht : Timely D P s (.move t (s.threads t) l)) (hc : Clean P stage s (.move t (s.threads t) l))
    (e : (P t (s.threads t)).exec B D s.mem (s.buf t) = some (m, b, l)) :
    Matches stage a (events stage (.move t (s.threads t) l))
      ⟨m, update s.buf t b, update s.threads t l⟩ := by
  obtain ⟨c, _, q⟩ := (toFifo Tid).reachable r
  generalize hop : P t (s.threads t) = op at acts e
  generalize hs : stage (s.threads t) = σ at acts
  have hst {o x v k} (ho : op = .store o x v k) (hd : D.buffered o = false) (n : Tid)
      (hx : x.owner? = some n) (hn : n ≠ t) := ht o x v k n (hop.trans ho) hd hx hn
  cases acts
  case halt => cases e
  case skip hk =>
    cases e
    have hl := hk.trans hs.symm
    rw [events_of_stage_eq hl]
    exact (h.stay hl).matches_nil
  case fence hk =>
    simp only [Op.exec] at e
    split at e <;> cases e
    have hl := hk.trans hs.symm
    rw [events_of_stage_eq hl]
    exact (h.stay hl).matches_nil
  case loadData hk =>
    cases e
    have hl := (hk (B.view s.mem (s.buf t) .data)).trans hs.symm
    rw [events_of_stage_eq hl]
    exact (h.stay hl).matches_nil
  case storeData hk =>
    have hl := hk.trans hs.symm
    refine .store r ?_ (hst rfl) e
    rw [events_of_stage_eq hl]
    exact (h.storeData hl).matches_nil
  case initNext hl =>
    exact .store r (by simpa [events, hs, hl] using h.initNext hs hl) (hst rfl) e
  case initLocked hl =>
    exact .store r (by simpa [events, hs, hl] using h.initLocked q hs hl) (hst rfl) e
  case link hl =>
    exact .store r (by simpa [events, hs, hl] using h.link hs hl) (hst rfl) e
  case pass hl =>
    exact .store r (by simpa [events, hs, hl] using h.pass hs hl (hc.2 _ _ _ _ hop hs)) (hst rfl) e
  case exchange k hn hp =>
    obtain ⟨rfl, rfl, rfl, -⟩ := Op.exec_rmw e
    have htail : s.mem .tail = a.tail := h.tail
    cases ht : a.tail
    case none =>
      rw [htail, ht]
      have := h.exchange q hs (l := k none) (by simp [htail, ht, hn]) (hc.1 _ _ _ hop hs)
      simpa [ht, events, hs, hn] using this
    case some p =>
      rw [htail, ht]
      have := h.exchange q hs (l := k (some p)) (by simp [htail, ht, hp]) (hc.1 _ _ _ hop hs)
      simpa [ht, events, hs, hp] using this
  case spin k hset hclear =>
    cases e
    cases hv : Flag.test (B.view s.mem (s.buf t) (.locked t))
    case true =>
      have hl := (hset _ hv).trans hs.symm
      rw [events_of_stage_eq hl]
      exact (h.stay hl).matches_nil
    case false =>
      have hl := hclear _ hv
      simpa [events, hs, hl] using h.enter q hs hl hv
  case inspect hn hp =>
    cases e
    cases hv : B.view s.mem (s.buf t) (.next t)
    case none =>
      have hl := hn.trans hs.symm
      rw [events_of_stage_eq hl]
      exact (h.stay hl).matches_nil
    case some n => simpa [events, hs, hp] using h.signal q (.inl hs) (hp n) hv
  case await hn hp =>
    cases e
    cases hv : B.view s.mem (s.buf t) (.next t)
    case none =>
      have hl := hn.trans hs.symm
      rw [events_of_stage_eq hl]
      exact (h.stay hl).matches_nil
    case some n => simpa [events, hs, hp] using h.signal q (.inr hs) (hp n) hv
  case take _ hp =>
    cases e
    obtain ⟨n, hv, hm⟩ := h.take q hs
    rw [hv]
    simpa [events, hs, hp] using hm _ (hp n)
  case cas k hw ho hp =>
    obtain ⟨rfl, rfl, rfl, he⟩ := Op.exec_rmw e
    by_cases hv : s.mem .tail = some t
    case pos =>
      have := h.reset hs (l := k (some t)) ho (he hw) hv
      simpa [hv, events, hs, ho] using this
    case neg =>
      have := h.contend hs (l := k (s.mem .tail)) (hp _ hv) hv
      simpa [hv, events, hs, hp] using this

end Move

-- All operations of a program are those of the protocol.
def Implements (D : Discipline) (P : Program Tid (Loc Tid) (Val Tid F V) L)
    (stage : L → Stage Tid) : Prop :=
  ∀ t l, Acts D t stage (stage l) (P t l)

-- All threads start outside of the lock, which is free.
structure Ready (stage : L → Stage Tid) (mem₀ : Mem (Val Tid F V)) (threads₀ : Tid → L) : Prop where
  tail    : mem₀ .tail = none
  outside : ∀ t, stage (threads₀ t) = .outside false false

-- The machine confined to steps by which stores reach memory in time.
abbrev guarded (B : Buffering (Loc Tid) (Val Tid F V)) (D : Discipline)
    (P : Program Tid (Loc Tid) (Val Tid F V) L) (stage : L → Stage Tid) (mem₀ : Mem (Val Tid F V))
    (threads₀ : Tid → L) : System (Machine.State B Tid L) (Machine.Label Tid (Loc Tid) L) :=
  (Machine.system B D P mem₀ threads₀).restrict fun s l => Timely D P s l ∧ Clean P stage s l

-- Its runs follow the protocol.
def toProtocol {P : Program Tid (Loc Tid) (Val Tid F V) L} {mem₀ : Mem (Val Tid F V)}
    {threads₀ : Tid → L} (B : Buffering (Loc Tid) (Val Tid F V)) (hP : Implements D P stage)
    (h₀ : Ready stage mem₀ threads₀) :
    (guarded B D P stage mem₀ threads₀).Simulation (system Tid) (events stage) Label.events where
  Rel := Rel stage
  init s hs := by
    cases hs
    refine ⟨⟨none, nexts mem₀, lockeds mem₀, fun _ => .stale, fun _ => .stale, fun _ => .out⟩,
      ⟨rfl, fun _ => rfl, fun _ => rfl, fun _ => rfl⟩, h₀.tail, rfl, rfl, fun t => ?_⟩
    rw [h₀.outside t]
    exact ⟨⟨trivial, nofun, nofun⟩, B.pending_empty _, by simp [B.pending_empty, link?],
      by simp [B.pending_empty, grant?, Phase.successor?]⟩
  step s a l s' _ r h e := by
    obtain ⟨⟨ht, hc⟩, e⟩ := e
    cases e
    case move e => exact Matches.move h r (hP _ _) ht hc e
    case drain hp =>
      have ⟨c, _, q⟩ := (toFifo Tid).reachable r
      exact h.drain q hp ht

end Mcs

import OrderingBugs.Transition.Exact
import OrderingBugs.Memory.Test

open Function

-- Tests in which one thread stores to shared variables, and all others only look at them.
namespace Publication

variable {Loc : Type} {Val : Loc → Type}

inductive Instr (Loc : Type) (Val : Loc → Type)
  | store (o : Order) (x : Loc) (v : Val x)
  | fence (o : Order)

-- An observer can wait for a variable to have a certain value, and its assertions can fail.
inductive Observer (Loc : Type) (Val : Loc → Type)
  | done
  | failed
  | load (o : Order) (x : Loc) (k : Val x → Observer Loc Val)
  | await (o : Order) (x : Loc) (p : Val x → Bool) (k : Observer Loc Val)

inductive Thread (Loc : Type) (Val : Loc → Type)
  | publisher (is : List (Instr Loc Val))
  | observer (o : Observer Loc Val)

def Instr.op (l : L) : Instr Loc Val → Op Loc Val L
  | store o x v => .store o x v l
  | fence o => .fence o l

def Observer.op : Observer Loc Val → Op Loc Val (Thread Loc Val)
  | done | failed => .halt
  | load o x k => .load o x fun v => .observer (k v)
  | await o x p k => .load o x fun v => .observer (if p v then k else .await o x p k)

def Thread.op : Thread Loc Val → Op Loc Val (Thread Loc Val)
  | publisher [] => .halt
  | publisher (i :: is) => i.op (.publisher is)
  | observer o => o.op

def Thread.Failed : Thread Loc Val → Prop
  | observer .failed => True
  | _ => False

end Publication

-- The code of the publisher and of the observers, and the memory that they start with.
structure Publication (Loc : Type) (Val : Loc → Type) (Obs : Type) where
  code      : List (Publication.Instr Loc Val)
  observers : Obs → Publication.Observer Loc Val
  mem       : Mem Val

namespace Publication

variable {Loc Obs : Type} {Val : Loc → Type}

def threads (P : Publication Loc Val Obs) : Option Obs → Thread Loc Val
  | none => .publisher P.code
  | some i => .observer (P.observers i)

def test (P : Publication Loc Val Obs) : Test (Option Obs) Loc Val (Thread Loc Val) where
  program _ := Thread.op
  mem := P.mem
  threads := P.threads
  Failed := Thread.Failed
  Post _ _ := True

variable [DecidableEq Loc]

-- Which stores the later ones to a location can overtake in a buffer.
abbrev Overtaking (Val : Loc → Type) :=
  List (Buffering.Entry Val) → Loc → Prop

def inOrder : Overtaking Val :=
  fun es _ => es = []

def sameLocation : Overtaking Val :=
  fun es x => ∀ e ∈ es, e.1 ≠ x

namespace Instr

-- The store that an instruction puts into the buffer.
def entry? (D : Discipline) : Instr Loc Val → Option (Buffering.Entry Val)
  | store o x v => if D.buffered o then some ⟨x, v⟩ else none
  | fence _ => none

def apply (m : Mem Val) : Instr Loc Val → Mem Val
  | store _ x v => update m x v
  | fence _ => m

-- An instruction can take effect before stores that precede it.
def Passes (passes : Overtaking Val) (D : Discipline) (es : List (Buffering.Entry Val)) :
    Instr Loc Val → Prop
  | store o x _ => if D.buffered o then passes es x else es = []
  | fence o => D.fenceWaits o → es = []

end Instr

-- The next instruction of the publisher to take effect need not be its first one.
inductive Commit (passes : Overtaking Val) (D : Discipline) :
    Mem Val → List (Instr Loc Val) → Mem Val → List (Instr Loc Val) → Prop
  | intro {m : Mem Val} {is js : List (Instr Loc Val)} {i : Instr Loc Val}
    {es : List (Buffering.Entry Val)} :
    is.map (Instr.entry? D) = es.map some → i.Passes passes D es →
    Commit passes D m (is ++ i :: js) (i.apply m) (is ++ js)

-- An observer that looks at memory while the instructions of the publisher take effect may fail.
inductive MayFail (passes : Overtaking Val) (D : Discipline) :
    Mem Val → List (Instr Loc Val) → Observer Loc Val → Prop
  | failed {m : Mem Val} {is : List (Instr Loc Val)} : MayFail passes D m is .failed
  | commit {m m' : Mem Val} {is js : List (Instr Loc Val)} {o : Observer Loc Val} :
    Commit passes D m is m' js → MayFail passes D m' js o → MayFail passes D m is o
  | load {m : Mem Val} {is : List (Instr Loc Val)} {o : Order} {x : Loc}
    {k : Val x → Observer Loc Val} :
    MayFail passes D m is (k (m x)) → MayFail passes D m is (.load o x k)
  | await {m : Mem Val} {is : List (Instr Loc Val)} {o : Order} {x : Loc} {p : Val x → Bool}
    {k : Observer Loc Val} :
    p (m x) = true → MayFail passes D m is k → MayFail passes D m is (.await o x p k)

-- Buffers that can be read as a list of the stores they hold, the oldest first.
structure Queueing (B : Buffering Loc Val) where
  passes     : Overtaking Val
  Holds      : B.Buf → List (Buffering.Entry Val) → Prop
  passes_nil : ∀ x, passes [] x
  empty      : Holds B.empty []
  push       : ∀ {b es x v}, Holds b es → Holds (B.push b x v) (es ++ [⟨x, v⟩])
  pending    : ∀ {b es}, Holds b es → ∀ x, B.pending b x = es.filterMap (Buffering.Entry.at? x)
  pop        : ∀ {b es x v b'}, Holds b es → B.pop b x = some (v, b') →
    ∃ es₁ es₂, es = es₁ ++ ⟨x, v⟩ :: es₂ ∧ passes es₁ x ∧ Holds b' (es₁ ++ es₂)
  exists_pop : ∀ {b es₁ es₂ x v}, Holds b (es₁ ++ ⟨x, v⟩ :: es₂) → passes es₁ x →
    ∃ b', B.pop b x = some (v, b') ∧ Holds b' (es₁ ++ es₂)

namespace Queueing

variable {B : Buffering Loc Val} (Q : Queueing B) {b : B.Buf} {es : List (Buffering.Entry Val)}

theorem empty_iff (h : Q.Holds b es) : B.Empty b ↔ es = [] := by
  simp only [Buffering.Empty, Q.pending h]
  exact Buffering.filterMap_at?_eq_nil_iff

def fifo : Queueing (.fifo Val) where
  passes := inOrder
  Holds b es := b = es
  passes_nil _ := rfl
  empty := rfl
  push := by rintro _ _ _ _ rfl; rfl
  pending := by rintro _ _ rfl _; rfl
  pop := by
    rintro _ _ x v b' rfl h
    exact ⟨[], b', Buffering.fifo_pop h, rfl, rfl⟩
  exists_pop := by
    rintro b _ es x v rfl rfl
    exact ⟨es, by simp [Buffering.fifo], rfl⟩

theorem filterMap_at?_eq_nil {x : Loc} : es.filterMap (Buffering.Entry.at? x) = [] ↔ sameLocation es x := by
  simp only [List.filterMap_eq_nil_iff, sameLocation, Buffering.Entry.at?]
  grind

-- Without the first store to a location, the list holds the same stores to all others.
theorem filterMap_at?_append {es₁ es₂ : List (Buffering.Entry Val)} {x : Loc} {v : Val x}
    (h : sameLocation es₁ x) (y : Loc) :
    (es₁ ++ ⟨x, v⟩ :: es₂).filterMap (Buffering.Entry.at? y) =
      update (fun y => (es₁ ++ es₂).filterMap (Buffering.Entry.at? y)) x
        (v :: (es₁ ++ es₂).filterMap (Buffering.Entry.at? x)) y := by
  by_cases hy : y = x
  case pos =>
    subst hy
    simp [filterMap_at?_eq_nil.mpr h]
  case neg => simp [hy, Ne.symm hy]

theorem eq_append_of_filterMap_at? {x : Loc} {v : Val x} {vs : List (Val x)}
    (h : es.filterMap (Buffering.Entry.at? x) = v :: vs) :
    ∃ es₁ es₂, es = es₁ ++ ⟨x, v⟩ :: es₂ ∧ sameLocation es₁ x := by
  obtain ⟨es₁, e, es₂, rfl, hn, he, -⟩ := List.filterMap_eq_cons_iff.mp h
  refine ⟨es₁, es₂, ?_, filterMap_at?_eq_nil.mp (List.filterMap_eq_nil_iff.mpr hn)⟩
  simp only [Buffering.Entry.at?] at he
  split at he
  case isTrue hx => subst hx; cases he; rfl
  case isFalse => cases he

-- Buffers that let the oldest store to a location drain whatever else they hold.
def ofPending (B : Buffering Loc Val)
    (hp : ∀ {b x v vs}, B.pending b x = v :: vs → ∃ b', B.pop b x = some (v, b')) : Queueing B where
  passes := sameLocation
  Holds b es := ∀ x, B.pending b x = es.filterMap (Buffering.Entry.at? x)
  passes_nil := by simp [sameLocation]
  empty := by simp [B.pending_empty]
  push {b es x v} h y := by
    by_cases hy : y = x
    case pos => subst hy; simp [Buffering.pending_push_self, h]
    case neg => simp [Buffering.pending_push_ne hy, h, Ne.symm hy]
  pending h := h
  pop {b es x v b'} h e := by
    obtain ⟨es₁, es₂, rfl, hs⟩ := eq_append_of_filterMap_at? ((h x).symm.trans (Buffering.pending_pop_self e))
    refine ⟨es₁, es₂, rfl, hs, fun y => ?_⟩
    have hy := (h y).symm.trans (congrFun (B.pending_pop e) y)
    rw [filterMap_at?_append hs] at hy
    by_cases hx : y = x
    case pos => subst hx; simpa using hy.symm
    case neg => simpa [hx] using hy.symm
  exists_pop {b es₁ es₂ x v} h hs := by
    have hx := (h x).trans (filterMap_at?_append hs x)
    obtain ⟨b', e⟩ := hp (hx.trans (update_self ..))
    refine ⟨b', e, fun y => ?_⟩
    have hy := (congrFun (B.pending_pop e) y).symm.trans ((h y).trans (filterMap_at?_append hs y))
    by_cases hx : y = x
    case pos => subst hx; simpa using hy
    case neg => simpa [hx] using hy

-- With partial store order only the stores to one location are in order.
def perLocation [Fintype Loc] : Queueing (.perLocation Val) :=
  ofPending _ Buffering.exists_pop_perLocation

end Queueing

section Machine

variable [DecidableEq Obs] {B : Buffering Loc Val} {D : Discipline} {P : Publication Loc Val Obs}

abbrev State (B : Buffering Loc Val) (Obs : Type) :=
  Machine.State B (Option Obs) (Thread Loc Val)

-- The publisher has issued some instructions whose stores are still in its buffer, and has others left.
-- The observers never have anything in their buffers.
structure Remains (Q : Queueing B) (D : Discipline) (s : State B Obs) (is js : List (Instr Loc Val))
    (es : List (Buffering.Entry Val)) : Prop where
  issued    : is.map (Instr.entry? D) = es.map some
  holds     : Q.Holds (s.buf none) es
  publisher : s.threads none = .publisher js
  empty     : ∀ i, B.Empty (s.buf (some i))
  observer  : ∀ i, ∃ o, s.threads (some i) = .observer o

variable {Q : Queueing B} {s s' : State B Obs} {is js : List (Instr Loc Val)}
variable {es : List (Buffering.Entry Val)} {l : Machine.Label (Option Obs) Loc (Thread Loc Val)}

-- What an observer does next.
def Observer.look (m : Mem Val) : Observer Loc Val → Option (Observer Loc Val)
  | done | failed => none
  | load _ x k => some (k (m x))
  | await o x p k => some (if p (m x) then k else .await o x p k)

omit [DecidableEq Loc] in
theorem Observer.look_await {o : Order} {x : Loc} {p : Val x → Bool} {k : Observer Loc Val}
    {m : Mem Val} (h : p (m x) = true) : (await o x p k).look m = some k := by
  simp [look, h]

omit [DecidableEq Obs] in
theorem Observer.exec_op {o : Observer Loc Val} {m m' : Mem Val} {b b' : B.Buf} {l : Thread Loc Val}
    (he : B.Empty b) (h : o.op.exec B D m b = some (m', b', l)) :
    ∃ o', o.look m = some o' ∧ m' = m ∧ b' = b ∧ l = .observer o' := by
  cases o <;> cases h
  all_goals exact ⟨_, rfl, rfl, rfl, by rw [Buffering.view_nil (he _)]⟩

namespace Remains

omit [DecidableEq Obs] in
theorem init : Remains Q D ⟨P.mem, fun _ => B.empty, P.threads⟩ [] P.code [] where
  issued := rfl
  holds := Q.empty
  publisher := rfl
  empty _ := Buffering.empty_empty
  observer _ := ⟨_, rfl⟩

theorem move_publisher {is' js' : List (Instr Loc Val)} {es' : List (Buffering.Entry Val)} {m : Mem Val}
    {b : B.Buf} (h : Remains Q D s is js es) (hi : is'.map (Instr.entry? D) = es'.map some)
    (hb : Q.Holds b es') :
    Remains Q D ⟨m, update s.buf none b, update s.threads none (.publisher js')⟩ is' js' es' where
  issued := hi
  holds := by simpa using hb
  publisher := by simp
  empty i := by simpa using h.empty i
  observer i := by simpa using h.observer i

theorem move_observer {i : Obs} {o : Observer Loc Val} (h : Remains Q D s is js es) :
    Remains Q D { s with threads := update s.threads (some i) (.observer o) } is js es where
  issued := h.issued
  holds := h.holds
  publisher := by simpa using h.publisher
  empty := h.empty
  observer j := by
    by_cases hj : j = i
    case pos => subst hj; simp
    case neg => simpa [hj] using h.observer j

-- Either the publisher issues an instruction, or one of them takes effect.
def Progress (Q : Queueing B) (D : Discipline) (s : State B Obs) (is : List (Instr Loc Val))
    (s' : State B Obs) : Prop :=
  ∃ is' js' es', Remains Q D s' is' js' es' ∧ (∀ i, s'.threads (some i) = s.threads (some i)) ∧
    ((s'.mem = s.mem ∧ is' ++ js' = is) ∨ Commit Q.passes D s.mem is s'.mem (is' ++ js'))

theorem exec (h : Remains Q D s is js es) {m : Mem Val} {b : B.Buf} {l : Thread Loc Val}
    (e : (s.threads none).op.exec B D s.mem (s.buf none) = some (m, b, l)) :
    Progress Q D s (is ++ js) ⟨m, update s.buf none b, update s.threads none l⟩ := by
  rw [h.publisher] at e
  cases js
  case nil => cases e
  case cons i js =>
    cases i
    case store o x v =>
      obtain ⟨rfl, ⟨rfl, rfl, ho⟩ | ⟨rfl, rfl, he, ho⟩⟩ := Op.exec_store e
      · refine ⟨is ++ [.store o x v], js, es ++ [⟨x, v⟩], ?_, by simp, .inl ⟨rfl, by simp⟩⟩
        exact h.move_publisher (by simp [h.issued, Instr.entry?, ho]) (Q.push h.holds)
      · obtain rfl := (Q.empty_iff h.holds).mp he
        exact ⟨is, js, [], h.move_publisher h.issued h.holds, by simp,
          .inr (.intro h.issued (by simp [Instr.Passes, ho]))⟩
    case fence o =>
      simp only [Thread.op, Instr.op, Op.exec] at e
      split at e <;> cases e
      case _ hw =>
        exact ⟨is, js, es, h.move_publisher h.issued h.holds, by simp,
          .inr (.intro h.issued fun ho => (Q.empty_iff h.holds).mp (hw ho))⟩

theorem drain (h : Remains Q D s is js es) {x : Loc} {v : Val x} {b : B.Buf}
    (e : B.pop (s.buf none) x = some (v, b)) :
    Progress Q D s (is ++ js) { s with mem := update s.mem x v, buf := update s.buf none b } := by
  obtain ⟨es₁, es₂, rfl, hs, hb⟩ := Q.pop h.holds e
  have hi := h.issued
  rw [List.map_append, List.map_eq_append_iff] at hi
  obtain ⟨is₁, is₂, rfl, h₁, h₂⟩ := hi
  rw [List.map_cons, List.map_eq_cons_iff] at h₂
  obtain ⟨i, is₂, rfl, hi, h₂⟩ := h₂
  have hp : i.Passes Q.passes D es₁ ∧ i.apply s.mem = update s.mem x v := by
    cases i <;> simp only [Instr.entry?, reduceCtorEq] at hi
    case store o y w =>
      split at hi <;> cases hi
      case _ ho => exact ⟨by simpa [Instr.Passes, ho] using hs, rfl⟩
  refine ⟨is₁ ++ is₂, js, es₁ ++ es₂, ?_, fun _ => rfl, .inr ?_⟩
  · rw [← update_eq_self none s.threads, h.publisher]
    exact h.move_publisher (by simp [h₁, h₂]) hb
  · rw [← hp.2]
    have hc : Commit Q.passes D s.mem (is₁ ++ i :: (is₂ ++ js)) _ _ := .intro h₁ hp.1
    simpa using hc

-- A step is one of the publisher or of its buffer, or an observer looks at memory.
theorem step_cases (h : Remains Q D s is js es) (e : (P.test.machine B D).Step s l s') :
    Progress Q D s (is ++ js) s' ∨
      ∃ i o o', s.threads (some i) = .observer o ∧ o.look s.mem = some o' ∧
        s' = { s with threads := update s.threads (some i) (.observer o') } := by
  cases e
  case move t m b l e =>
    cases t
    case none => exact .inl (h.exec e)
    case some i =>
      obtain ⟨o, ho⟩ := h.observer i
      simp only [test, ho, Thread.op] at e
      obtain ⟨o', hl, rfl, rfl, rfl⟩ := Observer.exec_op (h.empty i) e
      exact .inr ⟨i, o, o', ho, hl, by simp⟩
  case drain t x v b e =>
    cases t
    case none => exact .inl (h.drain e)
    case some i => exact absurd (Buffering.pending_pop_self e) (by simp [h.empty i x])

theorem of_reachable (r : (P.test.machine B D).Reachable s) : ∃ is js es, Remains Q D s is js es := by
  refine r.invariant (I := fun s => ∃ is js es, Remains Q D s is js es) (fun s h => ?_) ?_
  · cases h
    exact ⟨[], _, [], init⟩
  · rintro s l s' - ⟨is, js, es, h⟩ e
    obtain ⟨is', js', es', h', -⟩ | ⟨i, o, o', -, -, rfl⟩ := h.step_cases e
    · exact ⟨is', js', es', h'⟩
    · exact ⟨is, js, es, h.move_observer⟩

end Remains

theorem MayFail.look {passes : Overtaking Val} {m : Mem Val} {o o' : Observer Loc Val}
    (hl : o.look m = some o') (h : MayFail passes D m is o') : MayFail passes D m is o := by
  cases o <;> cases hl
  case load => exact .load h
  case await o x p k =>
    by_cases hp : p (m x) = true
    case pos => exact .await hp (by simpa [hp] using h)
    case neg => simpa [hp] using h

-- Whatever the other observers do, an observer that fails could have failed on its own.
theorem Remains.mayFail {ls : List (Machine.Label (Option Obs) Loc (Thread Loc Val))} {i : Obs}
    (h : Remains Q D s is js es) (e : (P.test.machine B D).Steps s ls s')
    (hf : s'.threads (some i) = .observer .failed) {o : Observer Loc Val}
    (ho : s.threads (some i) = .observer o) : MayFail Q.passes D s.mem (is ++ js) o := by
  induction e generalizing is js es o
  case refl =>
    cases ho.symm.trans hf
    exact .failed
  case step e _ hi =>
    obtain ⟨is', js', es', h', ht, hc⟩ | ⟨j, o₁, o₂, h₁, hl, rfl⟩ := h.step_cases e
    case inl =>
      have hm := hi h' hf ((ht i).trans ho)
      obtain ⟨hm', hr⟩ | hc := hc
      · rwa [hm', hr] at hm
      · exact .commit hc hm
    case inr =>
      by_cases hj : i = j
      case pos =>
        subst hj
        cases ho.symm.trans h₁
        exact (hi h.move_observer hf (by simp)).look hl
      case neg => exact hi h.move_observer hf (by simpa [hj] using ho)

section Leads

-- The machine is left with certain instructions, in certain memory. The observers have not moved.
def Left (Q : Queueing B) (D : Discipline) (s : State B Obs) (m : Mem Val) (is js : List (Instr Loc Val))
    (es : List (Buffering.Entry Val)) (s' : State B Obs) : Prop :=
  Remains Q D s' is js es ∧ s'.mem = m ∧ ∀ i, s'.threads (some i) = s.threads (some i)

namespace Remains

theorem leads_drain {is₁ is₂ : List (Instr Loc Val)} {es₁ es₂ : List (Buffering.Entry Val)}
    {i : Instr Loc Val} {e : Buffering.Entry Val} (h : Remains Q D s (is₁ ++ i :: is₂) js (es₁ ++ e :: es₂))
    (hi : i.entry? D = some e) (h₁ : is₁.map (Instr.entry? D) = es₁.map some)
    (hp : i.Passes Q.passes D es₁) :
    (P.test.machine B D).Leads (Left Q D s (i.apply s.mem) (is₁ ++ is₂) js (es₁ ++ es₂)) s := by
  cases i <;> simp only [Instr.entry?, reduceCtorEq] at hi
  case store o x v =>
    split at hi <;> cases hi
    case _ ho =>
      simp only [Instr.Passes, ho, if_true] at hp
      obtain ⟨b, e, hb⟩ := Q.exists_pop h.holds hp
      refine .step (.drain e) (.refl ⟨?_, rfl, fun _ => rfl⟩)
      have h₂ := h.issued
      simp only [List.map_append, List.map_cons, h₁, List.append_cancel_left_eq, List.cons.injEq] at h₂
      rw [← update_eq_self none s.threads, h.publisher]
      exact h.move_publisher (by simp [h₁, h₂.2]) hb

theorem leads_push {i : Instr Loc Val} {e : Buffering.Entry Val} (h : Remains Q D s is (i :: js) es)
    (hi : i.entry? D = some e) :
    (P.test.machine B D).Leads (Left Q D s s.mem (is ++ [i]) js (es ++ [e])) s := by
  have hp := h.publisher
  cases i <;> simp only [Instr.entry?, reduceCtorEq] at hi
  case store o x v =>
    split at hi <;> cases hi
    case _ ho =>
      have e : (P.test.program none (s.threads none)).exec B D s.mem (s.buf none) =
          some (s.mem, B.push (s.buf none) x v, .publisher js) := by
        simp [test, hp, Thread.op, Instr.op, Op.exec, ho]
      refine .step (.move e) (.refl ⟨?_, rfl, by simp⟩)
      exact h.move_publisher (by simp [h.issued, Instr.entry?, ho]) (Q.push h.holds)

theorem leads_issue {ks : List (Instr Loc Val)} {fs : List (Buffering.Entry Val)}
    (h : Remains Q D s is (ks ++ js) es) (hk : ks.map (Instr.entry? D) = fs.map some) :
    (P.test.machine B D).Leads (Left Q D s s.mem (is ++ ks) js (es ++ fs)) s := by
  induction ks generalizing s is es fs
  case nil =>
    obtain rfl : fs = [] := by simpa using hk
    exact .refl ⟨by simpa using h, rfl, fun _ => rfl⟩
  case cons i ks hi =>
    obtain _ | ⟨f, fs⟩ := fs
    case nil => simp at hk
    case cons =>
      simp only [List.map_cons, List.cons.injEq] at hk
      refine (h.leads_push (P := P) hk.1).trans fun s' hl => (hi hl.1 hk.2).trans fun s'' hl' => .refl ?_
      exact ⟨by simpa using hl'.1, hl'.2.1.trans hl.2.1, fun j => (hl'.2.2 j).trans (hl.2.2 j)⟩

-- An instruction that is not buffered takes effect when it is issued.
theorem leads_exec {i : Instr Loc Val} (h : Remains Q D s is (i :: js) es) (hi : i.entry? D = none)
    (hp : i.Passes Q.passes D es) :
    (P.test.machine B D).Leads (Left Q D s (i.apply s.mem) is js es) s := by
  have hs := h.publisher
  suffices e : (P.test.program none (s.threads none)).exec B D s.mem (s.buf none) =
      some (i.apply s.mem, s.buf none, .publisher js) from
    .step (.move e) (.refl ⟨h.move_publisher h.issued h.holds, rfl, by simp⟩)
  cases i
  case store o x v =>
    have ho : D.buffered o = false := by simpa [Instr.entry?] using hi
    simp only [Instr.Passes, ho, Bool.false_eq_true, if_false] at hp
    simp [test, hs, Thread.op, Instr.op, Op.exec, ho, (Q.empty_iff h.holds).mpr hp, Instr.apply]
  case fence o =>
    have hw : D.fenceWaits o → B.Empty (s.buf none) := fun ho => (Q.empty_iff h.holds).mpr (hp ho)
    simpa [test, hs, Thread.op, Instr.op, Op.exec, Instr.apply] using hw

omit [DecidableEq Loc] in
theorem eq_append_of_map_eq {is ks : List (Instr Loc Val)} {es fs : List (Buffering.Entry Val)}
    (h : is.map (Instr.entry? D) = es.map some) (hk : (is ++ ks).map (Instr.entry? D) = fs.map some) :
    ∃ fs', fs = es ++ fs' ∧ ks.map (Instr.entry? D) = fs'.map some := by
  rw [List.map_append, h, eq_comm, List.map_eq_append_iff] at hk
  obtain ⟨es', fs', rfl, he, hf⟩ := hk
  exact ⟨fs', by rw [List.map_injective_iff.mpr (Option.some_injective _) he], hf.symm⟩

-- To let an instruction take effect, the publisher issues those before it that it has not issued yet.
theorem leads_commit {is₁ is₂ : List (Instr Loc Val)} {es₁ : List (Buffering.Entry Val)}
    {i : Instr Loc Val} (h : Remains Q D s is js es) (hk : is ++ js = is₁ ++ i :: is₂)
    (h₁ : is₁.map (Instr.entry? D) = es₁.map some) (hp : i.Passes Q.passes D es₁) :
    (P.test.machine B D).Leads
      (fun s' => ∃ is js es, is ++ js = is₁ ++ is₂ ∧ Left Q D s (i.apply s.mem) is js es s') s := by
  have issue (s' : State B Obs) (hl : Left Q D s s.mem is₁ (i :: is₂) es₁ s') :
      (P.test.machine B D).Leads
        (fun s' => ∃ is js es, is ++ js = is₁ ++ is₂ ∧ Left Q D s (i.apply s.mem) is js es s') s' := by
    obtain ⟨h, hm, ht⟩ := hl
    cases hi : i.entry? D
    case none =>
      refine (h.leads_exec (P := P) hi hp).trans fun s'' hl => .refl ⟨is₁, is₂, es₁, rfl, hl.1, ?_⟩
      exact ⟨hm ▸ hl.2.1, fun j => (hl.2.2 j).trans (ht j)⟩
    case some e =>
      refine (h.leads_push (P := P) hi).trans fun s₂ hl => ?_
      refine (hl.1.leads_drain (P := P) hi h₁ hp).trans fun s₃ hl' => .refl ⟨_, is₂, _, ?_, hl'.1, ?_⟩
      · simp
      · exact ⟨by rw [hl'.2.1, hl.2.1, hm], fun j => (hl'.2.2 j).trans ((hl.2.2 j).trans (ht j))⟩
  obtain ⟨ks, rfl, rfl⟩ | ⟨ks, rfl, hks⟩ := List.append_eq_append_iff.mp hk
  case inl =>
    obtain ⟨fs, rfl, hf⟩ := eq_append_of_map_eq h.issued h₁
    exact (h.leads_issue (P := P) hf).trans issue
  case inr =>
    obtain ⟨fs, rfl, hf⟩ := eq_append_of_map_eq h₁ h.issued
    obtain _ | ⟨k, ks⟩ := ks
    case nil =>
      obtain rfl : i :: is₂ = js := hks
      obtain rfl : fs = [] := by simpa using hf
      exact issue s ⟨by simpa using h, rfl, fun _ => rfl⟩
    case cons =>
      obtain ⟨rfl, rfl⟩ := List.cons.inj hks
      obtain ⟨f, fs, rfl, hi, -⟩ := List.map_eq_cons_iff.mp hf.symm
      exact (h.leads_drain (P := P) hi.symm h₁ hp).trans fun s' hl => .refl ⟨_, js, _, by simp, hl⟩

theorem leads_look {i : Obs} {o o' : Observer Loc Val} (h : Remains Q D s is js es)
    (ho : s.threads (some i) = .observer o) (hl : o.look s.mem = some o') :
    (P.test.machine B D).Leads (fun s' => Remains Q D s' is js es ∧ s'.mem = s.mem ∧
      s'.threads (some i) = .observer o') s := by
  have e : (P.test.program (some i) (s.threads (some i))).exec B D s.mem (s.buf (some i)) =
      some (s.mem, s.buf (some i), .observer o') := by
    rw [ho]
    cases o <;> cases hl
    all_goals simp [test, Thread.op, Observer.op, Op.exec, Buffering.view_nil (h.empty i _)]
  refine .step (.move e) (.refl ⟨?_, rfl, by simp⟩)
  simpa using h.move_observer

-- A way to fail is one for the machine.
theorem leads_failed {i : Obs} {o : Observer Loc Val} {m : Mem Val} {ks : List (Instr Loc Val)}
    (hf : MayFail Q.passes D m ks o) (h : Remains Q D s is js es) (hm : s.mem = m)
    (hk : is ++ js = ks) (ho : s.threads (some i) = .observer o) :
    (P.test.machine B D).Leads (fun s => s.threads (some i) = .observer .failed) s := by
  induction hf generalizing s is js es
  case failed => exact .refl ho
  case commit hc _ hi =>
    obtain ⟨h₁, hp⟩ := hc
    subst hm
    refine (h.leads_commit (P := P) hk h₁ hp).trans fun s' hl => ?_
    obtain ⟨is', js', es', hk', h', hm', ht⟩ := hl
    exact hi h' hm' hk' ((ht i).trans ho)
  case load hi =>
    subst hm
    refine (h.leads_look (P := P) ho rfl).trans fun s' hl => ?_
    exact hi hl.1 hl.2.1 hk hl.2.2
  case await hp _ hi =>
    subst hm
    refine (h.leads_look (P := P) ho (Observer.look_await hp)).trans fun s' hl => ?_
    exact hi hl.1 hl.2.1 hk hl.2.2

end Remains
end Leads

omit [DecidableEq Loc] in
theorem failed_iff {t : Thread Loc Val} : t.Failed ↔ t = .observer .failed := by
  obtain _ | o := t
  case publisher => simp [Thread.Failed]
  case observer => cases o <;> simp [Thread.Failed]

-- A publication can be judged without its threads: an observer fails on some machine with store buffers
-- if and only if it may fail on its own, while the stores of the publisher take effect in an order that
-- the buffers allow.
theorem violates_iff (Q : Queueing B) (D : Discipline) (P : Publication Loc Val Obs) :
    P.test.Violates B D ↔ ∃ i, MayFail Q.passes D P.mem P.code (P.observers i) where
  mp h := by
    obtain ⟨s, ⟨ls, r⟩, hf⟩ := h
    have es : (P.test.machine B D).Steps ⟨P.mem, fun _ => B.empty, P.threads⟩ ls s :=
      r.exists_steps fun _ => id
    obtain ⟨t, hf⟩ | ⟨-, -, hf⟩ := hf
    case inr => exact absurd trivial hf
    case inl =>
      have hf : (s.threads t) = .observer .failed := failed_iff.mp hf
      obtain _ | j := t
      case none =>
        obtain ⟨_, _, _, h⟩ := Remains.of_reachable (Q := Q) r.reachable
        exact absurd (h.publisher.symm.trans hf) (by simp)
      case some => exact ⟨j, Remains.init.mayFail (Q := Q) es hf rfl⟩
  mpr := by
    rintro ⟨i, h⟩
    have hl := Remains.init.leads_failed (P := P) (i := i) h rfl rfl rfl
    obtain ⟨s, r, hf⟩ := hl.exists_reachable (.init rfl)
    exact ⟨s, r, .inl ⟨some i, failed_iff.mpr hf⟩⟩

-- Nobody can overtake a store of its own, so interleavings fail like runs with total store order.
theorem interleavingViolates_iff (P : Publication Loc Val Obs) :
    P.test.InterleavingViolates ↔ P.test.Violates (.fifo Val) D := by
  rw [← Test.orderedViolates_iff (D := D)]
  refine ⟨Test.OrderedViolates.violates, Test.Violates.ordered fun s l s' r e ho => ?_⟩
  obtain ⟨is, js, es, h⟩ := Remains.of_reachable (Q := .fifo) r
  cases ho
  case move t l l' x y hr hn hp =>
    cases e
    obtain _ | i := t
    case none =>
      simp only [test, h.publisher] at hr
      obtain _ | ⟨_ | _, _⟩ := js <;> cases hr
    case some => exact hp (h.empty i x)

end Machine
end Publication

import OrderingBugs.Memory.Log
import OrderingBugs.Memory.Solo
import OrderingBugs.Transition.Exact

open Function

-- The monitor of `13-JDK.c`: a thread that enters it waits until one that exits has taken it off the list.
namespace Jdk.ObjectMonitor

inductive Tid
  | enter
  | exit
  deriving DecidableEq

inductive Loc
  | state
  | next
  | entryList
  | semaphore
  deriving DecidableEq

open Tid Loc

instance : Fintype Loc where
  elems := {state, next, entryList, semaphore}
  complete x := by cases x <;> decide

-- `ObjectWaiter *`. There is only one of them, but what has been allocated may contain anything.
inductive Pointer
  | null
  | node
  | wild (address : Nat)
  deriving DecidableEq

abbrev Val : Loc → Type
  | state | semaphore => Int
  | next | entryList => Pointer

def tsEnter : Int := 0
def tsRun : Int := 1

inductive Pc
  | storeState
  | loadEntryList
  | storeNext (p : Pointer)
  | storeEntryList
  | loadState
  | loadSemaphore
  | entered
  | test
  | loadW
  | loadNext
  | unlink (p : Pointer)
  | storeSemaphore
  | storeRun
  | exited
  | nothing
  | fault
  deriving DecidableEq

def simpleEnter : Pc → Op Loc Val Pc
  | .storeState => .store .plain state tsEnter .loadEntryList
  | .loadEntryList => .load .plain entryList .storeNext
  | .storeNext p => .store .plain next p .storeEntryList
  | .storeEntryList => .store .plain entryList .node .loadState
  | .loadState => .load .plain state fun v => if v = tsEnter then .loadSemaphore else .entered
  | .loadSemaphore => .load .plain semaphore fun v => if v = 0 then .entered else .loadState
  | _ => .halt

-- It returns early if it has found nothing.
def simpleExit : Pc → Op Loc Val Pc
  | .test => .load .plain entryList fun p => if p = .null then .nothing else .loadW
  | .loadW => .load .plain entryList fun
    | .null => .nothing
    | .node => .loadNext
    | .wild _ => .fault
  | .loadNext => .load .plain next .unlink
  | .unlink p => .store .plain entryList p .storeSemaphore
  | .storeSemaphore => .store .plain semaphore 1 .storeRun
  | .storeRun => .store .plain state tsRun .exited
  | _ => .halt

def program : Program Tid Loc Val Pc
  | enter => simpleEnter
  | exit => simpleExit

-- The members of the node contain what has been there before.
def start (state₀ : Int) (next₀ : Pointer) : Mem Val
  | state => state₀
  | next => next₀
  | entryList => .null
  | semaphore => (0 : Int)

def threads₀ : Tid → Pc
  | enter => .storeState
  | exit => .test

abbrev State (B : Buffering Loc Val) :=
  Machine.State B Tid Pc

abbrev Label :=
  Machine.Label Tid Loc Pc

abbrev machine (B : Buffering Loc Val) (state₀ : Int) (next₀ : Pointer) : System (State B) Label :=
  Machine.system B .flushing program (start state₀ next₀) threads₀

variable {B : Buffering Loc Val} {state₀ : Int} {next₀ : Pointer} {m m' : Mem Val} {b b' c c' : B.Buf}
variable {a a' k k' : Pc} {x : Loc} {v : Val x} {s s' : State B} {l : Label}

theorem enter_cases (e : (simpleEnter a).exec B .flushing m b = some (m', b', a')) :
    m' = m ∧ ((a = .storeState ∧ a' = .loadEntryList ∧ b' = B.push b state tsEnter) ∨
      (a = .loadEntryList ∧ a' = .storeNext (B.view m b entryList) ∧ b' = b) ∨
      (∃ p, a = .storeNext p ∧ a' = .storeEntryList ∧ b' = B.push b next p) ∨
      (a = .storeEntryList ∧ a' = .loadState ∧ b' = B.push b entryList .node) ∨
      (a = .loadState ∧ b' = b ∧ a' = if B.view m b state = tsEnter then .loadSemaphore else .entered) ∨
      (a = .loadSemaphore ∧ b' = b ∧ a' = if B.view m b semaphore = (0 : Int) then .entered else .loadState)) := by
  cases a <;> cases e <;> simp

theorem exit_cases (e : (simpleExit k).exec B .flushing m c = some (m', c', k')) :
    m' = m ∧ ((k = .test ∧ c' = c ∧ k' = if B.view m c entryList = .null then .nothing else .loadW) ∨
      (k = .loadW ∧ c' = c ∧ (k' = .nothing ∧ B.view m c entryList = .null ∨ k' = .loadNext ∨ k' = .fault)) ∨
      (k = .loadNext ∧ c' = c ∧ k' = .unlink (B.view m c next)) ∨
      (∃ p, k = .unlink p ∧ k' = .storeSemaphore ∧ c' = B.push c entryList p) ∨
      (k = .storeSemaphore ∧ k' = .storeRun ∧ c' = B.push c semaphore (1 : Int)) ∨
      (k = .storeRun ∧ k' = .exited ∧ c' = B.push c state tsRun)) := by
  cases k
  case loadW =>
    cases e
    cases B.view m c entryList <;> simp
  all_goals cases e <;> simp

theorem pending_of_exited (e : (simpleExit k).exec B .flushing m c = some (m', c', .exited)) :
    B.pending c' state ≠ [] := by
  obtain ⟨-, h⟩ := exit_cases e
  obtain ⟨-, -, h⟩ | ⟨-, -, h⟩ | ⟨-, -, h⟩ | ⟨_, -, h, -⟩ | ⟨-, h, -⟩ | ⟨-, -, rfl⟩ := h
  · split at h <;> cases h
  · simp at h
  · cases h
  · cases h
  · cases h
  · simp [Buffering.pending_push_self]

-- The thread that enters has not put the node on the list yet.
def Enters : Pc → Prop
  | .storeState | .loadEntryList | .storeNext _ | .storeEntryList => True
  | _ => False

def Loops (a : Pc) : Prop :=
  a = .loadState ∨ a = .loadSemaphore

-- Where the thread that enters can be, and what it can have in its buffer.
structure Enter (b : B.Buf) (a : Pc) : Prop where
  pc   : Enters a ∨ Loops a ∨ a = .entered
  post : B.pending b semaphore = []
  list : B.pending b entryList = [] ∨ ¬Enters a ∧ B.pending b entryList = [.node]
  wait : ∀ v ∈ B.pending b state, v = tsEnter

-- How far the semaphore has got.
def Posts (m : Mem Val) (c : B.Buf) : Pc → Prop
  | .storeRun | .exited =>
    B.pending c semaphore = [(1 : Int)] ∧ m semaphore = (0 : Int) ∨
      B.pending c semaphore = [] ∧ m semaphore = (1 : Int)
  | _ => B.pending c semaphore = [] ∧ m semaphore = (0 : Int)

structure Exit (m : Mem Val) (c : B.Buf) (k : Pc) : Prop where
  post : Posts m c k
  run  : B.pending c state = [] ∨ k = .exited ∧ B.pending c state = [tsRun]

namespace Enter

theorem exec (h : Enter b a) (e : (simpleEnter a).exec B .flushing m b = some (m', b', a')) :
    Enter b' a' := by
  obtain ⟨-, h'⟩ := enter_cases e
  obtain ⟨rfl, rfl, rfl⟩ | ⟨rfl, rfl, rfl⟩ | ⟨p, rfl, rfl, rfl⟩ | ⟨rfl, rfl, rfl⟩ | ⟨rfl, rfl, rfl⟩ |
    ⟨rfl, rfl, rfl⟩ := h'
  · have hs : ∀ v ∈ B.pending (B.push b state tsEnter) state, v = tsEnter := by
      simpa [Buffering.pending_push_self, or_imp, forall_and] using h.wait
    refine ⟨.inl trivial, ?_, ?_, hs⟩
    · rw [Buffering.pending_push_ne (by decide), h.post]
    · simpa [Buffering.pending_push_ne, Enters] using h.list
  · exact ⟨.inl trivial, h.post, by simpa [Enters] using h.list, h.wait⟩
  · refine ⟨.inl trivial, ?_, ?_, ?_⟩
    · rw [Buffering.pending_push_ne (by decide), h.post]
    · simpa [Buffering.pending_push_ne, Enters] using h.list
    · simpa [Buffering.pending_push_ne] using h.wait
  · refine ⟨.inr <| .inl <| .inl rfl, ?_, .inr ⟨id, ?_⟩, ?_⟩
    · rw [Buffering.pending_push_ne (by decide), h.post]
    · rw [Buffering.pending_push_self, h.list.resolve_right (by simp [Enters]), List.nil_append]
    · simpa [Buffering.pending_push_ne] using h.wait
  · refine ⟨?_, h.post, ?_, h.wait⟩
    all_goals split
    · exact .inr <| .inl <| .inr rfl
    · exact .inr <| .inr rfl
    all_goals exact h.list.imp_right (.imp_left fun _ => id)
  · refine ⟨?_, h.post, ?_, h.wait⟩
    all_goals split
    · exact .inr <| .inr rfl
    · exact .inr <| .inl <| .inl rfl
    all_goals exact h.list.imp_right (.imp_left fun _ => id)

theorem pop (h : Enter b a) (hp : B.pop b x = some (v, b')) : Enter b' a := by
  refine ⟨h.pc, Buffering.pending_pop_eq_nil hp h.post, ?list, fun w hw => h.wait w ?wait⟩
  case list =>
    by_cases hx : entryList = x
    case neg => rw [← Buffering.pending_pop_ne hp hx]; exact h.list
    case pos =>
      subst hx
      have hq := Buffering.pending_pop_self hp
      obtain hl | ⟨-, hl⟩ := h.list
      · cases hl.symm.trans hq
      · exact .inl (List.cons.inj (hl.symm.trans hq)).2.symm
  case wait =>
    by_cases hx : state = x
    case neg => rwa [Buffering.pending_pop_ne hp hx]
    case pos =>
      subst hx
      rw [Buffering.pending_pop_self hp]
      exact List.mem_cons_of_mem _ hw

-- The node has been in the buffer, or is about to be put there.
theorem before (e : (simpleEnter a).exec B .flushing m b = some (m', b', a'))
    (hn : Enters a' ∨ B.pending b' entryList ≠ []) : Enters a ∨ B.pending b entryList ≠ [] := by
  obtain ⟨-, h'⟩ := enter_cases e
  obtain ⟨rfl, -⟩ | ⟨rfl, -⟩ | ⟨p, rfl, -⟩ | ⟨rfl, -⟩ | ⟨-, rfl, rfl⟩ | ⟨-, rfl, rfl⟩ := h'
  · exact .inl trivial
  · exact .inl trivial
  · exact .inl trivial
  · exact .inl trivial
  · exact .inr (hn.resolve_left (by split <;> exact id))
  · exact .inr (hn.resolve_left (by split <;> exact id))

theorem pop_entryList {p : Pointer} (h : Enter b a) (hp : B.pop b entryList = some (p, b')) :
    ¬Enters a ∧ B.pending b' entryList = [] := by
  have hq := Buffering.pending_pop_self hp
  obtain hl | ⟨ha, hl⟩ := h.list
  · cases hl.symm.trans hq
  · exact ⟨ha, (List.cons.inj (hl.symm.trans hq)).2.symm⟩

theorem ne_semaphore (h : Enter b a) (hp : B.pop b x = some (v, b')) : semaphore ≠ x := by
  rintro rfl
  cases h.post.symm.trans (Buffering.pending_pop_self hp)

theorem view_state (h : Enter b a) : B.view m b state = tsEnter ∨ B.pending b state = [] := by
  obtain ⟨hn, -⟩ | hv := Buffering.view_cases B m b state
  · exact .inr hn
  · exact .inl (h.wait _ hv)

end Enter

theorem Posts.pop_semaphore {n : Int} (h : Posts m c k) (hp : B.pop c semaphore = some (n, c')) :
    (k = .storeRun ∨ k = .exited) ∧ n = 1 ∧ B.pending c' semaphore = [] := by
  have hq := Buffering.pending_pop_self hp
  cases k
  case storeRun | exited =>
    obtain ⟨hc, -⟩ | ⟨hc, -⟩ := h
    · obtain ⟨hn, hc⟩ := List.cons.inj (hc.symm.trans hq)
      exact ⟨by simp, hn.symm, hc.symm⟩
    · cases hc.symm.trans hq
  all_goals cases h.1.symm.trans hq

theorem Posts.of_ne (h : Posts m c k) (hm : m semaphore ≠ (0 : Int)) :
    (k = .storeRun ∨ k = .exited) ∧ B.pending c semaphore = [] := by
  cases k
  case storeRun | exited =>
    obtain ⟨-, hn⟩ | ⟨hc, -⟩ := h
    · exact absurd hn hm
    · exact ⟨by simp, hc⟩
  all_goals exact absurd h.2 hm

namespace Exit

theorem exec (h : Exit m c k) (e : (simpleExit k).exec B .flushing m c = some (m', c', k')) :
    Exit m' c' k' := by
  obtain ⟨rfl, h'⟩ := exit_cases e
  obtain ⟨hp, hr⟩ := h
  obtain ⟨rfl, rfl, rfl⟩ | ⟨rfl, rfl, ⟨rfl, -⟩ | rfl | rfl⟩ | ⟨rfl, rfl, rfl⟩ | ⟨p, rfl, rfl, rfl⟩ |
    ⟨rfl, rfl, rfl⟩ | ⟨rfl, rfl, rfl⟩ := h'
  · split
    all_goals exact ⟨hp, .inl (hr.resolve_right (by simp))⟩
  · exact ⟨hp, .inl (hr.resolve_right (by simp))⟩
  · exact ⟨hp, .inl (hr.resolve_right (by simp))⟩
  · exact ⟨hp, .inl (hr.resolve_right (by simp))⟩
  · exact ⟨hp, .inl (hr.resolve_right (by simp))⟩
  · refine ⟨?_, .inl ?_⟩
    · simpa [Posts, Buffering.pending_push_ne] using hp
    · simpa [Buffering.pending_push_ne] using hr
  · refine ⟨.inl ⟨?_, hp.2⟩, .inl ?_⟩
    · rw [Buffering.pending_push_self, hp.1, List.nil_append]
    · simpa [Buffering.pending_push_ne] using hr
  · refine ⟨?_, .inr ⟨rfl, ?_⟩⟩
    · simpa [Posts, Buffering.pending_push_ne] using hp
    · rw [Buffering.pending_push_self, hr.resolve_right (by simp), List.nil_append]

theorem pop (h : Exit m c k) (hp : B.pop c x = some (v, c')) : Exit (update m x v) c' k := by
  have hq {y : Loc} (hy : y ≠ x) := Buffering.pending_pop_ne hp hy
  refine ⟨?post, ?run⟩
  case run =>
    by_cases hx : state = x
    case neg => rw [← hq hx]; exact h.run
    case pos =>
      subst hx
      have hs := Buffering.pending_pop_self hp
      obtain hn | ⟨-, hn⟩ := h.run
      · cases hn.symm.trans hs
      · exact .inl (List.cons.inj (hn.symm.trans hs)).2.symm
  case post =>
    by_cases hx : semaphore = x
    case neg => simpa [Posts, ← hq hx, hx] using h.post
    case pos =>
      subst hx
      obtain ⟨rfl | rfl, rfl, hn⟩ := h.post.pop_semaphore hp
      all_goals exact .inr ⟨hn, by simp⟩

theorem pop_state {n : Int} (h : Exit m c k) (hp : B.pop c state = some (n, c')) :
    k = .exited ∧ n = tsRun ∧ B.pending c' state = [] := by
  have hq := Buffering.pending_pop_self hp
  obtain hn | ⟨hk, hn⟩ := h.run
  · cases hn.symm.trans hq
  · obtain ⟨hn, hc⟩ := List.cons.inj (hn.symm.trans hq)
    exact ⟨hk, hn.symm, hc.symm⟩

end Exit

-- The thread that exits has not found the node.
structure Alone (s : State B) : Prop where
  pc        : s.threads exit = .test ∨ s.threads exit = .nothing
  empty     : B.Empty (s.buf exit)
  entryList : s.mem entryList = .null

structure Valid (s : State B) : Prop where
  enters : Enter (s.buf enter) (s.threads enter)
  exits  : Exit s.mem (s.buf exit) (s.threads exit)
  alone  : Enters (s.threads enter) ∨ B.pending (s.buf enter) entryList ≠ [] → Alone s

theorem Valid.step (h : Valid s) (e : (machine B state₀ next₀).Step s l s') : Valid s' := by
  cases e
  case move t m b pc e =>
    cases t
    case enter =>
      refine ⟨by simpa using h.enters.exec e, ?_, fun hn => ?_⟩
      · obtain ⟨rfl, -⟩ := enter_cases e
        simpa using h.exits
      · obtain ⟨hk, hc, hm⟩ := h.alone (Enter.before e (by simpa using hn))
        obtain ⟨rfl, -⟩ := enter_cases e
        exact ⟨by simpa using hk, by simpa using hc, hm⟩
    case exit =>
      refine ⟨by simpa using h.enters, by simpa using h.exits.exec e, fun hn => ?_⟩
      obtain ⟨hk | hk, hc, hm⟩ := h.alone (by simpa using hn) <;> rw [hk] at e <;> cases e
      have hv : B.view s.mem (s.buf exit) entryList = .null := (Buffering.view_nil (hc entryList)).trans hm
      exact ⟨.inr (by simp [hv]), by simpa using hc, hm⟩
  case drain t x v b hp =>
    cases t
    case enter =>
      have hs := h.enters.ne_semaphore hp
      refine ⟨by simpa using h.enters.pop hp, ⟨?_, ?_⟩, fun hn => ?_⟩
      · simpa [Posts, hs] using h.exits.post
      · simpa using h.exits.run
      · by_cases hx : entryList = x
        case pos =>
          subst hx
          obtain ⟨ha, hl⟩ := h.enters.pop_entryList hp
          simp [ha, hl] at hn
        case neg =>
          obtain ⟨hk, hc, hm⟩ := h.alone (by simpa [Buffering.pending_pop_ne hp hx] using hn)
          exact ⟨hk, by simpa using hc, by simpa [hx] using hm⟩
    case exit =>
      refine ⟨by simpa using h.enters, by simpa using h.exits.pop hp, fun hn => ?_⟩
      obtain ⟨hk, hc, hm⟩ := h.alone (by simpa using hn)
      cases (hc x).symm.trans (Buffering.pending_pop_self hp)

theorem valid_of_reachable (r : (machine B state₀ next₀).Reachable s) : Valid s := by
  refine r.invariant (I := Valid) ?init fun _ _ _ _ h e => h.step e
  case init =>
    intro _ hs
    cases hs
    refine ⟨⟨.inl trivial, ?_, .inl ?_, ?_⟩, ⟨⟨?_, rfl⟩, .inl ?_⟩, fun _ => ⟨.inl rfl, ?_, rfl⟩⟩
    all_goals simp [Buffering.Empty, B.pending_empty]

section Stuck

def Entered (s : State B) : Prop :=
  s.threads enter = .entered

-- The other thread is done, and its last store is not what the loop reads.
structure Stuck (s : State B) : Prop where
  exited : s.threads exit = .exited
  post   : B.pending (s.buf exit) semaphore = []
  run    : B.pending (s.buf exit) state = []
  loops  : Loops (s.threads enter)
  view   : B.view s.mem (s.buf enter) state = tsEnter

-- The loop reads that it may end, before it can no longer read that nobody has unlocked the monitor.
def InTime (s : State B) (l : Label) : Prop :=
  Loops (s.threads enter) → s.threads exit = .exited →
    (l = .drain exit semaphore → B.pending (s.buf exit) state = [] →
      B.view s.mem (s.buf enter) state ≠ tsEnter) ∧
    (l = .drain exit state → B.pending (s.buf exit) semaphore = [] → B.pending (s.buf enter) state = [])

theorem Stuck.view_semaphore (h : Stuck s) (hv : Valid s) : B.view s.mem (s.buf enter) semaphore = (1 : Int) := by
  have hp := hv.exits.post
  rw [h.exited] at hp
  obtain ⟨hn, -⟩ | ⟨-, hm⟩ := hp
  · cases hn.symm.trans h.post
  · exact (Buffering.view_nil hv.enters.post).trans hm

theorem Stuck.step (h : Stuck s) (hv : Valid s) (e : (machine B state₀ next₀).Step s l s') : Stuck s' := by
  have hm := h.view_semaphore hv
  obtain ⟨hk, hp, hr, hl, he⟩ := h
  cases e
  case move t m b pc e =>
    cases t
    case exit =>
      rw [hk] at e
      cases e
    case enter =>
      obtain hl | hl := hl <;> rw [hl] at e <;> cases e
      all_goals refine ⟨by simpa using hk, by simpa using hp, by simpa using hr, ?_, by simpa using he⟩
      · simp [he, Loops]
      · simp [hm, Loops]
  case drain t x v b hx =>
    cases t
    case enter =>
      exact ⟨hk, by simpa using hp, by simpa using hr, hl, by simpa [Buffering.view_pop hx] using he⟩
    case exit =>
      have hs : state ≠ x := by
        rintro rfl
        cases hr.symm.trans (Buffering.pending_pop_self hx)
      have hn {y : Loc} : B.pending (s.buf exit) y = [] → B.pending b y = [] := Buffering.pending_pop_eq_nil hx
      exact ⟨hk, by simpa using hn hp, by simpa using hn hr, hl, by simpa [Buffering.view_update_ne hs] using he⟩

-- Nothing else keeps the thread in its loop.
theorem stuck_iff_of_step (hv : Valid s) (e : (machine B state₀ next₀).Step s l s') :
    Stuck s' ↔ Stuck s ∨ ¬InTime s l where
  mpr := by
    rintro (h | h)
    · exact h.step hv e
    · simp only [InTime, Classical.not_imp, not_and_or, not_not] at h
      obtain ⟨hl, hk, ⟨rfl, hr, he⟩ | ⟨rfl, hp, hn⟩⟩ := h
      · cases e
        case drain b n hx =>
          have hn := (hv.exits.post.pop_semaphore hx).2.2
          have hr := Buffering.pending_pop_eq_nil hx hr
          exact ⟨hk, by simpa using hn, by simpa using hr, hl, by simpa [Buffering.view_update_ne] using he⟩
      · cases e
        case drain b n hx =>
          have hr := (hv.exits.pop_state hx).2.2
          have hp := Buffering.pending_pop_eq_nil hx hp
          exact ⟨hk, by simpa using hp, by simpa using hr, hl, by simpa using hv.enters.view_state.resolve_right hn⟩
  mp h := by
    by_contra hn
    simp only [not_or, not_not] at hn
    obtain ⟨hk, hp, hr, hl, he⟩ := h
    cases e
    case move t m b pc e =>
      cases t
      case exit =>
        obtain rfl : pc = .exited := by simpa using hk
        exact pending_of_exited e (by simpa using hr)
      case enter =>
        have hk : s.threads exit = .exited := by simpa using hk
        have ha : ¬Enters (s.threads enter) := by
          intro ha
          obtain ⟨h | h, -⟩ := hv.alone (.inl ha)
          all_goals cases hk.symm.trans h
        have hl' := (hv.enters.pc.resolve_left ha).resolve_right fun h => by
          rw [h] at e
          cases e
        refine hn.1 ⟨hk, by simpa using hp, by simpa using hr, hl', ?_⟩
        obtain ⟨rfl, h⟩ := enter_cases e
        obtain h' | h' := hl' <;> simp only [h', reduceCtorEq, false_and, exists_false, false_or, or_false] at h
        all_goals simpa [h.2.1] using he
    case drain t x v b hx =>
      cases t
      case enter =>
        refine hn.1 ⟨hk, by simpa using hp, by simpa using hr, hl, ?_⟩
        simpa [Buffering.view_pop hx] using he
      case exit =>
        have hr : B.pending b state = [] := by simpa using hr
        have hp : B.pending b semaphore = [] := by simpa using hp
        have hq {y : Loc} (hy : y ≠ x) : B.pending b y = [] → B.pending (s.buf exit) y = [] :=
          (Buffering.pending_pop_ne hx hy).trans
        have ht := hn.2 hl hk
        cases x
        case semaphore =>
          exact ht.1 rfl (hq (by decide) hr) (by simpa [Buffering.view_update_ne] using he)
        case state =>
          have hb := ht.2 rfl (hq (by decide) hp)
          obtain rfl := (hv.exits.pop_state hx).2.1
          simp [Buffering.view_nil hb, tsRun, tsEnter] at he
        case next | entryList =>
          refine hn.1 ⟨hk, hq (by decide) hp, hq (by decide) hr, hl, ?_⟩
          simpa [Buffering.view_update_ne] using he

-- While the semaphore is not set, the thread only has to look at it.
theorem solo_enter (hb : Enter b a) (hm : m semaphore = (0 : Int)) :
    ∃ b', Machine.Solo B .flushing program enter m b a m b' .entered := by
  have loadSemaphore {b : B.Buf} (h : B.pending b semaphore = []) :
      Machine.Solo B .flushing program enter m b .loadSemaphore m b .entered := by
    have hv : B.view m b semaphore = (0 : Int) := (Buffering.view_nil h).trans hm
    exact .move (by simp [program, simpleEnter, Op.exec, hv]) .refl
  have loadState {b : B.Buf} (h : B.pending b semaphore = []) :
      Machine.Solo B .flushing program enter m b .loadState m b .entered := by
    by_cases hv : B.view m b state = tsEnter
    case pos => exact .move (by simp [program, simpleEnter, Op.exec, hv]) (loadSemaphore h)
    case neg => exact .move (by simp [program, simpleEnter, Op.exec, hv]) .refl
  have push {b : B.Buf} {x : Loc} {v : Val x} (hx : semaphore ≠ x) (h : B.pending b semaphore = []) :
      B.pending (B.push b x v) semaphore = [] := by
    rw [Buffering.pending_push_ne hx, h]
  have storeEntryList {b : B.Buf} (h : B.pending b semaphore = []) :
      ∃ b', Machine.Solo B .flushing program enter m b .storeEntryList m b' .entered :=
    ⟨_, .move rfl <| loadState <| push (by decide) h⟩
  have storeNext {b : B.Buf} (p : Pointer) (h : B.pending b semaphore = []) :
      ∃ b', Machine.Solo B .flushing program enter m b (.storeNext p) m b' .entered :=
    (storeEntryList <| push (by decide) h).imp fun _ => .move rfl
  have loadEntryList {b : B.Buf} (h : B.pending b semaphore = []) :
      ∃ b', Machine.Solo B .flushing program enter m b .loadEntryList m b' .entered :=
    (storeNext _ h).imp fun _ => .move rfl
  have hp := hb.post
  obtain ha | (rfl | rfl) | rfl := hb.pc
  · cases a
    case storeState => exact (loadEntryList <| push (by decide) hp).imp fun _ => .move rfl
    case loadEntryList => exact loadEntryList hp
    case storeNext p => exact storeNext p hp
    case storeEntryList => exact storeEntryList hp
    all_goals exact ha.elim
  · exact ⟨b, loadState hp⟩
  · exact ⟨b, loadSemaphore hp⟩
  · exact ⟨b, .refl⟩

-- The loop ends if the thread reads that it may run.
theorem solo_loop (ha : Loops a) (hv : B.view m b state ≠ tsEnter) :
    Machine.Solo B .flushing program enter m b a m b .entered := by
  have loadState : Machine.Solo B .flushing program enter m b .loadState m b .entered :=
    .move (by simp [program, simpleEnter, Op.exec, hv]) .refl
  obtain rfl | rfl := ha
  · exact loadState
  · by_cases hm : B.view m b semaphore = (0 : Int)
    case pos => exact .move (by simp [program, simpleEnter, Op.exec, hm]) .refl
    case neg => exact .move (by simp [program, simpleEnter, Op.exec, hm]) loadState

-- What the other thread has left to do makes the thread read that.
theorem solo_exit (hk : k = .storeRun ∨ k = .exited) (hx : k = .exited → B.pending c state = [tsRun])
    (m : Mem Val) :
    ∃ m' c', m' state = tsRun ∧ Machine.Solo B .flushing program exit m c k m' c' .exited := by
  have drained (c : B.Buf) := Machine.Solo.drained (D := .flushing) (P := program) (t := exit) m c .exited
  obtain rfl | rfl := hk
  · obtain ⟨c', -, h⟩ := drained (B.push c state tsRun)
    exact ⟨_, c', by simp [Buffering.view_push], .move rfl h⟩
  · obtain ⟨c', -, h⟩ := drained c
    exact ⟨_, c', by simp [Buffering.view, hx rfl], h⟩

theorem leads_entered_of_solo (h : Machine.Solo B .flushing program enter s.mem (s.buf enter) a m b .entered)
    (ha : s.threads enter = a) : (machine B state₀ next₀).Leads Entered s := by
  refine (Machine.Solo.leads ha h).trans fun s' hs => .refl ?_
  subst hs
  exact update_self enter _ s.threads

theorem leads_entered (hv : Valid s) (h : ¬Stuck s) : (machine B state₀ next₀).Leads Entered s := by
  by_cases hm : s.mem semaphore = (0 : Int)
  case pos =>
    obtain ⟨b, hb⟩ := solo_enter hv.enters hm
    exact leads_entered_of_solo hb rfl
  case neg =>
    obtain ⟨hk, hp⟩ := hv.exits.post.of_ne hm
    have ha : ¬Enters (s.threads enter) := by
      intro ha
      obtain ⟨h | h, -⟩ := hv.alone (.inl ha)
      all_goals simp [h] at hk
    obtain hl | he := hv.enters.pc.resolve_left ha
    case inr => exact .refl he
    case inl =>
      by_cases hs : B.view s.mem (s.buf enter) state = tsEnter
      case neg => exact leads_entered_of_solo (solo_loop hl hs) rfl
      case pos =>
        have hx (hk : s.threads exit = .exited) : B.pending (s.buf exit) state = [tsRun] :=
          (hv.exits.run.resolve_left fun hr => h ⟨hk, hp, hr, hl, hs⟩).2
        obtain ⟨b, hb, drains⟩ := Machine.Solo.drained (D := .flushing) (P := program) (t := enter)
          s.mem (s.buf enter) (s.threads enter)
        obtain ⟨m, c, hm, runs⟩ := solo_exit hk hx (B.view s.mem (s.buf enter))
        refine (Machine.Solo.leads rfl drains).trans fun s₁ hs₁ => ?_
        subst hs₁
        refine (Machine.Solo.leads (t := exit) rfl (by simpa using runs)).trans fun s₂ hs₂ => ?_
        subst hs₂
        have hr : B.view m b state ≠ tsEnter := by
          rw [Buffering.view_nil (hb state), hm]
          decide
        exact leads_entered_of_solo (by simpa using solo_loop hl hr) (by simp)

theorem leads_entered_iff (r : (machine B state₀ next₀).Reachable s) :
    (machine B state₀ next₀).Leads Entered s ↔ ¬Stuck s where
  mp := by
    rintro ⟨_, s', es, he⟩ h
    obtain ⟨-, h⟩ := es.invariant (I := fun s => Valid s ∧ Stuck s)
      (fun _ _ _ h e => ⟨h.1.step e, h.2.step h.1 e⟩) ⟨valid_of_reachable r, h⟩
    obtain h | h := h.loops <;> cases he.symm.trans h
  mpr := leads_entered (valid_of_reachable r)

-- With any buffers: the thread that enters can leave its loop in exactly those runs in which what unlocks the
-- monitor does not overtake its own store.
theorem canEnter_iff (B : Buffering Loc Val) (state₀ : Int) (next₀ : Pointer) :
    ∀ ls s, ((machine B state₀ next₀).restrict InTime).Run ls s ↔
      (machine B state₀ next₀).Run ls s ∧ (machine B state₀ next₀).Leads Entered s := by
  intro ls s
  rw [System.run_restrict_iff (p := Stuck) (fun s hs => ?_) fun s l s' r e =>
    stuck_iff_of_step (valid_of_reachable r) e]
  · exact and_congr_right fun r => (leads_entered_iff r.reachable).symm
  · cases hs
    rintro ⟨hk, -⟩
    cases hk

end Stuck

section Order

-- Where the thread that enters has stored to.
def log : Pc → List Loc
  | .loadEntryList | .storeNext _ => [state]
  | .storeEntryList => [state, next]
  | .loadState | .loadSemaphore | .entered => [state, next, entryList]
  | _ => []

theorem logged : Machine.Logged .flushing program enter log where
  exec m b a m' b' a' e := by
    obtain ⟨-, h⟩ := enter_cases e
    obtain ⟨rfl, rfl, rfl⟩ | ⟨rfl, rfl, rfl⟩ | ⟨p, rfl, rfl, rfl⟩ | ⟨rfl, rfl, rfl⟩ | ⟨rfl, rfl, rfl⟩ |
      ⟨rfl, rfl, rfl⟩ := h
    · exact .inr ⟨_, _, rfl, rfl⟩
    · exact .inl ⟨rfl, rfl⟩
    · exact .inr ⟨_, _, rfl, rfl⟩
    · exact .inr ⟨_, _, rfl, rfl⟩
    · exact .inl ⟨rfl, by split <;> rfl⟩
    · exact .inl ⟨rfl, by split <;> rfl⟩

-- What the thread has stored to its node is in memory once the other one can find it.
theorem pending_state_eq_nil {s : State (.fifo Val)} (r : (machine (.fifo Val) state₀ next₀).Reachable s)
    (h : ¬Alone s) : (Buffering.fifo Val).pending (s.buf enter) state = [] := by
  by_contra hn
  have hv := valid_of_reachable r
  have hq : Machine.Queued log (s.buf enter) (s.threads enter) := .of_reachable logged r
  have hl : log (s.threads enter) = [] ++ state :: [next, entryList] := by
    obtain ha | (ha | ha) | ha := hv.enters.pc
    · exact absurd (hv.alone (.inl ha)) h
    all_goals rw [ha]; rfl
  exact h <| hv.alone <| .inr <| hq.pending_ne_nil hl (by rw [hl]; decide) hn (by simp)

theorem mem_state_of_exited {s : State (.fifo Val)} (r : (machine (.fifo Val) state₀ next₀).Reachable s)
    (hk : s.threads exit = .exited) (hr : (Buffering.fifo Val).pending (s.buf exit) state = []) :
    s.mem state = tsRun := by
  refine r.invariant (I := fun s => s.threads exit = .exited → (Buffering.fifo Val).pending (s.buf exit) state = [] →
    s.mem state = tsRun) ?init ?step hk hr
  case init =>
    intro _ hs hk
    cases hs
    cases hk
  case step =>
    intro s l s' r h e hk hr
    cases e
    case move t m b pc e =>
      cases t
      case enter =>
        obtain ⟨rfl, -⟩ := enter_cases e
        exact h (by simpa using hk) (by simpa using hr)
      case exit =>
        obtain rfl : pc = .exited := by simpa using hk
        exact absurd (by simpa using hr) (pending_of_exited e)
    case drain t x v b hp =>
      by_cases hx : state = x
      case neg =>
        refine (update_of_ne hx ..).trans (h hk ?_)
        cases t
        case enter => simpa using hr
        case exit => exact (Buffering.pending_pop_ne hp hx).trans (by simpa using hr)
      case pos =>
        subst hx
        cases t
        case exit => exact (update_self state _ s.mem).trans ((valid_of_reachable r).exits.pop_state hp).2.1
        case enter =>
          have ha : ¬Alone s := fun ha => by obtain hk' | hk' := ha.pc <;> cases hk.symm.trans hk'
          cases (pending_state_eq_nil r ha).symm.trans (Buffering.pending_pop_self hp)

theorem not_stuck {s : State (.fifo Val)} (r : (machine (.fifo Val) state₀ next₀).Reachable s) : ¬Stuck s := by
  intro h
  have ha : ¬Alone s := fun ha => by obtain hk | hk := ha.pc <;> cases h.exited.symm.trans hk
  have hv := (Buffering.view_nil (pending_state_eq_nil r ha)).symm.trans h.view
  cases (mem_state_of_exited r h.exited h.run).symm.trans hv

-- Total store order lets it leave the loop at any time. Where stores to different locations can be reordered, it
-- may not be able to, since it may find out that it has to wait, or that it may run, in the wrong order.
theorem canEnter_fifo (state₀ : Int) (next₀ : Pointer) :
    (∀ s, (machine (.fifo Val) state₀ next₀).Reachable s → (machine (.fifo Val) state₀ next₀).Leads Entered s) ∧
    ∃ s, (machine (.perLocation Val) state₀ next₀).Reachable s ∧
      ¬(machine (.perLocation Val) state₀ next₀).Leads Entered s := by
  refine ⟨fun s r => (leads_entered_iff r).mpr (not_stuck r), ?_⟩
  -- The thread that enters keeps the store to the state of its node back.
  obtain ⟨s, r, hk, hp, hr, hl, he⟩ := Machine.exists_reachable_of_schedule (.perLocation Val) .flushing program
    (start state₀ next₀) threads₀
    (.replicate 4 (.move enter) ++ [.drain enter next, .drain enter entryList] ++ .replicate 6 (.move exit) ++
      [.drain exit semaphore, .drain exit state])
    (p := fun s => s.threads exit = .exited ∧
      (Buffering.perLocation Val).pending (s.buf exit) semaphore = ([] : List Int) ∧
      (Buffering.perLocation Val).pending (s.buf exit) state = ([] : List Int) ∧ s.threads enter = .loadState ∧
      (Buffering.perLocation Val).view s.mem (s.buf enter) state = tsEnter) rfl
  exact ⟨s, r, fun h => (leads_entered_iff r).mp h ⟨hk, hp, hr, .inl hl, he⟩⟩

end Order

end Jdk.ObjectMonitor

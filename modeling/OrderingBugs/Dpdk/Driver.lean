import OrderingBugs.Dpdk.Tso
import OrderingBugs.Memory.Inclusion
import OrderingBugs.Memory.Termination
import Mathlib.Algebra.BigOperators.Fin

open Function

-- The driver of `2-DPDK.c`, under interleaving. Its threads choose their nodes by an id that they read from
-- a variable of `main`.
namespace Dpdk.Driver

open Mcs

inductive Node
  | globalNode1
  | globalNode2
  deriving DecidableEq

instance : Fintype Node where
  elems := {.globalNode1, .globalNode2}
  complete n := by cases n <;> decide

def node (threadId : Int) : Node :=
  if threadId = 1 then .globalNode1 else .globalNode2

inductive Pc
  | absent
  | readArg
  | lock (threadId : Int) (pc : LockPc Node)
  | critical (threadId : Int)
  | unlock (threadId : Int) (pc : UnlockPc Node)
  | fault
  | returned
  deriving DecidableEq

-- `thread_func`, once it has read its argument
def threadFunc : Pc → Op (Loc Node) (Val Node Int Int) Pc
  | .lock i pc => rteMcslockLock (node i) (.lock i) (.critical i) pc
  | .critical i => .skip (.unlock i .loadNext)
  | .unlock i pc => rteMcslockUnlock (node i) (.unlock i) .returned .fault pc
  | .absent | .readArg | .fault | .returned => .halt

-- The node of a thread that is between the start of `rte_mcslock_lock` and the end of `rte_mcslock_unlock`
def Pc.node? : Pc → Option Node
  | lock i _ | critical i | unlock i _ => some (node i)
  | absent | readArg | fault | returned => none

inductive MainPc
  | check
  | create
  | increment
  | join
  deriving DecidableEq

structure State where
  mem     : Mem (Val Node Int Int)
  i       : Int
  main    : MainPc
  threads : Fin 2 → Pc

inductive Label
  | main
  | reuse
  | thread (t : Fin 2)

-- The argument of both threads is the variable `i` of the loop in `main`. Once the loop has been left, what
-- was the variable can contain anything.
inductive Step : State → Label → State → Prop
  | enter {s : State} :
    s.main = .check → s.i < 2 → Step s .main { s with main := .create }
  | create {s : State} {t : Fin 2} :
    s.main = .create → s.i = t →
    Step s .main { s with main := .increment, threads := update s.threads t .readArg }
  | increment {s : State} :
    s.main = .increment → Step s .main { s with main := .check, i := s.i + 1 }
  | leave {s : State} :
    s.main = .check → ¬s.i < 2 → Step s .main { s with main := .join }
  | reuse {s : State} {v : Int} :
    s.main = .join → Step s .reuse { s with i := v }
  | readArg {s : State} {t : Fin 2} :
    s.threads t = .readArg →
    Step s (.thread t) { s with threads := update s.threads t (.lock s.i .storeLocked) }
  | exec {s : State} {t : Fin 2} {m : Mem (Val Node Int Int)} {pc : Pc} :
    (threadFunc (s.threads t)).interleave s.mem = some (m, pc) →
    Step s (.thread t) { s with mem := m, threads := update s.threads t pc }

def system : System State Label where
  Init s := s = ⟨fresh, 0, .check, fun _ => .absent⟩
  Step := Step

-- Two threads use the same node at a time.
def Shares (s : State) : Prop :=
  ∃ t u n, t ≠ u ∧ (s.threads t).node? = some n ∧ (s.threads u).node? = some n

-- A thread that has started to take the lock cannot get to its end any more.
def Stuck (s : State) : Prop :=
  ∃ t, s.threads t ≠ .absent ∧ s.threads t ≠ .readArg ∧ ¬system.Leads (fun s => s.threads t = .returned) s

-- A thread that reads its argument is not led to a node that is in use.
def Own (s : State) (l : Label) : Prop :=
  ∀ t, l = .thread t → s.threads t = .readArg → ∀ u, (s.threads u).node? ≠ some (node s.i)

-- The threads of the lock under interleaving, each with its node.
section Nodes

variable {Tid : Type} [DecidableEq Tid]

abbrev nodes (Tid : Type) [DecidableEq Tid] :
    System (Interleaving.State (Val Tid Int Int) Tid (Dpdk.State Tid))
      (Interleaving.Label Tid (Dpdk.State Tid)) :=
  Interleaving.system (program []) fresh fun _ => ⟨.idle, 0⟩

variable [Fintype Tid] {a : Interleaving.State (Val Tid Int Int) Tid (Dpdk.State Tid)}

theorem valid (r : (nodes Tid).Reachable a) :
    Valid (B := .perLocation (Val Tid Int Int)) stage
      ⟨a.mem, fun _ => (Buffering.perLocation (Val Tid Int Int)).empty, a.threads⟩ := by
  have ⟨_, r⟩ := Machine.reachable_of_interleaving .flushing r
  have r := run_of_sealed (implements rfl []) (ready rfl) (fun _ _ _ _ => sealed_of_rmwWaits fun _ => rfl) r
  exact valid_of_reachable (implements rfl []) (ready rfl) r.reachable

-- While not all threads are idle, one of them gets on.
theorem exists_move (r : (nodes Tid).Reachable a) (h : ¬∀ n, (a.threads n).pc = .idle) :
    ∃ n m l, (program [] n (a.threads n)).interleave a.mem = some (m, l) ∧ (a.threads n).pc ≠ .idle ∧
      l ≠ a.threads n := by
  have ⟨_, _, e, hr, hs⟩ :=
    exists_useful (advances (D := .flushing) []) (valid r) pc_ne_idle_of_inside fun hn => h hn.1
  cases e
  case drain hp => simp [Buffering.perLocation] at hp
  case move n m b l e =>
    obtain ⟨-, e⟩ | ⟨o, x, v, e, -⟩ := Op.interleave_of_empty Buffering.empty_empty e
    case inl => exact ⟨n, m, l, e, hs, hr⟩
    case inr => exact ⟨n, _, l, by rw [e]; rfl, hs, hr⟩

-- How far a thread is from the end of its round.
def rank (l : Dpdk.State Tid) : Nat :=
  match l.pc with
  | .lock .storeLocked => 13
  | .lock .storeNext => 12
  | .lock .exchange => 11
  | .lock (.storePrevNext _) => 10
  | .lock .fence => 9
  | .lock .spin => 8
  | .critical as _ => 7 + as.length
  | .unlock .loadNext => 6
  | .unlock .compareExchange => 5
  | .unlock .fence => 4
  | .unlock .spin => 3
  | .unlock .loadSuccessor => 2
  | .unlock (.storeLocked _) => 1
  | .idle | .fault => 0

omit [Fintype Tid] in
theorem rank_lt {n : Tid} {l l' : Dpdk.State Tid} {m m' : Mem (Val Tid Int Int)}
    (e : (program [] n l).interleave m = some (m', l')) (hi : l.pc ≠ .idle) (hl : l' ≠ l) :
    rank l' < rank l := by
  obtain ⟨pc, k⟩ := l
  rcases pc with _ | (_ | _ | _ | _ | _ | _) | ⟨_ | ⟨c, as⟩, _⟩ | (_ | _ | _ | _ | _ | _) | _
  case idle => exact absurd rfl hi
  case lock.exchange => cases e; cases m .tail <;> simp [rank]
  case lock.spin => cases e; by_cases hv : m (.locked n) = 0 <;> simp_all [rank]
  case unlock.loadNext => cases e; cases m (.next n) <;> simp [rank]
  case unlock.compareExchange => cases e; by_cases hv : m .tail = some n <;> simp [rank, hv]
  case unlock.spin => cases e; cases hv : m (.next n) <;> simp_all [rank]
  case unlock.loadSuccessor => cases e; cases m (.next n) <;> simp [rank]
  case critical.cons => cases c <;> cases e <;> simp [rank]
  case fault => cases e
  all_goals cases e; simp [rank]

end Nodes

-- A thread of the driver as one that belongs to its node and has made some rounds.
def Pc.round (k : Nat) : Pc → Dpdk.State Node
  | lock _ pc => ⟨.lock pc, k⟩
  | critical _ => ⟨.critical [] 0, k⟩
  | unlock _ pc => ⟨.unlock pc, k⟩
  | fault => ⟨.fault, k⟩
  | returned => ⟨.idle, k + 1⟩
  | absent | readArg => ⟨.idle, k⟩

theorem program_round {p : Pc} {n : Node} (hn : p.node? = some n) (k : Nat) (m : Mem (Val Node Int Int)) :
    (program [] n (p.round k)).interleave m = ((threadFunc p).interleave m).map (Prod.map id (Pc.round k)) := by
  cases p
  case lock i pc =>
    cases hn
    cases pc
    case exchange =>
      simp only [program, rounds, Pc.round, threadFunc, rteMcslockLock, Op.interleave]
      cases m .tail <;> rfl
    case spin =>
      simp only [program, rounds, Pc.round, threadFunc, rteMcslockLock, Op.interleave]
      by_cases hv : m (.locked (node i)) = 0 <;> simp [hv, Pc.round]
    all_goals rfl
  case critical => rfl
  case unlock i pc =>
    cases hn
    cases pc
    case fence | storeLocked => rfl
    case compareExchange =>
      simp only [program, rounds, Pc.round, threadFunc, rteMcslockUnlock, Op.interleave]
      by_cases hv : m .tail = some (node i) <;> simp [hv, Pc.round]
    all_goals
      simp only [program, rounds, Pc.round, threadFunc, rteMcslockUnlock, Op.interleave]
      cases m (.next (node i)) <;> rfl
  all_goals cases hn

variable {s s' : State} {l : Label} {a : Interleaving.State (Val Node Int Int) Node (Dpdk.State Node)}
variable {t u : Fin 2} {n : Node} {p : Pc} {m : Mem (Val Node Int Int)}

-- The threads of the driver are those that belong to their nodes, and the other nodes are idle.
structure Rel (s : State) (a : Interleaving.State (Val Node Int Int) Node (Dpdk.State Node)) : Prop where
  mem    : a.mem = s.mem
  thread : ∀ t n, (s.threads t).node? = some n → ∃ k, a.threads n = (s.threads t).round k
  idle   : ∀ n, (∀ t, (s.threads t).node? ≠ some n) → (a.threads n).pc = .idle
  unique : ∀ t u n, (s.threads t).node? = some n → (s.threads u).node? = some n → t = u
  fault  : ∀ t, s.threads t ≠ .fault

def Pc.rank (p : Pc) : Nat :=
  Driver.rank (p.round 0)

theorem rank_round (k : Nat) : rank (p.round k) = p.rank := by
  cases p <;> rfl

theorem node?_round (h : p.node? = some n) (k : Nat) : (p.round k).pc ≠ .idle := by
  cases p <;> cases h <;> nofun

-- What a thread of the driver does while it uses a node, it does to the end of its call with that node.
theorem node?_exec {p' : Pc} {m' : Mem (Val Node Int Int)} (h : p.node? = some n)
    (e : (threadFunc p).interleave m = some (m', p')) :
    p'.node? = some n ∨ p' = .returned ∨ p' = .fault := by
  cases p
  case lock i pc =>
    cases pc
    case exchange => cases e; cases m .tail <;> exact .inl h
    case spin => cases e; dsimp only; split <;> exact .inl h
    all_goals cases e; exact .inl h
  case critical => cases e; exact .inl h
  case unlock i pc =>
    cases pc
    case fence => cases e; exact .inl h
    case storeLocked => cases e; exact .inr (.inl rfl)
    case compareExchange =>
      cases e
      dsimp only
      split
      case isTrue => exact .inr (.inl rfl)
      case isFalse => exact .inl h
    case loadSuccessor =>
      cases e
      cases m (.next (node i))
      case none => exact .inr (.inr rfl)
      case some => exact .inl h
    all_goals cases e; cases m (.next (node i)) <;> exact .inl h
  all_goals cases e

namespace Rel

theorem init : Rel ⟨fresh, 0, .check, fun _ => .absent⟩ ⟨fresh, fun _ => ⟨.idle, 0⟩⟩ :=
  ⟨rfl, nofun, fun _ _ => rfl, nofun, nofun⟩

-- One thread gets on with its node, which is no other thread's.
theorem move {k : Nat} (h : Rel s a) (ht : ∀ n', (s.threads t).node? = some n' → n' = n)
    (hu : ∀ u, u ≠ t → (s.threads u).node? ≠ some n) (hp : p.node? = some n ∨ p = .returned) :
    Rel { s with mem := m, threads := update s.threads t p } ⟨m, update a.threads n (p.round k)⟩ where
  mem := rfl
  thread u n' hn := by
    by_cases hut : u = t
    case pos =>
      subst hut
      obtain hp | rfl := hp
      case inl =>
        obtain rfl : n = n' := by simpa [hp] using hn
        exact ⟨k, by simp⟩
      case inr => simp [Pc.node?] at hn
    case neg =>
      replace hn : (s.threads u).node? = some n' := by simpa [hut] using hn
      have hnn : n' ≠ n := fun hnn => hu u hut (hnn ▸ hn)
      simpa [hut, hnn] using h.thread u n' hn
  idle n' hn := by
    by_cases hnn : n' = n
    case pos =>
      subst hnn
      obtain hp | rfl := hp
      case inl => exact absurd (by simpa using hp) (hn t)
      case inr => simp [Pc.round]
    case neg =>
      refine (congrArg Thread.pc (update_of_ne hnn ..)).trans (h.idle n' fun u hn' => ?_)
      by_cases hut : u = t
      case pos => subst hut; exact hnn (ht n' hn')
      case neg => exact hn u (by simpa [hut] using hn')
  unique u v n' hn hn' := by
    -- The node of the thread is its own, the others keep theirs.
    have eq (w) (hw : (update s.threads t p w).node? = some n') (hwt : w ≠ t) :
        (s.threads w).node? = some n' := by
      simpa [hwt] using hw
    have own (hw : (update s.threads t p t).node? = some n') : n' = n := by
      obtain hp | rfl := hp
      case inl => simpa [hp, eq_comm] using hw
      case inr => simp [Pc.node?] at hw
    by_cases hut : u = t <;> by_cases hvt : v = t
    case pos => exact hut.trans hvt.symm
    case neg => exact absurd (own (hut ▸ hn) ▸ eq v hn' hvt) (hu v hvt)
    case pos => exact absurd (own (hvt ▸ hn') ▸ eq u hn hut) (hu u hut)
    case neg => exact h.unique u v n' (eq u hn hut) (eq v hn' hvt)
  fault u := by
    by_cases hut : u = t
    case pos => subst hut; obtain hp | rfl := hp <;> simp; rintro rfl; cases hp
    case neg => simpa [hut] using h.fault u

theorem exec (h : Rel s a) (r : (nodes Node).Reachable a)
    (e : (threadFunc (s.threads t)).interleave s.mem = some (m, p)) :
    ∃ a', (nodes Node).Reachable a' ∧ Rel { s with mem := m, threads := update s.threads t p } a' := by
  obtain ⟨n, hn⟩ : ∃ n, (s.threads t).node? = some n := by
    cases hp : s.threads t <;> simp [hp, threadFunc, Pc.node?, Op.interleave] at e ⊢
  obtain ⟨k, hk⟩ := h.thread t n hn
  have e' : (program [] n (a.threads n)).interleave a.mem = some (m, p.round k) := by
    rw [hk, h.mem, program_round hn, e]
    rfl
  replace r := r.step (.move e')
  have hp : p.node? = some n ∨ p = .returned := by
    obtain hp | hp | rfl := node?_exec hn e
    case inr.inr =>
      refine absurd ?_ ((valid r).not_faulted n)
      simp [Pc.round, Thread.stage]
    case inl => exact .inl hp
    case inr.inl => exact .inr hp
  refine ⟨_, r, h.move (fun n' hn' => Option.some.inj (hn'.symm.trans hn)) (fun u hu hn' => ?_) hp⟩
  exact hu (h.unique u t n hn' hn)

theorem readArg (h : Rel s a) (r : (nodes Node).Reachable a) (ht : s.threads t = .readArg)
    (ho : ∀ u, (s.threads u).node? ≠ some (node s.i)) :
    ∃ a', (nodes Node).Reachable a' ∧
      Rel { s with threads := update s.threads t (.lock s.i .storeLocked) } a' := by
  have hi := h.idle _ ho
  obtain ⟨k, hk⟩ : ∃ k, a.threads (node s.i) = ⟨.idle, k⟩ := ⟨_, congrArg (Thread.mk · _) hi⟩
  have e : (program [] (node s.i) (a.threads (node s.i))).interleave a.mem =
      some (s.mem, Pc.round k (.lock s.i .storeLocked)) := by
    rw [hk, h.mem]
    rfl
  exact ⟨_, r.step (.move e), h.move (by simp [ht, Pc.node?]) (fun u _ => ho u) (.inl rfl)⟩

-- What does not use a node may change.
theorem congr (h : Rel s a) (hm : s'.mem = s.mem) (hn : ∀ t, s'.threads t = s.threads t ∨
    ((s.threads t).node? = none ∧ (s'.threads t).node? = none ∧ s'.threads t ≠ .fault)) : Rel s' a := by
  have hn' (t) : (s'.threads t).node? = (s.threads t).node? := by
    obtain ht | ⟨ht, ht', -⟩ := hn t
    case inl => rw [ht]
    case inr => rw [ht, ht']
  refine ⟨h.mem.trans hm.symm, fun t n ht => ?thread, fun n ht => ?idle, fun t u n ht hu => ?unique,
    fun t => ?fault⟩
  case thread =>
    rw [hn'] at ht
    obtain hs | ⟨hs, -⟩ := hn t
    case inl => rw [hs]; exact h.thread t n ht
    case inr => simp [hs] at ht
  case idle => exact h.idle n fun t => hn' t ▸ ht t
  case unique => exact h.unique t u n (hn' t ▸ ht) (hn' u ▸ hu)
  case fault =>
    obtain hs | ⟨-, -, hs⟩ := hn t
    case inl => exact hs ▸ h.fault t
    case inr => exact hs

end Rel

-- The loop creates one thread after the other.
def Created (s : State) : Prop :=
  match s.main with
  | .check | .create => ∀ t : Fin 2, s.i ≤ t → s.threads t = .absent
  | .increment => ∀ t : Fin 2, s.i < t → s.threads t = .absent
  | .join => True

theorem Created.thread (h : Created s) (ht : s.threads t ≠ .absent) :
    Created { s with mem := m, threads := update s.threads t p } := by
  have keep (u : Fin 2) (hu : s.threads u = .absent) : update s.threads t p u = .absent := by
    have hut : u ≠ t := fun hut => ht (hut ▸ hu)
    simpa [hut] using hu
  obtain ⟨_, i, c, f⟩ := s
  cases c
  case join => trivial
  all_goals exact fun u hu => keep u (h u hu)

structure Inv (s : State) : Prop where
  created : Created s
  rel     : ∃ a, (nodes Node).Reachable a ∧ Rel s a

namespace Inv

theorem init : Inv ⟨fresh, 0, .check, fun _ => .absent⟩ where
  created _ _ := rfl
  rel := ⟨_, .init rfl, .init⟩

theorem step (h : Inv s) (ho : Own s l) (e : system.Step s l s') : Inv s' := by
  obtain ⟨hc, a, r, hr⟩ := h
  cases e
  case enter hm hi => exact ⟨by simpa [Created, hm] using hc, a, r, hr.congr rfl fun _ => .inl rfl⟩
  case create t hm hi =>
    have hc : ∀ u : Fin 2, s.i ≤ u → s.threads u = .absent := by simpa [Created, hm] using hc
    refine ⟨fun u hu => ?_, a, r, hr.congr rfl fun u => ?_⟩
    · have hut : u ≠ t := by
        rintro rfl
        exact absurd hi (ne_of_lt hu)
      simpa [hut] using hc u hu.le
    · by_cases hut : u = t
      case pos => subst hut; simp [hc u hi.le, Pc.node?]
      case neg => simp [hut]
  case increment hm =>
    have hc : ∀ u : Fin 2, s.i < u → s.threads u = .absent := by simpa [Created, hm] using hc
    exact ⟨fun u hu => hc u (Int.lt_of_add_one_le hu), a, r, hr.congr rfl fun _ => .inl rfl⟩
  case leave => exact ⟨trivial, a, r, hr.congr rfl fun _ => .inl rfl⟩
  case reuse hm => exact ⟨by simp [Created, hm], a, r, hr.congr rfl fun _ => .inl rfl⟩
  case readArg t ht =>
    obtain ⟨a', r', hr'⟩ := hr.readArg r ht (ho t rfl ht)
    exact ⟨hc.thread (by simp [ht]), a', r', hr'⟩
  case exec t m p e =>
    obtain ⟨a', r', hr'⟩ := hr.exec r e
    refine ⟨hc.thread fun ht => ?_, a', r', hr'⟩
    rw [ht] at e
    cases e

theorem not_shares (h : Inv s) : ¬Shares s := by
  obtain ⟨-, a, -, h⟩ := h
  rintro ⟨t, u, n, htu, ht, hu⟩
  exact htu (h.unique t u n ht hu)

-- While a thread uses a node, one of the threads that use a node gets on.
theorem exists_exec (h : Inv s) (ht : (s.threads t).node? = some n) :
    ∃ u m p, (threadFunc (s.threads u)).interleave s.mem = some (m, p) ∧
      p.rank < (s.threads u).rank := by
  obtain ⟨-, a, r, h⟩ := h
  obtain ⟨n', m, l, e, hi, hl⟩ := exists_move r fun ha => by
    have ⟨k, hk⟩ := h.thread t n ht
    exact node?_round ht k (hk ▸ ha n)
  obtain ⟨u, hu⟩ : ∃ u, (s.threads u).node? = some n' := by
    by_contra hu
    exact hi (h.idle n' fun u hu' => hu ⟨u, hu'⟩)
  obtain ⟨k, hk⟩ := h.thread u n' hu
  have hr := rank_lt e hi hl
  rw [hk, h.mem, program_round hu, Option.map_eq_some_iff] at e
  obtain ⟨⟨m, p⟩, e, he⟩ := e
  cases he
  refine ⟨u, m, p, e, ?_⟩
  rw [hk] at hr
  simpa only [rank_round] using hr

theorem exec (h : Inv s) (e : (threadFunc (s.threads t)).interleave s.mem = some (m, p)) :
    Inv { s with mem := m, threads := update s.threads t p } := by
  refine h.step (fun u hu hs => ?_) (.exec e)
  cases hu
  rw [hs] at e
  cases e

theorem not_fault (h : Inv s) (t : Fin 2) : s.threads t ≠ .fault :=
  have ⟨_, _, hr⟩ := h.rel
  hr.fault t

theorem not_stuck (h : Inv s) : ¬Stuck s := by
  rintro ⟨t, ha, hr, hl⟩
  refine hl <| .of_measure
    (p := fun s => Inv s ∧ ((∃ n, (s.threads t).node? = some n) ∨ s.threads t = .returned))
    (fun s => ∑ u, (s.threads u).rank) (fun s => ?step) ⟨h, ?init⟩
  case init =>
    have hf := h.not_fault t
    cases hs : s.threads t <;> simp_all [Pc.node?]
  case step =>
    rintro ⟨h, ht⟩ hq
    obtain ⟨n, hn⟩ := ht.resolve_right hq
    obtain ⟨u, m, p, e, hp⟩ := h.exists_exec hn
    refine ⟨_, _, .exec e, Interleaving.sum_update_lt hp, h.exec e, ?_⟩
    by_cases htu : t = u
    case neg => exact .inl ⟨n, by simpa [htu] using hn⟩
    case pos =>
      subst htu
      have hf : p ≠ .fault := by simpa using (h.exec e).not_fault t
      obtain hn | hr | hf' := node?_exec hn e
      case inl => exact .inl ⟨n, by simpa using hn⟩
      case inr.inl => exact .inr (by simpa using hr)
      case inr.inr => exact absurd hf' hf

end Inv

-- The threads get along as long as each of them chooses its own node, and if one does not, it has just
-- chosen the node that the other one uses.
theorem own_exact (ls : List Label) (s : State) :
    ((system.restrict Own).Run ls s → ¬Shares s ∧ ¬Stuck s) ∧
      ∀ l s', system.Step s l s' → ¬Own s l → Shares s' := by
  refine ⟨fun r => ?safe, fun l s' e hc => ?sharp⟩
  case safe =>
    have h : Inv s := r.reachable.invariant (S := system.restrict Own) (fun s hs => hs ▸ .init)
      fun _ _ _ _ h e => h.step e.1 e.2
    exact ⟨h.not_shares, h.not_stuck⟩
  case sharp =>
    simp only [Own, not_forall, not_not] at hc
    obtain ⟨t, rfl, ht, u, hu⟩ := hc
    have hut : u ≠ t := by
      rintro rfl
      simp [ht, Pc.node?] at hu
    cases e
    case readArg => exact ⟨t, u, node s.i, hut.symm, by simp [Pc.node?], by simpa [hut] using hu⟩
    case exec e =>
      rw [ht] at e
      cases e

-- The second thread waits for its own node.
structure Waits (s : State) : Prop where
  main     : s.main = .join
  returned : s.threads 0 = .returned
  spins    : s.threads 1 = .lock 1 .spin
  locked   : s.mem (.locked .globalNode1) = (1 : Int)

theorem Waits.step (h : Waits s) (e : system.Step s l s') : Waits s' := by
  obtain ⟨hm, h₀, h₁, hl⟩ := h
  have ht : ∀ t : Fin 2, s.threads t = .returned ∨ s.threads t = .lock 1 .spin :=
    Fin.forall_fin_two.mpr ⟨.inl h₀, .inr h₁⟩
  cases e
  case enter h _ | create h _ | increment h | leave h _ => simp [hm] at h
  case reuse => exact ⟨hm, h₀, h₁, hl⟩
  case readArg t hs => obtain ht | ht := ht t <;> rw [hs] at ht <;> cases ht
  case exec t m p e =>
    obtain ht | ht := ht t
    case inl =>
      rw [ht] at e
      cases e
    case inr =>
      -- It reads that it is locked, and reads it again.
      have he : (threadFunc (s.threads t)).interleave s.mem = some (s.mem, s.threads t) := by
        rw [ht]
        simp [threadFunc, rteMcslockLock, Op.interleave, node, hl]
      cases he.symm.trans e
      rw [update_eq_self]
      exact ⟨hm, h₀, h₁, hl⟩

theorem Waits.stuck (h : Waits s) : Stuck s := by
  refine ⟨1, by simp [h.spins], by simp [h.spins], ?_⟩
  rintro ⟨ls, s', r, hr⟩
  have h' : Waits s' := r.invariant (fun _ _ _ h e => h.step e) h
  rw [h'.spins] at hr
  cases hr

-- Both threads read their argument when the loop has counted to 1.
theorem not_own : (∃ s, system.Reachable s ∧ Shares s) ∧ ∃ s, system.Reachable s ∧ Stuck s := by
  have r : system.Reachable _ := .init rfl
  replace r := r.step (.enter rfl (by decide))
  replace r := r.step (.create (t := 0) rfl rfl)
  replace r := r.step (.increment rfl)
  replace r := r.step (.enter rfl (by decide))
  replace r := r.step (.create (t := 1) rfl rfl)
  replace r := r.step (.readArg (t := 0) rfl)
  replace r := r.step (.readArg (t := 1) rfl)
  refine ⟨⟨_, r, 0, 1, .globalNode1, by decide, rfl, rfl⟩, ?_⟩
  replace r := r.step (.increment rfl)
  replace r := r.step (.leave rfl (by decide))
  replace r := r.step (.exec (t := 0) rfl)
  replace r := r.step (.exec (t := 0) rfl)
  replace r := r.step (.exec (t := 0) rfl)
  replace r := r.step (.exec (t := 1) rfl)
  replace r := r.step (.exec (t := 1) rfl)
  replace r := r.step (.exec (t := 1) rfl)
  replace r := r.step (.exec (t := 0) rfl)
  replace r := r.step (.exec (t := 0) rfl)
  replace r := r.step (.exec (t := 0) rfl)
  replace r := r.step (.exec (t := 1) rfl)
  replace r := r.step (.exec (t := 1) rfl)
  exact ⟨_, r, Waits.stuck ⟨rfl, rfl, rfl, rfl⟩⟩

end Dpdk.Driver

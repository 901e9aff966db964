import OrderingBugs.Memory.Linked
import OrderingBugs.Memory.Renaming
import OrderingBugs.Memory.Sequential
import OrderingBugs.OpenMpi.Lifo

open Function

-- The LIFO of Open MPI when its functions are called one after the other, on any number of nodes.
namespace OpenMpi.Stack

variable {N L L' : Type}

-- The objects of type `opal_list_item_t`: the sentinel, and what is allocated.
inductive Item (N : Type)
  | opalLifoGhost
  | node (n : N)
  deriving DecidableEq

inductive Ptr (N : Type)
  | null
  | addr (item : Item N)
  | wild (address : Nat)
  deriving DecidableEq

abbrev Ptr.ghost : Ptr N :=
  addr .opalLifoGhost

abbrev Ptr.node (n : N) : Ptr N :=
  addr (.node n)

inductive Loc (N : Type)
  | opalLifoHead
  | item
  | opalListNext (item : Item N)
  | itemFree (item : Item N)
  deriving DecidableEq

abbrev Val : Loc N → Type
  | .opalLifoHead | .item | .opalListNext _ => Ptr N
  | .itemFree _ => Int

-- Following a pointer to anything but an item ends the thread.
def Ptr.deref (p : Ptr N) (k : Item N → Op (Loc N) Val L) : Op (Loc N) Val L :=
  match p with
  | null | wild _ => .halt
  | addr item => k item

inductive PushPc (N : Type)
  | loadItem
  | storeFree (item : Ptr N)
  | loadHead
  | loadItemNext (next : Ptr N)
  | storeNext (next item : Ptr N)
  | loadItemExchange (next : Ptr N)
  | compareExchange (next item : Ptr N)
  | loadItemFree (next : Ptr N)
  | clearFree (next item : Ptr N)
  deriving DecidableEq

inductive PopPc (N : Type)
  | loadHead
  | storeItem (head : Ptr N)
  | loadItemFree
  | loadFree (item : Ptr N)
  | loadItemNext
  | loadNext (item : Ptr N)
  | loadExpected (next : Ptr N)
  | compareExchange (expected next : Ptr N)
  | storeExpected (head : Ptr N)
  | loadItemClear
  | clearFree (item : Ptr N)
  deriving DecidableEq

variable [DecidableEq N]

-- `opal_lifo_push_atomic`
def opalLifoPushAtomic : Sequential.Code (Loc N) Val (PushPc N) (Ptr N)
  | .loadItem => .load .plain .item fun item => .inl (.storeFree item)
  | .storeFree item => item.deref fun i => .store .seqCst (.itemFree i) 1 (.inl .loadHead)
  | .loadHead => .load .seqCst .opalLifoHead fun next => .inl (.loadItemNext next)
  | .loadItemNext next => .load .plain .item fun item => .inl (.storeNext next item)
  | .storeNext next item =>
    item.deref fun i => .store .plain (.opalListNext i) next (.inl (.loadItemExchange next))
  | .loadItemExchange next => .load .plain .item fun item => .inl (.compareExchange next item)
  | .compareExchange next item =>
    .rmw .seqCst .opalLifoHead (fun v => if v = next then item else v) fun v =>
      .inl (if v = next then .loadItemFree next else .loadHead)
  | .loadItemFree next => .load .plain .item fun item => .inl (.clearFree next item)
  | .clearFree next item => item.deref fun i => .store .seqCst (.itemFree i) 0 (.inr next)

-- `opal_lifo_pop_atomic`, with the number of exchanges that are yet to fail although they find what they
-- expect.
def opalLifoPopAtomic : Sequential.Code (Loc N) Val (PopPc N × Nat) (Ptr N)
  | (.loadHead, k) => .load .seqCst .opalLifoHead fun head => .inl (.storeItem head, k)
  | (.storeItem head, k) =>
    .store .plain .item head (if head = .ghost then .inr .null else .inl (.loadItemFree, k))
  | (.loadItemFree, k) => .load .plain .item fun item => .inl (.loadFree item, k)
  | (.loadFree item, k) => item.deref fun i => .load .seqCst (.itemFree i) fun free =>
    if free = 1 then .inl (.loadHead, k) else .inl (.loadItemNext, k)
  | (.loadItemNext, k) => .load .plain .item fun item => .inl (.loadNext item, k)
  | (.loadNext item, k) =>
    item.deref fun i => .load .plain (.opalListNext i) fun next => .inl (.loadExpected next, k)
  | (.loadExpected next, k) => .load .plain .item fun item => .inl (.compareExchange item next, k)
  | (.compareExchange expected next, k) =>
    .rmw .seqCst .opalLifoHead (fun v => if v = expected ∧ k = 0 then next else v) fun v =>
      if v = expected ∧ k = 0 then .inr .null else .inl (.storeExpected v, k - 1)
  | (.storeExpected head, k) => .store .plain .item head (.inl (.loadItemClear, k))
  | (.loadItemClear, k) => .load .plain .item fun item => .inl (.clearFree item, k)
  | (.clearFree item, k) => item.deref fun i => .store .seqCst (.itemFree i) 0 (.inl (.loadHead, k))

-- With a single node, the functions do what they do in the threads.
section Single

def Ptr.single : Ptr Unit → OpenMpi.Ptr
  | null => .null
  | .ghost => .ghost
  | .node _ => .node
  | wild a => .wild a

def Loc.single : Loc Unit → OpenMpi.Loc
  | opalLifoHead => .opalLifoHead
  | item => .item
  | opalListNext .opalLifoGhost => .opalListNext .opalLifoGhost
  | opalListNext (.node _) => .opalListNext .node
  | itemFree .opalLifoGhost => .itemFree .opalLifoGhost
  | itemFree (.node _) => .itemFree .node

def single : (x : Loc Unit) → Val x → OpenMpi.Val x.single
  | .opalLifoHead | .item => Ptr.single
  | .opalListNext .opalLifoGhost | .opalListNext (.node _) => Ptr.single
  | .itemFree .opalLifoGhost | .itemFree (.node _) => id

def PushPc.single : PushPc Unit → OpenMpi.PushPc
  | loadItem => .loadItem
  | storeFree item => .storeFree item.single
  | loadHead => .loadHead
  | loadItemNext next => .loadItemNext next.single
  | storeNext next item => .storeNext next.single item.single
  | loadItemExchange next => .loadItemExchange next.single
  | compareExchange next item => .compareExchange next.single item.single
  | loadItemFree _ => .loadItemFree
  | clearFree _ item => .clearFree item.single

def PopPc.single : PopPc Unit → OpenMpi.PopPc
  | loadHead => .loadHead
  | storeItem head => .storeItem head.single
  | loadItemFree => .loadItemFree
  | loadFree item => .loadFree item.single
  | loadItemNext => .loadItemNext
  | loadNext item => .loadNext item.single
  | loadExpected next => .loadExpected next.single
  | compareExchange expected next => .compareExchange expected.single next.single
  | storeExpected head => .storeExpected head.single
  | loadItemClear => .loadItemClear
  | clearFree item => .clearFree item.single

theorem Ptr.single_inj {p q : Ptr Unit} : p.single = q.single ↔ p = q := by
  obtain _ | (_ | _) | _ := p <;> obtain _ | (_ | _) | _ := q <;> simp [single]

theorem Ptr.renamed_deref {p : Ptr Unit} {k : Item Unit → Op (Loc Unit) Val L} {f : L → L'}
    {k' : OpenMpi.Item → Op OpenMpi.Loc OpenMpi.Val L'}
    (hg : (k .opalLifoGhost).Renamed Loc.single Stack.single f (k' .opalLifoGhost))
    (hn : (k (.node ())).Renamed Loc.single Stack.single f (k' .node)) :
    (p.deref k).Renamed Loc.single Stack.single f (p.single.deref k') := by
  obtain _ | (_ | _) | _ := p
  case null | wild => exact .halt
  case addr.opalLifoGhost => exact hg
  case addr.node => exact hn

theorem renamed_push {L : Type} (k : OpenMpi.PushPc → L) (ret : L) (pc : PushPc Unit) :
    (opalLifoPushAtomic pc).Renamed Loc.single single (Sum.elim (fun pc => k pc.single) fun _ => ret)
      (OpenMpi.opalLifoPushAtomic k (fun _ => k .loadItemFree) ret pc.single) := by
  cases pc
  case loadItem | loadHead | loadItemNext | loadItemExchange | loadItemFree => exact .load fun _ => rfl
  case storeFree | storeNext | clearFree => exact Ptr.renamed_deref .store .store
  case compareExchange next item =>
    refine .rmw (fun v => ?_) fun v => ?_
    · by_cases hv : v = next <;> simp [single, Ptr.single_inj, hv] <;> rfl
    · by_cases hv : v = next <;> simp [single, Ptr.single_inj, hv, PushPc.single]

theorem renamed_pop {L : Type} (k : Nat → OpenMpi.PopPc → L) (ret : L) (pc : PopPc Unit) (j : Nat) :
    (opalLifoPopAtomic (pc, j)).Renamed Loc.single single
      (Sum.elim (fun (pc, j) => k j pc.single) fun _ => ret)
      (OpenMpi.opalLifoPopAtomic (j ≠ 0) (k j) (fun head => k (j - 1) (.storeExpected head)) ret ret pc.single) := by
  cases pc
  case loadHead | loadItemFree | loadItemNext | loadExpected | loadItemClear => exact .load fun _ => rfl
  case storeItem head =>
    obtain rfl | hh := eq_or_ne head .ghost
    case inl => exact .store
    case inr =>
      have hs : head.single ≠ .ghost := mt (Ptr.single_inj (q := .ghost)).mp hh
      simp only [opalLifoPopAtomic, OpenMpi.opalLifoPopAtomic, PopPc.single, if_neg hh, if_neg hs]
      exact .store
  case loadFree item =>
    refine Ptr.renamed_deref (.load fun free => ?_) (.load fun free => ?_)
    all_goals by_cases hf : free = (1 : Int) <;> simp [single, hf, PopPc.single]
  case loadNext => exact Ptr.renamed_deref (.load fun _ => rfl) (.load fun _ => rfl)
  case storeExpected => exact .store
  case clearFree => exact Ptr.renamed_deref .store .store
  case compareExchange expected next =>
    refine .rmw (fun v => ?_) fun v => ?_
    · by_cases hv : v = expected ∧ j = 0 <;> simp [single, Ptr.single_inj, hv] <;> rfl
    · by_cases hv : v = expected ∧ j = 0 <;> simp [single, Ptr.single_inj, hv, PopPc.single]

end Single

variable (n : N) (m : Mem (Val (N := N)))

-- `opal_lifo_init`, where `malloc` returns the given node. What the nodes contain is arbitrary.
def opalLifoInit : Mem (Val (N := N)) :=
  let m₁ := update m (.itemFree .opalLifoGhost) (0 : Int)
  let m₂ := update m₁ (.opalListNext .opalLifoGhost) Ptr.null
  let m₃ := update m₂ .item (Ptr.node n)
  update m₃ .opalLifoHead Ptr.ghost

-- The global `item` is set to a node with whatever it contains.
def malloc (next : Ptr N) (free : Int) : Mem (Val (N := N)) :=
  update (update (update m (.opalListNext (.node n)) next) (.itemFree (.node n)) free) .item (Ptr.node n)

inductive Call (N : Type)
  | push (n : N) (next : Ptr N) (free : Int)
  | pop (failures : Nat)

-- A call with what it returns.
def call : Call N → Mem (Val (N := N)) → Mem (Val (N := N)) → Ptr N → Prop
  | .push n next free, m, m', r => Sequential.Eval opalLifoPushAtomic (malloc n m next free) .loadItem m' r
  | .pop failures, m, m', r => Sequential.Eval opalLifoPopAtomic m (.loadHead, failures) m' r

-- The links from a pointer lead through the given nodes to the sentinel.
abbrev Chain (m : Mem (Val (N := N))) : Ptr N → List N → Prop :=
  Linked (fun n p => m (.opalListNext (.node n)) = p) .node .ghost

-- What is pushed is not on the list.
def Fresh (m : Mem (Val (N := N))) (l : Call N × Ptr N) : Prop :=
  ∀ n next free, l.1 = .push n next free → ∀ ns, Chain m (m .opalLifoHead) ns → n ∉ ns

-- The calls that are made one after the other once the LIFO has been initialised.
def history : System (Mem (Val (N := N))) (Call N × Ptr N) :=
  (Sequential.system call (opalLifoInit n m)).restrict Fresh

-- The nodes that have been pushed and not been popped, the last one first.
def track : List N → Call N × Ptr N → List N
  | ns, (.push n _ _, _) => n :: ns
  | ns, (.pop _, _) => ns.tail

def stack (ls : List (Call N × Ptr N)) : List N :=
  ls.foldl track []

def top : List N → Ptr N
  | [] => .null
  | n :: _ => .node n

-- A pop returns the node that has been pushed last, and removes it from the list.
structure Pops (ns : List N) (m : Mem (Val (N := N))) (r : Ptr N) : Prop where
  returns : r = top ns
  removes : Chain m (m .opalLifoHead) ns.tail

variable {n : N} {m m' m₀ : Mem (Val (N := N))} {ns : List N} {next : Ptr N} {free : Int} {k : Nat}
variable {c : Call N} {r r₁ r₂ : Ptr N} {ls : List (Call N × Ptr N)}

-- The list consists of the nodes, and all of them may be popped.
structure Holds (ns : List N) (m : Mem (Val (N := N))) : Prop where
  chain : Chain m (m .opalLifoHead) ns
  free  : ∀ n ∈ ns, m (.itemFree (.node n)) = (0 : Int)

omit [DecidableEq N] in
theorem Chain.unique {p : Ptr N} {ns₁ ns₂ : List N} (h₁ : Chain m p ns₁) (h₂ : Chain m p ns₂) : ns₁ = ns₂ :=
  Linked.unique ⟨fun _ _ _ h₁ h₂ => h₁.symm.trans h₂, fun _ _ h => by simpa using h, by simp⟩ h₁ h₂

theorem call_unique {m₁ m₂ : Mem (Val (N := N))} (h₁ : call c m m₁ r₁) (h₂ : call c m m₂ r₂) :
    m₁ = m₂ ∧ r₁ = r₂ := by
  cases c <;> exact Sequential.Eval.unique h₁ h₂

namespace Holds

theorem init : Holds [] (opalLifoInit n m) where
  chain := .nil
  free := by simp

-- The exchange of a push finds what the push has read.
theorem push (h : Holds ns m) (hn : n ∉ ns) :
    ∃ m', call (.push n next free) m m' (m .opalLifoHead) ∧ Holds (n :: ns) m' := by
  let head := m .opalLifoHead
  let m₁ := update (malloc n m next free) (.itemFree (.node n)) (1 : Int)
  let m₂ := update m₁ (.opalListNext (.node n)) head
  let m₃ := update m₂ .opalLifoHead (Ptr.node n)
  let m₄ := update m₃ (.itemFree (.node n)) (0 : Int)
  have hi₀ : malloc n m next free .item = Ptr.node n := by simp [malloc]
  have hi₁ : m₁ .item = Ptr.node n := by simp [m₁, hi₀]
  have hi₂ : m₂ .item = Ptr.node n := by simp [m₂, hi₁]
  have hh₁ : m₁ .opalLifoHead = head := by simp [m₁, malloc, head]
  have hh₂ : m₂ .opalLifoHead = head := by simp [m₂, hh₁]
  have e : call (.push n next free) m m₄ head := by
    refine .step (n := malloc n m next free) (q := .storeFree (.node n)) ?_ <|
      .step (n := m₁) rfl <| .step (n := m₁) (q := .loadItemNext head) ?_ <|
      .step (n := m₁) (q := .storeNext head (.node n)) ?_ <|
      .step (n := m₂) rfl <| .step (n := m₂) (q := .compareExchange head (.node n)) ?_ <|
      .step (n := m₃) (q := .loadItemFree head) ?_ <|
      .step (n := m₃) (q := .clearFree head (.node n)) ?_ <| .ret rfl
    all_goals simp [opalLifoPushAtomic, Op.interleave, hi₀, hi₁, hi₂, hh₁, hh₂, m₃]
  have other {k : N} (hk : k ≠ n) : m₄ (.opalListNext (.node k)) = m (.opalListNext (.node k)) ∧
      m₄ (.itemFree (.node k)) = m (.itemFree (.node k)) := by
    simp [m₄, m₃, m₂, m₁, malloc, hk]
  refine ⟨m₄, e, .cons (p := head) (by simp [m₄, m₃, m₂]) (h.chain.congr fun k hk p hp => ?_), fun k hk => ?_⟩
  · exact (other fun hkn => hn (hkn ▸ hk)).1.trans hp
  · by_cases hkn : k = n
    case pos => subst hkn; exact update_self ..
    case neg => exact (other hkn).2.trans (h.free k (by simpa [hkn] using hk))

theorem pop_nil (h : Holds [] m) : ∃ m', call (.pop k) m m' .null ∧ Holds [] m' := by
  have hh : m .opalLifoHead = Ptr.ghost := Linked.nil_iff.mp h.chain
  refine ⟨update m .item Ptr.ghost, .step (n := m) (q := (.storeItem .ghost, k)) ?_ (.ret rfl), ?_, by simp⟩
  · simp [opalLifoPopAtomic, Op.interleave, hh]
  · simpa [hh] using .nil

-- What a pop does up to its exchange is to set `item`.
theorem eval_exchange (h : Holds (n :: ns) m)
    (e : Sequential.Eval opalLifoPopAtomic (update m .item (Ptr.node n))
      (.compareExchange (.node n) (m (.opalListNext (.node n))), k) m' r) :
    Sequential.Eval opalLifoPopAtomic m (.loadHead, k) m' r := by
  have hh : m .opalLifoHead = Ptr.node n := (Linked.cons_iff.mp h.chain).1
  have hf : m (.itemFree (.node n)) = (0 : Int) := h.free n (by simp)
  let m₁ := update m .item (Ptr.node n)
  refine .step (n := m) (q := (.storeItem (.node n), k)) ?_ <|
    .step (n := m₁) (q := (.loadItemFree, k)) ?_ <| .step (n := m₁) (q := (.loadFree (.node n), k)) ?_ <|
    .step (n := m₁) (q := (.loadItemNext, k)) ?_ <| .step (n := m₁) (q := (.loadNext (.node n), k)) ?_ <|
    .step (n := m₁) (q := (.loadExpected (m (.opalListNext (.node n))), k)) ?_ <| .step (n := m₁) ?_ e
  all_goals simp [opalLifoPopAtomic, Ptr.deref, Op.interleave, hh, hf, m₁]

-- A pop goes on until an exchange succeeds, which removes the first node.
theorem pop_cons (h : Holds (n :: ns) m) : ∃ m', call (.pop k) m m' .null ∧ Holds ns m' := by
  induction k generalizing m
  all_goals
    obtain ⟨hh, next, hn, hc⟩ := Linked.cons_iff.mp h.chain
    let m₁ := update m .item (Ptr.node n)
  case zero =>
    let m₂ := update m₁ .opalLifoHead next
    refine ⟨m₂, h.eval_exchange (.ret ?_), ?_, fun k hk => ?_⟩
    · simp [opalLifoPopAtomic, Op.interleave, hh, hn, m₁, m₂]
    · simpa [Chain, m₂, m₁] using hc
    · simpa [m₂, m₁] using h.free k (by simp [hk])
  case succ k hi =>
    let m₂ := update m₁ (.itemFree (.node n)) (0 : Int)
    have h₂ : Holds (n :: ns) m₂ := by
      refine ⟨?_, fun k hk => ?_⟩
      · simpa [Chain, m₂, m₁] using h.chain
      · by_cases hkn : k = n
        case pos => subst hkn; exact update_self ..
        case neg => simpa [m₂, m₁, hkn] using h.free k hk
    obtain ⟨m', e, h'⟩ := hi h₂
    refine ⟨m', h.eval_exchange ?_, h'⟩
    refine .step (n := m₁) (q := (.storeExpected (.node n), k)) ?_ <|
      .step (n := m₁) (q := (.loadItemClear, k)) ?_ <|
      .step (n := m₁) (q := (.clearFree (.node n), k)) ?_ <| .step (n := m₂) ?_ e
    all_goals simp [opalLifoPopAtomic, Ptr.deref, Op.interleave, hh, m₁, m₂]

theorem pop (h : Holds ns m) : ∃ m', call (.pop k) m m' .null ∧ Holds ns.tail m' := by
  cases ns
  case nil => exact h.pop_nil
  case cons => exact h.pop_cons

theorem call (h : Holds ns m) (hf : Fresh m (c, r)) (e : call c m m' r) : Holds (track ns (c, r)) m' := by
  cases c
  case push n next free =>
    obtain ⟨_, e', h'⟩ := h.push (hf n next free rfl ns h.chain)
    obtain ⟨rfl, -⟩ := call_unique e e'
    exact h'
  case pop =>
    obtain ⟨_, e', h'⟩ := h.pop
    obtain ⟨rfl, -⟩ := call_unique e e'
    exact h'

theorem run (e : (history n m₀).Run ls m) : Holds (stack ls) m := by
  refine e.invariant (I := fun ls m => Holds (stack ls) m) (fun m hm => ?init) fun ls m l m' _ h e => ?step
  case init => cases hm; exact .init
  case step => simpa [stack] using h.call e.1 e.2

end Holds

-- A pop always returns, and removes what it is to remove.
theorem exists_pop (e : (history n m₀).Run ls m) (k : Nat) :
    ∃ m', (history n m₀).Step m (.pop k, .null) m' ∧ Chain m' (m' .opalLifoHead) (stack ls).tail := by
  obtain ⟨m', e', h⟩ := (Holds.run e).pop (k := k)
  exact ⟨m', ⟨nofun, e'⟩, h.chain⟩

-- It returns `NULL` in any case, which is right only if no node is left.
theorem pops_iff (N : Type) [DecidableEq N] (n : N) (m₀ : Mem Val) (ls : List (Call N × Ptr N)) (m : Mem Val)
    (e : (history n m₀).Run ls m) (k : Nat) :
    (∃ m' r, (history n m₀).Step m (.pop k, r) m' ∧ Pops (stack ls) m' r) ↔ stack ls = [] where
  mp := by
    rintro ⟨m', r, e', h⟩
    obtain ⟨_, e₁, -⟩ := exists_pop e k
    have hr : top (stack ls) = .null := h.returns.symm.trans (call_unique (c := .pop k) e'.2 e₁.2).2
    generalize stack ls = ns at hr
    cases ns
    case nil => rfl
    case cons => cases hr
  mpr hs := by
    obtain ⟨m', e', h⟩ := exists_pop e k
    exact ⟨m', _, e', by simp [hs, top], h⟩

def start : Mem (Val (N := Unit))
  | .opalLifoHead | .item | .opalListNext _ => Ptr.null
  | .itemFree _ => (0 : Int)

-- The only node is pushed.
theorem exists_pushed (m₀ : Mem Val) : ∃ m, (history () m₀).Run [(.push () .null 0, .ghost)] m := by
  have ⟨m, e, _⟩ : ∃ m, call (.push () .null 0) (opalLifoInit () m₀) m .ghost ∧ _ := Holds.init.push (by simp)
  exact ⟨m, .step (.init rfl) ⟨fun _ _ _ _ ns h => by simp [Chain.unique h .nil], e⟩⟩

-- The second of two pops finds nothing left.
theorem pops_iff_twice :
    ∃ m, (history () start).Run [(.push () .null 0, .ghost), (.pop 0, .null)] m ∧
    ∃ m' r, (history () start).Step m (.pop 0, r) m' ∧ Pops [] m' r := by
  have ⟨_, e⟩ := exists_pushed start
  have ⟨m, e', _⟩ := exists_pop e 0
  have e := e.step e'
  exact ⟨m, e, (pops_iff _ _ _ _ _ e 0).mpr rfl⟩

-- The pop of the only node returns `NULL`.
theorem not_pops : ∃ m, (history () start).Run [(.push () .null 0, .ghost)] m ∧
    ¬∃ m' r, (history () start).Step m (.pop 0, r) m' ∧ Pops [()] m' r := by
  have ⟨m, e⟩ := exists_pushed start
  refine ⟨m, e, ?_⟩
  rintro ⟨_, r, e', h⟩
  have ⟨_, e₁, _⟩ := exists_pop e 0
  obtain rfl : r = .null := (call_unique (c := .pop 0) e'.2 e₁.2).2
  cases h.returns

end OpenMpi.Stack

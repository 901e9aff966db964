import OrderingBugs.Harness.Pair

open Function

-- The LIFO of Open MPI (`15-openmpi.c`), with any number of push and pop operations.
namespace OpenMpi

open Harness

-- The objects of type `opal_list_item_t`: the sentinel, and what `opal_lifo_init` allocates.
inductive Item
  | opalLifoGhost
  | node
  deriving DecidableEq

inductive Ptr
  | null
  | addr (item : Item)
  | wild (address : Nat)
  deriving DecidableEq

abbrev Ptr.ghost : Ptr :=
  addr .opalLifoGhost

abbrev Ptr.node : Ptr :=
  addr .node

inductive Loc
  | opalLifoHead
  | item
  | opalListNext (item : Item)
  | itemFree (item : Item)
  deriving DecidableEq

abbrev Val : Loc → Type
  | .opalLifoHead | .item | .opalListNext _ => Ptr
  | .itemFree _ => Int

variable {L : Type}

-- Following a pointer to anything but an item ends the thread.
def Ptr.deref (p : Ptr) (k : Item → Op Loc Val L) : Op Loc Val L :=
  match p with
  | null | wild _ => .halt
  | addr item => k item

theorem Ptr.interleave_deref {p : Ptr} {k : Item → Op Loc Val L} {m m' : Mem Val} {l : L}
    (e : (p.deref k).interleave m = some (m', l)) : ∃ i, (k i).interleave m = some (m', l) := by
  cases p
  case null | wild => cases e
  case addr i => exact ⟨i, e⟩

inductive PushPc
  | loadItem
  | storeFree (item : Ptr)
  | loadHead
  | loadItemNext (next : Ptr)
  | storeNext (next item : Ptr)
  | loadItemExchange (next : Ptr)
  | compareExchange (next item : Ptr)
  | loadItemFree
  | clearFree (item : Ptr)
  deriving DecidableEq

-- `opal_lifo_push_atomic`
def opalLifoPushAtomic (k : PushPc → L) (pushed : Ptr → L) (ret : L) : PushPc → Op Loc Val L
  | .loadItem => .load .plain .item fun item => k (.storeFree item)
  | .storeFree item => item.deref fun i => .store .seqCst (.itemFree i) 1 (k .loadHead)
  | .loadHead => .load .seqCst .opalLifoHead fun next => k (.loadItemNext next)
  | .loadItemNext next => .load .plain .item fun item => k (.storeNext next item)
  | .storeNext next item =>
    item.deref fun i => .store .plain (.opalListNext i) next (k (.loadItemExchange next))
  | .loadItemExchange next => .load .plain .item fun item => k (.compareExchange next item)
  | .compareExchange next item =>
    .rmw .seqCst .opalLifoHead (fun v => if v = next then item else v) fun v =>
      if v = next then pushed item else k .loadHead
  | .loadItemFree => .load .plain .item fun item => k (.clearFree item)
  | .clearFree item => item.deref fun i => .store .seqCst (.itemFree i) 0 ret

inductive PopPc
  | loadHead
  | storeItem (head : Ptr)
  | loadItemFree
  | loadFree (item : Ptr)
  | loadItemNext
  | loadNext (item : Ptr)
  | loadExpected (next : Ptr)
  | compareExchange (expected next : Ptr)
  | storeExpected (head : Ptr)
  | loadItemClear
  | clearFree (item : Ptr)
  deriving DecidableEq

-- `opal_lifo_pop_atomic`. The exchange may fail although it finds what it expects.
def opalLifoPopAtomic (spurious : Bool) (k : PopPc → L) (failed : Ptr → L) (popped ret : L) :
    PopPc → Op Loc Val L
  | .loadHead => .load .seqCst .opalLifoHead fun head => k (.storeItem head)
  | .storeItem head => .store .plain .item head (if head = .ghost then ret else k .loadItemFree)
  | .loadItemFree => .load .plain .item fun item => k (.loadFree item)
  | .loadFree item => item.deref fun i => .load .seqCst (.itemFree i) fun free =>
    if free = 1 then k .loadHead else k .loadItemNext
  | .loadItemNext => .load .plain .item fun item => k (.loadNext item)
  | .loadNext item => item.deref fun i => .load .plain (.opalListNext i) fun next => k (.loadExpected next)
  | .loadExpected next => .load .plain .item fun item => k (.compareExchange item next)
  | .compareExchange expected next =>
    .rmw .seqCst .opalLifoHead (fun v => if v = expected ∧ !spurious then next else v) fun v =>
      if v = expected ∧ !spurious then popped else failed v
  | .storeExpected head => .store .plain .item head (k .loadItemClear)
  | .loadItemClear => .load .plain .item fun item => k (.clearFree item)
  | .clearFree item => item.deref fun i => .store .seqCst (.itemFree i) 0 (k .loadHead)

-- The thread in its loop, with what it has pushed, the last item first.
structure Push where
  current : Option PushPc
  i       : Nat
  pushed  : List Ptr
  deriving DecidableEq

-- The thread in its loop, with the number of items it has popped, and how often it has tried to.
structure Pop where
  current : Option PopPc
  i       : Nat
  popped  : Nat
  tries   : Nat
  deriving DecidableEq

variable (pushOperations popOperations : Nat) (spurious : Nat → Bool)

def pushThreadFunc : Push → Op Loc Val Push
  | ⟨none, i, ps⟩ => if i < pushOperations then .skip ⟨some .loadItem, i, ps⟩ else .halt
  | ⟨some pc, i, ps⟩ =>
    opalLifoPushAtomic (fun pc => ⟨some pc, i, ps⟩) (fun item => ⟨some .loadItemFree, i, item :: ps⟩)
      ⟨none, i + 1, ps⟩ pc

def popThreadFunc : Pop → Op Loc Val Pop
  | ⟨none, i, n, k⟩ => if i < popOperations then .skip ⟨some .loadHead, i, n, k⟩ else .halt
  | ⟨some pc, i, n, k⟩ =>
    opalLifoPopAtomic (spurious k) (fun pc => ⟨some pc, i, n, k⟩)
      (fun head => ⟨some (.storeExpected head), i, n, k + 1⟩) ⟨none, i + 1, n + 1, k + 1⟩
      ⟨none, i + 1, n, k⟩ pc

-- What the allocated item contains at first is arbitrary.
def opalLifoInit (next : Ptr) (free : Int) : Mem Val
  | .opalLifoHead => Ptr.ghost
  | .item => Ptr.node
  | .opalListNext .opalLifoGhost => Ptr.null
  | .opalListNext .node => next
  | .itemFree .opalLifoGhost => (0 : Int)
  | .itemFree .node => free

variable (next : Ptr) (free : Int)

abbrev lifo : System (State Val Push Pop) (Label Push Pop) :=
  system (pushThreadFunc pushOperations) (popThreadFunc popOperations spurious) (opalLifoInit next free)
    ⟨none, 0, []⟩ ⟨none, 0, 0, 0⟩

-- The links from a pointer lead through the given items to the sentinel.
inductive Chain (m : Mem Val) : Ptr → List Item → Prop
  | ghost : Chain m .ghost []
  | link {i : Item} {is : List Item} :
    i ≠ .opalLifoGhost → Chain m (m (.opalListNext i)) is → Chain m (.addr i) (i :: is)

-- The chain comes to an end, it consists of what has been pushed and not been popped, and is free to be
-- popped when all is pushed. The sentinel is never pushed.
structure Integrity (m : Mem Val) (w : Push) (r : Pop) : Prop where
  chain : ∃ is, Chain m (m .opalLifoHead) is ∧ is.length + r.popped = w.pushed.length ∧
    (w.current = none → pushOperations ≤ w.i → ∀ i ∈ is, m (.itemFree i) = 0)
  ghost : Ptr.ghost ∉ w.pushed

def Intact (s : State Val Push Pop) : Prop :=
  ∀ w r, s.writerAt w → s.readerAt r → Integrity pushOperations s.mem w r

variable {pushOperations} in
@[simp]
theorem intact_state {m : Mem Val} {w : Push} {r : Pop} :
    Intact pushOperations (state m w r) ↔ Integrity pushOperations m w r := by
  simp [Intact]

-- The push thread has yet to read the global `item`.
def ReadsItem (w : Push) : Prop :=
  match w.current with
  | none => w.i < pushOperations
  | some (.clearFree _) => w.i + 1 < pushOperations
  | some _ => True

-- A push begins while the list is empty, and a pop does not find it empty before the push thread has read
-- the global `item` for the last time.
def Careful (s : State Val Push Pop) (l : Label Push Pop) : Prop :=
  (∀ w : Push, l.2.1 = ⟨.writer, w⟩ → w.current = some .loadItem → s.mem .opalLifoHead = Ptr.ghost) ∧
  (∀ r : Pop, l.2.1 = ⟨.reader, r⟩ → r.current = some (.storeItem .ghost) →
    ∀ w, s.writerAt w → ¬ReadsItem pushOperations w)

-- The runs in which the threads are careful.
abbrev carefulLifo : System (State Val Push Pop) (Label Push Pop) :=
  (lifo pushOperations popOperations spurious next free).restrict (Careful pushOperations)

-- The push is not under way, or its thread has only just begun it.
def PushPc.Idle : Option PushPc → Prop
  | none | some loadItem => True
  | some _ => False

-- Where a push has got, while `item` is the node throughout.
def PushPc.Fine (m : Mem Val) : Option PushPc → Prop
  | none | some loadItem => m .opalLifoHead = Ptr.node → m (.itemFree .node) = (0 : Int)
  | some (storeFree p) => p = .node ∧ m .opalLifoHead = Ptr.ghost
  | some loadHead => m .opalLifoHead = Ptr.ghost ∧ m (.itemFree .node) = (1 : Int)
  | some (loadItemNext n) => n = .ghost ∧ m .opalLifoHead = Ptr.ghost ∧ m (.itemFree .node) = (1 : Int)
  | some (storeNext n p) =>
    p = .node ∧ n = .ghost ∧ m .opalLifoHead = Ptr.ghost ∧ m (.itemFree .node) = (1 : Int)
  | some (loadItemExchange n) =>
    m (.opalListNext .node) = Ptr.ghost ∧ n = .ghost ∧ m .opalLifoHead = Ptr.ghost ∧
      m (.itemFree .node) = (1 : Int)
  | some (compareExchange n p) =>
    p = .node ∧ m (.opalListNext .node) = Ptr.ghost ∧ n = .ghost ∧ m .opalLifoHead = Ptr.ghost ∧
      m (.itemFree .node) = (1 : Int)
  | some loadItemFree => m .opalLifoHead = Ptr.node ∧ m (.itemFree .node) = (1 : Int)
  | some (clearFree p) => p = .node ∧ m .opalLifoHead = Ptr.node ∧ m (.itemFree .node) = (1 : Int)

-- Where a pop has got: it is never about to change the head unless the node is there and no push is under
-- way.
def PopPc.Fine (m : Mem Val) (idle : Prop) : Option PopPc → Prop
  | none | some loadHead => True
  | some (storeItem h) => h = .ghost ∨ (h = .node ∧ m .opalLifoHead = Ptr.node)
  | some loadItemFree => m .item = Ptr.node ∧ m .opalLifoHead = Ptr.node
  | some (loadFree p) => p = .node ∧ m .item = Ptr.node ∧ m .opalLifoHead = Ptr.node
  | some loadItemNext => idle ∧ m .item = Ptr.node ∧ m .opalLifoHead = Ptr.node
  | some (loadNext p) => p = .node ∧ idle ∧ m .item = Ptr.node ∧ m .opalLifoHead = Ptr.node
  | some (loadExpected n) => n = .ghost ∧ idle ∧ m .item = Ptr.node ∧ m .opalLifoHead = Ptr.node
  | some (compareExchange p n) =>
    p = .node ∧ n = .ghost ∧ idle ∧ m .item = Ptr.node ∧ m .opalLifoHead = Ptr.node
  | some (storeExpected h) => h = .node ∧ idle ∧ m .item = Ptr.node ∧ m .opalLifoHead = Ptr.node
  | some loadItemClear => idle ∧ m .item = Ptr.node ∧ m .opalLifoHead = Ptr.node
  | some (clearFree p) => p = .node ∧ idle ∧ m .item = Ptr.node ∧ m .opalLifoHead = Ptr.node

-- What holds as long as the threads are careful: the head is the sentinel or the node.
structure Fine (m : Mem Val) (w : Push) (r : Pop) : Prop where
  push     : PushPc.Fine m w.current
  pop      : PopPc.Fine m (PushPc.Idle w.current) r.current
  item     : ReadsItem pushOperations w → m .item = Ptr.node
  pushed   : ∀ p ∈ w.pushed, p = .node
  head     :
    (m .opalLifoHead = Ptr.ghost ∧ w.pushed.length = r.popped) ∨
    (m .opalLifoHead = Ptr.node ∧ m (.opalListNext .node) = Ptr.ghost ∧ w.pushed.length = r.popped + 1)

variable {pushOperations popOperations spurious next free}
variable {m m' : Mem Val} {w w' : Push} {r r' : Pop}

theorem Fine.init : Fine pushOperations (opalLifoInit next free) ⟨none, 0, []⟩ ⟨none, 0, 0, 0⟩ where
  push := nofun
  pop := trivial
  item _ := rfl
  pushed := by simp
  head := .inl ⟨rfl, rfl⟩

theorem Fine.integrity (h : Fine pushOperations m w r) : Integrity pushOperations m w r := by
  refine ⟨?_, fun hg => nomatch h.pushed _ hg⟩
  obtain ⟨hh, hl⟩ | ⟨hh, hn, hl⟩ := h.head
  · refine ⟨[], hh ▸ .ghost, by simp [hl], by simp⟩
  · refine ⟨[.node], hh ▸ .link nofun (hn ▸ .ghost), by simp [hl, add_comm], fun hc _ => ?_⟩
    have := h.push
    simp only [hc, PushPc.Fine] at this
    simpa using this hh

-- A pop that is not about to change the head does not notice what happens while the list is empty.
theorem PopPc.Fine.of_ghost {idle idle' : Prop} {c : Option PopPc} (h : PopPc.Fine m idle c)
    (hg : m .opalLifoHead = Ptr.ghost) : PopPc.Fine m' idle' c := by
  have hn : m .opalLifoHead ≠ Ptr.node := by simp [hg]
  obtain _ | c := c
  case none => trivial
  case some => cases c <;> simp_all [PopPc.Fine]

theorem PopPc.Fine.mono {idle idle' : Prop} {c : Option PopPc} (h : PopPc.Fine m idle c)
    (hi : idle → idle') (hm : m' .item = m .item) (hh : m' .opalLifoHead = m .opalLifoHead) :
    PopPc.Fine m' idle' c := by
  obtain _ | c := c
  case none => trivial
  case some => cases c <;> simp only [PopPc.Fine, hm, hh] at h ⊢ <;> tauto

theorem PushPc.Fine.congr {c : Option PushPc} (h : PushPc.Fine m c)
    (hh : m' .opalLifoHead = m .opalLifoHead)
    (hn : m' (.opalListNext .node) = m (.opalListNext .node))
    (hf : m' (.itemFree .node) = m (.itemFree .node)) : PushPc.Fine m' c := by
  obtain _ | c := c
  case none => simpa [Fine, hh, hf] using h
  case some => cases c <;> simpa [Fine, hh, hn, hf] using h

theorem PushPc.Fine.of_idle {c : Option PushPc} (hi : Idle c)
    (h : m .opalLifoHead = Ptr.node → m (.itemFree .node) = (0 : Int)) : PushPc.Fine m c := by
  obtain _ | c := c
  case none => exact h
  case some => cases c <;> first | exact h | exact hi.elim

-- A node on the list that is free to be popped is not being pushed.
theorem PushPc.Fine.idle {c : Option PushPc} (h : PushPc.Fine m c) (hn : m .opalLifoHead = Ptr.node)
    (hf : ¬m (.itemFree .node) = (1 : Int)) : Idle c := by
  obtain _ | c := c
  case none => trivial
  case some => cases c <;> simp_all [Fine, Idle]

theorem Fine.write (h : Fine pushOperations m w r)
    (hc : w.current = some .loadItem → m .opalLifoHead = Ptr.ghost)
    (e : (pushThreadFunc pushOperations w).interleave m = some (m', w')) :
    Fine pushOperations m' w' r := by
  obtain ⟨hw, hp, hi, hs, hh⟩ := h
  obtain ⟨_ | pc, i, ps⟩ := w
  case none =>
    simp only [pushThreadFunc] at e
    split at e <;> cases e
    exact ⟨hw, hp, fun _ => hi ‹_›, hs, hh⟩
  case some =>
    cases pc
    case loadItem =>
      cases e
      exact ⟨⟨hi trivial, hc rfl⟩, hp.of_ghost (hc rfl), fun _ => hi trivial, hs, hh⟩
    case storeFree =>
      obtain ⟨rfl, hg⟩ := hw
      cases e
      exact ⟨⟨by simpa, by simp⟩, hp.of_ghost hg, fun _ => by simpa using hi trivial, hs, by simpa using hh⟩
    case loadHead =>
      obtain ⟨hg, hf⟩ := hw
      cases e
      exact ⟨⟨hg, hg, hf⟩, hp.of_ghost hg, fun _ => hi trivial, hs, hh⟩
    case loadItemNext =>
      obtain ⟨hn, hg, hf⟩ := hw
      cases e
      exact ⟨⟨hi trivial, hn, hg, hf⟩, hp.of_ghost hg, fun _ => hi trivial, hs, hh⟩
    case storeNext =>
      obtain ⟨rfl, rfl, hg, hf⟩ := hw
      cases e
      refine ⟨⟨by simp, rfl, by simpa, by simpa⟩, hp.of_ghost hg, fun _ => by simpa using hi trivial, hs, ?_⟩
      simpa [hg] using hh
    case loadItemExchange =>
      obtain ⟨hx, hn, hg, hf⟩ := hw
      cases e
      exact ⟨⟨hi trivial, hx, hn, hg, hf⟩, hp.of_ghost hg, fun _ => hi trivial, hs, hh⟩
    case compareExchange =>
      obtain ⟨rfl, hx, rfl, hg, hf⟩ := hw
      have hl : ps.length = r.popped := by simpa [hg] using hh
      cases e
      simp only [hg, if_true]
      exact ⟨⟨by simp, by simpa⟩, hp.of_ghost hg, fun _ => by simpa using hi trivial, by simpa using hs,
        .inr ⟨by simp, by simpa, by simp [hl]⟩⟩
    case loadItemFree =>
      obtain ⟨hn, hf⟩ := hw
      cases e
      exact ⟨⟨hi trivial, hn, hf⟩, hp.mono id rfl rfl, fun _ => hi trivial, hs, hh⟩
    case clearFree =>
      obtain ⟨rfl, hn, hf⟩ := hw
      cases e
      refine ⟨fun _ => by simp, hp.mono (fun _ => trivial) (by simp) (by simp), fun ht => ?_, hs, ?_⟩
      · simpa using hi ht
      · simpa using hh

theorem Fine.read (h : Fine pushOperations m w r)
    (hc : r.current = some (.storeItem .ghost) → ¬ReadsItem pushOperations w)
    (e : (popThreadFunc popOperations spurious r).interleave m = some (m', r')) :
    Fine pushOperations m' w r' := by
  obtain ⟨hw, hp, hi, hs, hh⟩ := h
  obtain ⟨_ | pc, i, n, k⟩ := r
  case none =>
    simp only [popThreadFunc] at e
    split at e <;> cases e
    exact ⟨hw, trivial, hi, hs, hh⟩
  case some =>
    cases pc
    case loadHead =>
      cases e
      refine ⟨hw, ?_, hi, hs, hh⟩
      obtain ⟨hg, -⟩ | ⟨hn, -⟩ := hh
      · exact .inl hg
      · exact .inr ⟨hn, hn⟩
    case storeItem p =>
      have hw' : PushPc.Fine (update m .item p) w.current := hw.congr (by simp) (by simp) (by simp)
      obtain rfl | ⟨rfl, hn⟩ := hp
      · cases e
        exact ⟨hw', trivial, fun ht => absurd ht (hc rfl), hs, by simpa using hh⟩
      · cases e
        exact ⟨hw', ⟨by simp, by simpa⟩, fun _ => by simp, hs, by simpa using hh⟩
    case loadItemFree =>
      cases e
      exact ⟨hw, ⟨hp.1, hp⟩, hi, hs, hh⟩
    case loadFree =>
      obtain ⟨rfl, hm, hn⟩ := hp
      cases e
      dsimp only
      split
      case isTrue => exact ⟨hw, trivial, hi, hs, hh⟩
      case isFalse hf => exact ⟨hw, ⟨hw.idle hn hf, hm, hn⟩, hi, hs, hh⟩
    case loadItemNext =>
      cases e
      exact ⟨hw, ⟨hp.2.1, hp⟩, hi, hs, hh⟩
    case loadNext =>
      obtain ⟨rfl, hd, hm, hn⟩ := hp
      cases e
      have hl : m (.opalListNext .node) = Ptr.ghost ∧ w.pushed.length = n + 1 := by simpa [hn] using hh
      exact ⟨hw, ⟨hl.1, hd, hm, hn⟩, hi, hs, hh⟩
    case loadExpected =>
      cases e
      exact ⟨hw, ⟨hp.2.2.1, hp⟩, hi, hs, hh⟩
    case compareExchange =>
      obtain ⟨rfl, rfl, hd, hm, hn⟩ := hp
      have hl : m (.opalListNext .node) = Ptr.ghost ∧ w.pushed.length = n + 1 := by simpa [hn] using hh
      cases e
      cases spurious k <;> simp only [hn]
      case false =>
        exact ⟨.of_idle hd (by simp), trivial, by simpa using hi, hs, .inl ⟨by simp, by simpa using hl.2⟩⟩
      case true =>
        have hu : update m .opalLifoHead Ptr.node = m := hn ▸ update_eq_self ..
        have hx : Fine pushOperations m w ⟨some (.storeExpected .node), i, n, k + 1⟩ :=
          ⟨hw, ⟨rfl, hd, hm, hn⟩, hi, hs, hh⟩
        simpa [hu] using hx
    case storeExpected =>
      obtain ⟨rfl, hd, hm, hn⟩ := hp
      cases e
      exact ⟨hw.congr (by simp) (by simp) (by simp), ⟨hd, by simp, by simpa⟩, fun _ => by simp, hs,
        by simpa using hh⟩
    case loadItemClear =>
      cases e
      exact ⟨hw, ⟨hp.2.1, hp⟩, hi, hs, hh⟩
    case clearFree =>
      obtain ⟨rfl, hd, hm, hn⟩ := hp
      cases e
      exact ⟨.of_idle hd fun _ => by simp, trivial, fun _ => by simpa, hs, by simpa using hh⟩

end OpenMpi

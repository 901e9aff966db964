import OrderingBugs.Memory.Linked
import OrderingBugs.Memory.Sequential
import Mathlib.Data.List.TakeWhile

open Function

-- The search in the list of the lock-free hash of MariaDB (`11-MariaDBEasy.c`), when it is executed alone.
namespace MariaDb.Slist

abbrev Addr :=
  BitVec 64

-- `PTR`
def ptr (v : BitVec 64) : Addr :=
  v &&& ~~~1

-- `LF_SLIST`
structure LfSlist where
  link   : BitVec 64
  hashnr : BitVec 32
  key    : Addr
  keylen : BitVec 64
  deriving DecidableEq

-- What `prev` of a cursor can point to.
inductive Slot
  | head
  | link (node : Addr)
  | wild (address : Addr)
  deriving DecidableEq

structure Cursor where
  prev : Slot
  curr : Addr
  next : Addr
  deriving DecidableEq

-- A node is a single location. Where there is none, nothing can be read.
inductive Loc
  | head
  | node (address : Addr)
  | pin (i : Fin 4)
  | purgatory
  | purgatoryCount
  deriving DecidableEq

abbrev Val : Loc → Type
  | .head | .pin _ | .purgatory => Addr
  | .node _ => Option LfSlist
  | .purgatoryCount => BitVec 32

variable {L : Type}

-- Following a pointer to anything but a node ends the execution.
def deref (a : Addr) (k : LfSlist → L) (fault : L) : Op Loc Val L :=
  .load .plain (.node a) fun n => n.elim fault k

inductive FindPc
  | check
  | loadHashnr
  | loadKeylen
  | loadKey
  | loadLink
  | storeNextPin (link : BitVec 64)
  | reloadLink (link : BitVec 64)
  | storeCurrPin
  | fault
  deriving DecidableEq

-- `l_find`. It has no use for the head and the key that it is given, nor for what it reads but the link.
def lFind (k : Cursor → FindPc → L) (ret : Cursor → Int → L) (c : Cursor) : FindPc → Op Loc Val L
  | .check => .skip (if c.curr = 0 then ret c 0 else k c .loadHashnr)
  | .loadHashnr => deref c.curr (fun _ => k c .loadKeylen) (k c .fault)
  | .loadKeylen => deref c.curr (fun _ => k c .loadKey) (k c .fault)
  | .loadKey => deref c.curr (fun _ => k c .loadLink) (k c .fault)
  | .loadLink =>
    deref c.curr (fun n => k { c with next := ptr n.link } (.storeNextPin n.link)) (k c .fault)
  | .storeNextPin link => .store .seqCst (.pin 0) c.next (k c (.reloadLink link))
  | .reloadLink link =>
    deref c.curr (fun n => if link ≠ n.link then k c .loadLink else k { c with curr := c.next } .storeCurrPin)
      (k c .fault)
  | .storeCurrPin => .store .seqCst (.pin 1) c.curr (k c .check)
  | .fault => .halt

-- The function on its own. A place is what the cursor contains and where the function is.
def find : Sequential.Code Loc Val (Cursor × FindPc) (Cursor × Int) := fun p =>
  lFind (fun c pc => .inl (c, pc)) (fun c found => .inr (c, found)) p.1 p.2

-- The node that an iteration of the loop is about.
def visit : Cursor × FindPc → Option Addr
  | (c, .loadHashnr) => some c.curr
  | _ => none

-- The node that is read at a place.
def read (p : Cursor × FindPc) : Option Addr :=
  match find p with
  | .load _ (.node a) _ => some a
  | _ => none

-- The nodes from an address on, through links that may be marked.
abbrev Chain (m : Mem Val) : Addr → List Addr → Prop :=
  Linked (fun a p => a ≠ 0 ∧ ∃ n, m (.node a) = some n ∧ ptr n.link = p) id 0

-- Only pins have been stored to.
def Same (m m' : Mem Val) : Prop :=
  ∀ x, (∀ i, x ≠ .pin i) → m' x = m x

-- What is meant by going through the nodes. Each of them is read five times, in one iteration.
structure Traverses (as : List Addr) (m : Mem Val) (c : Cursor) (ps : List (Cursor × FindPc)) (m' : Mem Val)
    (r : Cursor × Int) : Prop where
  visited : ps.filterMap visit = as
  read    : ps.filterMap read = as.flatMap (List.replicate 5)
  once    : as.Nodup
  same    : Same m m'
  null    : c.curr = 0 → m' = m
  pins    : c.curr ≠ 0 → m' (.pin 0) = (0 : Addr) ∧ m' (.pin 1) = (0 : Addr)
  others  : m' (.pin 2) = m (.pin 2) ∧ m' (.pin 3) = m (.pin 3)
  curr    : r.1.curr = 0
  returns : r.2 = 0

variable {m m' m₁ : Mem Val} {c : Cursor} {a : Addr} {as : List Addr}

theorem Same.refl : Same m m :=
  fun _ _ => rfl

theorem Same.trans {m₂ : Mem Val} (h₁ : Same m m₁) (h₂ : Same m₁ m₂) : Same m m₂ :=
  fun x hx => (h₂ x hx).trans (h₁ x hx)

theorem same_update {i : Fin 4} {v : Addr} : Same m (update m (.pin i) v) :=
  fun _ hx => update_of_ne (hx i) _ _

theorem Same.chain (h : Same m m') (hc : Chain m a as) : Chain m' a as :=
  hc.congr fun _ _ _ ⟨h₀, n, hn, hl⟩ => ⟨h₀, n, (h _ (by simp)).trans hn, hl⟩

theorem Same.chain_iff (h : Same m m') : Chain m' a as ↔ Chain m a as where
  mp := Same.chain fun x hx => (h x hx).symm
  mpr := h.chain

theorem functional :
    Linked.Functional (fun a p => a ≠ 0 ∧ ∃ n, m (.node a) = some n ∧ ptr n.link = p) id 0 where
  next_unique := by
    rintro a p q ⟨-, n, hn, rfl⟩ ⟨-, n', hn', rfl⟩
    cases hn.symm.trans hn'
    rfl
  addr_injective := injective_id
  addr_ne_last _ _ h := h.1

-- The places that an iteration passes if the link does not change between its two reads.
def iteration (c : Cursor) (link : BitVec 64) : List (Cursor × FindPc) :=
  let c₁ : Cursor := { c with next := ptr link }
  [(c, .check), (c, .loadHashnr), (c, .loadKeylen), (c, .loadKey), (c, .loadLink), (c₁, .storeNextPin link),
    (c₁, .reloadLink link), ({ c₁ with curr := ptr link }, .storeCurrPin)]

def pinned (m : Mem Val) (a : Addr) : Mem Val :=
  update (update m (.pin 0) a) (.pin 1) a

theorem same_pinned : Same m (pinned m a) :=
  same_update.trans same_update

theorem trace_iteration {n : LfSlist} {ps : List (Cursor × FindPc)} {r : Cursor × Int} (h₀ : c.curr ≠ 0)
    (hn : m (.node c.curr) = some n) (e : Sequential.Trace find (pinned m (ptr n.link))
      (⟨c.prev, ptr n.link, ptr n.link⟩, .check) ps m' r) :
    Sequential.Trace find m (c, .check) (iteration c n.link ++ ps) m' r := by
  replace h₀ : c.curr ≠ 0#64 := h₀
  let c₁ : Cursor := { c with next := ptr n.link }
  let c₂ : Cursor := { c₁ with curr := ptr n.link }
  let m₁ := update m (.pin 0) (ptr n.link)
  refine .step (n := m) (q := (c, .loadHashnr)) ?_ <| .step (n := m) (q := (c, .loadKeylen)) ?_ <|
    .step (n := m) (q := (c, .loadKey)) ?_ <| .step (n := m) (q := (c, .loadLink)) ?_ <|
    .step (n := m) (q := (c₁, .storeNextPin n.link)) ?_ <|
    .step (n := m₁) (q := (c₁, .reloadLink n.link)) ?_ <|
    .step (n := m₁) (q := (c₂, .storeCurrPin)) ?_ <| .step (n := pinned m (ptr n.link)) ?_ e
  all_goals simp [find, lFind, deref, Op.interleave, h₀, hn, c₁, c₂, m₁, pinned]

-- Where the nodes end, so does the search, which has gone through them.
theorem exists_trace (hc : Chain m c.curr as) : ∃ ps m' r,
    Sequential.Trace find m (c, .check) ps m' r ∧ Traverses as m c ps m' r := by
  have hd := hc.nodup functional
  induction as generalizing m c
  case nil =>
    have h₀ : c.curr = 0 := Linked.nil_iff.mp hc
    refine ⟨_, m, (c, 0), .ret (by simp [find, lFind, Op.interleave, h₀]), ?_⟩
    exact ⟨rfl, rfl, hd, .refl, fun _ => rfl, fun h => absurd h₀ h, ⟨rfl, rfl⟩, h₀, rfl⟩
  case cons a as hi =>
    obtain ⟨rfl, _, ⟨h₀, n, hn, rfl⟩, hc⟩ := Linked.cons_iff.mp hc
    replace h₀ : c.curr ≠ 0 := h₀
    obtain ⟨ps, m', r, e, h⟩ := hi (c := ⟨c.prev, ptr n.link, ptr n.link⟩) (same_pinned.chain hc) hd.of_cons
    refine ⟨_, m', r, trace_iteration h₀ hn e, ?_⟩
    constructor
    case visited => rw [List.filterMap_append, h.visited]; rfl
    case read => rw [List.filterMap_append, h.read]; rfl
    case once => exact hd
    case same => exact same_pinned.trans h.same
    case null => exact fun hz => absurd hz h₀
    case pins =>
      -- The last node is followed by no node, which is pinned then.
      intro _
      by_cases hz : ptr n.link = 0
      case pos => simp [h.null hz, pinned, hz]
      case neg => exact h.pins hz
    case others => simpa [pinned] using h.others
    case curr => exact h.curr
    case returns => exact h.returns

-- From any node of a list on, whatever nodes of it are marked, the search goes through what is left of it.
theorem lFind_traverses (m : Mem Val) (p : Addr) (as : List Addr) (hc : Chain m p as) (c : Cursor)
    (h : c.curr = 0 ∨ c.curr ∈ as) :
    (∃ ps m' r, Sequential.Trace find m (c, .check) ps m' r) ∧
      ∀ ps m' r, Sequential.Trace find m (c, .check) ps m' r →
        Traverses (as.dropWhile (· ≠ c.curr)) m c ps m' r := by
  have hc : Chain m c.curr (as.dropWhile (· ≠ c.curr)) := by
    obtain h | h := h
    case inl =>
      have hn : as.dropWhile (· ≠ c.curr) = [] := by
        refine List.dropWhile_eq_nil_iff.mpr fun a ha => decide_eq_true ?_
        exact h ▸ hc.ne_last functional ha
      exact hn ▸ Linked.nil_iff.mpr h
    case inr => exact hc.dropWhile h
  obtain ⟨ps, m', r, e, ht⟩ := exists_trace hc
  refine ⟨⟨ps, m', r, e⟩, fun ps' m'' r' e' => ?_⟩
  obtain ⟨rfl, rfl, rfl⟩ := e.unique e'
  exact ht

-- Three nodes, the last two of which are marked.
def marked : Mem Val
  | .node a =>
    if a = 0x10 then some ⟨0x20, 1, 0x40, 2⟩
    else if a = 0x20 then some ⟨0x31, 1, 0x42, 2⟩
    else if a = 0x30 then some ⟨0x1, 2, 0x44, 2⟩
    else none
  | .head => (0x10 : Addr)
  | .pin _ | .purgatory => (0 : Addr)
  | .purgatoryCount => (0 : BitVec 32)

theorem lFind_traverses_marked : ∃ ps m' r,
    Sequential.Trace find marked (⟨.head, 0x20, 0⟩, .check) ps m' r ∧
      Traverses [0x20, 0x30] marked ⟨.head, 0x20, 0⟩ ps m' r := by
  have hc : Chain marked 0x10 [0x10, 0x20, 0x30] :=
    .cons ⟨by decide, _, rfl, by decide⟩ <| .cons ⟨by decide, _, rfl, by decide⟩ <|
      .cons ⟨by decide, _, rfl, by decide⟩ .nil
  have ⟨⟨ps, m', r, e⟩, h⟩ := lFind_traverses marked 0x10 _ hc ⟨.head, 0x20, 0⟩ (.inr (by decide))
  exact ⟨ps, m', r, e, h ps m' r e⟩

end MariaDb.Slist

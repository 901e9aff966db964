import OrderingBugs.MariaDb.Slist

open Function

-- Deleting a key from the list of the lock-free hash of MariaDB (`11-MariaDBEasy.c`), when it is executed
-- alone.
namespace MariaDb.Slist

variable {L : Type}

-- `my_atomic_casptr` on the link of a node
def LfSlist.cas (expected newValue : Addr) (n : LfSlist) : LfSlist :=
  if n.link = expected then { n with link := newValue } else n

def casptr (a expected newValue : Addr) (success failure : L) (fault : L) : Op Loc Val L :=
  .rmw .seqCst (.node a) (Option.map (·.cas expected newValue)) fun n =>
    n.elim fault fun n => if n.link = expected then success else failure

-- How the pointer at `free_ptr_offset` of a node is stored and read.
structure FreePtr where
  store : Addr → LfSlist → LfSlist
  load  : LfSlist → Addr

inductive PurgatoryPc
  | loadPurgatory
  | storeFreePtr (purgatory : Addr)
  | storePurgatory
  | loadCount
  | storeCount (count : BitVec 32)
  | fault
  deriving DecidableEq

-- `add_to_purgatory`
def addToPurgatory (F : FreePtr) (k : PurgatoryPc → L) (ret : L) (addr : Addr) : PurgatoryPc → Op Loc Val L
  | .loadPurgatory => .load .plain .purgatory fun p => k (.storeFreePtr p)
  | .storeFreePtr p =>
    .rmw .plain (.node addr) (Option.map (F.store p)) fun n => n.elim (k .fault) fun _ => k .storePurgatory
  | .storePurgatory => .store .plain .purgatory addr (k .loadCount)
  | .loadCount => .load .plain .purgatoryCount fun v => k (.storeCount (v + 1))
  | .storeCount v => .store .plain .purgatoryCount v ret
  | .fault => .halt

inductive FreePc
  | loadPurgatory
  | check (current : Addr)
  | loadNext (current : Addr)
  | free (current next : Addr)
  | storePurgatory
  | storeCount
  | fault
  deriving DecidableEq

-- `lf_pinbox_real_free`
def lfPinboxRealFree (F : FreePtr) (k : FreePc → L) (ret : L) : FreePc → Op Loc Val L
  | .loadPurgatory => .load .plain .purgatory fun p => k (.check p)
  | .check current => .skip (if current ≠ 0 then k (.loadNext current) else k .storePurgatory)
  | .loadNext current => deref current (fun n => k (.free current (F.load n))) (k .fault)
  | .free current next => .store .plain (.node current) none (k (.check next))
  | .storePurgatory => .store .plain .purgatory 0 (k .storeCount)
  | .storeCount => .store .plain .purgatoryCount 0 ret
  | .fault => .halt

def lfPurgatorySize : BitVec 32 := 100

inductive DeletePc
  | find (c : Cursor) (pc : FindPc)
  | mark (c : Cursor)
  | unlink (c : Cursor)
  | add (c : Cursor) (pc : PurgatoryPc)
  | loadCount
  | free (pc : FreePc)
  | fault
  deriving DecidableEq

-- `l_delete`
def lDelete (F : FreePtr) : Sequential.Code Loc Val DeletePc Int
  | .find c pc =>
    lFind (fun c pc => .inl (.find c pc)) (fun c found => if found = 0 then .inr 1 else .inl (.mark c)) c pc
  | .mark c =>
    casptr c.curr c.next (c.next ||| 1) (.inl (.unlink c)) (.inl (.find c .check)) (.inl .fault)
  | .unlink c =>
    match c.prev with
    | .head =>
      .rmw .seqCst .head (fun v => if v = c.curr then c.next else v) fun v =>
        if v = c.curr then .inl (.add c .loadPurgatory) else .inr 0
    | .link a => casptr a c.curr c.next (.inl (.add c .loadPurgatory)) (.inr 0) (.inl .fault)
    | .wild _ => .halt
  | .add c pc => addToPurgatory F (fun pc => .inl (.add c pc)) (.inl .loadCount) c.curr pc
  | .loadCount => .load .plain .purgatoryCount fun v =>
    if v % lfPurgatorySize = 0 then .inl (.free .loadPurgatory) else .inr 0
  | .free pc => lfPinboxRealFree F (fun pc => .inl (.free pc)) (.inr 0) pc
  | .fault => .halt

-- The nodes of the list, at even addresses and not marked.
structure Listed (m : Mem Val) (as : List Addr) : Prop where
  chain : Linked (fun a p => a ≠ 0 ∧ ∃ n, m (.node a) = some n ∧ n.link = p) id 0 (m .head) as
  even  : ∀ a ∈ as, ptr a = a

-- The node has the given key.
def Matches (byte : Addr → BitVec 8) (m : Mem Val) (key : Addr) (keylen : BitVec 32) (a : Addr) : Prop :=
  ∃ n, m (.node a) = some n ∧ n.keylen = keylen.setWidth 64 ∧
    ∀ i < keylen.toNat, byte (n.key + BitVec.ofNat 64 i) = byte (key + BitVec.ofNat 64 i)

-- The node is the first one in the purgatory, in front of those that have been there, unless the purgatory
-- has been full.
def Purged (F : FreePtr) (m m' : Mem Val) (a : Addr) : Prop :=
  if (m .purgatoryCount + 1) % lfPurgatorySize = 0 then
    m' .purgatory = (0 : Addr) ∧ m' .purgatoryCount = (0 : BitVec 32) ∧ m' (.node a) = none
  else
    m' .purgatory = a ∧ m' .purgatoryCount = m .purgatoryCount + 1 ∧
      (m' (.node a)).map F.load = some (m .purgatory)

-- What is meant by deleting a key from the list.
structure Deletes (F : FreePtr) (byte : Addr → BitVec 8) (key : Addr) (keylen : BitVec 32) (as : List Addr)
    (m m' : Mem Val) (res : Int) : Prop where
  found    : res = 0 ↔ ∃ a ∈ as, Matches byte m key keylen a
  removed  : res = 0 → ∃ a ∈ as, Matches byte m key keylen a ∧ Listed m' (as.erase a) ∧ Purged F m m' a
  notFound : res = 1 ↔ ∀ a ∈ as, ¬Matches byte m key keylen a
  kept     : res = 1 → Listed m' as ∧ ∀ a ∈ as, m' (.node a) = m (.node a)

variable {F : FreePtr} {m m' : Mem Val} {c : Cursor} {a : Addr} {as : List Addr} {res : Int}

-- The search is a call of `l_find`, after which nothing is done if it reports nothing.
theorem interleave_find (p : Cursor × FindPc) (m : Mem Val) :
    (lDelete F (.find p.1 p.2)).interleave m = ((find p).interleave m).map
      (Prod.map id (Sum.elim (fun q => .inl (.find q.1 q.2))
        fun r => if r.2 = 0 then .inr 1 else .inl (.mark r.1))) := by
  obtain ⟨c, pc⟩ := p
  cases pc
  case check =>
    simp only [lDelete, find, lFind, Op.interleave]
    by_cases h₀ : c.curr = 0#64 <;> simp [h₀]
  case loadHashnr | loadKeylen | loadKey | loadLink =>
    simp only [lDelete, find, lFind, deref, Op.interleave]
    cases m (.node c.curr) <;> rfl
  case reloadLink link =>
    simp only [lDelete, find, lFind, deref, Op.interleave]
    cases m (.node c.curr)
    case none => rfl
    case some n => by_cases hl : link = n.link <;> simp [hl]
  all_goals rfl

-- Where the nodes end, so does the search.
theorem exists_eval (hc : Chain m c.curr as) :
    ∃ m', Sequential.Eval (lDelete F) m (.find c .check) m' 1 ∧ Same m m' := by
  obtain ⟨_, m', r, e, h⟩ := exists_trace hc
  exact ⟨m', e.eval.of_call (k := fun p => DeletePc.find p.1 p.2) interleave_find (if_pos h.returns), h.same⟩

-- What the search will have found out about the chain.
def Chained (m : Mem Val) (c : Cursor) : FindPc → Prop
  | .check | .storeCurrPin => ∃ as, Chain m c.curr as
  | .loadHashnr | .loadKeylen | .loadKey | .loadLink => c.curr ≠ 0 → ∃ as, Chain m c.curr as
  | .storeNextPin link | .reloadLink link => c.curr ≠ 0 → c.next = ptr link → ∃ as, Chain m c.curr as
  | .fault => False

theorem Same.chained (h : Same m m') {pc : FindPc} (hc : Chained m' c pc) : Chained m c pc := by
  cases pc
  case fault => exact hc
  all_goals simpa only [Chained, h.chain_iff] using hc

theorem exists_deref {k : LfSlist → L} {fault l : L} (e : (deref a k fault).interleave m = some (m', l)) :
    m' = m ∧ ((m (.node a) = none ∧ l = fault) ∨ ∃ n, m (.node a) = some n ∧ l = k n) := by
  cases e
  refine ⟨rfl, ?_⟩
  cases h : m (.node a)
  case none => exact .inl ⟨rfl, rfl⟩
  case some n => exact .inr ⟨n, rfl, rfl⟩

-- A step of the search goes on with it, or returns at the end of the chain.
theorem lFind_cases {pc : FindPc} {l : DeletePc ⊕ Int}
    (e : (lDelete F (.find c pc)).interleave m = some (m', l)) :
    Same m m' ∧ ((l = .inr 1 ∧ Chained m c pc) ∨
      ∃ c' pc', l = .inl (.find c' pc') ∧ (Chained m c' pc' → Chained m c pc)) := by
  cases pc
  case check =>
    cases e
    refine ⟨.refl, ?_⟩
    by_cases h₀ : c.curr = 0#64
    case pos => exact .inl ⟨by simp [h₀], [], Linked.nil_iff.mpr h₀⟩
    case neg => exact .inr ⟨c, .loadHashnr, by simp [h₀], fun h => h h₀⟩
  case loadHashnr | loadKeylen | loadKey =>
    obtain ⟨rfl, ⟨-, rfl⟩ | ⟨n, hn, rfl⟩⟩ := exists_deref e
    case inl => exact ⟨.refl, .inr ⟨c, .fault, rfl, False.elim⟩⟩
    case inr => exact ⟨.refl, .inr ⟨c, _, rfl, id⟩⟩
  case loadLink =>
    obtain ⟨rfl, ⟨-, rfl⟩ | ⟨n, hn, rfl⟩⟩ := exists_deref e
    case inl => exact ⟨.refl, .inr ⟨c, .fault, rfl, False.elim⟩⟩
    case inr => exact ⟨.refl, .inr ⟨_, _, rfl, fun h h₀ => h h₀ rfl⟩⟩
  case storeNextPin => cases e; exact ⟨same_update, .inr ⟨c, _, rfl, id⟩⟩
  case reloadLink link =>
    obtain ⟨rfl, ⟨-, rfl⟩ | ⟨n, hn, rfl⟩⟩ := exists_deref e
    case inl => exact ⟨.refl, .inr ⟨c, .fault, rfl, False.elim⟩⟩
    case inr =>
      refine ⟨.refl, .inr ?_⟩
      by_cases hl : link = n.link
      case neg => exact ⟨c, .loadLink, by simp [hl], fun h h₀ _ => h h₀⟩
      case pos =>
        refine ⟨{ c with curr := c.next }, .storeCurrPin, by simp [hl], fun ⟨as, h⟩ h₀ hp => ?_⟩
        refine ⟨c.curr :: as, ?_⟩
        exact Linked.cons_iff.mpr ⟨rfl, c.next, ⟨h₀, n, hn, hl ▸ hp.symm⟩, h⟩
  case storeCurrPin => cases e; exact ⟨same_update, .inr ⟨c, _, rfl, id⟩⟩
  case fault => cases e

theorem of_eval {pc : FindPc} (e : Sequential.Eval (lDelete F) m (.find c pc) m' res) :
    Chained m c pc ∧ res = 1 ∧ Same m m' := by
  generalize hp : DeletePc.find c pc = p at e
  induction e generalizing c pc
  case ret e =>
    subst hp
    obtain ⟨hs, ⟨hr, hc⟩ | ⟨_, _, hr, -⟩⟩ := lFind_cases e
    case inl => exact ⟨hc, Sum.inr.inj hr, hs⟩
    case inr => cases hr
  case step e _ hi =>
    subst hp
    obtain ⟨hs, ⟨hr, -⟩ | ⟨c', pc', hr, hc⟩⟩ := lFind_cases e
    case inl => cases hr
    case inr =>
      obtain ⟨hc', hr', hs'⟩ := hi (Sum.inl.inj hr).symm
      exact ⟨hc (hs.chained hc'), hr', hs.trans hs'⟩

theorem Same.listed (h : Same m m') (hl : Listed m as) : Listed m' as where
  chain := (h .head (by simp)).symm ▸
    hl.chain.congr fun _ _ _ ⟨h₀, n, hn, hp⟩ => ⟨h₀, n, (h _ (by simp)).trans hn, hp⟩
  even := hl.even

-- A search that returns reports that it has not found the key, whether or not it is there.
theorem deletes_iff (F : FreePtr) (byte : Addr → BitVec 8) (m : Mem Val) (as : List Addr) (hl : Listed m as)
    (key : Addr) (keylen : BitVec 32) (c : Cursor) :
    (∃ m' res, Sequential.Eval (lDelete F) m (.find c .check) m' res ∧
      Deletes F byte key keylen as m m' res) ↔
    (∀ a ∈ as, ¬Matches byte m key keylen a) ∧ ∃ bs, Chain m c.curr bs where
  mp := by
    rintro ⟨m', res, e, h⟩
    obtain ⟨hc, rfl, -⟩ := of_eval e
    exact ⟨h.notFound.mp rfl, hc⟩
  mpr := by
    rintro ⟨ha, bs, hc⟩
    obtain ⟨m', e, hs⟩ := exists_eval (F := F) hc
    refine ⟨m', 1, e, ?_⟩
    constructor
    case found => simpa using ha
    case removed => nofun
    case notFound => simpa using ha
    case kept => exact fun _ => ⟨hs.listed hl, fun a _ => hs (.node a) (by simp)⟩

-- The pointer at `free_ptr_offset` is the key.
def freeKey : FreePtr where
  store a n := { n with key := a }
  load := LfSlist.key

-- A list of one node. The cursor has been left at its end.
def single : Mem Val
  | .node a => if a = 0x10 then some ⟨0, 0, 0x20, 1⟩ else none
  | .head => (0x10 : Addr)
  | .pin _ | .purgatory => (0 : Addr)
  | .purgatoryCount => (0 : BitVec 32)

theorem listed_single : Listed single [0x10] where
  chain := .cons ⟨by decide, _, rfl, rfl⟩ .nil
  even := by simp [ptr]

-- The node has a shorter key.
theorem deletes_iff_absent : ∃ m' res,
    Sequential.Eval (lDelete freeKey) single (.find ⟨.head, 0x10, 0⟩ .check) m' res ∧
      Deletes freeKey (fun _ => 0) 0x30 2 [0x10] single m' res := by
  refine (deletes_iff _ _ _ _ listed_single _ _ _).mpr ⟨?_, [0x10], .cons ⟨by decide, _, rfl, by decide⟩ .nil⟩
  rintro a ha ⟨n, hn, hk, -⟩
  obtain rfl : a = 0x10 := by simpa using ha
  cases hn
  simp at hk

-- The key is that of the node, which is not deleted.
theorem not_deletes : Listed single [0x10] ∧ Matches (fun _ => 0) single 0x20 1 0x10 ∧ ¬∃ m' res,
    Sequential.Eval (lDelete freeKey) single (.find ⟨.head, 0, 0⟩ .check) m' res ∧
      Deletes freeKey (fun _ => 0) 0x20 1 [0x10] single m' res := by
  have hm : Matches (fun _ => 0) single 0x20 1 0x10 := ⟨_, rfl, rfl, fun _ _ => rfl⟩
  refine ⟨listed_single, hm, ?_⟩
  rintro ⟨_, _, e, h⟩
  obtain ⟨-, rfl, -⟩ := of_eval e
  exact h.notFound.mp rfl _ (by simp) hm

end MariaDb.Slist

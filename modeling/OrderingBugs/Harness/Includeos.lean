import OrderingBugs.Harness.Pair
import OrderingBugs.Memory.Fifo
import Mathlib.Data.List.Range

open Function Buffering

-- The ring of receive descriptors of IncludeOS (`16-includeos.c`), for any size of the ring and any number of
-- packets. What is printed is left out.
namespace Harness.Includeos

inductive Loc
  | address (i : Nat)
  | length (i : Nat)
  | productCount
  | consumedCount
  deriving DecidableEq

abbrev Val : Loc → Type
  | .address _ | .length _ => Int
  | .productCount | .consumedCount => Nat

def maxPacketLen : Int := 1500

inductive HandlerPc
  | check
  | loadIdx
  | storeAddress (idx : Nat)
  | storeLength (idx : Nat)
  | loadCount
  | storeCount (count : Nat)
  | done
  deriving DecidableEq

-- `receive_handler`
def receiveHandler (ring fill : Nat) : HandlerPc → Op Loc Val HandlerPc
  | .check => .load .plain .productCount fun count => if count < fill then .loadIdx else .done
  | .loadIdx => .load .plain .productCount .storeAddress
  | .storeAddress idx => .store .plain (.address (idx % ring)) 1111 (.storeLength idx)
  | .storeLength idx => .store .plain (.length (idx % ring)) maxPacketLen .loadCount
  | .loadCount => .load .plain .productCount fun count => .storeCount (count + 1)
  | .storeCount count => .store .plain .productCount count .check
  | .done => .halt

inductive RefillPc
  | loadConsumed
  | loadProduct (consumed : Nat)
  | body
  | storeAddress (consumed : Nat)
  | loadIdx
  | storeLength (consumed : Nat)
  | loadCount
  | storeCount (count : Nat)
  | done
  deriving DecidableEq

-- `refill`
def refill (ring : Nat) : RefillPc → Op Loc Val RefillPc
  | .loadConsumed => .load .plain .consumedCount .loadProduct
  | .loadProduct consumed => .load .plain .productCount fun product =>
    if consumed < product then .body else .done
  | .body => .load .plain .consumedCount .storeAddress
  | .storeAddress consumed => .store .plain (.address (consumed % ring)) 1111 .loadIdx
  | .loadIdx => .load .plain .consumedCount .storeLength
  | .storeLength consumed => .store .plain (.length (consumed % ring)) maxPacketLen .loadCount
  | .loadCount => .load .plain .consumedCount fun count => .storeCount (count + 1)
  | .storeCount count => .store .plain .consumedCount count .loadConsumed
  | .done => .halt

def start : Mem Val
  | .address _ | .length _ => (0 : Int)
  | .productCount | .consumedCount => (0 : Nat)

abbrev harness (B : Buffering Loc Val) (D : Discipline) (ring fill : Nat) :
    System (Buffered.State B HandlerPc RefillPc) (Buffered.Label Loc HandlerPc RefillPc) :=
  Buffered.system B D (receiveHandler ring fill) (refill ring) start .check .loadConsumed

-- Both fields of a descriptor are written.
def Complete (m : Mem Val) (i : Nat) : Prop :=
  m (.address i) = 1111 ∧ m (.length i) = maxPacketLen

-- `refill` enters the body of its loop for an index.
def Enters {B : Buffering Loc Val} (s : Buffered.State B HandlerPc RefillPc) (c : Nat) : Prop :=
  s.readerAt .body ∧ B.view s.mem (s.buf .reader) .consumedCount = c

-- The values in a buffer count on from a given one.
def CountsOn (n : Nat) (vs : List Nat) : Prop :=
  ∃ k, vs = List.range' (n + 1) k

namespace CountsOn

variable {n v : Nat} {vs : List Nat}

theorem nil : CountsOn n [] :=
  ⟨0, rfl⟩

theorem tail (h : CountsOn n (v :: vs)) : v = n + 1 ∧ CountsOn v vs := by
  obtain ⟨k, h⟩ := h
  cases k
  case zero => cases h
  case succ k =>
    obtain ⟨rfl, rfl⟩ := List.cons.inj h
    exact ⟨rfl, k, rfl⟩

theorem getLast (h : CountsOn n vs) : vs.getLast?.getD n = n + vs.length := by
  obtain ⟨k, rfl⟩ := h
  cases k
  case zero => simp
  case succ k => simp [List.range'_concat]; omega

theorem concat (h : CountsOn n vs) : CountsOn n (vs ++ [vs.getLast?.getD n + 1]) := by
  refine ⟨vs.length + 1, ?_⟩
  rw [h.getLast]
  obtain ⟨k, rfl⟩ := h
  simp [List.range'_concat]
  omega

end CountsOn

variable {ring fill i : Nat} {m m' : Mem Val} {b b' c c' : (fifo Val).Buf} {w w' : HandlerPc}
variable {r r' : RefillPc} {x : Loc} {v : Val x}

-- Both threads store nothing else to the descriptors.
def Fits : Entry Val → Prop
  | ⟨.address _, v⟩ => v = 1111
  | ⟨.length _, v⟩ => v = maxPacketLen
  | ⟨.productCount, _⟩ | ⟨.consumedCount, _⟩ => True

theorem Complete.store (h : Complete m i) (hf : Fits ⟨x, v⟩) : Complete (update m x v) i := by
  cases x <;> grind [Complete, Fits, update]

-- What the handler and `refill` rely on at each place, in terms of what they read.
def HandlerPc.Expects (ring fill : Nat) (m : Mem Val) : HandlerPc → Prop
  | check | done => True
  | loadIdx => m .productCount < fill
  | storeAddress idx => idx = m .productCount ∧ idx < fill
  | storeLength idx => idx = m .productCount ∧ idx < fill ∧ m (.address (idx % ring)) = 1111
  | loadCount => m .productCount < fill ∧ Complete m (m .productCount % ring)
  | storeCount count =>
    count = m .productCount + 1 ∧ count ≤ fill ∧ Complete m (m .productCount % ring)

def RefillPc.Expects (consumed product : Nat) : RefillPc → Prop
  | loadConsumed | done => True
  | loadProduct c => c = consumed
  | body | storeAddress _ | loadIdx | storeLength _ | loadCount => consumed < product
  | storeCount count => count = consumed + 1 ∧ consumed < product

theorem HandlerPc.Expects.mono (h : w.Expects ring fill m) (hp : m' .productCount = m .productCount)
    (ha : ∀ i, m (.address i) = 1111 → m' (.address i) = 1111)
    (hl : ∀ i, m (.length i) = maxPacketLen → m' (.length i) = maxPacketLen) :
    w.Expects ring fill m' := by
  cases w <;> grind [Expects, Complete]

theorem RefillPc.Expects.mono {n p p' : Nat} (h : r.Expects n p) (hp : p ≤ p') : r.Expects n p' := by
  cases r <;> grind [Expects]

-- The handler publishes descriptors after it has written them.
structure Published (ring fill : Nat) (m : Mem Val) (b c : (fifo Val).Buf) (w : HandlerPc)
    (r : RefillPc) : Prop where
  product   : CountsOn (m .productCount) ((fifo Val).pending b .productCount)
  consumed  : CountsOn (m .consumedCount) ((fifo Val).pending c .consumedCount)
  handler   : ∀ e ∈ b, Fits e ∧ e.1 ≠ .consumedCount
  refill    : ∀ e ∈ c, Fits e ∧ e.1 ≠ .productCount
  complete  : Along (fun m => ∀ i < m .productCount, Complete m (i % ring)) m b
  bound     : (fifo Val).view m b .productCount ≤ fill
  order     : (fifo Val).view m c .consumedCount ≤ m .productCount
  atHandler : w.Expects ring fill ((fifo Val).view m b)
  atRefill  : r.Expects ((fifo Val).view m c .consumedCount) (m .productCount)

namespace Published

theorem init : Published ring fill start (fifo Val).empty (fifo Val).empty .check .loadConsumed where
  product := .nil
  consumed := .nil
  handler := nofun
  refill := nofun
  complete := nofun
  bound := Nat.zero_le _
  order := Nat.zero_le _
  atHandler := trivial
  atRefill := trivial

-- A store to a field of a descriptor.
theorem handler_store (h : Published ring fill m b c w r) (hf : Fits ⟨x, v⟩) (hp : .productCount ≠ x)
    (hc : x ≠ .consumedCount) (hw : w'.Expects ring fill (update ((fifo Val).view m b) x v)) :
    Published ring fill m ((fifo Val).push b x v) c w' r := by
  refine { h with product := ?_, handler := ?_, complete := ?_, bound := ?_, atHandler := ?_ }
  · rw [pending_push_ne hp]
    exact h.product
  · intro e he
    obtain he | rfl := mem_fifo_push.mp he
    · exact h.handler e he
    · exact ⟨hf, hc⟩
  · refine h.complete.push fun i hi => ?_
    rw [update_of_ne hp] at hi
    exact (h.complete.view i hi).store hf
  · rw [view_push, update_of_ne hp]
    exact h.bound
  · rwa [view_push]

theorem refill_store (h : Published ring fill m b c w r) (hf : Fits ⟨x, v⟩) (hp : x ≠ .productCount)
    (hc : .consumedCount ≠ x)
    (hr : r'.Expects ((fifo Val).view m c .consumedCount) (m .productCount)) :
    Published ring fill m b ((fifo Val).push c x v) w r' := by
  refine { h with consumed := ?_, refill := ?_, order := ?_, atRefill := ?_ }
  · rw [pending_push_ne hc]
    exact h.consumed
  · intro e he
    obtain he | rfl := mem_fifo_push.mp he
    · exact h.refill e he
    · exact ⟨hf, hp⟩
  · rw [view_push, update_of_ne hc]
    exact h.order
  · rwa [view_push, update_of_ne hc]

theorem write (h : Published ring fill m b c w r)
    (e : (receiveHandler ring fill w).exec (fifo Val) .flushing m b = some (m', b', w')) :
    Published ring fill m' b' c w' r := by
  have hw := h.atHandler
  cases w <;> simp only [receiveHandler] at e
  case check => cases e; exact { h with atHandler := by dsimp only; split <;> trivial }
  case loadIdx => cases e; exact { h with atHandler := ⟨rfl, hw⟩ }
  case loadCount => cases e; exact { h with atHandler := ⟨rfl, hw⟩ }
  case storeAddress idx =>
    cases e
    exact h.handler_store rfl nofun nofun ⟨hw.1, hw.2, update_self ..⟩
  case storeLength idx =>
    cases e
    obtain ⟨rfl, hi, ha⟩ := hw
    exact h.handler_store rfl nofun nofun ⟨hi, ha, update_self ..⟩
  case storeCount count =>
    cases e
    obtain ⟨rfl, hi, hd⟩ := hw
    refine { h with product := ?_, handler := ?_, complete := ?_, bound := ?_, atHandler := trivial }
    · rw [pending_push_self]
      exact h.product.concat
    · intro e he
      obtain he | rfl := mem_fifo_push.mp he
      · exact h.handler e he
      · exact ⟨trivial, nofun⟩
    · refine h.complete.push fun i hi => Complete.store ?_ trivial
      rw [update_self] at hi
      obtain hi | rfl := Nat.lt_succ_iff_lt_or_eq.mp hi
      · exact h.complete.view i hi
      · exact hd
    · rw [view_push, update_self]
      exact hi
  case done => cases e

theorem read (h : Published ring fill m b c w r)
    (e : (Includeos.refill ring r).exec (fifo Val) .flushing m c = some (m', c', r')) :
    Published ring fill m' b c' w r' := by
  have hr := h.atRefill
  have hc : (fifo Val).pending c .productCount = [] := by
    refine List.filterMap_eq_nil_iff.mpr fun e he => ?_
    simp [Entry.at?, (h.refill e he).2]
  cases r <;> simp only [Includeos.refill] at e
  case loadConsumed => cases e; exact { h with atRefill := rfl }
  case loadProduct consumed =>
    obtain rfl := hr
    cases e
    refine { h with atRefill := ?_ }
    rw [view_nil hc]
    dsimp only
    split
    case isTrue hp => exact hp
    case isFalse => trivial
  case body | loadIdx => cases e; exact { h with atRefill := hr }
  case loadCount => cases e; exact { h with atRefill := ⟨rfl, hr⟩ }
  case storeAddress | storeLength => cases e; exact h.refill_store rfl (by simp) (by simp) hr
  case storeCount count =>
    cases e
    obtain ⟨rfl, hp⟩ := hr
    refine { h with consumed := ?_, refill := ?_, order := ?_, atRefill := trivial }
    · rw [pending_push_self]
      exact h.consumed.concat
    · intro e he
      obtain he | rfl := mem_fifo_push.mp he
      · exact h.refill e he
      · exact ⟨trivial, by simp⟩
    · rw [view_push, update_self]
      exact hp
  case done => cases e

theorem drain_writer (h : Published ring fill m b c w r) (hp : (fifo Val).pop b x = some (v, b')) :
    Published ring fill (update m x v) b' c w r := by
  have hx := (h.handler ⟨x, v⟩ ((mem_fifo_pop hp).mpr (.inl rfl))).2
  have hv : (fifo Val).view (update m x v) b' = (fifo Val).view m b := funext fun _ => view_pop hp
  have hc : (fifo Val).view (update m x v) c .consumedCount = (fifo Val).view m c .consumedCount :=
    view_update_ne (Ne.symm hx)
  have hm : m .productCount ≤ update m x v .productCount := by
    by_cases hxp : .productCount = x
    case neg => rw [update_of_ne hxp]
    case pos =>
      subst hxp
      have ht := h.product
      rw [pending_pop_self hp] at ht
      rw [update_self, ht.tail.1]
      exact Nat.le_succ _
  refine ⟨?_, ?_, fun e he => h.handler e ((mem_fifo_pop hp).mpr (.inr he)), h.refill,
    h.complete.pop hp, hv ▸ h.bound, hc ▸ h.order.trans hm, hv ▸ h.atHandler, hc ▸ h.atRefill.mono hm⟩
  · have ht := h.product
    by_cases hxp : .productCount = x
    case pos =>
      subst hxp
      rw [pending_pop_self hp] at ht
      simpa using ht.tail.2
    case neg => simpa [hxp, pending_pop_ne hp hxp] using ht
  · simpa [Ne.symm hx] using h.consumed

theorem drain_reader (h : Published ring fill m b c w r) (hp : (fifo Val).pop c x = some (v, c')) :
    Published ring fill (update m x v) b c' w r := by
  have ⟨hf, hx⟩ := h.refill ⟨x, v⟩ ((mem_fifo_pop hp).mpr (.inl rfl))
  have hv : (fifo Val).view (update m x v) c' = (fifo Val).view m c := funext fun _ => view_pop hp
  have hb : (fifo Val).view (update m x v) b .productCount = (fifo Val).view m b .productCount :=
    view_update_ne (Ne.symm hx)
  have hm : update m x v .productCount = m .productCount := update_of_ne (Ne.symm hx) ..
  refine ⟨?_, ?_, h.handler, fun e he => h.refill e ((mem_fifo_pop hp).mpr (.inr he)), ?_,
    hb ▸ h.bound, by rw [hv, hm]; exact h.order, ?_, by rw [hv, hm]; exact h.atRefill⟩
  · rw [hm]
    exact h.product
  · have ht := h.consumed
    by_cases hxc : .consumedCount = x
    case pos =>
      subst hxc
      rw [pending_pop_self hp] at ht
      simpa using ht.tail.2
    case neg => simpa [hxc, pending_pop_ne hp hxc] using ht
  · refine h.complete.interfere (fun m hm i hi => ?_) fun _ _ _ _ => id
    rw [update_of_ne (Ne.symm hx)] at hi
    exact (hm i hi).store hf
  · refine h.atHandler.mono hb (fun i ha => ?_) fun i hl => ?_
    all_goals cases x <;> grind [view_update_self, view_update_ne, Fits]

theorem of_reachable {s : Buffered.State (fifo Val) HandlerPc RefillPc}
    (h : (harness (fifo Val) .flushing ring fill).Reachable s) :
    ∃ m b c w r, s = Buffered.state m b c w r ∧ Published ring fill m b c w r :=
  Buffered.invariant init (fun _ _ _ _ _ _ _ _ => write) (fun _ _ _ _ _ _ _ _ => read)
    (fun _ _ _ _ _ _ _ _ => drain_writer) (fun _ _ _ _ _ _ _ _ => drain_reader) h

end Published

-- When stores drain in order, `refill` finds only complete descriptors in memory.
theorem tso_complete {s : Buffered.State (fifo Val) HandlerPc RefillPc}
    (h : (harness (fifo Val) .flushing ring fill).Reachable s) :
    s.mem .consumedCount ≤ s.mem .productCount ∧ s.mem .productCount ≤ fill ∧
      ∀ c, Enters s c → Complete s.mem (c % ring) := by
  obtain ⟨m, b, c, w, r, rfl, hp⟩ := Published.of_reachable h
  refine ⟨?_, ?_, ?_⟩
  · refine le_trans ?_ hp.order
    rw [view, hp.consumed.getLast]
    exact Nat.le_add_right ..
  · refine le_trans ?_ hp.bound
    rw [view, hp.product.getLast]
    exact Nat.le_add_right ..
  · rintro _ ⟨hr, rfl⟩
    obtain rfl := Buffered.readerAt_state.mp hr
    exact hp.complete.here _ hp.atRefill

-- The new count drains before the descriptor that it counts.
theorem exists_enters_incomplete (ring : Nat) (h : 1 ≤ fill) :
    ∃ s c, (harness (unordered Val) .weak ring fill).Reachable s ∧ Enters s c ∧
      ¬Complete s.mem (c % ring) := by
  have hl : (harness (unordered Val) .weak ring fill).Leads
      (fun s => ∃ c, Enters s c ∧ ¬Complete s.mem (c % ring))
      (Buffered.state start (unordered Val).empty (unordered Val).empty .check .loadConsumed) := by
    refine Buffered.leads_writer (n := start) (d := (unordered Val).empty) (v := .loadIdx) ?_ <|
      Buffered.leads_writer rfl <| Buffered.leads_writer rfl <| Buffered.leads_writer rfl <|
      Buffered.leads_writer rfl <| Buffered.leads_writer rfl <|
      Buffered.leads_drain_writer (x := .productCount) rfl <|
      Buffered.leads_reader rfl <| Buffered.leads_reader rfl <|
      .refl ⟨0, ⟨Buffered.readerAt_state.mpr ?_, ?_⟩, fun hc => ?_⟩
    · simp [receiveHandler, Op.exec, view_nil (empty_empty _), start, Nat.lt_of_succ_le h]
    · rfl
    · rfl
    · exact absurd (show (0 : Int) = 1111 from hc.1) (by decide)
  obtain ⟨s, r, c, hc⟩ := hl.exists_reachable (.init Buffered.init_state)
  exact ⟨s, c, r, hc⟩

-- So the order of the stores is all that `refill` relies on.
theorem complete_of_fifo_only (ring fill : Nat) :
    (∀ s, (harness (fifo Val) .flushing ring fill).Reachable s →
      s.mem .consumedCount ≤ s.mem .productCount ∧ s.mem .productCount ≤ fill ∧
        ∀ c, Enters s c → Complete s.mem (c % ring)) ∧
    (1 ≤ fill → ∃ s c, (harness (unordered Val) .weak ring fill).Reachable s ∧ Enters s c ∧
      ¬Complete s.mem (c % ring)) :=
  ⟨fun _ => tso_complete, exists_enters_incomplete ring⟩

theorem complete_of_fifo_only_two :
    ∃ s c, (harness (unordered Val) .weak 512 2).Reachable s ∧ Enters s c ∧
      ¬Complete s.mem (c % 512) :=
  (complete_of_fifo_only 512 2).2 (by decide)

end Harness.Includeos

import OrderingBugs.Memory.Publication

open Function

-- What observers can make of a message: a payload, a fence and a signal, stored in this order.
namespace Publication

variable {Loc : Type} {Val : Loc → Type}

namespace Observer

-- Whether an observer that is left alone with memory fails.
def fails (m : Mem Val) : Observer Loc Val → Bool
  | done => false
  | failed => true
  | load _ x k => (k (m x)).fails m
  | await _ x p k => p (m x) && k.fails m

-- An observer that cannot fail, whatever it reads.
def Silent : Observer Loc Val → Prop
  | done => True
  | failed => False
  | load _ _ k => ∀ v, (k v).Silent
  | await _ _ _ k => k.Silent

def Loads (x : Loc) : Observer Loc Val → Prop
  | done | failed => False
  | load _ y k => y = x ∨ ∃ v, (k v).Loads x
  | await _ y _ k => y = x ∨ k.Loads x

-- An observer that reads no location twice.
def Once : Observer Loc Val → Prop
  | done | failed => True
  | load _ x k => ∀ v, ¬(k v).Loads x ∧ (k v).Once
  | await _ x _ k => ¬k.Loads x ∧ k.Once

-- The end of an observer that asserts something of the values it has read.
def assert (b : Bool) : Observer Loc Val :=
  if b then done else failed

@[simp]
theorem fails_assert {m : Mem Val} {b : Bool} : (assert b : Observer Loc Val).fails m = !b := by
  cases b <;> rfl

@[simp]
theorem not_loads_assert {x : Loc} {b : Bool} : ¬(assert b : Observer Loc Val).Loads x := by
  cases b <;> exact id

@[simp]
theorem once_assert {b : Bool} : (assert b : Observer Loc Val).Once := by
  cases b <;> trivial

section Ite

variable {c : Prop} [Decidable c] {o o' : Observer Loc Val}

@[simp]
theorem loads_ite {x : Loc} :
    (if c then o else o').Loads x ↔ if c then o.Loads x else o'.Loads x := by
  split <;> rfl

@[simp]
theorem once_ite : (if c then o else o').Once ↔ if c then o.Once else o'.Once := by
  split <;> rfl

end Ite

theorem fails_update [DecidableEq Loc] {o : Observer Loc Val} {m : Mem Val} {x : Loc} {v : Val x}
    (h : ¬o.Loads x) : o.fails (update m x v) = o.fails m := by
  induction o
  case done | failed => rfl
  case load y k hi =>
    simp only [Loads, not_or, not_exists] at h
    simp only [fails, update_of_ne h.1]
    exact hi _ (h.2 _)
  case await y p k hi =>
    simp only [Loads, not_or] at h
    simp only [fails, update_of_ne h.1, hi h.2]

end Observer

variable [DecidableEq Loc]

-- Memory once all of the given instructions have taken effect.
def publish (m : Mem Val) (is : List (Instr Loc Val)) : Mem Val :=
  is.foldl Instr.apply m

@[simp]
theorem publish_nil {m : Mem Val} : publish m [] = m :=
  rfl

@[simp]
theorem publish_cons {m : Mem Val} {i : Instr Loc Val} {is : List (Instr Loc Val)} :
    publish m (i :: is) = publish (i.apply m) is :=
  rfl

@[simp]
theorem publish_append {m : Mem Val} {is js : List (Instr Loc Val)} :
    publish m (is ++ js) = publish (publish m is) js :=
  List.foldl_append

section MayFail

variable {passes : Overtaking Val} {D : Discipline} {m m' : Mem Val} {is js : List (Instr Loc Val)}
variable {o : Observer Loc Val}

theorem Observer.Silent.not_mayFail (h : o.Silent) : ¬MayFail passes D m is o := by
  intro hf
  induction hf
  case failed => exact h
  case commit hi => exact hi h
  case load hi => exact hi (h _)
  case await hi => exact hi h

theorem MayFail.of_fails (h : o.fails m = true) : MayFail passes D m is o := by
  induction o
  case done => cases h
  case failed => exact .failed
  case load hi => exact .load (hi _ h)
  case await hi =>
    simp only [Observer.fails, Bool.and_eq_true] at h
    exact .await h.1 (hi h.2)

-- The instructions of the publisher can take effect in their order.
theorem MayFail.of_publish (hn : ∀ x, passes [] x) (h : MayFail passes D (publish m is) js o) :
    MayFail passes D m (is ++ js) o := by
  induction is generalizing m
  case nil => exact h
  case cons i is hi =>
    have hp : i.Passes passes D [] := by cases i <;> simp [Instr.Passes, hn]
    have hc : Commit passes D m ([] ++ i :: (is ++ js)) _ _ := .intro rfl hp
    exact .commit hc (hi h)

theorem mayFail_nil_iff : MayFail passes D m [] o ↔ o.fails m = true where
  mpr := .of_fails
  mp h := by
    generalize hk : [] = ks at h
    induction h
    case failed => rfl
    case commit hc _ _ =>
      cases hc
      simp at hk
    case load hi => exact hi hk
    case await hp _ hi => simp [Observer.fails, hp, hi hk]

-- Whichever instruction takes effect first, the memory in the end is the same.
theorem publish_update {x : Loc} {v : Val x} (h : ∀ i ∈ is, ∀ o w, i ≠ .store o x w) :
    publish (update m x v) is = update (publish m is) x v := by
  induction is generalizing m
  case nil => rfl
  case cons i is hi =>
    simp only [List.mem_cons, forall_eq_or_imp] at h
    change publish (i.apply (update m x v)) is = _
    cases i
    case fence => exact hi h.2
    case store o y w =>
      have hy : y ≠ x := by rintro rfl; exact h.1 o w rfl
      rw [Instr.apply, update_comm hy.symm]
      exact hi h.2

omit [DecidableEq Loc] in
theorem mem_of_map_eq {es : List (Buffering.Entry Val)} {i : Instr Loc Val}
    (h : is.map (Instr.entry? D) = es.map some) (hi : i ∈ is) : ∃ e ∈ es, i.entry? D = some e := by
  have h' := List.mem_map_of_mem (f := Instr.entry? D) hi
  rw [h, List.mem_map] at h'
  obtain ⟨e, he, h'⟩ := h'
  exact ⟨e, he, h'.symm⟩

theorem Commit.publish_eq (hp : ∀ es x, passes es x → sameLocation es x)
    (hc : Commit passes D m is m' js) : publish m' js = publish m is := by
  cases hc
  case intro is js i es hi hs =>
    suffices h : publish (i.apply m) is = i.apply (publish m is) by
      simp [h]
    cases i
    case fence => rfl
    case store o x v =>
      have hx : sameLocation es x := by
        simp only [Instr.Passes] at hs
        split at hs
        case isTrue => exact hp _ _ hs
        case isFalse => simp [hs, sameLocation]
      refine publish_update fun j hj o' w hw => ?_
      obtain ⟨e, he, hj⟩ := mem_of_map_eq hi hj
      subst hw
      simp only [Instr.entry?] at hj
      split at hj <;> cases hj
      exact hx _ he rfl

end MayFail
end Publication

-- A payload, stored before a signal, and what observers do with it once they have read the signal. An
-- observer that has not seen the signal does not fail, and no observer reads a variable twice.
structure Message (Loc : Type) [DecidableEq Loc] (Val : Loc → Type) where
  mem      : Mem Val
  payload  : List (Buffering.Entry Val)
  fenced   : Bool
  signal   : Loc
  set      : Val signal
  look     : Val signal → Publication.Observer Loc Val
  distinct : (payload.map Sigma.fst).Nodup
  others   : ∀ e ∈ payload, e.1 ≠ signal
  silent   : (look (mem signal)).Silent
  once     : (Publication.Observer.load .plain signal look).Once

namespace Message

open Publication

variable {Loc : Type} [DecidableEq Loc] {Val : Loc → Type} (M : Message Loc Val)

def store (e : Buffering.Entry Val) : Instr Loc Val :=
  .store .plain e.1 e.2

def fences : List (Instr Loc Val) :=
  if M.fenced then [.fence .seqCst] else []

def observer : Observer Loc Val :=
  .load .plain M.signal M.look

-- Any number of observers look at the message.
def publication (Obs : Type) : Publication Loc Val Obs where
  code := M.payload.map store ++ M.fences ++ [store ⟨M.signal, M.set⟩]
  observers _ := M.observer
  mem := M.mem

-- Memory once the whole message has been stored.
def final : Mem Val :=
  publish M.mem (M.publication Unit).code

-- Memory with the signal, in which any part of the payload may be missing.
def Torn (m : Mem Val) : Prop :=
  m M.signal = M.set ∧ ∀ x, m x = M.mem x ∨ m x = M.final x

variable {M} {passes : Overtaking Val} {D : Discipline} {m : Mem Val} {is ks : List (Instr Loc Val)}
variable {o : Observer Loc Val}

-- If nothing that is left can be overtaken by the signal, then an observer that fails does so on the
-- whole message.
theorem fails_of_mayFail (hp : ∀ es x, passes es x → sameLocation es x)
    (G : List (Instr Loc Val) → Prop)
    (hG : ∀ is i js es, G (is ++ i :: js) → is.map (Instr.entry? D) = es.map some →
      i.Passes passes D es → G (is ++ js))
    (hs : ∀ is es, G is → is.map (Instr.entry? D) = es.map some →
      (store ⟨M.signal, M.set⟩).Passes passes D es → is = [])
    (h : MayFail passes D m (is ++ [store ⟨M.signal, M.set⟩]) M.observer) (hi : G is)
    (hn : ∀ o v, .store o M.signal v ∉ is) (hm : m M.signal = M.mem M.signal) :
    (M.look M.set).fails (publish m (is ++ [store ⟨M.signal, M.set⟩])) = true := by
  generalize hk : is ++ [store ⟨M.signal, M.set⟩] = ks, ho : M.observer = o at h
  induction h generalizing is
  case failed | await => cases ho
  case load h _ =>
    cases ho
    rw [hm] at h
    exact absurd h M.silent.not_mayFail
  case commit hc h ih =>
    rw [← hc.publish_eq hp]
    cases hc
    case intro is₁ js₁ i es h₁ hi' =>
      obtain rfl | ⟨js₂, z, rfl⟩ := js₁.eq_nil_or_concat'
      case inl =>
        obtain ⟨rfl, rfl⟩ := by simpa using hk
        obtain rfl := hs _ _ hi h₁ hi'
        subst ho
        simpa [observer, Observer.fails, store, Instr.apply] using mayFail_nil_iff.mp h
      case inr =>
        obtain ⟨rfl, rfl⟩ : is = is₁ ++ i :: js₂ ∧ store ⟨M.signal, M.set⟩ = z := by
          rw [← List.cons_append, ← List.append_assoc] at hk
          simpa using List.append_inj' hk rfl
        simp only [List.mem_append, List.mem_cons, not_or] at hn
        refine ih (hG _ _ _ _ hi h₁ hi') (fun o v => ?_) ?_ (by simp) ho
        · simpa using ⟨(hn o v).1, (hn o v).2.2⟩
        · rw [← hm]
          cases i
          case fence => rfl
          case store o x v =>
            refine update_of_ne ?_ ..
            rintro rfl
            exact (hn o v).2.1 rfl

theorem final_signal : M.final M.signal = M.set := by
  simp [final, publication, store, Instr.apply]

theorem torn_final : M.Torn M.final :=
  ⟨final_signal, fun _ => .inr rfl⟩

theorem mayFail_of_fails (hn : ∀ x, passes [] x) (h : (M.look M.set).fails M.final = true) :
    MayFail passes D M.mem (M.publication Unit).code M.observer := by
  rw [← List.append_nil (M.publication Unit).code]
  refine .of_publish hn (.of_fails ?_)
  change (M.look (M.final M.signal)).fails M.final = true
  rwa [final_signal]

theorem store_signal_not_mem (o : Order) (v : Val M.signal) :
    .store o M.signal v ∉ M.payload.map store ++ M.fences := by
  simp only [List.mem_append, List.mem_map, store, fences, not_or, not_exists, not_and]
  refine ⟨fun e he h => ?_, by split <;> simp⟩
  simp only [Instr.store.injEq] at h
  exact M.others e he h.2.1

omit [DecidableEq Loc] in
theorem sameLocation_of_inOrder (es : List (Buffering.Entry Val)) (x : Loc) (h : inOrder es x) :
    sameLocation es x := by
  obtain rfl : es = [] := h
  simp [sameLocation]

theorem mayFail_inOrder_iff :
    MayFail inOrder .flushing M.mem (M.publication Unit).code M.observer ↔
      (M.look M.set).fails M.final = true where
  mpr := mayFail_of_fails fun _ => rfl
  mp h := by
    refine fails_of_mayFail sameLocation_of_inOrder (fun _ => True) (fun _ _ _ _ _ _ _ => trivial) ?_ h trivial
      store_signal_not_mem rfl
    intro is es _ h₁ (h₂ : es = [])
    simpa [h₂] using h₁

-- The fence is issued once the payload is in memory, whatever the order of the buffers.
theorem mayFail_fenced_iff (hf : M.fenced = true) :
    MayFail sameLocation .flushing M.mem (M.publication Unit).code M.observer ↔
      (M.look M.set).fails M.final = true where
  mpr := mayFail_of_fails (by simp [sameLocation])
  mp h := by
    refine fails_of_mayFail (fun _ _ => id) (fun is => ∀ i ∈ is.getLast?, i = .fence .seqCst) ?_ ?_ h
      (by simp [fences, hf]) store_signal_not_mem rfl
    · intro is i js es hi h₁ h₂
      obtain rfl | ⟨js', z, rfl⟩ := js.eq_nil_or_concat'
      · obtain rfl : i = .fence .seqCst := hi i (by simp)
        obtain rfl : es = [] := h₂ rfl
        obtain rfl : is = [] := by simpa using h₁
        simp
      · simpa [List.getLast?_cons, List.getLast?_append] using hi
    · intro is es hi h₁ _
      obtain rfl | ⟨is', z, rfl⟩ := is.eq_nil_or_concat'
      · rfl
      · obtain rfl : z = .fence .seqCst := hi z (by simp)
        obtain ⟨e, -, he⟩ := mem_of_map_eq h₁ (List.mem_append_right _ (List.mem_singleton_self _))
        cases he

-- While a message is on its way, every variable is old or new for an observer that reads it only once.
theorem exists_fails_of_mayFail {n : Mem Val} (h : MayFail passes D m ks o) (ho : o.Once)
    (hm : ∀ x, m x = M.mem x ∨ m x = n x) (hk : ∀ o x v, .store o x v ∈ ks → v = n x) :
    ∃ m', (∀ x, m' x = M.mem x ∨ m' x = n x) ∧ o.fails m' = true := by
  induction h
  case failed m _ => exact ⟨m, hm, rfl⟩
  case commit hc h hi =>
    cases hc
    case intro is js i es _ hp =>
      refine hi ho (fun x => ?_) fun o x v hv => hk o x v ?_
      · cases i
        case fence => exact hm x
        case store o y v =>
          by_cases hx : x = y
          case pos => subst hx; exact .inr (by simp [Instr.apply, hk o x v (by simp)])
          case neg => simpa [Instr.apply, hx] using hm x
      · rcases List.mem_append.mp hv with hv | hv <;> simp [hv]
  case load m _ _ x k _ hi =>
    obtain ⟨m', hm', hf⟩ := hi (ho _).2 hm hk
    refine ⟨update m' x (m x), fun y => ?_, ?_⟩
    · by_cases hy : y = x
      case pos => subst hy; simpa using hm y
      case neg => simpa [hy] using hm' y
    · simpa [Observer.fails, Observer.fails_update (ho _).1] using hf
  case await m _ _ x p k hp _ hi =>
    obtain ⟨m', hm', hf⟩ := hi ho.2 hm hk
    refine ⟨update m' x (m x), fun y => ?_, ?_⟩
    · by_cases hy : y = x
      case pos => subst hy; simpa using hm y
      case neg => simpa [hy] using hm' y
    · simpa [Observer.fails, Observer.fails_update ho.1, hp] using hf

theorem publish_store {es : List (Buffering.Entry Val)} (hd : (es.map Sigma.fst).Nodup) :
    (∀ e ∈ es, publish m (es.map store) e.1 = e.2) ∧
      ∀ x, x ∉ es.map Sigma.fst → publish m (es.map store) x = m x := by
  induction es generalizing m
  case nil => simp
  case cons e es hi =>
    simp only [List.map_cons, List.nodup_cons] at hd
    obtain ⟨h₁, h₂⟩ := hi (m := update m e.1 e.2) hd.2
    refine ⟨?_, fun x hx => ?_⟩
    · rintro f (_ | ⟨_, hf⟩)
      · exact (h₂ e.1 hd.1).trans (update_self ..)
      · exact h₁ f hf
    · simp only [List.map_cons, List.mem_cons, not_or] at hx
      exact (h₂ x hx.2).trans (update_of_ne hx.1 ..)

-- Stores to different locations can be picked to take effect, and overtake all others.
theorem mayFail_of_filter {ss es : List (Buffering.Entry Val)} {js : List (Instr Loc Val)}
    (c : Buffering.Entry Val → Bool) (hd : ((ss ++ es).map Sigma.fst).Nodup)
    (h : MayFail sameLocation .flushing (publish m ((es.filter c).map store))
      ((ss ++ es.filter (!c ·)).map store ++ js) o) :
    MayFail sameLocation .flushing m ((ss ++ es).map store ++ js) o := by
  induction es generalizing m ss
  case nil => simpa using h
  case cons e es hi =>
    by_cases he : c e = true
    case pos =>
      rw [List.map_append, List.map_cons] at hd
      have hs : sameLocation ss e.1 := fun f hf => by
        rintro hx
        exact List.disjoint_of_nodup_append hd (List.mem_map_of_mem hf) (by simp [hx])
      have hd' : ((ss ++ es).map Sigma.fst).Nodup := by
        rw [List.map_append]
        exact hd.sublist ((List.sublist_cons_self ..).append_left _)
      rw [List.map_append, List.map_cons, List.append_assoc, List.cons_append]
      have hss : (ss.map store).map (Instr.entry? .flushing) = ss.map some := by
        simp [store, Instr.entry?, Discipline.flushing]
      refine .commit (.intro hss hs) ?_
      · rw [← List.append_assoc, ← List.map_append]
        exact hi hd' (by simpa [he] using h)
    case neg =>
      rw [← List.singleton_append, ← List.append_assoc] at hd ⊢
      refine hi hd ?_
      simpa [he] using h

theorem code_of_not_fenced (hf : M.fenced = false) :
    (M.publication Unit).code = M.payload.map store ++ [store ⟨M.signal, M.set⟩] := by
  simp [publication, fences, hf]

theorem final_eq : M.final = update (publish M.mem (M.payload.map store)) M.signal M.set := by
  simp only [final, publication, fences]
  split <;> simp [store, Instr.apply]

theorem final_of_mem {e : Buffering.Entry Val} (he : e ∈ M.payload) : M.final e.1 = e.2 := by
  rw [final_eq, update_of_ne (M.others e he)]
  exact (publish_store M.distinct).1 e he

theorem final_of_not_mem {x : Loc} (hs : x ≠ M.signal) (hx : x ∉ M.payload.map Sigma.fst) :
    M.final x = M.mem x := by
  rw [final_eq, update_of_ne hs]
  exact (publish_store M.distinct).2 x hx

-- Memory in which a part of the payload is missing, as the part that is there leaves it.
theorem Torn.eq_update [∀ x, DecidableEq (Val x)] (h : M.Torn m) :
    m = update (publish M.mem ((M.payload.filter fun e => m e.1 = e.2).map store)) M.signal M.set := by
  have hd : ((M.payload.filter fun e => m e.1 = e.2).map Sigma.fst).Nodup :=
    M.distinct.sublist (List.filter_sublist.map _)
  ext1 x
  by_cases hs : x = M.signal
  case pos => subst hs; simpa using h.1
  case neg =>
    rw [update_of_ne hs]
    by_cases hx : x ∈ (M.payload.filter fun e => m e.1 = e.2).map Sigma.fst
    case pos =>
      obtain ⟨e, he, rfl⟩ := List.mem_map.mp hx
      rw [(publish_store hd).1 e he]
      simpa using (List.mem_filter.mp he).2
    case neg =>
      rw [(publish_store hd).2 x hx]
      by_cases hp : x ∈ M.payload.map Sigma.fst
      case neg => exact (h.2 x).elim id (·.trans (final_of_not_mem hs hp))
      case pos =>
        obtain ⟨e, he, rfl⟩ := List.mem_map.mp hp
        refine (h.2 e.1).resolve_right fun hf => hx (List.mem_map_of_mem ?_)
        simpa [he] using hf.trans (final_of_mem he)

theorem eq_final_of_store {o : Order} {x : Loc} {v : Val x} (hf : M.fenced = false)
    (h : .store o x v ∈ (M.publication Unit).code) : v = M.final x := by
  rw [code_of_not_fenced hf, List.mem_append, List.mem_map, List.mem_singleton] at h
  obtain ⟨e, he, h⟩ | h := h
  · obtain ⟨-, rfl, rfl⟩ := by simpa [store] using h
    exact (final_of_mem he).symm
  · obtain ⟨-, rfl, rfl⟩ := by simpa [store] using h
    exact final_signal.symm

theorem mayFail_unfenced_iff (hf : M.fenced = false) :
    MayFail sameLocation .flushing M.mem (M.publication Unit).code M.observer ↔
      ∃ m, M.Torn m ∧ (M.look M.set).fails m = true where
  mp h := by
    obtain ⟨m, hm, hl⟩ :=
      exists_fails_of_mayFail h M.once (fun _ => .inl rfl) fun _ _ _ => eq_final_of_store hf
    simp only [observer, Observer.fails] at hl
    obtain hs | hs := hm M.signal
    · rw [hs] at hl
      have hf : MayFail inOrder .flushing m [] (M.look (M.mem M.signal)) := .of_fails hl
      exact absurd hf M.silent.not_mayFail
    · rw [final_signal] at hs
      exact ⟨m, ⟨hs, hm⟩, hs ▸ hl⟩
  mpr := by
    rintro ⟨m, ⟨hs, hm⟩, hl⟩
    classical
    rw [code_of_not_fenced hf]
    let c : Buffering.Entry Val → Bool := fun e => decide (m e.1 = e.2)
    have hp : ((M.payload.filter (!c ·)).map store).map (Instr.entry? .flushing) =
        (M.payload.filter (!c ·)).map some := by
      simp [store, Instr.entry?, Discipline.flushing]
    suffices h : MayFail sameLocation .flushing (publish M.mem ((M.payload.filter c).map store))
        ((M.payload.filter (!c ·)).map store ++ [store ⟨M.signal, M.set⟩]) M.observer from
      @mayFail_of_filter _ _ _ _ _ [] _ _ c M.distinct h
    refine .commit (.intro hp ?_) (.load (.of_fails ?_))
    · exact fun e he => M.others e (List.mem_filter.mp he).1
    · change (M.look (update _ M.signal M.set M.signal)).fails (update _ M.signal M.set) = true
      rwa [← Torn.eq_update ⟨hs, hm⟩, hs]

section Violates

variable {Obs : Type} [DecidableEq Obs] [Nonempty Obs]

-- All observers do the same, so one of them stands for all.
theorem violates_iff {B : Buffering Loc Val} (Q : Queueing B) (D : Discipline) :
    (M.publication Obs).test.Violates B D ↔
      MayFail Q.passes D M.mem (M.publication Unit).code M.observer where
  mp h :=
    have ⟨_, h⟩ := (Publication.violates_iff Q D _).mp h
    h
  mpr h := (Publication.violates_iff Q D _).mpr ⟨Classical.arbitrary Obs, h⟩

-- With total store order an observer sees the whole message behind its signal.
theorem violates_fifo_iff :
    (M.publication Obs).test.Violates (.fifo Val) .flushing ↔ (M.look M.set).fails M.final = true :=
  (violates_iff .fifo .flushing).trans mayFail_inOrder_iff

-- With partial store order it does if there is a fence, and otherwise any part of the payload may be missing.
theorem violates_perLocation_iff [Fintype Loc] :
    (M.publication Obs).test.Violates (.perLocation Val) .flushing ↔
      if M.fenced then (M.look M.set).fails M.final = true
      else ∃ m, M.Torn m ∧ (M.look M.set).fails m = true := by
  refine (violates_iff .perLocation .flushing).trans ?_
  split
  case isTrue hf => exact mayFail_fenced_iff hf
  case isFalse hf => exact mayFail_unfenced_iff (by simpa using hf)

end Violates
end Message

import Mathlib.Logic.Function.Basic

open Function

-- Dynamically allocated objects. Whatever is not live has not been allocated or is freed.
structure Heap (Addr V : Type) where
  live : Addr → Bool
  val  : Addr → V

namespace Heap

variable {Addr V : Type} [DecidableEq Addr] (h : Heap Addr V) (a b : Addr) (v : V)

-- A new object starts with whatever the memory happens to contain.
def malloc : Heap Addr V where
  live := update h.live a true
  val := update h.val a v

def free : Heap Addr V :=
  { h with live := update h.live a false }

def write : Heap Addr V :=
  { h with val := update h.val a v }

@[simp, grind =]
theorem live_malloc : (h.malloc a v).live b = if b = a then true else h.live b :=
  update_apply ..

@[simp, grind =]
theorem val_malloc : (h.malloc a v).val b = if b = a then v else h.val b :=
  update_apply ..

@[simp, grind =]
theorem live_free : (h.free a).live b = if b = a then false else h.live b :=
  update_apply ..

@[simp, grind =]
theorem val_free : (h.free a).val b = h.val b :=
  rfl

@[simp, grind =]
theorem live_write : (h.write a v).live b = h.live b :=
  rfl

@[simp, grind =]
theorem val_write : (h.write a v).val b = if b = a then v else h.val b :=
  update_apply ..

end Heap

import SphSc.Lib.Exec
import Mathlib.Logic.Function.Basic
/-!
# Blocks of a heap

A block that is not allocated is not read, written or freed.
-/
open Exec

/-- The blocks that are allocated, with what they hold. -/
abbrev Heap (N C : Type) := N → Option C

namespace Heap

variable {N C : Type} [DecidableEq N] (heap : Heap N C)

/-- `*n` -/
def load (n : N) : Exec C :=
  match heap n with
  | some c => .ok c
  | none => .error .outOfBounds

def store (n : N) (c : C) : Exec (Heap N C) :=
  if (heap n).isSome then .ok (Function.update heap n (some c)) else .error .outOfBounds

def free (n : N) : Exec (Heap N C) :=
  if (heap n).isSome then .ok (Function.update heap n none) else .error .outOfBounds

/-- A null pointer, or this block if it is not in use. -/
def alloc (n : Option N) : Option N := n.filter fun n => (heap n).isNone

/-- Without these blocks. -/
def without (ns : List N) : Heap N C := fun n => if n ∈ ns then none else heap n

variable {heap} {n : N} {c : C}

omit [DecidableEq N] in
theorem load_eq (h : heap n = some c) : heap.load n = .ok c := by
  rw [load, h]

omit [DecidableEq N] in
theorem load_eq_ok : heap.load n = .ok c ↔ heap n = some c := by
  unfold load
  split <;> simp_all

theorem free_eq (h : heap n = some c) : heap.free n = .ok (Function.update heap n none) := by
  rw [free, h]
  rfl

theorem free_none (h : heap n = none) : heap.free n = .error .outOfBounds := by
  rw [free, h]
  rfl

theorem store_eq (h : heap n = some c) (c' : C) : heap.store n c' = .ok (Function.update heap n (some c')) := by
  rw [store, h]
  rfl

omit [DecidableEq N] in
theorem alloc_eq_some {block : Option N} : heap.alloc block = some n ↔ block = some n ∧ heap n = none := by
  simp [alloc, Option.filter_eq_some_iff]

theorem without_nil (heap : Heap N C) : heap.without [] = heap := by
  funext n
  simp [without]

theorem without_cons (heap : Heap N C) (n : N) (ns : List N) :
    heap.without (n :: ns) = Heap.without (Function.update heap n none) ns := by
  funext m
  simp only [without, List.mem_cons, Function.update_apply]
  split <;> split <;> simp_all

end Heap

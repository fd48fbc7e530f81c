import Mathlib.Algebra.Group.Nat.Defs
import Mathlib.Data.List.ReduceOption
import SphSc.Lib.Links
/-!
# `queue.h`

Elements are queued through the `sph_queue_node_t` that each of them contains.
`Holds` says that a queue and the nodes in memory stand for a list of nodes.
-/
open Exec Links

namespace SphSc

/-- `sph_queue_t` -/
structure Queue (N : Type) where
  size : BitVec 32
  first : Option N
  last : Option N

namespace Queue

variable {N : Type} [DecidableEq N]

/-- `sph_queue_init` -/
def init : Queue N where
  first := none
  last := none
  size := 0

/-- The field `next` of every node, in a queue or not. -/
abbrev Next (N : Type) := N → Option N

/-- `sph_queue_enq` -/
def enq (a : Queue N) (next : Next N) (node : N) : Exec (Queue N × Next N) := do
  let (a, next) ←
    if a.first ≠ none then
      let last ← deref a.last
      pure (a, Function.update next last (some node))
    else pure ({ a with first := some node }, next)
  let a := { a with last := some node }
  let next := Function.update next node none
  return ({ a with size := 1 + a.size }, next)

/-- `sph_queue_deq` -/
def deq (a : Queue N) (next : Next N) : Exec (Queue N × N) := do
  let n ← deref a.first
  let a := if next n = none then { a with last := none } else a
  let a := { a with first := next n }
  return ({ a with size := a.size - 1 }, n)

/-! ## Calls -/

inductive Call (N : Type) where
  | enq (node : N)
  | deq
  deriving DecidableEq

/-- A call, with the node it returns. -/
def call (a : Queue N) (next : Next N) : Call N → Exec (Queue N × Next N × Option N)
  | .enq node => do
    let (a, next) ← enq a next node
    return (a, next, none)
  | .deq => do
    let (a, n) ← deq a next
    return (a, next, some n)

/-- Calls one after the other, with the nodes they return. -/
def calls (a : Queue N) (next : Next N) : List (Call N) → Exec (Queue N × Next N × List (Option N))
  | [] => return (a, next, [])
  | c :: cs => do
    let (a, next, r) ← call a next c
    let (a, next, rs) ← calls a next cs
    return (a, next, r :: rs)

/-! ## First in, first out -/

namespace Fifo

/-- What a call does to the list of queued nodes. A queued node is not queued
again, and nothing is taken from an empty queue. -/
def step (q : List N) : Call N → Option (List N × Option N)
  | .enq node => if node ∈ q then none else some (q ++ [node], none)
  | .deq =>
    match q with
    | [] => none
    | n :: q => some (q, some n)

def run (q : List N) : List (Call N) → Option (List N × List (Option N))
  | [] => some (q, [])
  | c :: cs => do
    let (q, r) ← step q c
    let (q, rs) ← run q cs
    return (q, r :: rs)

/-- The nodes enqueued. -/
def enqueued (cs : List (Call N)) : List N :=
  cs.filterMap fun
    | .enq node => some node
    | .deq => none

/-- Nodes are taken in the order in which they were enqueued. -/
theorem run_order {q q' : List N} {cs : List (Call N)} {rs : List (Option N)} (h : run q cs = some (q', rs)) :
    rs.reduceOption ++ q' = q ++ enqueued cs := by
  induction cs generalizing q rs with
  | nil =>
    cases h
    simp [enqueued]
  | cons c cs ih =>
    simp only [run, Option.bind_eq_bind, Option.bind_eq_some_iff] at h
    obtain ⟨⟨q₁, r⟩, hstep, ⟨q₂, rs'⟩, hrest, hlast⟩ := h
    cases hlast
    have ih := ih hrest
    cases c with
    | enq node =>
      simp only [step] at hstep
      split at hstep
      · cases hstep
      · cases hstep
        simpa [enqueued] using ih
    | deq =>
      rcases q with _ | ⟨n, q⟩
      · cases hstep
      · cases hstep
        simpa [enqueued] using ih

end Fifo

/-- The list of nodes that a queue stands for. -/
structure Holds (a : Queue N) (next : Next N) (q : List N) : Prop where
  path : Path next a.first q none
  last : a.last = q.getLast?
  size : a.size = BitVec.ofNat 32 q.length

variable {a : Queue N} {next : Next N} {q : List N}

omit [DecidableEq N] in
theorem holds_init (next : Next N) : Holds init next [] := ⟨rfl, rfl, rfl⟩

theorem enq_holds {node : N} (h : Holds a next q) (hnode : node ∉ q) : ∃ a' next',
    enq a next node = .ok (a', next') ∧ Holds a' next' (q ++ [node]) ∧ ∀ m ∉ q ++ [node], next' m = next m := by
  obtain ⟨hpath, hlast, hsize⟩ := h
  have hcount : 1 + a.size = BitVec.ofNat 32 (q ++ [node]).length := by
    rw [hsize, List.length_append, List.length_singleton, BitVec.ofNat_add, BitVec.add_comm]
    rfl
  unfold enq
  rw [hpath.head, hlast]
  rcases List.eq_nil_or_concat q with rfl | ⟨front, l, rfl⟩
  · refine ⟨_, _, rfl, ⟨⟨rfl, ?_⟩, rfl, hcount⟩, fun m hm => ?_⟩
    · exact Function.update_self ..
    · exact Function.update_of_ne (by simpa using hm) ..
  · rw [List.concat_eq_append] at *
    have hne : (front ++ [l]).head? ≠ none := by simp
    rw [if_pos hne, List.getLast?_concat, deref_some]
    refine ⟨_, _, rfl, ⟨hpath.extend hnode, by simp, hcount⟩, ?_⟩
    intro m hm
    simp only [List.mem_append, List.mem_singleton, not_or] at hm
    rw [Function.update_of_ne hm.2, Function.update_of_ne hm.1.2]

omit [DecidableEq N] in
theorem deq_holds {n : N} (h : Holds a next (n :: q)) : ∃ a', deq a next = .ok (a', n) ∧ Holds a' next q := by
  obtain ⟨⟨hfirst, hpath⟩, hlast, hsize⟩ := h
  have hcount : a.size - 1 = BitVec.ofNat 32 q.length := by
    rw [hsize, List.length_cons, BitVec.ofNat_add]
    exact BitVec.add_sub_cancel ..
  rw [deq, hfirst, deref_some]
  refine ⟨_, rfl, hpath, ?_, ?_⟩
  · rw [hpath.head]
    rcases q with _ | ⟨m, q⟩
    · rfl
    · rw [List.getLast?_cons_cons] at hlast
      simpa using hlast
  · dsimp only
    split <;> exact hcount

/-- A call that the list allows returns, does to the list what it should, and
writes to no node that is queued neither before nor after it. -/
theorem call_refines {c : Call N} {q' : List N} {r : Option N} (h : Holds a next q)
    (hstep : Fifo.step q c = some (q', r)) : ∃ a' next', call a next c = .ok (a', next', r) ∧ Holds a' next' q' ∧
      ∀ m, m ∉ q → m ∉ q' → next' m = next m := by
  cases c with
  | enq node =>
    simp only [Fifo.step] at hstep
    split at hstep
    · cases hstep
    · rename_i hnode
      cases hstep
      obtain ⟨a', next', henq, hholds, hframe⟩ := enq_holds h hnode
      exact ⟨a', next', by rw [call, henq]; rfl, hholds, fun m _ => hframe m⟩
  | deq =>
    rcases q with _ | ⟨n, q⟩
    · cases hstep
    · cases hstep
      obtain ⟨a', hdeq, hholds⟩ := deq_holds h
      exact ⟨a', next, by rw [call, hdeq]; rfl, hholds, fun _ _ _ => rfl⟩

theorem calls_refine {cs : List (Call N)} {q' : List N} {rs : List (Option N)} (h : Holds a next q)
    (hrun : Fifo.run q cs = some (q', rs)) : ∃ a' next', calls a next cs = .ok (a', next', rs) ∧ Holds a' next' q' := by
  induction cs generalizing a next q rs with
  | nil =>
    cases hrun
    exact ⟨a, next, rfl, h⟩
  | cons c cs ih =>
    simp only [Fifo.run, Option.bind_eq_bind, Option.bind_eq_some_iff] at hrun
    obtain ⟨⟨q₁, r⟩, hstep, ⟨q₂, rs'⟩, hrest, hlast⟩ := hrun
    cases hlast
    obtain ⟨a₁, next₁, hcall, h₁, -⟩ := call_refines h hstep
    obtain ⟨a', next', hcalls, h'⟩ := ih h₁ hrest
    exact ⟨a', next', by rw [calls, hcall, ok_bind]; simp only [hcalls, ok_bind]; rfl, h'⟩

/-- From `sph_queue_init` on, calls that the list allows return the nodes that
the list returns, in the order in which they were enqueued. The size counts its nodes while there are less than 2 ^ 32,
`next` leads from the first through all of them to the last, whose next is null,
and a further call writes to no node that is queued neither before nor after it. -/
theorem refines_fifo (next : Next N) {cs : List (Call N)} {q : List N} {rs : List (Option N)}
    (hrun : Fifo.run [] cs = some (q, rs)) : ∃ a next', calls init next cs = .ok (a, next', rs) ∧
      rs.reduceOption ++ q = Fifo.enqueued cs ∧ (q.length < 2 ^ 32 → a.size.toNat = q.length) ∧
      Path next' a.first q none ∧ a.last = q.getLast? ∧ (∀ l, a.last = some l → next' l = none) ∧
      ∀ c q' r, Fifo.step q c = some (q', r) → ∃ a' next'', call a next' c = .ok (a', next'', r) ∧
        ∀ m, m ∉ q → m ∉ q' → next'' m = next' m := by
  obtain ⟨a, next', hcalls, h⟩ := calls_refine (holds_init next) hrun
  refine ⟨a, next', hcalls, Fifo.run_order hrun, fun hlt => ?_, h.path, h.last, fun l hl => ?_, fun c q' r hstep => ?_⟩
  · rw [h.size, BitVec.toNat_ofNat, Nat.mod_eq_of_lt hlt]
  · obtain ⟨front, rfl⟩ := List.getLast?_eq_some_iff.1 (h.last.symm.trans hl)
    exact h.path.last
  · obtain ⟨a', next'', hcall, -, hframe⟩ := call_refines h hstep
    exact ⟨a', next'', hcall, hframe⟩

/-- Node 1 is queued again after it was taken, with the next it had then. -/
theorem refines_fifo_again : ∃ a next',
    calls init (fun _ => some 9) [.enq 1, .enq 2, .deq, .enq 1] = .ok (a, next', [none, none, some 1, none]) ∧
      Path next' a.first [2, 1] none := by
  have hfifo : Fifo.run [] [.enq 1, .enq 2, .deq, .enq 1] = some ([2, 1], [none, none, some 1, none]) := rfl
  obtain ⟨a, next', hcalls, -, -, hpath, -⟩ := refines_fifo (fun _ => some 9) hfifo
  exact ⟨a, next', hcalls, hpath⟩

end Queue
end SphSc

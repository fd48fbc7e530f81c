import Mathlib.Data.List.Nodup
import Mathlib.Logic.Function.Basic
import Mathlib.Logic.Relation
/-!
# Queues of work

What a first-in first-out queue that several workers serve is for: what is
accepted is taken in that order, and what is taken is executed once. A
`WorkQueue` carries both facts, so every system whose steps are steps of one
has them in every state.
-/

structure WorkQueue (τ : Type) [DecidableEq τ] where
  accepted : List τ
  taken : List τ
  waiting : List τ
  /-- How many workers are at it. -/
  running : τ → Nat
  done : List τ
  order : accepted = taken ++ waiting
  once : ∀ t, taken.count t = running t + done.count t

namespace WorkQueue

variable {τ : Type} [DecidableEq τ]

def empty : WorkQueue τ := ⟨[], [], [], fun _ => 0, [], rfl, fun _ => rfl⟩

def accept (q : WorkQueue τ) (t : τ) : WorkQueue τ where
  accepted := q.accepted ++ [t]
  taken := q.taken
  waiting := q.waiting ++ [t]
  running := q.running
  done := q.done
  order := by rw [q.order, List.append_assoc]
  once := q.once

/-- A worker takes what has waited longest. -/
def take (q : WorkQueue τ) {t : τ} {rest : List τ} (h : q.waiting = t :: rest) : WorkQueue τ where
  accepted := q.accepted
  taken := q.taken ++ [t]
  waiting := rest
  running := Function.update q.running t (q.running t + 1)
  done := q.done
  order := by rw [q.order, h, List.append_assoc, List.singleton_append]
  once s := by
    have := q.once s
    rw [List.count_append, this, Function.update_apply]
    by_cases hs : s = t
    · subst hs
      rw [if_pos rfl, List.count_singleton_self]
      omega
    · rw [if_neg hs, List.count_singleton, if_neg (by simpa using Ne.symm hs)]
      omega

def finish (q : WorkQueue τ) {t : τ} (h : 0 < q.running t) : WorkQueue τ where
  accepted := q.accepted
  taken := q.taken
  waiting := q.waiting
  running := Function.update q.running t (q.running t - 1)
  done := q.done ++ [t]
  order := q.order
  once s := by
    have := q.once s
    rw [List.count_append, this, Function.update_apply]
    by_cases hs : s = t
    · subst hs
      rw [if_pos rfl, List.count_singleton_self]
      omega
    · rw [if_neg hs, List.count_singleton, if_neg (by simpa using Ne.symm hs)]
      omega

/-- One step of the queue or of a worker. -/
inductive Next : WorkQueue τ → WorkQueue τ → Prop
  | accept (q : WorkQueue τ) (t : τ) : Next q (accept q t)
  | take (q : WorkQueue τ) {t : τ} {rest : List τ} (h : q.waiting = t :: rest) : Next q (take q h)
  | finish (q : WorkQueue τ) {t : τ} (h : 0 < q.running t) : Next q (finish q h)

variable {q : WorkQueue τ} {t : τ}

theorem taken_prefix : q.taken <+: q.accepted := ⟨q.waiting, q.order.symm⟩

/-- Where all that is accepted is distinct, no two workers are at the same, and
none is at what is done. -/
theorem at_most_once (hn : q.accepted.Nodup) (t : τ) : q.running t + q.done.count t ≤ 1 := by
  rw [← q.once t]
  exact List.nodup_iff_count_le_one.1 (hn.sublist taken_prefix.sublist) t

/-- When nothing waits and no worker is at anything, all that was accepted is done. -/
theorem drained (hw : q.waiting = []) (hr : ∀ t, q.running t = 0) :
    q.taken = q.accepted ∧ ∀ t, q.done.count t = q.accepted.count t := by
  have htaken : q.taken = q.accepted := by rw [q.order, hw, List.append_nil]
  refine ⟨htaken, ?_⟩
  intro t
  rw [← htaken, q.once t, hr t, Nat.zero_add]

end WorkQueue

import Mathlib.Algebra.Order.BigOperators.Group.Finset
import SphSc.Futures.Deinit
import SphSc.ThreadPool.Finishing
/-!
# The steps of `sph_future_deinit`

Threads may make futures and poll them all the while. Once the pool is shut
down it takes up no new ones, and those it has are evaluated in a bounded number
of steps.
-/
open Runs

namespace SphSc.Futures

variable {F D : Type} {s s' : State F D} {action : Action F D} {n : Nat}

/-- Steps of threads in `sph_future_new` and `sph_future_touch`, but for the signal. -/
def Action.caller : Action F D → Bool
  | .prepare _ _ _ => true
  | .enqueue _ => true
  | .poll _ => true
  | .read _ => true
  | _ => false

/-- Steps of the thread in `sph_future_deinit` and of workers. -/
def Action.inside : Action F D → Bool
  | .proceed => true
  | .deinitReturns => true
  | .work _ => true
  | .apply _ => true
  | .store _ _ => true
  | .publish _ => true
  | .complete _ => true
  | _ => false

/-- How many steps a worker takes in the rest of `sph_future_eval`. -/
def Eval.remaining : Eval → Nat
  | .entered => 3
  | .applying => 2
  | .stored => 1
  | .published => 0

/-- A worker that takes a task begins another evaluation. -/
def State.remaining (s : State F D) : Nat :=
  5 * s.pool.remaining + ∑ w ∈ Finset.range s.pool.workers.length, (s.evals w).remaining +
    if s.control = .deinit then 1 else 0

theorem sum_update_evals {n w : Nat} (hw : w < n) (evals : Nat → Eval) (e : Eval) :
    ∑ v ∈ Finset.range n, (Function.update evals w e v).remaining + (evals w).remaining =
      ∑ v ∈ Finset.range n, (evals v).remaining + e.remaining := by
  have hmem : w ∈ Finset.range n := Finset.mem_range.2 hw
  have hrest : ∑ v ∈ (Finset.range n).erase w, (Function.update evals w e v).remaining =
      ∑ v ∈ (Finset.range n).erase w, (evals v).remaining :=
    Finset.sum_congr rfl fun v hv => by rw [Function.update_of_ne (Finset.ne_of_mem_erase hv)]
  rw [← Finset.add_sum_erase _ _ hmem, ← Finset.add_sum_erase _ (fun v => (evals v).remaining) hmem, hrest,
    Function.update_self]
  omega

/-- `sph_future_deinit` is in `sph_thread_pool_finish`, past the section that
shuts the pool down, or about to return. -/
def Deiniting (s : State F D) : Prop :=
  s.control = .deinit ∧
    (s.pool.control.Finishing ThreadPool.finishFrame ∨ ThreadPool.Finished ThreadPool.finishFrame s.pool)

/-- A pool that has been finished is destroyed, and takes no step. -/
theorem not_finished_of_step {p : ThreadPool.Pool} {pa : ThreadPool.Action} (h : ThreadPool.step s.pool pa = some p) :
    ¬ ThreadPool.Finished ThreadPool.finishFrame s.pool := by
  intro hf
  have hd := ThreadPool.not_destroyed h
  simp [hf.2.2 rfl] at hd

/-- The pool takes a step. -/
theorem deiniting_pool (hi : ThreadPool.FinishInv s.pool) (hd : Deiniting s) {p : ThreadPool.Pool} {pa : ThreadPool.Action}
    (h : ThreadPool.step s.pool pa = some p) :
    p.remaining + (if pa.own then 1 else 0) ≤ s.pool.remaining ∧ p.workers.length = s.pool.workers.length ∧
      Deiniting { s with pool := p } := by
  obtain ⟨hc, hf⟩ := hd
  have hf := hf.resolve_right (not_finished_of_step h)
  obtain ⟨hlt, hnext⟩ := ThreadPool.finishing_step hi hf (ThreadPool.step_cases h)
  exact ⟨hlt, ThreadPool.finishing_workers_length hf (ThreadPool.step_cases h), hc, hnext⟩

/-- A worker goes on in `sph_future_eval`. -/
theorem remaining_setEval {w id : Nat} (hw : s.evaluated w = some id) {e : Eval}
    (hlt : e.remaining + 1 = (s.evals w).remaining) (hpool : s'.pool = s.pool) (hc : s'.control = s.control)
    (hev : s'.evals = Function.update s.evals w e) : s'.remaining + 1 ≤ s.remaining := by
  have hlen : w < s.pool.workers.length := by
    unfold State.evaluated at hw
    split at hw
    · rename_i hrunning
      exact (List.getElem?_eq_some_iff.1 hrunning).1
    · cases hw
  have hsum := sum_update_evals hlen s.evals e
  simp only [State.remaining, hpool, hc, hev]
  omega

/-- The pool, the control thread and the evaluations are as they were. -/
theorem deinit_same (hd : Deiniting s) (hpool : s'.pool = s.pool) (hc : s'.control = s.control) (hev : s'.evals = s.evals) :
    s'.remaining ≤ s.remaining ∧ Deiniting s' := by
  refine ⟨by simp only [State.remaining, hpool, hc, hev, Nat.le_refl], ?_⟩
  unfold Deiniting
  rw [hc, hpool]
  exact hd

theorem deinit_step (hi : ThreadPool.FinishInv s.pool) (hd : Deiniting s) (h : step s action = some s') :
    s'.remaining + (if action.caller then 0 else 1) ≤ s.remaining ∧
      (Deiniting s' ∨ s'.control = .idle ∧ s'.deinited = true) := by
  cases action with
  | create success | proceed | signal target | wakeUp w =>
    obtain ⟨p, hp, rfl⟩ := poolStep_eq h
    obtain ⟨hlt, hlen, hnext⟩ := deiniting_pool hi hd hp
    refine ⟨?_, .inl hnext⟩
    simp only [ThreadPool.Action.own, if_true] at hlt
    simp only [State.remaining, hlen, Action.caller, Bool.false_eq_true, if_false]
    omega
  | init =>
    simp [step, State.init, hd.1] at h
  | initReturns =>
    simp [step, State.initReturns, hd.1] at h
  | deinit =>
    simp [step, State.deinit, hd.1] at h
  | deinitReturns =>
    simp only [step, State.deinitReturns] at h
    split at h
    · rename_i hc _
      cases h
      refine ⟨?_, .inr ⟨rfl, rfl⟩⟩
      simp [State.remaining, hc, Action.caller]
    · cases h
  | prepare id f data =>
    cases h
    have hsame : (s.prepare id f data).remaining ≤ s.remaining ∧ Deiniting (s.prepare id f data) :=
      deinit_same hd rfl rfl rfl
    obtain ⟨hle, hnext⟩ := hsame
    exact ⟨hle, .inl hnext⟩
  | enqueue id =>
    simp only [step, State.enqueue] at h
    split at h
    · obtain ⟨s₁, hs₁, rfl⟩ := Option.map_eq_some_iff.1 h
      obtain ⟨p, hp, rfl⟩ := poolStep_eq hs₁
      obtain ⟨hlt, hlen, hnext⟩ := deiniting_pool hi hd hp
      refine ⟨?_, .inl hnext⟩
      simp only [ThreadPool.Action.own, Bool.false_eq_true, if_false] at hlt
      simp only [State.remaining, hlen, Action.caller, if_true]
      omega
    · cases h
  | poll id =>
    cases h
    have hsame : (s.poll id).pool = s.pool ∧ (s.poll id).control = s.control ∧ (s.poll id).evals = s.evals := by
      unfold State.poll
      split <;> exact ⟨rfl, rfl, rfl⟩
    obtain ⟨hle, hnext⟩ := deinit_same hd hsame.1 hsame.2.1 hsame.2.2
    exact ⟨hle, .inl hnext⟩
  | read id =>
    simp only [step, State.read] at h
    split at h
    · cases h
      obtain ⟨hle, hnext⟩ := deinit_same hd rfl rfl rfl
      exact ⟨hle, .inl hnext⟩
    · cases h
  | work w =>
    obtain ⟨s₁, hs₁, rfl⟩ := Option.map_eq_some_iff.1 h
    obtain ⟨p, hp, rfl⟩ := poolStep_eq hs₁
    obtain ⟨hlt, hlen, hnext⟩ := deiniting_pool hi hd hp
    refine ⟨?_, .inl hnext⟩
    have hw : w < s.pool.workers.length := by
      cases ThreadPool.step_cases hp with
      | block hw | exit hw | take hw => exact (List.getElem?_eq_some_iff.1 hw).1
    have hsum := sum_update_evals hw s.evals .entered
    simp only [ThreadPool.Action.own, if_true] at hlt
    rw [show Eval.entered.remaining = 3 from rfl] at hsum
    simp only [State.remaining, State.setEval, hlen, hd.1, if_true, Action.caller, Bool.false_eq_true, if_false]
    omega
  | apply w =>
    simp only [step, State.apply] at h
    split at h
    · rename_i id hw he
      cases h
      exact ⟨remaining_setEval hw (by rw [he]; rfl) rfl rfl rfl, .inl hd⟩
    · cases h
  | store w result =>
    simp only [step, State.store] at h
    split at h
    · rename_i id hw he
      cases h
      exact ⟨remaining_setEval hw (by rw [he]; rfl) rfl rfl rfl, .inl hd⟩
    · cases h
  | publish w =>
    simp only [step, State.publish] at h
    split at h
    · rename_i id hw he
      cases h
      exact ⟨remaining_setEval hw (by rw [he]; rfl) rfl rfl rfl, .inl hd⟩
    · cases h
  | complete w =>
    simp only [step, State.complete] at h
    split at h
    · obtain ⟨p, hp, rfl⟩ := poolStep_eq h
      obtain ⟨hlt, hlen, hnext⟩ := deiniting_pool hi hd hp
      refine ⟨?_, .inl hnext⟩
      simp only [ThreadPool.Action.own, if_true] at hlt
      simp only [State.remaining, hlen, Action.caller, Bool.false_eq_true, if_false]
      omega
    · cases h

theorem remaining_le (s : State F D) : s.remaining ≤
    10 * s.pool.queue.length + 13 * s.pool.workers.length + 5 * s.pool.signals + 5 * s.pool.size + 31 := by
  have hpool := ThreadPool.remaining_le s.pool
  have heval : ∀ e : Eval, e.remaining ≤ 3 := by
    intro e
    cases e <;> decide
  have hsum : ∑ w ∈ Finset.range s.pool.workers.length, (s.evals w).remaining ≤ s.pool.workers.length * 3 := by
    simpa using Finset.sum_le_card_nsmul (Finset.range s.pool.workers.length) (fun w => (s.evals w).remaining) 3
      fun w _ => heval _
  have hcontrol : (if s.control = .deinit then 1 else 0) ≤ 1 := by split <;> decide
  unfold State.remaining
  omega

section
variable {limit junk : Nat} {objects : Nat → Future F D} {as bs : List (Action F D)} (hn : 1 ≤ n)
  (hr : Run step Used (start limit n junk objects) as s) (hd : Deiniting s)
  (h : Run step (fun s action => Used s action ∧ s.control = .deinit) s bs s')
include hn hr hd h

theorem deiniting_run : s'.remaining + bs.countP (fun action => !action.caller) ≤ s.remaining ∧
    (Deiniting s' ∨ s'.control = .idle ∧ s'.deinited = true) := by
  induction h with
  | nil => exact ⟨Nat.le_refl _, .inl hd⟩
  | @snoc bs action s₁ s₂ hprev hok hs ih =>
    obtain ⟨hle, hnow⟩ := ih
    have hd₁ : Deiniting s₁ := hnow.resolve_right fun hidle => by simp [hok.2] at hidle
    obtain ⟨-, _, hp⟩ := futureInv_run hn (hr.append (hprev.mono fun _ _ => And.left))
    obtain ⟨hlt, hnext⟩ := deinit_step (ThreadPool.finishInv_run hp) hd₁ hs
    refine ⟨?_, hnext⟩
    rw [List.countP_append, List.countP_singleton]
    cases hcaller : action.caller <;>
      simp only [hcaller, if_true, if_false, Bool.not_true, Bool.not_false, Bool.false_eq_true] at hlt ⊢ <;> omega

/-- What is left to do bounds the steps of the thread in `sph_future_deinit`, of
workers and of signals. -/
theorem own_steps_le : bs.countP (fun action => !action.caller) ≤
    10 * s.pool.queue.length + 13 * s.pool.workers.length + 5 * s.pool.signals + 5 * s.pool.size + 31 := by
  have hle := (deiniting_run hn hr hd h).1
  have hbound := remaining_le s
  omega

end

end SphSc.Futures

import SphSc.Futures.Returning
/-!
# Futures that touch futures

A future's function may touch futures itself. The worker that applies it is in
`sph_future_touch` until they are finished, and takes no other task meanwhile.
When all workers are, and what they wait for is still queued, there is no one to
evaluate it, and `sph_future_deinit` waits for ever. That does not happen where
futures only touch such as the pool has accepted before them: the queue is first
in first out, so these are with a worker already.
-/
open Runs

namespace SphSc.Futures

variable {F D : Type} {s s' : State F D} {action : Action F D} {n : Nat} {touches : Nat → List Nat}

/-- The function of a future returns after the futures that it touches are finished. -/
def Waits (touches : Nat → List Nat) (s : State F D) : Action F D → Prop
  | .store w _ => ∀ id, s.evaluated w = some id → ∀ touched ∈ touches id, (s.objects touched).finished = true
  | _ => True

/-- When the pool accepts a future, it has accepted those that its function touches. -/
def Earlier (touches : Nat → List Nat) (s : State F D) : Action F D → Prop
  | .enqueue id => s.pool.accepting = true → ∀ touched ∈ touches id, .user touched ∈ s.pool.log.accepted
  | _ => True

/-- The worker is in the loop of `sph_future_touch`, in a future's function. -/
def Polling (touches : Nat → List Nat) (s : State F D) (w : Nat) : Prop :=
  ∃ id, s.evaluated w = some id ∧ s.evals w = .applying ∧ ∃ touched ∈ touches id, (s.objects touched).finished = false

/-- A worker polls, and so does every other that has not exited. -/
structure Stuck (touches : Nat → List Nat) (s : State F D) : Prop where
  each : ∀ (w : Nat) (worker : ThreadPool.Worker), s.pool.workers[w]? = some worker →
    worker = .exited ∨ Polling touches s w
  polls : ∃ w, Polling touches s w

theorem evaluated_eq {w id : Nat} (h : s.evaluated w = some id) : s.pool.workers[w]? = some (.running (.user id)) := by
  unfold State.evaluated at h
  split at h
  · simp_all
  · cases h

theorem evaluated_of_running {w id : Nat} (h : s.pool.workers[w]? = some (.running (.user id))) :
    s.evaluated w = some id := by
  simp [State.evaluated, h]

/-! ## Someone can go on, or all are stuck -/

/-- A worker that does not poll goes on in `sph_future_eval`, or returns from it. -/
theorem running_goes_on {w id : Nat} (hw : s.pool.workers[w]? = some (.running (.user id)))
    (hcomplete : (ThreadPool.step s.pool (.complete w)).isSome = true) (hpoll : ¬ Polling touches s w) :
    ∃ action : Action F D, action.inside = true ∧ (step s action).isSome = true ∧ Waits touches s action := by
  have hev := evaluated_of_running hw
  cases he : s.evals w with
  | entered => exact ⟨.apply w, rfl, by simp [step, State.apply, hev, he], trivial⟩
  | applying =>
    refine ⟨.store w (s.objects id).data, rfl, by simp [step, State.store, hev, he], ?_⟩
    intro id' hid' touched ht
    -- else the worker would poll for it
    by_contra hunfinished
    exact hpoll ⟨id', hid', he, touched, ht, by simpa using hunfinished⟩
  | stored => exact ⟨.publish w, rfl, by simp [step, State.publish, hev, he], trivial⟩
  | published => exact ⟨.complete w, rfl, by simpa [step, State.complete, he, State.poolStep] using hcomplete, trivial⟩

theorem goes_on_or_stuck (hi : ThreadPool.FinishInv s.pool) (hserved : ThreadPool.ServedInv n s.pool) (hd : Deiniting s) :
    (∃ action : Action F D, action.inside = true ∧ (step s action).isSome = true ∧ Waits touches s action) ∨
      Stuck touches s := by
  obtain ⟨hc, hfin | hdone⟩ := hd
  · by_cases hgo : ∃ action : Action F D, action.inside = true ∧ (step s action).isSome = true ∧ Waits touches s action
    · exact .inl hgo
    have hproceed : (ThreadPool.step s.pool .proceed).isSome = false := by
      by_contra hp
      exact hgo ⟨.proceed, rfl, by simpa [step, State.poolStep] using Bool.eq_true_of_not_eq_false hp, trivial⟩
    have hwork : ∀ w, (ThreadPool.step s.pool (.work w)).isSome = false := by
      intro w
      by_contra hw
      exact hgo ⟨.work w, rfl, by simpa [step, State.work, State.poolStep] using Bool.eq_true_of_not_eq_false hw, trivial⟩
    have hcomplete : ∀ w, (ThreadPool.step s.pool (.complete w)).isSome = true → Polling touches s w := by
      intro w hw
      obtain ⟨p, hp⟩ := Option.isSome_iff_exists.1 hw
      by_contra hpoll
      cases ThreadPool.step_cases hp with
      | complete hrunning => exact hgo (running_goes_on hrunning hw hpoll)
      | threadFinish hrunning => exact hserved.returning.2 (ThreadPool.mem_of_worker hrunning)
    have hdestroyed : s.pool.destroyed = false := by
      cases hdestroyed : s.pool.destroyed with
      | false => rfl
      | true => exact absurd (by rw [hi.destroyed hdestroyed]; rfl) hfin.frame_ne
    refine .inr ⟨?_, ?_⟩
    · intro w worker hw
      by_cases hexit : worker = .exited
      · exact .inl hexit
      right
      apply hcomplete w
      refine (ThreadPool.worker_goes_on hdestroyed hw hexit ?_).resolve_left (by simp [hwork w])
      -- a worker is only blocked until the broadcast
      rintro rfl
      obtain ⟨f, hf⟩ := hi.wake.shutdown (hi.stopped _ hfin).2 (ThreadPool.mem_of_worker hw)
      simp [ThreadPool.step, hdestroyed, ThreadPool.Pool.proceed, hf] at hproceed
    · rcases ThreadPool.finishing_goes_on hi hfin with hp | ⟨w, hw | hw⟩
      · simp [hproceed] at hp
      · simp [hwork w] at hw
      · exact ⟨w, hcomplete w hw⟩
  · refine .inl ⟨.deinitReturns, rfl, ?_, trivial⟩
    have hreturned : s.pool.returned = some (.resize 0 false false, .ok) := hdone.2.1
    simp [step, State.deinitReturns, hc, hreturned]

/-! ## Stuck for ever -/

section
open ThreadPool
variable {a a' : Pool} {pa : ThreadPool.Action}

/-- Workers that have exited or are in a task's function do nothing by themselves. -/
theorem workers_eq {f : Frame} (hf : a.control.Finishing f) (hawake : .awake ∉ a.workers) (hblocked : .blocked ∉ a.workers)
    (hpa : ∀ w, pa ≠ .complete w) (h : Step a pa a') : a'.workers = a.workers := by
  have hall : a.wakeAll.workers = a.workers := by
    refine (List.map_congr_left fun worker hworker => ?_).trans (List.map_id _)
    exact if_neg fun hb : worker = .blocked => hblocked (hb ▸ hworker)
  cases h with
  | created hc | grew hc => exact absurd (by rw [hc]; rfl) hf.frame_ne
  | complete | threadFinish => exact absurd rfl (hpa _)
  | broadcastShutdown | broadcastDiscard => exact hall
  | signalled _ hw | finishSignalled _ hw =>
    rcases wake_cases hw with ⟨-, rfl⟩ | ⟨w, hb, -⟩
    · rfl
    · exact absurd (mem_of_worker hb) hblocked
  | block hw | exit hw | take hw => exact absurd (mem_of_worker hw) hawake
  | wakeUp hw => exact absurd (mem_of_worker hw) hblocked
  | _ => simp

end

theorem Polling.running {w : Nat} (h : Polling touches s w) : ∃ id, s.pool.workers[w]? = some (.running (.user id)) := by
  obtain ⟨id, hw, -⟩ := h
  exact ⟨id, evaluated_eq hw⟩

theorem Stuck.not_mem (h : Stuck touches s) {worker : ThreadPool.Worker} (hexit : worker ≠ .exited)
    (hrunning : ∀ t, worker ≠ .running t) : worker ∉ s.pool.workers := by
  intro hmem
  obtain ⟨w, hw⟩ := List.mem_iff_getElem?.1 hmem
  rcases h.each w worker hw with rfl | hpoll
  · exact hexit rfl
  · obtain ⟨id, hid⟩ := hpoll.running
    exact hrunning _ (Option.some.inj (hw.symm.trans hid))

/-- A worker that evaluates a future polls. -/
theorem Stuck.polling (h : Stuck touches s) {w id : Nat} (hw : s.evaluated w = some id) : Polling touches s w := by
  apply (h.each w _ (evaluated_eq hw)).resolve_left
  exact ThreadPool.Worker.noConfusion

/-- The workers are as they were, and nothing has been finished. -/
theorem Stuck.of_same (h : Stuck touches s) (hw : s'.pool.workers = s.pool.workers) (hev : s'.evals = s.evals)
    (hobj : ∀ id, (s.objects id).finished = false → (s'.objects id).finished = false) : Stuck touches s' := by
  have hpolling : ∀ w, Polling touches s w → Polling touches s' w := by
    rintro w ⟨id, hid, he, touched, ht, hunfinished⟩
    refine ⟨id, ?_, by rw [hev]; exact he, touched, ht, hobj _ hunfinished⟩
    unfold State.evaluated
    rw [hw]
    exact hid
  refine ⟨fun w worker hworker => ?_, h.polls.imp hpolling⟩
  rw [hw] at hworker
  exact (h.each w worker hworker).imp_right (hpolling w)

/-- The pool takes a step, and no function returns. -/
theorem Stuck.of_pool (h : Stuck touches s) (hd : Deiniting s) {p : ThreadPool.Pool} {pa : ThreadPool.Action}
    (hstep : ThreadPool.step s.pool pa = some p) (hpa : ∀ w, pa ≠ .complete w) : p.workers = s.pool.workers := by
  have hf := hd.2.resolve_right (not_finished_of_step hstep)
  exact workers_eq hf (h.not_mem (by simp) (by simp)) (h.not_mem (by simp) (by simp)) hpa (ThreadPool.step_cases hstep)

theorem stuck_step (h : Stuck touches s) (hd : Deiniting s) (hok : Waits touches s action) (hs : step s action = some s') :
    Stuck touches s' := by
  have hsame : ∀ id, (s.objects id).finished = false → (s.objects id).finished = false := fun _ => id
  cases action with
  | create success | proceed | signal target | wakeUp w =>
    obtain ⟨p, hp, rfl⟩ := poolStep_eq hs
    exact h.of_same (h.of_pool hd hp (by simp)) rfl hsame
  | enqueue id =>
    simp only [step, State.enqueue] at hs
    split at hs
    · obtain ⟨s₁, hs₁, rfl⟩ := Option.map_eq_some_iff.1 hs
      obtain ⟨p, hp, rfl⟩ := poolStep_eq hs₁
      exact h.of_same (h.of_pool hd hp (by simp)) rfl hsame
    · cases hs
  | init | initReturns | deinit =>
    simp [step, State.init, State.initReturns, State.deinit, hd.1] at hs
  | deinitReturns =>
    simp only [step, State.deinitReturns] at hs
    split at hs
    · cases hs
      exact h.of_same rfl rfl hsame
    · cases hs
  | prepare id f data =>
    cases hs
    refine h.of_same rfl rfl fun id' hunfinished => ?_
    simp only [State.prepare, State.setRecord, State.setObject, Function.update_apply]
    split
    · rfl
    · exact hunfinished
  | poll id =>
    cases hs
    unfold State.poll
    split
    · exact h.of_same rfl rfl hsame
    · exact h
  | read id =>
    simp only [step, State.read] at hs
    split at hs
    · cases hs
      exact h.of_same rfl rfl hsame
    · cases hs
  | work w =>
    obtain ⟨s₁, hs₁, rfl⟩ := Option.map_eq_some_iff.1 hs
    obtain ⟨p, hp, rfl⟩ := poolStep_eq hs₁
    cases ThreadPool.step_cases hp with
    | block hw | exit hw | take hw => exact absurd (ThreadPool.mem_of_worker hw) (h.not_mem (by simp) (by simp))
  | apply w | publish w =>
    simp only [step, State.apply, State.publish] at hs
    split at hs
    · rename_i id hid he
      obtain ⟨-, -, happlying, -⟩ := h.polling hid
      rw [he] at happlying
      cases happlying
    · cases hs
  | store w result =>
    simp only [step, State.store] at hs
    split at hs
    · rename_i id hid he
      -- it has yet to find finished what it polls for
      obtain ⟨id', hid', -, touched, ht, hunfinished⟩ := h.polling hid
      rw [hok id' hid' touched ht] at hunfinished
      cases hunfinished
    · cases hs
  | complete w =>
    simp only [step, State.complete] at hs
    split at hs
    · rename_i he
      obtain ⟨p, hp, rfl⟩ := poolStep_eq hs
      cases ThreadPool.step_cases hp with
      | complete hw =>
        obtain ⟨-, -, happlying, -⟩ := h.polling (evaluated_of_running hw)
        rw [he] at happlying
        cases happlying
      | threadFinish hw => exact absurd (h.each w _ hw) (by simp [Polling, State.evaluated, hw])
    · cases hs

/-! ## Nobody is stuck -/

/-- What a future touches is before it. -/
def Ordered (touches : Nat → List Nat) (accepted : List ThreadPool.Task) : Prop :=
  ∀ id, .user id ∈ accepted → ∀ touched ∈ touches id, accepted.idxOf (.user touched) < accepted.idxOf (.user id)

theorem Ordered.append {accepted : List ThreadPool.Task} (h : Ordered touches accepted) {id : Nat}
    (hid : .user id ∉ accepted)
    (hearlier : ∀ touched ∈ touches id, .user touched ∈ accepted) : Ordered touches (accepted ++ [.user id]) := by
  intro id' hid' touched ht
  rcases List.mem_append.1 hid' with hold | hnew
  · have hlt := h id' hold touched ht
    have hmem : .user touched ∈ accepted := List.idxOf_lt_length_iff.1 (Nat.lt_trans hlt (List.idxOf_lt_length_iff.2 hold))
    rwa [List.idxOf_append_of_mem hmem, List.idxOf_append_of_mem hold]
  · obtain rfl : id' = id := by simpa using hnew
    have hmem := hearlier touched ht
    rw [List.idxOf_append_of_mem hmem, List.idxOf_append_of_notMem hid]
    exact Nat.lt_of_lt_of_le (List.idxOf_lt_length_iff.2 hmem) (Nat.le_add_right _ _)

theorem accepted_cases {a a' : ThreadPool.Pool} {pa : ThreadPool.Action} (hi : ThreadPool.ServedInv n a)
    (h : ThreadPool.Step a pa a') : a'.log.accepted = a.log.accepted ∨
      ∃ t, pa = .enqueue (some t) ∧ a.accepting = true ∧ a'.log.accepted = a.log.accepted ++ [t] := by
  have hserves := hi.control
  cases h with
  | accepted hu hyes => exact .inr ⟨_, rfl, hyes, rfl⟩
  | finishQueued hc =>
    rw [hc] at hserves
    exact absurd hserves id
  | signalled _ hw | finishSignalled _ hw =>
    rw [ThreadPool.wake_same hw]
    exact .inl rfl
  | _ => exact .inl (by simp)

section
variable {limit junk : Nat} {bs : List ThreadPool.Action} (hn : 1 ≤ n)
  (hp : Run ThreadPool.step ThreadPool.Served (ThreadPool.start limit n junk) bs s.pool) (hi : FutureInv s)
include hn hp hi

theorem ordered_step (ho : Ordered touches s.pool.log.accepted) (hused : Used s action) (hearlier : Earlier touches s action)
    (hs : step s action = some s') : Ordered touches s'.pool.log.accepted := by
  have hpool := step_pool hs
  split at hpool
  · rename_i pa hpa
    have hserved := served_of_used hi hused hs hpa
    rcases accepted_cases (ThreadPool.servedInv_run hn hp) (ThreadPool.step_cases hpool) with hsame | ⟨t, rfl, hyes, hacc⟩
    · rwa [hsame]
    · obtain ⟨id, rfl, hid, -⟩ := hserved t rfl
      rw [hacc]
      apply ho.append hid
      cases action with
      | enqueue id' =>
        cases hpa
        exact hearlier hyes
      | deinit =>
        simp only [poolAction] at hpa
        split at hpa <;> cases hpa
      | _ => cases hpa
  · rwa [hpool]

/-- The one with the first of the futures that workers evaluate does not poll:
what that touches was taken before it, and is finished. -/
theorem not_stuck (ho : Ordered touches s.pool.log.accepted) : ¬ Stuck touches s := by
  intro h
  obtain ⟨q, hrep, -⟩ := ThreadPool.refines_workQueue hn hp
  have hprefix : s.pool.log.dequeued <+: s.pool.log.accepted := by
    rw [hrep.taken, hrep.accepted]
    exact q.taken_prefix
  have htaken_iff := List.IsPrefix.mem_iff_idxOf_lt_length hprefix
  have hbefore : ∀ w id, s.evaluated w = some id → ∃ w' id', s.evaluated w' = some id' ∧
      s.pool.log.accepted.idxOf (.user id') < s.pool.log.accepted.idxOf (.user id) := by
    intro w id hw
    obtain ⟨id', hid', -, touched, ht, hunfinished⟩ := h.polling hw
    obtain rfl : id' = id := Option.some.inj (hid'.symm.trans hw)
    have hdequeued := dequeued_of_running hn hp (evaluated_eq hw)
    have hlt := ho id' (ThreadPool.accepted_of_dequeued hn hp hdequeued) touched ht
    have htaken := (htaken_iff _).2 (hlt.trans ((htaken_iff _).1 hdequeued))
    rcases (ThreadPool.dequeued_iff hn hp touched).1 htaken with hrunning | hdone
    · obtain ⟨w', hw'⟩ := List.mem_iff_getElem?.1 hrunning
      exact ⟨w', touched, evaluated_of_running hw', hlt⟩
    · obtain ⟨f, d, hnew⟩ := hi.made (ThreadPool.accepted_of_dequeued hn hp htaken)
      obtain ⟨v, ho, -⟩ := (hi.each touched).completed f d hnew hdone
      simp [ho] at hunfinished
  have hnone : ∀ k w id, s.evaluated w = some id → s.pool.log.accepted.idxOf (.user id) ≠ k := by
    intro k
    induction k using Nat.strong_induction_on with
    | _ k ih =>
      rintro w id hw rfl
      obtain ⟨w', id', hw', hlt⟩ := hbefore w id hw
      exact ih _ hlt w' id' hw' rfl
  obtain ⟨w, id, hw, -⟩ := h.polls
  exact hnone _ w id hw rfl

end

/-! ## `sph_future_deinit` -/

section
variable {limit junk : Nat} {objects : Nat → Future F D} {as bs : List (Action F D)} (hn : 1 ≤ n)
include hn

/-- The workers have exited when it has returned. -/
theorem exited_of_deinited (hr : Run step Used (start limit n junk objects) as s) (hde : s.deinited = true) :
    ∀ worker ∈ s.pool.workers, worker = .exited := by
  obtain ⟨-, _, hp⟩ := futureInv_run hn hr
  obtain ⟨-, -, code, hreturned⟩ := (deinitInv_run hn hr).ended hde
  have hjoin := ThreadPool.joinInv_run (hp.mono fun _ _ hok => ThreadPool.not_lowersUnwaited hok)
  exact hjoin.exited (ThreadPool.controlInv_run hp) hreturned

theorem stuck_run (hr : Run step Used (start limit n junk objects) as s) (hd : Deiniting s) (hstuck : Stuck touches s)
    (h : Run step (fun s action => Used s action ∧ Waits touches s action) s bs s') : Deiniting s' ∧ Stuck touches s' := by
  induction h with
  | nil => exact ⟨hd, hstuck⟩
  | snoc hprev hok hs ih =>
    have hr₁ := hr.append (hprev.mono fun _ _ => And.left)
    obtain ⟨-, _, hp⟩ := futureInv_run hn hr₁
    have hstuck' := stuck_step ih.2 ih.1 hok.2 hs
    refine ⟨?_, hstuck'⟩
    rcases (deinit_step (ThreadPool.finishInv_run hp) ih.1 hs).2 with hd' | ⟨-, hde⟩
    · exact hd'
    · obtain ⟨w, hpoll⟩ := hstuck'.polls
      obtain ⟨id, hw⟩ := hpoll.running
      have := exited_of_deinited hn (hr₁.snoc hok.1 hs) hde _ (ThreadPool.mem_of_worker hw)
      cases this

/-- Futures may touch any others, and but for that their functions return. Then
`sph_future_deinit` returns, in any order of steps in which it and the workers are
not left out for ever, unless the workers come to be stuck, and then it never does.
Polls, and what else a function does inside, are no steps. -/
theorem deinit_returns_or_sticks (hr : Run step Used (start limit n junk objects) as s) (hd : Deiniting s)
    (h : Run step (fun s action => (Used s action ∧ Waits touches s action) ∧ s.control = .deinit) s bs s') :
    bs.countP (fun action => !action.caller) ≤
        10 * s.pool.queue.length + 13 * s.pool.workers.length + 5 * s.pool.signals + 5 * s.pool.size + 31 ∧
      (s'.control = .idle ∧ s'.deinited = true ∨
        (s'.control = .deinit ∧
          ∃ action : Action F D, action.inside = true ∧ (step s' action).isSome = true ∧ Waits touches s' action) ∨
        (Stuck touches s' ∧ ∀ cs s'', Run step (fun s action => Used s action ∧ Waits touches s action) s' cs s'' →
          s''.control = .deinit)) := by
  have h' := h.mono fun _ _ hok => And.intro hok.1.1 hok.2
  refine ⟨own_steps_le hn hr hd h', ?_⟩
  rcases (deiniting_run hn hr hd h').2 with hd' | hidle
  · have hr' := hr.append (h'.mono fun _ _ => And.left)
    obtain ⟨-, _, hp⟩ := futureInv_run hn hr'
    rcases @goes_on_or_stuck F D _ _ touches (ThreadPool.finishInv_run hp) (ThreadPool.servedInv_run hn hp) hd' with
      hgo | hstuck
    · exact .inr (.inl ⟨hd'.1, hgo⟩)
    · exact .inr (.inr ⟨hstuck, fun cs s'' hcs => (stuck_run hn hr' hd' hstuck hcs).1.1⟩)
  · exact .inl hidle

end

/-- The future 3 touches 4, which is queued behind it. -/
def touchesLater (id : Nat) : List Nat := if id = 3 then [4] else []

def applyLater : List (Action Unit Nat) :=
  [.create true, .proceed, .initReturns, .prepare 3 () 10, .enqueue 3, .prepare 4 () 11, .enqueue 4, .work 0, .apply 0,
    .deinit, .proceed]

theorem run_applyLater : ∃ s s' : State Unit Nat, Run step Used (start 1 1 0 fun _ => ⟨true, (), 99⟩) applyLater s ∧
    Deiniting s ∧
    Run step (fun s action => (Used s action ∧ Waits touchesLater s action) ∧ s.control = .deinit) s [.proceed] s' ∧
    Stuck touchesLater s' := by
  have hpoll : ∀ s : State Unit Nat, s.evaluated 0 = some 3 → s.evals 0 = .applying → (s.objects 4).finished = false →
      Polling touchesLater s 0 := fun s hw he hunfinished => ⟨3, hw, he, 4, by decide, hunfinished⟩
  refine ⟨_, _, .cons rfl rfl (.cons trivial rfl (.cons trivial rfl (.cons rfl rfl (.cons trivial rfl (.cons rfl rfl
      (run_of_exec_of (by simp [Used]) rfl)))))),
    ⟨rfl, .inl ⟨rfl, rfl, fun _ => ThreadPool.Control.noConfusion⟩⟩, .single ⟨⟨trivial, trivial⟩, rfl⟩ rfl, ?_, 0, ?_⟩
  · intro w worker hw
    cases w with
    | zero => exact .inr (hpoll _ rfl rfl rfl)
    | succ w => cases hw
  · exact hpoll _ rfl rfl rfl

theorem deinit_sticks_later : ∃ s s' : State Unit Nat, Stuck touchesLater s' ∧
    [Action.proceed (F := Unit) (D := Nat)].countP (fun action => !action.caller) ≤
        10 * s.pool.queue.length + 13 * s.pool.workers.length + 5 * s.pool.signals + 5 * s.pool.size + 31 ∧
      (s'.control = .idle ∧ s'.deinited = true ∨
        (s'.control = .deinit ∧ ∃ action : Action Unit Nat, action.inside = true ∧ (step s' action).isSome = true ∧
          Waits touchesLater s' action) ∨
        (Stuck touchesLater s' ∧
          ∀ cs s'', Run step (fun s action => Used s action ∧ Waits touchesLater s action) s' cs s'' →
            s''.control = .deinit)) := by
  obtain ⟨s, s', hr, hd, h, hstuck⟩ := run_applyLater
  exact ⟨s, s', hstuck, deinit_returns_or_sticks (by decide) hr hd h⟩

section
variable {limit junk : Nat} {objects : Nat → Future F D} {as bs : List (Action F D)} (hn : 1 ≤ n)
include hn

theorem ordered_run
    (hr : Run step (fun s action => Used s action ∧ Earlier touches s action) (start limit n junk objects) as s) :
    Ordered touches s.pool.log.accepted := by
  refine hr.inv₂ (I := fun s => Ordered touches s.pool.log.accepted)
    (fun _ _ hr' => futureInv_run hn (hr'.mono fun _ _ => And.left)) (fun _ hid => absurd hid List.not_mem_nil) ?_
  rintro s action s' ⟨hi, bs, hp⟩ ho hok hs
  exact ordered_step hn hp hi ho hok.1 hok.2 hs

/-- Nothing is accepted any more once the pool is shut down. -/
theorem earlier_run (hr : Run step Used (start limit n junk objects) as s) (hd : Deiniting s)
    (h : Run step (fun s action => Used s action ∧ s.control = .deinit) s bs s') :
    Run step (fun s action => Used s action ∧ Earlier touches s action) s bs s' := by
  induction h with
  | nil => exact .nil
  | @snoc bs action s₁ s₂ hprev hok hs ih =>
    have hd₁ : Deiniting s₁ := (deiniting_run hn hr hd hprev).2.resolve_right fun hidle => by simp [hok.2] at hidle
    obtain ⟨-, _, hp⟩ := futureInv_run hn (hr.append (hprev.mono fun _ _ => And.left))
    refine ih.snoc ⟨hok.1, ?_⟩ hs
    cases action with
    | enqueue id =>
      intro hyes
      simp only [step, State.enqueue] at hs
      split at hs
      · obtain ⟨s₃, hs₃, rfl⟩ := Option.map_eq_some_iff.1 hs
        obtain ⟨p, hstep, rfl⟩ := poolStep_eq hs₃
        have hf := hd₁.2.resolve_right (not_finished_of_step hstep)
        simp [((ThreadPool.finishInv_run hp).stopped _ hf).1] at hyes
      · cases hs
    | _ => trivial

/-- Where futures only touch such as the pool has accepted before them, and their
functions return but for that, with however few workers, `sph_future_deinit`
returns, in any order of steps in which it and the workers are not left out for
ever. Polls, and what else a function does inside, `sph_future_new` too, are no
steps. -/
theorem deinit_returns_of_earlier
    (hr : Run step (fun s action => Used s action ∧ Earlier touches s action) (start limit n junk objects) as s)
    (hd : Deiniting s)
    (h : Run step (fun s action => (Used s action ∧ Waits touches s action) ∧ s.control = .deinit) s bs s') :
    bs.countP (fun action => !action.caller) ≤
        10 * s.pool.queue.length + 13 * s.pool.workers.length + 5 * s.pool.signals + 5 * s.pool.size + 31 ∧
      (s'.control = .idle ∧ s'.deinited = true ∨
        s'.control = .deinit ∧
          ∃ action : Action F D, action.inside = true ∧ (step s' action).isSome = true ∧ Waits touches s' action) := by
  have hused := hr.mono fun _ _ => And.left
  have h' := h.mono fun _ _ hok => And.intro hok.1.1 hok.2
  refine ⟨own_steps_le hn hused hd h', ?_⟩
  rcases (deiniting_run hn hused hd h').2 with hd' | hidle
  · obtain ⟨hi, _, hp⟩ := futureInv_run hn (hused.append (h'.mono fun _ _ => And.left))
    have ho := ordered_run hn (hr.append (earlier_run hn hused hd h'))
    have hgo := @goes_on_or_stuck F D _ _ touches (ThreadPool.finishInv_run hp) (ThreadPool.servedInv_run hn hp) hd'
    exact .inr ⟨hd'.1, hgo.resolve_right (not_stuck hn hp hi ho)⟩
  · exact .inl hidle

end

/-- The future 4 touches 3, which is queued before it. -/
def touchesEarlier (id : Nat) : List Nat := if id = 4 then [3] else []

def enqueueBoth : List (Action Unit Nat) :=
  [.create true, .proceed, .initReturns, .prepare 3 () 10, .enqueue 3, .prepare 4 () 11, .enqueue 4, .deinit, .proceed]

/-- The only worker evaluates one after the other. -/
def evaluateBoth : List (Action Unit Nat) :=
  [.proceed, .work 0, .apply 0, .store 0 20, .publish 0, .complete 0, .work 0, .apply 0, .store 0 21]

theorem run_enqueueBoth : ∃ s s' : State Unit Nat,
    Run step (fun s action => Used s action ∧ Earlier touchesEarlier s action) (start 1 1 0 fun _ => ⟨true, (), 99⟩)
      enqueueBoth s ∧
    Deiniting s ∧ s.pool.queue = [.user 3, .user 4] ∧
    Run step (fun s action => (Used s action ∧ Waits touchesEarlier s action) ∧ s.control = .deinit) s evaluateBoth s' := by
  have hearlier : ∀ s : State Unit Nat, .user 3 ∈ s.pool.log.accepted → Earlier touchesEarlier s (.enqueue 4) := by
    intro s hmem _ touched ht
    obtain rfl : touched = 3 := by simpa [touchesEarlier] using ht
    exact hmem
  have hfirst : ∀ s : State Unit Nat, s.evaluated 0 = some 3 → Waits touchesEarlier s (.store 0 20) := by
    intro s hw id hid touched ht
    obtain rfl : 3 = id := Option.some.inj (hw.symm.trans hid)
    simp [touchesEarlier] at ht
  have hsecond : ∀ s : State Unit Nat, s.evaluated 0 = some 4 → (s.objects 3).finished = true →
      Waits touchesEarlier s (.store 0 21) := by
    intro s hw hfinished id hid touched ht
    obtain rfl : 4 = id := Option.some.inj (hw.symm.trans hid)
    obtain rfl : touched = 3 := by simpa [touchesEarlier] using ht
    exact hfinished
  exact ⟨_, _, .cons ⟨rfl, trivial⟩ rfl (.cons ⟨trivial, trivial⟩ rfl (.cons ⟨trivial, trivial⟩ rfl
      (.cons ⟨rfl, trivial⟩ rfl (.cons ⟨trivial, fun _ => by simp [touchesEarlier]⟩ rfl (.cons ⟨rfl, trivial⟩ rfl
      (.cons ⟨trivial, hearlier _ List.mem_cons_self⟩ rfl (.cons ⟨trivial, trivial⟩ rfl
      (.single ⟨trivial, trivial⟩ rfl)))))))),
    ⟨rfl, .inl ⟨rfl, rfl, fun _ => ThreadPool.Control.noConfusion⟩⟩, rfl,
    .cons ⟨⟨trivial, trivial⟩, rfl⟩ rfl (.cons ⟨⟨trivial, trivial⟩, rfl⟩ rfl (.cons ⟨⟨trivial, trivial⟩, rfl⟩ rfl
      (.cons ⟨⟨trivial, hfirst _ rfl⟩, rfl⟩ rfl (.cons ⟨⟨trivial, trivial⟩, rfl⟩ rfl (.cons ⟨⟨trivial, trivial⟩, rfl⟩ rfl
      (.cons ⟨⟨trivial, trivial⟩, rfl⟩ rfl (.cons ⟨⟨trivial, trivial⟩, rfl⟩ rfl
      (.single ⟨⟨trivial, hsecond _ rfl rfl⟩, rfl⟩ rfl))))))))⟩

theorem deinit_returns_of_earlier_both : ∃ s s' : State Unit Nat, s.pool.queue = [.user 3, .user 4] ∧
    evaluateBoth.countP (fun action => !action.caller) ≤
        10 * s.pool.queue.length + 13 * s.pool.workers.length + 5 * s.pool.signals + 5 * s.pool.size + 31 ∧
      (s'.control = .idle ∧ s'.deinited = true ∨
        s'.control = .deinit ∧ ∃ action : Action Unit Nat, action.inside = true ∧ (step s' action).isSome = true ∧
          Waits touchesEarlier s' action) := by
  obtain ⟨s, s', hr, hd, hq, h⟩ := run_enqueueBoth
  exact ⟨s, s', hq, deinit_returns_of_earlier (by decide) hr hd h⟩

end SphSc.Futures

import SphSc.Futures.Orderly
/-!
# Every future is evaluated

In an orderly run each future is finished in the end, if no thread that can go
on is left out for ever. What is before it in the queue is finished first: so it
comes to the front, a worker comes free, takes it, and finds finished what it touches.
-/
open Runs

namespace SphSc.Futures

variable {F D : Type} {s s' : State F D} {action : Action F D} {n : Nat} {touches : Nat → List Nat}

/-! ## Fair executions -/

section
variable {limit junk : Nat} {objects : Nat → Future F D} (hn : 1 ≤ n) (hlimit : n ≤ limit)
  (x : Execution step (Orderly touches)) (hx : x.state 0 = start limit n junk objects)
include hn hlimit hx

theorem orderly_at (t : Nat) : OrderlyInv n touches (x.state t) := by
  obtain ⟨as, h⟩ := x.run t
  exact orderlyInv_run hn hlimit (hx ▸ h)

/-- The pool accepts more, at the end. -/
theorem accepted_later {t u : Nat} (htu : t ≤ u) : (x.state t).pool.log.accepted <+: (x.state u).pool.log.accepted := by
  refine x.stays (P := fun s => (x.state t).pool.log.accepted <+: s.pool.log.accepted) htu (List.prefix_refl _) ?_
  intro v a ha hv
  exact hv.trans (accepted_step (orderly_at hn hlimit x hx v) (x.acts v a ha).2)

theorem finished_later {t u id : Nat} (htu : t ≤ u) (h : Finished (x.state t) id) : Finished (x.state u) id := by
  refine x.stays (P := (Finished · id)) htu h fun v a ha hv => ?_
  obtain ⟨hok, hs⟩ := x.acts v a ha
  exact finished_step (orderly_at hn hlimit x hx v) hok hs hv

variable (hfair : ∀ thread : Thread, x.FairTo thread.takes) {id t : Nat}
include hfair

theorem taken_of_awake (h : Next (x.state t) id) {w : Nat} (hw : (x.state t).pool.workers[w]? = some .awake) :
    ∃ u, t ≤ u ∧ .user id ∈ (x.state u).pool.log.dequeued := by
  refine x.leads_to (P := fun s => Next s id ∧ s.pool.workers[w]? = some .awake)
    (Q := fun s => .user id ∈ s.pool.log.dequeued) (hfair (.worker w)) ⟨h, hw⟩ ?_ ?_
  · intro v ⟨hv, hwv⟩
    exact awake_can (orderly_at hn hlimit x hx v) hv hwv
  · intro v a ha ⟨hv, hwv⟩
    obtain ⟨hok, hs⟩ := x.acts v a ha
    have hi := orderly_at hn hlimit x hx v
    by_cases hown : (Thread.worker w).takes a
    · exact .inr (awake_own hi hv hwv hs hown)
    · rcases next_step hi hok hs hv with hnext | htaken
      · exact .inl ⟨⟨hnext, worker_other hwv (by simp) hs hown⟩, hown⟩
      · exact .inr htaken

theorem taken_of_atHand (h : AtHand (x.state t) id) : ∃ u, t ≤ u ∧ .user id ∈ (x.state u).pool.log.dequeued := by
  rcases h with htaken | ⟨hnext, hawake⟩
  · exact ⟨t, Nat.le_refl t, htaken⟩
  · obtain ⟨w, hw⟩ := List.mem_iff_getElem?.1 hawake
    exact taken_of_awake hn hlimit x hx hfair hnext hw

/-- A worker that has another future is done with it. -/
theorem atHand_of_running (h : Next (x.state t) id) {w id' : Nat} (hw : (x.state t).evaluated w = some id') :
    ∃ u, t ≤ u ∧ AtHand (x.state u) id := by
  refine x.leads_to (P := fun s => Next s id ∧ s.evaluated w = some id') (Q := (AtHand · id)) (hfair (.worker w))
    ⟨h, hw⟩ ?_ ?_
  · intro v ⟨hv, hwv⟩
    have hi := orderly_at hn hlimit x hx v
    exact published_can hi hv hwv (published_of_finished hi hwv (hv.before _ (hi.evaluated w id' hwv)))
  · intro v a ha ⟨hv, hwv⟩
    obtain ⟨hok, hs⟩ := x.acts v a ha
    have hi := orderly_at hn hlimit x hx v
    have hpublished := published_of_finished hi hwv (hv.before _ (hi.evaluated w id' hwv))
    rcases next_step hi hok hs hv with hnext | htaken
    · by_cases hown : (Thread.worker w).takes a
      · rcases running_own hwv hs hown with ⟨hne, -⟩ | ⟨-, hawake⟩
        · exact absurd hpublished hne
        · exact .inr (.inr ⟨hnext, ThreadPool.mem_of_worker hawake⟩)
      · have hstays := worker_other (evaluated_eq hwv) ThreadPool.Worker.noConfusion hs hown
        exact .inl ⟨⟨hnext, evaluated_of_running hstays⟩, hown⟩
    · exact .inr (.inl htaken)

/-- One of the blocked workers is signalled to. -/
theorem atHand_of_blocked (h : Next (x.state t) id) (hb : ∀ worker ∈ (x.state t).pool.workers, worker = .blocked)
    (hsome : .blocked ∈ (x.state t).pool.workers) : ∃ u, t ≤ u ∧ AtHand (x.state u) id := by
  refine x.leads_to (P := fun s => Next s id ∧ (∀ worker ∈ s.pool.workers, worker = .blocked) ∧ .blocked ∈ s.pool.workers)
    (Q := (AtHand · id)) (hfair .signaller) ⟨h, hb, hsome⟩ ?_ ?_
  · intro v ⟨hv, hbv, hsomev⟩
    exact signaller_can (orderly_at hn hlimit x hx v) hv hbv hsomev
  · intro v a ha ⟨hv, hbv, hsomev⟩
    obtain ⟨hok, hs⟩ := x.acts v a ha
    rcases next_step (orderly_at hn hlimit x hx v) hok hs hv with hnext | htaken
    · rcases blocked_other hbv hsomev hs with hawake | ⟨hsame, hother⟩
      · exact .inr (.inr ⟨hnext, hawake⟩)
      · exact .inl ⟨⟨hnext, by rwa [hsame], by rwa [hsame]⟩, hother⟩
    · exact .inr (.inl htaken)

/-- The first worker is created. -/
theorem atHand_of_unstaffed (h : Next (x.state t) id) (hw : (x.state t).pool.workers = []) :
    ∃ u, t ≤ u ∧ AtHand (x.state u) id := by
  refine x.leads_to (P := fun s => Next s id ∧ s.pool.workers = []) (Q := (AtHand · id)) (hfair .control) ⟨h, hw⟩ ?_ ?_
  · intro v ⟨hv, hwv⟩
    exact control_can hn (orderly_at hn hlimit x hx v) hv hwv
  · intro v a ha ⟨hv, hwv⟩
    obtain ⟨hok, hs⟩ := x.acts v a ha
    have hi := orderly_at hn hlimit x hx v
    rcases next_step hi hok hs hv with hnext | htaken
    · rcases unstaffed_other hn hi (orderly_at hn hlimit x hx (v + 1)).inside hok.1 hwv hs with hawake | ⟨hnone, hother⟩
      · exact .inr (.inr ⟨hnext, hawake⟩)
      · exact .inl ⟨⟨hnext, hnone⟩, hother⟩
    · exact .inr (.inl htaken)

theorem taken_of_next (h : Next (x.state t) id) : ∃ u, t ≤ u ∧ .user id ∈ (x.state u).pool.log.dequeued := by
  have hi := orderly_at hn hlimit x hx t
  obtain ⟨-, hexited, -⟩ := h.serving hi
  have hhand : ∃ u, t ≤ u ∧ AtHand (x.state u) id := by
    by_cases hawake : .awake ∈ (x.state t).pool.workers
    · exact ⟨t, Nat.le_refl t, .inr ⟨h, hawake⟩⟩
    by_cases hrunning : ∃ w id', (x.state t).evaluated w = some id'
    · obtain ⟨w, id', hw⟩ := hrunning
      exact atHand_of_running hn hlimit x hx hfair h hw
    have hb : ∀ worker ∈ (x.state t).pool.workers, worker = .blocked := by
      intro worker hmem
      cases worker with
      | awake => exact absurd hmem hawake
      | blocked => rfl
      | running task =>
        cases task with
        | user id' =>
          obtain ⟨w, hw⟩ := List.mem_iff_getElem?.1 hmem
          exact absurd ⟨w, id', evaluated_of_running hw⟩ hrunning
        | threadFinish => exact absurd hmem hi.served.returning.2
      | exited => exact absurd hmem hexited
    by_cases hsome : .blocked ∈ (x.state t).pool.workers
    · exact atHand_of_blocked hn hlimit x hx hfair h hb hsome
    · have hnone : (x.state t).pool.workers = [] :=
        List.eq_nil_iff_forall_not_mem.2 fun worker hmem => hsome (hb worker hmem ▸ hmem)
      exact atHand_of_unstaffed hn hlimit x hx hfair h hnone
  obtain ⟨u, htu, hu⟩ := hhand
  obtain ⟨v, huv, hv⟩ := taken_of_atHand hn hlimit x hx hfair hu
  exact ⟨v, Nat.le_trans htu huv, hv⟩

/-- A worker goes on in `sph_future_eval` once what its future touches is finished. -/
theorem eval_goes_on {w : Nat} {e : Eval} (he : e ≠ .published) (hw : (x.state t).evaluated w = some id)
    (hew : (x.state t).evals w = e) (ht : ∀ touched ∈ touches id, Finished (x.state t) touched) :
    ∃ u, t ≤ u ∧ (x.state u).evaluated w = some id ∧ (x.state u).evals w = e.next ∧
      ∀ touched ∈ touches id, Finished (x.state u) touched := by
  refine x.leads_to
    (P := fun s => (s.evaluated w = some id ∧ s.evals w = e) ∧ ∀ touched ∈ touches id, Finished s touched)
    (Q := fun s => s.evaluated w = some id ∧ s.evals w = e.next ∧ ∀ touched ∈ touches id, Finished s touched)
    (hfair (.worker w)) ⟨⟨hw, hew⟩, ht⟩ ?_ ?_
  · intro v ⟨⟨hwv, hev⟩, htv⟩
    exact eval_can hwv (hev ▸ he) fun touched htouched => (htv touched htouched).2
  · intro v a ha ⟨⟨hwv, hev⟩, htv⟩
    obtain ⟨hok, hs⟩ := x.acts v a ha
    have htv' : ∀ touched ∈ touches id, Finished (x.state (v + 1)) touched := fun touched htouched =>
      finished_step (orderly_at hn hlimit x hx v) hok hs (htv touched htouched)
    by_cases hown : (Thread.worker w).takes a
    · rcases running_own hwv hs hown with ⟨-, hw', he'⟩ | ⟨hpublished, -⟩
      · exact .inr ⟨hw', hev ▸ he', htv'⟩
      · exact absurd (hev ▸ hpublished) he
    · have hstays := worker_other (evaluated_eq hwv) ThreadPool.Worker.noConfusion hs hown
      exact .inl ⟨⟨⟨evaluated_of_running hstays, (evals_other hs hown).trans hev⟩, htv'⟩, hown⟩

/-- It gets to the end, and then the future is finished. -/
theorem finished_of_evaluated {w : Nat} (hw : (x.state t).evaluated w = some id)
    (ht : ∀ touched ∈ touches id, Finished (x.state t) touched) : ∃ u, t ≤ u ∧ Finished (x.state u) id := by
  generalize hk : ((x.state t).evals w).remaining = k
  induction k generalizing t with
  | zero =>
    have hi := orderly_at hn hlimit x hx t
    have hdeq := hi.evaluated w id hw
    refine ⟨t, Nat.le_refl t, hi.order ▸ List.mem_append_left _ hdeq, finished_of_published hi hw ?_⟩
    cases he : (x.state t).evals w with
    | published => rfl
    | _ => simp [he, Eval.remaining] at hk
  | succ k ih =>
    have he : (x.state t).evals w ≠ .published := by
      intro he
      simp [he, Eval.remaining] at hk
    obtain ⟨u, htu, hwu, heu, htouched⟩ := eval_goes_on hn hlimit x hx hfair he hw rfl ht
    have hnext : ((x.state u).evals w).remaining = k := by
      rw [heu]
      exact Nat.succ.inj ((Eval.remaining_next he).trans hk)
    obtain ⟨v, huv, hv⟩ := ih hwu htouched hnext
    exact ⟨v, Nat.le_trans htu huv, hv⟩

/-- By induction on the place of the future among those that the pool accepted. -/
theorem finished_of_accepted (k : Nat) : ∀ {t id : Nat}, (x.state t).pool.log.accepted[k]? = some (.user id) →
    ∃ u, t ≤ u ∧ Finished (x.state u) id := by
  induction k using Nat.strong_induction_on with
  | _ k ih =>
  intro t id hk
  -- what is before it is finished
  obtain ⟨u, htu, hu⟩ : ∃ u, t ≤ u ∧ ∀ j < k, ∀ id', (x.state t).pool.log.accepted[j]? = some (.user id') →
      Finished (x.state u) id' := by
    refine x.eventually_all
      (P := fun j s => ∀ id', (x.state t).pool.log.accepted[j]? = some (.user id') → Finished s id') ?_ ?_
    · intro j _ u v _ huv hu id' hj
      exact finished_later hn hlimit x hx huv (hu id' hj)
    · intro j hj
      by_cases hex : ∃ id', (x.state t).pool.log.accepted[j]? = some (.user id')
      · obtain ⟨id', hid'⟩ := hex
        obtain ⟨u, htu, hu⟩ := ih j hj hid'
        refine ⟨u, htu, fun id'' hid'' => ?_⟩
        cases hid'.symm.trans hid''
        exact hu
      · exact ⟨t, Nat.le_refl t, fun id' hid' => absurd ⟨id', hid'⟩ hex⟩
  have hbefore : ∀ {v}, u ≤ v → ∀ j < k, ∀ id', (x.state v).pool.log.accepted[j]? = some (.user id') →
      Finished (x.state v) id' := by
    intro v huv j hj id' hid'
    have hlt : j < (x.state t).pool.log.accepted.length := Nat.lt_trans hj (List.getElem?_eq_some_iff.1 hk).1
    obtain ⟨more, hmore⟩ := accepted_later hn hlimit x hx (Nat.le_trans htu huv)
    rw [← hmore, List.getElem?_append_left hlt] at hid'
    exact finished_later hn hlimit x hx huv (hu j hj id' hid')
  have hplace : ∀ {v}, u ≤ v → (x.state v).pool.log.accepted[k]? = some (.user id) := by
    intro v huv
    obtain ⟨more, hmore⟩ := accepted_later hn hlimit x hx (Nat.le_trans htu huv)
    rw [← hmore, List.getElem?_append_left (List.getElem?_eq_some_iff.1 hk).1]
    exact hk
  -- so it is taken
  obtain ⟨v, huv, hv⟩ : ∃ v, u ≤ v ∧ .user id ∈ (x.state v).pool.log.dequeued := by
    by_cases htaken : .user id ∈ (x.state u).pool.log.dequeued
    · exact ⟨u, Nat.le_refl u, htaken⟩
    · have hi := orderly_at hn hlimit x hx u
      refine taken_of_next hn hlimit x hx hfair (next_of_before hi (hplace (Nat.le_refl u)) htaken ?_)
      exact fun j hj id' hid' => (hbefore (Nat.le_refl u) j hj id' hid').2
  have hi := orderly_at hn hlimit x hx v
  rcases hi.taken id hv with ⟨w, hw⟩ | hfinished
  · obtain ⟨u', hvu', hu'⟩ := finished_of_evaluated hn hlimit x hx hfair hw fun touched htouched =>
      hi.touched_before (hplace huv) htouched fun j hj => hbefore huv j hj touched
    exact ⟨u', Nat.le_trans htu (Nat.le_trans huv hvu'), hu'⟩
  · exact ⟨v, Nat.le_trans htu huv, hi.order ▸ List.mem_append_left _ hv, hfinished⟩

end

/-! ## No future is orphaned -/

/-- Every future whose `sph_future_new` has returned is queued, evaluated or
finished, exactly as long as each came to a pool that still accepts tasks. While
less than 2 ^ 32 are queued at once, no worker is gone before the queue is empty.
Where futures only touch such as the pool has accepted before them, and no thread
that can go on is left out for ever, each is finished in the end and stays so,
and `sph_future_touch` then finds it finished. -/
theorem no_orphan_iff {limit junk : Nat} {objects : Nat → Future F D} (hn : 1 ≤ n) :
    (∀ as (s : State F D), Run step Used (start limit n junk objects) as s →
      ((∀ id ∈ s.prepared, Delivered s id) ↔ Run step Accepting (start limit n junk objects) as s) ∧
      (Run step Bounded (start limit n junk objects) as s → s.pool.queue ≠ [] → .exited ∉ s.pool.workers)) ∧
    (n ≤ limit → ∀ x : Execution step (Orderly (F := F) (D := D) touches), x.state 0 = start limit n junk objects →
      (∀ thread : Thread, x.FairTo thread.takes) →
      ∀ t, ∀ id ∈ (x.state t).prepared, ∃ u, t ≤ u ∧ ∀ v, u ≤ v → ((x.state v).objects id).finished = true) := by
  refine ⟨fun as s h => ⟨?_, ?_⟩, ?_⟩
  · have hnil : s.pool.log.refused = [] ↔ ∀ id ∈ s.prepared, Delivered s id := by
      rw [List.eq_nil_iff_forall_not_mem]
      constructor
      · exact fun hnone id hid => (delivered_iff hn h hid).2 (hnone id)
      · intro hall id href
        have hid := (preparedInv_run h).refused id href
        exact (delivered_iff hn h hid).1 (hall id hid) href
    rw [← hnil]
    exact refused_eq_nil_iff h rfl
  · intro hb hqueue hexited
    obtain ⟨bs, hp⟩ := pool_run hn (h.and hb)
    exact hqueue ((ThreadPool.drainInv_run hn hp).drained hexited).2
  · intro hlimit x hx hfair t id hid
    obtain ⟨k, hk⟩ := List.mem_iff_getElem?.1 ((orderly_at hn hlimit x hx t).prepared id hid)
    obtain ⟨u, htu, hu⟩ := finished_of_accepted hn hlimit x hx hfair k hk
    exact ⟨u, htu, fun v huv => (finished_later hn hlimit x hx huv hu).2⟩

/-- After `sph_future_deinit` has returned no thread has anything left to do. -/
theorem nobody_can (hd : s.pool.destroyed = true) (hc : s.control = .idle) (hw : ∀ w, s.evaluated w = none)
    (thread : Thread) : ¬ CanAct step (Orderly touches) thread.takes s := by
  have hpool : ∀ pa, s.poolStep pa = none := by
    intro pa
    simp [State.poolStep, ThreadPool.step, hd]
  rintro ⟨a, hown, -, h⟩
  cases a with
  | initReturns | deinitReturns => simp [step, State.initReturns, State.deinitReturns, hc] at h
  | create | proceed | signal => simp [step, hpool] at h
  | work w => simp [step, State.work, hpool] at h
  | apply w | store w result | publish w => simp [step, State.apply, State.store, State.publish, hw] at h
  | complete w => simp [step, State.complete, hpool] at h
  | _ => cases hown

/-- Two futures of which the later touches the other. -/
def makeBoth : List (Action Unit Nat) :=
  [.create true, .proceed, .initReturns, .prepare 3 () 10, .enqueue 3, .signal none, .prepare 4 () 11, .enqueue 4,
    .signal none]

/-- The only worker evaluates them, and `sph_future_deinit` returns. -/
def finishBoth : List (Action Unit Nat) :=
  [.deinit, .proceed, .proceed, .work 0, .apply 0, .store 0 20, .publish 0, .complete 0, .work 0, .apply 0, .store 0 21,
    .publish 0, .complete 0, .work 0, .proceed, .proceed, .proceed, .proceed, .deinitReturns]

theorem run_makeBoth : ∃ s s' : State Unit Nat,
    Run step (Orderly touchesEarlier) (start 1 1 0 fun _ => ⟨true, (), 99⟩) makeBoth s ∧ s.prepared = [3, 4] ∧
    Run step (Orderly touchesEarlier) s finishBoth s' ∧
    s'.pool.destroyed = true ∧ s'.control = .idle ∧ s'.pool.workers = [.exited] := by
  have hprepare : ∀ {s : State Unit Nat} {id data : Nat}, (s.record id).new = none →
      Orderly touchesEarlier s (.prepare id () data) :=
    fun hnew => ⟨hnew, by simp [Accepting], by simp [Bounded], trivial, trivial⟩
  have henqueue : ∀ {s : State Unit Nat} {id : Nat}, s.pool.accepting = true → s.pool.queue.length < 2 →
      (∀ touched ∈ touchesEarlier id, .user touched ∈ s.pool.log.accepted) → Orderly touchesEarlier s (.enqueue id) :=
    fun hacc hlen hearlier => ⟨trivial, fun _ _ => hacc, fun _ _ _ => by omega, fun _ => hearlier, trivial⟩
  have hstore : ∀ {s : State Unit Nat} {id v : Nat}, s.evaluated 0 = some id →
      (∀ touched ∈ touchesEarlier id, (s.objects touched).finished = true) → Orderly touchesEarlier s (.store 0 v) := by
    intro s id v hw ht
    refine ⟨trivial, by simp [Accepting], by simp [Bounded], trivial, fun id' hid' => ?_⟩
    obtain rfl := Option.some.inj (hw.symm.trans hid')
    exact ht
  have hrest : ∀ {a : Action Unit Nat}, a = .deinit ∨ (a.thread ≠ none ∧ a ≠ .create false ∧ ∀ w v, a ≠ .store w v) →
      ∀ s, Orderly touchesEarlier s a := by
    intro a ha s
    cases a <;> simp_all [Orderly, Used, Accepting, Bounded, Earlier, Waits, Action.thread]
  have hgo : ∀ {a : Action Unit Nat} {s : State Unit Nat}, (a.thread ≠ none ∧ a ≠ .create false ∧ ∀ w v, a ≠ .store w v) →
      Orderly touchesEarlier s a := fun ha => hrest (.inr ha) _
  have hthree : ∀ touched, touched ∉ touchesEarlier 3 := by simp [touchesEarlier]
  have hfour : ∀ {P : Nat → Prop}, P 3 → ∀ touched ∈ touchesEarlier 4, P touched := by
    intro P h touched ht
    obtain rfl : touched = 3 := by simpa [touchesEarlier] using ht
    exact h
  refine ⟨_, _, .cons (hgo (by simp [Action.thread])) rfl (.cons (hgo (by simp [Action.thread])) rfl
      (.cons (hgo (by simp [Action.thread])) rfl (.cons (hprepare rfl) rfl
      (.cons (henqueue rfl Nat.two_pos fun _ ht => absurd ht (hthree _)) rfl (.cons (hgo (by simp [Action.thread])) rfl
      (.cons (hprepare rfl) rfl (.cons (henqueue rfl Nat.one_lt_two (hfour List.mem_cons_self)) rfl
      (.single (hgo (by simp [Action.thread])) rfl)))))))), rfl,
    .cons (hrest (.inl rfl) _) rfl (.cons (hgo (by simp [Action.thread])) rfl (.cons (hgo (by simp [Action.thread])) rfl
      (.cons (hgo (by simp [Action.thread])) rfl (.cons (hgo (by simp [Action.thread])) rfl
      (.cons (hstore rfl fun _ ht => absurd ht (hthree _)) rfl (.cons (hgo (by simp [Action.thread])) rfl
      (.cons (hgo (by simp [Action.thread])) rfl (.cons (hgo (by simp [Action.thread])) rfl
      (.cons (hgo (by simp [Action.thread])) rfl (.cons (hstore rfl (hfour rfl)) rfl
      (run_of_exec_of (fun a ha => hrest (.inr (by revert a; simp [Action.thread]))) rfl))))))))))),
    rfl, rfl, rfl⟩

/-- They are delivered when both have been made, and finished in the end. -/
theorem no_orphan_both : ∃ x : Execution step (Orderly (F := Unit) (D := Nat) touchesEarlier),
    x.state 0 = start 1 1 0 (fun _ => ⟨true, (), 99⟩) ∧ (∀ thread : Thread, x.FairTo thread.takes) ∧
    (x.state 9).prepared = [3, 4] ∧ (∀ id ∈ [3, 4], Delivered (x.state 9) id) ∧
    ∀ id ∈ [3, 4], ∃ u, 9 ≤ u ∧ ∀ v, u ≤ v → ((x.state v).objects id).finished = true := by
  obtain ⟨s, s', hmake, hprep, hfinish, hd, hc, hw⟩ := run_makeBoth
  obtain ⟨y, hy, hlast⟩ := hfinish.execution (Execution.still step _ s') rfl
  obtain ⟨x, hx, hlater⟩ := hmake.execution y hy
  have hnine : x.state 9 = s := (hlater 0).trans hy
  have hstill : ∀ u, 28 ≤ u → x.state u = s' := by
    intro u hu
    obtain ⟨k, rfl⟩ := Nat.exists_eq_add_of_le hu
    have h := hlater (finishBoth.length + k)
    rw [hlast k] at h
    exact (congrArg x.state (Nat.add_assoc 9 19 k)).trans h
  have hfair : ∀ thread : Thread, x.FairTo thread.takes := by
    intro thread
    refine x.fairTo_of_cannot (t := 28) fun u hu => ?_
    rw [hstill u hu]
    refine nobody_can hd hc (fun w => ?_) thread
    unfold State.evaluated
    rw [hw]
    cases w <;> rfl
  obtain ⟨hdelivered, hfinished⟩ :=
    @no_orphan_iff Unit Nat 1 touchesEarlier 1 0 (fun _ => ⟨true, (), 99⟩) (Nat.le_refl 1)
  have hused := hmake.mono fun _ _ => And.left
  refine ⟨x, hx, hfair, hnine ▸ hprep, ?_, ?_⟩
  · rw [hnine, ← hprep]
    exact (hdelivered _ s hused).1.2 (hmake.mono fun _ _ hok => hok.2.1)
  · intro id hid
    exact hfinished (Nat.le_refl 1) x hx hfair 9 id (by rwa [hnine, hprep])

/-- A future whose function makes another one, which `sph_future_deinit` overtakes. -/
def makeInside : List (Action Unit Nat) :=
  [.create true, .proceed, .initReturns, .prepare 3 () 10, .enqueue 3, .signal none, .work 0, .apply 0,
    .prepare 4 () 20, .deinit, .proceed]

theorem run_makeInside : ∃ s : State Unit Nat, Run step Used (start 1 1 0 fun _ => ⟨true, (), 99⟩) makeInside s ∧
    Run step Accepting (start 1 1 0 fun _ => ⟨true, (), 99⟩) makeInside s ∧ s.prepared = [3] ∧
      ∃ s', step s (.enqueue 4) = some s' ∧ 4 ∈ s'.prepared ∧ s'.pool.log.refused = [4] := by
  have hother : ∀ (s : State Unit Nat) action, (∀ id, action ≠ .enqueue id) → Accepting s action :=
    fun _ _ h id heq => absurd heq (h id)
  have hyes : ∀ s : State Unit Nat, s.pool.accepting = true → Accepting s (.enqueue 3) := fun _ h _ _ => h
  refine ⟨_, .cons rfl rfl (.cons trivial rfl (.cons trivial rfl (.cons rfl rfl (.cons trivial rfl (.cons trivial rfl
      (.cons trivial rfl (.cons trivial rfl (.cons rfl rfl (run_of_exec_of (by simp [Used]) rfl))))))))),
    .cons (hother _ _ (by simp)) rfl (.cons (hother _ _ (by simp)) rfl (.cons (hother _ _ (by simp)) rfl
      (.cons (hother _ _ (by simp)) rfl (.cons (hyes _ rfl) rfl (run_of_exec_of (by simp [Accepting]) rfl))))),
    rfl, _, rfl, ?_, rfl⟩
  decide

/-- The inner one is made after that, and no one will ever evaluate it. -/
theorem inner_orphaned : ∃ as, ∃ s : State Unit Nat, Run step Used (start 1 1 0 fun _ => ⟨true, (), 99⟩) as s ∧
    4 ∈ s.prepared ∧ ∀ as' s', Run step Used s as' s' → ¬ Delivered s' 4 := by
  obtain ⟨s, hused, -, -, s', hs, hprep, href⟩ := run_makeInside
  have hrun := hused.snoc (a := Action.enqueue 4) trivial hs
  exact ⟨_, s', hrun, hprep, fun _ _ hrun' => never_delivered (by decide) hrun (by simp [href]) hrun'⟩

end SphSc.Futures

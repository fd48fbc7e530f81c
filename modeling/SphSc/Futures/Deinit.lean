import SphSc.Futures.Results
import SphSc.ThreadPool.WakeUp
/-!
# What `sph_future_deinit` waits for

Until `sph_future_deinit` begins to finish the pool, the pool accepts every
future. When `finish` returns, everything the pool accepted is done.
-/
open Runs

namespace SphSc.Futures

variable {F D : Type} {s s' : State F D} {action : Action F D} {n : Nat}

/-! ## What the pool accepts, and what it has returned -/

section
open ThreadPool
variable {a a' : Pool} {pa : ThreadPool.Action}

theorem accepted_mono (h : Step a pa a') {t : Task} (ht : t ∈ a.log.accepted) : t ∈ a'.log.accepted := by
  cases h with
  | accepted | finishQueued => exact List.mem_append_left _ ht
  | signalled _ hw | finishSignalled _ hw =>
    rw [wake_same hw]
    exact ht
  | _ => simpa using ht

/-- Nothing but a control call ends that the pool accepts tasks, and nothing begins it again. -/
theorem accepting_step (hi : ServedInv n a) (hok : Served a pa) (h : Step a pa a') :
    (a'.accepting = true → a.accepting = true) ∧
      ((∀ size noWait discardQueue, pa ≠ .resize size noWait discardQueue) → a.accepting = true →
        a.control.frame = none → a'.accepting = true ∧ a'.control.frame = none) := by
  have hserves := hi.control
  cases h with
  | grown hc | mallocFailed hc | finishRefused hc | finishSignalled hc | finishQueued hc =>
    rw [hc] at hserves
    exact absurd hserves id
  | requestShutdown hc => exact ⟨by simp, fun _ _ hf => by simp [hc, Control.frame] at hf⟩
  | createFailed hc | cleanUp hc => exact absurd hok (by simp [Served])
  | signalled _ hw =>
    rw [wake_same hw]
    exact ⟨id, fun _ => And.intro⟩
  | refuse | grow | finish | shrink => exact ⟨by simp, fun h => absurd rfl (h _ _ _)⟩
  | _ => simp_all [Control.frame]

theorem returned_step (hi : ControlInv a) (h : Step a pa a')
    (hpa : ∀ size noWait discardQueue, pa ≠ .resize size noWait discardQueue) (hd : pa ≠ .destroy) {r : Call × Code}
    (hr : a.returned = some r) : a'.returned = some r := by
  have hidle := hi.idle r hr
  cases h with
  | refuse | grow | finish | shrink => exact absurd rfl (hpa _ _ _)
  | destroyBusy | destroyed => exact absurd rfl hd
  | signalled _ hw =>
    rw [wake_same hw]
    exact hr
  | _ => simp_all

end

/-! ## `sph_future_deinit` -/

structure DeinitInv (s : State F D) : Prop where
  before : s.control ≠ .deinit → s.deinited = false → s.pool.accepting = true ∧ s.pool.control.frame = none
  prepared : s.pool.accepting = true → ∀ id ∈ s.prepared, .user id ∈ s.pool.log.accepted
  awaited : ∀ id ∈ s.awaited, .user id ∈ s.pool.log.accepted
  ended : s.deinited = true → s.control = .idle ∧ s.initialized = false ∧
    ∃ code, s.pool.returned = some (.resize 0 false false, code)

theorem deinitInv_start (limit junk : Nat) (objects : Nat → Future F D) : DeinitInv (start limit n junk objects) where
  before := by simp [start, ThreadPool.start, ThreadPool.Control.frame]
  prepared := by simp [start]
  awaited := by simp [start]
  ended := by simp [start]

theorem DeinitInv.of_same (hd : DeinitInv s) (hpool : s'.pool = s.pool) (hctl : s'.control = s.control)
    (hinit : s'.initialized = s.initialized) (hprep : s'.prepared = s.prepared) (haw : s'.awaited = s.awaited)
    (hde : s'.deinited = s.deinited) : DeinitInv s' where
  before := by rw [hpool, hctl, hde]; exact hd.before
  prepared := by rw [hpool, hprep]; exact hd.prepared
  awaited := by rw [hpool, haw]; exact hd.awaited
  ended := by rw [hpool, hctl, hinit, hde]; exact hd.ended

/-- The pool takes a step that is no control call. -/
theorem DeinitInv.of_pool (hd : DeinitInv s) (hserved : ThreadPool.ServedInv n s.pool)
    (hcontrol : ThreadPool.ControlInv s.pool) {pa : ThreadPool.Action} (hok : ThreadPool.Served s.pool pa)
    (hstep : ThreadPool.Step s.pool pa s'.pool)
    (hpa : ∀ size noWait discardQueue, pa ≠ .resize size noWait discardQueue) (hdestroy : pa ≠ .destroy)
    (hctl : s'.control = s.control) (hinit : s'.initialized = s.initialized)
    (hprep : s'.pool.accepting = true → ∀ id ∈ s'.prepared, id ∈ s.prepared ∨ .user id ∈ s'.pool.log.accepted)
    (haw : s'.awaited = s.awaited) (hde : s'.deinited = s.deinited) : DeinitInv s' where
  before hc hd' := by
    obtain ⟨hacc, hframe⟩ := hd.before (hctl ▸ hc) (hde ▸ hd')
    exact (accepting_step hserved hok hstep).2 hpa hacc hframe
  prepared hacc id hid := by
    rcases hprep hacc id hid with hold | hnew
    · exact accepted_mono hstep (hd.prepared ((accepting_step hserved hok hstep).1 hacc) id hold)
    · exact hnew
  awaited id hid := accepted_mono hstep (hd.awaited id (haw ▸ hid))
  ended hd' := by
    obtain ⟨hidle, hinitialized, code, hr⟩ := hd.ended (hde ▸ hd')
    exact ⟨hctl.trans hidle, hinit.trans hinitialized, code, returned_step hcontrol hstep hpa hdestroy hr⟩

theorem deinitInv_deinit (hd : DeinitInv s) (hserved : ThreadPool.ServedInv n s.pool) (h : s.deinit = some s') :
    DeinitInv s' := by
  unfold State.deinit at h
  split at h
  · rename_i hidle
    split at h <;> rename_i hinit
    · obtain ⟨s₁, hs₁, rfl⟩ := Option.map_eq_some_iff.1 h
      obtain ⟨p, hstep, rfl⟩ := poolStep_eq hs₁
      have hstep := ThreadPool.step_cases hstep
      obtain ⟨hlog, -⟩ := ThreadPool.quiet_step hserved hstep (by simp) (by simp) (by simp)
      have hde : s.deinited = false := by
        cases hde : s.deinited with
        | false => rfl
        | true => simp [(hd.ended hde).2.1] at hinit
      obtain ⟨hacc, -⟩ := hd.before (by simp [hidle]) hde
      -- what has been prepared by now has been accepted
      have hprepared : ∀ id ∈ s.prepared, .user id ∈ p.log.accepted := by
        rw [hlog]
        exact hd.prepared hacc
      exact ⟨fun hc => absurd rfl hc, fun _ => hprepared, hprepared, fun hd' => by simp [hde] at hd'⟩
    · cases h
      exact hd
  · cases h

theorem deinitInv_deinitReturns (hd : DeinitInv s) (h : s.deinitReturns = some s') : DeinitInv s' := by
  unfold State.deinitReturns at h
  split at h
  · rename_i code hctl hr
    cases h
    exact ⟨by simp, hd.prepared, hd.awaited, fun _ => ⟨rfl, rfl, code, hr⟩⟩
  · cases h

theorem deinitInv_initReturns (hd : DeinitInv s) (h : s.initReturns = some s') : DeinitInv s' := by
  unfold State.initReturns at h
  split at h
  · rename_i code hctl hr
    cases h
    refine ⟨fun _ => hd.before (by simp [hctl]), hd.prepared, hd.awaited, ?_⟩
    intro hde
    simpa [hctl] using (hd.ended hde).1
  · cases h

theorem deinitInv_enqueue (hd : DeinitInv s) (hserved : ThreadPool.ServedInv n s.pool)
    (hcontrol : ThreadPool.ControlInv s.pool) {id : Nat}
    (hok : ThreadPool.Served s.pool (.enqueue (some (.user id)))) (h : s.enqueue id = some s') : DeinitInv s' := by
  unfold State.enqueue at h
  split at h
  · obtain ⟨s₁, hs₁, rfl⟩ := Option.map_eq_some_iff.1 h
    obtain ⟨p, hstep, rfl⟩ := poolStep_eq hs₁
    have hstep := ThreadPool.step_cases hstep
    refine hd.of_pool hserved hcontrol hok hstep (by simp) (by simp) rfl rfl (fun hacc id' hid' => ?_) rfl rfl
    rcases List.mem_append.1 hid' with hid' | hid'
    · exact .inl hid'
    · obtain rfl := List.mem_singleton.1 hid'
      refine .inr ?_
      cases hstep with
      | refused hu hno =>
        dsimp only at hacc
        simp [hno] at hacc
      | accepted hu hyes => exact List.mem_append_right _ List.mem_cons_self
  · cases h

theorem deinitInv_step {limit junk : Nat} {bs : List ThreadPool.Action} (hn : 1 ≤ n)
    (hp : Run ThreadPool.step ThreadPool.Served (ThreadPool.start limit n junk) bs s.pool) (hi : FutureInv s)
    (hd : DeinitInv s) (hok : Used s action) (h : step s action = some s') : DeinitInv s' := by
  have hserved := ThreadPool.servedInv_run hn hp
  have hcontrol := ThreadPool.controlInv_run hp
  have hspool : ∀ pa, poolAction s action = some pa → ThreadPool.Served s.pool pa :=
    fun pa hpa => served_of_used hi hok h hpa
  cases action with
  | create success | proceed | signal target | wakeUp w =>
    obtain ⟨p, hstep, rfl⟩ := poolStep_eq h
    exact hd.of_pool hserved hcontrol (hspool _ rfl) (ThreadPool.step_cases hstep) (by simp) (by simp) rfl rfl
      (fun _ _ => .inl) rfl rfl
  | work w =>
    obtain ⟨s₁, hs₁, rfl⟩ := Option.map_eq_some_iff.1 h
    obtain ⟨p, hstep, rfl⟩ := poolStep_eq hs₁
    exact hd.of_pool hserved hcontrol (hspool _ rfl) (ThreadPool.step_cases hstep) (by simp) (by simp) rfl rfl
      (fun _ _ => .inl) rfl rfl
  | complete w =>
    simp only [step, State.complete] at h
    split at h
    · obtain ⟨p, hstep, rfl⟩ := poolStep_eq h
      exact hd.of_pool hserved hcontrol (hspool _ rfl) (ThreadPool.step_cases hstep) (by simp) (by simp) rfl rfl
        (fun _ _ => .inl) rfl rfl
    · cases h
  | enqueue id => exact deinitInv_enqueue hd hserved hcontrol (hspool _ rfl) h
  | deinit => exact deinitInv_deinit hd hserved h
  | deinitReturns => exact deinitInv_deinitReturns hd h
  | initReturns => exact deinitInv_initReturns hd h
  | init | read _ | apply _ | store _ _ | publish _ =>
    simp only [step, State.init, State.read, State.apply, State.store, State.publish] at h
    split at h
    · cases h
      exact hd.of_same rfl rfl rfl rfl rfl rfl
    · cases h
  | prepare id f d =>
    cases h
    exact hd.of_same rfl rfl rfl rfl rfl rfl
  | poll id =>
    cases h
    simp only [State.poll]
    split
    · exact hd.of_same rfl rfl rfl rfl rfl rfl
    · exact hd

/-! ## Runs -/

/-- Less than 2 ^ 32 futures are queued at once. -/
def Bounded (s : State F D) (action : Action F D) : Prop :=
  ∀ id, action = .enqueue id → s.pool.accepting = true → s.pool.queue.length + 1 < 2 ^ 32

section
variable {limit junk : Nat} {objects : Nat → Future F D} {as : List (Action F D)} (hn : 1 ≤ n)
include hn

theorem deinitInv_run (h : Run step Used (start limit n junk objects) as s) : DeinitInv s := by
  refine h.inv₂ (fun _ _ hr => futureInv_run hn hr) (deinitInv_start limit junk objects) ?_
  rintro s action s' ⟨hi, bs, hp⟩ hd hok hs
  exact deinitInv_step hn hp hi hd hok hs

theorem pool_run (h : Run step (fun s action => Used s action ∧ Bounded s action) (start limit n junk objects) as s) :
    ∃ bs, Run ThreadPool.step (fun a pa => ThreadPool.Served a pa ∧ ThreadPool.Bounded a pa)
      (ThreadPool.start limit n junk) bs s.pool := by
  refine h.project (J := FutureInv) State.pool (fun _ _ hr => (futureInv_run hn (hr.mono fun _ _ => And.left)).1) ?_
  intro s action s' hi hok hs
  have hpool := step_pool hs
  split at hpool
  · rename_i pa hpa
    refine .inr ⟨pa, ⟨served_of_used hi hok.1 hs hpa, fun t ht hacc => ?_⟩, hpool⟩
    cases action with
    | enqueue id => exact hok.2 id rfl hacc
    | deinit =>
      simp only [poolAction] at hpa
      split at hpa <;> simp_all
    | _ => simp_all [poolAction]
  · exact .inl hpool

theorem awaited_finished
    (h : Run step (fun s action => Used s action ∧ Bounded s action) (start limit n junk objects) as s)
    (hde : s.deinited = true) : ∀ id ∈ s.awaited, (s.objects id).finished = true := by
  intro id hid
  have hused := h.mono fun _ _ => And.left
  have hi := (futureInv_run hn hused).1
  have hd := deinitInv_run hn hused
  obtain ⟨-, -, code, hr⟩ := hd.ended hde
  obtain ⟨bs, hp⟩ := pool_run hn h
  have hacc := hd.awaited id hid
  have hdone := (ThreadPool.done_of_finish hn hp hr hacc).2
  obtain ⟨f, d, hnew⟩ := hi.made hacc
  obtain ⟨v, hholds⟩ := (hi.each id).completed f d hnew (List.count_pos_iff.1 (by omega))
  rw [hholds.1]

/-- What `sph_future_touch` returns is what the future's function returned, which
was applied once, to the data the future was made with. No function is applied
twice. While less than 2 ^ 32 futures are queued at once, those prepared before
`sph_future_deinit` began are finished when it has returned. With more threads
than the thread limit `sph_future_init` ends at `Control.overrun` of the pool. -/
theorem touch_own_result (h : Run step Used (start limit n junk objects) as s) :
    (∀ id, ∀ v ∈ (s.record id).touched, ∃ f d,
        (s.record id).new = some (f, d) ∧ (s.record id).applied = [(f, d)] ∧ (s.record id).results = [v]) ∧
      (∀ id, (s.record id).applied.length ≤ 1) ∧
      (Run step Bounded (start limit n junk objects) as s → s.deinited = true →
        ∀ id ∈ s.awaited, (s.objects id).finished = true) := by
  obtain ⟨hi, bs, hp⟩ := futureInv_run hn h
  exact ⟨fun id v hv => hi.touched_eq hn hp hv, hi.applied_le_one hn hp, fun hb => awaited_finished hn (h.and hb)⟩

end

/-- One future is made, evaluated and touched, and then the pool is finished. -/
def touchOne : List (Action Unit Nat) :=
  [.create true, .proceed, .initReturns, .prepare 3 () 10, .enqueue 3, .signal none, .work 0, .apply 0, .store 0 20,
    .publish 0, .poll 3, .complete 0, .read 3, .deinit, .proceed, .proceed, .work 0, .proceed, .proceed, .proceed,
    .proceed, .deinitReturns]

theorem run_touchOne : ∃ s : State Unit Nat, Run step Used (start 1 1 0 fun _ => ⟨true, (), 99⟩) touchOne s ∧
    Run step Bounded (start 1 1 0 fun _ => ⟨true, (), 99⟩) touchOne s ∧ s.deinited = true ∧ s.awaited = [3] ∧
      (s.record 3).touched = [20] := by
  have hother : ∀ (s : State Unit Nat) action, (∀ id, action ≠ .enqueue id) → Bounded s action :=
    fun _ _ h id heq => absurd heq (h id)
  have hqueue : ∀ s : State Unit Nat, s.pool.queue = [] → Bounded s (.enqueue 3) := by
    intro s hs id _ _
    simp [hs]
  exact ⟨_, .cons rfl rfl (.cons trivial rfl (.cons trivial rfl (.cons rfl rfl (.cons trivial rfl (.cons trivial rfl
      (.cons trivial rfl (.cons trivial rfl (.cons trivial rfl (.cons trivial rfl (.cons (Option.some_ne_none ((), 10)) rfl
        (run_of_exec_of (by simp [Used]) rfl))))))))))),
    .cons (hother _ _ (by simp)) rfl (.cons (hother _ _ (by simp)) rfl (.cons (hother _ _ (by simp)) rfl
      (.cons (hother _ _ (by simp)) rfl (.cons (hqueue _ rfl) rfl (run_of_exec_of (by simp [Bounded]) rfl))))),
    rfl, rfl, rfl⟩

theorem touch_own_result_one : ∃ s : State Unit Nat, Run step Used (start 1 1 0 fun _ => ⟨true, (), 99⟩) touchOne s ∧
    20 ∈ (s.record 3).touched ∧ (s.record 3).results = [20] ∧ (s.objects 3).finished = true := by
  obtain ⟨s, hused, hbounded, hde, haw, htouched⟩ := run_touchOne
  obtain ⟨hresult, -, hfinished⟩ := touch_own_result (by decide) hused
  have hmem : 20 ∈ (s.record 3).touched := by simp [htouched]
  obtain ⟨f, d, -, -, hresults⟩ := hresult 3 20 hmem
  exact ⟨s, hused, hmem, hresults, hfinished hbounded hde 3 (by simp [haw])⟩

/-! ## The counter of the queue wraps -/

/-- `k` futures that have been prepared and that the only worker has yet to take. -/
def filled (k : Nat) : State Unit Nat where
  pool := ThreadPool.filled k .awake
  initialized := true
  control := .idle
  objects _ := ⟨false, (), 0⟩
  evals _ := .entered
  preparing := []
  prepared := List.range k
  reading := []
  record id := ⟨if id < k then some ((), 0) else none, [], [], []⟩
  awaited := []
  deinited := false

theorem prepare_filled (k : Nat) : (filled k).prepare k () 0 =
    { filled (k + 1) with pool := ThreadPool.filled k .awake, preparing := [k], prepared := List.range k } := by
  have hobjects : Function.update (filled k).objects k ⟨false, (), 0⟩ = (filled (k + 1)).objects :=
    Function.update_eq_self k (filled k).objects
  have hrecord : Function.update (filled k).record k { (filled k).record k with new := some ((), 0) } =
      (filled (k + 1)).record := by
    funext id
    by_cases hid : id = k
    · subst hid
      simp [filled]
    · rw [Function.update_of_ne hid]
      simp only [filled]
      congr 1
      split <;> split <;> first | rfl | omega
  simp only [State.prepare, State.setObject, State.setRecord, hobjects, hrecord]
  rfl

theorem run_filled (k : Nat) : ∃ as, Run step Used (start 1 1 0 fun _ => ⟨false, (), 0⟩) as (filled k) := by
  induction k with
  | zero => exact ⟨[.create true, .proceed, .initReturns], run_of_exec_of (by simp [Used]) rfl⟩
  | succ k ih =>
    obtain ⟨as, hrun⟩ := ih
    have hnew : ((filled k).record k).new = none := by simp [filled]
    have hprep := hrun.snoc (a := Action.prepare k () 0) hnew (congrArg some (prepare_filled k))
    have henqueue : step { filled (k + 1) with
          pool := ThreadPool.filled k .awake, preparing := [k], prepared := List.range k } (.enqueue k) =
        some { filled (k + 1) with pool := { ThreadPool.filled (k + 1) .awake with signals := 1 } } := by
      simp only [step, State.enqueue, State.poolStep, ThreadPool.step_filled, filled, List.range_succ]
      simp
    -- the signal finds no worker blocked
    exact ⟨_, (hprep.snoc (a := Action.enqueue k) trivial henqueue).snoc (a := Action.signal none) trivial rfl⟩

/-- `filled` where `finish` has come to join the worker. -/
def stopping (k : Nat) (worker : ThreadPool.Worker) : State Unit Nat :=
  { filled k with
    pool := { ThreadPool.filled k worker with
      accepting := false, shutdown := true, control := .join ThreadPool.finishFrame 0, returned := none }
    control := .deinit
    awaited := List.range k }

theorem step_stopping {k : Nat} (hk : k % 2 ^ 32 = 0) :
    step (stopping k .awake) (.work 0) = some (stopping k .exited) := by
  have hsize : (stopping k .awake).pool.queueSize = 0 := by
    simpa [stopping, ThreadPool.filled, ThreadPool.Pool.queueSize] using hk
  have hevals : Function.update (stopping k .awake).evals 0 .entered = (stopping k .awake).evals :=
    Function.update_eq_self 0 (stopping k .awake).evals
  simp only [step, State.work, State.poolStep, ThreadPool.step, ThreadPool.Pool.work, hsize, State.setEval]
  exact congrArg (fun evals => some { stopping k .exited with evals }) hevals

theorem run_stopping {k : Nat} (hk : k % 2 ^ 32 = 0) : ∃ as, ∃ s : State Unit Nat,
    Run step Used (filled k) as s ∧ s.deinited = true ∧ s.awaited = List.range k ∧ (s.objects 0).finished = false := by
  have hstop : exec step (filled k) [.deinit, .proceed, .proceed] = some (stopping k .awake) := rfl
  have hend : ∃ s, exec step (stopping k .exited) [.proceed, .proceed, .proceed, .proceed, .deinitReturns] = some s ∧
      s.deinited = true ∧ s.awaited = List.range k ∧ (s.objects 0).finished = false := ⟨_, rfl, rfl, rfl, rfl⟩
  obtain ⟨s, hs, hfacts⟩ := hend
  have hrun : Run step Used (filled k) [.deinit, .proceed, .proceed] (stopping k .awake) :=
    run_of_exec_of (by simp [Used]) hstop
  have hexit := hrun.snoc (a := Action.work 0) trivial (step_stopping hk)
  exact ⟨_, s, hexit.append (run_of_exec_of (by simp [Used]) hs), hfacts⟩

/-- With 2 ^ 32 futures queued the worker exits at the shutdown, and
`sph_future_deinit` returns with none of them finished. -/
theorem deinit_leaves_unfinished : ∃ as, ∃ s : State Unit Nat,
    Run step Used (start 1 1 0 fun _ => ⟨false, (), 0⟩) as s ∧ s.deinited = true ∧ 0 ∈ s.awaited ∧
      (s.objects 0).finished = false := by
  obtain ⟨as, hrun⟩ := run_filled (2 ^ 32)
  obtain ⟨as', s, hrun', hde, haw, hunfinished⟩ := run_stopping (Nat.mod_self (2 ^ 32))
  exact ⟨as ++ as', s, hrun.append hrun', hde, by simp [haw], hunfinished⟩

end SphSc.Futures

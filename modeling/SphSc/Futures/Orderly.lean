import SphSc.Futures.Orphans
import SphSc.Futures.Touching
import SphSc.Lib.Fairness
import SphSc.ThreadPool.Handles
/-!
# Orderly runs

Runs in which the pool accepts every future, and futures only touch such as it
has accepted before them. What each thread does next, that it can, and that the
steps of others leave it where it is.
-/
open Runs

namespace SphSc.Futures

variable {F D : Type} {s s' : State F D} {action : Action F D} {n : Nat} {touches : Nat → List Nat}

/-! ## What a step of the pool leaves as it is -/

section
open ThreadPool
variable {a a' : Pool} {pa : ThreadPool.Action}

/-- A worker that is not blocked stays where it is until it goes on itself. -/
theorem worker_stays (h : Step a pa a') {w : Nat} {worker : Worker} (hw : a.workers[w]? = some worker)
    (hb : worker ≠ .blocked) (hwork : pa ≠ .work w) (hcomplete : pa ≠ .complete w) : a'.workers[w]? = some worker := by
  have hset : ∀ {v : Nat} {x : Worker} (y : Worker), a.workers[v]? = some x → (v = w → x = .blocked) →
      (a.workers.set v y)[w]? = some worker := by
    intro v x y hv hvw
    rw [List.getElem?_set_ne]
    · exact hw
    · rintro rfl
      exact hb ((Option.some.inj (hw.symm.trans hv)).trans (hvw rfl))
  have hall : a.wakeAll.workers[w]? = some worker := by
    simp only [Pool.wakeAll, List.getElem?_map, hw, Option.map_some, if_neg hb]
  cases h with
  | created | grew =>
    simp only [Pool.goto, Pool.spawn]
    rw [List.getElem?_append_left (List.getElem?_eq_some_iff.1 hw).1]
    exact hw
  | broadcastShutdown | broadcastDiscard => exact hall
  | signalled _ hwake | finishSignalled _ hwake =>
    rcases wake_cases hwake with ⟨-, rfl⟩ | ⟨v, hv, rfl⟩
    · exact hw
    · exact hset _ hv fun _ => rfl
  | block hv | exit hv | take hv => exact hset _ hv fun hvw => absurd (hvw ▸ rfl) hwork
  | complete hv | threadFinish hv => exact hset _ hv fun hvw => absurd (hvw ▸ rfl) hcomplete
  | wakeUp hv => exact hset _ hv fun _ => rfl
  | _ => simpa using hw

/-- Tasks go into the queue at its end. They come out at its front, to a worker. -/
theorem queue_cases (hi : ServedInv n a) (h : Step a pa a') :
    (a'.log.dequeued = a.log.dequeued ∧ ∃ more, a'.queue = a.queue ++ more) ∨
      ∃ t, a.queue = t :: a'.queue ∧ a'.log.dequeued = a.log.dequeued ++ [t] := by
  have hserves := hi.control
  cases h with
  | take _ _ hq => exact .inr ⟨_, hq, rfl⟩
  | accepted => exact .inl ⟨rfl, _, rfl⟩
  | discard hc | finishQueued hc =>
    rw [hc] at hserves
    exact absurd hserves id
  | signalled _ hw | finishSignalled _ hw =>
    rw [wake_same hw]
    exact .inl ⟨rfl, [], (List.append_nil _).symm⟩
  | _ => exact .inl ⟨by simp, [], by simp⟩

/-- Where all workers are blocked they stay so until one is woken, and a signal does wake one. -/
theorem blocked_step (h : Step a pa a') (hb : ∀ worker ∈ a.workers, worker = .blocked) (hsome : .blocked ∈ a.workers) :
    .awake ∈ a'.workers ∨ (a'.workers = a.workers ∧ ∀ target, pa ≠ .signal target) := by
  have hno : ∀ {w : Nat} {worker : Worker}, a.workers[w]? = some worker → worker = .blocked :=
    fun hw => hb _ (mem_of_worker hw)
  have hset : ∀ {w : Nat}, a.workers[w]? = some .blocked → .awake ∈ a.workers.set w .awake :=
    fun hw => List.mem_iff_getElem?.2 ⟨_, List.getElem?_set_self (List.getElem?_eq_some_iff.1 hw).1⟩
  have hall : .awake ∈ a.wakeAll.workers := List.mem_map.2 ⟨_, hsome, if_pos rfl⟩
  cases h with
  | created | grew => exact .inl (List.mem_append_right _ List.mem_cons_self)
  | broadcastShutdown | broadcastDiscard => exact .inl hall
  | signalled _ hwake | finishSignalled _ hwake =>
    rcases wake_cases hwake with ⟨hnone, -⟩ | ⟨w, hw, rfl⟩
    · exact absurd hsome hnone
    · exact .inl (hset hw)
  | wakeUp hw => exact .inl (hset hw)
  | block hw | exit hw | take hw | complete hw | threadFinish hw => cases hno hw
  | _ => exact .inr ⟨by simp, by simp⟩

/-- Before the first worker is created, nothing but its creation has to be waited for. -/
theorem unstaffed_step (hn : 1 ≤ n) (hi : ServedInv n a) (hok : Served a pa) (hlimit : a'.control ≠ .overrun)
    (h : Step a pa a') (hw : a.workers = []) (hc : a.control ≠ .overrun) :
    .awake ∈ a'.workers ∨ (a'.workers = [] ∧ (∀ success, pa ≠ .create success) ∧ pa ≠ .proceed) := by
  obtain ⟨size, i, hcreating⟩ := (hi.staffed hw).resolve_left hc
  have hi0 : i = 0 := by rw [← hi.creating size i hcreating, hw, List.length_nil]
  have hsize : size = n := by simpa [hcreating, Control.Serves] using hi.control
  have hnone : ∀ {w : Nat} {worker : Worker}, a.workers[w]? ≠ some worker := by simp [hw]
  cases h with
  | created | grew => exact .inl (List.mem_append_right _ List.mem_cons_self)
  | overrun => exact absurd rfl hlimit
  | createFailed | cleanUp | growFailed => exact absurd hok (by simp [Served])
  | allCreated hc' hle =>
    rw [hcreating] at hc'
    cases hc'
    omega
  | block hw' | exit hw' | take hw' | complete hw' | threadFinish hw' | wakeUp hw' => exact absurd hw' hnone
  | signalled _ hwake | finishSignalled _ hwake =>
    rcases wake_cases hwake with ⟨-, rfl⟩ | ⟨w, hw', -⟩
    · exact .inr ⟨hw, by simp, by simp⟩
    · exact absurd hw' hnone
  | invalid | refused | finishUnaccepted | accepted => exact .inr ⟨hw, by simp, by simp⟩
  | _ => simp_all

/-- A pool is destroyed where `finish` returns. -/
theorem destroyed_step (hi : ServedInv n a) (hpa : pa ≠ .destroy) (h : Step a pa a') (hd : a.destroyed = false)
    (hd' : a'.destroyed = true) : a'.returned = some (.resize 0 false false, .ok) := by
  have hserves := hi.control
  cases h with
  | destroyed => exact absurd rfl hpa
  | finished hc =>
    rw [hc] at hserves
    obtain rfl := hserves
    rfl
  | signalled _ hw | finishSignalled _ hw =>
    rw [wake_same hw] at hd'
    simp [hd] at hd'
  | _ => simp_all

end

/-! ## Threads -/

/-- Threads that have something to do without being called. -/
inductive Thread where
  /-- In `sph_future_init` or `sph_future_deinit`. -/
  | control
  /-- In `sph_future_new`, with only the signal left. -/
  | signaller
  | worker (w : Nat)
  deriving DecidableEq, Repr

def Action.thread : Action F D → Option Thread
  | .create _ => some .control
  | .proceed => some .control
  | .initReturns => some .control
  | .deinitReturns => some .control
  | .signal _ => some .signaller
  | .work w => some (.worker w)
  | .apply w => some (.worker w)
  | .store w _ => some (.worker w)
  | .publish w => some (.worker w)
  | .complete w => some (.worker w)
  | _ => none

/-- The actions of a thread. -/
def Thread.takes (thread : Thread) (action : Action F D) : Prop := action.thread = some thread

/-- Steps of runs as in `Used`, in which every future comes to a pool that
accepts it, less than 2 ^ 32 are queued at once, and futures only touch such as
the pool has accepted before them. -/
def Orderly (touches : Nat → List Nat) (s : State F D) (action : Action F D) : Prop :=
  Used s action ∧ Accepting s action ∧ Bounded s action ∧ Earlier touches s action ∧ Waits touches s action

/-- What a worker does next in `sph_future_eval`. -/
def Eval.next : Eval → Eval
  | .entered => .applying
  | .applying => .stored
  | .stored => .published
  | .published => .published

theorem Eval.remaining_next {e : Eval} (he : e ≠ .published) : e.next.remaining + 1 = e.remaining := by
  cases e with
  | published => exact absurd rfl he
  | _ => rfl

/-- A step moves no worker on but its own. Of the objects it changes one at most,
which stays finished unless it is made. -/
theorem step_frame (h : step s action = some s') :
    (s'.evals = s.evals ∨ ∃ w e, action.thread = some (.worker w) ∧ s'.evals = Function.update s.evals w e) ∧
      (s'.objects = s.objects ∨ ∃ id o, s'.objects = Function.update s.objects id o ∧
        ((s.objects id).finished = true → o.finished = true ∨ ∃ f d, action = .prepare id f d)) := by
  cases action with
  | create success | proceed | signal target | wakeUp v =>
    obtain ⟨p, -, rfl⟩ := poolStep_eq h
    exact ⟨.inl rfl, .inl rfl⟩
  | enqueue id =>
    simp only [step, State.enqueue] at h
    split at h
    · obtain ⟨s₁, hs₁, rfl⟩ := Option.map_eq_some_iff.1 h
      obtain ⟨p, -, rfl⟩ := poolStep_eq hs₁
      exact ⟨.inl rfl, .inl rfl⟩
    · cases h
  | deinit =>
    simp only [step, State.deinit] at h
    split at h
    · split at h
      · obtain ⟨s₁, hs₁, rfl⟩ := Option.map_eq_some_iff.1 h
        obtain ⟨p, -, rfl⟩ := poolStep_eq hs₁
        exact ⟨.inl rfl, .inl rfl⟩
      · cases h
        exact ⟨.inl rfl, .inl rfl⟩
    · cases h
  | work v =>
    obtain ⟨s₁, hs₁, rfl⟩ := Option.map_eq_some_iff.1 h
    obtain ⟨p, -, rfl⟩ := poolStep_eq hs₁
    exact ⟨.inr ⟨v, _, rfl, rfl⟩, .inl rfl⟩
  | complete v =>
    simp only [step, State.complete] at h
    split at h
    · obtain ⟨p, -, rfl⟩ := poolStep_eq h
      exact ⟨.inl rfl, .inl rfl⟩
    · cases h
  | init | initReturns | deinitReturns | read id =>
    simp only [step, State.init, State.initReturns, State.deinitReturns, State.read] at h
    split at h <;> cases h
    exact ⟨.inl rfl, .inl rfl⟩
  | apply v =>
    simp only [step, State.apply] at h
    split at h <;> cases h
    exact ⟨.inr ⟨v, _, rfl, rfl⟩, .inl rfl⟩
  | store v result =>
    simp only [step, State.store] at h
    split at h <;> cases h
    exact ⟨.inr ⟨v, _, rfl, rfl⟩, .inr ⟨_, _, rfl, .inl⟩⟩
  | publish v =>
    simp only [step, State.publish] at h
    split at h <;> cases h
    exact ⟨.inr ⟨v, _, rfl, rfl⟩, .inr ⟨_, _, rfl, fun _ => .inl rfl⟩⟩
  | prepare id f data =>
    cases h
    exact ⟨.inl rfl, .inr ⟨id, _, rfl, fun _ => .inr ⟨f, data, rfl⟩⟩⟩
  | poll id =>
    cases h
    unfold State.poll
    split <;> exact ⟨.inl rfl, .inl rfl⟩

/-- Workers go on in `sph_future_eval` by themselves. -/
theorem evals_other {w : Nat} (h : step s action = some s') (hother : ¬ (Thread.worker w).takes action) :
    s'.evals w = s.evals w := by
  rcases (step_frame h).1 with hsame | ⟨v, e, hv, hevals⟩
  · rw [hsame]
  · rw [hevals]
    apply Function.update_of_ne
    rintro rfl
    exact hother hv

/-- A worker that is not blocked stays where it is in the pool until it goes on itself. -/
theorem worker_other {w : Nat} {worker : ThreadPool.Worker} (hw : s.pool.workers[w]? = some worker)
    (hb : worker ≠ .blocked) (h : step s action = some s') (hother : ¬ (Thread.worker w).takes action) :
    s'.pool.workers[w]? = some worker := by
  have hpool := step_pool h
  cases hpa : poolAction s action with
  | none =>
    simp only [hpa] at hpool
    rwa [hpool]
  | some pa =>
    simp only [hpa] at hpool
    have hne : pa ≠ .work w ∧ pa ≠ .complete w := by
      cases action with
      | work v | complete v =>
        cases hpa
        simpa [Thread.takes, Action.thread] using hother
      | deinit =>
        simp only [poolAction] at hpa
        split at hpa <;> cases hpa
        simp
      | _ => cases hpa <;> simp
    exact worker_stays (ThreadPool.step_cases hpool) hw hb hne.1 hne.2

/-- A worker in `sph_future_eval` goes on in it, or returns from it. -/
theorem running_own {w id : Nat} (hw : s.evaluated w = some id) (h : step s action = some s')
    (hown : (Thread.worker w).takes action) :
    (s.evals w ≠ .published ∧ s'.evaluated w = some id ∧ s'.evals w = (s.evals w).next) ∨
      (s.evals w = .published ∧ s'.pool.workers[w]? = some .awake) := by
  have hrunning := evaluated_eq hw
  cases action with
  | work v =>
    cases hown
    obtain ⟨s₁, hs₁, rfl⟩ := Option.map_eq_some_iff.1 h
    obtain ⟨p, hp, rfl⟩ := poolStep_eq hs₁
    cases ThreadPool.step_cases hp with
    | block hv | exit hv | take hv => cases hrunning.symm.trans hv
  | complete v =>
    cases hown
    simp only [step, State.complete] at h
    split at h
    · rename_i he
      obtain ⟨p, hp, rfl⟩ := poolStep_eq h
      refine .inr ⟨he, ?_⟩
      cases ThreadPool.step_cases hp with
      | complete => exact List.getElem?_set_self (List.getElem?_eq_some_iff.1 hrunning).1
      | threadFinish hv => cases hrunning.symm.trans hv
    · cases h
  | apply v | store v result | publish v =>
    cases hown
    simp only [step, State.apply, State.store, State.publish] at h
    split at h
    · rename_i he
      cases h
      exact .inl ⟨by simp [he], hw, by rw [he]; exact Function.update_self ..⟩
    · cases h
  | _ => cases hown

/-- A future that is made is not made again, so it stays finished. -/
theorem finished_stays (h : step s action = some s') (hused : Used s action) {id : Nat}
    (hmade : ∃ f d, (s.record id).new = some (f, d))
    (hfinished : (s.objects id).finished = true) : (s'.objects id).finished = true := by
  rcases (step_frame h).2 with hsame | ⟨id', o, hobjects, ho⟩
  · rwa [hsame]
  rw [hobjects, Function.update_apply]
  split
  · subst id'
    rcases ho hfinished with ho | ⟨f, data, rfl⟩
    · exact ho
    · obtain ⟨f', d', hnew⟩ := hmade
      cases hnew.symm.trans hused
  · exact hfinished

/-! ## Orderly runs -/

/-- What holds in every state of an orderly run. -/
structure OrderlyInv (n : Nat) (touches : Nat → List Nat) (s : State F D) : Prop where
  futures : FutureInv s
  control : ThreadPool.ControlInv s.pool
  served : ThreadPool.ServedInv n s.pool
  wake : ThreadPool.WakeInv s.pool
  room : s.pool.queue.length < 2 ^ 32
  inside : s.pool.control ≠ .overrun
  /-- The pool and its workers are there as long as there is something in the queue. -/
  serving : s.pool.queue ≠ [] → s.pool.destroyed = false ∧ .exited ∉ s.pool.workers
  order : s.pool.log.accepted = s.pool.log.dequeued ++ s.pool.queue
  evaluated : ∀ w id, s.evaluated w = some id → .user id ∈ s.pool.log.dequeued
  /-- What a worker has taken it evaluates, or it is finished. -/
  taken : ∀ id, .user id ∈ s.pool.log.dequeued → (∃ w, s.evaluated w = some id) ∨ (s.objects id).finished = true
  waiting : ∀ id, .user id ∈ s.pool.queue → (s.objects id).finished = false
  ordered : Ordered touches s.pool.log.accepted
  prepared : ∀ id ∈ s.prepared, .user id ∈ s.pool.log.accepted

section
variable {limit junk : Nat} {objects : Nat → Future F D} {as : List (Action F D)} (hn : 1 ≤ n)
include hn

/-- When the pool is destroyed `finish` has returned. -/
theorem returned_of_destroyed (h : Run step Used (start limit n junk objects) as s) (hd : s.pool.destroyed = true) :
    ∃ code, s.pool.returned = some (.resize 0 false false, code) := by
  refine h.inv₂ (I := fun s => s.pool.destroyed = true → ∃ code, s.pool.returned = some (.resize 0 false false, code))
    (fun _ _ hr => futureInv_run hn hr) (by simp [start, ThreadPool.start]) ?_ hd
  rintro s action s' ⟨hi, bs, hp⟩ hreturned hok hs hd'
  have hpool := step_pool hs
  cases hpa : poolAction s action with
  | none =>
    simp only [hpa] at hpool
    rw [hpool] at hd' ⊢
    exact hreturned hd'
  | some pa =>
    simp only [hpa] at hpool
    have hne : pa ≠ .destroy := by
      rintro rfl
      cases action with
      | deinit =>
        simp only [poolAction] at hpa
        split at hpa <;> cases hpa
      | _ => cases hpa
    exact ⟨_, destroyed_step (ThreadPool.servedInv_run hn hp) hne (ThreadPool.step_cases hpool)
      (ThreadPool.not_destroyed hpool) hd'⟩

theorem orderlyInv_run (hlimit : n ≤ limit) (h : Run step (Orderly touches) (start limit n junk objects) as s) :
    OrderlyInv n touches s := by
  have hused : Run step Used (start limit n junk objects) as s := h.mono fun _ _ => And.left
  have haccepting : Run step Accepting (start limit n junk objects) as s := h.mono fun _ _ hok => hok.2.1
  obtain ⟨hi, -, -⟩ := futureInv_run hn hused
  obtain ⟨bs, hp⟩ := pool_run hn (h.mono fun _ _ hok => And.intro hok.1 hok.2.2.1)
  have hpool := hp.mono fun _ _ => And.left
  have hdrain := ThreadPool.drainInv_run hn hp
  have hserved := ThreadPool.servedInv_run hn hpool
  obtain ⟨q, hrep, -⟩ := ThreadPool.refines_workQueue hn hpool
  have horder : s.pool.log.accepted = s.pool.log.dequeued ++ s.pool.queue := by
    rw [hrep.accepted, hrep.taken, hrep.waiting, q.order]
  have hdone : ∀ id, id ∈ s.pool.log.completed → (s.objects id).finished = true := by
    intro id hid
    have hacc := ThreadPool.accepted_of_dequeued hn hpool ((ThreadPool.dequeued_iff hn hpool id).2 (.inr hid))
    obtain ⟨f, d, hnew⟩ := hi.made hacc
    obtain ⟨v, ho, -⟩ := (hi.each id).completed f d hnew hid
    rw [ho]
  refine ⟨hi, ThreadPool.controlInv_run hp, hserved, ThreadPool.wakeInv_run (hp.mono fun _ _ _ => trivial),
    hdrain.room, ?_, ?_, horder, fun _ _ hw => dequeued_of_running hn hpool (evaluated_eq hw), ?_, ?_, ?_, ?_⟩
  · have hcalled : ThreadPool.Called limit n s.pool :=
      hp.inv (.new (Nat.le_refl n)) fun _ _ _ hc _ hs => hc.step hs
    intro hoverrun
    have hwithin := (hcalled.within hlimit).2
    rwa [hoverrun] at hwithin
  · intro hqueue
    refine ⟨?_, fun hexited => hqueue (hdrain.drained hexited).2⟩
    cases hd : s.pool.destroyed with
    | false => rfl
    | true =>
      obtain ⟨code, hreturned⟩ := returned_of_destroyed hn hused hd
      exact absurd (ThreadPool.drained_of_finish hn hp hreturned).1 hqueue
  · intro id hid
    rcases (ThreadPool.dequeued_iff hn hpool id).1 hid with hrunning | hcompleted
    · obtain ⟨w, hw⟩ := List.mem_iff_getElem?.1 hrunning
      exact .inl ⟨w, evaluated_of_running hw⟩
    · exact .inr (hdone id hcompleted)
  · intro id hid
    have hdistinct := hserved.distinct
    rw [horder] at hdistinct
    obtain ⟨f, d, hnew⟩ := hi.made ((accepted_iff hn hpool).2 (.inr hid))
    have hwaiting : .user id ∉ s.pool.log.dequeued := fun hdeq => (List.nodup_append.1 hdistinct).2.2 _ hdeq _ hid rfl
    rw [((hi.each id).waiting f d hnew hwaiting).1]
  · exact ordered_run hn (h.mono fun _ _ hok => And.intro hok.1 hok.2.2.2.1)
  · intro id hid
    refine ((preparedInv_run hused).settled id hid).resolve_right ?_
    rw [(refused_eq_nil_iff hused rfl).2 haccepting]
    exact List.not_mem_nil

end

/-! ## A future at the front of the queue is taken -/

/-- The future is at the front of the queue, and what was taken before it is finished. -/
structure Next (s : State F D) (id : Nat) : Prop where
  front : ∃ rest, s.pool.queue = .user id :: rest
  before : ∀ id', .user id' ∈ s.pool.log.dequeued → (s.objects id').finished = true

/-- It has been taken, or a worker is about to lock the mutex. -/
def AtHand (s : State F D) (id : Nat) : Prop := .user id ∈ s.pool.log.dequeued ∨ Next s id ∧ .awake ∈ s.pool.workers

section
variable {id : Nat}

theorem OrderlyInv.made (hi : OrderlyInv n touches s) {id : Nat} (hid : .user id ∈ s.pool.log.dequeued) :
    ∃ f d, (s.record id).new = some (f, d) :=
  hi.futures.made (hi.order ▸ List.mem_append_left _ hid)

theorem Next.serving (h : Next s id) (hi : OrderlyInv n touches s) :
    s.pool.destroyed = false ∧ .exited ∉ s.pool.workers ∧ s.pool.queueSize ≠ 0 := by
  obtain ⟨rest, hq⟩ := h.front
  have hroom := hi.room
  obtain ⟨hd, hexited⟩ := hi.serving (by rw [hq]; exact List.cons_ne_nil _ _)
  refine ⟨hd, hexited, ?_⟩
  rw [ThreadPool.Pool.queueSize, Nat.mod_eq_of_lt hroom, hq]
  exact Nat.succ_ne_zero _

theorem accepted_step (hi : OrderlyInv n touches s) (hs : step s action = some s') :
    s.pool.log.accepted <+: s'.pool.log.accepted := by
  have hpool := step_pool hs
  cases hpa : poolAction s action with
  | none =>
    simp only [hpa] at hpool
    rw [hpool]
  | some pa =>
    simp only [hpa] at hpool
    rcases accepted_cases hi.served (ThreadPool.step_cases hpool) with hsame | ⟨t, -, -, hmore⟩
    · rw [hsame]
    · rw [hmore]
      exact List.prefix_append _ _

/-- The future has been accepted, and is finished. -/
def Finished (s : State F D) (id : Nat) : Prop := .user id ∈ s.pool.log.accepted ∧ (s.objects id).finished = true

theorem finished_step (hi : OrderlyInv n touches s) (hok : Orderly touches s action) (hs : step s action = some s')
    (h : Finished s id) : Finished s' id :=
  ⟨(accepted_step hi hs).subset h.1, finished_stays hs hok.1 (hi.futures.made h.1) h.2⟩

/-- It stays there until it is taken. -/
theorem next_step (hi : OrderlyInv n touches s) (hok : Orderly touches s action) (hs : step s action = some s')
    (h : Next s id) : Next s' id ∨ .user id ∈ s'.pool.log.dequeued := by
  obtain ⟨rest, hq⟩ := h.front
  have hstays : ∀ id', .user id' ∈ s.pool.log.dequeued → (s'.objects id').finished = true :=
    fun id' hid' => finished_stays hs hok.1 (hi.made hid') (h.before id' hid')
  have hpool := step_pool hs
  cases hpa : poolAction s action with
  | none =>
    simp only [hpa] at hpool
    exact .inl ⟨⟨rest, by rw [hpool, hq]⟩, by rwa [hpool]⟩
  | some pa =>
    simp only [hpa] at hpool
    rcases queue_cases hi.served (ThreadPool.step_cases hpool) with ⟨hdeq, more, hmore⟩ | ⟨t, ht, hdeq⟩
    · exact .inl ⟨⟨rest ++ more, by rw [hmore, hq, List.cons_append]⟩, by rwa [hdeq]⟩
    · rw [hq] at ht
      cases ht
      right
      rw [hdeq]
      exact List.mem_append_right _ List.mem_cons_self

/-- A future that is not taken is the next, if those before it are finished. -/
theorem next_of_before (hi : OrderlyInv n touches s) {k : Nat} (hk : s.pool.log.accepted[k]? = some (.user id))
    (hnot : .user id ∉ s.pool.log.dequeued)
    (hbefore : ∀ j < k, ∀ id', s.pool.log.accepted[j]? = some (.user id') → (s.objects id').finished = true) :
    Next s id := by
  have hle : s.pool.log.dequeued.length ≤ k := by
    by_contra hlt
    rw [hi.order, List.getElem?_append_left (Nat.lt_of_not_le hlt)] at hk
    exact hnot (List.mem_of_getElem? hk)
  have hge : k ≤ s.pool.log.dequeued.length := by
    by_contra hlt
    have hlen := (List.getElem?_eq_some_iff.1 hk).1
    -- else the first in the queue would be finished
    cases hq : s.pool.queue with
    | nil => simp [hi.order, hq] at hlen; omega
    | cons task rest =>
      cases task with
      | threadFinish => exact hi.served.returning.1 (by rw [hq]; exact List.mem_cons_self)
      | user id' =>
        have hfinished := hbefore _ (Nat.lt_of_not_le hlt) id' (by rw [hi.order, hq]; simp)
        have hwaiting := hi.waiting id' (by rw [hq]; exact List.mem_cons_self)
        rw [hwaiting] at hfinished
        cases hfinished
  obtain rfl : k = s.pool.log.dequeued.length := Nat.le_antisymm hge hle
  constructor
  · rw [hi.order, List.getElem?_append_right (Nat.le_refl _), Nat.sub_self] at hk
    cases hq : s.pool.queue with
    | nil => simp [hq] at hk
    | cons task rest =>
      rw [hq] at hk
      cases hk
      exact ⟨rest, rfl⟩
  · intro id' hid'
    obtain ⟨j, hj⟩ := List.mem_iff_getElem?.1 hid'
    have hlt := (List.getElem?_eq_some_iff.1 hj).1
    exact hbefore j hlt id' (by rw [hi.order, List.getElem?_append_left hlt]; exact hj)

/-- What a future touches is before it. -/
theorem OrderlyInv.touched_before (hi : OrderlyInv n touches s) {k touched : Nat}
    (hk : s.pool.log.accepted[k]? = some (.user id)) (ht : touched ∈ touches id)
    (hbefore : ∀ j < k, s.pool.log.accepted[j]? = some (.user touched) → Finished s touched) : Finished s touched := by
  obtain ⟨hlen, hget⟩ := List.getElem?_eq_some_iff.1 hk
  have hindex : s.pool.log.accepted.idxOf (.user id) = k := by
    rw [← hget]
    exact hi.served.distinct.idxOf_getElem k hlen
  have hlt := hi.ordered id (List.mem_of_getElem? hk) touched ht
  rw [hindex] at hlt
  have hmem : .user touched ∈ s.pool.log.accepted := List.idxOf_lt_length_iff.1 (Nat.lt_trans hlt hlen)
  exact hbefore _ hlt (List.getElem?_idxOf hmem)

/-! ## What threads can do then -/

/-- What threads do without being called enqueues nothing. -/
theorem can_of_takes (a : Action F D) {thread : Thread} (hown : thread.takes a) (hused : Used s a)
    (hwaits : Waits touches s a) (h : (step s a).isSome = true) : CanAct step (Orderly touches) thread.takes s := by
  refine ⟨a, hown, ⟨hused, ?_, ?_, ?_, hwaits⟩, h⟩
  · rintro id rfl
    cases hown
  · rintro id rfl
    cases hown
  · cases a with
    | enqueue => cases hown
    | _ => trivial

/-- A worker that comes to lock the mutex takes it. -/
theorem awake_own (hi : OrderlyInv n touches s) (h : Next s id) {w : Nat} (hw : s.pool.workers[w]? = some .awake)
    (hs : step s action = some s') (hown : (Thread.worker w).takes action) : .user id ∈ s'.pool.log.dequeued := by
  obtain ⟨rest, hq⟩ := h.front
  obtain ⟨-, -, hsize⟩ := h.serving hi
  have hnone : s.evaluated w = none := by simp [State.evaluated, hw]
  cases action with
  | work v =>
    cases hown
    obtain ⟨s₁, hs₁, rfl⟩ := Option.map_eq_some_iff.1 hs
    obtain ⟨p, hp, rfl⟩ := poolStep_eq hs₁
    cases ThreadPool.step_cases hp with
    | block _ h0 | exit _ h0 => exact absurd h0 hsize
    | take _ _ hq' =>
      rw [hq] at hq'
      cases hq'
      exact List.mem_append_right _ List.mem_cons_self
  | apply v | store v result | publish v =>
    cases hown
    simp [step, State.apply, State.store, State.publish, hnone] at hs
  | complete v =>
    cases hown
    simp only [step, State.complete] at hs
    split at hs
    · obtain ⟨p, hp, rfl⟩ := poolStep_eq hs
      cases ThreadPool.step_cases hp with
      | complete hv | threadFinish hv => cases hw.symm.trans hv
    · cases hs
  | _ => cases hown

/-- It can. -/
theorem awake_can (hi : OrderlyInv n touches s) (h : Next s id) {w : Nat} (hw : s.pool.workers[w]? = some .awake) :
    CanAct step (Orderly touches) (Thread.worker w).takes s := by
  obtain ⟨rest, hq⟩ := h.front
  obtain ⟨hd, -, hsize⟩ := h.serving hi
  refine can_of_takes (.work w) rfl trivial trivial ?_
  simp [step, State.work, State.poolStep, ThreadPool.step, ThreadPool.Pool.work, hd, hw, hsize, hq]

/-- A worker that has evaluated a future that is finished is about to return. -/
theorem published_of_finished (hi : OrderlyInv n touches s) {w id' : Nat} (hw : s.evaluated w = some id')
    (hfinished : (s.objects id').finished = true) : s.evals w = .published := by
  obtain ⟨f, d, hnew⟩ := hi.made (hi.evaluated w id' hw)
  obtain ⟨stage, hat, hholds⟩ := (hi.futures.each id').running w f d hnew (evaluated_eq hw)
  generalize s.evals w = e at hat
  cases hat with
  | published => rfl
  | _ => simp [hholds.1] at hfinished

theorem finished_of_published (hi : OrderlyInv n touches s) {w id' : Nat} (hw : s.evaluated w = some id')
    (hp : s.evals w = .published) : (s.objects id').finished = true := by
  obtain ⟨f, d, hnew⟩ := hi.made (hi.evaluated w id' hw)
  obtain ⟨stage, hat, hholds⟩ := (hi.futures.each id').running w f d hnew (evaluated_eq hw)
  rw [hp] at hat
  cases hat
  rw [hholds.1]

/-- It can then. -/
theorem published_can (hi : OrderlyInv n touches s) (h : Next s id) {w id' : Nat} (hw : s.evaluated w = some id')
    (hp : s.evals w = .published) : CanAct step (Orderly touches) (Thread.worker w).takes s := by
  obtain ⟨hd, -, -⟩ := h.serving hi
  refine can_of_takes (.complete w) rfl trivial trivial ?_
  simp [step, State.complete, hp, State.poolStep, ThreadPool.step, ThreadPool.Pool.complete, hd, evaluated_eq hw]

/-- While all workers are blocked a signal is on its way. -/
theorem signaller_can (hi : OrderlyInv n touches s) (h : Next s id) (hb : ∀ worker ∈ s.pool.workers, worker = .blocked)
    (hsome : .blocked ∈ s.pool.workers) : CanAct step (Orderly touches) Thread.signaller.takes s := by
  obtain ⟨hd, -, hsize⟩ := h.serving hi
  have hroom := hi.wake.room hsome
  have hawake : s.pool.workers.count .awake = 0 := by
    rw [List.count_eq_zero]
    exact fun hmem => ThreadPool.Worker.noConfusion (hb _ hmem)
  have hsends : s.pool.control.sends = 0 := by
    have hserves := hi.served.control
    cases hc : s.pool.control with
    | signal f i =>
      rw [hc] at hserves
      cases hserves
    | _ => rfl
  have hsignals : s.pool.signals ≠ 0 := by
    rw [ThreadPool.Pool.pendingSignals] at hroom
    omega
  obtain ⟨w, hw⟩ := List.mem_iff_getElem?.1 hsome
  refine can_of_takes (.signal (some w)) rfl trivial trivial ?_
  simp [step, State.poolStep, ThreadPool.step, ThreadPool.Pool.wake, hd, hsignals, hw]

/-- Before there are workers, `sph_thread_pool_new` has the first to create. -/
theorem control_can (hn : 1 ≤ n) (hi : OrderlyInv n touches s) (h : Next s id) (hw : s.pool.workers = []) :
    CanAct step (Orderly touches) Thread.control.takes s := by
  obtain ⟨hd, -, -⟩ := h.serving hi
  obtain ⟨size, i, hc⟩ := (hi.served.staffed hw).resolve_left hi.inside
  have hi0 : i = 0 := by rw [← hi.served.creating size i hc, hw, List.length_nil]
  have hsize : size = n := by simpa [hc, ThreadPool.Control.Serves] using hi.served.control
  have hgo : ¬ size ≤ 0 := by omega
  refine can_of_takes (.create true) rfl rfl trivial ?_
  simp [step, State.poolStep, ThreadPool.step, ThreadPool.Pool.create, hd, hc, hi0, hgo]

/-- The workers stay blocked until one is woken, and a signal does wake one. -/
theorem blocked_other (hb : ∀ worker ∈ s.pool.workers, worker = .blocked) (hsome : .blocked ∈ s.pool.workers)
    (hs : step s action = some s') :
    .awake ∈ s'.pool.workers ∨ (s'.pool.workers = s.pool.workers ∧ ¬ Thread.signaller.takes action) := by
  have hpool := step_pool hs
  cases hpa : poolAction s action with
  | none =>
    simp only [hpa] at hpool
    refine .inr ⟨by rw [hpool], fun hown => ?_⟩
    cases action with
    | signal target => cases hpa
    | _ => cases hown
  | some pa =>
    simp only [hpa] at hpool
    refine (blocked_step (ThreadPool.step_cases hpool) hb hsome).imp_right fun ⟨hsame, hsignal⟩ => ⟨hsame, fun hown => ?_⟩
    cases action with
    | signal target =>
      cases hpa
      exact hsignal _ rfl
    | _ => cases hown

/-- There are no workers until one is created, and nothing else is asked of the thread that does. -/
theorem unstaffed_other (hn : 1 ≤ n) (hi : OrderlyInv n touches s) (hinside : s'.pool.control ≠ .overrun)
    (hok : Used s action) (hw : s.pool.workers = []) (hs : step s action = some s') :
    .awake ∈ s'.pool.workers ∨ (s'.pool.workers = [] ∧ ¬ Thread.control.takes action) := by
  have hpool := step_pool hs
  have hreturned : s.pool.returned = none := by
    obtain ⟨size, i, hc⟩ := (hi.served.staffed hw).resolve_left hi.inside
    by_contra hr
    obtain ⟨r, hr⟩ := Option.ne_none_iff_exists'.1 hr
    cases hc.symm.trans (hi.control.idle r hr)
  cases hpa : poolAction s action with
  | none =>
    simp only [hpa] at hpool
    refine .inr ⟨by rw [hpool, hw], fun hown => ?_⟩
    cases action with
    | create | proceed => cases hpa
    | initReturns | deinitReturns => simp [step, State.initReturns, State.deinitReturns, hreturned] at hs
    | _ => cases hown
  | some pa =>
    simp only [hpa] at hpool
    rcases unstaffed_step hn hi.served (served_of_used hi.futures hok hs hpa) hinside (ThreadPool.step_cases hpool) hw
      hi.inside with hawake | ⟨hnone, hcreate, hproceed⟩
    · exact .inl hawake
    refine .inr ⟨hnone, fun hown => ?_⟩
    cases action with
    | create success =>
      cases hpa
      exact hcreate _ rfl
    | proceed =>
      cases hpa
      exact hproceed rfl
    | initReturns | deinitReturns => cases hpa
    | _ => cases hown

/-- A worker whose future finds finished what it touches can go on. -/
theorem eval_can {w : Nat} (hw : s.evaluated w = some id) (hne : s.evals w ≠ .published)
    (ht : ∀ touched ∈ touches id, (s.objects touched).finished = true) :
    CanAct step (Orderly touches) (Thread.worker w).takes s := by
  cases he : s.evals w with
  | entered => exact can_of_takes (.apply w) rfl trivial trivial (by simp [step, State.apply, hw, he])
  | applying =>
    refine can_of_takes (.store w (s.objects id).data) rfl trivial ?_ (by simp [step, State.store, hw, he])
    intro id' hid'
    obtain rfl := Option.some.inj (hw.symm.trans hid')
    exact ht
  | stored => exact can_of_takes (.publish w) rfl trivial trivial (by simp [step, State.publish, hw, he])
  | published => exact absurd he hne

end

end SphSc.Futures

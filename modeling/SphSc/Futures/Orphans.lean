import SphSc.Futures.Deinit
/-!
# Futures that nobody will evaluate

`sph_future_new` does not look at what `sph_thread_pool_enqueue` returns. A
future whose task the pool refuses is never evaluated, and every other one is
queued, evaluated or finished.
-/
open Runs

namespace SphSc.Futures

variable {F D : Type} {s s' : State F D} {action : Action F D} {n : Nat}

/-- The future is in the queue, a worker evaluates it, or it is finished. -/
def Delivered (s : State F D) (id : Nat) : Prop :=
  .user id ∈ s.pool.queue ∨ (∃ w, s.evaluated w = some id) ∨ (s.objects id).finished = true

/-- No `sph_future_new` comes to enqueue its task after the pool has stopped accepting tasks. -/
def Accepting (s : State F D) (action : Action F D) : Prop := ∀ id, action = .enqueue id → s.pool.accepting = true

theorem evaluated_iff {w id : Nat} : s.evaluated w = some id ↔ s.pool.workers[w]? = some (.running (.user id)) := by
  unfold State.evaluated
  split <;> simp_all

/-! ## What is refused -/

theorem refused_step {a a' : ThreadPool.Pool} {pa : ThreadPool.Action} (h : ThreadPool.Step a pa a') :
    a'.log.refused = a.log.refused ∨ ∃ id, pa = .enqueue (some (.user id)) ∧ a.accepting = false ∧
      a'.log.refused = a.log.refused ++ [id] := by
  cases h with
  | refused _ hacc => exact .inr ⟨_, rfl, hacc, rfl⟩
  | signalled _ hw | finishSignalled _ hw =>
    rw [ThreadPool.wake_same hw]
    exact .inl rfl
  | _ => exact .inl (by simp)

theorem prepared_step (h : step s action = some s') :
    s'.prepared = s.prepared ++ (match action with | .enqueue id => [id] | _ => []) := by
  cases action with
  | create success | proceed | signal target | wakeUp w =>
    obtain ⟨p, -, rfl⟩ := poolStep_eq h
    simp
  | work w =>
    obtain ⟨s₁, hs₁, rfl⟩ := Option.map_eq_some_iff.1 h
    obtain ⟨p, -, rfl⟩ := poolStep_eq hs₁
    simp [State.setEval]
  | complete w =>
    simp only [step, State.complete] at h
    split at h
    · obtain ⟨p, -, rfl⟩ := poolStep_eq h
      simp
    · cases h
  | enqueue id =>
    -- whether the pool accepts the task or refuses it
    simp only [step, State.enqueue] at h
    split at h
    · obtain ⟨s₁, hs₁, rfl⟩ := Option.map_eq_some_iff.1 h
      obtain ⟨p, -, rfl⟩ := poolStep_eq hs₁
      rfl
    · cases h
  | deinit =>
    simp only [step, State.deinit] at h
    split at h
    · split at h
      · obtain ⟨s₁, hs₁, rfl⟩ := Option.map_eq_some_iff.1 h
        obtain ⟨p, -, rfl⟩ := poolStep_eq hs₁
        simp
      · cases h
        simp
    · cases h
  | init | initReturns | deinitReturns | read _ | apply _ | store _ _ | publish _ =>
    simp only [step, State.init, State.initReturns, State.deinitReturns, State.read, State.apply, State.store,
      State.publish] at h
    split at h
    · cases h
      simp [State.setRecord, State.setEval, State.setObject]
    · cases h
  | prepare id f d =>
    cases h
    simp [State.prepare, State.setRecord, State.setObject]
  | poll id =>
    cases h
    unfold State.poll
    split <;> simp

/-- The pool has either accepted or refused a future that has been prepared. -/
structure PreparedInv (s : State F D) : Prop where
  settled : ∀ id ∈ s.prepared, .user id ∈ s.pool.log.accepted ∨ id ∈ s.pool.log.refused
  refused : ∀ id ∈ s.pool.log.refused, id ∈ s.prepared

theorem preparedInv_start (limit junk : Nat) (objects : Nat → Future F D) :
    PreparedInv (start limit n junk objects) where
  settled := by simp [start]
  refused := by simp [start, ThreadPool.start]

/-- Nothing is refused or prepared. -/
theorem PreparedInv.of_same (hi : PreparedInv s) (hprep : s'.prepared = s.prepared)
    (href : s'.pool.log.refused = s.pool.log.refused)
    (hacc : ∀ t ∈ s.pool.log.accepted, t ∈ s'.pool.log.accepted) : PreparedInv s' where
  settled id hid := by
    rw [hprep] at hid
    rw [href]
    exact (hi.settled id hid).imp_left (hacc _)
  refused := by rw [hprep, href]; exact hi.refused

/-- A client's task is accepted or refused. -/
theorem enqueue_cases {a a' : ThreadPool.Pool} {id : Nat} (h : ThreadPool.Step a (.enqueue (some (.user id))) a') :
    (a.accepting = true ∧ a'.log.accepted = a.log.accepted ++ [.user id] ∧ a'.log.refused = a.log.refused) ∨
    (a.accepting = false ∧ a'.log.accepted = a.log.accepted ∧ a'.log.refused = a.log.refused ++ [id]) := by
  cases h with
  | refused hu hacc => exact .inr ⟨hacc, rfl, rfl⟩
  | accepted hu hacc => exact .inl ⟨hacc, rfl, rfl⟩

theorem preparedInv_enqueue (hi : PreparedInv s) {id : Nat} (hprep : s'.prepared = s.prepared ++ [id])
    (h : ThreadPool.Step s.pool (.enqueue (some (.user id))) s'.pool) : PreparedInv s' := by
  rcases enqueue_cases h with ⟨-, hacc, href⟩ | ⟨-, hacc, href⟩
  · constructor
    · intro id' hid'
      rw [hacc, href]
      rw [hprep] at hid'
      rcases List.mem_append.1 hid' with hid' | hid'
      · exact (hi.settled id' hid').imp_left (List.mem_append_left _)
      · obtain rfl := List.mem_singleton.1 hid'
        exact .inl (List.mem_append_right _ List.mem_cons_self)
    · intro id' hid'
      rw [hprep]
      rw [href] at hid'
      exact List.mem_append_left _ (hi.refused id' hid')
  · constructor
    · intro id' hid'
      rw [hacc, href]
      rw [hprep] at hid'
      rcases List.mem_append.1 hid' with hid' | hid'
      · exact (hi.settled id' hid').imp_right (List.mem_append_left _)
      · exact .inr (List.mem_append_right _ hid')
    · intro id' hid'
      rw [hprep]
      rw [href] at hid'
      rcases List.mem_append.1 hid' with hid' | hid'
      · exact List.mem_append_left _ (hi.refused id' hid')
      · exact List.mem_append_right _ hid'

/-- What the pool does in a step that enqueues no future. -/
theorem pool_step_other (h : step s action = some s') (hne : ∀ id, action ≠ .enqueue id) :
    s'.pool.log.refused = s.pool.log.refused ∧ ∀ t ∈ s.pool.log.accepted, t ∈ s'.pool.log.accepted := by
  have hpool := step_pool h
  cases hpa : poolAction s action with
  | none =>
    simp only [hpa] at hpool
    rw [hpool]
    exact ⟨rfl, fun _ => id⟩
  | some pa =>
    simp only [hpa] at hpool
    have hstep := ThreadPool.step_cases hpool
    refine ⟨?_, fun t => accepted_mono hstep⟩
    rcases refused_step hstep with hsame | ⟨id, rfl, -⟩
    · exact hsame
    · cases action <;> simp_all [poolAction]

theorem preparedInv_step (hi : PreparedInv s) (h : step s action = some s') : PreparedInv s' := by
  have hprep := prepared_step h
  by_cases hen : ∃ id, action = .enqueue id
  · obtain ⟨id, rfl⟩ := hen
    exact preparedInv_enqueue hi hprep (ThreadPool.step_cases (step_pool h))
  · have hne : ∀ id, action ≠ .enqueue id := fun id heq => hen ⟨id, heq⟩
    obtain ⟨href, hacc⟩ := pool_step_other h hne
    refine hi.of_same ?_ href hacc
    cases action <;> simp_all

/-! ## Runs -/

/-- Nothing is refused exactly when every future that was enqueued met a pool that accepts. -/
theorem refused_eq_nil_iff {s₀ : State F D} {as : List (Action F D)} {ok : State F D → Action F D → Prop}
    (h : Run step ok s₀ as s) (h₀ : s₀.pool.log.refused = []) :
    s.pool.log.refused = [] ↔ Run step Accepting s₀ as s := by
  induction h with
  | nil => exact ⟨fun _ => .nil, fun _ => h₀⟩
  | @snoc as action s s' hr _ hs ih =>
    have hlast : s'.pool.log.refused = [] ↔ s.pool.log.refused = [] ∧ Accepting s action := by
      by_cases hen : ∃ id, action = .enqueue id
      · obtain ⟨id, rfl⟩ := hen
        rcases enqueue_cases (ThreadPool.step_cases (step_pool hs)) with ⟨hacc, -, href⟩ | ⟨hacc, -, href⟩
        · simp [href, Accepting, hacc]
        · simp [href, Accepting, hacc]
      · have hne : ∀ id, action ≠ .enqueue id := fun id heq => hen ⟨id, heq⟩
        simp [(pool_step_other hs hne).1, Accepting, hne]
    rw [hlast, ih]
    constructor
    · rintro ⟨hrun, hacc⟩
      exact hrun.snoc hacc hs
    · intro hrun
      obtain ⟨t, ht, hacc, -⟩ := hrun.snoc_inv
      obtain rfl := hr.unique ht
      exact ⟨ht, hacc⟩

section
variable {limit junk : Nat} {bs : List ThreadPool.Action} (hn : 1 ≤ n)
  (hp : Run ThreadPool.step ThreadPool.Served (ThreadPool.start limit n junk) bs s.pool)
include hn hp

theorem accepted_iff {t : ThreadPool.Task} :
    t ∈ s.pool.log.accepted ↔ t ∈ s.pool.log.dequeued ∨ t ∈ s.pool.queue := by
  obtain ⟨q, hrep, -⟩ := ThreadPool.refines_workQueue hn hp
  rw [hrep.accepted, q.order, List.mem_append, hrep.taken, hrep.waiting]

theorem FutureInv.delivered (hi : FutureInv s) {id : Nat} (hacc : .user id ∈ s.pool.log.accepted) : Delivered s id := by
  rcases (accepted_iff hn hp).1 hacc with hdeq | hqueue
  · rcases (ThreadPool.dequeued_iff hn hp id).1 hdeq with hrunning | hdone
    · obtain ⟨w, hw⟩ := List.mem_iff_getElem?.1 hrunning
      exact .inr (.inl ⟨w, evaluated_iff.2 hw⟩)
    · obtain ⟨f, d, hnew⟩ := hi.made hacc
      obtain ⟨v, hholds⟩ := (hi.each id).completed f d hnew hdone
      exact .inr (.inr (by rw [hholds.1]))
  · exact .inl hqueue

/-- A future that was refused stays as `sph_future_new` prepared it. -/
theorem FutureInv.not_delivered (hi : FutureInv s) {id : Nat} (href : id ∈ s.pool.log.refused) : ¬ Delivered s id := by
  have hacc := (ThreadPool.servedInv_run hn hp).refused id href
  have hwaiting : .user id ∉ s.pool.log.dequeued := fun h => hacc ((accepted_iff hn hp).2 (.inl h))
  rintro (hqueue | ⟨w, hw⟩ | hfinished)
  · exact hacc ((accepted_iff hn hp).2 (.inr hqueue))
  · exact hwaiting (dequeued_of_running hn hp (evaluated_iff.1 hw))
  · cases hnew : (s.record id).new with
    | none => exact ((hi.each id).unmade hnew).2.2.1 href
    | some args =>
      have hholds := (hi.each id).waiting args.1 args.2 hnew hwaiting
      simp [hholds.1] at hfinished

end

section
variable {limit junk : Nat} {objects : Nat → Future F D} {as as' : List (Action F D)}

theorem preparedInv_run (h : Run step Used (start limit n junk objects) as s) : PreparedInv s :=
  h.inv (preparedInv_start limit junk objects) fun _ _ _ hi _ hs => preparedInv_step hi hs

theorem refused_run (h : Run step Used s as' s') {id : Nat} (href : id ∈ s.pool.log.refused) :
    id ∈ s'.pool.log.refused := by
  refine h.inv (I := fun s => id ∈ s.pool.log.refused) href fun s action s' hid _ hs => ?_
  by_cases hen : ∃ id, action = .enqueue id
  · obtain ⟨id', rfl⟩ := hen
    rcases enqueue_cases (ThreadPool.step_cases (step_pool hs)) with ⟨-, -, hsame⟩ | ⟨-, -, hsame⟩
    · rwa [hsame]
    · rw [hsame]
      exact List.mem_append_left _ hid
  · rwa [(pool_step_other hs fun id heq => hen ⟨id, heq⟩).1]

variable (hn : 1 ≤ n)
include hn

/-- A future that was refused is never delivered. -/
theorem never_delivered (h : Run step Used (start limit n junk objects) as s) {id : Nat}
    (href : id ∈ s.pool.log.refused) (h' : Run step Used s as' s') : ¬ Delivered s' id := by
  obtain ⟨hi, bs, hp⟩ := futureInv_run hn (h.append h')
  exact hi.not_delivered hn hp (refused_run h' href)

/-- Of the futures whose `sph_future_new` has returned, those are not delivered that were refused. -/
theorem delivered_iff (h : Run step Used (start limit n junk objects) as s) {id : Nat} (hid : id ∈ s.prepared) :
    Delivered s id ↔ id ∉ s.pool.log.refused := by
  obtain ⟨hi, bs, hp⟩ := futureInv_run hn h
  constructor
  · exact fun hdelivered href => hi.not_delivered hn hp href hdelivered
  · intro href
    rcases (preparedInv_run h).settled id hid with hacc | href'
    · exact hi.delivered hn hp hacc
    · exact absurd href' href

end

end SphSc.Futures

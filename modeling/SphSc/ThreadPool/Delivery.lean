import SphSc.Lib.WorkQueue
import SphSc.ThreadPool.Joining
import Mathlib.Data.List.Count
/-!
# Each accepted task is executed once

A pool that is created, used by its clients and finished once is a queue of
work that its workers serve. When the waiting `finish` returns there is no
worker left, and a worker exits only with the queue empty and no task to come.
-/
open Runs

namespace SphSc.ThreadPool

variable {a a' : Pool} {action : Action} {q : WorkQueue Task} {n : Nat}

/-- Steps of a pool whose threads are all created, that `finish` alone resizes,
waiting and keeping the queue, and whose clients enqueue different tasks that return. -/
def Served (a : Pool) : Action → Prop
  | .create success => success = true
  | .resize size noWait discardQueue => size = 0 ∧ noWait = false ∧ discardQueue = false
  | .enqueue task => ∀ t, task = some t → ∃ id, t = .user id ∧ .user id ∉ a.log.accepted ∧ id ∉ a.log.refused
  | _ => True

/-- Less than 2 ^ 32 tasks are queued at once. -/
def Bounded (a : Pool) (action : Action) : Prop :=
  ∀ t, action = .enqueue (some t) → a.accepting = true → a.queue.length + 1 < 2 ^ 32

/-- The frame of `finish` that waits and keeps the queue. -/
def finishFrame : Frame := ⟨0, false, false, false⟩

/-- Where the control thread gets in such a pool. -/
def Control.Serves (n : Nat) : Control → Prop
  | .idle => True
  | .overrun => True
  | .creating size _ => size = n
  | .requestShutdown f => f = finishFrame
  | .broadcastShutdown f => f = finishFrame
  | .join f _ => f = finishFrame
  | .setSize f => f = finishFrame
  | .destroy f => f = finishFrame
  | _ => False

structure ServedInv (n : Nat) (a : Pool) : Prop where
  control : a.control.Serves n
  creating : ∀ size i, a.control = .creating size i → a.workers.length = i
  staffed : a.workers = [] → a.control = .overrun ∨ ∃ size i, a.control = .creating size i
  accepting : a.shutdown = true → a.accepting = false
  returning : .threadFinish ∉ a.queue ∧ .running .threadFinish ∉ a.workers
  distinct : a.log.accepted.Nodup
  refused : ∀ id ∈ a.log.refused, .user id ∉ a.log.accepted

theorem servedInv_start (limit n junk : Nat) : ServedInv n (start limit n junk) where
  control := rfl
  creating := by rintro size i ⟨⟩; rfl
  staffed _ := .inr ⟨n, 0, rfl⟩
  accepting := by simp [start]
  returning := by simp [start]
  distinct := List.nodup_nil
  refused := by simp [start]

/-- The control thread goes on, and no thread is created. -/
theorem ServedInv.of_control (hi : ServedInv n a) (hw : a'.workers = a.workers) (hq : a'.queue = a.queue)
    (hl : a'.log = a.log) (hacc : a'.shutdown = true → a'.accepting = false) (hc : a'.control.Serves n)
    (hnc : ∀ size i, a'.control ≠ .creating size i) (hne : a.workers ≠ []) : ServedInv n a' where
  control := hc
  creating size i h := absurd h (hnc size i)
  staffed h := absurd (hw ▸ h) hne
  accepting := hacc
  returning := by rw [hq, hw]; exact hi.returning
  distinct := by rw [hl]; exact hi.distinct
  refused := by rw [hl]; exact hi.refused

/-- Workers go on. -/
theorem ServedInv.of_workers (hi : ServedInv n a) (hlen : a'.workers.length = a.workers.length)
    (hfin : .running .threadFinish ∈ a'.workers → .running .threadFinish ∈ a.workers) (hq : a'.queue = a.queue)
    (haccd : a'.log.accepted = a.log.accepted) (href : a'.log.refused = a.log.refused) (hsd : a'.shutdown = a.shutdown)
    (hacc : a'.accepting = a.accepting) (hc : a'.control = a.control) : ServedInv n a' where
  control := by rw [hc]; exact hi.control
  creating size i h := by rw [hlen]; exact hi.creating size i (hc ▸ h)
  staffed h := by
    rw [hc]
    exact hi.staffed (List.eq_nil_of_length_eq_zero (by rw [← hlen, h, List.length_nil]))
  accepting := by rw [hsd, hacc]; exact hi.accepting
  returning := by rw [hq]; exact ⟨hi.returning.1, fun h => hi.returning.2 (hfin h)⟩
  distinct := by rw [haccd]; exact hi.distinct
  refused := by rw [haccd, href]; exact hi.refused

theorem ServedInv.of_set (hi : ServedInv n a) {w : Nat} {y : Worker} (hfin : y ≠ .running .threadFinish) {log : Log}
    (haccd : log.accepted = a.log.accepted) (href : log.refused = a.log.refused) :
    ServedInv n { a.setWorker w y with log } :=
  hi.of_workers (List.length_set ..) (mem_of_set hfin) rfl haccd href rfl rfl rfl

theorem ServedInv.of_wake (hi : ServedInv n a) {b : Pool} {target : Option Nat} (hw : a.wake target = some b) :
    ServedInv n b := by
  rcases wake_cases hw with ⟨-, rfl⟩ | ⟨w, -, rfl⟩
  · exact hi
  · exact hi.of_set (by simp) rfl rfl

theorem servedInv_step (hn : 1 ≤ n) (hi : ServedInv n a) (hok : Served a action)
    (h : Step a action a') : ServedInv n a' := by
  have hserves := hi.control
  have hstaffed : a.control ≠ .overrun → (∀ size i, a.control ≠ .creating size i) → a.workers ≠ [] := by
    intro ho hc h0
    rcases hi.staffed h0 with h | ⟨size, i, h⟩
    · exact ho h
    · exact hc size i h
  cases h with
  | refuse hc hl =>
    obtain ⟨rfl, -, -⟩ := hok
    exact absurd hl (Nat.not_lt_zero _)
  | grow hc hl hs =>
    obtain ⟨rfl, -, -⟩ := hok
    exact absurd hs (Nat.not_lt_zero _)
  | finish hc =>
    obtain ⟨-, rfl, rfl⟩ := hok
    exact hi.of_control rfl rfl rfl hi.accepting rfl (by simp) (hstaffed (by simp [hc]) (by simp [hc]))
  | shrink hc hl hs h0 => exact absurd hok.1 h0
  | destroyBusy hc =>
    exact hi.of_control rfl rfl rfl hi.accepting trivial (by simp) (hstaffed (by simp [hc]) (by simp [hc]))
  | destroyed hc =>
    exact hi.of_control rfl rfl rfl hi.accepting trivial (by simp) (hstaffed (by simp [hc]) (by simp [hc]))
  | @created size i hc hlt hl =>
    rw [hc] at hserves
    refine ⟨hserves, ?_, by simp, hi.accepting, ?_, hi.distinct, hi.refused⟩
    · rintro _ _ ⟨⟩
      simp [hi.creating _ _ hc]
    · simpa using hi.returning
  | overrun hc =>
    exact ⟨trivial, by simp, fun _ => .inl rfl, hi.accepting, hi.returning, hi.distinct, hi.refused⟩
  | createFailed hc => exact absurd hok (by simp [Served])
  | cleanUp hc => exact absurd hok (by simp [Served])
  | growFailed hc => exact absurd hok (by simp [Served])
  | @allCreated size i hc hle =>
    -- `new` was asked for at least one thread
    rw [hc] at hserves
    obtain rfl : size = n := hserves
    have hlen := hi.creating _ _ hc
    exact hi.of_control rfl rfl rfl hi.accepting trivial (by simp) (List.ne_nil_of_length_pos (by omega))
  | requestShutdown hc =>
    rw [hc] at hserves
    exact hi.of_control rfl rfl rfl (fun _ => rfl) hserves (by simp) (hstaffed (by simp [hc]) (by simp [hc]))
  | @broadcastShutdown f hc =>
    rw [hc] at hserves
    obtain rfl : f = finishFrame := hserves
    have hwoken : ServedInv n a.wakeAll := hi.of_workers (by simp) (mem_wakeAll (by simp)) rfl rfl rfl rfl rfl rfl
    refine hwoken.of_control rfl rfl rfl hi.accepting rfl
      (by simp [finishFrame, Frame.afterShutdown, Frame.afterDiscard, Frame.afterShrink]) ?_
    simpa using hstaffed (by simp [hc]) (by simp [hc])
  | joined hc =>
    rw [hc] at hserves
    exact hi.of_control rfl rfl rfl hi.accepting hserves (by simp) (hstaffed (by simp [hc]) (by simp [hc]))
  | allJoined hc =>
    rw [hc] at hserves
    exact hi.of_control rfl rfl rfl hi.accepting hserves (by simp) (hstaffed (by simp [hc]) (by simp [hc]))
  | setSizeDestroy hc =>
    rw [hc] at hserves
    exact hi.of_control rfl rfl rfl hi.accepting hserves (by simp) (hstaffed (by simp [hc]) (by simp [hc]))
  | setSize hc | finishBusy hc | finished hc =>
    exact hi.of_control (by simp) (by simp) (by simp) (by simpa using hi.accepting) (by simp [Control.Serves])
       (by simp) (hstaffed (by simp [hc]) (by simp [hc]))
  | @refused id hu hacc =>
    obtain ⟨_, ⟨⟩, hnew, -⟩ := hok _ rfl
    refine { hi with refused := fun id' h => ?_ }
    rcases List.mem_append.1 h with h | h
    · exact hi.refused id' h
    · obtain rfl := List.mem_singleton.1 h
      exact hnew
  | @accepted t hu hacc =>
    obtain ⟨id, rfl, hnew, href⟩ := hok _ rfl
    refine { hi with returning := ?_, distinct := ?_, refused := ?_ }
    · simpa using hi.returning
    · simp only [Pool.push]
      rw [List.nodup_append]
      refine ⟨hi.distinct, List.nodup_singleton _, ?_⟩
      intro s hs s' hs' h
      obtain rfl := List.mem_singleton.1 hs'
      exact hnew (h ▸ hs)
    · intro id' hid'
      simp only [Pool.push, List.mem_append, List.mem_singleton, Task.user.injEq, not_or]
      exact ⟨hi.refused id' hid', fun h => href (h ▸ hid')⟩
  | signalled hs hw =>
    exact (hi.of_wake hw).of_workers rfl id rfl rfl rfl rfl rfl rfl
  | block hw => exact hi.of_set (by simp) rfl rfl
  | exit hw => exact hi.of_set (by simp) rfl rfl
  | @take w t queue hw h0 hq =>
    have ht : t ≠ .threadFinish := fun h => hi.returning.1 (by rw [hq, h]; exact List.mem_cons_self)
    have hset : ServedInv n { a.setWorker w (.running t) with
        log := { a.log with dequeued := a.log.dequeued ++ [t] } } := hi.of_set (by simpa using ht) rfl rfl
    refine { hset with returning := ⟨fun h => hi.returning.1 ?_, hset.returning.2⟩ }
    rw [hq]
    exact List.mem_cons_of_mem _ h
  | complete hw => exact hi.of_set (by simp) rfl rfl
  | threadFinish hw => exact absurd (mem_of_worker hw) hi.returning.2
  | wakeUp hw => exact hi.of_set (by simp) rfl rfl
  | invalid => exact hi
  | finishUnaccepted => exact hi
  | grew hc | grown hc | discard hc | broadcastDiscard hc | mallocFailed hc | finishQueued hc | finishRefused hc
  | finishSignalled hc | shrunk hc =>
    rw [hc] at hserves
    exact absurd hserves id

theorem servedInv_run {limit n junk : Nat} {as : List Action} (hn : 1 ≤ n)
    (h : Run step Served (start limit n junk) as a) : ServedInv n a :=
  h.inv (servedInv_start limit n junk) fun _ _ _ hi hok hs => servedInv_step hn hi hok (step_cases hs)

/-! ## Workers exit with the queue empty -/

/-- While the queue's size is its length, a worker exits with the queue empty
and no task to come. -/
structure DrainInv (a : Pool) : Prop where
  room : a.queue.length < 2 ^ 32
  drained : .exited ∈ a.workers → a.shutdown = true ∧ a.queue = []

theorem DrainInv.of_same (hd : DrainInv a) (hw : .exited ∈ a'.workers → .exited ∈ a.workers) (hq : a'.queue = a.queue)
    (hs : a.shutdown = true → a'.shutdown = true) : DrainInv a' where
  room := by rw [hq]; exact hd.room
  drained h := ⟨hs (hd.drained (hw h)).1, hq.trans (hd.drained (hw h)).2⟩

theorem drainInv_start (limit n junk : Nat) : DrainInv (start limit n junk) := ⟨by simp [start], by simp [start]⟩

theorem drainInv_step (hi : ServedInv n a) (hd : DrainInv a) (hb : Bounded a action) (h : Step a action a') :
    DrainInv a' := by
  have hserves := hi.control
  cases h with
  | @accepted t hu hacc =>
    -- nothing is accepted once a worker has left
    refine ⟨by simpa using hb t rfl hacc, ?_⟩
    intro hex
    have := hi.accepting (hd.drained hex).1
    simp [hacc] at this
  | @exit w hw h0 hs =>
    -- a worker leaves only after shutdown, with the queue empty
    refine ⟨hd.room, fun _ => ⟨hs, ?_⟩⟩
    rw [Pool.queueSize, Nat.mod_eq_of_lt hd.room] at h0
    exact List.eq_nil_of_length_eq_zero h0
  | @take w t queue hw h0 hq =>
    have hroom := hd.room
    rw [hq] at hroom
    refine ⟨Nat.lt_of_succ_lt hroom, ?_⟩
    intro hex
    have := (hd.drained (mem_of_set (by simp) hex)).2
    simp [hq] at this
  | signalled hs hw =>
    have hsame := wake_same hw
    refine hd.of_same (fun hex => ?_) (by rw [hsame]) (by rw [hsame]; exact id)
    rcases wake_cases hw with ⟨-, rfl⟩ | ⟨w, -, rfl⟩
    · exact hex
    · exact mem_of_set (by simp) hex
  | broadcastShutdown hc | broadcastDiscard hc => exact hd.of_same (mem_wakeAll (by simp)) rfl id
  | created hc => exact hd.of_same (by simp) rfl id
  | block hw | complete hw | wakeUp hw => exact hd.of_same (mem_of_set (by simp)) rfl id
  | requestShutdown hc => exact hd.of_same id rfl fun _ => rfl
  | threadFinish hw => exact absurd (mem_of_worker hw) hi.returning.2
  | grew hc | grown hc | discard hc | finishQueued hc | finishSignalled hc =>
    rw [hc] at hserves
    exact absurd hserves id
  | _ => exact hd.of_same (by simp) (by simp) (by simp)

theorem drainInv_run {limit n junk : Nat} {as : List Action} (hn : 1 ≤ n)
    (h : Run step (fun a action => Served a action ∧ Bounded a action) (start limit n junk) as a) : DrainInv a :=
  h.inv₂ (fun _ _ hr => servedInv_run hn (hr.mono fun _ _ => And.left)) (drainInv_start limit n junk)
    fun _ _ _ hi hd hok hs => drainInv_step hi hd hok.2 (step_cases hs)

/-! ## The pool is a queue of work -/

structure Represents (a : Pool) (q : WorkQueue Task) : Prop where
  accepted : a.log.accepted = q.accepted
  taken : a.log.dequeued = q.taken
  waiting : a.queue = q.waiting
  running : ∀ t, a.workers.count (.running t) = q.running t
  done : a.log.completed.map .user = q.done

theorem represents_start (limit n junk : Nat) : Represents (start limit n junk) .empty :=
  ⟨rfl, rfl, rfl, fun _ => rfl, rfl⟩

theorem Represents.of_same (hr : Represents a q) (haccd : a'.log.accepted = a.log.accepted)
    (hdeq : a'.log.dequeued = a.log.dequeued) (hcomp : a'.log.completed = a.log.completed) (hq : a'.queue = a.queue)
    (hw : ∀ t, a'.workers.count (.running t) = a.workers.count (.running t)) : Represents a' q where
  accepted := haccd.trans hr.accepted
  taken := hdeq.trans hr.taken
  waiting := hq.trans hr.waiting
  running t := (hw t).trans (hr.running t)
  done := by rw [hcomp]; exact hr.done

theorem represents_step (hi : ServedInv n a) (hr : Represents a q) (hok : Served a action) (h : Step a action a') :
    ∃ q', Represents a' q' ∧ Relation.ReflGen WorkQueue.Next q q' := by
  have hserves := hi.control
  cases h with
  | @accepted t hu hacc =>
    refine ⟨q.accept t, ⟨?_, hr.taken, ?_, hr.running, hr.done⟩, .single (.accept q t)⟩
    · exact congrArg (· ++ [t]) hr.accepted
    · exact congrArg (· ++ [t]) hr.waiting
  | @take w t queue hw h0 hq =>
    have hwaiting : q.waiting = t :: queue := hr.waiting.symm.trans hq
    refine ⟨q.take hwaiting, ⟨hr.accepted, congrArg (· ++ [t]) hr.taken, rfl, fun s => ?_, hr.done⟩,
      .single (.take q hwaiting)⟩
    have hcount := count_set hw (.running t) (.running s)
    simp only [reduceCtorEq, if_false, Worker.running.injEq] at hcount
    simp only [Pool.setWorker, WorkQueue.take, Function.update_apply, ← hr.running, eq_comm (a := s)]
    split <;> simp_all
  | @complete w id hw =>
    have hcount := fun s => count_set hw .awake (.running s)
    have hpos : 0 < q.running (.user id) := by
      rw [← hr.running]
      exact List.count_pos_iff.2 (mem_of_worker hw)
    refine ⟨q.finish hpos, ⟨hr.accepted, hr.taken, hr.waiting, fun s => ?_, ?_⟩, .single (.finish q hpos)⟩
    · have := hcount s
      simp only [reduceCtorEq, if_false, Worker.running.injEq] at this
      simp only [Pool.setWorker, WorkQueue.finish, Function.update_apply, ← hr.running, eq_comm (a := s)]
      split <;> simp_all
      omega
    · simp only [List.map_append, List.map_cons, List.map_nil, hr.done]
      rfl
  | threadFinish hw => exact absurd (mem_of_worker hw) hi.returning.2
  -- while the pool serves, no task is dropped and no thread told to finish
  | discard hc | finishQueued hc =>
    rw [hc] at hserves
    exact absurd hserves id
  -- the others touch neither the queue nor a running task
  | created hc | grew hc => exact ⟨q, hr.of_same rfl rfl rfl rfl (by simp), .refl⟩
  | broadcastShutdown hc | broadcastDiscard hc =>
    exact ⟨q, hr.of_same rfl rfl rfl rfl (count_running_wakeAll a), .refl⟩
  | signalled hs hw | finishSignalled hs hw =>
    have hsame := wake_same hw
    have hcount := count_running_wake hw
    refine ⟨q, hr.of_same ?_ ?_ ?_ ?_ hcount, .refl⟩ <;> rw [hsame] <;> rfl
  | block hw | exit hw | wakeUp hw =>
    exact ⟨q, hr.of_same rfl rfl rfl rfl (count_running_set hw (by simp) (by simp)), .refl⟩
  | _ => exact ⟨q, hr.of_same (by simp) (by simp) (by simp) (by simp) (by simp), .refl⟩

/-- Every run of such a pool is a run of a queue of work. -/
theorem refines_workQueue {limit n junk : Nat} {as : List Action} (hn : 1 ≤ n)
    (h : Run step Served (start limit n junk) as a) :
    ∃ q, Represents a q ∧ Relation.ReflTransGen WorkQueue.Next .empty q := by
  refine h.inv₂ (I := fun a => ∃ q, Represents a q ∧ Relation.ReflTransGen WorkQueue.Next .empty q)
    (fun _ _ hr => servedInv_run hn hr) ⟨.empty, represents_start limit n junk, .refl⟩ ?_
  rintro a action a' hi ⟨q, hr, hruns⟩ hok hs
  obtain ⟨q', hr', hnext⟩ := represents_step hi hr hok (step_cases hs)
  exact ⟨q', hr', hruns.trans hnext.to_reflTransGen⟩

theorem count_done (hr : Represents a q) (id : Nat) : a.log.completed.count id = q.done.count (.user id) := by
  rw [← hr.done, List.count_map_of_injective _ _ fun _ _ h => Task.user.inj h]

/-! ## Each task is somewhere once -/

section
variable {limit junk : Nat} {as : List Action} (hn : 1 ≤ n) (h : Run step Served (start limit n junk) as a)
include hn h

theorem count_le_one (id : Nat) : a.workers.count (.running (.user id)) + a.log.completed.count id ≤ 1 := by
  obtain ⟨q, hrep, -⟩ := refines_workQueue hn h
  rw [count_done hrep, hrep.running]
  exact q.at_most_once (hrep.accepted ▸ (servedInv_run hn h).distinct) _

/-- No two workers are at one task. -/
theorem running_unique {w w' id : Nat} (hw : a.workers[w]? = some (.running (.user id)))
    (hw' : a.workers[w']? = some (.running (.user id))) : w = w' := by
  by_contra hne
  have hle := count_le_one hn h id
  have hcount := count_set hw .awake (.running (.user id))
  simp only [reduceCtorEq, if_true, if_false] at hcount
  -- without `w`, the other one is still at it
  have hpos : 0 < (a.workers.set w .awake).count (.running (.user id)) := by
    refine List.count_pos_iff.2 (mem_of_worker (w := w') ?_)
    rw [List.getElem?_set_ne hne]
    exact hw'
  omega

theorem not_completed {w id : Nat} (hw : a.workers[w]? = some (.running (.user id))) : id ∉ a.log.completed := by
  intro hid
  have hle := count_le_one hn h id
  have hrunning := List.count_pos_iff.2 (mem_of_worker hw)
  have hdone := List.count_pos_iff.2 hid
  omega

theorem dequeued_iff (id : Nat) :
    .user id ∈ a.log.dequeued ↔ .running (.user id) ∈ a.workers ∨ id ∈ a.log.completed := by
  obtain ⟨q, hrep, -⟩ := refines_workQueue hn h
  have honce := q.once (.user id)
  rw [← hrep.taken, ← hrep.running, ← count_done hrep] at honce
  rw [← List.count_pos_iff, ← List.count_pos_iff, ← List.count_pos_iff, honce]
  omega

theorem accepted_of_dequeued {t : Task} (ht : t ∈ a.log.dequeued) : t ∈ a.log.accepted := by
  obtain ⟨q, hrep, -⟩ := refines_workQueue hn h
  rw [hrep.taken] at ht
  rw [hrep.accepted]
  exact q.taken_prefix.subset ht

theorem head_not_dequeued {t : Task} {queue : List Task} (hq : a.queue = t :: queue) : t ∉ a.log.dequeued := by
  obtain ⟨q, hrep, -⟩ := refines_workQueue hn h
  have hdistinct := (servedInv_run hn h).distinct
  rw [hrep.accepted, q.order, ← hrep.taken, ← hrep.waiting, hq] at hdistinct
  exact fun ht => (List.nodup_append.1 hdistinct).2.2 t ht t List.mem_cons_self rfl

end

/-- Steps that neither enqueue nor take nor complete a task. -/
theorem quiet_step (hi : ServedInv n a) (h : Step a action a') (hen : ∀ task, action ≠ .enqueue task)
    (hwork : ∀ w, action ≠ .work w) (hcomp : ∀ w, action ≠ .complete w) :
    a'.log = a.log ∧ ∀ (w : Nat) (t : Task), a'.workers[w]? = some (.running t) → a.workers[w]? = some (.running t) := by
  have hserves := hi.control
  cases h with
  | created hc | grew hc =>
    refine ⟨rfl, ?_⟩
    intro w t hw
    simp only [Pool.goto, Pool.spawn] at hw
    rcases Nat.lt_or_ge w a.workers.length with hlt | hge
    · rwa [List.getElem?_append_left hlt] at hw
    · rw [List.getElem?_append_right hge] at hw
      simpa using List.mem_of_getElem? hw
  | broadcastShutdown hc | broadcastDiscard hc =>
    refine ⟨rfl, ?_⟩
    intro w t hw
    simp only [Pool.goto, Pool.wakeAll, List.getElem?_map, Option.map_eq_some_iff] at hw
    obtain ⟨s, hs, hst⟩ := hw
    split at hst
    · simp at hst
    · rw [hs, hst]
  | finishQueued hc =>
    rw [hc] at hserves
    exact absurd hserves id
  | signalled hs hw | finishSignalled hs hw =>
    rcases wake_cases hw with ⟨-, rfl⟩ | ⟨w', -, rfl⟩
    · exact ⟨rfl, fun _ _ => id⟩
    · exact ⟨rfl, fun w t => running_of_set (by simp)⟩
  | wakeUp hw => exact ⟨rfl, fun w t => running_of_set (by simp)⟩
  | invalid | refused | finishUnaccepted | accepted => exact absurd rfl (hen _)
  | block | exit | take => exact absurd rfl (hwork _)
  | complete | threadFinish => exact absurd rfl (hcomp _)
  | _ => exact ⟨by simp, by simp⟩

/-! ## When `finish` returns -/

theorem not_lowersUnwaited (hok : Served a action) : ¬ LowersUnwaited a action := by
  cases action with
  | resize size noWait discardQueue =>
    obtain ⟨-, rfl, -⟩ := hok
    simp [LowersUnwaited]
  | create success =>
    obtain rfl : success = true := hok
    simp [LowersUnwaited]
  | _ => exact id

/-- When the waiting `finish` returns nothing is queued and no task is being executed. -/
theorem drained_of_finish {limit junk : Nat} {as : List Action} {code : Code} (hn : 1 ≤ n)
    (h : Run step (fun a action => Served a action ∧ Bounded a action) (start limit n junk) as a)
    (hr : a.returned = some (.resize 0 false false, code)) : a.queue = [] ∧ ∀ t, .running t ∉ a.workers := by
  have hctl := controlInv_run h
  have hi := servedInv_run hn (h.mono fun _ _ => And.left)
  have hexited := (joinInv_run (h.mono fun _ _ hok => not_lowersUnwaited hok.1)).exited hctl hr
  have hidle := hctl.idle _ hr
  refine ⟨?_, fun t ht => by simpa using hexited _ ht⟩
  -- there is a worker, and it has exited
  have hne : a.workers ≠ [] := fun h0 => by simpa [hidle] using hi.staffed h0
  obtain ⟨s, hs⟩ := List.exists_mem_of_ne_nil _ hne
  exact ((drainInv_run hn h).drained (hexited s hs ▸ hs)).2

/-- Then every task that was accepted has been taken once and is done. -/
theorem done_of_finish {limit junk : Nat} {as : List Action} {code : Code} (hn : 1 ≤ n)
    (h : Run step (fun a action => Served a action ∧ Bounded a action) (start limit n junk) as a)
    (hr : a.returned = some (.resize 0 false false, code)) {id : Nat} (hid : .user id ∈ a.log.accepted) :
    a.log.dequeued.count (.user id) = 1 ∧ a.log.completed.count id = 1 := by
  have hserved := h.mono fun _ _ => And.left
  obtain ⟨q, hrep, -⟩ := refines_workQueue hn hserved
  obtain ⟨hqueue, hnone⟩ := drained_of_finish hn h hr
  obtain ⟨htaken, hdone⟩ := q.drained (hrep.waiting ▸ hqueue) fun t =>
    (hrep.running t).symm.trans (List.count_eq_zero.2 (hnone t))
  have honce : a.log.accepted.count (.user id) = 1 := List.count_eq_one_of_mem (servedInv_run hn hserved).distinct hid
  constructor
  · rw [hrep.taken, htaken, ← hrep.accepted]
    exact honce
  · rw [count_done hrep, hdone, ← hrep.accepted]
    exact honce

/-- Tasks are taken in the order in which they were accepted, and none that was
refused. When the waiting `finish` returns, each task that was accepted has been
taken once and its function has returned once. A run in which a size above the
thread limit leads past `threads` ends there, at `Control.overrun`. -/
theorem executed_once {limit junk : Nat} {as : List Action} (hn : 1 ≤ n)
    (h : Run step (fun a action => Served a action ∧ Bounded a action) (start limit n junk) as a) :
    a.log.dequeued <+: a.log.accepted ∧ (∀ id ∈ a.log.refused, .user id ∉ a.log.dequeued) ∧
      ∀ code, a.returned = some (.resize 0 false false, code) → ∀ id, .user id ∈ a.log.accepted →
        a.log.dequeued.count (.user id) = 1 ∧ a.log.completed.count id = 1 := by
  have hserved := h.mono fun _ _ => And.left
  obtain ⟨q, hrep, -⟩ := refines_workQueue hn hserved
  have hinit : a.log.dequeued <+: a.log.accepted := by
    rw [hrep.taken, hrep.accepted]
    exact q.taken_prefix
  refine ⟨hinit, fun id hid hmem => ?_, fun code hr id hid => done_of_finish hn h hr hid⟩
  exact (servedInv_run hn hserved).refused id hid (hinit.subset hmem)

/-- A pool of one worker that has executed one task, and refused another, after `finish`. -/
def servedOne : Pool where
  queue := []
  accepting := false
  shutdown := true
  size := 0
  threads := [some 0]
  workers := [.exited]
  signals := 0
  control := .idle
  returned := some (.resize 0 false false, .ok)
  destroyed := true
  log := ⟨[.user 7], [8], [.user 7], [7]⟩

theorem run_servedOne : Run step (fun a action => Served a action ∧ Bounded a action) (start 1 1 0) [.create true,
    .proceed, .enqueue (some (.user 7)), .signal none, .resize 0 false false, .proceed, .enqueue (some (.user 8)),
    .work 0, .proceed, .complete 0, .work 0, .proceed, .proceed, .proceed, .proceed] servedOne := by
  refine .cons ⟨rfl, by simp [Bounded]⟩ rfl (.cons ⟨trivial, by simp [Bounded]⟩ rfl (.cons ⟨?_, ?_⟩ rfl ?_))
  · rintro t ⟨⟩
    exact ⟨7, rfl, by decide, by decide⟩
  · rintro t ⟨⟩ -
    decide
  refine .cons ⟨trivial, by simp [Bounded]⟩ rfl (.cons ⟨⟨rfl, rfl, rfl⟩, by simp [Bounded]⟩ rfl ?_)
  refine .cons ⟨trivial, by simp [Bounded]⟩ rfl (.cons ⟨?_, ?_⟩ rfl (run_of_exec_of ?_ rfl))
  · rintro t ⟨⟩
    exact ⟨8, rfl, by decide, by decide⟩
  · rintro t ⟨⟩ -
    decide
  · simp [Served, Bounded]

theorem executed_once_servedOne : servedOne.log.dequeued.count (.user 7) = 1 ∧ servedOne.log.completed.count 7 = 1 :=
  (executed_once (by decide) run_servedOne).2.2 .ok rfl 7 (by decide)

end SphSc.ThreadPool

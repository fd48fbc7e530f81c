import SphSc.ThreadPool.Steps
import Mathlib.Data.List.Nodup
/-!
# Which workers stop when a pool shrinks

`resize` joins the threads whose handles are in the last slots, but any worker
may take a `sph_thread_finish` task. There is a schedule in which the workers of
the first slots take them, unless the queue is so long that they are never taken.
-/
open Runs

namespace SphSc.ThreadPool

variable {a b c : Pool} {n k w : Nat}

/-- A pool of `n` workers between control calls, each with its handle in a slot
of its own, with no `sph_thread_finish` task left of earlier calls. `n` is a
`sph_thread_pool_size_t`. -/
structure Running (n : Nat) (a : Pool) : Prop where
  idle : a.control = .idle
  exists_ : a.destroyed = false
  accepting : a.accepting = true
  shutdown : a.shutdown = false
  size : a.size = n
  fits : n ≤ a.limit
  handles : ∀ i < n, ∃ w s, a.threads[i]? = some (some w) ∧ a.workers[w]? = some s ∧ s ≠ .exited
  distinct : ∀ i j w : Nat, i < n → j < n → a.threads[i]? = some (some w) → a.threads[j]? = some (some w) → i = j
  noFinish : .threadFinish ∉ a.queue ∧ .running .threadFinish ∉ a.workers
  small : n < 2 ^ 32

/-- The tasks that `resize` enqueues to end workers have been enqueued and executed. -/
structure FinishesExecuted (a : Pool) : Prop where
  enqueued : ∀ f i, a.control ≠ .shrink f i ∧ a.control ≠ .signal f i
  executed : .threadFinish ∉ a.queue ∧ .running .threadFinish ∉ a.workers

/-- Steps of one call of `resize`, in which `malloc` succeeds, and of the workers. -/
def InResize (_ : Pool) : Action → Prop
  | .malloc success => success = true
  | .signalFinish _ => True
  | .proceed => True
  | .work _ => True
  | .complete _ => True
  | .wakeUp _ => True
  | _ => False

/-- Under every schedule of a shrinking `resize`, once the tasks that end
workers have been executed, those that exited are those of the last slots. -/
def LastSlotsExit (n k : Nat) (noWait : Bool) (a : Pool) : Prop :=
  ∀ a' as b, step a (.resize k noWait false) = some a' → Run step InResize a' as b → FinishesExecuted b →
    ∀ i < n, ∀ w, a.threads[i]? = some (some w) → (b.workers[w]? = some .exited ↔ k ≤ i)

/-- A worker that has not exited and is not about to. -/
def Able (a : Pool) (w : Nat) : Prop :=
  ∃ s, a.workers[w]? = some s ∧ s ≠ .exited ∧ s ≠ .running .threadFinish

/-! ## A worker drains the queue -/

theorem step_wakeUp (hd : a.destroyed = false) (hw : a.workers[w]? = some .blocked) :
    step a (.wakeUp w) = some (a.setWorker w .awake) := by
  simp [step, hd, Pool.wake, hw]

theorem step_complete {id : Nat} (hd : a.destroyed = false) (hw : a.workers[w]? = some (.running (.user id))) :
    step a (.complete w) =
      some { a.setWorker w .awake with log := { a.log with completed := a.log.completed ++ [id] } } := by
  simp [step, hd, Pool.complete, hw]

theorem step_threadFinish (hd : a.destroyed = false) (hw : a.workers[w]? = some (.running .threadFinish)) :
    step a (.complete w) = some (a.setWorker w .exited) := by
  simp [step, hd, Pool.complete, hw]

theorem step_take {t : Task} {queue : List Task} (hd : a.destroyed = false) (hw : a.workers[w]? = some .awake)
    (hq : a.queue = t :: queue) (hroom : a.queue.length < 2 ^ 32) :
    step a (.work w) = some
      { a.setWorker w (.running t) with queue, log := { a.log with dequeued := a.log.dequeued ++ [t] } } := by
  have h0 : a.queueSize ≠ 0 := by
    rw [Pool.queueSize, Nat.mod_eq_of_lt hroom, hq]
    simp
  simp [step, hd, Pool.work, hw, h0, hq]

/-- `b` is `a` but for the queue, the worker `w` and the log. -/
structure SameBut (w : Nat) (a b : Pool) : Prop where
  control : b.control = a.control
  exists_ : b.destroyed = a.destroyed
  accepting : b.accepting = a.accepting
  size : b.size = a.size
  threads : b.threads = a.threads
  others : ∀ w', w' ≠ w → b.workers[w']? = a.workers[w']?
  length : b.workers.length = a.workers.length

theorem SameBut.trans (h : SameBut w a b) (h' : SameBut w b c) : SameBut w a c :=
  ⟨h'.control.trans h.control, h'.exists_.trans h.exists_, h'.accepting.trans h.accepting,
    h'.size.trans h.size, h'.threads.trans h.threads,
    fun w' hw => (h'.others w' hw).trans (h.others w' hw), h'.length.trans h.length⟩

theorem sameBut_setWorker (a : Pool) (w : Nat) (s : Worker) (queue : List Task) (log : Log) :
    SameBut w a { a.setWorker w s with queue, log } :=
  ⟨rfl, rfl, rfl, rfl, rfl, fun w' hw => by simp [List.getElem?_set_ne (Ne.symm hw)], by simp⟩

/-- A worker's task ends, or the worker wakes up, and it goes to lock the mutex. -/
theorem run_awake (hd : a.destroyed = false) (hw : Able a w) :
    ∃ as b, Run step InResize a as b ∧ SameBut w a b ∧ b.workers[w]? = some .awake ∧ b.queue = a.queue := by
  obtain ⟨s, hs, hne, hnf⟩ := hw
  have hlt := (List.getElem?_eq_some_iff.1 hs).1
  cases s with
  | awake => exact ⟨[], a, .nil, ⟨rfl, rfl, rfl, rfl, rfl, fun _ _ => rfl, rfl⟩, hs, rfl⟩
  | blocked =>
    exact ⟨_, _, .single (by trivial) (step_wakeUp hd hs), sameBut_setWorker a w .awake a.queue a.log,
      by simp [List.getElem?_set_self hlt], rfl⟩
  | running t =>
    cases t with
    | user id =>
      exact ⟨_, _, .single (by trivial) (step_complete hd hs), sameBut_setWorker a w .awake a.queue _,
        by simp [List.getElem?_set_self hlt], rfl⟩
    | threadFinish => exact absurd rfl hnf
  | exited => exact absurd rfl hne

/-- One worker takes the clients' tasks at the front of the queue. -/
theorem run_drain {users rest : List Task} (hd : a.destroyed = false) (hw : Able a w) (hq : a.queue = users ++ rest)
    (hu : .threadFinish ∉ users) (hroom : a.queue.length < 2 ^ 32) :
    ∃ as b, Run step InResize a as b ∧ SameBut w a b ∧ Able b w ∧ b.queue = rest := by
  induction users generalizing a with
  | nil => exact ⟨[], a, .nil, ⟨rfl, rfl, rfl, rfl, rfl, fun _ _ => rfl, rfl⟩, hw, hq⟩
  | cons t users ih =>
    obtain ⟨as, b, hrun, hsame, hb, hbq⟩ := run_awake hd hw
    have hdb : b.destroyed = false := hsame.exists_.trans hd
    have hlt := (List.getElem?_eq_some_iff.1 hb).1
    have htake := step_take hdb hb (hbq.trans hq) (hbq ▸ hroom)
    have hne : t ≠ .threadFinish := fun h => hu (by simp [h])
    have hlen : (users ++ rest).length < 2 ^ 32 := by
      rw [hq] at hroom
      simp only [List.cons_append, List.length_cons] at hroom
      omega
    obtain ⟨as', c, hrun', hsame', hc, hcq⟩ := ih
      (a := { b.setWorker w (.running t) with
        queue := users ++ rest, log := { b.log with dequeued := b.log.dequeued ++ [t] } })
      hdb ⟨.running t, by simp [hlt], by simp, by simpa using hne⟩ rfl (fun h => hu (by simp [h])) hlen
    exact ⟨_, c, (hrun.snoc (by trivial) htake).append hrun',
      hsame.trans ((sameBut_setWorker b w _ _ _).trans hsame'), hc, hcq⟩

/-- A worker takes a task that ends it. -/
theorem run_exit {rest : List Task} (hd : a.destroyed = false) (hw : Able a w) (hq : a.queue = .threadFinish :: rest)
    (hroom : a.queue.length < 2 ^ 32) :
    ∃ as b, Run step InResize a as b ∧ SameBut w a b ∧ b.workers[w]? = some .exited ∧ b.queue = rest := by
  obtain ⟨as, b, hrun, hsame, hb, hbq⟩ := run_awake hd hw
  have hdb : b.destroyed = false := hsame.exists_.trans hd
  have hlt := (List.getElem?_eq_some_iff.1 hb).1
  have htake := step_take hdb hb (hbq.trans hq) (hbq ▸ hroom)
  have hrunning : (b.setWorker w (.running .threadFinish)).workers[w]? = some (.running .threadFinish) := by
    simp [List.getElem?_set_self hlt]
  refine ⟨_, _, (hrun.snoc (by trivial) htake).snoc (by trivial) (step_threadFinish hdb hrunning), ?_, ?_, rfl⟩
  · exact hsame.trans ((sameBut_setWorker b w _ rest _).trans (sameBut_setWorker _ w .exited rest _))
  · simp [hlt]

/-- Different workers take one each of the tasks that end them. -/
theorem run_exits {ws : List Nat} (hnodup : ws.Nodup) (hd : a.destroyed = false) (hws : ∀ w ∈ ws, Able a w)
    (hq : a.queue = List.replicate ws.length .threadFinish) (hroom : a.queue.length < 2 ^ 32) :
    ∃ as b, Run step InResize a as b ∧ b.control = a.control ∧ b.queue = [] ∧
      (∀ w ∈ ws, b.workers[w]? = some .exited) ∧ ∀ w ∉ ws, b.workers[w]? = a.workers[w]? := by
  induction ws generalizing a with
  | nil => exact ⟨[], a, .nil, rfl, hq, by simp, fun _ _ => rfl⟩
  | cons w ws ih =>
    obtain ⟨hw, hnodup⟩ := List.nodup_cons.1 hnodup
    rw [List.length_cons, List.replicate_succ] at hq
    obtain ⟨as, b, hrun, hsame, hb, hbq⟩ := run_exit hd (hws w (by simp)) hq hroom
    have hable : ∀ w' ∈ ws, Able b w' := by
      intro w' hw'
      obtain ⟨s, hs⟩ := hws w' (by simp [hw'])
      exact ⟨s, by rw [hsame.others w' (fun h => hw (h ▸ hw'))]; exact hs.1, hs.2⟩
    have hlen : b.queue.length < 2 ^ 32 := by
      rw [hq, List.length_cons] at hroom
      rw [hbq]
      omega
    obtain ⟨as', c, hrun', hctl, hcq, hexit, hsame'⟩ := ih hnodup (hsame.exists_.trans hd) hable hbq hlen
    refine ⟨_, c, hrun.append hrun', hctl.trans hsame.control, hcq, ?_, ?_⟩
    · intro w' hw'
      rcases List.mem_cons.1 hw' with rfl | hw'
      · rw [hsame' w' hw, hb]
      · exact hexit w' hw'
    · intro w' hw'
      have hne : w' ≠ w := fun h => hw' (by simp [h])
      rw [hsame' w' fun h => hw' (by simp [h]), hsame.others w' hne]

/-! ## The control thread enqueues -/

/-- The workers of `b` are those of `a`, some of them woken. -/
def Woken (a b : Pool) : Prop :=
  ∀ w : Nat, b.workers[w]? = a.workers[w]? ∨ a.workers[w]? = some .blocked ∧ b.workers[w]? = some .awake

theorem Woken.trans (h : Woken a b) (h' : Woken b c) : Woken a c := by
  intro w
  rcases h w with hw | ⟨hw, hw'⟩ <;> rcases h' w with hv | ⟨hv, hv'⟩
  · exact .inl (hv.trans hw)
  · exact .inr ⟨hw ▸ hv, hv'⟩
  · exact .inr ⟨hw, hv.trans hw'⟩
  · rw [hw'] at hv; simp at hv

theorem Woken.able (h : Woken a b) (ha : Able a w) : Able b w := by
  obtain ⟨s, hs, hne⟩ := ha
  rcases h w with hw | ⟨-, hw⟩
  · exact ⟨s, hw.trans hs, hne⟩
  · exact ⟨.awake, hw, by simp, by simp⟩

theorem Woken.not_running (h : Woken a b) {t : Task} (ha : .running t ∉ a.workers) : .running t ∉ b.workers := by
  intro hb
  obtain ⟨w, hw⟩ := List.mem_iff_getElem?.1 hb
  rcases h w with h | ⟨-, h⟩
  · exact ha (mem_of_worker (h ▸ hw))
  · rw [hw] at h; simp at h

/-- There is always a worker to signal, or none to wake. -/
theorem exists_wake (a : Pool) : ∃ target b, a.wake target = some b ∧ b = { a with workers := b.workers } ∧ Woken a b := by
  by_cases hb : .blocked ∈ a.workers
  · obtain ⟨w, hw⟩ := List.mem_iff_getElem?.1 hb
    refine ⟨some w, a.setWorker w .awake, by simp [Pool.wake, hw], rfl, ?_⟩
    intro w'
    by_cases hww : w' = w
    · subst hww
      exact .inr ⟨hw, by simp [List.getElem?_set_self (List.getElem?_eq_some_iff.1 hw).1]⟩
    · exact .inl (by simp [List.getElem?_set_ne (Ne.symm hww)])
  · exact ⟨none, a, by simp [Pool.wake, hb], rfl, fun _ => .inl rfl⟩

theorem run_enqueue {f : Frame} {i m : Nat} (hd : a.destroyed = false) (hacc : a.accepting = true)
    (hc : a.control = .shrink f i) (hm : i + m = a.size) :
    ∃ as b, Run step InResize a as b ∧ b.control = .shrink f a.size ∧ b.destroyed = false ∧ b.size = a.size ∧
      b.threads = a.threads ∧ b.queue = a.queue ++ List.replicate m .threadFinish ∧ Woken a b := by
  induction m generalizing a i with
  | zero =>
    obtain rfl : i = a.size := by omega
    exact ⟨[], a, .nil, hc, hd, rfl, rfl, by simp, fun _ => .inl rfl⟩
  | succ m ih =>
    have hmalloc : step a (.malloc true) = some ((a.push .threadFinish).goto (.signal f i)) := by
      have hi : ¬ a.size ≤ i := by omega
      simp [step, hd, Pool.malloc, hc, hi, hacc]
    obtain ⟨target, b, hb, hsame, hwoken⟩ := exists_wake ((a.push .threadFinish).goto (.signal f i))
    have hsignal : step ((a.push .threadFinish).goto (.signal f i)) (.signalFinish target) =
        some (b.goto (.shrink f (i + 1))) := by
      simp only [step, Pool.goto, Pool.push, hd, Bool.false_eq_true, if_false, Pool.signalFinish] at hb ⊢
      rw [hb]
      rfl
    have hsize : b.size = a.size := by rw [hsame]; rfl
    have hbq : b.queue = a.queue ++ [.threadFinish] := by rw [hsame]; rfl
    obtain ⟨as, c, hrun, hcc, hcd, hcs, hct, hcq, hwoken'⟩ := ih (a := b.goto (.shrink f (i + 1)))
      (by rw [hsame]; exact hd) (by rw [hsame]; exact hacc) rfl (by simp only [Pool.goto, hsize]; omega)
    refine ⟨_, c, ((Run.single (by exact rfl) hmalloc).snoc (by trivial) hsignal).append hrun, ?_, hcd, ?_, ?_, ?_, ?_⟩
    · rw [hcc]; simp only [Pool.goto, hsize]
    · rw [hcs]; exact hsize
    · rw [hct, hsame]; rfl
    · rw [hcq]
      simp only [Pool.goto, hbq, List.append_assoc, List.replicate_succ]
      rfl
    · exact Woken.trans hwoken hwoken'

/-! ## Any workers may stop -/

/-- The worker whose handle is in slot `i`. -/
def Pool.handle (a : Pool) (i : Nat) : Nat := (a.threads[i]?.join).getD 0

theorem Running.handle (h : Running n a) {i : Nat} (hi : i < n) :
    a.threads[i]? = some (some (a.handle i)) ∧ Able a (a.handle i) := by
  obtain ⟨w, s, ht, hs, hne⟩ := h.handles i hi
  have hw : a.handle i = w := by simp [Pool.handle, ht]
  rw [hw]
  exact ⟨ht, s, hs, hne, fun hf => h.noFinish.2 (mem_of_worker (hf ▸ hs))⟩

theorem step_resize (h : Running n a) (h0 : 0 < k) (hk : k < n) (noWait : Bool) :
    step a (.resize k noWait false) = some { a with control := .shrink ⟨k, noWait, false, false⟩ k, returned := none } := by
  have hl : ¬ a.limit < k := by have := h.fits; omega
  have hs : ¬ a.size < k := by rw [h.size]; omega
  have hk0 : k ≠ 0 := by omega
  simp [step, h.exists_, h.idle, Pool.beginResize, hl, hs, hk0, Frame.afterShutdown, Frame.afterDiscard]

/-- A call of `resize` is about to enqueue tasks that end workers. The queue is
empty, and the workers `ws` have not exited. -/
structure Drained (n k : Nat) (noWait : Bool) (ws : List Nat) (a : Pool) : Prop where
  control : a.control = .shrink ⟨k, noWait, false, false⟩ k
  exists_ : a.destroyed = false
  accepting : a.accepting = true
  size : a.size = n
  queue : a.queue = []
  able : ∀ w ∈ ws, Able a w
  noFinish : .running .threadFinish ∉ a.workers

/-- With less than 2 ^ 32 tasks queued, one worker can empty the queue. -/
theorem run_drained (h : Running n a) (h0 : 0 < k) (hk : k < n) (noWait : Bool) (hroom : a.queue.length < 2 ^ 32) :
    ∃ a' as b, step a (.resize k noWait false) = some a' ∧ Run step InResize a' as b ∧
      Drained n k noWait ((List.range n).map a.handle) b := by
  have hresize := step_resize h h0 hk noWait
  obtain ⟨as, b, hrun, hsame, hbw, hbq⟩ :=
    run_drain (a := { a with control := .shrink ⟨k, noWait, false, false⟩ k, returned := none }) h.exists_
      (h.handle (Nat.zero_lt_of_lt hk)).2 (List.append_nil a.queue).symm h.noFinish.1 hroom
  refine ⟨_, as, b, hresize, hrun, hsame.control, hsame.exists_.trans h.exists_, hsame.accepting.trans h.accepting,
    hsame.size.trans h.size, hbq, ?_, ?_⟩
  · intro w hw
    obtain ⟨i, hi, rfl⟩ := List.mem_map.1 hw
    by_cases hne : a.handle i = a.handle 0
    · rw [hne]
      exact hbw
    · rw [Able, hsame.others _ hne]
      exact (h.handle (List.mem_range.1 hi)).2
  · intro hf
    obtain ⟨w, hw⟩ := List.mem_iff_getElem?.1 hf
    by_cases hne : w = a.handle 0
    · obtain ⟨s, hs, -, hnf⟩ := hbw
      rw [← hne, hw] at hs
      exact hnf (Option.some.inj hs).symm
    · rw [hsame.others w hne] at hw
      exact h.noFinish.2 (mem_of_worker hw)

/-- Any workers, as many as are to stop, may be those that stop. -/
theorem run_stopped {noWait : Bool} {ws stop : List Nat} (h : Drained n k noWait ws a) (hk : k < n) (hn : n < 2 ^ 32)
    (hnodup : stop.Nodup) (hlen : stop.length = n - k) (hsub : ∀ w ∈ stop, w ∈ ws) :
    ∃ as b, Run step InResize a as b ∧ FinishesExecuted b ∧ ∀ w ∈ stop, b.workers[w]? = some .exited := by
  -- the control thread enqueues
  obtain ⟨as, b, hrun, hbc, hbd, hbs, -, hbq, hwoken⟩ :=
    run_enqueue (m := n - k) h.exists_ h.accepting h.control (by rw [h.size]; omega)
  have hshrunk : step b .proceed = some (b.goto (Frame.afterShrink ⟨k, noWait, false, false⟩)) := by
    simp only [step, hbd, Bool.false_eq_true, if_false, Pool.proceed, hbc]
    rw [hbs, if_neg (Nat.lt_irrefl _)]
  rw [h.queue, List.nil_append, ← hlen] at hbq
  -- the workers take what it enqueued
  obtain ⟨as', c, hrun', hcc, hcq, hexit, hothers⟩ :=
    run_exits (a := b.goto (Frame.afterShrink ⟨k, noWait, false, false⟩)) hnodup hbd
      (fun w hw => hwoken.able (h.able w (hsub w hw))) hbq (by simp only [Pool.goto, hbq, List.length_replicate]; omega)
  refine ⟨_, c, (hrun.snoc (by trivial) hshrunk).append hrun', ⟨fun f i => ?_, by simp [hcq], fun hf => ?_⟩, hexit⟩
  · rw [hcc]
    cases noWait <;> simp [Frame.afterShrink]
  · obtain ⟨w, hw⟩ := List.mem_iff_getElem?.1 hf
    by_cases hmem : w ∈ stop
    · rw [hexit w hmem] at hw
      simp at hw
    · rw [hothers w hmem] at hw
      exact hwoken.not_running h.noFinish (mem_of_worker hw)

/-- The workers of the first slots stop. The handles `resize` joins are those of
workers that go on. -/
theorem not_lastSlotsExit (h : Running n a) (h0 : 0 < k) (hk : k < n) (noWait : Bool) (hroom : a.queue.length < 2 ^ 32) :
    ¬ LastSlotsExit n k noWait a := by
  intro hall
  obtain ⟨a', as, b, hresize, hrun, hdrained⟩ := run_drained h h0 hk noWait hroom
  have hnodup : ((List.range (n - k)).map a.handle).Nodup := by
    refine List.Nodup.map_on (fun i hi j hj hij => ?_) List.nodup_range
    have hi : i < n - k := List.mem_range.1 hi
    have hj : j < n - k := List.mem_range.1 hj
    exact h.distinct i j _ (by omega) (by omega) (h.handle (by omega)).1 (hij ▸ (h.handle (by omega)).1)
  obtain ⟨as', c, hrun', hexecuted, hexit⟩ := run_stopped hdrained hk h.small hnodup (by simp) fun w hw => by
    obtain ⟨i, hi, rfl⟩ := List.mem_map.1 hw
    have hi : i < n - k := List.mem_range.1 hi
    exact List.mem_map.2 ⟨i, List.mem_range.2 (by omega), rfl⟩
  have hfirst := hall a' _ c hresize (hrun.append hrun') hexecuted 0 (by omega) _ (h.handle (by omega)).1
  have hexit0 := hexit (a.handle 0) (List.mem_map.2 ⟨0, List.mem_range.2 (by omega), rfl⟩)
  have := hfirst.1 hexit0
  omega

/-! ## Where none can -/

/-- Where the control thread gets in a `resize` from `n` to `k`. -/
def Control.Shrinks (n k size : Nat) : Control → Prop
  | .shrink f i => f.size = k ∧ size = n ∧ k ≤ i ∧ i ≤ n
  | .signal f i => f.size = k ∧ size = n ∧ k ≤ i ∧ i < n
  | .join f _ => f.size = k
  | .setSize f => f.size = k
  | .idle => True
  | _ => False

/-- How many tasks it has enqueued. -/
def Control.pushed (n k : Nat) : Control → Nat
  | .shrink _ i => i - k
  | .signal _ i => i + 1 - k
  | _ => n - k

/-- The queue's size is 0 before the tasks that end workers come to its front. -/
structure Flooded (n k : Nat) (a : Pool) : Prop where
  accepting : a.accepting = true
  control : a.control.Shrinks n k a.size
  long : 2 ^ 32 ≤ a.queue.length
  tail : ∃ users, a.queue = users ++ List.replicate (a.control.pushed n k) .threadFinish

theorem pushed_le {c : Control} {size : Nat} (h : c.Shrinks n k size) : c.pushed n k ≤ n - k := by
  cases c with
  | shrink f i | signal f i =>
    obtain ⟨-, -, hlo, hhi⟩ := h
    simp only [Control.pushed]
    omega
  | _ => exact Nat.le_refl _

theorem Flooded.of_same (hf : Flooded n k a) (hacc : b.accepting = a.accepting) (hq : b.queue = a.queue)
    (hc : b.control.Shrinks n k b.size) (hp : b.control.pushed n k = a.control.pushed n k) : Flooded n k b where
  accepting := hacc.trans hf.accepting
  control := hc
  long := by rw [hq]; exact hf.long
  tail := by rw [hq, hp]; exact hf.tail

theorem flooded_step (h0 : 0 < k) (hn : n < 2 ^ 32) (hf : Flooded n k a) {action : Action} (hok : InResize a action)
    (h : Step a action b) : Flooded n k b := by
  have hctl := hf.control
  cases h with
  | mallocFailed => exact absurd hok (by simp [InResize])
  | @finishQueued f i hc hlt =>
    rw [hc] at hctl
    obtain ⟨hfk, hsize, hlo, -⟩ := hctl
    obtain ⟨users, hq⟩ := hf.tail
    refine ⟨hf.accepting, ⟨hfk, hsize, hlo, hsize ▸ hlt⟩, ?_, users, ?_⟩
    · have := hf.long
      simp only [Pool.goto, Pool.push, List.length_append]
      omega
    · have hsucc : i + 1 - k = (i - k) + 1 := by omega
      rw [hc] at hq
      simp only [Pool.goto, Pool.push, hq, Control.pushed, List.append_assoc, hsucc, List.replicate_succ']
  | finishRefused hc hlt hno => simp [hf.accepting] at hno
  | @finishSignalled b f i _ hc hw =>
    have hsame := wake_same hw
    rw [hc] at hctl
    obtain ⟨hfk, hsize, hlo, hhi⟩ := hctl
    refine hf.of_same (by rw [hsame]; rfl) (by rw [hsame]; rfl) ?_ (by rw [hc]; rfl)
    rw [hsame]
    exact ⟨hfk, hsize, Nat.le_succ_of_le hlo, hhi⟩
  | @shrunk f i hc hle =>
    rw [hc] at hctl
    obtain ⟨hfk, hsize, hlo, hhi⟩ := hctl
    have hi : i = n := by omega
    refine hf.of_same rfl rfl ?_ ?_
    · cases hw : f.noWait <;> simpa [Frame.afterShrink, hw, Control.Shrinks] using hfk
    · cases hw : f.noWait <;> simp [Frame.afterShrink, hw, Control.pushed, hc, hi]
  | joined hc =>
    rw [hc] at hctl
    exact hf.of_same rfl rfl hctl (by rw [hc]; rfl)
  | allJoined hc =>
    rw [hc] at hctl
    exact hf.of_same rfl rfl hctl (by rw [hc]; rfl)
  | setSize hc => exact hf.of_same (by simp) (by simp) (by simp [Control.Shrinks]) (by simp [hc, Control.pushed])
  | setSizeDestroy hc _ hz =>
    rw [hc] at hctl
    have hfk : _ = k := hctl
    omega
  | @take w t queue hw hne hq =>
    -- a multiple of 2 ^ 32 tasks stay, and those that end workers are the last of them
    have hlen : 2 ^ 32 ≤ queue.length := by
      have hlong := hf.long
      rw [Pool.queueSize, hq] at hne
      rw [hq] at hlong
      simp only [List.length_cons] at hlong hne
      omega
    obtain ⟨users, htail⟩ := hf.tail
    refine ⟨hf.accepting, hctl, hlen, ?_⟩
    have hpushed := pushed_le hctl
    cases users with
    | nil =>
      have := congrArg List.length (hq.symm.trans htail)
      simp only [List.length_cons, List.nil_append, List.length_replicate] at this
      omega
    | cons u users =>
      rw [hq, List.cons_append, List.cons.injEq] at htail
      exact ⟨users, htail.2⟩
  | signalled hs hw => exact absurd hok id
  | invalid | finishUnaccepted | refused | accepted | refuse | grow | finish | shrink | destroyBusy | destroyed | created
  | grew | overrun | createFailed | cleanUp | growFailed => exact absurd hok id
  | allCreated hc | grown hc | requestShutdown hc | broadcastShutdown hc | discard hc | broadcastDiscard hc
  | finishBusy hc | finished hc =>
    rw [hc] at hctl
    exact absurd hctl id
  | block | exit | complete | threadFinish | wakeUp => exact hf.of_same rfl rfl hctl rfl

/-- With 2 ^ 32 tasks queued or more, the workers stop taking tasks before they
come to those that end them. -/
theorem lastSlotsExit_of_long (h : Running n a) (h0 : 0 < k) (hk : k < n) (noWait : Bool)
    (hlong : 2 ^ 32 ≤ a.queue.length) : LastSlotsExit n k noWait a := by
  intro a' as b hresize hrun hexecuted
  obtain rfl := Option.some.inj ((step_resize h h0 hk noWait).symm.trans hresize)
  have hstart : Flooded n k { a with control := .shrink ⟨k, noWait, false, false⟩ k, returned := none } :=
    ⟨h.accepting, ⟨rfl, h.size, Nat.le_refl k, Nat.le_of_lt hk⟩, hlong, a.queue, by simp [Control.pushed]⟩
  have hf := hrun.inv hstart fun _ _ _ hf hok hs => flooded_step h0 h.small hf hok (step_cases hs)
  obtain ⟨users, htail⟩ := hf.tail
  have hpushed : b.control.pushed n k = n - k := by
    cases hc : b.control with
    | shrink f i => exact absurd hc (hexecuted.enqueued f i).1
    | signal f i => exact absurd hc (hexecuted.enqueued f i).2
    | _ => rfl
  have hmem : .threadFinish ∈ b.queue := by
    rw [htail, hpushed, List.mem_append, List.mem_replicate]
    exact .inr ⟨by omega, rfl⟩
  exact absurd hmem hexecuted.executed.1

/-- The workers of the last slots are those that stop only where none does. -/
theorem lastSlotsExit_iff (h : Running n a) (h0 : 0 < k) (hk : k < n) (noWait : Bool) :
    LastSlotsExit n k noWait a ↔ 2 ^ 32 ≤ a.queue.length := by
  refine ⟨fun hexit => ?_, lastSlotsExit_of_long h h0 hk noWait⟩
  by_contra hroom
  exact not_lastSlotsExit h h0 hk noWait (Nat.lt_of_not_le hroom) hexit

/-- What `sph_thread_pool_new` leaves for two workers. -/
def twoWorkers : Pool where
  queue := []
  accepting := true
  shutdown := false
  size := 2
  threads := [some 0, some 1]
  workers := [.awake, .awake]
  signals := 0
  control := .idle
  returned := some (.new, .ok)
  destroyed := false
  log := ⟨[], [], [], []⟩

theorem running_twoWorkers : Running 2 twoWorkers where
  idle := rfl
  exists_ := rfl
  accepting := rfl
  shutdown := rfl
  size := rfl
  fits := by decide
  handles := by
    intro i hi
    obtain rfl | rfl : i = 0 ∨ i = 1 := by omega
    · exact ⟨0, .awake, rfl, rfl, by simp⟩
    · exact ⟨1, .awake, rfl, rfl, by simp⟩
  distinct := by
    intro i j w hi hj hiw hjw
    obtain rfl | rfl : i = 0 ∨ i = 1 := by omega
    all_goals obtain rfl | rfl : j = 0 ∨ j = 1 := by omega
    all_goals simp [twoWorkers] at hiw hjw ⊢
    all_goals omega
  noFinish := by decide
  small := by decide

theorem lastSlotsExit_two : ¬ LastSlotsExit 2 1 false twoWorkers := by
  rw [lastSlotsExit_iff running_twoWorkers (by decide) (by decide)]
  decide

/-- Worker 0 takes the task that is to end one of two workers. The call joins
the handle of worker 1, and the slot that stays in use is that of worker 0. -/
theorem first_slot_exits : ∃ b, exec step twoWorkers [.resize 1 false false, .malloc true, .signalFinish none, .proceed,
      .work 0, .complete 0] = some b ∧ FinishesExecuted b ∧ b.control = .join ⟨1, false, false, false⟩ 1 ∧
    b.threads = [some 0, some 1] ∧ b.workers = [.exited, .awake] :=
  ⟨_, rfl, ⟨by simp [Frame.afterShrink], by decide⟩, rfl, rfl, rfl⟩

end SphSc.ThreadPool

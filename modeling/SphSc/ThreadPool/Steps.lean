import SphSc.ThreadPool.Model
/-!
# What a step of a pool can do

`Step` has a constructor for each branch of `step`, with its guards and the
state after it. `step_cases` is the inversion lemma that every invariant of the
pool is proved from.
-/
open Runs

namespace SphSc.ThreadPool

inductive Step : Pool → Action → Pool → Prop
  -- control calls
  | refuse {a size noWait discardQueue} : a.control = .idle → a.limit < size →
      Step a (.resize size noWait discardQueue) (a.ret (.resize size noWait discardQueue) .einval)
  | grow {a size noWait discardQueue} : a.control = .idle → size ≤ a.limit → a.size < size →
      Step a (.resize size noWait discardQueue)
        { a with control := .growing ⟨size, noWait, discardQueue, false⟩ a.size .ok, returned := none }
  | finish {a noWait discardQueue} : a.control = .idle →
      Step a (.resize 0 noWait discardQueue)
        { a with control := .requestShutdown ⟨0, noWait, discardQueue, false⟩, returned := none }
  | shrink {a size noWait discardQueue} : a.control = .idle → size ≤ a.limit → size ≤ a.size → size ≠ 0 →
      Step a (.resize size noWait discardQueue)
        { a with control := Frame.afterShutdown ⟨size, noWait, discardQueue, false⟩, returned := none }
  | destroyBusy {a} : a.control = .idle → a.size ≠ 0 ∨ a.shutdown = false →
      Step a .destroy (a.ret .destroy .ebusy)
  | destroyed {a} : a.control = .idle → a.size = 0 → a.shutdown = true →
      Step a .destroy ({ a with destroyed := true }.ret .destroy .ok)
  -- threads are created
  | created {a size i} : a.control = .creating size i → i < size → i < a.limit →
      Step a (.create true) ((a.spawn i).goto (.creating size (i + 1)))
  | grew {a f i code} : a.control = .growing f i code → i < f.size → i < a.limit →
      Step a (.create true) ((a.spawn i).goto (.growing f (i + 1) code))
  | overrun {a i} : (∃ size, a.control = .creating size i) ∨ (∃ f code, a.control = .growing f i code) →
      a.limit ≤ i → Step a (.create true) (a.goto .overrun)
  | createFailed {a size} : a.control = .creating size 0 → 0 < size →
      Step a (.create false) ({ a with threads := a.threads.set 0 none }.ret .new .notCreated)
  | cleanUp {a size i} : a.control = .creating size i → i < size → 0 < i →
      Step a (.create false) { a with
        threads := a.threads.set i none, size := i, control := .requestShutdown ⟨0, true, false, true⟩ }
  | growFailed {a f i code} : a.control = .growing f i code → i < f.size →
      Step a (.create false) { a with
        threads := a.threads.set i none, size := i, control := .growing f f.size .eagain }
  | allCreated {a size i} : a.control = .creating size i → size ≤ i →
      Step a .proceed ({ a with size }.ret .new .ok)
  | grown {a f i code} : a.control = .growing f i code → f.size ≤ i →
      Step a .proceed (f.ret { a with accepting := true, shutdown := false, size := f.size } code)
  -- the rest of `resize`
  | requestShutdown {a f} : a.control = .requestShutdown f →
      Step a .proceed { a with accepting := false, shutdown := true, control := .broadcastShutdown f }
  | broadcastShutdown {a f} : a.control = .broadcastShutdown f →
      Step a .proceed (a.wakeAll.goto f.afterShutdown)
  | discard {a f} : a.control = .discard f →
      Step a .proceed { a with queue := [], control := .broadcastDiscard f }
  | broadcastDiscard {a f} : a.control = .broadcastDiscard f →
      Step a .proceed (a.wakeAll.goto f.afterDiscard)
  | mallocFailed {a f i} : a.control = .shrink f i → i < a.size → Step a (.malloc false) (f.ret a .enomem)
  | finishQueued {a f i} : a.control = .shrink f i → i < a.size → a.accepting = true →
      Step a (.malloc true) ((a.push .threadFinish).goto (.signal f i))
  | finishRefused {a f i} : a.control = .shrink f i → i < a.size → a.accepting = false →
      Step a (.malloc true) (f.ret a .ebusy)
  | finishSignalled {a b f i target} : a.control = .signal f i → a.wake target = some b →
      Step a (.signalFinish target) (b.goto (.shrink f (i + 1)))
  | shrunk {a f i} : a.control = .shrink f i → a.size ≤ i → Step a .proceed (a.goto f.afterShrink)
  | joined {a f i} : a.control = .join f i → i < a.size → a.joinable i = true →
      Step a .proceed (a.goto (.join f (i + 1)))
  | allJoined {a f i} : a.control = .join f i → a.size ≤ i → Step a .proceed (a.goto (.setSize f))
  | setSize {a f} : a.control = .setSize f → f.noWait = true ∨ f.size ≠ 0 →
      Step a .proceed (f.ret { a with size := f.size } .ok)
  | setSizeDestroy {a f} : a.control = .setSize f → f.noWait = false → f.size = 0 →
      Step a .proceed { a with size := 0, control := .destroy f }
  | finishBusy {a f} : a.control = .destroy f → a.size ≠ 0 ∨ a.shutdown = false → Step a .proceed (f.ret a .ok)
  | finished {a f} : a.control = .destroy f → a.size = 0 → a.shutdown = true →
      Step a .proceed (f.ret { a with destroyed := true } .ok)
  -- clients
  | invalid {a} : Step a (.enqueue none) a
  | refused {a id} : a.unused (.user id) = true → a.accepting = false →
      Step a (.enqueue (some (.user id))) { a with log := { a.log with refused := a.log.refused ++ [id] } }
  | finishUnaccepted {a} : a.accepting = false → Step a (.enqueue (some .threadFinish)) a
  | accepted {a t} : a.unused t = true → a.accepting = true →
      Step a (.enqueue (some t)) { a.push t with signals := a.signals + 1 }
  | signalled {a b target} : a.signals ≠ 0 → a.wake target = some b →
      Step a (.signal target) { b with signals := b.signals - 1 }
  -- workers
  | block {a w} : a.workers[w]? = some .awake → a.queueSize = 0 → a.shutdown = false →
      Step a (.work w) (a.setWorker w .blocked)
  | exit {a w} : a.workers[w]? = some .awake → a.queueSize = 0 → a.shutdown = true →
      Step a (.work w) (a.setWorker w .exited)
  | take {a w t queue} : a.workers[w]? = some .awake → a.queueSize ≠ 0 → a.queue = t :: queue →
      Step a (.work w)
        { a.setWorker w (.running t) with queue, log := { a.log with dequeued := a.log.dequeued ++ [t] } }
  | complete {a w id} : a.workers[w]? = some (.running (.user id)) →
      Step a (.complete w) { a.setWorker w .awake with log := { a.log with completed := a.log.completed ++ [id] } }
  | threadFinish {a w} : a.workers[w]? = some (.running .threadFinish) →
      Step a (.complete w) (a.setWorker w .exited)
  | wakeUp {a w} : a.workers[w]? = some .blocked → Step a (.wakeUp w) (a.setWorker w .awake)

variable {a a' : Pool}

theorem resize_cases {size : Nat} {noWait discardQueue : Bool} (hc : a.control = .idle) :
    Step a (.resize size noWait discardQueue) (a.beginResize ⟨size, noWait, discardQueue, false⟩) := by
  unfold Pool.beginResize
  split
  · rename_i hl
    exact .refuse hc hl
  split
  · rename_i hl hs
    exact .grow hc (Nat.le_of_not_lt hl) hs
  · rename_i hl hs
    split
    · rename_i h0
      obtain rfl : size = 0 := h0
      exact .finish hc
    · rename_i h0
      exact .shrink hc (Nat.le_of_not_lt hl) (Nat.le_of_not_lt hs) h0

theorem create_cases {success : Bool} (h : a.create success = some a') : Step a (.create success) a' := by
  unfold Pool.create at h
  split at h
  · rename_i size i hc
    split at h
    · cases h
    rename_i hi
    cases success with
    | true =>
      cases h
      split
      · rename_i hl
        exact .created hc (by omega) hl
      · rename_i hl
        exact .overrun (.inl ⟨size, hc⟩) (by omega)
    | false =>
      simp only [Bool.false_eq_true, if_false] at h
      split at h
      · rename_i h0
        cases h
        exact .cleanUp hc (by omega) h0
      · cases h
        obtain rfl : i = 0 := by omega
        exact .createFailed hc (by omega)
  · rename_i f i code hc
    split at h
    · cases h
    rename_i hi
    cases success with
    | true =>
      cases h
      split
      · rename_i hl
        exact .grew hc (by omega) hl
      · rename_i hl
        exact .overrun (.inr ⟨f, code, hc⟩) (by omega)
    | false =>
      cases h
      exact .growFailed hc (by omega)
  · cases h

theorem malloc_cases {success : Bool} (h : a.malloc success = some a') : Step a (.malloc success) a' := by
  unfold Pool.malloc at h
  split at h
  · rename_i f i hc
    split at h
    · cases h
    rename_i hi
    cases success with
    | true =>
      simp only [Bool.not_true, Bool.false_eq_true, if_false] at h
      split at h
      · rename_i hacc
        cases h
        exact .finishQueued hc (by omega) hacc
      · rename_i hacc
        cases h
        exact .finishRefused hc (by omega) (by simpa using hacc)
    | false =>
      cases h
      exact .mallocFailed hc (by omega)
  · cases h

theorem proceed_cases (h : a.proceed = some a') : Step a .proceed a' := by
  unfold Pool.proceed at h
  cases hc : a.control with
  | creating size i =>
    simp only [hc] at h
    split at h
    · cases h
    · cases h
      exact .allCreated hc (by omega)
  | growing f i code =>
    simp only [hc] at h
    split at h
    · cases h
    · cases h
      exact .grown hc (by omega)
  | requestShutdown f =>
    simp only [hc] at h
    cases h
    exact .requestShutdown hc
  | broadcastShutdown f =>
    simp only [hc] at h
    cases h
    exact .broadcastShutdown hc
  | discard f =>
    simp only [hc] at h
    cases h
    exact .discard hc
  | broadcastDiscard f =>
    simp only [hc] at h
    cases h
    exact .broadcastDiscard hc
  | shrink f i =>
    simp only [hc] at h
    split at h
    · cases h
    · cases h
      exact .shrunk hc (by omega)
  | join f i =>
    simp only [hc] at h
    split at h
    · split at h
      · rename_i hi hj
        cases h
        exact .joined hc hi hj
      · cases h
    · cases h
      exact .allJoined hc (by omega)
  | setSize f =>
    simp only [hc] at h
    split at h
    · rename_i hf
      cases h
      rw [hf.2]
      exact .setSizeDestroy hc hf.1 hf.2
    · rename_i hf
      cases h
      exact .setSize hc (by simpa only [not_and_or, Bool.not_eq_false] using hf)
  | destroy f =>
    simp only [hc, Pool.destroy] at h
    split at h
    · rename_i hd
      cases h
      exact .finishBusy hc hd
    · rename_i hd
      cases h
      exact .finished hc (by simp_all) (by simp_all)
  | idle | overrun | signal f i =>
    simp only [hc] at h
    cases h

theorem enqueue_cases {task : Option Task} (h : a.enqueue task = some a') : Step a (.enqueue task) a' := by
  unfold Pool.enqueue at h
  cases task with
  | none =>
    cases h
    exact .invalid
  | some t =>
    simp only at h
    split at h
    · cases h
    rename_i hu
    have hu : a.unused t = true := by simpa using hu
    split at h
    · rename_i hacc
      have hacc : a.accepting = false := by simpa using hacc
      cases t with
      | user id =>
        cases h
        exact .refused hu hacc
      | threadFinish =>
        cases h
        exact .finishUnaccepted hacc
    · rename_i hacc
      cases h
      exact .accepted hu (by simpa using hacc)

theorem work_cases {w : Nat} (h : a.work w = some a') : Step a (.work w) a' := by
  unfold Pool.work at h
  split at h
  · rename_i hw
    split at h
    · rename_i h0
      cases h
      cases hs : a.shutdown with
      | true => exact .exit hw h0 hs
      | false => exact .block hw h0 hs
    · rename_i h0
      cases hq : a.queue with
      | nil =>
        simp only [hq] at h
        cases h
      | cons t queue =>
        simp only [hq] at h
        cases h
        exact .take hw h0 hq
  · cases h

theorem complete_cases {w : Nat} (h : a.complete w = some a') : Step a (.complete w) a' := by
  unfold Pool.complete at h
  split at h
  · rename_i id hw
    cases h
    exact .complete hw
  · rename_i hw
    cases h
    exact .threadFinish hw
  · cases h

/-- Every step is one of the above. -/
theorem step_cases {action : Action} (h : step a action = some a') : Step a action a' := by
  unfold step at h
  split at h
  · cases h
  cases action with
  | resize size noWait discardQueue =>
    simp only at h
    split at h
    · rename_i hc
      cases h
      exact resize_cases hc
    · cases h
  | destroy =>
    simp only at h
    split at h
    · rename_i hc
      cases h
      unfold Pool.destroy
      split
      · rename_i hd
        exact .destroyBusy hc hd
      · rename_i hd
        exact .destroyed hc (by simp_all) (by simp_all)
    · cases h
  | create success => exact create_cases h
  | malloc success => exact malloc_cases h
  | signalFinish target =>
    simp only [Pool.signalFinish] at h
    split at h
    · rename_i f i hc
      obtain ⟨b, hb, rfl⟩ := Option.map_eq_some_iff.1 h
      exact .finishSignalled hc hb
    · cases h
  | proceed => exact proceed_cases h
  | enqueue task => exact enqueue_cases h
  | signal target =>
    simp only at h
    split at h
    · cases h
    · rename_i hs
      obtain ⟨b, hb, rfl⟩ := Option.map_eq_some_iff.1 h
      exact .signalled hs hb
  | work w => exact work_cases h
  | complete w => exact complete_cases h
  | wakeUp w =>
    simp only [Pool.wake] at h
    split at h
    · rename_i hw
      cases h
      exact .wakeUp hw
    · cases h

/-! ## What the parts of a step leave alone -/

attribute [simp] Pool.setWorker Pool.wakeAll Pool.spawn Pool.goto Pool.ret Pool.push

section
variable (f : Frame) (a : Pool) (code : Code)

@[simp] theorem Frame.ret_control : (f.ret a code).control = .idle := by unfold Frame.ret; split <;> rfl
@[simp] theorem Frame.ret_queue : (f.ret a code).queue = a.queue := by unfold Frame.ret; split <;> rfl
@[simp] theorem Frame.ret_accepting : (f.ret a code).accepting = a.accepting := by unfold Frame.ret; split <;> rfl
@[simp] theorem Frame.ret_shutdown : (f.ret a code).shutdown = a.shutdown := by unfold Frame.ret; split <;> rfl
@[simp] theorem Frame.ret_size : (f.ret a code).size = a.size := by unfold Frame.ret; split <;> rfl
@[simp] theorem Frame.ret_threads : (f.ret a code).threads = a.threads := by unfold Frame.ret; split <;> rfl
@[simp] theorem Frame.ret_workers : (f.ret a code).workers = a.workers := by unfold Frame.ret; split <;> rfl
@[simp] theorem Frame.ret_signals : (f.ret a code).signals = a.signals := by unfold Frame.ret; split <;> rfl
@[simp] theorem Frame.ret_destroyed : (f.ret a code).destroyed = a.destroyed := by unfold Frame.ret; split <;> rfl
@[simp] theorem Frame.ret_log : (f.ret a code).log = a.log := by unfold Frame.ret; split <;> rfl

end

/-- Whether the control thread is about to send a signal. -/
def Control.sends : Control → Nat
  | .signal _ _ => 1
  | _ => 0

@[simp] theorem sends_afterShrink (f : Frame) : f.afterShrink.sends = 0 := by unfold Frame.afterShrink; split <;> rfl

@[simp] theorem sends_afterDiscard (f : Frame) : f.afterDiscard.sends = 0 := by
  unfold Frame.afterDiscard
  split
  · exact sends_afterShrink f
  · rfl

@[simp] theorem sends_afterShutdown (f : Frame) : f.afterShutdown.sends = 0 := by
  unfold Frame.afterShutdown
  split
  · rfl
  · exact sends_afterDiscard f

theorem wake_cases {b : Pool} {target : Option Nat} (h : a.wake target = some b) :
    (.blocked ∉ a.workers ∧ b = a) ∨ ∃ w, a.workers[w]? = some .blocked ∧ b = a.setWorker w .awake := by
  cases target with
  | none =>
    simp only [Pool.wake] at h
    split at h
    · cases h
    · rename_i hw
      cases h
      exact .inl ⟨hw, rfl⟩
  | some w =>
    simp only [Pool.wake] at h
    split at h
    · rename_i hw
      cases h
      exact .inr ⟨w, hw, rfl⟩
    · cases h

theorem wake_same {b : Pool} {target : Option Nat} (hw : a.wake target = some b) : b = { a with workers := b.workers } := by
  rcases wake_cases hw with ⟨-, rfl⟩ | ⟨w, -, rfl⟩ <;> rfl

/-! ## Counting workers -/

/-- Setting one entry moves a count by that entry. -/
theorem countP_set {ws : List Worker} {w : Nat} {x : Worker} (h : ws[w]? = some x) (y : Worker) (p : Worker → Bool) :
    (ws.set w y).countP p + (if p x then 1 else 0) = ws.countP p + if p y then 1 else 0 := by
  obtain ⟨hw, rfl⟩ := List.getElem?_eq_some_iff.1 h
  have hpos : p ws[w] = true → 0 < ws.countP p := fun hp => List.countP_pos_iff.2 ⟨_, List.getElem_mem hw, hp⟩
  rw [List.countP_set hw]
  split <;> rename_i hp
  · have := hpos hp
    omega
  · omega

theorem count_set {ws : List Worker} {w : Nat} {x : Worker} (h : ws[w]? = some x) (y s : Worker) :
    (ws.set w y).count s + (if x = s then 1 else 0) = ws.count s + if y = s then 1 else 0 := by
  simpa [List.count] using countP_set h y (· == s)

theorem mem_of_worker {ws : List Worker} {w : Nat} {x : Worker} (h : ws[w]? = some x) : x ∈ ws :=
  List.mem_of_getElem? h

/-- Setting one worker to another state puts none in this one. -/
theorem mem_of_set {ws : List Worker} {w : Nat} {s y : Worker} (hs : y ≠ s) (h : s ∈ ws.set w y) : s ∈ ws := by
  rcases List.mem_or_eq_of_mem_set h with h | h
  · exact h
  · exact absurd h.symm hs

/-- A broadcast makes workers awake, and nothing else. -/
theorem mem_wakeAll {s : Worker} (hs : s ≠ .awake) (h : s ∈ a.wakeAll.workers) : s ∈ a.workers := by
  simp only [Pool.wakeAll, List.mem_map] at h
  obtain ⟨x, hx, hxs⟩ := h
  split at hxs
  · exact absurd hxs.symm hs
  · exact hxs ▸ hx

theorem count_running_wakeAll (a : Pool) (t : Task) :
    a.wakeAll.workers.count (.running t) = a.workers.count (.running t) := by
  simp only [Pool.wakeAll, List.count, List.countP_map]
  apply List.countP_congr
  intro s _
  cases s <;> simp

theorem count_running_set {ws : List Worker} {w : Nat} {x y : Worker} (hw : ws[w]? = some x)
    (hx : ∀ t, x ≠ .running t) (hy : ∀ t, y ≠ .running t) (t : Task) :
    (ws.set w y).count (.running t) = ws.count (.running t) := by
  simpa only [if_neg (hx t), if_neg (hy t), Nat.add_zero] using count_set hw y (.running t)

theorem running_of_set {ws : List Worker} {w w' : Nat} {y : Worker} {t : Task} (hy : y ≠ .running t)
    (h : (ws.set w y)[w']? = some (.running t)) : ws[w']? = some (.running t) := by
  rw [List.getElem?_set] at h
  split at h
  · split at h
    · exact absurd (Option.some.inj h) hy
    · simp at h
  · exact h

theorem count_running_wake {b : Pool} {target : Option Nat} (hw : a.wake target = some b) (t : Task) :
    b.workers.count (.running t) = a.workers.count (.running t) := by
  rcases wake_cases hw with ⟨-, rfl⟩ | ⟨w, hb, rfl⟩
  · rfl
  · exact count_running_set hb (by simp) (by simp) t

end SphSc.ThreadPool

import Mathlib.Algebra.GroupWithZero.Nat
import SphSc.ThreadPool.Control
import SphSc.ThreadPool.WakeUp
/-!
# `finish` returns

After the section of `sph_thread_pool_request_shutdown` under the mutex the pool
accepts nothing. What is left to do then only gets less, whatever clients do,
and as long as `finish` has not returned, the control thread or a worker can go on.
It joins threads only if `resize` had every thread it asked for: where it did
not get one, the slot counts all the same, and what it holds is undefined.
-/
open Runs

namespace SphSc.ThreadPool

variable {a a' : Pool} {action : Action}

/-- In `resize` to 0, called with `f`, past `sph_thread_pool_request_shutdown`'s
section under the mutex. -/
def Control.Finishing (f : Frame) (c : Control) : Prop := c.frame = some f ∧ f.size = 0 ∧ ∀ g, c ≠ .requestShutdown g

theorem Control.Finishing.frame_eq {f g : Frame} {c : Control} (h : c.Finishing f) (hc : c.frame = some g) : g = f :=
  Option.some.inj (hc.symm.trans h.1)

theorem Control.Finishing.frame_ne {f : Frame} {c : Control} (h : c.Finishing f) : c.frame ≠ none := by
  rw [h.1]
  exact Option.some_ne_none f

/-- The next part of `resize` is no request to shut down. -/
theorem afterDiscard_ne (f g : Frame) : f.afterDiscard ≠ .requestShutdown g := by
  unfold Frame.afterDiscard Frame.afterShrink
  split
  · split <;> simp
  · simp

theorem afterShutdown_ne (f g : Frame) : f.afterShutdown ≠ .requestShutdown g := by
  unfold Frame.afterShutdown
  split
  · simp
  · exact afterDiscard_ne f g

/-- The pool has stopped: it accepts nothing, and is shut down. -/
def Pool.Stopped (a : Pool) : Prop := a.accepting = false ∧ a.shutdown = true

theorem stopped_step (hctl : ControlInv a) (hi : ∀ f, a.control.Finishing f → a.Stopped) (h : Step a action a') {f : Frame}
    (hf : a'.control.Finishing f) : a'.Stopped := by
  have hin := hctl.inRange
  cases h with
  | finish | cleanUp => exact absurd rfl (hf.2.2 _)
  | shrink hc hl hs h0 =>
    obtain rfl := hf.frame_eq (frame_afterShutdown _)
    exact absurd hf.2.1 h0
  | requestShutdown => exact ⟨rfl, rfl⟩
  | finishSignalled hc hw =>
    rw [hc] at hin
    obtain rfl := hf.frame_eq rfl
    exact absurd hf.2.1 hin.1
  | signalled hs hw =>
    rw [wake_same hw] at hf ⊢
    exact hi f hf
  | broadcastShutdown hc =>
    obtain rfl := hf.frame_eq (frame_afterShutdown _)
    exact hi _ ⟨by rw [hc]; rfl, hf.2.1, by simp [hc]⟩
  | broadcastDiscard hc =>
    obtain rfl := hf.frame_eq (frame_afterDiscard _)
    exact hi _ ⟨by rw [hc]; rfl, hf.2.1, by simp [hc]⟩
  | shrunk hc =>
    obtain rfl := hf.frame_eq (frame_afterShrink _)
    exact hi _ ⟨by rw [hc]; rfl, hf.2.1, by simp [hc]⟩
  | discard hc | finishQueued hc | joined hc | allJoined hc | setSizeDestroy hc =>
    obtain rfl := hf.frame_eq rfl
    exact hi _ ⟨by rw [hc]; rfl, hf.2.1, by simp [hc]⟩
  | invalid | refused | finishUnaccepted | accepted | block | exit | take | complete | threadFinish | wakeUp => exact hi f hf
  | _ => exact absurd (by simp [Control.frame]) hf.frame_ne

/-! ## Handles -/

/-- Handles are those of threads. -/
def Pool.Handled (a : Pool) : Prop := ∀ i w : Nat, a.threads[i]? = some (some w) → w < a.workers.length

theorem Pool.Handled.of_same (hi : a.Handled) (ht : a'.threads = a.threads) (hw : a'.workers.length = a.workers.length) :
    a'.Handled := by
  intro i w h
  rw [ht] at h
  rw [hw]
  exact hi i w h

theorem Pool.Handled.of_unset (hi : a.Handled) {i : Nat} (ht : a'.threads = a.threads.set i none)
    (hw : a'.workers = a.workers) : a'.Handled := by
  intro j w h
  rw [ht, List.getElem?_set] at h
  rw [hw]
  split at h
  · split at h <;> simp at h
  · exact hi j w h

theorem Pool.Handled.of_spawn (hi : a.Handled) (i : Nat) (c : Control) : ((a.spawn i).goto c).Handled := by
  intro j w h
  simp only [Pool.goto, Pool.spawn, List.getElem?_set, List.length_append, List.length_singleton] at h ⊢
  split at h
  · split at h
    · simp only [Option.some.injEq] at h
      omega
    · simp at h
  · exact Nat.lt_succ_of_lt (hi j w h)

theorem wake_length {b : Pool} {target : Option Nat} (hw : a.wake target = some b) :
    b.workers.length = a.workers.length := by
  rcases wake_cases hw with ⟨-, rfl⟩ | ⟨w, -, rfl⟩
  · rfl
  · simp

theorem handled_step (hi : a.Handled) (h : Step a action a') : a'.Handled := by
  cases h with
  | created | grew => exact hi.of_spawn _ _
  | createFailed | cleanUp | growFailed => exact hi.of_unset rfl rfl
  | finishSignalled _ hw | signalled _ hw =>
    have hlen := wake_length hw
    rw [wake_same hw] at hlen ⊢
    exact hi.of_same rfl hlen
  | _ => exact hi.of_same (by simp) (by simp)

/-! ## Slots -/

/-- A thread is created wherever `resize` asks for one, and for the first slot of a new pool. -/
def Creates (a : Pool) (action : Action) : Prop :=
  action = .create false → ∃ size i, a.control = .creating size i ∧ 0 < i

/-- How many slots have handles. -/
def Control.filled (size : Nat) : Control → Nat
  | .creating _ i => i
  | .growing _ i _ => i
  | .overrun => 0
  | _ => size

def Pool.Filled (a : Pool) : Prop := ∀ i < a.control.filled a.size, ∃ w, a.threads[i]? = some (some w)

@[simp] theorem filled_afterShrink (f : Frame) (size : Nat) : f.afterShrink.filled size = size := by
  unfold Frame.afterShrink
  split <;> rfl

@[simp] theorem filled_afterDiscard (f : Frame) (size : Nat) : f.afterDiscard.filled size = size := by
  unfold Frame.afterDiscard
  split
  · exact filled_afterShrink f size
  · rfl

@[simp] theorem filled_afterShutdown (f : Frame) (size : Nat) : f.afterShutdown.filled size = size := by
  unfold Frame.afterShutdown
  split
  · rfl
  · exact filled_afterDiscard f size

theorem Control.Finishing.filled_eq {f : Frame} {c : Control} (h : c.Finishing f) (size : Nat) : c.filled size = size := by
  have hne := h.frame_ne
  cases c <;> first | rfl | exact absurd rfl hne

theorem Pool.Filled.of_le (hi : a.Filled) (ht : a'.threads = a.threads)
    (hle : a'.control.filled a'.size ≤ a.control.filled a.size) : a'.Filled := by
  intro i h
  rw [ht]
  exact hi i (Nat.lt_of_lt_of_le h hle)

theorem Pool.Filled.of_spawn (hi : a.Filled) {i : Nat} {c : Control} (hlt : i < a.limit) (hat : a.control.filled a.size = i)
    (hc : c.filled a.size = i + 1) : ((a.spawn i).goto c).Filled := by
  intro j hj
  have hj' : j < i + 1 := hc ▸ hj
  simp only [Pool.goto, Pool.spawn]
  rcases Nat.lt_succ_iff_lt_or_eq.1 hj' with hji | rfl
  · rw [List.getElem?_set_ne (Nat.ne_of_gt hji)]
    exact hi j (hat ▸ hji)
  · exact ⟨_, List.getElem?_set_self hlt⟩

/-- Where a thread is not created, no `resize` to 0 has begun. -/
theorem createFailed_frame (h : Step a (.create false) a') : a.control.frame = none := by
  cases h with
  | createFailed hc | cleanUp hc | growFailed hc => rw [hc]; rfl

theorem filled_start (limit size junk : Nat) : (start limit size junk).Filled := fun _ h => absurd h (Nat.not_lt_zero _)

theorem filled_step (hctl : ControlInv a) (hi : a.Filled) (hok : Creates a action) (h : Step a action a') : a'.Filled := by
  have hin := hctl.inRange
  cases h with
  | created hc _ hlt | grew hc _ hlt => exact hi.of_spawn hlt (by rw [hc]; rfl) rfl
  | createFailed hc =>
    obtain ⟨size, i, hc', hpos⟩ := hok rfl
    rw [hc] at hc'
    cases hc'
    exact absurd hpos (Nat.lt_irrefl 0)
  | growFailed hc =>
    obtain ⟨size, i, hc', -⟩ := hok rfl
    rw [hc] at hc'
    cases hc'
  | @cleanUp size i hc =>
    -- the slot that has no handle is the first that does not count
    intro j hj
    have hj' : j < i := hj
    simp only [List.getElem?_set_ne (Nat.ne_of_gt hj')]
    exact hi j (by rw [hc]; exact hj')
  | overrun => exact hi.of_le rfl (Nat.zero_le _)
  | allCreated hc hle | grown hc hle => exact hi.of_le (by simp) (by rw [hc]; simpa [Control.filled] using hle)
  | @setSize f hc =>
    have hle : f.size ≤ a.size := by
      rw [hc] at hin
      exact hin
    exact hi.of_le (by simp) (by rw [hc]; simpa [Control.filled] using hle)
  | finishSignalled hc hw =>
    rw [wake_same hw]
    exact hi.of_le rfl (by rw [hc]; exact Nat.le_refl _)
  | signalled _ hw =>
    rw [wake_same hw]
    exact hi.of_le rfl (Nat.le_refl _)
  | invalid | refused | finishUnaccepted | accepted | block | exit | take | complete | threadFinish | wakeUp =>
    exact hi.of_le rfl (Nat.le_refl _)
  | shrink hc | broadcastShutdown hc => exact hi.of_le rfl (by rw [hc]; exact Nat.le_of_eq (filled_afterShutdown _ _))
  | broadcastDiscard hc => exact hi.of_le rfl (by rw [hc]; exact Nat.le_of_eq (filled_afterDiscard _ _))
  | shrunk hc => exact hi.of_le rfl (by rw [hc]; exact Nat.le_of_eq (filled_afterShrink _ _))
  | destroyBusy hc | destroyed hc | finish hc | refuse hc | grow hc | requestShutdown hc | discard hc | mallocFailed hc
  | finishQueued hc | finishRefused hc | joined hc | allJoined hc | setSizeDestroy hc | finishBusy hc | finished hc =>
    exact hi.of_le (by simp) (by rw [hc]; simp [Control.filled])

theorem filled_run {limit size junk : Nat} {as : List Action} (h : Run step Creates (start limit size junk) as a) :
    a.Filled :=
  h.inv₂ (fun _ _ hr => controlInv_run hr) (filled_start limit size junk)
    fun _ _ _ hctl hi hok hs => filled_step hctl hi hok (step_cases hs)

theorem not_destroyed (h : step a action = some a') : a.destroyed = false := by
  unfold step at h
  split at h
  · cases h
  · simp_all

/-- A pool is destroyed where a call returns. -/
theorem idle_of_destroyed_step (hd : a.destroyed = false) (h : Step a action a') (hd' : a'.destroyed = true) :
    a'.control = .idle := by
  cases h with
  | finishSignalled _ hw | signalled _ hw =>
    rw [wake_same hw] at hd'
    simp [hd] at hd'
  | _ => simp_all

structure FinishInv (a : Pool) : Prop where
  control : ControlInv a
  wake : WakeInv a
  handled : a.Handled
  stopped : ∀ f, a.control.Finishing f → a.Stopped
  destroyed : a.destroyed = true → a.control = .idle

theorem finishInv_start (limit size junk : Nat) : FinishInv (start limit size junk) where
  control := controlInv_start limit size junk
  wake := wakeInv_start limit size junk
  handled := by
    intro i w h
    simp only [start, List.getElem?_replicate] at h
    split at h <;> simp at h
  stopped _ h := absurd rfl h.frame_ne
  destroyed := by simp [start]

theorem finishInv_step (hi : FinishInv a) (hs : step a action = some a') : FinishInv a' where
  control := controlInv_step hi.control (step_cases hs)
  wake := wakeInv_step hi.wake (step_cases hs)
  handled := handled_step hi.handled (step_cases hs)
  stopped _ := stopped_step hi.control hi.stopped (step_cases hs)
  destroyed := idle_of_destroyed_step (not_destroyed hs) (step_cases hs)

theorem finishInv_run {ok : Pool → Action → Prop} {limit size junk : Nat} {as : List Action}
    (h : Run step ok (start limit size junk) as a) : FinishInv a :=
  h.inv (finishInv_start limit size junk) fun _ _ _ hi _ hs => finishInv_step hi hs

/-! ## What is left to do -/

/-- How many steps a worker takes, but for those a task in the queue brings. -/
def Worker.remaining : Worker → Nat
  | .blocked => 2
  | .running _ => 2
  | .awake => 1
  | .exited => 0

/-- How many steps the control thread takes in the rest of `resize`. -/
def Control.remaining (size : Nat) : Control → Nat
  | .broadcastShutdown _ => size + 6
  | .discard _ => size + 5
  | .broadcastDiscard _ => size + 4
  | .join _ i => size - i + 3
  | .setSize _ => 2
  | .destroy _ => 1
  | _ => 0

/-- A worker that takes a task takes two steps more. -/
def Pool.remaining (a : Pool) : Nat :=
  2 * a.queue.length + (a.workers.map Worker.remaining).sum + a.signals + a.control.remaining a.size

/-- Every action but a client's call of `enqueue`. -/
def Action.own : Action → Bool
  | .enqueue _ => false
  | _ => true

theorem remaining_set {ws : List Worker} {w : Nat} {x : Worker} (h : ws[w]? = some x) (y : Worker) :
    ((ws.set w y).map Worker.remaining).sum + x.remaining = (ws.map Worker.remaining).sum + y.remaining := by
  induction ws generalizing w with
  | nil => simp at h
  | cons s ws ih =>
    cases w with
    | zero =>
      obtain rfl : s = x := by simpa using h
      simp only [List.set_cons_zero, List.map_cons, List.sum_cons]
      omega
    | succ w =>
      have := ih (by simpa using h)
      simp only [List.set_cons_succ, List.map_cons, List.sum_cons]
      omega

theorem remaining_wakeAll (ws : List Worker) :
    ((ws.map fun s => if s = .blocked then .awake else s).map Worker.remaining).sum ≤ (ws.map Worker.remaining).sum := by
  induction ws with
  | nil => exact Nat.le_refl _
  | cons s ws ih =>
    simp only [List.map_cons, List.sum_cons]
    refine Nat.add_le_add ?_ ih
    split
    · rename_i h
      rw [h]
      decide
    · exact Nat.le_refl _

theorem remaining_wake {b : Pool} {target : Option Nat} (hw : a.wake target = some b) :
    (b.workers.map Worker.remaining).sum ≤ (a.workers.map Worker.remaining).sum := by
  rcases wake_cases hw with ⟨-, rfl⟩ | ⟨w, hb, rfl⟩
  · exact Nat.le_refl _
  · have := remaining_set hb .awake
    simp only [Worker.remaining, Pool.setWorker] at this ⊢
    omega

theorem remaining_afterShrink_le {f : Frame} (h0 : f.size = 0) (size : Nat) : f.afterShrink.remaining size ≤ size + 3 := by
  unfold Frame.afterShrink
  split
  · simp only [Control.remaining]
    omega
  · simp [Control.remaining, h0]

theorem remaining_afterDiscard_le {f : Frame} (h0 : f.size = 0) (size : Nat) :
    f.afterDiscard.remaining size ≤ size + 3 := by
  rw [Frame.afterDiscard, if_pos h0]
  exact remaining_afterShrink_le h0 size

theorem remaining_afterShutdown_le {f : Frame} (h0 : f.size = 0) (size : Nat) :
    f.afterShutdown.remaining size ≤ size + 5 := by
  unfold Frame.afterShutdown
  split
  · exact Nat.le_refl _
  · exact Nat.le_trans (remaining_afterDiscard_le h0 size) (Nat.add_le_add_left (by decide) size)

/-- What `resize` to 0, called with `f`, returns, or `new` where that called it. -/
def Frame.returns (f : Frame) : Call × Code :=
  if f.cleanup then (.new, .notCreated) else (.resize 0 f.noWait f.discardQueue, .ok)

/-- It has returned, and if it waits for the threads, it has destroyed the pool. -/
def Finished (f : Frame) (a : Pool) : Prop :=
  a.control = .idle ∧ a.returned = some f.returns ∧ (f.noWait = false → a.destroyed = true)

theorem finished_ret {f : Frame} (h0 : f.size = 0) (hd : f.noWait = false → a.destroyed = true) :
    Finished f (f.ret a .ok) := by
  refine ⟨Frame.ret_control f a .ok, ?_, by rwa [Frame.ret_destroyed]⟩
  unfold Frame.ret Frame.returns
  split
  · rfl
  · simp [h0]

/-- The control thread goes on to the next part, with no more workers, tasks or signals. -/
theorem remaining_lt {c : Control} (hq : a'.queue.length ≤ a.queue.length)
    (hw : (a'.workers.map Worker.remaining).sum ≤ (a.workers.map Worker.remaining).sum) (hs : a'.signals = a.signals)
    (hc : a.control = c) (hlt : a'.control.remaining a'.size < c.remaining a.size) : a'.remaining + 1 ≤ a.remaining := by
  simp only [Pool.remaining, hs, hc]
  omega

/-- A worker goes on. -/
theorem remaining_setWorker_lt {w : Nat} {x y : Worker} (hx : a.workers[w]? = some x) (hlt : y.remaining < x.remaining)
    (log : Log) : { a.setWorker w y with log }.remaining + 1 ≤ a.remaining := by
  have := remaining_set hx y
  simp only [Pool.remaining, Pool.setWorker] at this ⊢
  omega

theorem finishing_step {f : Frame} (hi : FinishInv a) (hf : a.control.Finishing f) (h : Step a action a') :
    a'.remaining + (if action.own then 1 else 0) ≤ a.remaining ∧ (a'.control.Finishing f ∨ Finished f a') := by
  obtain ⟨hacc, hsh⟩ := hi.stopped f hf
  have hin := hi.control.inRange
  have h0 := hf.2.1
  cases h with
  | requestShutdown hc => exact absurd hc (hf.2.2 _)
  | broadcastShutdown hc =>
    obtain rfl := hf.frame_eq (by rw [hc]; rfl)
    refine ⟨remaining_lt (Nat.le_refl _) (remaining_wakeAll _) rfl hc ?_,
      .inl ⟨frame_afterShutdown _, h0, afterShutdown_ne _⟩⟩
    exact Nat.lt_succ_of_le (remaining_afterShutdown_le h0 _)
  | discard hc =>
    obtain rfl := hf.frame_eq (by rw [hc]; rfl)
    exact ⟨remaining_lt (Nat.zero_le _) (Nat.le_refl _) rfl hc (Nat.lt_succ_self _), .inl ⟨rfl, h0, by simp⟩⟩
  | broadcastDiscard hc =>
    obtain rfl := hf.frame_eq (by rw [hc]; rfl)
    refine ⟨remaining_lt (Nat.le_refl _) (remaining_wakeAll _) rfl hc ?_, .inl ⟨frame_afterDiscard _, h0, afterDiscard_ne _⟩⟩
    exact Nat.lt_succ_of_le (remaining_afterDiscard_le h0 _)
  | mallocFailed hc | finishQueued hc | finishRefused hc | finishSignalled hc | shrunk hc =>
    -- there is no loop of `sph_thread_finish` tasks in a `resize` to 0
    obtain rfl := hf.frame_eq (by rw [hc]; rfl)
    rw [hc] at hin
    exact absurd h0 hin.1
  | joined hc hlt =>
    obtain rfl := hf.frame_eq (by rw [hc]; rfl)
    refine ⟨remaining_lt (Nat.le_refl _) (Nat.le_refl _) rfl hc ?_, .inl ⟨rfl, h0, by simp⟩⟩
    simp only [Pool.goto, Control.remaining]
    omega
  | allJoined hc =>
    obtain rfl := hf.frame_eq (by rw [hc]; rfl)
    refine ⟨remaining_lt (Nat.le_refl _) (Nat.le_refl _) rfl hc ?_, .inl ⟨rfl, h0, by simp⟩⟩
    simp only [Pool.goto, Control.remaining]
    omega
  | setSize hc hor =>
    obtain rfl := hf.frame_eq (by rw [hc]; rfl)
    refine ⟨remaining_lt (by simp) (by simp) (by simp) hc (by simp [Control.remaining]), .inr (finished_ret h0 ?_)⟩
    intro hwait
    simp [hwait, h0] at hor
  | setSizeDestroy hc =>
    obtain rfl := hf.frame_eq (by rw [hc]; rfl)
    exact ⟨remaining_lt (Nat.le_refl _) (Nat.le_refl _) rfl hc (Nat.lt_succ_self _), .inl ⟨rfl, h0, by simp⟩⟩
  | finishBusy hc hbusy =>
    rw [hc] at hin
    simp [hin.2, hsh] at hbusy
  | finished hc =>
    obtain rfl := hf.frame_eq (by rw [hc]; rfl)
    exact ⟨remaining_lt (by simp) (by simp) (by simp) hc (by simp [Control.remaining]), .inr (finished_ret h0 fun _ => rfl)⟩
  | invalid => exact ⟨Nat.le_refl _, .inl hf⟩
  | refused => exact ⟨Nat.le_refl _, .inl hf⟩
  | finishUnaccepted => exact ⟨Nat.le_refl _, .inl hf⟩
  | accepted _ hyes => simp [hacc] at hyes
  | signalled hs hw =>
    have hsum := remaining_wake hw
    rw [wake_same hw]
    refine ⟨?_, .inl hf⟩
    simp only [Pool.remaining, Action.own, if_true]
    omega
  | block _ _ hno => simp [hsh] at hno
  | exit hw => exact ⟨remaining_setWorker_lt hw (by decide) _, .inl hf⟩
  | @take w t queue hw _ hq =>
    have hsum := remaining_set hw (.running t)
    refine ⟨?_, .inl hf⟩
    simp only [Pool.remaining, Pool.setWorker, Worker.remaining, hq, List.length_cons, Action.own, if_true] at hsum ⊢
    omega
  | complete hw => exact ⟨remaining_setWorker_lt hw (Nat.lt_succ_self _) _, .inl hf⟩
  | threadFinish hw => exact ⟨remaining_setWorker_lt hw (by decide) _, .inl hf⟩
  | wakeUp hw => exact ⟨remaining_setWorker_lt hw (by decide) _, .inl hf⟩
  | refuse hc | grow hc | finish hc | shrink hc | destroyBusy hc | destroyed hc | created hc | grew hc | createFailed hc
  | cleanUp hc | growFailed hc | allCreated hc | grown hc => exact absurd (by rw [hc]; rfl) hf.frame_ne
  | overrun hc =>
    rcases hc with ⟨_, hc⟩ | ⟨_, _, hc⟩ <;> exact absurd (by rw [hc]; rfl) hf.frame_ne

/-- No thread is created any more. -/
theorem finishing_workers_length {f : Frame} (hf : a.control.Finishing f) (h : Step a action a') :
    a'.workers.length = a.workers.length := by
  cases h with
  | created hc | grew hc => exact absurd (by rw [hc]; rfl) hf.frame_ne
  | finishSignalled _ hw | signalled _ hw =>
    have hlen := wake_length hw
    rw [wake_same hw] at hlen ⊢
    exact hlen
  | _ => simp

/-! ## Someone can go on -/

/-- A worker that has not exited and is not blocked can go on. -/
theorem worker_goes_on (hd : a.destroyed = false) {w : Nat} {s : Worker} (hw : a.workers[w]? = some s)
    (hexit : s ≠ .exited) (hblocked : s ≠ .blocked) :
    (step a (.work w)).isSome = true ∨ (step a (.complete w)).isSome = true := by
  unfold step
  rw [hd]
  cases s with
  | exited => exact absurd rfl hexit
  | blocked => exact absurd rfl hblocked
  | running t =>
    right
    cases t <;> simp [Pool.complete, hw]
  | awake =>
    left
    simp only [Bool.false_eq_true, if_false, Pool.work, hw, if_true]
    split
    · rfl
    · rename_i h0
      cases hq : a.queue with
      | nil => simp [Pool.queueSize, hq] at h0
      | cons => rfl

theorem not_joinable (hi : a.Handled) {i : Nat} (hj : a.joinable i = false) :
    ∃ (w : Nat) (s : Worker), a.workers[w]? = some s ∧ s ≠ .exited := by
  unfold Pool.joinable at hj
  split at hj
  · rename_i w hw
    have hlt := hi i w hw
    refine ⟨w, a.workers[w], List.getElem?_eq_getElem hlt, ?_⟩
    simpa [List.getElem?_eq_getElem hlt] using hj
  · cases hj

theorem finishing_goes_on {f : Frame} (hi : FinishInv a) (hf : a.control.Finishing f) :
    (step a .proceed).isSome = true ∨ ∃ w, (step a (.work w)).isSome = true ∨ (step a (.complete w)).isSome = true := by
  have hin := hi.control.inRange
  have hframe := hf.frame_ne
  have hd : a.destroyed = false := by
    cases hd : a.destroyed with
    | false => rfl
    | true =>
      rw [hi.destroyed hd] at hframe
      exact absurd rfl hframe
  cases hc : a.control with
  | join f i =>
    by_cases hlt : i < a.size
    · cases hj : a.joinable i with
      | true =>
        left
        simp [step, hd, Pool.proceed, hc, hlt, hj]
      | false =>
        -- the thread that is waited for has not exited, and is not blocked
        right
        obtain ⟨w, s, hw, hexit⟩ := not_joinable hi.handled hj
        refine ⟨w, worker_goes_on hd hw hexit ?_⟩
        rintro rfl
        obtain ⟨g, hg⟩ := hi.wake.shutdown (hi.stopped _ hf).2 (mem_of_worker hw)
        simp [hc] at hg
    · left
      simp [step, hd, Pool.proceed, hc, hlt]
  | shrink g i | signal g i =>
    obtain rfl := hf.frame_eq (by rw [hc]; rfl)
    rw [hc] at hin
    exact absurd hf.2.1 hin.1
  | setSize g =>
    left
    simp only [step, hd, Pool.proceed, hc, Bool.false_eq_true, if_false]
    split <;> rfl
  | idle | overrun | creating | growing =>
    rw [hc] at hframe
    exact absurd rfl hframe
  | _ =>
    left
    simp [step, hd, Pool.proceed, hc]

theorem remaining_le (a : Pool) : a.remaining ≤ 2 * a.queue.length + 2 * a.workers.length + a.signals + a.size + 6 := by
  have hws : ∀ ws : List Worker, (ws.map Worker.remaining).sum ≤ 2 * ws.length := by
    intro ws
    induction ws with
    | nil => exact Nat.le_refl _
    | cons s ws ih =>
      have hs : s.remaining ≤ 2 := by cases s <;> simp [Worker.remaining]
      simp only [List.map_cons, List.sum_cons, List.length_cons]
      omega
  have hc : a.control.remaining a.size ≤ a.size + 6 := by
    cases a.control <;> simp only [Control.remaining] <;> omega
  have := hws a.workers
  simp only [Pool.remaining]
  omega

/-- `finish` returns, in any order of steps in which it and the workers are not
left out for ever, if every thread that `resize` asked for before was created
and the functions of tasks return. In a run in which it has not returned before
the last step, the steps that are no client's call of `enqueue` are bounded by
the work there was. As long as it has not returned, each slot that it joins has
the handle of a thread, and the control thread or a worker can go on. -/
theorem finish_returns {limit size junk : Nat} {as bs : List Action} {b : Pool} {f : Frame}
    (hr : Run step Creates (start limit size junk) as a) (hf : a.control.Finishing f)
    (h : Run step (fun s _ => s.control.Finishing f) a bs b) :
    bs.countP Action.own ≤ 2 * a.queue.length + 2 * a.workers.length + a.signals + a.size + 6 ∧
      (Finished f b ∨ b.control.Finishing f ∧ (∀ i < b.size, ∃ w < b.workers.length, b.threads[i]? = some (some w)) ∧
        ((step b .proceed).isSome = true ∨
          ∃ w, (step b (.work w)).isSome = true ∨ (step b (.complete w)).isSome = true)) := by
  have hall : FinishInv b ∧ b.Filled ∧ b.remaining + bs.countP Action.own ≤ a.remaining ∧
      (b.control.Finishing f ∨ Finished f b) := by
    induction h with
    | nil => exact ⟨finishInv_run hr, filled_run hr, Nat.le_refl _, .inl hf⟩
    | snoc _ hfin hs ih =>
      obtain ⟨hi, hfilled, hle, -⟩ := ih
      obtain ⟨hlt, hnext⟩ := finishing_step hi hfin (step_cases hs)
      refine ⟨finishInv_step hi hs, filled_step hi.control hfilled ?_ (step_cases hs), ?_, hnext⟩
      · -- no thread is created here
        rintro rfl
        exact absurd (createFailed_frame (step_cases hs)) hfin.frame_ne
      · rw [List.countP_append, List.countP_singleton]
        omega
  obtain ⟨hi, hfilled, hle, hnext⟩ := hall
  have := remaining_le a
  refine ⟨by omega, ?_⟩
  rcases hnext with hfin | hdone
  · refine .inr ⟨hfin, fun i hlt => ?_, finishing_goes_on hi hfin⟩
    obtain ⟨w, hw⟩ := hfilled i (by rwa [hfin.filled_eq])
    exact ⟨w, hi.handled i w hw, hw⟩
  · exact .inl hdone

/-- A pool grown to two workers that `finish` has shut down, with a client that has yet to signal. -/
def stopping : Pool where
  queue := [.user 0]
  accepting := false
  shutdown := true
  size := 2
  threads := [some 0, some 1]
  workers := [.awake, .awake]
  signals := 1
  control := .broadcastShutdown ⟨0, false, false, false⟩
  returned := none
  destroyed := false
  log := ⟨[.user 0], [], [], []⟩

theorem exec_stopping : exec step (start 2 1 0) [.create true, .proceed, .resize 2 false false, .create true, .proceed,
    .enqueue (some (.user 0)), .resize 0 false false, .proceed] = some stopping := by decide

/-- The workers wait no longer and one has taken the task. A task enqueued since was refused. -/
def waited : Pool where
  queue := []
  accepting := false
  shutdown := true
  size := 2
  threads := [some 0, some 1]
  workers := [.awake, .running (.user 0)]
  signals := 1
  control := .join ⟨0, false, false, false⟩ 0
  returned := none
  destroyed := false
  log := ⟨[.user 0], [1], [.user 0], []⟩

theorem run_stopping : Run step (fun s _ => s.control.Finishing ⟨0, false, false, false⟩) stopping
    [.proceed, .work 1, .enqueue (some (.user 1))] waited := by
  have hfin : (Frame.afterShutdown ⟨0, false, false, false⟩).Finishing ⟨0, false, false, false⟩ :=
    ⟨rfl, rfl, fun g => afterShutdown_ne ⟨0, false, false, false⟩ g⟩
  exact .cons ⟨rfl, rfl, by simp [stopping]⟩ rfl (.cons hfin rfl (.single hfin rfl))

theorem finish_returns_grown :
    [Action.proceed, .work 1, .enqueue (some (.user 1))].countP Action.own ≤ 2 * 1 + 2 * 2 + 1 + 2 + 6 ∧
    (Finished ⟨0, false, false, false⟩ waited ∨ waited.control.Finishing ⟨0, false, false, false⟩ ∧
      (∀ i < waited.size, ∃ w < waited.workers.length, waited.threads[i]? = some (some w)) ∧
      ((step waited .proceed).isSome = true ∨
        ∃ w, (step waited (.work w)).isSome = true ∨ (step waited (.complete w)).isSome = true)) :=
  finish_returns (run_of_exec_of (by simp [Creates]) exec_stopping) ⟨rfl, rfl, by simp [stopping]⟩ run_stopping

end SphSc.ThreadPool

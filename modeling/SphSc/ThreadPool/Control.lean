import SphSc.ThreadPool.Steps
/-!
# The control thread

What holds of the control thread's loop counters and of the frame it is in,
and what it has returned, in every run of a pool.
-/
open Runs

namespace SphSc.ThreadPool

variable {a a' : Pool} {action : Action}

/-- The loop counters are in range, and each part of `resize` is reached with
the sizes its guards leave. -/
def Control.InRange (size : Nat) : Control → Prop
  | .creating n i => i ≤ n
  | .growing f i _ => i ≤ f.size
  | .requestShutdown f => f.size = 0
  | .broadcastShutdown f => f.size = 0
  | .discard f => f.size ≤ size
  | .broadcastDiscard f => f.size ≤ size
  | .shrink f i => f.size ≠ 0 ∧ f.size ≤ i ∧ i ≤ size
  | .signal f i => f.size ≠ 0 ∧ f.size ≤ i ∧ i < size
  | .join f i => f.size ≤ i ∧ i ≤ size
  | .setSize f => f.size ≤ size
  | .destroy f => f.size = 0 ∧ size = 0
  | .idle => True
  | .overrun => True

/-- The frame of a `resize` that does not grow the pool. -/
def Control.frame : Control → Option Frame
  | .requestShutdown f => some f
  | .broadcastShutdown f => some f
  | .discard f => some f
  | .broadcastDiscard f => some f
  | .shrink f _ => some f
  | .signal f _ => some f
  | .join f _ => some f
  | .setSize f => some f
  | .destroy f => some f
  | _ => none

@[simp] theorem frame_afterShrink (f : Frame) : f.afterShrink.frame = some f := by
  unfold Frame.afterShrink; split <;> rfl

@[simp] theorem frame_afterDiscard (f : Frame) : f.afterDiscard.frame = some f := by
  unfold Frame.afterDiscard
  split
  · exact frame_afterShrink f
  · rfl

@[simp] theorem frame_afterShutdown (f : Frame) : f.afterShutdown.frame = some f := by
  unfold Frame.afterShutdown
  split
  · rfl
  · exact frame_afterDiscard f

structure ControlInv (a : Pool) : Prop where
  inRange : a.control.InRange a.size
  /-- A control call has returned only where the next has not begun. -/
  idle : ∀ r, a.returned = some r → a.control = .idle
  sized : ∀ noWait discardQueue code, a.returned = some (.resize 0 noWait discardQueue, code) → a.size = 0

theorem inRange_afterShrink {f : Frame} {size : Nat} (h : f.size ≤ size) : f.afterShrink.InRange size := by
  unfold Frame.afterShrink
  split
  · exact h
  · exact ⟨Nat.le_refl _, h⟩

theorem inRange_afterDiscard {f : Frame} {size : Nat} (h : f.size ≤ size) : f.afterDiscard.InRange size := by
  unfold Frame.afterDiscard
  split
  · exact inRange_afterShrink h
  · rename_i h0
    exact ⟨h0, Nat.le_refl _, h⟩

theorem inRange_afterShutdown {f : Frame} {size : Nat} (h : f.size ≤ size) : f.afterShutdown.InRange size := by
  unfold Frame.afterShutdown
  split
  · exact h
  · exact inRange_afterDiscard h

/-- What a frame returns. -/
theorem Frame.returned_eq {f : Frame} {code code' : Code} {n d : Bool}
    (h : (f.ret a code).returned = some (.resize 0 n d, code')) : f.size = 0 ∧ f.noWait = n := by
  unfold Frame.ret at h
  split at h
  · simp at h
  · simp_all

theorem ControlInv.of_idle (hc : a.control = .idle)
    (hs : ∀ n d c, a.returned = some (.resize 0 n d, c) → a.size = 0) : ControlInv a :=
  ⟨by rw [hc]; trivial, fun _ _ => hc, hs⟩

/-- The control thread goes on in a call. -/
theorem ControlInv.of_goto (hi : ControlInv a) (hc : a.control ≠ .idle) (hr : a'.returned = a.returned)
    (hin : a'.control.InRange a'.size) : ControlInv a' := by
  have hnone : a'.returned = none := by
    rw [hr]
    cases hret : a.returned with
    | none => rfl
    | some r => exact absurd (hi.idle r hret) hc
  exact ⟨hin, by simp [hnone], by simp [hnone]⟩

theorem controlInv_start (limit size junk : Nat) : ControlInv (start limit size junk) :=
  ⟨Nat.zero_le _, by simp [start], by simp [start]⟩

theorem controlInv_step (hi : ControlInv a) (h : Step a action a') : ControlInv a' := by
  have hin := hi.inRange
  cases h with
  | @refuse size _ _ hc hl =>
    apply ControlInv.of_idle rfl
    intro n d c h
    obtain rfl : size = 0 := by simp_all
    exact absurd hl (Nat.not_lt_zero _)
  | grow hc hl hs => exact ⟨Nat.le_of_lt hs, by simp, by simp⟩
  | finish hc => exact ⟨rfl, by simp, by simp⟩
  | shrink hc hl hs h0 => exact ⟨inRange_afterShutdown hs, by simp, by simp⟩
  | destroyBusy hc => exact .of_idle rfl (by simp)
  | destroyed hc => exact .of_idle rfl (by simp)
  | created hc hlt => exact hi.of_goto (by simp [hc]) rfl hlt
  | grew hc hlt => exact hi.of_goto (by simp [hc]) rfl hlt
  | overrun hc =>
    refine hi.of_goto ?_ rfl trivial
    rcases hc with ⟨_, hc⟩ | ⟨_, _, hc⟩ <;> simp [hc]
  | createFailed hc => exact .of_idle rfl (by simp)
  | cleanUp hc => exact hi.of_goto (by simp [hc]) rfl rfl
  | growFailed hc hlt => exact hi.of_goto (by simp [hc]) rfl (Nat.le_refl _)
  | allCreated hc => exact .of_idle rfl (by simp)
  | grown hc => exact .of_idle (by simp) fun n d c h => by simpa using (Frame.returned_eq h).1
  | requestShutdown hc =>
    rw [hc] at hin
    exact hi.of_goto (by simp [hc]) rfl hin
  | @broadcastShutdown f hc =>
    rw [hc] at hin
    have hsize : f.size = 0 := hin
    exact hi.of_goto (by simp [hc]) rfl (inRange_afterShutdown (by omega))
  | discard hc =>
    rw [hc] at hin
    exact hi.of_goto (by simp [hc]) rfl hin
  | broadcastDiscard hc =>
    rw [hc] at hin
    exact hi.of_goto (by simp [hc]) rfl (inRange_afterDiscard hin)
  | mallocFailed hc =>
    rw [hc] at hin
    exact .of_idle (by simp) fun n d c h => absurd (Frame.returned_eq h).1 hin.1
  | finishQueued hc hlt =>
    rw [hc] at hin
    exact hi.of_goto (by simp [hc]) rfl ⟨hin.1, hin.2.1, hlt⟩
  | finishRefused hc =>
    rw [hc] at hin
    exact .of_idle (by simp) fun n d c h => absurd (Frame.returned_eq h).1 hin.1
  | finishSignalled hc hw =>
    rw [hc] at hin
    have hsame := wake_same hw
    refine hi.of_goto (by simp [hc]) (by rw [hsame]; rfl) ?_
    rw [hsame]
    exact ⟨hin.1, Nat.le_succ_of_le hin.2.1, hin.2.2⟩
  | shrunk hc =>
    rw [hc] at hin
    exact hi.of_goto (by simp [hc]) rfl (inRange_afterShrink (Nat.le_trans hin.2.1 hin.2.2))
  | joined hc hlt =>
    rw [hc] at hin
    exact hi.of_goto (by simp [hc]) rfl ⟨Nat.le_succ_of_le hin.1, hlt⟩
  | allJoined hc =>
    rw [hc] at hin
    exact hi.of_goto (by simp [hc]) rfl (Nat.le_trans hin.1 hin.2)
  | setSize hc => exact .of_idle (by simp) fun n d c h => by simpa using (Frame.returned_eq h).1
  | setSizeDestroy hc _ h0 => exact hi.of_goto (by simp [hc]) rfl ⟨h0, rfl⟩
  | finishBusy hc =>
    rw [hc] at hin
    exact .of_idle (by simp) fun n d c _ => by simpa using hin.2
  | finished hc h0 => exact .of_idle (by simp) fun n d c _ => by simpa using h0
  | signalled hs hw =>
    have hsame := wake_same hw
    rw [hsame]
    exact ⟨hin, hi.idle, hi.sized⟩
  | _ => exact ⟨hin, hi.idle, hi.sized⟩

theorem controlInv_run {ok : Pool → Action → Prop} {limit size junk : Nat} {as : List Action}
    (h : Run step ok (start limit size junk) as a) : ControlInv a :=
  h.inv (controlInv_start limit size junk) fun _ _ _ hi _ hs => controlInv_step hi (step_cases hs)

end SphSc.ThreadPool

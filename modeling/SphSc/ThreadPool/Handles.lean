import SphSc.ThreadPool.Steps
/-!
# Thread handles

`resize` turns down sizes above the thread limit, `new` does not. The handles
stay in the array `threads` exactly if the sizes `new` is called with do.
-/
open Runs

namespace SphSc.ThreadPool

/-- `sph_thread_pool_new` on memory that has been a pool. -/
def Pool.renew (a : Pool) (size : Nat) : Pool where
  queue := []
  accepting := true
  shutdown := false
  size := a.size
  threads := a.threads
  workers := a.workers
  signals := a.signals
  control := .creating size 0
  returned := none
  destroyed := false
  log := a.log

/-- Pools after any calls, with any outcomes and whatever the threads do
meanwhile, where the sizes `new` is called with are at most `n`. -/
inductive Called (limit n : Nat) : Pool → Prop
  | new {size junk} : size ≤ n → Called limit n (start limit size junk)
  | renew {a size} : Called limit n a → a.control = .idle → size ≤ n → Called limit n (a.renew size)
  | step {a action a'} : Called limit n a → step a action = some a' → Called limit n a'

/-- The loops that store handles end at the limit or before. -/
def Control.Within (limit : Nat) : Control → Prop
  | .creating size _ => size ≤ limit
  | .growing f _ _ => f.size ≤ limit
  | .overrun => False
  | _ => True

section
variable {a a' : Pool} {action : Action}

theorem within_idle {limit : Nat} {c : Control} (h : c = .idle) : c.Within limit := by
  rw [h]
  trivial

theorem within_afterShrink (limit : Nat) (f : Frame) : f.afterShrink.Within limit := by
  unfold Frame.afterShrink
  split <;> trivial

theorem within_afterDiscard (limit : Nat) (f : Frame) : f.afterDiscard.Within limit := by
  unfold Frame.afterDiscard
  split
  · exact within_afterShrink limit f
  · trivial

theorem within_afterShutdown (limit : Nat) (f : Frame) : f.afterShutdown.Within limit := by
  unfold Frame.afterShutdown
  split
  · trivial
  · exact within_afterDiscard limit f

theorem Step.limit_eq (h : Step a action a') : a'.limit = a.limit := by
  cases h with
  | finishSignalled _ hw =>
    rw [wake_same hw]
    rfl
  | signalled _ hw =>
    rw [wake_same hw]
    rfl
  | _ => simp [Pool.limit]

/-- A loop that ends at the limit does not get past it. -/
theorem create_within {success : Bool} (hw : a.control.Within a.limit) (h : a.create success = some a') :
    a'.control.Within a.limit := by
  unfold Pool.create at h
  split at h
  · rename_i size i hc
    have hsize : size ≤ a.limit := by
      rw [hc] at hw
      exact hw
    split at h
    · cases h
    · rename_i hi
      have hlt : i < a.limit := by omega
      cases success with
      | true =>
        simp only [if_true, hlt] at h
        cases h
        exact hsize
      | false =>
        simp only [Bool.false_eq_true, if_false] at h
        split at h <;> cases h <;> trivial
  · rename_i f i code hc
    have hsize : f.size ≤ a.limit := by
      rw [hc] at hw
      exact hw
    split at h
    · cases h
    · rename_i hi
      have hlt : i < a.limit := by omega
      cases success with
      | true =>
        simp only [if_true, hlt] at h
        cases h
        exact hsize
      | false =>
        cases h
        exact hsize
  · cases h

theorem within_step (hw : a.control.Within a.limit) (h : step a action = some a') : a'.control.Within a.limit := by
  cases step_cases h with
  | created | grew | overrun | createFailed | cleanUp | growFailed =>
    unfold step at h
    split at h
    · cases h
    · exact create_within hw h
  | grow _ hl => exact hl
  | shrink => exact within_afterShutdown _ _
  | broadcastShutdown => exact within_afterShutdown _ _
  | broadcastDiscard => exact within_afterDiscard _ _
  | shrunk => exact within_afterShrink _ _
  | grown | mallocFailed | finishRefused | setSize | finishBusy | finished => exact within_idle (by simp)
  | finishSignalled => trivial
  | signalled _ hwake =>
    rw [wake_same hwake]
    exact hw
  | refused | accepted | block | exit | take | complete | threadFinish | wakeUp => exact hw
  | invalid | finishUnaccepted => exact hw
  | _ => trivial

end

/-- Where the sizes for `new` are within the limit, so are the loops. -/
theorem Called.within {limit n : Nat} {a : Pool} (hn : n ≤ limit) (h : Called limit n a) :
    a.limit = limit ∧ a.control.Within limit := by
  induction h with
  | new hsize => exact ⟨List.length_replicate, Nat.le_trans hsize hn⟩
  | renew _ _ hsize ih => exact ⟨ih.1, Nat.le_trans hsize hn⟩
  | @step a action a' _ hstep ih =>
    obtain ⟨rfl, hw⟩ := ih
    exact ⟨(step_cases hstep).limit_eq, within_step hw hstep⟩

/-- `new` stores handles as long as threads can be created. -/
theorem called_creating {limit n size k : Nat} (hsize : size ≤ n) (hlimit : limit < size) (hk : k ≤ limit) :
    ∃ a, Called limit n a ∧ a.control = .creating size k ∧ a.destroyed = false ∧ a.limit = limit := by
  induction k with
  | zero => exact ⟨start limit size 0, .new hsize, rfl, rfl, List.length_replicate⟩
  | succ k ih =>
    obtain ⟨a, ha, hc, hd, hl⟩ := ih (by omega)
    have hgo : ¬ size ≤ k := by omega
    have hlt : k < a.limit := by omega
    have hcreate : a.create true = some ((a.spawn k).goto (.creating size (k + 1))) := by
      unfold Pool.create
      rw [hc]
      simp only [hgo, if_false, hlt, if_true]
    have hstep : step a (.create true) = some ((a.spawn k).goto (.creating size (k + 1))) := by
      unfold step
      rw [hd]
      exact hcreate
    refine ⟨_, .step ha hstep, rfl, hd, ?_⟩
    rw [(step_cases hstep).limit_eq, hl]

theorem called_overrun {limit n : Nat} (hlimit : limit < n) : ∃ a, Called limit n a ∧ a.control = .overrun := by
  obtain ⟨a, ha, hc, hd, hl⟩ := called_creating (Nat.le_refl n) hlimit (Nat.le_refl limit)
  have hgo : ¬ n ≤ limit := by omega
  have hcreate : a.create true = some (a.goto .overrun) := by
    unfold Pool.create
    rw [hc, hl]
    simp only [hgo, if_false, Nat.lt_irrefl, if_true]
  have hstep : step a (.create true) = some (a.goto .overrun) := by
    unfold step
    rw [hd]
    exact hcreate
  exact ⟨_, .step ha hstep, rfl⟩

/-- `resize` leaves a pool as it is when it is asked for more than the limit. -/
theorem resize_refused {a : Pool} {size : Nat} (noWait discardQueue : Bool) (hc : a.control = .idle)
    (hd : a.destroyed = false) (hsize : a.limit < size) :
    step a (.resize size noWait discardQueue) =
      some { a with returned := some (.resize size noWait discardQueue, .einval) } := by
  have hgo : ¬ a.destroyed = true := by simp [hd]
  unfold step
  rw [if_neg hgo]
  simp only [hc, if_true, Pool.beginResize, hsize]
  rfl

/-- No handle has been stored past the end of the array, and a size above the
limit is turned down with nothing changed. -/
def Pool.Inside (limit : Nat) (a : Pool) : Prop :=
  a.control ≠ .overrun ∧ ∀ size noWait discardQueue, a.control = .idle → a.destroyed = false → limit < size →
    step a (.resize size noWait discardQueue) =
      some { a with returned := some (.resize size noWait discardQueue, .einval) }

/-- The handles stay inside the array in all sequences of calls exactly if no
size that `new` may be called with is above the limit. -/
theorem handles_inside (limit n : Nat) : (∀ a, Called limit n a → a.Inside limit) ↔ n ≤ limit := by
  constructor
  · intro h
    by_contra hlimit
    obtain ⟨a, ha, hoverrun⟩ := called_overrun (Nat.lt_of_not_le hlimit)
    exact (h a ha).1 hoverrun
  · intro hn a ha
    obtain ⟨hl, hw⟩ := ha.within hn
    refine ⟨?_, ?_⟩
    · intro hoverrun
      rw [hoverrun] at hw
      exact hw
    · intro size noWait discardQueue hc hd hsize
      exact resize_refused noWait discardQueue hc hd (by omega)

/-- With the default limit of 128, the default size type `uint8_t` has sizes that are too large. -/
theorem handles_overrun : ¬ ∀ a, Called 128 255 a → a.Inside 128 := by
  intro h
  obtain ⟨a, ha, hoverrun⟩ := called_overrun (show 128 < 255 by decide)
  exact (h a ha).1 hoverrun

end SphSc.ThreadPool

import SphSc.ThreadPool.Control
/-!
# Which workers are joined

`size` is both how many slots of `threads` are in use and how many threads a
waiting `resize` joins. As long as every worker that has not exited has its
handle in a slot in use, a waiting `finish` joins them all. A call that lowers
`size` without waiting ends that.
-/
open Runs

namespace SphSc.ThreadPool

variable {a a' : Pool} {action : Action}

/-- How many slots of `threads` are in use. -/
def Pool.held (a : Pool) : Nat :=
  match a.control with
  | .creating _ i => i
  | .growing _ i _ => i
  | .overrun => a.limit
  | _ => a.size

/-- The slot up to which the handles from `f.size` on have been joined. -/
def Control.joinedTo (size : Nat) : Control → Nat
  | .join _ i => i
  | .setSize _ => size
  | _ => 0

/-- Workers that have not exited have their handle in a slot in use. -/
def Kept (a : Pool) : Prop :=
  ∀ w s, a.workers[w]? = some s → s ≠ .exited → ∃ i < a.held, a.threads[i]? = some (some w)

/-- The handles in the slots from `lo` to `hi` are of workers that have exited. -/
def Joined (a : Pool) (lo hi : Nat) : Prop :=
  ∀ i w, lo ≤ i → i < hi → a.threads[i]? = some (some w) → a.workers[w]? = some .exited

structure JoinInv (a : Pool) : Prop where
  kept : Kept a
  waits : ∀ f, a.control.frame = some f → f.noWait = true → a.size ≤ f.size
  joined : ∀ f, a.control.frame = some f → f.noWait = false → Joined a f.size (a.control.joinedTo a.size)

/-- The control thread makes `size` smaller and does not wait: a call with
`no_wait`, by the caller or in `sph_thread_pool_new` after a thread was not created. -/
def LowersUnwaited (a : Pool) : Action → Prop
  | .resize size noWait _ => noWait = true ∧ size < a.size
  | .create success => success = false ∧ ∃ size i, a.control = .creating size i ∧ 0 < i
  | _ => False

/-- Where a waiting `resize` goes next, nothing has been joined. -/
theorem joinedTo_afterShrink {f : Frame} (hf : f.noWait = false) (size : Nat) : f.afterShrink.joinedTo size ≤ f.size := by
  simp [Frame.afterShrink, hf, Control.joinedTo]

theorem joinedTo_afterDiscard {f : Frame} (hf : f.noWait = false) (size : Nat) :
    f.afterDiscard.joinedTo size ≤ f.size := by
  unfold Frame.afterDiscard
  split
  · exact joinedTo_afterShrink hf size
  · exact Nat.zero_le _

theorem joinedTo_afterShutdown {f : Frame} (hf : f.noWait = false) (size : Nat) :
    f.afterShutdown.joinedTo size ≤ f.size := by
  unfold Frame.afterShutdown
  split
  · exact Nat.zero_le _
  · exact joinedTo_afterDiscard hf size

theorem joined_of_le {lo hi : Nat} (h : hi ≤ lo) : Joined a lo hi := fun _ _ _ _ => by omega

/-- Without a frame only the handles matter. -/
theorem JoinInv.of_no_frame (hk : Kept a) (hc : a.control.frame = none) : JoinInv a :=
  ⟨hk, by simp [hc], by simp [hc]⟩

theorem held_of_frame {f : Frame} (hc : a.control.frame = some f) : a.held = a.size := by
  unfold Pool.held
  split <;> simp_all [Control.frame]

/-! ## Steps of workers and clients -/

/-- A worker that had not exited goes on or exits. -/
theorem JoinInv.of_set (hi : JoinInv a) {w : Nat} {x : Worker} (hx : a.workers[w]? = some x) (hne : x ≠ .exited)
    (y : Worker) {queue : List Task} {log : Log} : JoinInv { a.setWorker w y with queue, log } where
  kept := by
    intro w' s hs hne'
    simp only [Pool.setWorker, List.getElem?_set] at hs
    split at hs
    · rename_i hww
      subst hww
      exact hi.kept _ _ hx hne
    · exact hi.kept _ _ hs hne'
  waits := hi.waits
  joined f hf hwait := by
    intro i w' hlo hhi ht
    have hex := hi.joined f hf hwait i w' hlo hhi ht
    have hww : w ≠ w' := by
      rintro rfl
      simp_all
    simp only [Pool.setWorker, List.getElem?_set, if_neg hww]
    exact hex

theorem wakeAll_getElem? (w : Nat) : a.wakeAll.workers[w]? =
    a.workers[w]?.map fun s => if s = .blocked then .awake else s := by
  simp

/-- Waking every worker moves the control thread to the next part of `resize`. -/
theorem JoinInv.of_wakeAll (hi : JoinInv a) {f : Frame} {c : Control} (hf : a.control.frame = some f)
    (hc : c.frame = some f) (hto : f.noWait = false → c.joinedTo a.size ≤ f.size) : JoinInv (a.wakeAll.goto c) where
  kept := by
    intro w s hs hne
    have hheld : (a.wakeAll.goto c).held = a.held := (held_of_frame hc).trans (held_of_frame hf).symm
    rw [hheld]
    simp only [Pool.goto, wakeAll_getElem?, Option.map_eq_some_iff] at hs
    obtain ⟨s', hs', rfl⟩ := hs
    exact hi.kept w s' hs' fun h => hne (by simp [h])
  waits g hg hw := by
    obtain rfl : f = g := Option.some.inj (hc.symm.trans hg)
    exact hi.waits f hf hw
  joined g hg hw := by
    obtain rfl : f = g := Option.some.inj (hc.symm.trans hg)
    exact joined_of_le (hto hw)

/-- The control thread goes on in a `resize` that does not grow the pool. -/
theorem JoinInv.of_frame (hi : JoinInv a) {f : Frame} (hf : a.control.frame = some f) (hc : a'.control.frame = some f)
    (hw : a'.workers = a.workers) (ht : a'.threads = a.threads) (hs : a'.size = a.size)
    (hto : f.noWait = false → Joined a f.size (a'.control.joinedTo a.size)) : JoinInv a' where
  kept := by
    intro w s hs' hne
    rw [hw] at hs'
    rw [ht, held_of_frame hc, hs, ← held_of_frame hf]
    exact hi.kept w s hs' hne
  waits g hg hwait := by
    obtain rfl : f = g := Option.some.inj (hc.symm.trans hg)
    rw [hs]
    exact hi.waits f hf hwait
  joined g hg hwait := by
    obtain rfl : f = g := Option.some.inj (hc.symm.trans hg)
    intro i w hlo hhi hti
    rw [hs] at hhi
    rw [ht] at hti
    rw [hw]
    exact hto hwait i w hlo hhi hti

/-- A call returns with at least the slots in use that were. -/
theorem Kept.mono (hk : Kept a) (hw : a'.workers = a.workers) (ht : a'.threads = a.threads) (hh : a.held ≤ a'.held) :
    Kept a' := by
  intro w s hs hne
  rw [hw] at hs
  obtain ⟨i, hi, hti⟩ := hk w s hs hne
  exact ⟨i, Nat.lt_of_lt_of_le hi hh, ht ▸ hti⟩

theorem JoinInv.of_same (hi : JoinInv a) (hw : a'.workers = a.workers) (ht : a'.threads = a.threads)
    (hs : a'.size = a.size) (hc : a'.control = a.control) : JoinInv a' := by
  have hheld : a'.held = a.held := by simp only [Pool.held, Pool.limit, hc, hs, ht]
  refine ⟨hi.kept.mono hw ht (Nat.le_of_eq hheld.symm), ?_, ?_⟩
  · rw [hc, hs]
    exact hi.waits
  · intro f hf hwait i w hlo hhi hti
    rw [hc] at hf hhi
    rw [hs] at hhi
    rw [ht] at hti
    rw [hw]
    exact hi.joined f hf hwait i w hlo hhi hti

theorem JoinInv.of_wake {b : Pool} {target : Option Nat} (hi : JoinInv a) (hw : a.wake target = some b) : JoinInv b := by
  rcases wake_cases hw with ⟨-, rfl⟩ | ⟨w, hb, rfl⟩
  · exact hi
  · exact hi.of_set hb (by simp) .awake

/-! ## Steps of the control thread -/

/-- A new worker's handle goes into the next slot. -/
theorem Kept.spawn (hk : Kept a) {c : Control} (hl : a.held < a.limit)
    (hc : ((a.spawn a.held).goto c).held = a.held + 1) : Kept ((a.spawn a.held).goto c) := by
  intro w s hs hne
  rw [hc]
  simp only [Pool.goto, Pool.spawn] at hs ⊢
  rcases Nat.lt_or_ge w a.workers.length with hw | hw
  · rw [List.getElem?_append_left hw] at hs
    obtain ⟨i, hi, hti⟩ := hk w s hs hne
    exact ⟨i, by omega, by rw [List.getElem?_set_ne (by omega)]; exact hti⟩
  · have hlen := (List.getElem?_eq_some_iff.1 hs).1
    simp only [List.length_append, List.length_singleton] at hlen
    obtain rfl : w = a.workers.length := by omega
    exact ⟨a.held, by omega, by rw [List.getElem?_set_self hl]⟩

/-- A thread that was not created leaves the slots in use alone. -/
theorem Kept.not_created (hk : Kept a) (hw : a'.workers = a.workers) (ht : a'.threads = a.threads.set a.held none)
    (hh : a.held ≤ a'.held) : Kept a' := by
  intro w s hs hne
  rw [hw] at hs
  obtain ⟨i, hi, hti⟩ := hk w s hs hne
  exact ⟨i, Nat.lt_of_lt_of_le hi hh, by rw [ht, List.getElem?_set_ne (by omega)]; exact hti⟩

theorem Kept.overrun (hk : Kept a) : Kept (a.goto .overrun) := by
  intro w s hs hne
  obtain ⟨i, -, hti⟩ := hk w s hs hne
  exact ⟨i, (List.getElem?_eq_some_iff.1 hti).1, hti⟩

/-- Lowering `size` after joining, or not lowering it, leaves no worker out. -/
theorem Kept.setSize (hi : JoinInv a) {f : Frame} (hc : a.control = .setSize f) (hw : a'.workers = a.workers)
    (ht : a'.threads = a.threads) (hh : a'.held = f.size) : Kept a' := by
  have hframe : a.control.frame = some f := by rw [hc]; rfl
  intro w s hs hne
  rw [hw] at hs
  obtain ⟨i, hlt, hti⟩ := hi.kept w s hs hne
  rw [held_of_frame hframe] at hlt
  refine ⟨i, ?_, ht ▸ hti⟩
  rw [hh]
  cases hwait : f.noWait with
  | true => exact Nat.lt_of_lt_of_le hlt (hi.waits f hframe hwait)
  | false =>
    by_contra hge
    have hex := hi.joined f hframe hwait i w (by omega) (by rw [hc]; exact hlt) hti
    rw [hs] at hex
    exact hne (Option.some.inj hex)

theorem joinInv_start (limit size junk : Nat) : JoinInv (start limit size junk) :=
  .of_no_frame (by intro w s hs; simp [start] at hs) rfl

theorem joinInv_step (hctl : ControlInv a) (hi : JoinInv a) (hok : ¬ LowersUnwaited a action) (h : Step a action a') :
    JoinInv a' := by
  have hin := hctl.inRange
  cases h with
  | refuse hc => exact .of_no_frame (hi.kept.mono rfl rfl (by simp [Pool.held, hc])) rfl
  | grow hc => exact .of_no_frame (hi.kept.mono rfl rfl (by simp [Pool.held, hc])) rfl
  | @finish noWait discardQueue hc =>
    refine ⟨hi.kept.mono rfl rfl (by simp [Pool.held, hc]), ?_, ?_⟩
    · rintro f ⟨⟩ hwait
      exact Nat.le_of_not_lt fun hlt => hok ⟨hwait, hlt⟩
    · rintro f ⟨⟩ -
      exact joined_of_le (Nat.zero_le _)
  | @shrink size noWait discardQueue hc hl hle h0 =>
    refine ⟨hi.kept.mono rfl rfl ?_, ?_, ?_⟩
    · refine Nat.le_of_eq (Eq.trans ?_ (held_of_frame (frame_afterShutdown _)).symm)
      rw [Pool.held, hc]
    · intro f hf hwait
      obtain rfl : _ = f := Option.some.inj ((frame_afterShutdown _).symm.trans hf)
      exact Nat.le_of_not_lt fun hlt => hok ⟨hwait, hlt⟩
    · intro f hf hwait
      obtain rfl : _ = f := Option.some.inj ((frame_afterShutdown _).symm.trans hf)
      exact joined_of_le (joinedTo_afterShutdown hwait _)
  | destroyBusy hc => exact .of_no_frame (hi.kept.mono rfl rfl (by simp [Pool.held, hc])) rfl
  | destroyed hc => exact .of_no_frame (hi.kept.mono rfl rfl (by simp [Pool.held, hc])) rfl
  | @created size i hc hlt hl =>
    obtain rfl : a.held = i := by rw [Pool.held, hc]
    exact .of_no_frame (hi.kept.spawn hl rfl) rfl
  | @grew f i code hc hlt hl =>
    obtain rfl : a.held = i := by rw [Pool.held, hc]
    exact .of_no_frame (hi.kept.spawn hl rfl) rfl
  | overrun hc => exact .of_no_frame hi.kept.overrun rfl
  | createFailed hc => exact .of_no_frame (hi.kept.not_created rfl (by simp [Pool.held, hc]) (by simp [Pool.held, hc])) rfl
  | @cleanUp size i hc hlt h0 => exact absurd ⟨rfl, size, i, hc, h0⟩ hok
  | growFailed hc hlt =>
    exact .of_no_frame (hi.kept.not_created rfl (by simp [Pool.held, hc]) (by simpa [Pool.held, hc] using Nat.le_of_lt hlt))
      rfl
  | allCreated hc hle =>
    rw [hc] at hin
    exact .of_no_frame (hi.kept.mono rfl rfl (by rw [Pool.held, hc]; exact hin)) rfl
  | grown hc hle =>
    rw [hc] at hin
    exact .of_no_frame (hi.kept.mono (by simp) (by simp)
      (by simp only [Pool.held, hc, Frame.ret_control, Frame.ret_size]; exact hin))
      (by simp [Control.frame])
  | requestShutdown hc =>
    exact hi.of_frame (by rw [hc]; rfl) rfl rfl rfl rfl fun _ => joined_of_le (Nat.zero_le _)
  | broadcastShutdown hc =>
    exact hi.of_wakeAll (by rw [hc]; rfl) (frame_afterShutdown _) fun hw => joinedTo_afterShutdown hw _
  | discard hc => exact hi.of_frame (by rw [hc]; rfl) rfl rfl rfl rfl fun _ => joined_of_le (Nat.zero_le _)
  | broadcastDiscard hc =>
    exact hi.of_wakeAll (by rw [hc]; rfl) (frame_afterDiscard _) fun hw => joinedTo_afterDiscard hw _
  | mallocFailed hc =>
    exact .of_no_frame (hi.kept.mono (by simp) (by simp) (by simp [Pool.held, hc])) (by simp [Control.frame])
  | finishQueued hc => exact hi.of_frame (by rw [hc]; rfl) rfl rfl rfl rfl fun _ => joined_of_le (Nat.zero_le _)
  | finishRefused hc =>
    exact .of_no_frame (hi.kept.mono (by simp) (by simp) (by simp [Pool.held, hc])) (by simp [Control.frame])
  | @finishSignalled b f i _ hc hw =>
    have hsame := wake_same hw
    have hcb : b.control = .signal f i := by rw [hsame]; exact hc
    exact (hi.of_wake hw).of_frame (by rw [hcb]; rfl) rfl rfl rfl rfl fun _ => joined_of_le (Nat.zero_le _)
  | shrunk hc =>
    exact hi.of_frame (by rw [hc]; rfl) (frame_afterShrink _) rfl rfl rfl
      fun hw => joined_of_le (joinedTo_afterShrink hw _)
  | @joined f i hc hlt hj =>
    refine hi.of_frame (by rw [hc]; rfl) rfl rfl rfl rfl ?_
    intro hwait j w hlo hhi hti
    rcases Nat.lt_succ_iff_lt_or_eq.1 hhi with hji | rfl
    · exact hi.joined f (by rw [hc]; rfl) hwait j w hlo (by rw [hc]; exact hji) hti
    · simpa [Pool.joinable, hti] using hj
  | @allJoined f i hc hle =>
    refine hi.of_frame (by rw [hc]; rfl) rfl rfl rfl rfl ?_
    intro hwait j w hlo hhi hti
    exact hi.joined f (by rw [hc]; rfl) hwait j w hlo (by rw [hc]; exact Nat.lt_of_lt_of_le hhi hle) hti
  | setSize hc =>
    exact .of_no_frame (.setSize hi hc (by simp) (by simp) (by simp [Pool.held])) (by simp [Control.frame])
  | setSizeDestroy hc hw h0 =>
    refine ⟨.setSize hi hc rfl rfl (by simp [Pool.held, h0]), ?_, ?_⟩
    · rintro f ⟨⟩ hwait
      simp [hw] at hwait
    · rintro f ⟨⟩ -
      exact joined_of_le (Nat.zero_le _)
  | finishBusy hc =>
    exact .of_no_frame (hi.kept.mono (by simp) (by simp) (by simp [Pool.held, hc])) (by simp [Control.frame])
  | finished hc =>
    exact .of_no_frame (hi.kept.mono (by simp) (by simp) (by simp [Pool.held, hc])) (by simp [Control.frame])
  | signalled hs hw => exact (hi.of_wake hw).of_same rfl rfl rfl rfl
  | block hw => exact hi.of_set hw (by simp) _
  | exit hw => exact hi.of_set hw (by simp) _
  | take hw => exact hi.of_set hw (by simp) _
  | complete hw => exact hi.of_set hw (by simp) _
  | threadFinish hw => exact hi.of_set hw (by simp) _
  | wakeUp hw => exact hi.of_set hw (by simp) _
  | _ => exact hi.of_same rfl rfl rfl rfl

theorem joinInv_run {limit size junk : Nat} {as : List Action}
    (h : Run step (fun a action => ¬ LowersUnwaited a action) (start limit size junk) as a) : JoinInv a :=
  h.inv₂ (fun _ _ hr => controlInv_run hr) (joinInv_start limit size junk)
    fun _ _ _ hctl hi hok hs => joinInv_step hctl hi hok (step_cases hs)

/-- A waiting `finish` sets `size` to 0, which leaves no slot in use. -/
theorem JoinInv.exited (hi : JoinInv a) (hctl : ControlInv a) {discardQueue : Bool} {code : Code}
    (hr : a.returned = some (.resize 0 false discardQueue, code)) : ∀ s ∈ a.workers, s = .exited := by
  have hidle := hctl.idle _ hr
  have hsize := hctl.sized _ _ _ hr
  intro s hs
  obtain ⟨w, hw⟩ := List.mem_iff_getElem?.1 hs
  by_contra hne
  obtain ⟨i, hlt, -⟩ := hi.kept w s hw hne
  rw [Pool.held, hidle] at hlt
  dsimp only at hlt
  omega

/-- In a run in which no call lowers `size` without waiting, every worker has
exited when a waiting `finish` returns. -/
theorem finish_joins_all {limit size junk : Nat} {as : List Action}
    (h : Run step (fun a action => ¬ LowersUnwaited a action) (start limit size junk) as a) {discardQueue : Bool}
    {code : Code} (hr : a.returned = some (.resize 0 false discardQueue, code)) : ∀ s ∈ a.workers, s = .exited :=
  (joinInv_run h).exited (controlInv_run h) hr

/-- A pool of one worker after `finish`. -/
def finishedOne : Pool where
  queue := []
  accepting := false
  shutdown := true
  size := 0
  threads := [some 0]
  workers := [.exited]
  signals := 0
  control := .idle
  returned := some (.resize 0 false false, .ok)
  destroyed := true
  log := ⟨[], [], [], []⟩

theorem exec_finishedOne : exec step (start 1 1 0) [.create true, .proceed, .resize 0 false false, .proceed, .proceed,
    .work 0, .proceed, .proceed, .proceed, .proceed] = some finishedOne := by decide

theorem finish_joins_one : finishedOne.workers.all (· = .exited) = true := by
  have hexited := finish_joins_all (run_of_exec_of (by simp [LowersUnwaited]) exec_finishedOne) rfl
  simpa using hexited

/-- `finish` without waiting sets `size` to 0, so the waiting `finish` after it
joins no thread. It destroys the pool while the worker has yet to lock the mutex. -/
theorem finish_after_unwaited : ∃ a, exec step (start 1 1 0) [.create true, .proceed, .resize 0 true false, .proceed,
      .proceed, .proceed, .resize 0 false false, .proceed, .proceed, .proceed, .proceed, .proceed] = some a ∧
    a.returned = some (.resize 0 false false, .ok) ∧ a.destroyed = true ∧ a.workers = [.awake] :=
  ⟨_, rfl, rfl, rfl, rfl⟩

end SphSc.ThreadPool

import SphSc.ThreadPool.Control
/-!
# What `size` counts

When `resize` returns, `size` should be the number of workers that go on: those
that have not exited, less the `sph_thread_finish` tasks that will end some of
them. Some paths of `resize` miss this. While none of them is taken the count is
right at every return, and `accounted` says what it is in between.
-/
open Runs

namespace SphSc.ThreadPool

variable {a a' : Pool} {action : Action}

/-- Workers that have not exited. -/
def Pool.live (a : Pool) : Nat := a.workers.countP (· ≠ .exited)

/-- `sph_thread_finish` tasks that are queued or being executed. -/
def Pool.finishing (a : Pool) : Nat := a.queue.count .threadFinish + a.workers.count (.running .threadFinish)

/-- How many workers the control thread has provided for. -/
def Control.accounted (size : Nat) : Control → Nat
  | .creating _ i => i
  | .growing _ i _ => i
  | .shrink f i => size - (i - f.size)
  | .signal f i => size - (i + 1 - f.size)
  | .join f _ => f.size
  | .setSize f => f.size
  | _ => size

/-- Steps of a pool that has been created and not shut down. -/
def Admitted (a : Pool) : Action → Prop
  | .create success => success = true ∨ ∀ size i, a.control ≠ .creating size i
  | .resize size _ _ => size ≠ 0
  | _ => True

/-- Steps that leave `size` wrong when `resize` returns: a thread is not created,
`malloc` fails after the first task was enqueued, the queue that is dropped
holds tasks that were to end workers, or a client enqueues such a task itself. -/
def Miscounts (a : Pool) : Action → Prop
  | .create success => success = false ∧ ∃ f i code, a.control = .growing f i code
  | .malloc success => success = false ∧ ∃ f i, a.control = .shrink f i ∧ f.size < i
  | .proceed => (∃ f, a.control = .discard f) ∧ .threadFinish ∈ a.queue
  | .enqueue task => task = some .threadFinish
  | _ => False

structure CountInv (a : Pool) : Prop where
  balance : a.control ≠ .overrun → a.live = a.control.accounted a.size + a.finishing
  accepting : a.accepting = true
  running : a.shutdown = false
  nonzero : ∀ f, a.control.frame = some f → f.size ≠ 0

theorem accounted_afterShrink (f : Frame) (size : Nat) : f.afterShrink.accounted size = f.size := by
  unfold Frame.afterShrink
  split <;> rfl

theorem accounted_afterDiscard {f : Frame} (hf : f.size ≠ 0) (size : Nat) : f.afterDiscard.accounted size = size := by
  rw [Frame.afterDiscard, if_neg hf]
  simp [Control.accounted]

theorem accounted_afterShutdown {f : Frame} (hf : f.size ≠ 0) (size : Nat) : f.afterShutdown.accounted size = size := by
  unfold Frame.afterShutdown
  split
  · rfl
  · exact accounted_afterDiscard hf size

/-! ## What a step does to the counts -/

theorem live_set {w : Nat} {x : Worker} (hx : a.workers[w]? = some x) (y : Worker) :
    (a.setWorker w y).live + (if x = .exited then 0 else 1) = a.live + if y = .exited then 0 else 1 := by
  have h := countP_set hx y (· ≠ .exited)
  simp only [Pool.live, Pool.setWorker]
  split <;> split <;> simp_all

theorem live_wakeAll (a : Pool) : a.wakeAll.live = a.live := by
  simp only [Pool.live, Pool.wakeAll, List.countP_map]
  apply List.countP_congr
  intro s _
  cases s <;> simp

theorem finishing_wakeAll (a : Pool) : a.wakeAll.finishing = a.finishing :=
  congrArg (a.queue.count .threadFinish + ·) (count_running_wakeAll a .threadFinish)

theorem counts_wake {b : Pool} {target : Option Nat} (hw : a.wake target = some b) :
    b.live = a.live ∧ b.finishing = a.finishing := by
  have hqueue : b.queue = a.queue := by rw [wake_same hw]
  refine ⟨?_, by rw [Pool.finishing, Pool.finishing, hqueue, count_running_wake hw]⟩
  rcases wake_cases hw with ⟨-, rfl⟩ | ⟨w, hb, rfl⟩
  · rfl
  · simpa using live_set hb .awake

/-- The control thread goes on, and what it has provided for stays the same. -/
theorem CountInv.of_control (hi : CountInv a) (hw : a'.workers = a.workers) (hq : a'.queue = a.queue)
    (hacc : a'.accepting = true) (hsd : a'.shutdown = false) (hc : a.control ≠ .overrun)
    (hsize : a'.control.accounted a'.size = a.control.accounted a.size)
    (hf : ∀ f, a'.control.frame = some f → f.size ≠ 0) : CountInv a' where
  balance _ := by
    have := hi.balance hc
    simp only [Pool.live, Pool.finishing, hw, hq, hsize] at this ⊢
    exact this
  accepting := hacc
  running := hsd
  nonzero := hf

/-- A worker goes on to something else without exiting, and not to or from a
`sph_thread_finish` task. -/
theorem CountInv.of_set (hi : CountInv a) {w : Nat} {x y : Worker} (hx : a.workers[w]? = some x)
    (hxe : x ≠ .exited) (hye : y ≠ .exited) (hxf : x ≠ .running .threadFinish) (hyf : y ≠ .running .threadFinish)
    (log : Log) : CountInv { a.setWorker w y with log } where
  balance hc := by
    have hb := hi.balance hc
    have hlive := live_set hx y
    have hcount := count_set hx y (.running .threadFinish)
    simp only [if_neg hxe, if_neg hye, if_neg hxf, if_neg hyf] at hlive hcount
    simp only [Pool.live, Pool.finishing, Pool.setWorker] at hb hlive hcount ⊢
    omega
  accepting := hi.accepting
  running := hi.running
  nonzero := hi.nonzero

/-- A worker is created. -/
theorem CountInv.of_spawn (hi : CountInv a) {i : Nat} {c : Control} (hc : a.control ≠ .overrun)
    (hcount : c.accounted a.size = a.control.accounted a.size + 1) (hf : c.frame = none) :
    CountInv ((a.spawn i).goto c) where
  balance _ := by
    have hb := hi.balance hc
    have hlive : [Worker.awake].countP (· ≠ .exited) = 1 := rfl
    have hrunning : [Worker.awake].count (.running .threadFinish) = 0 := rfl
    simp only [Pool.live, Pool.finishing, Pool.goto, Pool.spawn, List.countP_append, List.count_append, hcount] at hb ⊢
    omega
  accepting := hi.accepting
  running := hi.running
  nonzero := by simp [hf]

theorem countInv_start (limit size junk : Nat) : CountInv (start limit size junk) :=
  ⟨fun _ => rfl, rfl, rfl, by simp [start, Control.frame]⟩

theorem countInv_step (hctl : ControlInv a) (hi : CountInv a) (hadm : Admitted a action) (hok : ¬ Miscounts a action)
    (h : Step a action a') : CountInv a' := by
  have hin := hctl.inRange
  have hacc := hi.accepting
  have hsd := hi.running
  have hnz := hi.nonzero
  cases h with
  | refuse hc => exact hi.of_control rfl rfl hacc hsd (by simp [hc]) (by simp [hc]) (by simp [Control.frame])
  | grow hc =>
    exact hi.of_control rfl rfl hacc hsd (by simp [hc]) (by simp [hc, Control.accounted]) (by simp [Control.frame])
  | finish hc => exact absurd rfl hadm
  | shrink hc hl hs h0 =>
    refine hi.of_control rfl rfl hacc hsd (by simp [hc]) ?_ ?_
    · rw [accounted_afterShutdown h0, hc]; rfl
    · intro f hf
      obtain rfl : _ = f := Option.some.inj ((frame_afterShutdown _).symm.trans hf)
      exact h0
  | destroyBusy hc => exact hi.of_control rfl rfl hacc hsd (by simp [hc]) (by simp [hc]) (by simp [Control.frame])
  | destroyed hc h0 hs => simp [hsd] at hs
  | created hc => exact hi.of_spawn (by simp [hc]) (by simp [hc, Control.accounted]) rfl
  | grew hc => exact hi.of_spawn (by simp [hc]) (by simp [hc, Control.accounted]) rfl
  | overrun => exact ⟨fun h => absurd rfl h, hacc, hsd, by simp [Control.frame]⟩
  | createFailed hc => simp [Admitted, hc] at hadm
  | cleanUp hc => simp [Admitted, hc] at hadm
  | growFailed hc => exact absurd ⟨rfl, _, _, _, hc⟩ hok
  | @allCreated size i hc hle =>
    rw [hc] at hin
    have hi' : size = i := Nat.le_antisymm hle hin
    exact hi.of_control rfl rfl hacc hsd (by simp [hc]) (by simp [hc, Control.accounted, hi']) (by simp [Control.frame])
  | @grown f i code hc hle =>
    rw [hc] at hin
    have hi' : f.size = i := Nat.le_antisymm hle hin
    exact hi.of_control (by simp) (by simp) (by simp) (by simp) (by simp [hc]) (by simp [hc, Control.accounted, hi'])
      (by simp [Control.frame])
  | requestShutdown hc => exact absurd (by rw [hc] at hin; exact hin) (hnz _ (by rw [hc]; rfl))
  | broadcastShutdown hc => exact absurd (by rw [hc] at hin; exact hin) (hnz _ (by rw [hc]; rfl))
  | discard hc =>
    -- what is dropped ends no worker
    have hno : .threadFinish ∉ a.queue := fun hmem => hok ⟨⟨_, hc⟩, hmem⟩
    refine ⟨fun _ => ?_, hacc, hsd, fun g hg => hnz g (by rw [hc]; exact hg)⟩
    have hb := hi.balance (by simp [hc])
    simp only [Pool.live, Pool.finishing, hc, Control.accounted, List.count_eq_zero.2 hno] at hb ⊢
    simpa using hb
  | @broadcastDiscard f hc =>
    have hf : f.size ≠ 0 := hnz f (by rw [hc]; rfl)
    refine ⟨fun _ => ?_, hacc, hsd, fun g hg => ?_⟩
    · have hb := hi.balance (by simp [hc])
      rw [hc, ← live_wakeAll, ← finishing_wakeAll] at hb
      show a.wakeAll.live = f.afterDiscard.accounted a.size + a.wakeAll.finishing
      rw [accounted_afterDiscard hf]
      exact hb
    · obtain rfl : f = g := Option.some.inj ((frame_afterDiscard f).symm.trans hg)
      exact hf
  | @mallocFailed f i hc hlt =>
    -- nothing has been enqueued yet
    rw [hc] at hin
    have hfi : i = f.size := Nat.le_antisymm (Nat.le_of_not_lt fun h => hok ⟨rfl, f, i, hc, h⟩) hin.2.1
    exact hi.of_control (by simp) (by simp) (by simpa using hacc) (by simpa using hsd) (by simp [hc])
      (by simp [hc, Control.accounted, hfi]) (by simp [Control.frame])
  | @finishQueued f i hc hlt _ =>
    rw [hc] at hin
    refine ⟨fun _ => ?_, hacc, hsd, fun g hg => hnz g (by rw [hc]; exact hg)⟩
    have hb := hi.balance (by simp [hc])
    have hle : f.size ≤ i := hin.2.1
    simp only [Pool.live, Pool.finishing, hc, Control.accounted, Pool.goto, Pool.push, List.count_append,
      List.count_singleton_self] at hb ⊢
    omega
  | finishRefused hc hlt hno => simp [hacc] at hno
  | @finishSignalled b f i _ hc hw =>
    have hsame := wake_same hw
    obtain ⟨hlive, hfin⟩ := counts_wake hw
    refine ⟨fun _ => ?_, by rw [hsame]; exact hacc, by rw [hsame]; exact hsd, fun g hg => hnz g (by rw [hc]; exact hg)⟩
    have hb := hi.balance (by simp [hc])
    have hsize : b.size = a.size := by rw [hsame]
    rw [hc, ← hlive, ← hfin, ← hsize] at hb
    exact hb
  | @shrunk f i hc hle =>
    rw [hc] at hin
    obtain ⟨-, hfi, hia⟩ := hin
    refine hi.of_control rfl rfl hacc hsd (by simp [hc]) ?_ fun g hg => ?_
    · show f.afterShrink.accounted a.size = a.control.accounted a.size
      rw [accounted_afterShrink, hc]
      show f.size = a.size - (i - f.size)
      omega
    · obtain rfl : f = g := Option.some.inj ((frame_afterShrink f).symm.trans hg)
      exact hnz f (by rw [hc]; rfl)
  | joined hc =>
    exact hi.of_control rfl rfl hacc hsd (by simp [hc]) (by simp [hc, Control.accounted])
      fun g hg => hnz g (by rw [hc]; exact hg)
  | allJoined hc =>
    exact hi.of_control rfl rfl hacc hsd (by simp [hc]) (by simp [hc, Control.accounted])
      fun g hg => hnz g (by rw [hc]; exact hg)
  | setSize hc =>
    exact hi.of_control (by simp) (by simp) (by simpa using hacc) (by simpa using hsd) (by simp [hc])
      (by simp [hc, Control.accounted]) (by simp [Control.frame])
  | setSizeDestroy hc _ h0 => exact absurd h0 (hnz _ (by rw [hc]; rfl))
  | finishBusy hc => exact absurd (by rw [hc] at hin; exact hin.1) (hnz _ (by rw [hc]; rfl))
  | finished hc => exact absurd (by rw [hc] at hin; exact hin.1) (hnz _ (by rw [hc]; rfl))
  | @accepted t hu _ =>
    have ht : t ≠ .threadFinish := fun h => hok (congrArg some h)
    refine ⟨fun hc => ?_, hacc, hsd, hnz⟩
    have hb := hi.balance hc
    simp only [Pool.live, Pool.finishing, Pool.push, List.count_append] at hb ⊢
    rw [List.count_singleton, if_neg (by simpa using ht)]
    omega
  | signalled hs hw =>
    have hsame := wake_same hw
    obtain ⟨hlive, hfin⟩ := counts_wake hw
    rw [hsame] at hlive hfin ⊢
    refine ⟨fun hc => ?_, hacc, hsd, hnz⟩
    have hb := hi.balance hc
    rw [← hlive, ← hfin] at hb
    exact hb
  | block hw => exact hi.of_set hw (by simp) (by simp) (by simp) (by simp) _
  | exit hw h0 hs => simp [hsd] at hs
  | @take w t queue hw h0 hq =>
    refine ⟨fun hc => ?_, hacc, hsd, hnz⟩
    have hb := hi.balance hc
    have hlive := live_set hw (.running t)
    have hcount := count_set hw (.running t) (.running .threadFinish)
    simp only [reduceCtorEq, if_false, Worker.running.injEq] at hlive hcount
    simp only [Pool.live, Pool.finishing, Pool.setWorker, hq, List.count_cons, beq_iff_eq] at hb hlive hcount ⊢
    omega
  | complete hw => exact hi.of_set hw (by simp) (by simp) (by simp) (by simp) _
  | @threadFinish w hw =>
    refine ⟨fun hc => ?_, hacc, hsd, hnz⟩
    have hb := hi.balance hc
    have hlive := live_set hw .exited
    have hcount := count_set hw .exited (.running .threadFinish)
    simp only [reduceCtorEq, if_false, if_true] at hlive hcount
    simp only [Pool.live, Pool.finishing, Pool.setWorker] at hb hlive hcount ⊢
    omega
  | wakeUp hw => exact hi.of_set hw (by simp) (by simp) (by simp) (by simp) _
  | invalid => exact hi
  | finishUnaccepted => exact hi
  | refused => exact ⟨hi.balance, hacc, hsd, hnz⟩

/-- Steps after which the counts agree when `resize` returns. -/
def Counted (a : Pool) (action : Action) : Prop := Admitted a action ∧ ¬ Miscounts a action

theorem countInv_run {limit size junk : Nat} {as : List Action} (h : Run step Counted (start limit size junk) as a) :
    CountInv a :=
  h.inv₂ (fun _ _ hr => controlInv_run hr) (countInv_start limit size junk)
    fun _ _ _ hctl hi hok hs => countInv_step hctl hi hok.1 hok.2 (step_cases hs)

/-- Whatever `resize` returns, `size` and the tasks that are still to end a worker
make up the workers that have not exited. -/
theorem resize_accounts {limit size junk : Nat} {as : List Action}
    (h : Run step Counted (start limit size junk) as a) {n : Nat} {noWait discardQueue : Bool} {code : Code}
    (hr : a.returned = some (.resize n noWait discardQueue, code)) : a.live = a.size + a.finishing := by
  have hidle := (controlInv_run h).idle _ hr
  have hbalance := (countInv_run h).balance (by simp [hidle])
  rw [hidle] at hbalance
  exact hbalance

/-- A pool of two workers that is being shrunk to one. -/
def shrinkingTwo : Pool where
  queue := [.threadFinish]
  accepting := true
  shutdown := false
  size := 1
  threads := [some 0, some 1]
  workers := [.awake, .awake]
  signals := 0
  control := .idle
  returned := some (.resize 1 true false, .ok)
  destroyed := false
  log := ⟨[.threadFinish], [], [], []⟩

theorem run_shrinkingTwo : Run step Counted (start 2 2 0) [.create true, .create true, .proceed, .resize 1 true false,
    .malloc true, .signalFinish none, .proceed, .proceed] shrinkingTwo := by
  have hproceed : ∀ {b : Pool} {c : Control}, b.control = c → (∀ f, c ≠ .discard f) → Counted b .proceed := by
    rintro b _ rfl hc
    exact ⟨trivial, fun hm => hc _ hm.1.choose_spec⟩
  refine .cons ⟨.inl rfl, by simp [Miscounts]⟩ rfl (.cons ⟨.inl rfl, by simp [Miscounts]⟩ rfl ?_)
  refine .cons (hproceed (c := .creating 2 2) rfl (by simp)) rfl ?_
  refine .cons ⟨Nat.one_ne_zero, by simp [Miscounts]⟩ rfl (.cons ⟨trivial, by simp [Miscounts]⟩ rfl ?_)
  refine .cons ⟨trivial, by simp [Miscounts]⟩ rfl ?_
  refine .cons (hproceed (c := .shrink ⟨1, true, false, false⟩ 2) rfl (by simp)) rfl ?_
  exact .cons (hproceed (c := .setSize ⟨1, true, false, false⟩) rfl (by simp)) rfl .nil

theorem resize_accounts_shrinkingTwo : shrinkingTwo.live = shrinkingTwo.size + shrinkingTwo.finishing :=
  resize_accounts run_shrinkingTwo rfl

/-- `resize` from one worker to two returns `EAGAIN` and leaves `size` at two. -/
theorem resize_miscounts : ∃ a, exec step (start 4 1 0) [.create true, .proceed, .resize 2 false false,
      .create false, .proceed] = some a ∧
    a.returned = some (.resize 2 false false, .eagain) ∧ a.size = 2 ∧ a.finishing = 0 ∧ a.live = 1 :=
  ⟨_, rfl, rfl, rfl, rfl, rfl⟩

end SphSc.ThreadPool

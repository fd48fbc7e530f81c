import SphSc.ThreadPool.Steps
/-!
# No wake-up is lost

A signal sent after the unlock may find no worker blocked, or wake one that
then finds the queue empty. While some worker is blocked, the tasks in the
queue are no more than the signals on their way and the workers about to lock
the mutex: a worker blocks only when the queue is empty, an accepted task
brings a signal with it, and a worker that takes a task takes it off both sides.
-/
open Runs

namespace SphSc.ThreadPool

variable {a a' : Pool} {action : Action}

/-- Signals on their way: those of clients, and that of the control thread. -/
def Pool.pendingSignals (a : Pool) : Nat := a.signals + a.control.sends

structure WakeInv (a : Pool) : Prop where
  room : .blocked ∈ a.workers → a.queueSize ≤ a.pendingSignals + a.workers.count .awake
  shutdown : a.shutdown = true → .blocked ∈ a.workers → ∃ f, a.control = .broadcastShutdown f

theorem wakeInv_start (limit size junk : Nat) : WakeInv (start limit size junk) := ⟨by simp [start], by simp [start]⟩

theorem queueSize_push_le (a : Pool) (t : Task) : (a.push t).queueSize ≤ a.queueSize + 1 := by
  simp only [Pool.queueSize, Pool.push, List.length_append, List.length_singleton]
  omega

theorem queueSize_pop {t : Task} {queue : List Task} (hq : a.queue = t :: queue) (h0 : a.queueSize ≠ 0) :
    queue.length % 2 ^ 32 + 1 = a.queueSize := by
  simp only [Pool.queueSize, hq, List.length_cons] at h0 ⊢
  omega

theorem blocked_not_mem_wakeAll (a : Pool) : .blocked ∉ a.wakeAll.workers := by
  simp only [Pool.wakeAll, List.mem_map, not_exists, not_and]
  intro s _
  split <;> simp_all

/-- A signal wakes a worker, if there is one to wake. -/
theorem wake_counts {b : Pool} {target : Option Nat} (hw : a.wake target = some b) (hb : .blocked ∈ b.workers) :
    .blocked ∈ a.workers ∧ b.workers.count .awake = a.workers.count .awake + 1 := by
  rcases wake_cases hw with ⟨hno, rfl⟩ | ⟨w, hblocked, rfl⟩
  · exact absurd hb hno
  · have hcount := count_set hblocked .awake .awake
    simp only [reduceCtorEq, if_false, if_true] at hcount
    exact ⟨mem_of_worker hblocked, hcount⟩

/-- A step that leaves workers, queue and signals alone. -/
theorem WakeInv.of_same (hi : WakeInv a) (hw : a'.workers = a.workers) (hq : a'.queue = a.queue)
    (hs : a'.signals = a.signals) (hc : a.control.sends ≤ a'.control.sends)
    (hsh : a'.shutdown = true → a.shutdown = true ∧ ∀ f, a.control ≠ .broadcastShutdown f) : WakeInv a' where
  room hb := by
    have := hi.room (hw ▸ hb)
    simp only [Pool.queueSize, Pool.pendingSignals, hw, hq, hs] at this ⊢
    omega
  shutdown hsd hb := by
    obtain ⟨hsd, hno⟩ := hsh hsd
    obtain ⟨f, hf⟩ := hi.shutdown hsd (hw ▸ hb)
    exact absurd hf (hno f)

/-- A step in which one worker that was not about to lock the mutex goes on without blocking. -/
theorem WakeInv.of_set (hi : WakeInv a) {w : Nat} {x y : Worker} (hx : a.workers[w]? = some x) (hawake : x ≠ .awake)
    (hy : y ≠ .blocked) (log : Log) : WakeInv { a.setWorker w y with log } where
  room hb := by
    have hcount := count_set hx y .awake
    have hroom := hi.room (mem_of_set hy hb)
    rw [if_neg hawake] at hcount
    simp only [Pool.queueSize, Pool.pendingSignals, Pool.setWorker] at hroom ⊢
    omega
  shutdown hs hb := hi.shutdown hs (mem_of_set hy hb)

/-- A new worker is about to lock the mutex. -/
theorem WakeInv.of_spawn (hi : WakeInv a) {i : Nat} {c : Control} (hc : a.control.sends = 0)
    (hno : ∀ f, a.control ≠ .broadcastShutdown f) : WakeInv ((a.spawn i).goto c) := by
  have hmem : ∀ ws : List Worker, .blocked ∈ ws ++ [.awake] → .blocked ∈ ws := by simp
  constructor
  · intro hb
    have hroom := hi.room (hmem _ hb)
    simp only [Pool.queueSize, Pool.pendingSignals, Pool.goto, Pool.spawn, List.count_append] at hroom ⊢
    omega
  · intro hs hb
    obtain ⟨f, hf⟩ := hi.shutdown hs (hmem _ hb)
    exact absurd hf (hno f)

theorem WakeInv.of_wakeAll (a : Pool) (c : Control) : WakeInv (a.wakeAll.goto c) :=
  ⟨fun hb => absurd hb (blocked_not_mem_wakeAll a), fun _ hb => absurd hb (blocked_not_mem_wakeAll a)⟩

theorem wakeInv_step (hi : WakeInv a) (h : Step a action a') : WakeInv a' := by
  cases h with
  | block hw h0 hs =>
    -- the queue is empty when a worker blocks
    refine ⟨fun _ => ?_, fun hs' _ => ?_⟩
    · simp only [Pool.queueSize, Pool.setWorker] at h0 ⊢
      omega
    · simp [hs] at hs'
  | exit hw h0 hs =>
    refine ⟨fun _ => ?_, fun _ hb => hi.shutdown hs (mem_of_set (by simp) hb)⟩
    simp only [Pool.queueSize, Pool.setWorker] at h0 ⊢
    omega
  | @take w t queue hw h0 hq =>
    have hcount := count_set hw (.running t) .awake
    have hpop := queueSize_pop hq h0
    refine ⟨fun hb => ?_, fun hs hb => hi.shutdown hs (mem_of_set (by simp) hb)⟩
    have hroom := hi.room (mem_of_set (by simp) hb)
    simp only [Pool.queueSize, Pool.pendingSignals, Pool.setWorker, reduceCtorEq, if_false, if_true] at *
    omega
  | complete hw => exact hi.of_set hw (by simp) (by simp) _
  | threadFinish hw => exact hi.of_set hw (by simp) (by simp) _
  | wakeUp hw => exact hi.of_set hw (by simp) (by simp) _
  | @accepted t hu hacc =>
    -- a task brings a signal with it
    refine ⟨fun hb => ?_, hi.shutdown⟩
    have hroom := hi.room hb
    have hpush := queueSize_push_le a t
    simp only [Pool.queueSize, Pool.pendingSignals, Pool.push] at hroom hpush ⊢
    omega
  | @finishQueued f i hc hlt hacc =>
    refine ⟨fun hb => ?_, fun hs hb => ?_⟩
    · have hroom := hi.room hb
      have hpush := queueSize_push_le a .threadFinish
      simp only [Pool.queueSize, Pool.pendingSignals, Pool.push, Pool.goto, hc, Control.sends] at hroom hpush ⊢
      omega
    · obtain ⟨f, hf⟩ := hi.shutdown hs hb
      simp [hc] at hf
  | signalled hs hw =>
    have hsame := wake_same hw
    refine ⟨fun hb => ?_, fun hsd hb => ?_⟩
    · obtain ⟨hb', hcount⟩ := wake_counts hw hb
      have hroom := hi.room hb'
      rw [hsame] at hcount ⊢
      simp only [Pool.queueSize, Pool.pendingSignals] at hroom hcount ⊢
      omega
    · rw [hsame] at hsd ⊢
      exact hi.shutdown hsd (wake_counts hw hb).1
  | finishSignalled hc hw =>
    have hsame := wake_same hw
    refine ⟨fun hb => ?_, fun hsd hb => ?_⟩
    · obtain ⟨hb', hcount⟩ := wake_counts hw hb
      have hroom := hi.room hb'
      rw [hsame] at hcount ⊢
      simp only [Pool.queueSize, Pool.pendingSignals, Pool.goto, hc, Control.sends] at hroom hcount ⊢
      omega
    · rw [hsame] at hsd
      obtain ⟨f, hf⟩ := hi.shutdown hsd (wake_counts hw hb).1
      simp [hc] at hf
  | requestShutdown hc =>
    refine ⟨fun hb => ?_, fun _ _ => ⟨_, rfl⟩⟩
    have hroom := hi.room hb
    simp only [Pool.queueSize, Pool.pendingSignals, hc, Control.sends] at hroom ⊢
    omega
  | broadcastShutdown hc => exact .of_wakeAll a _
  | broadcastDiscard hc => exact .of_wakeAll a _
  | discard hc =>
    refine ⟨fun _ => Nat.zero_le _, ?_⟩
    intro hs hb
    obtain ⟨f, hf⟩ := hi.shutdown hs hb
    simp [hc] at hf
  | created hc => exact hi.of_spawn (by simp [hc, Control.sends]) (by simp [hc])
  | grew hc => exact hi.of_spawn (by simp [hc, Control.sends]) (by simp [hc])
  | overrun hc hl =>
    rcases hc with ⟨_, hc⟩ | ⟨_, _, hc⟩ <;>
      exact hi.of_same rfl rfl rfl (by simp [hc, Control.sends]) fun hs => ⟨hs, by simp [hc]⟩
  | invalid => exact hi
  | finishUnaccepted => exact hi
  | refused => exact ⟨hi.room, hi.shutdown⟩
  | _ => exact hi.of_same (by simp) (by simp) (by simp) (by simp_all [Control.sends]) (by simp_all)

theorem wakeInv_run {limit size junk : Nat} {as : List Action} (h : Run step any (start limit size junk) as a) :
    WakeInv a :=
  h.inv (wakeInv_start limit size junk) fun _ _ _ hi _ hs => wakeInv_step hi (step_cases hs)

/-- While a worker is blocked and the queue is not empty by its size, a signal
is on its way or another worker is about to lock the mutex. While a worker is
blocked and the pool is shut down, the broadcast is on its way. -/
theorem no_lost_wake_up {limit size junk : Nat} {as : List Action} (h : Run step any (start limit size junk) as a)
    (hb : .blocked ∈ a.workers) :
    (a.queueSize ≠ 0 → 0 < a.signals ∨ (∃ f i, a.control = .signal f i) ∨ .awake ∈ a.workers) ∧
      (a.shutdown = true → ∃ f, a.control = .broadcastShutdown f) := by
  have hi := wakeInv_run h
  refine ⟨fun h0 => ?_, fun hs => hi.shutdown hs hb⟩
  have hroom := hi.room hb
  by_cases hsig : 0 < a.signals
  · exact .inl hsig
  cases hc : a.control with
  | signal f i => exact .inr (.inl ⟨f, i, rfl⟩)
  | _ =>
    refine .inr (.inr (List.count_pos_iff.1 ?_))
    simp only [Pool.pendingSignals, hc, Control.sends] at hroom
    omega

/-- The only worker waits, and a client has unlocked the mutex and not yet signalled. -/
def waiting : Pool where
  queue := [.user 0]
  accepting := true
  shutdown := false
  size := 1
  threads := [some 0, none]
  workers := [.blocked]
  signals := 1
  control := .idle
  returned := some (.new, .ok)
  destroyed := false
  log := ⟨[.user 0], [], [], []⟩

theorem exec_waiting :
    exec step (start 2 1 0) [.create true, .proceed, .work 0, .enqueue (some (.user 0))] = some waiting := by decide

theorem wake_up_waiting : 0 < waiting.signals ∨ (∃ f i, waiting.control = .signal f i) ∨ .awake ∈ waiting.workers :=
  (no_lost_wake_up (run_of_exec exec_waiting) (by decide)).1 (by decide)

/-! ## The counter wraps -/

/-- One worker, and `k` tasks that have been enqueued and signalled for. -/
def filled (k : Nat) (worker : Worker) : Pool where
  queue := (List.range k).map .user
  accepting := true
  shutdown := false
  size := 1
  threads := [some 0]
  workers := [worker]
  signals := 0
  control := .idle
  returned := some (.new, .ok)
  destroyed := false
  log := ⟨(List.range k).map .user, [], [], []⟩

theorem step_filled (k : Nat) :
    step (filled k .awake) (.enqueue (some (.user k))) = some { filled (k + 1) .awake with signals := 1 } := by
  have hunused : (filled k .awake).unused (.user k) = true := by simp [Pool.unused, filled]
  have hpush : (filled k .awake).push (.user k) = filled (k + 1) .awake := by
    simp [Pool.push, filled, List.range_succ]
  simp only [step, Pool.enqueue, hunused, hpush]
  rfl

theorem run_filled (k : Nat) : ∃ as, Run step any (start 1 1 0) as (filled k .awake) := by
  induction k with
  | zero => exact ⟨[.create true, .proceed], run_of_exec rfl⟩
  | succ k ih =>
    obtain ⟨as, hrun⟩ := ih
    -- the signal finds no worker blocked
    exact ⟨_, (hrun.snoc trivial (step_filled k)).snoc (a := .signal none) trivial rfl⟩

theorem step_wrapped {k : Nat} (hk : k % 2 ^ 32 = 0) : step (filled k .awake) (.work 0) = some (filled k .blocked) := by
  have hsize : (filled k .awake).queueSize = 0 := by simpa [Pool.queueSize, filled] using hk
  simp only [step, Pool.work, hsize]
  rfl

/-- With 2 ^ 32 tasks in the queue its size is 0. The worker waits, and nothing will wake it. -/
theorem wake_up_lost : ∃ as a, Run step any (start 1 1 0) as a ∧ a.queue.length = 2 ^ 32 ∧
    a.workers = [.blocked] ∧ a.signals = 0 ∧ a.control = .idle := by
  obtain ⟨as, hrun⟩ := run_filled (2 ^ 32)
  refine ⟨_, filled (2 ^ 32) .blocked, hrun.snoc trivial (step_wrapped (Nat.mod_self _)), ?_, rfl, rfl, rfl⟩
  simp [filled]

end SphSc.ThreadPool

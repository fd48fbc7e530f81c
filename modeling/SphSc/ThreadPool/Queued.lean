import SphSc.Queue
import SphSc.ThreadPool.Steps
/-!
# The pool's queue in memory

The pool's tasks are queued through the node that each of them contains. In every
run, the calls on `sph_queue_t` follow no null pointer, and its nodes are the
tasks of the list that the pool has for a queue.
-/
open Exec Links Runs

namespace SphSc.ThreadPool

/-- The node `q` of a task. Tasks from `malloc` are told apart by how many tasks
were accepted before. -/
inductive Node where
  | user (id : Nat)
  | threadFinish (k : Nat)
  deriving DecidableEq, Repr

def Node.task : Node → Task
  | .user id => .user id
  | .threadFinish _ => .threadFinish

/-- The node of a task that is about to be queued. -/
def Pool.node (a : Pool) : Task → Node
  | .user id => .user id
  | .threadFinish => .threadFinish a.log.accepted.length

structure Linked where
  pool : Pool
  queue : Queue Node
  next : Queue.Next Node
  /-- Nodes in the order in which they were taken. -/
  taken : List Node
  /-- A null pointer was followed. -/
  fault : Bool

namespace Linked

/-- What a step does with `a->queue`: the queue, memory, and the node taken. -/
def queueStep (s : Linked) : Action → Exec (Queue Node × Queue.Next Node × List Node)
  | .enqueue (some t) =>
    if s.pool.accepting then do
      let (queue, next) ← s.queue.enq s.next (s.pool.node t)
      return (queue, next, [])
    else return (s.queue, s.next, [])
  | .malloc true =>
    if s.pool.accepting then do
      let (queue, next) ← s.queue.enq s.next (s.pool.node .threadFinish)
      return (queue, next, [])
    else return (s.queue, s.next, [])
  | .proceed =>
    match s.pool.control with
    | .discard _ => return (Queue.init, s.next, [])
    | _ => return (s.queue, s.next, [])
  | .work _ =>
    if s.queue.size = 0 then return (s.queue, s.next, [])
    else do
      let (queue, n) ← s.queue.deq s.next
      return (queue, s.next, [n])
  | _ => return (s.queue, s.next, [])

def advance (s : Linked) (action : Action) (pool : Pool) : Linked :=
  match s.queueStep action with
  | .ok (queue, next, taken) => { s with pool, queue, next, taken := s.taken ++ taken }
  | .error _ => { s with pool, fault := true }

def step (s : Linked) (action : Action) : Option Linked := (ThreadPool.step s.pool action).map (s.advance action)

def start (limit size junk : Nat) (next : Queue.Next Node) : Linked where
  pool := ThreadPool.start limit size junk
  queue := Queue.init
  next
  taken := []
  fault := false

end Linked

/-- The queue in memory stands for the pool's list. -/
structure LinkedInv (s : Linked) (nodes : List Node) : Prop where
  holds : Queue.Holds s.queue s.next nodes
  tasks : nodes.map Node.task = s.pool.queue
  taken : s.taken.map Node.task = s.pool.log.dequeued
  fresh : ∀ k, Node.threadFinish k ∈ nodes → k < s.pool.log.accepted.length
  safe : s.fault = false

variable {s : Linked} {nodes : List Node} {a : Pool} {action : Action}

theorem linkedInv_start (limit size junk : Nat) (next : Queue.Next Node) :
    LinkedInv (Linked.start limit size junk next) [] :=
  ⟨Queue.holds_init next, rfl, rfl, by simp, rfl⟩

theorem LinkedInv.size_eq (hi : LinkedInv s nodes) : s.queue.size.toNat = s.pool.queueSize := by
  rw [hi.holds.size, BitVec.toNat_ofNat, Pool.queueSize, ← hi.tasks, List.length_map]

theorem LinkedInv.size_eq_zero (hi : LinkedInv s nodes) : s.queue.size = 0 ↔ s.pool.queueSize = 0 := by
  rw [← hi.size_eq]
  exact ⟨fun h => by rw [h]; rfl, fun h => BitVec.eq_of_toNat_eq h⟩

/-- A task that is about to be queued is not queued. -/
theorem LinkedInv.node_not_mem (hi : LinkedInv s nodes) {t : Task} (hu : s.pool.unused t = true) :
    s.pool.node t ∉ nodes := by
  intro hmem
  cases t with
  | user id =>
    have htask : Task.user id ∈ s.pool.queue := hi.tasks ▸ List.mem_map_of_mem hmem
    simp [Pool.unused, htask] at hu
  | threadFinish => exact absurd (hi.fresh _ hmem) (Nat.lt_irrefl _)

theorem task_node (a : Pool) (t : Task) : (a.node t).task = t := by cases t <;> rfl

/-- The node of a task is enqueued. -/
theorem LinkedInv.enq (hi : LinkedInv s nodes) {t : Task} (hu : s.pool.unused t = true) (pool : Pool)
    (hq : pool.queue = s.pool.queue ++ [t]) (hl : pool.log = { s.pool.log with accepted := s.pool.log.accepted ++ [t] }) :
    ∃ queue next, s.queue.enq s.next (s.pool.node t) = .ok (queue, next) ∧
      LinkedInv { s with pool, queue, next } (nodes ++ [s.pool.node t]) := by
  obtain ⟨queue, next, henq, hholds, -⟩ := Queue.enq_holds hi.holds (hi.node_not_mem hu)
  refine ⟨queue, next, henq, hholds, ?_, ?_, ?_, hi.safe⟩
  · rw [List.map_append, hi.tasks, hq, List.map_singleton, task_node]
  · rw [hl]
    exact hi.taken
  · intro k hk
    rw [hl, List.length_append, List.length_singleton]
    rcases List.mem_append.1 hk with hk | hk
    · exact Nat.lt_succ_of_lt (hi.fresh k hk)
    · cases t with
      | user id => simp [Pool.node] at hk
      | threadFinish =>
        simp only [Pool.node, List.mem_singleton, Node.threadFinish.injEq] at hk
        omega

/-- The queue is left alone. -/
theorem LinkedInv.of_same (hi : LinkedInv s nodes) {pool : Pool} (hq : pool.queue = s.pool.queue)
    (hd : pool.log.dequeued = s.pool.log.dequeued) (hacc : pool.log.accepted = s.pool.log.accepted) :
    LinkedInv { s with pool, taken := s.taken ++ [] } nodes :=
  ⟨hi.holds, hi.tasks.trans hq.symm, by rw [List.append_nil, hi.taken, hd], by rw [hacc]; exact hi.fresh, hi.safe⟩

/-- The node of the first task is taken. -/
theorem LinkedInv.deq (hi : LinkedInv s nodes) {t : Task} {queue' : List Task} (hq : s.pool.queue = t :: queue')
    (pool : Pool) (hq' : pool.queue = queue') (hd : pool.log.dequeued = s.pool.log.dequeued ++ [t])
    (hacc : pool.log.accepted = s.pool.log.accepted) :
    ∃ queue n rest, s.queue.deq s.next = .ok (queue, n) ∧ n.task = t ∧
      LinkedInv { s with pool, queue, taken := s.taken ++ [n] } rest := by
  cases nodes with
  | nil =>
    have htasks := hi.tasks
    rw [hq] at htasks
    cases htasks
  | cons n rest =>
    have htasks := hi.tasks
    rw [hq, List.map_cons, List.cons.injEq] at htasks
    obtain ⟨queue, hdeq, hholds⟩ := Queue.deq_holds hi.holds
    refine ⟨queue, n, rest, hdeq, htasks.1, hholds, htasks.2.trans hq'.symm, ?_, ?_, hi.safe⟩
    · rw [List.map_append, hi.taken, hd, List.map_singleton, htasks.1]
    · intro k hk
      rw [hacc]
      exact hi.fresh k (List.mem_cons_of_mem n hk)

theorem advance_of_ok {pool : Pool} {queue : Queue Node} {next : Queue.Next Node} {taken : List Node}
    (h : s.queueStep action = .ok (queue, next, taken)) :
    s.advance action pool = { s with pool, queue, next, taken := s.taken ++ taken } := by
  unfold Linked.advance
  rw [h]

theorem queueStep_proceed (h : ∀ f, s.pool.control ≠ .discard f) :
    s.queueStep .proceed = .ok (s.queue, s.next, []) := by
  simp only [Linked.queueStep]
  rfl

theorem linkedInv_step {s' : Linked} (hi : LinkedInv s nodes) (h : s.step action = some s') :
    ∃ nodes', LinkedInv s' nodes' := by
  obtain ⟨pool, hp, rfl⟩ := Option.map_eq_some_iff.1 h
  cases step_cases hp with
  | @accepted t hu hacc =>
    obtain ⟨queue, next, henq, hi'⟩ := hi.enq hu { s.pool.push t with signals := s.pool.signals + 1 } rfl rfl
    have hstep : s.queueStep (.enqueue (some t)) = .ok (queue, next, []) := by
      simp [Linked.queueStep, hacc, henq]
    rw [advance_of_ok hstep, List.append_nil]
    exact ⟨_, hi'⟩
  | @finishQueued f i hc hlt hacc =>
    have hu : s.pool.unused .threadFinish = true := by simp [Pool.unused]
    obtain ⟨queue, next, henq, hi'⟩ := hi.enq hu ((s.pool.push .threadFinish).goto (.signal f i)) rfl rfl
    have hstep : s.queueStep (.malloc true) = .ok (queue, next, []) := by
      simp [Linked.queueStep, hacc, henq]
    rw [advance_of_ok hstep, List.append_nil]
    exact ⟨_, hi'⟩
  | discard hc =>
    have hstep : s.queueStep .proceed = .ok (Queue.init, s.next, []) := by
      simp [Linked.queueStep, hc]
    rw [advance_of_ok hstep, List.append_nil]
    exact ⟨[], Queue.holds_init s.next, rfl, hi.taken, by simp, hi.safe⟩
  | block hw h0 | exit hw h0 =>
    have hstep : ∀ w, s.queueStep (.work w) = .ok (s.queue, s.next, []) := fun w => if_pos (hi.size_eq_zero.2 h0)
    rw [advance_of_ok (hstep _)]
    exact ⟨nodes, hi.of_same rfl rfl rfl⟩
  | @take w t queue hw h0 hq =>
    obtain ⟨queue', n, rest, hdeq, -, hi'⟩ := hi.deq hq { s.pool.setWorker w (.running t) with
      queue, log := { s.pool.log with dequeued := s.pool.log.dequeued ++ [t] } } rfl rfl rfl
    have hsize : s.queue.size ≠ 0 := fun h => h0 (hi.size_eq_zero.1 h)
    have hstep : s.queueStep (.work w) = .ok (queue', s.next, [n]) := (if_neg hsize).trans (by rw [hdeq]; rfl)
    rw [advance_of_ok hstep]
    exact ⟨rest, hi'⟩
  | refused _ hno | finishUnaccepted hno | finishRefused _ _ hno =>
    have hstep : ∀ t, s.queueStep (.enqueue (some t)) = .ok (s.queue, s.next, []) ∧
        s.queueStep (.malloc true) = .ok (s.queue, s.next, []) := by
      intro t
      simp [Linked.queueStep, hno]
    first
    | rw [advance_of_ok (hstep _).1]
    | rw [advance_of_ok (hstep .threadFinish).2]
    exact ⟨nodes, hi.of_same (by simp) (by simp) (by simp)⟩
  | allCreated hc | grown hc | requestShutdown hc | broadcastShutdown hc | broadcastDiscard hc | shrunk hc | joined hc
  | allJoined hc | setSize hc | setSizeDestroy hc | finishBusy hc | finished hc =>
    rw [advance_of_ok (queueStep_proceed (by simp [hc]))]
    exact ⟨nodes, hi.of_same (by simp) (by simp) (by simp)⟩
  | finishSignalled _ hw | signalled _ hw =>
    rw [advance_of_ok rfl]
    have hsame := wake_same hw
    exact ⟨nodes, hi.of_same (congrArg (·.queue) hsame) (congrArg (·.log.dequeued) hsame)
      (congrArg (·.log.accepted) hsame)⟩
  | _ =>
    rw [advance_of_ok rfl]
    exact ⟨nodes, hi.of_same (by simp) (by simp) (by simp)⟩

/-- In every run of the pool its queue in memory is a list from the first node
through `next` to the last, of the tasks of the pool's queue, with their number
modulo 2 ^ 32 for a size; the nodes that were taken are the tasks that workers ran, in order;
and no null pointer was followed. -/
theorem queue_refines {ok : Pool → Action → Prop} {limit size junk : Nat} {as : List Action}
    (h : Run step ok (start limit size junk) as a) (next : Queue.Next Node) :
    ∃ s, Run Linked.step any (Linked.start limit size junk next) as s ∧ s.pool = a ∧ s.fault = false ∧
      (∃ nodes, Path s.next s.queue.first nodes none ∧ s.queue.last = nodes.getLast? ∧ nodes.map Node.task = a.queue) ∧
      s.queue.size.toNat = a.queueSize ∧ s.taken.map Node.task = a.log.dequeued := by
  have hlinked : ∃ s, Run Linked.step any (Linked.start limit size junk next) as s ∧ s.pool = a ∧
      ∃ nodes, LinkedInv s nodes := by
    induction h with
    | nil => exact ⟨_, .nil, rfl, [], linkedInv_start limit size junk next⟩
    | @snoc as action a a' _ _ hs ih =>
      obtain ⟨s, hrun, rfl, nodes, hi⟩ := ih
      have hstep : s.step action = some (s.advance action a') := by rw [Linked.step, hs]; rfl
      have hpool : (s.advance action a').pool = a' := by
        unfold Linked.advance
        split <;> rfl
      exact ⟨_, hrun.snoc trivial hstep, hpool, linkedInv_step hi hstep⟩
  obtain ⟨s, hrun, rfl, nodes, hi⟩ := hlinked
  exact ⟨s, hrun, rfl, hi.safe, ⟨nodes, hi.holds.path, hi.holds.last, hi.tasks⟩, hi.size_eq, hi.taken⟩

/-- `queue_refines` where a worker has taken one of two tasks. -/
theorem queue_refines_two : ∃ s, Run Linked.step any (Linked.start 1 1 0 fun _ => some (.user 9))
      [.create true, .proceed, .enqueue (some (.user 3)), .enqueue (some (.user 4)), .work 0] s ∧
    s.fault = false ∧ Path s.next s.queue.first [.user 4] none ∧ s.taken.map Node.task = [.user 3] := by
  have hrun : ∃ a, exec step (start 1 1 0) [.create true, .proceed, .enqueue (some (.user 3)), .enqueue (some (.user 4)),
      .work 0] = some a ∧ a.queue = [.user 4] ∧ a.log.dequeued = [.user 3] := ⟨_, rfl, rfl, rfl⟩
  obtain ⟨a, hexec, hq, hd⟩ := hrun
  obtain ⟨s, hs, -, hfault, ⟨nodes, hpath, -, htasks⟩, -, htaken⟩ :=
    queue_refines (run_of_exec hexec) fun _ => some (.user 9)
  rw [hq] at htasks
  rw [hd] at htaken
  obtain ⟨n, rfl, hn⟩ := List.map_eq_singleton_iff.1 htasks
  cases n with
  | user id =>
    cases hn
    exact ⟨s, hs, hfault, hpath, htaken⟩
  | threadFinish k => cases hn

end SphSc.ThreadPool

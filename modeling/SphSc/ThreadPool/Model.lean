import Mathlib.Algebra.Group.Nat.Defs
import SphSc.Lib.Runs
/-!
# `thread-pool.c`

A pool, the threads that use it, and one step for each stretch of code that no
other thread can come between: a section under the mutex, a signal or broadcast
after it, a call that creates or joins a thread. Client threads call
`sph_thread_pool_enqueue` at any time. One thread makes the control calls
`sph_thread_pool_new`, `resize`, `finish` and `destroy`, one after the other,
and `Control` is where it is. After the pool is destroyed nothing is modelled.
-/

namespace SphSc.ThreadPool

/-- What is queued: a client's task, whose function returns, or a task whose
function is `sph_thread_finish`. -/
inductive Task where
  | user (id : Nat)
  | threadFinish
  deriving DecidableEq, Repr

/-- Where a worker is: about to lock the mutex, in `pthread_cond_wait`, in a
task's function, or gone. -/
inductive Worker where
  | awake
  | blocked
  | running (task : Task)
  | exited
  deriving DecidableEq, Repr

inductive Code where
  | ok
  | einval
  | ebusy
  | eagain
  | enomem
  /-- The error code of `pthread_create`. -/
  | notCreated
  deriving DecidableEq, Repr

/-- Control calls. `sph_thread_pool_finish` is `resize` to 0. -/
inductive Call where
  | new
  | resize (size : Nat) (noWait discardQueue : Bool)
  | destroy
  deriving DecidableEq, Repr

/-- The arguments of `sph_thread_pool_resize`, and whether it was
`sph_thread_pool_new` that called it, to end the workers it had created. -/
structure Frame where
  size : Nat
  noWait : Bool
  discardQueue : Bool
  cleanup : Bool
  deriving DecidableEq, Repr

/-- Where the control thread is. -/
inductive Control where
  | idle
  /-- It stored a handle past the end of `threads`. -/
  | overrun
  /-- In the loop of `new`. -/
  | creating (size i : Nat)
  /-- In the first loop of `resize`. -/
  | growing (f : Frame) (i : Nat) (code : Code)
  | requestShutdown (f : Frame)
  | broadcastShutdown (f : Frame)
  | discard (f : Frame)
  | broadcastDiscard (f : Frame)
  /-- In the loop that enqueues `sph_thread_finish` tasks. -/
  | shrink (f : Frame) (i : Nat)
  /-- In that loop, between the unlock and the signal of `enqueue`. -/
  | signal (f : Frame) (i : Nat)
  | join (f : Frame) (i : Nat)
  | setSize (f : Frame)
  | destroy (f : Frame)
  deriving DecidableEq, Repr

/-- What has happened, for the theorems to speak of. The code keeps no such record. -/
structure Log where
  /-- Tasks in the order in which they entered the queue: `enqueue` returns 0 for them. -/
  accepted : List Task
  /-- Clients' tasks for which `enqueue` returned `EBUSY`. -/
  refused : List Nat
  /-- Tasks in the order in which workers took them. -/
  dequeued : List Task
  /-- Clients' tasks whose function has returned. -/
  completed : List Nat
  deriving DecidableEq, Repr

/-- `sph_thread_pool_t` and the threads. `threads` has an entry for each slot
of the array, with the worker whose handle is in it. -/
structure Pool where
  queue : List Task
  accepting : Bool
  shutdown : Bool
  size : Nat
  threads : List (Option Nat)
  workers : List Worker
  /-- How many clients are between the unlock and the signal of `enqueue`. -/
  signals : Nat
  control : Control
  /-- The last control call that returned, until the next begins. -/
  returned : Option (Call × Code)
  destroyed : Bool
  log : Log
  deriving DecidableEq, Repr

namespace Pool

/-- `a->queue.size`, a `uint32_t`. -/
def queueSize (a : Pool) : Nat := a.queue.length % 2 ^ 32

/-- `sph_thread_pool_thread_limit` -/
def limit (a : Pool) : Nat := a.threads.length

def setWorker (a : Pool) (w : Nat) (s : Worker) : Pool := { a with workers := a.workers.set w s }

/-- `pthread_cond_broadcast` -/
def wakeAll (a : Pool) : Pool :=
  { a with workers := a.workers.map fun s => if s = .blocked then .awake else s }

/-- `pthread_cond_signal` wakes a blocked worker if there is one. -/
def wake (a : Pool) : (target : Option Nat) → Option Pool
  | none => if .blocked ∈ a.workers then none else some a
  | some w => if a.workers[w]? = some .blocked then some (a.setWorker w .awake) else none

/-- A thread is created, and its handle stored. -/
def spawn (a : Pool) (i : Nat) : Pool :=
  { a with threads := a.threads.set i (some a.workers.length), workers := a.workers ++ [.awake] }

def goto (a : Pool) (c : Control) : Pool := { a with control := c }

def ret (a : Pool) (call : Call) (code : Code) : Pool := { a with control := .idle, returned := some (call, code) }

/-- The section of `sph_thread_pool_enqueue` under the mutex, for a task that is
accepted. -/
def push (a : Pool) (t : Task) : Pool :=
  { a with queue := a.queue ++ [t], log := { a.log with accepted := a.log.accepted ++ [t] } }

end Pool

/-- What `resize` returns to: the caller, or the rest of `new`. -/
def Frame.ret (f : Frame) (a : Pool) (code : Code) : Pool :=
  if f.cleanup then a.ret .new .notCreated else a.ret (.resize f.size f.noWait f.discardQueue) code

/-- Where `resize` goes after the loop that enqueues `sph_thread_finish` tasks. -/
def Frame.afterShrink (f : Frame) : Control := if f.noWait then .setSize f else .join f f.size

def Frame.afterDiscard (f : Frame) : Control := if f.size = 0 then f.afterShrink else .shrink f f.size

def Frame.afterShutdown (f : Frame) : Control := if f.discardQueue then .discard f else f.afterDiscard

inductive Action where
  /-- The control thread calls `resize`, or `finish` where `size` is 0. -/
  | resize (size : Nat) (noWait discardQueue : Bool)
  | destroy
  /-- It calls `pthread_create`, with this outcome. -/
  | create (success : Bool)
  /-- It calls `malloc` for a `sph_thread_finish` task, and enqueues the task. -/
  | malloc (success : Bool)
  /-- It signals for that task. -/
  | signalFinish (target : Option Nat)
  /-- It takes any other step. -/
  | proceed
  /-- A client enqueues a task: all of the call but the signal. `none` is a null
  task, or one with a null function. -/
  | enqueue (task : Option Task)
  | signal (target : Option Nat)
  /-- A worker locks the mutex and goes on until it unlocks it or waits. -/
  | work (w : Nat)
  /-- The task's function returns, or exits the thread. -/
  | complete (w : Nat)
  /-- A worker wakes up without a signal. -/
  | wakeUp (w : Nat)
  deriving DecidableEq, Repr

namespace Pool

/-- The start of `resize`, up to its first call or section under the mutex. -/
def beginResize (a : Pool) (f : Frame) : Pool :=
  if a.limit < f.size then f.ret a .einval
  else if a.size < f.size then { a with control := .growing f a.size .ok, returned := none }
  else { a with control := if f.size = 0 then .requestShutdown f else f.afterShutdown, returned := none }

/-- A thread is created in the loop of `new` or of `resize`, or not, and then
what the slot holds is undefined. -/
def create (a : Pool) (success : Bool) : Option Pool :=
  match a.control with
  | .creating size i =>
    if size ≤ i then none
    else if success then some (if i < a.limit then (a.spawn i).goto (.creating size (i + 1)) else a.goto .overrun)
    else
      let a := { a with threads := a.threads.set i none }
      if 0 < i then some { a with size := i, control := .requestShutdown ⟨0, true, false, true⟩ }
      else some (a.ret .new .notCreated)
  | .growing f i code =>
    if f.size ≤ i then none
    else if success then some (if i < a.limit then (a.spawn i).goto (.growing f (i + 1) code) else a.goto .overrun)
    else some { a with threads := a.threads.set i none, size := i, control := .growing f f.size .eagain }
  | _ => none

def malloc (a : Pool) (success : Bool) : Option Pool :=
  match a.control with
  | .shrink f i =>
    if a.size ≤ i then none
    else if !success then some (f.ret a .enomem)
    else if a.accepting then some ((a.push .threadFinish).goto (.signal f i))
    else some (f.ret a .ebusy)
  | _ => none

def signalFinish (a : Pool) (target : Option Nat) : Option Pool :=
  match a.control with
  | .signal f i => (a.wake target).map (·.goto (.shrink f (i + 1)))
  | _ => none

/-- What `pthread_join` waits for. What it does with a slot that holds no handle
is undefined; here it returns. -/
def joinable (a : Pool) (i : Nat) : Bool :=
  match a.threads[i]? with
  | some (some w) => a.workers[w]? = some .exited
  | _ => true

/-- `sph_thread_pool_destroy` -/
def destroy (a : Pool) : Pool × Code :=
  if a.size ≠ 0 ∨ a.shutdown = false then (a, .ebusy) else ({ a with destroyed := true }, .ok)

def proceed (a : Pool) : Option Pool :=
  match a.control with
  | .creating size i => if i < size then none else some ({ a with size }.ret .new .ok)
  | .growing f i code =>
    if i < f.size then none else some (f.ret { a with accepting := true, shutdown := false, size := f.size } code)
  | .requestShutdown f => some { a with accepting := false, shutdown := true, control := .broadcastShutdown f }
  | .broadcastShutdown f => some (a.wakeAll.goto f.afterShutdown)
  | .discard f => some { a with queue := [], control := .broadcastDiscard f }
  | .broadcastDiscard f => some (a.wakeAll.goto f.afterDiscard)
  | .shrink f i => if i < a.size then none else some (a.goto f.afterShrink)
  | .join f i =>
    if i < a.size then if a.joinable i then some (a.goto (.join f (i + 1))) else none
    else some (a.goto (.setSize f))
  | .setSize f =>
    if f.noWait = false ∧ f.size = 0 then some { a with size := f.size, control := .destroy f }
    else some (f.ret { a with size := f.size } .ok)
  | .destroy f => some (f.ret a.destroy.1 .ok)
  | .idle | .overrun | .signal _ _ => none

/-- A task must not be in use when it is enqueued. -/
def unused (a : Pool) (t : Task) : Bool := t = .threadFinish || (t ∉ a.queue && .running t ∉ a.workers)

def enqueue (a : Pool) : (task : Option Task) → Option Pool
  | none => some a
  | some t =>
    if !a.unused t then none
    else if !a.accepting then
      match t with
      | .user id => some { a with log := { a.log with refused := a.log.refused ++ [id] } }
      | .threadFinish => some a
    else some { a.push t with signals := a.signals + 1 }

/-- A round of the loop of `sph_thread_pool_worker`, from the lock on. -/
def work (a : Pool) (w : Nat) : Option Pool :=
  if a.workers[w]? = some .awake then
    if a.queueSize = 0 then some (a.setWorker w (if a.shutdown then .exited else .blocked))
    else
      match a.queue with
      | t :: queue =>
        some { a.setWorker w (.running t) with queue, log := { a.log with dequeued := a.log.dequeued ++ [t] } }
      | [] => none
  else none

def complete (a : Pool) (w : Nat) : Option Pool :=
  match a.workers[w]? with
  | some (.running (.user id)) =>
    some { a.setWorker w .awake with log := { a.log with completed := a.log.completed ++ [id] } }
  | some (.running .threadFinish) => some (a.setWorker w .exited)
  | _ => none

end Pool

def step (a : Pool) (action : Action) : Option Pool :=
  if a.destroyed then none
  else
    match action with
    | .resize size noWait discardQueue =>
      if a.control = .idle then some (a.beginResize ⟨size, noWait, discardQueue, false⟩) else none
    | .destroy => if a.control = .idle then some (a.destroy.1.ret .destroy a.destroy.2) else none
    | .create success => a.create success
    | .malloc success => a.malloc success
    | .signalFinish target => a.signalFinish target
    | .proceed => a.proceed
    | .enqueue task => a.enqueue task
    | .signal target =>
      if a.signals = 0 then none else (a.wake target).map fun b => { b with signals := b.signals - 1 }
    | .work w => a.work w
    | .complete w => a.complete w
    | .wakeUp w => a.wake (some w)

/-- The start of `sph_thread_pool_new`, on memory that holds `junk` for the size. -/
def start (limit size junk : Nat) : Pool where
  queue := []
  accepting := true
  shutdown := false
  size := junk
  threads := List.replicate limit none
  workers := []
  signals := 0
  control := .creating size 0
  returned := none
  destroyed := false
  log := ⟨[], [], [], []⟩

end SphSc.ThreadPool

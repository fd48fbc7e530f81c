import SphSc.ThreadPool.Model
import Mathlib.Logic.Function.Basic
/-!
# `futures.c`

Future objects in memory, the pool `sph_futures_pool` that evaluates them, and
one step for each access that another thread can come between. A future is
named by its object, and its task in the pool has the same name. Any thread
calls `sph_future_new` and `sph_future_touch`. One thread calls
`sph_future_init`, and later `sph_future_deinit`; another pool after that is not
modelled. `F` is the type of functions
and `D` that of what a `void*` can point to: a function may return anything.
-/
open Runs

namespace SphSc.Futures

variable {F D : Type}

/-- `sph_future_t`. `data` is that of the task. -/
structure Future (F D : Type) where
  finished : Bool
  f : F
  data : D
  deriving DecidableEq, Repr

/-- Where a worker is in `sph_future_eval`. -/
inductive Eval where
  | entered
  /-- In the future's function. -/
  | applying
  /-- It has stored the result. -/
  | stored
  /-- It has set `finished`. -/
  | published
  deriving DecidableEq, Repr

/-- Where the thread that calls `sph_future_init` and `sph_future_deinit` is. -/
inductive Control where
  | init
  | idle
  | deinit
  deriving DecidableEq, Repr

/-- What has happened with a future, for the theorems to speak of. -/
structure Record (F D : Type) where
  /-- The arguments of `sph_future_new`. -/
  new : Option (F × D)
  /-- Functions applied, and to what. -/
  applied : List (F × D)
  /-- What they returned. -/
  results : List D
  /-- What `sph_future_touch` returned. -/
  touched : List D
  deriving DecidableEq, Repr

structure State (F D : Type) where
  pool : ThreadPool.Pool
  initialized : Bool
  control : Control
  objects : Nat → Future F D
  /-- By worker. -/
  evals : Nat → Eval
  /-- Futures whose `sph_future_new` has yet to enqueue the task. -/
  preparing : List Nat
  /-- Futures whose `sph_future_new` has done all but signal. -/
  prepared : List Nat
  /-- Futures that a thread in `sph_future_touch` has found finished and has yet to read. -/
  reading : List Nat
  record : Nat → Record F D
  /-- `prepared` when `sph_future_deinit` began to finish the pool. -/
  awaited : List Nat
  /-- Whether it has returned. -/
  deinited : Bool

inductive Action (F D : Type) where
  -- the thread that calls `sph_future_init` and `sph_future_deinit`
  | init
  | create (success : Bool)
  | proceed
  | initReturns
  | deinit
  | deinitReturns
  -- any thread
  | prepare (id : Nat) (f : F) (data : D)
  | enqueue (id : Nat)
  | signal (target : Option Nat)
  | poll (id : Nat)
  | read (id : Nat)
  -- workers
  | work (w : Nat)
  | apply (w : Nat)
  /-- The function returns, and the worker stores the result. -/
  | store (w : Nat) (result : D)
  | publish (w : Nat)
  | complete (w : Nat)
  | wakeUp (w : Nat)
  deriving DecidableEq, Repr

namespace State

variable (s : State F D)

/-- A step of the pool. -/
def poolStep (action : ThreadPool.Action) : Option (State F D) :=
  (ThreadPool.step s.pool action).map fun pool => { s with pool }

/-- The future that a worker evaluates. -/
def evaluated (w : Nat) : Option Nat :=
  match s.pool.workers[w]? with
  | some (.running (.user id)) => some id
  | _ => none

def setObject (id : Nat) (o : Future F D) : State F D := { s with objects := Function.update s.objects id o }

def setRecord (id : Nat) (r : Record F D) : State F D := { s with record := Function.update s.record id r }

def setEval (w : Nat) (e : Eval) : State F D := { s with evals := Function.update s.evals w e }

/-- `sph_future_init` while the pool exists. -/
def init : Option (State F D) := if s.control = .idle ∧ s.initialized then some s else none

/-- `sph_thread_pool_new` has returned. -/
def initReturns : Option (State F D) :=
  match s.control, s.pool.returned with
  | .init, some (.new, code) => some { s with initialized := code = .ok, control := .idle }
  | _, _ => none

/-- `sph_future_deinit`, up to where `sph_thread_pool_finish` begins. -/
def deinit : Option (State F D) :=
  if s.control = .idle then
    if s.initialized then
      (s.poolStep (.resize 0 false false)).map fun s => { s with control := .deinit, awaited := s.prepared }
    else some s
  else none

/-- `sph_thread_pool_finish` has returned. -/
def deinitReturns : Option (State F D) :=
  match s.control, s.pool.returned with
  | .deinit, some (.resize 0 false false, _) =>
    some { s with initialized := false, control := .idle, deinited := true }
  | _, _ => none

/-- `sph_future_new`, up to the call of `sph_thread_pool_enqueue`. -/
def prepare (id : Nat) (f : F) (data : D) : State F D :=
  { (s.setObject id ⟨false, f, data⟩).setRecord id { s.record id with new := some (f, data) } with
    preparing := s.preparing ++ [id] }

/-- That call. Nobody looks at what it returns. -/
def enqueue (id : Nat) : Option (State F D) :=
  if id ∈ s.preparing then
    (s.poolStep (.enqueue (some (.user id)))).map fun s =>
      { s with preparing := s.preparing.erase id, prepared := s.prepared ++ [id] }
  else none

/-- A round of the loop of `sph_future_touch`. -/
def poll (id : Nat) : State F D := if (s.objects id).finished then { s with reading := s.reading ++ [id] } else s

/-- What `sph_future_touch` returns. -/
def read (id : Nat) : Option (State F D) :=
  if id ∈ s.reading then
    let r := s.record id
    some { s.setRecord id { r with touched := r.touched ++ [(s.objects id).data] } with reading := s.reading.erase id }
  else none

/-- A task that a worker takes is a call of `sph_future_eval`. -/
def work (w : Nat) : Option (State F D) := (s.poolStep (.work w)).map (·.setEval w .entered)

def apply (w : Nat) : Option (State F D) :=
  match s.evaluated w, s.evals w with
  | some id, .entered =>
    let o := s.objects id
    let r := s.record id
    some ((s.setEval w .applying).setRecord id { r with applied := r.applied ++ [(o.f, o.data)] })
  | _, _ => none

def store (w : Nat) (result : D) : Option (State F D) :=
  match s.evaluated w, s.evals w with
  | some id, .applying =>
    let o := s.objects id
    let r := s.record id
    some (((s.setEval w .stored).setObject id { o with data := result }).setRecord id
      { r with results := r.results ++ [result] })
  | _, _ => none

def publish (w : Nat) : Option (State F D) :=
  match s.evaluated w, s.evals w with
  | some id, .stored => some ((s.setEval w .published).setObject id { s.objects id with finished := true })
  | _, _ => none

def complete (w : Nat) : Option (State F D) := if s.evals w = .published then s.poolStep (.complete w) else none

end State

def step (s : State F D) : Action F D → Option (State F D)
  | .init => s.init
  | .create success => s.poolStep (.create success)
  | .proceed => s.poolStep .proceed
  | .initReturns => s.initReturns
  | .deinit => s.deinit
  | .deinitReturns => s.deinitReturns
  | .prepare id f data => some (s.prepare id f data)
  | .enqueue id => s.enqueue id
  | .signal target => s.poolStep (.signal target)
  | .poll id => some (s.poll id)
  | .read id => s.read id
  | .work w => s.work w
  | .apply w => s.apply w
  | .store w result => s.store w result
  | .publish w => s.publish w
  | .complete w => s.complete w
  | .wakeUp w => s.poolStep (.wakeUp w)

/-- The first `sph_future_init` has called `sph_thread_pool_new`. -/
def start (limit size junk : Nat) (objects : Nat → Future F D) : State F D where
  pool := ThreadPool.start limit size junk
  initialized := false
  control := .init
  objects
  evals _ := .entered
  preparing := []
  prepared := []
  reading := []
  record _ := ⟨none, [], [], []⟩
  awaited := []
  deinited := false

end SphSc.Futures

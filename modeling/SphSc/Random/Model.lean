import SphSc.Lib.Exec
import SphSc.Lib.Words
/-!
# `random.c`

Doubles are of any type with the operations that are used on them. A function
that fills an array returns what it writes. `fuel` bounds the draws that
`sph_random_u64_bounded` may turn down.
-/
open Exec Words

namespace SphSc.Random

abbrev Word := BitVec 64

/-- `sph_random_state_t`, the words of `data`. -/
structure State where
  s0 : Word
  s1 : Word
  s2 : Word
  s3 : Word
  deriving DecidableEq, Repr

/-- What a round of `sph_random_state_new` makes of the seed. -/
def mix (z : Word) : Word :=
  let z := (z ^^^ (z >>> 30)) * 13787848793156543929
  let z := (z ^^^ (z >>> 27)) * 10723151780598845931
  z ^^^ (z >>> 31)

def stateNew (seed : Word) : State :=
  let seed0 := seed + 11400714819323198485
  let seed1 := seed0 + 11400714819323198485
  let seed2 := seed1 + 11400714819323198485
  let seed3 := seed2 + 11400714819323198485
  ⟨mix seed0, mix seed1, mix seed2, mix seed3⟩

def u64 (s : State) : Word × State :=
  let a := 9 * rotl (5 * s.s1) 7
  let t := s.s1 <<< 17
  let s := { s with s2 := s.s2 ^^^ s.s0 }
  let s := { s with s3 := s.s3 ^^^ s.s1 }
  let s := { s with s1 := s.s1 ^^^ s.s2 }
  let s := { s with s0 := s.s0 ^^^ s.s3 }
  let s := { s with s2 := s.s2 ^^^ t }
  let s := { s with s3 := rotl s.s3 45 }
  (a, s)

/-! ## Bounded draws -/

/-- The draw times the range, in `__uint128_t`. -/
def product (x range : Word) : BitVec 128 := x.setWidth 128 * range.setWidth 128

/-- The variable `t`, from which on the low half of a product is accepted. -/
def threshold (range : Word) : Word :=
  let t := -range
  if range ≤ t then
    let t := t - range
    if range ≤ t then t % range else t
  else t

/-- A round of `while (l < t)`. -/
def boundedRound (range t : Word) (s : BitVec 128 × State) : Exec (BitVec 128 × State ⊕ BitVec 128 × State) :=
  if s.1.setWidth 64 < t then
    let (x, state) := u64 s.2
    return .inl (product x range, state)
  else return .inr s

def u64Bounded (fuel : Nat) (range : Word) (state : State) : Exec (Word × State) := do
  let (x, state) := u64 state
  let m := product x range
  let l : Word := m.setWidth 64
  if l < range then
    let (m, state) ← loop (boundedRound range (threshold range)) fuel (m, state)
    return ((m >>> 64).setWidth 64, state)
  else return ((m >>> 64).setWidth 64, state)

def u32 (state : State) : BitVec 32 × State :=
  let (a, state) := u64 state
  ((a >>> 32).setWidth 32, state)

def u32Bounded (fuel : Nat) (range : BitVec 32) (state : State) : Exec (BitVec 32 × State) := do
  let (a, state) ← u64Bounded fuel (range.setWidth 64) state
  return (a.setWidth 32, state)

/-! ## Doubles -/

section
variable {F : Type} [Mul F] [Sub F] [OfNat F 1] [OfNat F 2] (f64FromU64 : Word → F)

def f64Bounded (range : F) (s : State) : F × State :=
  let a := s.s0 + s.s3
  let t := s.s1 <<< 17
  let s := { s with s2 := s.s2 ^^^ s.s0 }
  let s := { s with s3 := s.s3 ^^^ s.s1 }
  let s := { s with s1 := s.s1 ^^^ s.s2 }
  let s := { s with s0 := s.s0 ^^^ s.s3 }
  let s := { s with s2 := s.s2 ^^^ t }
  let s := { s with s3 := rotl s.s3 45 }
  (range * f64FromU64 a, s)

def f64 (state : State) : F × State :=
  let (a, state) := u64 state
  (f64FromU64 a, state)

def f641to1 (state : State) : F × State :=
  let (a, state) := f64Bounded f64FromU64 2 state
  (a - 1, state)

def f640to1 (state : State) : F × State := f64Bounded f64FromU64 1 state

/-! ## Arrays -/

/-- The loop of every function that fills an array. -/
def array {α : Type} (draw : State → Exec (α × State)) : (size : Nat) → State → Exec (List α × State)
  | 0, state => return ([], state)
  | size + 1, state => do
    let (a, state) ← draw state
    let (out, state) ← array draw size state
    return (a :: out, state)

def u64Array := array fun state => .ok (u64 state)

def u64BoundedArray (fuel : Nat) (range : Word) := array (u64Bounded fuel range)

def u32Array := array fun state => .ok (u32 state)

def u32BoundedArray (fuel : Nat) (range : BitVec 32) := array fun state => do
  let (a, state) ← u64Bounded fuel (range.setWidth 64) state
  return (a.setWidth 32, state)

def f64Array := array fun state => .ok (f64 f64FromU64 state)

def f64BoundedArray (range : F) := array fun state => .ok (f64Bounded f64FromU64 range state)

def f64Array1to1 := array fun state => .ok (f641to1 f64FromU64 state)

def f64Array0to1 := array fun state => .ok (f640to1 f64FromU64 state)

/-! ## Calls -/

/-- A call of one of the functions that draw. -/
inductive Call (F : Type) where
  | u64
  | u64Bounded (range : Word)
  | f64Bounded (range : F)
  | f64
  | u64Array (size : Nat)
  | u64BoundedArray (range : Word) (size : Nat)
  | f64Array (size : Nat)
  | f64BoundedArray (range : F) (size : Nat)
  | u32
  | u32Bounded (range : BitVec 32)
  | u32Array (size : Nat)
  | u32BoundedArray (range : BitVec 32) (size : Nat)
  | f641to1
  | f64Array1to1 (size : Nat)
  | f640to1
  | f64Array0to1 (size : Nat)

/-- The state that a call leaves. -/
def Call.run (fuel : Nat) : Call F → State → Exec State
  | .u64, s => .ok (Random.u64 s).2
  | .u64Bounded range, s => Prod.snd <$> Random.u64Bounded fuel range s
  | .f64Bounded range, s => .ok (Random.f64Bounded f64FromU64 range s).2
  | .f64, s => .ok (Random.f64 f64FromU64 s).2
  | .u64Array size, s => Prod.snd <$> Random.u64Array size s
  | .u64BoundedArray range size, s => Prod.snd <$> Random.u64BoundedArray fuel range size s
  | .f64Array size, s => Prod.snd <$> Random.f64Array f64FromU64 size s
  | .f64BoundedArray range size, s => Prod.snd <$> Random.f64BoundedArray f64FromU64 range size s
  | .u32, s => .ok (Random.u32 s).2
  | .u32Bounded range, s => Prod.snd <$> Random.u32Bounded fuel range s
  | .u32Array size, s => Prod.snd <$> Random.u32Array size s
  | .u32BoundedArray range size, s => Prod.snd <$> Random.u32BoundedArray fuel range size s
  | .f641to1, s => .ok (Random.f641to1 f64FromU64 s).2
  | .f64Array1to1 size, s => Prod.snd <$> Random.f64Array1to1 f64FromU64 size s
  | .f640to1, s => .ok (Random.f640to1 f64FromU64 s).2
  | .f64Array0to1 size, s => Prod.snd <$> Random.f64Array0to1 f64FromU64 size s

def runCalls (fuel : Nat) : List (Call F) → State → Exec State
  | [], s => .ok s
  | call :: calls, s => do
    let s ← call.run f64FromU64 fuel s
    runCalls fuel calls s

end

end SphSc.Random

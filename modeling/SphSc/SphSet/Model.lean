import SphSc.Lib.Exec
import SphSc.Lib.Keys
import SphSc.Capacity
/-!
# `set.h`

The functions `sph_set_declare_type` generates, for any value type. Which slots
are taken is a bit each in `occupied`. The value equal to `null` has no slot,
only the flag `nullable`; a pointer to it is `values` itself, slot 0.
-/
open Exec Ring

namespace SphSc.SphSet

/-- The arguments of `sph_set_declare_type`, and `sizeof(value_type)`. -/
structure Decl (E : Type) extends HashOps E where
  null : E
  sizeFactor : Nat
  sizeofValue : Nat

/-- `name##_t` -/
structure Table (E : Type) where
  size : Nat
  mask : Nat
  values : List E
  occupied : List Byte
  nullable : Byte

variable {E : Type}

def occupiedGet (bitmap : List Byte) (index : Nat) : Exec Byte := do
  let byte ← read bitmap (index >>> 3)
  return (byte >>> (index &&& 7)) &&& 1

def occupiedSet (bitmap : List Byte) (index : Nat) : Exec (List Byte) := do
  let byte ← read bitmap (index >>> 3)
  write bitmap (index >>> 3) (byte ||| (1#8 <<< (index &&& 7)))

def occupiedClear (bitmap : List Byte) (index : Nat) : Exec (List Byte) := do
  let byte ← read bitmap (index >>> 3)
  write bitmap (index >>> 3) (byte &&& ~~~(1#8 <<< (index &&& 7)))

def clear (a : Table E) : Exec (Table E) := do
  let bytes := wadd 7 a.size >>> 3
  let occupied ← fill a.occupied 0 bytes 0
  return { a with nullable := 0, occupied }

/-- The set with the status, and the requests made, the latest first. What
`malloc` returns holds arbitrary values `junk`. -/
def new (d : Decl E) (grants : Grants) (junk : Nat → E) (minSize : Nat) :
    Byte × Option (Table E) × List Request :=
  let size := calculateSize d.sizeFactor minSize
  let valueBytes := wmul size d.sizeofValue
  let rs := [.malloc valueBytes]
  if !grants rs then (1, none, rs) else
  let bytes := wadd size 7 >>> 3
  let rs := .calloc bytes 1 :: rs
  if !grants rs then (1, none, rs) else
  (0, some {
    size
    mask := wsub size 1
    values := (List.range (valueBytes / d.sizeofValue)).map junk
    occupied := List.replicate bytes 0
    nullable := 0 }, rs)

variable (d : Decl E)

/-- The loop of `get`; `remaining` is `a.size - j`. -/
def getLoop (a : Table E) (value : E) : (remaining i : Nat) → Exec (Option Nat)
  | 0, _ => return none
  | remaining + 1, i => do
    if (← occupiedGet a.occupied i) ≠ 0 then
      let v ← read a.values i
      if d.equal v value then return some i
      else getLoop a value remaining (wadd i 1 &&& a.mask)
    else return none

def get (a : Table E) (value : E) : Exec (Option Nat) :=
  if d.equal value d.null then return if a.nullable ≠ 0 then some 0 else none
  else getLoop d a value a.size (d.hash value a.size)

/-- What `add` stores into a free slot. -/
def put (a : Table E) (i : Nat) (value : E) : Exec (Table E) := do
  let values ← write a.values i value
  let occupied ← occupiedSet a.occupied i
  return { a with values, occupied }

/-- `occupied && equal(a->values[i], value)` -/
def holdsValue (a : Table E) (value : E) (i : Nat) : Exec Bool := do
  if (← occupiedGet a.occupied i) ≠ 0 then
    let v ← read a.values i
    return d.equal v value
  else return false

/-- The loop of `add`; `remaining` is `a->size - j`. -/
def addLoop (a : Table E) (value : E) : (remaining i : Nat) → Exec (Table E × Option Nat)
  | 0, _ => return (a, none)
  | remaining + 1, i => do
    let occupied ← occupiedGet a.occupied i
    if ← holdsValue d a value i then return (a, some i)
    else if occupied = 0 then
      let a ← put a i value
      return (a, some i)
    else addLoop a value remaining (wadd i 1 &&& a.mask)

def add (a : Table E) (value : E) : Exec (Table E × Option Nat) :=
  if d.equal value d.null then return ({ a with nullable := 1 }, some 0)
  else addLoop d a value a.size (d.hash value a.size)

/-- A round of the first loop of `remove`: go on at the next index, give up,
or leave with the index of the value. -/
def findRound (a : Table E) (value : E) (i : Nat) : Exec (Nat ⊕ Option Nat) := do
  if (← occupiedGet a.occupied i) = 0 then return .inr none
  else
    let v ← read a.values i
    if d.equal v value then return .inr (some i)
    else return .inl (wadd i 1 &&& a.mask)

/-- A round of the second loop of `remove`, on the set, `i` and `j`. -/
def shiftRound (s : Table E × Nat × Nat) : Exec ((Table E × Nat × Nat) ⊕ Table E) := do
  let (a, i, j) := s
  let i := wadd i 1 &&& a.mask
  if (← occupiedGet a.occupied i) = 0 then
    let occupied ← occupiedClear a.occupied j
    return .inr { a with occupied }
  else
    let v ← read a.values i
    let h := d.hash v a.size
    let dj := wsub j h &&& a.mask
    let di := wsub i h &&& a.mask
    if dj ≤ di then
      let values ← write a.values j v
      return .inl ({ a with values }, i, i)
    else return .inl (a, i, j)

def remove (fuel : Nat) (a : Table E) (value : E) : Exec (Byte × Table E) := do
  if d.equal value d.null then
    if a.nullable = 0 then return (1, a)
    else return (0, { a with nullable := 0 })
  else
    match ← loop (findRound d a value) fuel (d.hash value a.size) with
    | none => return (1, a)
    | some i =>
      let a ← loop (shiftRound d) fuel (a, i, i)
      return (0, a)

/-! ## Calls on a set -/

inductive Call (E : Type) where
  | get (value : E)
  | add (value : E)
  | remove (value : E)
  | clear

inductive Reply where
  /-- A pointer, as the slot it points to. -/
  | pointer (p : Option Nat)
  | status (s : Byte)
  | done
  deriving DecidableEq

def call (fuel : Nat) (a : Table E) : Call E → Exec (Table E × Reply)
  | .get value => do
    let p ← get d a value
    return (a, .pointer p)
  | .add value => do
    let (a, p) ← add d a value
    return (a, .pointer p)
  | .remove value => do
    let (s, a) ← remove d fuel a value
    return (a, .status s)
  | .clear => do
    let a ← clear a
    return (a, .done)

/-- Finitely many calls on `a`, each of which returned, with their replies. -/
inductive Run (a : Table E) : List (Call E × Reply) → Table E → Prop
  | nil : Run a [] a
  | call {es a' a'' c r} (fuel : Nat) : Run a es a' → call d fuel a' c = .ok (a'', r) → Run a (es ++ [(c, r)]) a''

end SphSc.SphSet

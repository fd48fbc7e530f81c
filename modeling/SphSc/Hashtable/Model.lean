import SphSc.Lib.Exec
import SphSc.Lib.Keys
import SphSc.Capacity
/-!
# `hashtable.h`

The functions `sph_hashtable_declare_type` generates, for any key and value
type. A table is passed by value and owns three blocks, so a function that
changes it returns the changed table. Pointers into `values` are slot indices.
-/
open Exec Ring

namespace SphSc.Hashtable

def empty : Byte := 0
def full : Byte := 1

/-- The arguments of `sph_hashtable_declare_type`. Of the types, `sizeof` and
the key that zeroed memory holds matter. -/
structure Decl (K V : Type) extends HashOps K where
  sizeFactor : Nat
  sizeofKey : Nat
  sizeofValue : Nat
  zeroKey : K

/-- `name##_t` -/
structure Table (K V : Type) where
  size : Nat
  mask : Nat
  flags : List Byte
  keys : List K
  values : List V

variable {K V : Type}

/-- The table with the status, and the requests made, the latest first. What
`malloc` returns holds arbitrary values `junk`. -/
def new (d : Decl K V) (grants : Grants) (junk : Nat → V) (minimumSize : Nat) :
    Byte × Option (Table K V) × List Request :=
  let n := calculateSize d.sizeFactor minimumSize
  let rs := [.calloc n 1]
  if !grants rs then (1, none, rs) else
  let rs := .calloc n d.sizeofKey :: rs
  if !grants rs then (1, none, rs) else
  let bytes := wmul n d.sizeofValue
  let rs := .malloc bytes :: rs
  if !grants rs then (1, none, rs) else
  (0, some {
    size := n
    mask := wsub n 1
    flags := List.replicate n 0
    keys := List.replicate n d.zeroKey
    values := (List.range (bytes / d.sizeofValue)).map junk }, rs)

def clear (a : Table K V) : Exec (Table K V) := do
  let flags ← fill a.flags 0 a.size empty
  return { a with flags }

variable (d : Decl K V)

/-- `a.flags[index] == full && equal(a.keys[index], key)` -/
def holdsKey (a : Table K V) (key : K) (index : Nat) : Exec Bool := do
  if (← read a.flags index) = full then
    let k ← read a.keys index
    return d.equal k key
  else return false

/-- The loop of `get`; `remaining` is `table_size - steps`. -/
def getLoop (a : Table K V) (key : K) : (remaining index : Nat) → Exec (Option Nat)
  | 0, _ => return none
  | remaining + 1, index => do
    if (← read a.flags index) = empty then return none
    else if ← holdsKey d a key index then return some index
    else getLoop a key remaining (wadd index 1 &&& a.mask)

def get (a : Table K V) (key : K) : Exec (Option Nat) :=
  getLoop d a key a.size (d.hash key a.size)

/-- What `set` stores into a free slot. -/
def put (a : Table K V) (index : Nat) (key : K) (value : V) : Exec (Table K V) := do
  let flags ← write a.flags index full
  let keys ← write a.keys index key
  let values ← write a.values index value
  return { a with flags, keys, values }

/-- The loop of `set`; `remaining` is `table_size - steps`. -/
def setLoop (a : Table K V) (key : K) (value : V) : (remaining index : Nat) → Exec (Table K V × Option Nat)
  | 0, _ => return (a, none)
  | remaining + 1, index => do
    if ← holdsKey d a key index then return (a, some index)
    else if (← read a.flags index) ≠ full then
      let a ← put a index key value
      return (a, some index)
    else setLoop a key value remaining (wadd index 1 &&& a.mask)

def set (a : Table K V) (key : K) (value : V) : Exec (Table K V × Option Nat) :=
  setLoop d a key value a.size (d.hash key a.size)

/-- A round of the first loop of `remove`: go on at the next index, give up,
or leave with the index of the key. -/
def findRound (a : Table K V) (key : K) (index : Nat) : Exec (Nat ⊕ Option Nat) := do
  if (← read a.flags index) ≠ full then return .inr none
  else
    let k ← read a.keys index
    if d.equal k key then return .inr (some index)
    else return .inl (wadd index 1 &&& a.mask)

/-- A round of the second loop of `remove`, on the table, `index` and `hole_index`. -/
def shiftRound (s : Table K V × Nat × Nat) : Exec ((Table K V × Nat × Nat) ⊕ Table K V) := do
  let (a, index, hole) := s
  let index := wadd index 1 &&& a.mask
  if (← read a.flags index) ≠ full then
    let flags ← write a.flags hole empty
    return .inr { a with flags }
  else
    let k ← read a.keys index
    let home := d.hash k a.size
    let distanceHole := wsub hole home &&& a.mask
    let distanceIndex := wsub index home &&& a.mask
    if distanceHole ≤ distanceIndex then
      let keys ← write a.keys hole k
      let v ← read a.values index
      let values ← write a.values hole v
      return .inl ({ a with keys, values }, index, index)
    else return .inl (a, index, hole)

def remove (fuel : Nat) (a : Table K V) (key : K) : Exec (Byte × Table K V) := do
  match ← loop (findRound d a key) fuel (d.hash key a.size) with
  | none => return (1, a)
  | some index =>
    let a ← loop (shiftRound d) fuel (a, index, index)
    return (0, a)

/-! ## Calls on a table -/

inductive Call (K V : Type) where
  | get (key : K)
  | set (key : K) (value : V)
  | remove (key : K)
  | clear

inductive Reply (V : Type) where
  /-- A pointer, as the value it designates. -/
  | value (v : Option V)
  | status (s : Byte)
  | done
  deriving DecidableEq

/-- The value a returned pointer designates. -/
def deref (a : Table K V) : Option Nat → Exec (Option V)
  | none => return none
  | some index => do
    let v ← read a.values index
    return some v

def call (fuel : Nat) (a : Table K V) : Call K V → Exec (Table K V × Reply V)
  | .get key => do
    let v ← deref a (← get d a key)
    return (a, .value v)
  | .set key value => do
    let (a, p) ← set d a key value
    let v ← deref a p
    return (a, .value v)
  | .remove key => do
    let (s, a) ← remove d fuel a key
    return (a, .status s)
  | .clear => do
    let a ← clear a
    return (a, .done)

/-- Finitely many calls on `a`, each of which returned, with their replies. -/
inductive Run (a : Table K V) : List (Call K V × Reply V) → Table K V → Prop
  | nil : Run a [] a
  | call {es a' a'' c r} (fuel : Nat) : Run a es a' → call d fuel a' c = .ok (a'', r) → Run a (es ++ [(c, r)]) a''

end SphSc.Hashtable

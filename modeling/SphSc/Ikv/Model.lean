import SphSc.Ikv.Keys
import SphSc.Lib.Lines
/-!
# `ikv.c`: writing and reading tables

`ikv_write_file_direct` and `ikv_read_indent`. Files are their bytes. Tables
share their blocks with what points to them, so they are known by their number
among all tables. `malloc` succeeds.
-/
open Exec Lines

namespace SphSc.Ikv

open Hashtable

def newline : Byte := 10
def space : Byte := 32

/-- `ikv_max_nesting` -/
def maxNesting : Nat := 8

/-- `ikv_s_id_full` -/
def idFull : Nat := 3

/-- An array of integers, floats or strings. -/
inductive Leaf (F : Type) where
  | integers (data : List Nat)
  | floats (data : List F)
  | strings (data : List (List Byte))
  deriving DecidableEq

/-- `ikv_value_t` -/
inductive Value (F : Type) where
  | leaf (a : Leaf F)
  | ikv (table : Nat)
  deriving DecidableEq

abbrev Tables (F : Type) := List (Table Key (Value F))

variable {F : Type}

/-! ## The writer -/

section
variable (formatFloat : F → List Byte)

/-- `fprintf(file, "%ju", n)` -/
def formatInteger (n : Nat) : List Byte := (Nat.toDigits 10 n).map fun c => BitVec.ofNat 8 c.toNat

/-- The loops over an array; `formatFloat` is what `"%f"` prints. -/
def writeLeaf : Leaf F → List Byte
  | .integers data => data.flatMap fun n => space :: formatInteger n
  | .floats data => data.flatMap fun x => space :: formatFloat x
  | .strings data => data.flatMap fun s => space :: cstring s

variable (nested : Nat → Exec (List Byte))

/-- What is written after a key, where `nested` writes a table. -/
def writeValue : Value F → Exec (List Byte)
  | .leaf a => return writeLeaf formatFloat a ++ [newline]
  | .ikv table => do
    let text ← nested table
    return newline :: text

/-- The loop of `ikv_write_file_direct`; `remaining` is `a.size - i`. -/
def writeLoop (a : Table Key (Value F)) (nesting : Nat) : (remaining i : Nat) → Exec (List Byte)
  | 0, _ => return []
  | remaining + 1, i => do
    if (← read a.flags i) = 0 then writeLoop a nesting remaining (i + 1)
    else
      let key ← read a.keys i
      let b ← read a.values i
      let text ← writeValue formatFloat nested b
      let rest ← writeLoop a nesting remaining (i + 1)
      return List.replicate (2 * nesting) space ++ cstring key ++ text ++ rest

end

/-- `ikv_write_file_direct`. `depth` bounds how deep tables are nested. -/
def writeFileDirect (formatFloat : F → List Byte) (tables : Tables F) : (depth a nesting : Nat) → Exec (List Byte)
  | 0, _, _ => .error .outOfFuel
  | depth + 1, a, nesting => do
    let t ← read tables a
    let nested := fun b => writeFileDirect formatFloat tables depth b ((nesting + 1) % 256)
    writeLoop formatFloat nested t nesting t.size 0

/-! ## The reader -/

/-- `status_t` -/
structure Status where
  id : Nat
  group : String

/-- The hash of strings, `read_value` on the rest of a line, and what new memory holds. -/
structure Reader (F : Type) where
  hash : List Byte → Nat → Nat
  readValue : List Byte → Exec (Status × Value F)
  junkByte : Nat → Byte
  junkValue : Nat → Value F

/-- `ikv` with the hash of the reader. -/
def Reader.decl (r : Reader F) : Decl Key (Value F) :=
  rehash (Ikv.decl (Value F)) fun key size => r.hash (cstring key) size

/-- The variables of `ikv_read_indent` and the tables there are. What was not
set holds `none`. -/
structure State (F : Type) where
  tables : Tables F
  status : Status
  key : Option Key
  nestedKeys : List (Option Key)
  nestedIkvs : List (Option Nat)

/-- `while (i < size && ' ' == line[i])`; `remaining` is `size - i`. -/
def skipIndent (line : List Byte) : (remaining i : Nat) → Exec Nat
  | 0, i => return i
  | remaining + 1, i => do
    if (← read line i) = space then skipIndent line remaining (i + 1)
    else return i

/-- The loop that looks for the end of the key, if it gets there. -/
def findKeyEnd (line : List Byte) : (remaining i : Nat) → Exec (Option Nat)
  | 0, _ => return none
  | remaining + 1, i => do
    if (← read line i) = space ∨ i = line.length - 1 then return some (if i = line.length - 1 then i + 1 else i)
    else findKeyEnd line remaining (i + 1)

/-- The new block with the key that ends at `i`. -/
def copyKey (junk : Nat → Byte) (line : List Byte) (nesting i : Nat) : Exec Key := do
  let key := (List.range (i - 2 * nesting + 1)).map junk
  let key ← memcpy key (line.drop (2 * nesting)) (i - 2 * nesting)
  write key i 0

variable (r : Reader F)

/-- `ikv_set(nested_ikvs[nesting], key, value)`, with the status if it fails. -/
def setNested (s : State F) (nesting : Nat) (key : Option Key) (value : Value F) : Exec (State F) := do
  let some a ← read s.nestedIkvs nesting | .error .outOfBounds
  let some key := key | .error .outOfBounds
  let t ← read s.tables a
  let (t, p) ← Hashtable.set r.decl t key value
  let tables ← write s.tables a t
  return { s with tables, status := if p = none then ⟨idFull, "ikv"⟩ else s.status }

/-- What is done with a key; `i` is where the text after it starts. -/
def readEntry (s : State F) (line : List Byte) (nesting i : Nat) : Exec (State F) := do
  if i = line.length then
    match new r.decl (fun _ => true) r.junkValue 100 with
    | (_, some t, _) =>
      let nestedIkvs ← write s.nestedIkvs (nesting + 1) (some s.tables.length)
      let status := { s.status with id := 0 }
      setNested r { s with tables := s.tables ++ [t], status, nestedIkvs } nesting s.key (.ikv s.tables.length)
    | (id, none, _) => return { s with status := { s.status with id := id.toNat } }
  else
    let (status, value) ← r.readValue (line.drop i)
    if status.id ≠ 0 then return { s with status }
    else
      let key ← read s.nestedKeys nesting
      setNested r { s with status } nesting key value

/-- A round of the loop over the lines. -/
def readLine (s : State F) (line : List Byte) : Exec (State F) := do
  let line := cstring line
  if line.length = 0 then return s
  else
    let line := if (← read line (line.length - 1)) = newline then line.take (line.length - 1) else line
    let i ← skipIndent line line.length 0
    let nesting := i / 2 % 256
    match ← findKeyEnd line (line.length - i) i with
    | none => readEntry r s line nesting i
    | some i =>
      let key ← copyKey r.junkByte line nesting i
      let nestedKeys ← write s.nestedKeys nesting (some key)
      readEntry r { s with key := some key, nestedKeys } line nesting i

def readLines : State F → List (List Byte) → Exec (State F)
  | s, [] => return s
  | s, line :: rest => do
    let s ← readLine r s line
    if s.status.id ≠ 0 then return s else readLines s rest

/-- `ikv_read_indent`, into a table that is then number 0. -/
def readIndent (file : List Byte) (ikv : Table Key (Value F)) : Exec (Status × Tables F) := do
  let s ← readLines r
    { tables := [ikv]
      status := ⟨0, ""⟩
      key := none
      nestedKeys := List.replicate maxNesting none
      nestedIkvs := some 0 :: List.replicate (maxNesting - 1) none } (lines newline file)
  return (s.status, s.tables)

end SphSc.Ikv

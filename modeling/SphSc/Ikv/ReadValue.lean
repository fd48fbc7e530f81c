import SphSc.Ikv.Model
import SphSc.Lib.Numerals
import SphSc.Lib.Tokens
/-!
# `ikv.c`: reading arrays

`ikv_read_value` reads what follows a key on its line. It looks at the first
number for the type, makes an array of as many elements as there are spaces,
and then fills it. `strtod` is a parameter.
-/
open Exec Ring Numerals

namespace SphSc.Ikv

def dot : Byte := 46

/-- `ikv_s_id_memory` -/
def idMemory : Nat := 2

/-- A string that was read: the bytes asked for, those copied to their start,
and the index at which a NUL was stored. -/
structure Str where
  room : Nat
  copied : List Byte
  nul : Nat
  deriving DecidableEq

/-- What is in memory from the start of the string on, where `junk` was before. -/
def Str.contents (s : Str) (junk : Nat → Byte) (i : Nat) : Byte :=
  if i = s.nul then 0 else s.copied.getD i (junk i)

/-- `value->data` for each type. What was not stored is `none`. -/
inductive Data (F : Type) where
  | integers (slots : List (Option Nat))
  | floats (slots : List (Option F))
  | strings (slots : List (Option Str))
  deriving DecidableEq

/-- `ikv_value_t` -/
structure ArrayValue (F : Type) where
  size : Nat
  data : Data F
  deriving DecidableEq

/-- The cases of `value->type`. -/
inductive Detected where
  | integers
  | floats
  | strings
  deriving DecidableEq

/-- The loop that looks for a decimal point in the first number. -/
def findDot : List Byte → Detected
  | [] => .integers
  | c :: rest => if c = dot then .floats else if c = space then .integers else findDot rest

/-- The format of a line, which a NUL ends. -/
def detect (line : List Byte) : Exec Detected := do
  if isDigit (← read (line ++ [0]) 1) then return findDot (line.drop 2)
  else return .strings

/-! ## Strings -/

/-- `i_start`, `value_i`, the array and the requests for memory. -/
structure StringState where
  iStart : Nat
  valueI : Nat
  slots : List (Option Str)
  requests : List Request

/-- The loop that looks for the end of a token; `remaining` is `size - i`. -/
def findTokenEnd (line : List Byte) : (remaining i : Nat) → Exec (Option Nat)
  | 0, _ => return none
  | remaining + 1, i => do
    if (← read line i) = space ∨ i = line.length - 1 then return some (if i = line.length - 1 then i + 1 else i)
    else findTokenEnd line remaining (i + 1)

/-- A round of the loop over the strings, which ends early with `none` where
there is no memory. -/
def stringRound (grants : Grants) (line : List Byte) (s : StringState) :
    Exec (StringState ⊕ Option (List (Option Str))) := do
  if s.iStart < line.length - 1 then
    if (← read line s.iStart) = space then
      let iStart := s.iStart + 1
      match ← findTokenEnd line (line.length - iStart) iStart with
      | none => return .inl { s with iStart := iStart + 1 }
      | some i =>
        let room := wmul (i - iStart + 1) 8
        let requests := .malloc room :: s.requests
        if !grants requests then return .inr none
        else
          let string := { room, copied := (line.drop iStart).take (i - iStart), nul := wsub iStart i }
          let slots ← write s.slots s.valueI (some string)
          return .inl { iStart := iStart + 1, valueI := s.valueI + 1, slots, requests }
    else return .inl { s with iStart := s.iStart + 1 }
  else return .inr (some s.slots)

/-! ## Numbers -/

/-- `i`, `value_i` and the array. -/
structure NumberState (V : Type) where
  i : Nat
  valueI : Nat
  slots : List (Option V)

/-- A round of the loop over the numbers. -/
def numberRound {V : Type} (p : Numeral V) (line : List Byte) (s : NumberState V) :
    Exec (NumberState V ⊕ List (Option V)) := do
  if s.i < line.length - 1 then
    if (← read line s.i) = space then
      let (value, taken) := p.strto (line.drop (s.i + 1))
      let slots ← write s.slots s.valueI (some value)
      return .inl { i := s.i + 1 + taken, valueI := s.valueI + 1, slots }
    else return .inl { s with i := s.i + 1 }
  else return .inr s.slots

/-- A `long` in an `ikv_integer_t`. -/
def toInteger (n : Int) : Nat := (n % 2 ^ 64).toNat

def integer : Numeral Nat := strtol.map toInteger

/-- `calloc(count, 8)`, which refuses a product that overflows. -/
def callocGrants (grants : Grants) (count : Nat) : Bool := count * 8 < word ∧ grants [.calloc count 8]

/-- `ikv_memory_error` -/
def memoryError : Status := ⟨idMemory, "ikv"⟩

section
variable {F : Type} (strtod : Numeral F)

/-- `ikv_read_value`, with the value if it was read. Each round of the loops
gets further in the line. -/
def readArray (grants : Grants) (line : List Byte) : Exec (Status × Option (ArrayValue F)) := do
  let type ← detect line
  let count := line.count space
  match type with
  | .strings =>
    let requests := [.malloc (wmul count 8)]
    if !grants requests then return (memoryError, none)
    else
      let slots := List.replicate (wmul count 8 / 8) none
      match ← loop (stringRound grants line) line.length ⟨0, 0, slots, requests⟩ with
      | none => return (memoryError, none)
      | some slots => return (⟨0, ""⟩, some ⟨count, .strings slots⟩)
  | .integers =>
    if !callocGrants grants count then return (memoryError, none)
    else
      let slots ← loop (numberRound integer line) line.length ⟨0, 0, List.replicate count none⟩
      return (⟨0, ""⟩, some ⟨count, .integers slots⟩)
  | .floats =>
    if !callocGrants grants count then return (memoryError, none)
    else
      let slots ← loop (numberRound strtod line) line.length ⟨0, 0, List.replicate count none⟩
      return (⟨0, ""⟩, some ⟨count, .floats slots⟩)

end

end SphSc.Ikv

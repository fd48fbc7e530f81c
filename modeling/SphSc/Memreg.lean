import SphSc.Lib.Exec
import Mathlib.Algebra.Group.Nat.Defs
import Mathlib.Logic.Function.Basic
/-!
# `memreg.h`

A local array of pointers to free, and how many there are. An entry of a
`memreg2` register is an address with the handler that frees it. A scope holds
the registers of the named variants by their names.
-/
open Exec

namespace SphSc.Memreg

variable {A : Type}

/-- `memreg_register` and `memreg_index` -/
structure Register (A : Type) where
  register : List A
  index : Nat

/-- The number of values of `unsigned int`. -/
def wordInt : Nat := 2 ^ 32

/-- `memreg_init`. The array holds anything at first, `junk`. -/
def init (junk : Nat → A) (registerSize : Nat) : Register A where
  register := (List.range registerSize).map junk
  index := 0

/-- `memreg_add` -/
def add (a : Register A) (entry : A) : Exec (Register A) := do
  let register ← write a.register a.index entry
  return { register, index := (a.index + 1) % wordInt }

/-- The loop of `memreg_free`, with the entries it frees, in this order. -/
def freeLoop (register : List A) : (index : Nat) → Exec (List A)
  | 0 => return []
  | index + 1 => do
    let entry ← read register index
    let rest ← freeLoop register index
    return entry :: rest

/-- `memreg_free` -/
def free (a : Register A) : Exec (Register A × List A) := do
  let freed ← freeLoop a.register a.index
  return ({ a with index := 0 }, freed)

inductive Call (A : Type) where
  | add (entry : A)
  | free

/-- Calls on a register, with what each `free` freed. -/
def calls : Register A → List (Call A) → Exec (Register A × List (List A))
  | a, [] => return (a, [])
  | a, .add entry :: cs => do
    let a ← add a entry
    calls a cs
  | a, .free :: cs => do
    let (a, freed) ← free a
    let (a, rest) ← calls a cs
    return (a, freed :: rest)

/-- What was added since the last `free`, the latest first. There is room for `size` entries. -/
def Spec.run (size : Nat) : (pending : List A) → List (Call A) → Option (List A × List (List A))
  | pending, [] => some (pending, [])
  | pending, .add entry :: cs => if pending.length < size then run size (entry :: pending) cs else none
  | pending, .free :: cs => (run size [] cs).map fun r => (r.1, pending :: r.2)

/-- The entries stand in the register in the order they were added in. -/
structure Holds (size : Nat) (a : Register A) (pending : List A) : Prop where
  index : a.index = pending.length
  register : a.register.take pending.length = pending.reverse
  length : a.register.length = size

variable {size : Nat} {a : Register A} {pending : List A} {junk : Nat → A}

theorem holds_init (junk : Nat → A) (size : Nat) : Holds size (init junk size) [] where
  index := rfl
  register := rfl
  length := by simp [init]

theorem Holds.add (h : Holds size a pending) (hsize : size < wordInt) (hroom : pending.length < size) (entry : A) :
    ∃ a', Memreg.add a entry = .ok a' ∧ Holds size a' (entry :: pending) := by
  have hlt : a.index < a.register.length := by rw [h.index, h.length]; exact hroom
  refine ⟨⟨a.register.set a.index entry, (a.index + 1) % wordInt⟩, ?_, ?_, ?_, ?_⟩
  · rw [Memreg.add, write_of_lt entry hlt]
    rfl
  · rw [Nat.mod_eq_of_lt (by rw [h.index]; omega), h.index, List.length_cons]
  · rw [List.length_cons, List.reverse_cons, ← h.register, h.index, List.take_succ_eq_append_getElem (by simpa [h.length]),
      List.take_set_of_le (Nat.le_refl _), List.getElem_set_self]
  · rw [List.length_set, h.length]

theorem Holds.full (h : Holds size a pending) (hfull : ¬ pending.length < size) (entry : A) :
    Memreg.add a entry = .error .outOfBounds := by
  rw [Memreg.add, write, if_neg (by rwa [h.index, h.length])]
  rfl

/-- From the last entry to the first. -/
theorem freeLoop_eq (register : List A) {n : Nat} (hn : n ≤ register.length) :
    freeLoop register n = .ok (register.take n).reverse := by
  induction n with
  | zero => rfl
  | succ n ih =>
    rw [freeLoop, read_of_lt (by omega), ok_bind, ih (by omega), ok_bind, List.take_succ_eq_append_getElem (by omega),
      List.reverse_append]
    rfl

theorem Holds.free (h : Holds size a pending) (hle : pending.length ≤ size) :
    Memreg.free a = .ok ({ a with index := 0 }, pending) ∧ Holds size { a with index := 0 } [] := by
  refine ⟨?_, rfl, rfl, h.length⟩
  rw [Memreg.free, freeLoop_eq a.register (by rw [h.index, h.length]; exact hle), ok_bind, h.index, h.register,
    List.reverse_reverse]
  rfl

theorem calls_eq (hsize : size < wordInt) (cs : List (Call A)) (h : Holds size a pending) (hle : pending.length ≤ size) :
    (Spec.run size pending cs = none ∧ calls a cs = .error .outOfBounds) ∨
      ∃ a' pending' freed, Spec.run size pending cs = some (pending', freed) ∧ calls a cs = .ok (a', freed) ∧
        Holds size a' pending' := by
  induction cs generalizing a pending with
  | nil => exact .inr ⟨a, pending, [], rfl, rfl, h⟩
  | cons c cs ih =>
    cases c with
    | add entry =>
      by_cases hroom : pending.length < size
      · obtain ⟨a', hadd, h'⟩ := h.add hsize hroom entry
        rw [Spec.run, if_pos hroom, calls, hadd, ok_bind]
        exact ih h' hroom
      · rw [Spec.run, if_neg hroom, calls, h.full hroom]
        exact .inl ⟨rfl, rfl⟩
    | free =>
      obtain ⟨hfree, h'⟩ := h.free hle
      rw [Spec.run, calls, hfree]
      rcases ih h' (Nat.zero_le size) with ⟨hnone, herror⟩ | ⟨a', pending', freed, hsome, hok, hholds⟩
      · refine .inl ⟨by rw [hnone]; rfl, ?_⟩
        simp only [ok_bind, herror]
        rfl
      · refine .inr ⟨a', pending', pending :: freed, by rw [hsome]; rfl, ?_, hholds⟩
        simp only [ok_bind, hok]
        rfl

/-- As long as there is room for what is registered, each `free` frees what was added since the
last one, once and the latest first. One entry more is stored past the register. -/
theorem frees_registered (junk : Nat → A) (hsize : size < wordInt) (cs : List (Call A)) :
    (Spec.run size [] cs = none ∧ calls (init junk size) cs = .error .outOfBounds) ∨
      ∃ a pending freed, Spec.run size [] cs = some (pending, freed) ∧ calls (init junk size) cs = .ok (a, freed) ∧
        Holds size a pending :=
  calls_eq hsize cs (holds_init junk size) (Nat.zero_le size)

/-- Two pointers, freed, and another one. -/
theorem frees_registered_two :
    (Spec.run 2 [] [.add 5, .add 6, .free, .add 7] = none ∧
      calls (init (fun _ => 0) 2) [.add 5, .add 6, .free, .add 7] = .error .outOfBounds) ∨
      ∃ a pending freed, Spec.run 2 [] [.add 5, .add 6, .free, .add 7] = some (pending, freed) ∧
        calls (init (fun _ => 0) 2) [.add 5, .add 6, .free, .add 7] = .ok (a, freed) ∧ Holds 2 a pending :=
  frees_registered (fun _ => 0) (by decide) [.add 5, .add 6, .free, .add 7]

/-! ## Registers by name -/

section
variable {Name Address Handler : Type} [DecidableEq Name]

def initNamed (registers : Name → Register A) (junk : Nat → A) (registerId : Name) (registerSize : Nat) :
    Name → Register A :=
  Function.update registers registerId (init junk registerSize)

def addNamed (registers : Name → Register A) (registerId : Name) (address : A) : Exec (Name → Register A) := do
  let a ← add (registers registerId) address
  return Function.update registers registerId a

def freeNamed (registers : Name → Register A) (registerId : Name) : Exec ((Name → Register A) × List A) := do
  let (a, freed) ← free (registers registerId)
  return (Function.update registers registerId a, freed)

/-- `memreg2_t` -/
structure Memreg2 (Address Handler : Type) where
  address : Address
  handler : Handler

/-- `memreg2_init_named` -/
def init2Named (registers : Name → Register (Memreg2 Address Handler)) (junk : Nat → Memreg2 Address Handler)
    (registerId : Name) (registerSize : Nat) : Name → Register (Memreg2 Address Handler) :=
  initNamed registers junk registerId registerSize

/-- `memreg2_add_named` -/
def add2Named (registers : Name → Register (Memreg2 Address Handler)) (registerId : Name) (address : Address)
    (handler : Handler) : Exec (Name → Register (Memreg2 Address Handler)) :=
  addNamed registers registerId ⟨address, handler⟩

/-- `memreg2_free_named`, with the addresses it passes to their handlers. -/
def free2Named (registers : Name → Register (Memreg2 Address Handler)) (registerId : Name) :
    Exec ((Name → Register (Memreg2 Address Handler)) × List (Memreg2 Address Handler)) :=
  freeNamed registers registerId

/-- Calls on registers by their names, with what each `free` freed, and of which. -/
def namedCalls : (Name → Register A) → List (Name × Call A) → Exec ((Name → Register A) × List (Name × List A))
  | registers, [] => return (registers, [])
  | registers, (registerId, .add address) :: cs => do
    let registers ← addNamed registers registerId address
    namedCalls registers cs
  | registers, (registerId, .free) :: cs => do
    let (registers, freed) ← freeNamed registers registerId
    let (registers, rest) ← namedCalls registers cs
    return (registers, (registerId, freed) :: rest)

/-- What belongs to a name. -/
def named {B : Type} (registerId : Name) (xs : List (Name × B)) : List B :=
  xs.filterMap fun x => if x.1 = registerId then some x.2 else none

/-- A register is what the calls on it make of it. -/
theorem namedCalls_register {registers registers' : Name → Register A} {cs : List (Name × Call A)}
    {freed : List (Name × List A)} (h : namedCalls registers cs = .ok (registers', freed)) (registerId : Name) :
    calls (registers registerId) (named registerId cs) = .ok (registers' registerId, named registerId freed) := by
  induction cs generalizing registers freed with
  | nil =>
    cases h
    rfl
  | cons c cs ih =>
    obtain ⟨id, call⟩ := c
    cases call with
    | add address =>
      obtain ⟨registers₁, hadd, h⟩ := bind_eq_ok.1 h
      obtain ⟨a, ha, hadd⟩ := bind_eq_ok.1 hadd
      cases hadd
      by_cases hid : id = registerId
      · subst hid
        have hih := ih h
        rw [Function.update_self] at hih
        simp only [named, List.filterMap_cons, if_true] at hih ⊢
        rw [calls, ha]
        exact hih
      · have hih := ih h
        rw [Function.update_of_ne (Ne.symm hid)] at hih
        simpa only [named, List.filterMap_cons, if_neg hid] using hih
    | free =>
      obtain ⟨⟨registers₁, freed₁⟩, hfree, h⟩ := bind_eq_ok.1 h
      obtain ⟨⟨a, freed₂⟩, ha, hfree⟩ := bind_eq_ok.1 hfree
      cases hfree
      obtain ⟨⟨registers₂, rest⟩, hrest, h⟩ := bind_eq_ok.1 h
      cases h
      by_cases hid : id = registerId
      · subst hid
        have hih := ih hrest
        rw [Function.update_self] at hih
        simp only [named, List.filterMap_cons, if_true] at hih ⊢
        rw [calls, ha, ok_bind]
        simp only [hih, ok_bind]
        rfl
      · have hih := ih hrest
        rw [Function.update_of_ne (Ne.symm hid)] at hih
        simpa only [named, List.filterMap_cons, if_neg hid] using hih

/-- A register's frees are of what was added to it, whatever is done with the others. -/
theorem frees_named {registers registers' : Name → Register A} {registerId : Name} (junk : Nat → A)
    (hsize : size < wordInt) {cs : List (Name × Call A)} {freed : List (Name × List A)}
    (h : namedCalls (initNamed registers junk registerId size) cs = .ok (registers', freed)) :
    ∃ pending, Spec.run size [] (named registerId cs) = some (pending, named registerId freed) ∧
      Holds size (registers' registerId) pending := by
  have hcalls := namedCalls_register h registerId
  rw [initNamed, Function.update_self] at hcalls
  rcases calls_eq hsize (named registerId cs) (holds_init junk size) (Nat.zero_le size) with
    ⟨-, herror⟩ | ⟨a, pending, freed', hsome, hok, hholds⟩
  · rw [herror] at hcalls
    cases hcalls
  · rw [hok] at hcalls
    cases hcalls
    exact ⟨pending, hsome, hholds⟩

example : (do
    let registers := init2Named (fun _ : Bool => ⟨[], 0⟩) (fun _ => ⟨0, 'a'⟩) true 2
    let registers ← add2Named registers true 5 'b'
    let registers ← add2Named registers true 6 'c'
    let (_, freed) ← free2Named registers true
    return freed) = .ok [⟨6, 'c'⟩, ⟨5, 'b'⟩] := rfl

end

end SphSc.Memreg

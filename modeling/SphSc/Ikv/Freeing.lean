import SphSc.Hashtable.Slots
import SphSc.Ikv.Keys
/-!
# `ikv.c`: freeing tables

`ikv_free_all` and `ikv_write_file_direct` go through a table and the tables
nested in it. `ikv_write_file_direct` skips the slots that are not occupied.
`ikv_free_all` tests whether there are flags at all, and frees what the value
of any slot looks like. Here values are what is in memory, whether set or not.
-/
open Exec

namespace SphSc.Ikv

open Hashtable

def typeIkv : Byte := 1
def typeIntegers : Byte := 2
def typeFloats : Byte := 3
def typeStrings : Byte := 4

/-- `ikv_value_t`, with any byte for its type. `data` is a pointer. -/
structure RawValue where
  type : Byte
  size : Nat
  data : Nat

/-- What pointers to tables and to arrays of strings lead to. -/
structure Heap where
  tables : Nat → Option (Table Key RawValue)
  /-- The blocks of the table at a pointer, of its flags, keys and values, which `ikv_free` frees. -/
  arrays : Nat → List Nat
  strings : Nat → Option (List Nat)

/-- `*p` -/
def follow {α : Type} (blocks : Nat → Option α) (p : Nat) : Exec α :=
  match blocks p with
  | some a => .ok a
  | none => .error .outOfBounds

/-- A slot, as the slots on the way to it and its index, with the blocks its value consists of. -/
structure Slot where
  path : List Nat
  blocks : List Nat
  deriving DecidableEq

/-- The slots of a table nested in slot `i`. -/
def under (i : Nat) (slots : List Slot) : List Slot := slots.map fun s => { s with path := i :: s.path }

section
variable (heap : Heap) (nested : Table Key RawValue → Exec (List Slot))

/-- The strings of `b` and the array. -/
def stringBlocks (b : RawValue) : Exec (List Nat) := do
  let strings ← follow heap.strings b.data
  let strings ← (List.range b.size).mapM fun j => read strings j
  return strings ++ [b.data]

/-- The branches on the type of `b`, which frees and writes have in common.
`other` is for values of no type. -/
def valueSlots (i : Nat) (b : RawValue) (other : List Slot) : Exec (List Slot) := do
  if b.type = typeIntegers ∨ b.type = typeFloats then return [⟨[i], [b.data]⟩]
  else if b.type = typeStrings then
    let blocks ← stringBlocks heap b
    return [⟨[i], blocks⟩]
  else if b.type = typeIkv then
    let t ← follow heap.tables b.data
    let slots ← nested t
    return ⟨[i], heap.arrays b.data⟩ :: under i slots
  else return other

/-- A round of the loop of `ikv_free_all`: what it frees. `a.flags` is not null. -/
def freeSlot (a : Table Key RawValue) (i : Nat) : Exec (List Slot) := do
  let b ← read a.values i
  valueSlots heap nested i b []

/-- A round of the loop of `ikv_write_file_direct`: what it writes. -/
def writeSlot (a : Table Key RawValue) (i : Nat) : Exec (List Slot) := do
  if (← read a.flags i) = 0 then return []
  else
    let b ← read a.values i
    valueSlots heap nested i b [⟨[i], []⟩]

end

/-- The rounds from `i` on; `remaining` is `a.size - i`. -/
def overSlots (round : Nat → Exec (List Slot)) : (remaining i : Nat) → Exec (List Slot)
  | 0, _ => return []
  | remaining + 1, i => do
    let slots ← round i
    let rest ← overSlots round remaining (i + 1)
    return slots ++ rest

/-- The slots whose values `ikv_free_all` frees. `depth` bounds how deep tables are nested. -/
def freeAll (heap : Heap) : (depth : Nat) → Table Key RawValue → Exec (List Slot)
  | 0, _ => .error .outOfFuel
  | depth + 1, a => overSlots (freeSlot heap (freeAll heap depth) a) a.size 0

/-- The slots whose values `ikv_write_file_direct` writes. -/
def writtenSlots (heap : Heap) : (depth : Nat) → Table Key RawValue → Exec (List Slot)
  | 0, _ => .error .outOfFuel
  | depth + 1, a => overSlots (writeSlot heap (writtenSlots heap depth) a) a.size 0

/-- What is freed is what the table holds, and no block is freed twice. -/
def FreesHeld (heap : Heap) (depth : Nat) (a : Table Key RawValue) : Prop :=
  ∃ slots, freeAll heap depth a = .ok slots ∧ writtenSlots heap depth a = .ok slots ∧
    (slots.flatMap Slot.blocks).Nodup

/-- The types for which `ikv_free_all` frees. -/
def RawValue.Typed (b : RawValue) : Prop :=
  b.type = typeIkv ∨ b.type = typeIntegers ∨ b.type = typeFloats ∨ b.type = typeStrings

/-- In the table and those nested in it, what the slots that are not occupied
hold does not look like a value. -/
def Clean (heap : Heap) : (depth : Nat) → Table Key RawValue → Prop
  | 0, _ => True
  | depth + 1, a =>
    (∀ i : Nat, a.flags[i]? = some empty → ∃ b, a.values[i]? = some b ∧ ¬ b.Typed) ∧
      ∀ (i : Nat) b t, a.flags[i]? = some full → a.values[i]? = some b → b.type = typeIkv →
        heap.tables b.data = some t → Clean heap depth t

/-- The blocks of a value, but for those of a table's values. -/
def RawValue.blocks (heap : Heap) (b : RawValue) : List Nat :=
  if b.type = typeIntegers ∨ b.type = typeFloats then [b.data]
  else if b.type = typeStrings then ((heap.strings b.data).getD []).take b.size ++ [b.data]
  else if b.type = typeIkv then heap.arrays b.data
  else []

/-- The blocks of the value in a slot that is occupied, where `nested` gives those
of a table's values. -/
def slotBlocks (heap : Heap) (nested : Table Key RawValue → List Nat) (a : Table Key RawValue) (i : Nat) : List Nat :=
  match a.flags[i]?, a.values[i]? with
  | some flag, some b =>
    if flag = empty then []
    else b.blocks heap ++ if b.type = typeIkv then ((heap.tables b.data).map nested).getD [] else []
  | _, _ => []

/-- The blocks of all values that a table and those nested in it hold. They are
different where no two values share one. -/
def heldBlocks (heap : Heap) : (depth : Nat) → Table Key RawValue → List Nat
  | 0, _ => []
  | depth + 1, a => (List.range a.size).flatMap (slotBlocks heap (heldBlocks heap depth) a)

/-- An array of numbers, an array of strings or a table with `P`. -/
def RawValue.Valid (heap : Heap) (P : Table Key RawValue → Prop) (b : RawValue) : Prop :=
  b.type = typeIntegers ∨ b.type = typeFloats ∨
    (b.type = typeStrings ∧ ∃ strings, heap.strings b.data = some strings ∧ b.size ≤ strings.length) ∨
    (b.type = typeIkv ∧ ∃ t, heap.tables b.data = some t ∧ P t)

/-- Tables after any calls, where what the occupied slots hold is valid. -/
def Reachable (hash : Key → Nat → Nat) (heap : Heap) : (depth : Nat) → Table Key RawValue → Prop
  | 0, _ => False
  | depth + 1, a =>
    (∃ grants junk minimumSize t rs es, new (rehash (decl RawValue) hash) grants junk minimumSize = (0, some t, rs) ∧
      Run (rehash (decl RawValue) hash) t es a) ∧
    ∀ (i : Nat) b, a.flags[i]? = some full → a.values[i]? = some b → b.Valid heap (Reachable hash heap depth)

/-! ## Slots of different values -/

/-- All the slots are slot `i` or nested in it. -/
def StartsWith (i : Nat) (slots : List Slot) : Prop := ∀ s ∈ slots, s.path.head? = some i

theorem startsWith_under (i : Nat) (slots : List Slot) : StartsWith i (under i slots) := by
  intro s hs
  obtain ⟨s', -, rfl⟩ := List.mem_map.1 hs
  rfl

theorem startsWith_single (i : Nat) (blocks : List Nat) : StartsWith i [⟨[i], blocks⟩] := by
  intro s hs
  rw [List.mem_singleton.1 hs]
  rfl

theorem startsWith_table (i : Nat) (blocks : List Nat) (slots : List Slot) :
    StartsWith i (⟨[i], blocks⟩ :: under i slots) := by
  intro s hs
  rcases List.mem_cons.1 hs with rfl | hs
  · rfl
  · exact startsWith_under i slots s hs

section
variable {heap : Heap} {nested : Table Key RawValue → Exec (List Slot)} {a : Table Key RawValue} {i : Nat}

theorem valueSlots_starts {b : RawValue} {other slots : List Slot} (hother : StartsWith i other)
    (h : valueSlots heap nested i b other = .ok slots) : StartsWith i slots := by
  unfold valueSlots at h
  split at h
  · cases h
    exact startsWith_single i _
  split at h
  · obtain ⟨blocks, -, h⟩ := bind_eq_ok.1 h
    cases h
    exact startsWith_single i _
  split at h
  · obtain ⟨t, -, h⟩ := bind_eq_ok.1 h
    obtain ⟨slots, -, h⟩ := bind_eq_ok.1 h
    cases h
    exact startsWith_table i _ slots
  · cases h
    exact hother

theorem freeSlot_starts {slots : List Slot} (h : freeSlot heap nested a i = .ok slots) : StartsWith i slots := by
  obtain ⟨b, -, h⟩ := bind_eq_ok.1 h
  exact valueSlots_starts (fun _ hs => by cases hs) h

theorem writeSlot_starts {slots : List Slot} (h : writeSlot heap nested a i = .ok slots) : StartsWith i slots := by
  obtain ⟨f, -, h⟩ := bind_eq_ok.1 h
  split at h
  · cases h
    exact fun _ hs => by cases hs
  · obtain ⟨b, -, h⟩ := bind_eq_ok.1 h
    exact valueSlots_starts (startsWith_single i []) h

end

section
variable {round round' : Nat → Exec (List Slot)}

/-- The first indexes tell the rounds apart. -/
theorem overSlots_starts (hround : ∀ i slots, round i = .ok slots → StartsWith i slots) {remaining i : Nat}
    {slots : List Slot} (h : overSlots round remaining i = .ok slots) :
    ∀ s ∈ slots, ∃ j, i ≤ j ∧ s.path.head? = some j := by
  induction remaining generalizing i slots with
  | zero =>
    cases h
    exact fun _ hs => by cases hs
  | succ remaining ih =>
    obtain ⟨first, hfirst, h⟩ := bind_eq_ok.1 h
    obtain ⟨rest, hrest, h⟩ := bind_eq_ok.1 h
    cases h
    intro s hs
    rcases List.mem_append.1 hs with hs | hs
    · exact ⟨i, Nat.le_refl i, hround i first hfirst s hs⟩
    · obtain ⟨j, hj, hhead⟩ := ih hrest s hs
      exact ⟨j, by omega, hhead⟩

/-- What the round at `i` gives, picked out of what all rounds from `i` on give. -/
theorem filter_first (hround : ∀ i slots, round i = .ok slots → StartsWith i slots) {remaining i : Nat}
    {first rest : List Slot} (hfirst : round i = .ok first) (hrest : overSlots round remaining (i + 1) = .ok rest) :
    (first ++ rest).filter (fun s => s.path.head? = some i) = first := by
  have hkeep : first.filter (fun s => s.path.head? = some i) = first := by
    apply List.filter_eq_self.2
    intro s hs
    simpa using hround i first hfirst s hs
  have hdrop : rest.filter (fun s => s.path.head? = some i) = [] := by
    apply List.filter_eq_nil_iff.2
    intro s hs
    obtain ⟨j, hj, hhead⟩ := overSlots_starts hround hrest s hs
    simp only [hhead, Option.some.injEq, decide_eq_true_eq]
    omega
  rw [List.filter_append, hkeep, hdrop, List.append_nil]

/-- Two loops give the same slots exactly if their rounds do. -/
theorem overSlots_same_iff (hround : ∀ i slots, round i = .ok slots → StartsWith i slots)
    (hround' : ∀ i slots, round' i = .ok slots → StartsWith i slots) (remaining i : Nat) :
    (∃ slots, overSlots round remaining i = .ok slots ∧ overSlots round' remaining i = .ok slots) ↔
      ∀ j, i ≤ j → j < i + remaining → ∃ slots, round j = .ok slots ∧ round' j = .ok slots := by
  induction remaining generalizing i with
  | zero =>
    constructor
    · intro _ j hij hj
      omega
    · intro _
      exact ⟨[], rfl, rfl⟩
  | succ remaining ih =>
    constructor
    · rintro ⟨slots, h, h'⟩ j hij hj
      obtain ⟨first, hfirst, h⟩ := bind_eq_ok.1 h
      obtain ⟨rest, hrest, h⟩ := bind_eq_ok.1 h
      obtain ⟨first', hfirst', h'⟩ := bind_eq_ok.1 h'
      obtain ⟨rest', hrest', h'⟩ := bind_eq_ok.1 h'
      cases h
      have heq : first' ++ rest' = first ++ rest := Except.ok.inj h'
      have hsame : first' = first := by
        rw [← filter_first hround' hfirst' hrest', heq, filter_first hround hfirst hrest]
      subst hsame
      obtain rfl := List.append_cancel_left heq
      rcases Nat.eq_or_lt_of_le hij with rfl | hlt
      · exact ⟨first', hfirst, hfirst'⟩
      · exact (ih (i + 1)).1 ⟨rest', hrest, hrest'⟩ j hlt (by omega)
    · intro h
      obtain ⟨first, hfirst, hfirst'⟩ := h i (Nat.le_refl i) (by omega)
      obtain ⟨rest, hrest, hrest'⟩ := (ih (i + 1)).2 fun j hij hj => h j (by omega) (by omega)
      refine ⟨first ++ rest, ?_, ?_⟩
      · simp only [overSlots, hfirst, hrest, ok_bind, pure_eq_ok]
      · simp only [overSlots, hfirst', hrest', ok_bind, pure_eq_ok]

end

section
variable {heap : Heap} {nested nested' : Table Key RawValue → Exec (List Slot)} {a : Table Key RawValue} {i : Nat}

/-- Something is freed for a value that looks like one. -/
theorem valueSlots_typed {b : RawValue} (hb : b.Typed) : valueSlots heap nested i b [] ≠ .ok [] := by
  intro h
  unfold valueSlots at h
  split at h
  · cases h
  split at h
  · obtain ⟨blocks, -, h⟩ := bind_eq_ok.1 h
    cases h
  split at h
  · obtain ⟨t, -, h⟩ := bind_eq_ok.1 h
    obtain ⟨slots, -, h⟩ := bind_eq_ok.1 h
    cases h
  · rename_i hnumber hstrings hikv
    rcases hb with hb | hb | hb | hb
    · exact hikv hb
    · exact hnumber (.inl hb)
    · exact hnumber (.inr hb)
    · exact hstrings hb

theorem valueSlots_untyped {b : RawValue} (hb : ¬ b.Typed) : valueSlots heap nested i b [] = .ok [] := by
  simp only [RawValue.Typed, not_or] at hb
  obtain ⟨hikv, hintegers, hfloats, hstrings⟩ := hb
  unfold valueSlots
  rw [if_neg (by simp [hintegers, hfloats]), if_neg hstrings, if_neg hikv]
  rfl

/-- At a slot that is not occupied. -/
theorem same_empty (hflag : a.flags[i]? = some empty) :
    (∃ slots, freeSlot heap nested a i = .ok slots ∧ writeSlot heap nested' a i = .ok slots) ↔
      ∃ b, a.values[i]? = some b ∧ ¬ b.Typed := by
  have hwrite : writeSlot heap nested' a i = .ok [] := by
    unfold writeSlot
    rw [read_eq_ok.2 hflag]
    rfl
  constructor
  · rintro ⟨slots, hfree, h⟩
    rw [hwrite] at h
    cases h
    obtain ⟨b, hb, hfree⟩ := bind_eq_ok.1 hfree
    exact ⟨b, read_eq_ok.1 hb, fun hty => valueSlots_typed hty hfree⟩
  · rintro ⟨b, hb, hty⟩
    refine ⟨[], ?_, hwrite⟩
    unfold freeSlot
    rw [read_eq_ok.2 hb, ok_bind]
    exact valueSlots_untyped hty

theorem mapM_read_ok {strings : List Nat} {indexes : List Nat} (h : ∀ j ∈ indexes, j < strings.length) :
    ∃ blocks, indexes.mapM (fun j => read strings j) = .ok blocks := by
  induction indexes with
  | nil => exact ⟨[], rfl⟩
  | cons j indexes ih =>
    have hj := h j List.mem_cons_self
    obtain ⟨blocks, hblocks⟩ := ih fun j hj => h j (List.mem_cons_of_mem _ hj)
    refine ⟨strings[j] :: blocks, ?_⟩
    rw [List.mapM_cons, read_of_lt hj, ok_bind, hblocks]
    rfl

theorem stringBlocks_ok {b : RawValue} {strings : List Nat} (h : heap.strings b.data = some strings)
    (hsize : b.size ≤ strings.length) : ∃ blocks, stringBlocks heap b = .ok blocks := by
  obtain ⟨blocks, hblocks⟩ : ∃ blocks, (List.range b.size).mapM (fun j => read strings j) = .ok blocks :=
    mapM_read_ok fun j hj => Nat.lt_of_lt_of_le (List.mem_range.1 hj) hsize
  refine ⟨blocks ++ [b.data], ?_⟩
  simp only [stringBlocks, follow, h, ok_bind, hblocks, pure_eq_ok]

theorem RawValue.Valid.table {P : Table Key RawValue → Prop} {b : RawValue} (h : b.Valid heap P)
    (htype : b.type = typeIkv) : ∃ t, heap.tables b.data = some t := by
  rcases h with h | h | ⟨h, -⟩ | ⟨-, t, ht, -⟩
  · exact absurd (htype.symm.trans h) (by decide)
  · exact absurd (htype.symm.trans h) (by decide)
  · exact absurd (htype.symm.trans h) (by decide)
  · exact ⟨t, ht⟩

/-- What holds no table is one value. -/
theorem valueSlots_flat {P : Table Key RawValue → Prop} {b : RawValue} (hvalid : b.Valid heap P)
    (hne : b.type ≠ typeIkv) : ∃ slots, ∀ nested other, valueSlots heap nested i b other = .ok slots := by
  unfold valueSlots
  rcases hvalid with htype | htype | ⟨htype, strings, hstrings, hsize⟩ | ⟨htype, -⟩
  · exact ⟨_, fun _ _ => if_pos (.inl htype)⟩
  · exact ⟨_, fun _ _ => if_pos (.inr htype)⟩
  · have hnumber : ¬ (b.type = typeIntegers ∨ b.type = typeFloats) := by
      rw [htype]
      decide
    obtain ⟨blocks, hblocks⟩ := stringBlocks_ok hstrings hsize
    refine ⟨[⟨[i], blocks⟩], fun _ _ => ?_⟩
    rw [if_neg hnumber, if_pos htype, hblocks]
    rfl
  · exact absurd htype hne

theorem valueSlots_table {b : RawValue} {t : Table Key RawValue} (htype : b.type = typeIkv)
    (ht : heap.tables b.data = some t) (other : List Slot) :
    valueSlots heap nested i b other = nested t >>= fun slots => .ok (⟨[i], heap.arrays b.data⟩ :: under i slots) := by
  have hnumber : ¬ (b.type = typeIntegers ∨ b.type = typeFloats) := by
    rw [htype]
    decide
  have hstrings : ¬ b.type = typeStrings := by
    rw [htype]
    decide
  have hfollow : follow heap.tables b.data = .ok t := by simp only [follow, ht]
  unfold valueSlots
  rw [if_neg hnumber, if_neg hstrings, if_pos htype, hfollow, ok_bind]
  rfl

theorem under_injective (i : Nat) : Function.Injective (under i) := by
  apply List.map_injective_iff.2
  rintro ⟨path, blocks⟩ ⟨path', blocks'⟩ h
  simpa using h

/-- At an occupied slot. -/
theorem same_full {P : Table Key RawValue → Prop} {b : RawValue} (hflag : a.flags[i]? = some full)
    (hb : a.values[i]? = some b) (hvalid : b.Valid heap P) :
    (∃ slots, freeSlot heap nested a i = .ok slots ∧ writeSlot heap nested' a i = .ok slots) ↔
      ∀ t, b.type = typeIkv → heap.tables b.data = some t →
        ∃ slots, nested t = .ok slots ∧ nested' t = .ok slots := by
  have hfree : freeSlot heap nested a i = valueSlots heap nested i b [] := by
    unfold freeSlot
    rw [read_eq_ok.2 hb, ok_bind]
  have hwrite : writeSlot heap nested' a i = valueSlots heap nested' i b [⟨[i], []⟩] := by
    have hfull : full ≠ 0 := by decide
    unfold writeSlot
    rw [read_eq_ok.2 hflag, ok_bind, if_neg hfull, read_eq_ok.2 hb, ok_bind]
  rw [hfree, hwrite]
  by_cases htype : b.type = typeIkv
  · obtain ⟨t, ht⟩ : ∃ t, heap.tables b.data = some t := hvalid.table htype
    rw [valueSlots_table htype ht, valueSlots_table htype ht]
    constructor
    · rintro ⟨slots, hnested, hnested'⟩ t' - ht'
      obtain rfl : t = t' := Option.some.inj (ht.symm.trans ht')
      obtain ⟨inner, hinner, hnested⟩ := bind_eq_ok.1 hnested
      obtain ⟨inner', hinner', hnested'⟩ := bind_eq_ok.1 hnested'
      cases hnested
      have hunder : under i inner' = under i inner := (List.cons.inj (Except.ok.inj hnested')).2
      exact ⟨inner, hinner, by rw [hinner', under_injective i hunder]⟩
    · intro h
      obtain ⟨slots, hslots, hslots'⟩ := h t htype ht
      exact ⟨⟨[i], heap.arrays b.data⟩ :: under i slots, by rw [hslots, ok_bind], by rw [hslots', ok_bind]⟩
  · obtain ⟨slots, hslots⟩ := @valueSlots_flat heap i P b hvalid htype
    rw [hslots, hslots]
    exact ⟨fun _ t h => absurd h htype, fun _ => ⟨slots, rfl, rfl⟩⟩

end

theorem same_iff {hash : Key → Nat → Nat} {heap : Heap} {depth : Nat} {a : Table Key RawValue}
    (h : Reachable hash heap depth a) :
    (∃ slots, freeAll heap depth a = .ok slots ∧ writtenSlots heap depth a = .ok slots) ↔ Clean heap depth a := by
  induction depth generalizing a with
  | zero => cases h
  | succ depth ih =>
    obtain ⟨⟨grants, junk, minimumSize, t, rs, es, hnew, hrun⟩, hvalid⟩ := h
    have hslots := (Slotted.of_new hnew).run hrun
    have hnested : ∀ (i : Nat) b, a.flags[i]? = some full → a.values[i]? = some b → ∀ t, b.type = typeIkv →
        heap.tables b.data = some t → Reachable hash heap depth t := by
      intro i b hflag hb t htype ht
      rcases hvalid i b hflag hb with h | h | ⟨h, -⟩ | ⟨-, t', ht', hreach⟩
      · exact absurd (h.symm.trans htype) (by decide)
      · exact absurd (h.symm.trans htype) (by decide)
      · exact absurd (h.symm.trans htype) (by decide)
      · rw [ht] at ht'
        cases ht'
        exact hreach
    unfold freeAll writtenSlots Clean
    rw [overSlots_same_iff (fun _ _ => freeSlot_starts) (fun _ _ => writeSlot_starts)]
    constructor
    · intro hsame
      have hslot : ∀ (i : Nat) f, a.flags[i]? = some f → i < 0 + a.size := by
        intro i f hf
        rw [Nat.zero_add, ← hslots.flags]
        exact (List.getElem?_eq_some_iff.1 hf).1
      refine ⟨?_, ?_⟩
      · intro i hi
        exact (same_empty hi).1 (hsame i (Nat.zero_le i) (hslot i _ hi))
      · intro i b t hi hb htype ht
        exact (ih (hnested i b hi hb t htype ht)).1
          ((same_full hi hb (hvalid i b hi hb)).1 (hsame i (Nat.zero_le i) (hslot i _ hi)) t htype ht)
    · rintro ⟨hempty, hfull⟩ i - hi
      have hlt : i < a.flags.length := by
        rw [hslots.flags]
        omega
      rcases hslots.flag _ (List.getElem_mem hlt) with hflag | hflag
      · have hflag : a.flags[i]? = some empty := by rw [List.getElem?_eq_getElem hlt, hflag]
        exact (same_empty hflag).2 (hempty i hflag)
      · have hflag : a.flags[i]? = some full := by rw [List.getElem?_eq_getElem hlt, hflag]
        have hb := List.getElem?_eq_getElem (hslots.value i hflag)
        refine (same_full hflag hb (hvalid i _ hflag hb)).2 ?_
        intro t htype ht
        exact (ih (hnested i _ hflag hb t htype ht)).2 (hfull i _ t hflag hb htype ht)

/-! ## Blocks -/

theorem under_blocks (i : Nat) (slots : List Slot) : (under i slots).flatMap Slot.blocks = slots.flatMap Slot.blocks := by
  rw [under, List.flatMap_map]

theorem mapM_read_eq {strings indexes blocks : List Nat} (h : indexes.mapM (fun j => read strings j) = .ok blocks) :
    blocks = indexes.filterMap fun j => strings[j]? := by
  induction indexes generalizing blocks with
  | nil =>
    cases h
    rfl
  | cons j indexes ih =>
    rw [List.mapM_cons] at h
    obtain ⟨x, hx, h⟩ := bind_eq_ok.1 h
    obtain ⟨rest, hrest, h⟩ := bind_eq_ok.1 h
    cases h
    rw [List.filterMap_cons, read_eq_ok.1 hx, ih hrest]

theorem filterMap_range (strings : List Nat) (n : Nat) :
    (List.range n).filterMap (fun j => strings[j]?) = strings.take n := by
  induction n with
  | zero => simp
  | succ n ih =>
    rw [List.range_succ, List.filterMap_append, ih, List.take_add_one]
    cases hn : strings[n]? <;> simp [hn]

theorem follow_eq_ok {α : Type} {blocks : Nat → Option α} {p : Nat} {a : α} (h : follow blocks p = .ok a) :
    blocks p = some a := by
  unfold follow at h
  split at h
  · cases h
    assumption
  · cases h

/-- Where each round gives slots with these blocks, all rounds do. -/
theorem overSlots_blocks {round : Nat → Exec (List Slot)} {f : Nat → List Nat}
    (hround : ∀ i slots, round i = .ok slots → slots.flatMap Slot.blocks = f i) {remaining i : Nat} {slots : List Slot}
    (h : overSlots round remaining i = .ok slots) : slots.flatMap Slot.blocks = (List.range' i remaining).flatMap f := by
  induction remaining generalizing i slots with
  | zero =>
    cases h
    rfl
  | succ remaining ih =>
    obtain ⟨first, hfirst, h⟩ := bind_eq_ok.1 h
    obtain ⟨rest, hrest, h⟩ := bind_eq_ok.1 h
    cases h
    rw [List.flatMap_append, hround i first hfirst, ih hrest, List.range'_succ, List.flatMap_cons]

section
variable {heap : Heap} {nested : Table Key RawValue → Exec (List Slot)} {a : Table Key RawValue} {i : Nat}

theorem valueSlots_blocks {held : Table Key RawValue → List Nat}
    (hnested : ∀ t slots, nested t = .ok slots → slots.flatMap Slot.blocks = held t) {b : RawValue} {slots : List Slot}
    (h : valueSlots heap nested i b [⟨[i], []⟩] = .ok slots) : slots.flatMap Slot.blocks =
      b.blocks heap ++ if b.type = typeIkv then ((heap.tables b.data).map held).getD [] else [] := by
  unfold valueSlots at h
  unfold RawValue.blocks
  split at h
  · rename_i htype
    cases h
    have hikv : ¬ b.type = typeIkv := by rcases htype with htype | htype <;> rw [htype] <;> decide
    rw [if_pos htype, if_neg hikv]
    rfl
  rename_i hnumber
  rw [if_neg hnumber]
  split at h
  · rename_i htype
    obtain ⟨blocks, hblocks, h⟩ := bind_eq_ok.1 h
    cases h
    obtain ⟨strings, hstrings, hblocks⟩ := bind_eq_ok.1 hblocks
    obtain ⟨strs, hstrs, hblocks⟩ := bind_eq_ok.1 hblocks
    cases hblocks
    have hikv : ¬ b.type = typeIkv := by rw [htype]; decide
    rw [if_pos htype, if_neg hikv, follow_eq_ok hstrings, mapM_read_eq hstrs, filterMap_range]
    simp
  rename_i hstrings
  rw [if_neg hstrings]
  split at h
  · rename_i htype
    obtain ⟨t, ht, h⟩ := bind_eq_ok.1 h
    obtain ⟨inner, hinner, h⟩ := bind_eq_ok.1 h
    cases h
    rw [if_pos htype, if_pos htype, follow_eq_ok ht, List.flatMap_cons, under_blocks, hnested t inner hinner]
    rfl
  · rename_i htype
    cases h
    rw [if_neg htype, if_neg htype]
    rfl

theorem writeSlot_blocks {held : Table Key RawValue → List Nat}
    (hnested : ∀ t slots, nested t = .ok slots → slots.flatMap Slot.blocks = held t) {slots : List Slot}
    (h : writeSlot heap nested a i = .ok slots) : slots.flatMap Slot.blocks = slotBlocks heap held a i := by
  obtain ⟨flag, hflag, h⟩ := bind_eq_ok.1 h
  unfold slotBlocks
  rw [read_eq_ok.1 hflag]
  split at h
  · rename_i hempty
    cases h
    have hempty : flag = empty := hempty
    cases a.values[i]? with
    | none => rfl
    | some b => simp only [if_pos hempty, List.flatMap_nil]
  · rename_i hfull
    obtain ⟨b, hb, h⟩ := bind_eq_ok.1 h
    have hfull : ¬ flag = empty := hfull
    simp only [read_eq_ok.1 hb, if_neg hfull]
    exact valueSlots_blocks hnested h

/-- What is written has the blocks that are held, in order. -/
theorem writtenSlots_blocks {depth : Nat} {slots : List Slot} (h : writtenSlots heap depth a = .ok slots) :
    slots.flatMap Slot.blocks = heldBlocks heap depth a := by
  induction depth generalizing a slots with
  | zero => cases h
  | succ depth ih =>
    rw [overSlots_blocks (fun _ _ => writeSlot_blocks fun _ _ => ih) h, heldBlocks, List.range_eq_range']

end

/-- What is freed is what a table and those nested in it hold, and nothing is
freed twice, exactly if no slot that is not occupied looks as if it held a value
and no two values that are held share a block. -/
theorem frees_held_iff {hash : Key → Nat → Nat} {heap : Heap} {depth : Nat} {a : Table Key RawValue}
    (h : Reachable hash heap depth a) : FreesHeld heap depth a ↔ Clean heap depth a ∧ (heldBlocks heap depth a).Nodup := by
  rw [← same_iff h]
  constructor
  · rintro ⟨slots, hfree, hwrite, hnodup⟩
    rw [writtenSlots_blocks hwrite] at hnodup
    exact ⟨⟨slots, hfree, hwrite⟩, hnodup⟩
  · rintro ⟨⟨slots, hfree, hwrite⟩, hnodup⟩
    rw [← writtenSlots_blocks hwrite] at hnodup
    exact ⟨slots, hfree, hwrite, hnodup⟩

/-! ## A table with values of all types -/

/-- A hash in the range of the table. -/
def firstByte (key : Key) (size : Nat) : Nat := (key.headD 0).toNat % size

/-- One slot was never filled. What its memory held is of no type. -/
def innerTable : Table Key RawValue := ⟨2, 1, [0, 1], [[], [97, 0]], [⟨5, 0, 0⟩, ⟨3, 2, 30⟩]⟩

/-- Integers, strings and a nested table. Slot 0 was freed when "d" was removed,
whose value was of no type. -/
def mixedTable : Table Key RawValue :=
  ⟨4, 3, [0, 1, 1, 1], [[100, 0], [97, 0], [98, 0], [99, 0]], [⟨0, 0, 5⟩, ⟨2, 1, 7⟩, ⟨4, 2, 8⟩, ⟨1, 0, 9⟩]⟩

def mixedHeap : Heap where
  tables p := if p = 9 then some innerTable else none
  arrays p := if p = 9 then [91, 92, 93] else []
  strings p := if p = 8 then some [21, 22] else none

theorem reachable_inner : Reachable firstByte mixedHeap 1 innerTable := by
  have hset : Run (rehash (decl RawValue) firstByte) ⟨2, 1, [0, 0], [[], []], [⟨5, 0, 0⟩, ⟨5, 0, 0⟩]⟩
      ([] ++ [(.set [97, 0] ⟨3, 2, 30⟩, .value (some ⟨3, 2, 30⟩))]) innerTable := .call 0 .nil rfl
  refine ⟨⟨fun _ => true, fun _ => ⟨5, 0, 0⟩, 0, _, _, _, rfl, hset⟩, ?_⟩
  intro i b hi hb
  rcases i with _ | _ | i <;> cases hi
  cases hb
  exact .inr (.inl rfl)

theorem reachable_mixed : Reachable firstByte mixedHeap 2 mixedTable := by
  have hrun : ∃ es, Run (rehash (decl RawValue) firstByte)
      ⟨4, 3, [0, 0, 0, 0], [[], [], [], []], [⟨5, 0, 0⟩, ⟨5, 0, 0⟩, ⟨5, 0, 0⟩, ⟨5, 0, 0⟩]⟩ es mixedTable :=
    ⟨_, .call (c := .set [99, 0] ⟨1, 0, 9⟩) 0 (.call (c := .remove [100, 0]) 4 (.call (c := .set [98, 0] ⟨4, 2, 8⟩) 0
      (.call (c := .set [97, 0] ⟨2, 1, 7⟩) 0 (.call (c := .set [100, 0] ⟨0, 0, 5⟩) 0 .nil rfl) rfl) rfl) rfl) rfl⟩
  obtain ⟨es, hrun⟩ := hrun
  refine ⟨⟨fun _ => true, fun _ => ⟨5, 0, 0⟩, 2, _, _, es, rfl, hrun⟩, ?_⟩
  intro i b hi hb
  rcases i with _ | _ | _ | _ | i <;> cases hi <;> cases hb
  · exact .inl rfl
  · exact .inr (.inr (.inl ⟨rfl, [21, 22], rfl, by decide⟩))
  · exact .inr (.inr (.inr ⟨rfl, innerTable, rfl, reachable_inner⟩))

/-- All of it is freed, once. -/
theorem frees_held_mixed : FreesHeld mixedHeap 2 mixedTable := by
  refine (frees_held_iff reachable_mixed).2 ⟨⟨?_, ?_⟩, by decide⟩
  · intro i hi
    rcases i with _ | _ | _ | _ | i <;> cases hi
    exact ⟨_, rfl, by unfold RawValue.Typed; decide⟩
  · intro i b t hi hb htype ht
    rcases i with _ | _ | _ | _ | i <;> cases hi <;> cases hb <;> cases htype
    cases ht
    refine ⟨?_, ?_⟩
    · intro i hi
      rcases i with _ | _ | i <;> cases hi
      exact ⟨_, rfl, by unfold RawValue.Typed; decide⟩
    · intro i b t hi hb htype
      rcases i with _ | _ | i <;> cases hi
      cases hb
      cases htype

/-- After "" has been set to an array of integers and removed, the array is
still freed. -/
theorem frees_removed : ∃ a, Reachable hash64 ⟨fun _ => none, fun _ => [], fun _ => none⟩ 1 a ∧
    ¬ FreesHeld ⟨fun _ => none, fun _ => [], fun _ => none⟩ 1 a := by
  have hset : Run (rehash (decl RawValue) hash64) ⟨2, 1, [0, 0], [[], []], [⟨0, 0, 0⟩, ⟨0, 0, 0⟩]⟩
      ([] ++ [(.set [0] ⟨2, 1, 7⟩, .value (some ⟨2, 1, 7⟩))])
      ⟨2, 1, [1, 0], [[0], []], [⟨2, 1, 7⟩, ⟨0, 0, 0⟩]⟩ := .call 0 .nil rfl
  have hremove : Run (rehash (decl RawValue) hash64) _ (_ ++ [(.remove [0], .status 0)])
      ⟨2, 1, [0, 0], [[0], []], [⟨2, 1, 7⟩, ⟨0, 0, 0⟩]⟩ := .call 2 hset rfl
  refine ⟨⟨2, 1, [0, 0], [[0], []], [⟨2, 1, 7⟩, ⟨0, 0, 0⟩]⟩, ⟨?_, ?_⟩, ?_⟩
  · exact ⟨fun _ => true, fun _ => ⟨0, 0, 0⟩, 0, _, _, _, rfl, hremove⟩
  · intro i b hi
    rcases i with _ | _ | i <;> cases hi
  · rintro ⟨slots, hfree, hwrite, -⟩
    have hfreed : slots = [⟨[0], [7]⟩] := (Except.ok.inj hfree).symm
    have hwritten : slots = [] := (Except.ok.inj hwrite).symm
    rw [hfreed] at hwritten
    cases hwritten

end SphSc.Ikv

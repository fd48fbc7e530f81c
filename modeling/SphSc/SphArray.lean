import Mathlib.Data.Multiset.AddSub
import SphSc.Lib.Exec
import SphSc.Lib.Ring
/-!
# `array.h`

The functions `sph_array_declare_type_custom` generates, for any element type
and any allocator, and the macros that change an array. `remove_swap` copies
the element past the last one, not the last one, so the elements are a bag that
the operations change as their names say only while these two are the same:
`bag_iff`.
-/
open Exec Ring

namespace SphSc

/-- `name##_t`. A block is the list of its elements. -/
structure SphArray (E : Type) where
  size : Nat
  used : Nat
  data : Option (List E)

namespace SphArray

variable {E : Type}

def statusIdMemory : Nat := 1
def growthFactor : Nat := 2

/-! ## Allocators -/

/-- What the heap answers to a request: nothing, or a block holding these values. -/
abbrev Answer (E : Type) := Option (Nat → E)

/-- The arguments of `sph_array_declare_type_custom` and `sizeof(element_type)`.
An allocator gets the number of elements; one that reallocates keeps those in use. -/
structure Decl (E : Type) where
  sizeofElement : Nat
  alloc : Answer E → (size : Nat) → Option (List E)
  realloc : Answer E → (data : List E) → (size used newSize : Nat) → Exec (Option (List E))
  sizeof_pos : 0 < sizeofElement
  alloc_length : ∀ {g size data}, size * sizeofElement < word → alloc g size = some data → data.length = size
  realloc_keeps : ∀ {data used n} g, used ≤ data.length → n * sizeofElement < word →
    ∃ r, realloc g data data.length used n = .ok r ∧
      ∀ data', r = some data' → data'.length = n ∧ data'.take (min used n) = data.take (min used n)

section
variable (sizeofElement : Nat)

/-- `malloc((s * es))` -/
def defaultAlloc (g : Answer E) (s : Nat) : Option (List E) :=
  g.map fun junk => (List.range (wmul s sizeofElement / sizeofElement)).map junk

/-- `realloc(d, (n * es))` -/
def defaultRealloc (g : Answer E) (d : List E) (n : Nat) : Option (List E) :=
  g.map fun junk => (List.range (wmul n sizeofElement / sizeofElement)).map fun i => d.getD i (junk i)

/-- `calloc(s, es)`, which refuses a product that overflows. -/
def defaultAllocZero (zero : E) (g : Answer E) (s : Nat) : Option (List E) :=
  if s * sizeofElement < word then g.map fun _ => List.replicate s zero else none

def defaultReallocZero (zero : E) (g : Answer E) (d : List E) (s n : Nat) : Exec (Option (List E)) :=
  match defaultRealloc sizeofElement g d n with
  | none => return none
  | some nd =>
    if n > s then do
      let nd ← fill nd s (n - s) zero
      return some nd
    else return some nd

variable {sizeofElement}

theorem elements_eq {n : Nat} (hpos : 0 < sizeofElement) (h : n * sizeofElement < word) :
    wmul n sizeofElement / sizeofElement = n := by
  rw [wmul, Nat.mod_eq_of_lt h, Nat.mul_div_cancel _ hpos]

theorem defaultRealloc_keeps {g : Answer E} {d d' : List E} {used n : Nat} (hpos : 0 < sizeofElement)
    (hused : used ≤ d.length) (hn : n * sizeofElement < word) (h : defaultRealloc sizeofElement g d n = some d') :
    d'.length = n ∧ d'.take (min used n) = d.take (min used n) := by
  obtain ⟨junk, rfl, rfl⟩ := Option.map_eq_some_iff.1 h
  rw [elements_eq hpos hn]
  refine ⟨by simp, List.ext_getElem? fun i => ?_⟩
  simp only [List.getElem?_take]
  split
  · rename_i hi
    rw [List.getElem?_map, List.getElem?_range (by omega), Option.map_some, List.getD_eq_getElem?_getD,
      List.getElem?_eq_getElem (by omega)]
    rfl
  · rfl

end

/-- `sph_array_declare_type` -/
def declareType (E : Type) (sizeofElement : Nat) (hpos : 0 < sizeofElement) : Decl E where
  sizeofElement
  alloc := defaultAlloc sizeofElement
  realloc g data _ _ n := return defaultRealloc sizeofElement g data n
  sizeof_pos := hpos
  alloc_length {g size data} hsize h := by
    obtain ⟨junk, rfl, rfl⟩ := Option.map_eq_some_iff.1 h
    simp [elements_eq hpos hsize]
  realloc_keeps g hused hn := ⟨_, rfl, fun _ h => defaultRealloc_keeps hpos hused hn h⟩

/-- `sph_array_declare_type_zeroed` -/
def declareTypeZeroed (sizeofElement : Nat) (hpos : 0 < sizeofElement) (zero : E) : Decl E where
  sizeofElement
  alloc := defaultAllocZero sizeofElement zero
  realloc g data s _ n := defaultReallocZero sizeofElement zero g data s n
  sizeof_pos := hpos
  alloc_length {g size data} hsize h := by
    rw [defaultAllocZero, if_pos hsize] at h
    obtain ⟨junk, rfl, rfl⟩ := Option.map_eq_some_iff.1 h
    exact List.length_replicate
  realloc_keeps {data used n} g hused hn := by
    unfold defaultReallocZero
    cases h : defaultRealloc sizeofElement g data n with
    | none => exact ⟨none, rfl, by rintro _ ⟨⟩⟩
    | some nd =>
      obtain ⟨hlen, htake⟩ := defaultRealloc_keeps hpos hused hn h
      simp only
      split
      · rename_i hgt
        have hfill : fill nd data.length (n - data.length) zero = .ok _ :=
          fill_eq_ok.2 ⟨by omega, rfl⟩
        refine ⟨some _, by rw [hfill]; rfl, ?_⟩
        rintro _ ⟨⟩
        refine ⟨by simp [hlen]; omega, ?_⟩
        rw [List.append_assoc, List.take_append_of_le_length (by simp [hlen]; omega), List.take_take, ← htake]
        congr 1
        omega
      · exact ⟨some nd, rfl, by rintro _ ⟨⟩; exact ⟨hlen, htake⟩⟩

/-! ## The functions -/

/-- The elements of the block; none for a null pointer. -/
def block (a : SphArray E) : List E := a.data.getD []

variable (d : Decl E)

def new (g : Answer E) (size : Nat) (a : SphArray E) : Nat × SphArray E :=
  match d.alloc g size with
  | none => (statusIdMemory, a)
  | some data => (0, { size, used := 0, data := some data })

def resize (g : Answer E) (a : SphArray E) (newSize : Nat) : Exec (Nat × SphArray E) := do
  match ← d.realloc g a.block a.size a.used newSize with
  | none => return (statusIdMemory, a)
  | some data =>
    return (0, { size := newSize, used := if newSize < a.used then newSize else a.used, data := some data })

def ensure (g : Answer E) (needed : Nat) (a : SphArray E) : Exec (Nat × SphArray E) :=
  if a.data.isSome then
    if wsub a.size a.used < needed then resize d g a (wadd needed (wmul growthFactor a.size))
    else return (0, a)
  else return new d g needed a

def add (a : SphArray E) (value : E) : Exec (SphArray E) := do
  let data ← write a.block a.used value
  return { a with data := some data, used := wadd a.used 1 }

def clear (a : SphArray E) : SphArray E := { a with used := 0 }

def remove (a : SphArray E) : SphArray E := { a with used := wsub a.used 1 }

def removeSwap (a : SphArray E) (i : Nat) : Exec (SphArray E) := do
  if wadd 1 i < a.used then
    let value ← read a.block a.used
    let data ← write a.block i value
    return { a with data := some data, used := wsub a.used 1 }
  else return { a with used := wsub a.used 1 }

/-- The elements in use. -/
def contents (a : SphArray E) : List E := a.block.take a.used

/-! ## What each function does -/

/-- An array whose fields say what is in its block. -/
structure Sound (a : SphArray E) : Prop where
  block : a.block.length = a.size
  used : a.used ≤ a.size
  size_lt : a.size < word

variable {d} {a a' : SphArray E} {g : Answer E}

theorem Sound.length (hs : Sound a) : a.contents.length = a.used := by
  rw [contents, List.length_take, hs.block, Nat.min_eq_left hs.used]

theorem size_lt_word {n : Nat} (h : n * d.sizeofElement < word) : n < word :=
  Nat.lt_of_le_of_lt (Nat.le_mul_of_pos_right n d.sizeof_pos) h

/-- `new` fails and leaves the array as it is, or gives it an empty block. -/
theorem new_spec {size : Nat} (hsize : size * d.sizeofElement < word) (a : SphArray E) :
    new d g size a = (statusIdMemory, a) ∨
      ∃ data, new d g size a = (0, ⟨size, 0, some data⟩) ∧ Sound ⟨size, 0, some data⟩ := by
  unfold new
  cases h : d.alloc g size with
  | none => exact .inl rfl
  | some data => exact .inr ⟨data, rfl, d.alloc_length hsize h, Nat.zero_le _, size_lt_word hsize⟩

/-- `resize` fails and leaves the array as it is, or keeps the elements that fit. -/
theorem resize_spec (hs : Sound a) {n : Nat} (hn : n * d.sizeofElement < word) :
    resize d g a n = .ok (statusIdMemory, a) ∨
      ∃ a', resize d g a n = .ok (0, a') ∧ Sound a' ∧ a'.size = n ∧ a'.data.isSome ∧
        a'.used = min a.used n ∧ a'.contents = a.contents.take n := by
  obtain ⟨r, hr, hkeeps⟩ := d.realloc_keeps g (hs.block.symm ▸ hs.used) hn
  rw [hs.block] at hr
  unfold resize
  rw [hr, ok_bind]
  cases r with
  | none => exact .inl rfl
  | some data =>
    obtain ⟨hlen, htake⟩ := hkeeps data rfl
    have hused : (if n < a.used then n else a.used) = min a.used n := by
      split <;> omega
    refine .inr ⟨_, rfl, ⟨hlen, ?_, size_lt_word hn⟩, rfl, rfl, hused, ?_⟩
    · simp only [hused]
      exact Nat.min_le_right _ _
    · simp only [contents, hused, List.take_take, Nat.min_comm n]
      exact htake

/-- Without a block there is nothing in an array. -/
theorem Sound.of_none (hs : Sound a) (hdata : a.data = none) : a.size = 0 ∧ a.used = 0 ∧ a.contents = [] := by
  have hblock : a.block = [] := by
    rw [SphArray.block, hdata]
    rfl
  have hsize : a.size = 0 := by
    have hlength := hs.block
    rw [hblock] at hlength
    exact hlength.symm
  refine ⟨hsize, Nat.eq_zero_of_le_zero (hsize ▸ hs.used), ?_⟩
  rw [contents, hblock, List.take_nil]

/-- `ensure` fails and leaves the array as it is, has nothing to do, or grows the block. -/
theorem ensure_spec (hs : Sound a) {needed : Nat}
    (hneed : a.size < a.used + needed → (needed + 2 * a.size) * d.sizeofElement < word) :
    ensure d g needed a = .ok (statusIdMemory, a) ∨
      ∃ a', ensure d g needed a = .ok (0, a') ∧ Sound a' ∧ a'.data.isSome ∧ a'.used = a.used ∧
        a'.contents = a.contents ∧ a'.used + needed ≤ a'.size ∧
        (a'.size = a.size ∨ a.size < a.used + needed ∧ a'.size = needed + 2 * a.size) := by
  have hused := hs.used
  unfold ensure
  split
  · rename_i hdata
    rw [wsub_of_le hs.size_lt hused]
    split
    · -- the block grows
      rename_i hlt
      have hneed := hneed (by omega)
      have hword := size_lt_word hneed
      have hgrown : wadd needed (wmul growthFactor a.size) = needed + 2 * a.size := by
        rw [wadd, wmul, growthFactor, Nat.mod_eq_of_lt (show 2 * a.size < word by omega), Nat.mod_eq_of_lt hword]
      rw [hgrown]
      rcases resize_spec (g := g) hs hneed with h | ⟨a', h, hs', hsize, hdata', hused', hcontents⟩
      · exact .inl h
      · have hmin : min a.used (needed + 2 * a.size) = a.used := by omega
        refine .inr ⟨a', h, hs', hdata', hused'.trans hmin, ?_, by omega, .inr ⟨by omega, hsize⟩⟩
        rw [hcontents, List.take_of_length_le (by rw [hs.length]; omega)]
    · exact .inr ⟨a, rfl, hs, hdata, rfl, rfl, by omega, .inl rfl⟩
  · -- there is no block, and so nothing in it
    rename_i hdata
    obtain ⟨hsize, hused, hcontents⟩ := hs.of_none (by simpa using hdata)
    have hneed : needed * d.sizeofElement < word := by
      rcases Nat.eq_zero_or_pos needed with rfl | hpos
      · simp [word]
      · simpa [hsize] using hneed (by omega)
    rcases new_spec (g := g) hneed a with h | ⟨data, h, hs'⟩
    · exact .inl (by rw [h]; rfl)
    · refine .inr ⟨_, by rw [h]; rfl, hs', rfl, hused.symm, ?_, by simp, ?_⟩
      · rw [hcontents]
        rfl
      · rcases Nat.eq_zero_or_pos needed with h0 | hpos
        · exact .inl (by simp [h0, hsize])
        · exact .inr ⟨by omega, by simp [hsize]⟩

theorem add_spec (hs : Sound a) (hroom : a.used < a.size) (value : E) :
    ∃ a', add a value = .ok a' ∧ Sound a' ∧ a'.size = a.size ∧ a'.used = a.used + 1 ∧ a'.data.isSome ∧
      a'.contents = a.contents ++ [value] := by
  have hlt : a.used < a.block.length := by rw [hs.block]; exact hroom
  have hused : wadd a.used 1 = a.used + 1 := Nat.mod_eq_of_lt (by have := hs.size_lt; omega)
  refine ⟨⟨a.size, wadd a.used 1, some (a.block.set a.used value)⟩, by rw [add, write_of_lt _ hlt]; rfl,
    ⟨?_, ?_, hs.size_lt⟩, rfl, hused, rfl, ?_⟩
  · simp [block]
    exact hs.block
  · simp only [hused]
    exact hroom
  · simp only [contents, hused]
    show (a.block.set a.used value).take (a.used + 1) = _
    rw [List.take_add_one, List.getElem?_set_self hlt, List.take_set_of_le (Nat.le_refl _)]
    rfl

theorem remove_eq (hs : Sound a) (hpos : 0 < a.used) : remove a = { a with used := a.used - 1 } := by
  rw [remove, wsub_of_le (Nat.lt_of_le_of_lt hs.used hs.size_lt) hpos]

theorem remove_spec (hs : Sound a) (hpos : 0 < a.used) : Sound (remove a) ∧
    (remove a).contents = a.block.take (a.used - 1) ∧
    a.contents = a.block.take (a.used - 1) ++ (a.block[a.used - 1]?).toList := by
  rw [remove_eq hs hpos]
  refine ⟨⟨hs.block, ?_, hs.size_lt⟩, rfl, ?_⟩
  · exact Nat.le_trans (Nat.sub_le _ _) hs.used
  · rw [contents, ← List.take_add_one, Nat.sub_add_cancel hpos]

/-- `remove_swap` away from the end leaves an element in place of the removed
one that is not the last but the one past it. -/
theorem removeSwap_eq (hs : Sound a) {i : Nat} (hi : 1 + i < a.used) : removeSwap a i = (do
    let value ← read a.block a.used
    return { a with data := some (a.block.set i value), used := a.used - 1 }) := by
  have hused := hs.used
  have hwadd : wadd 1 i = 1 + i := Nat.mod_eq_of_lt (by have := hs.size_lt; omega)
  have hlen : i < a.block.length := by rw [hs.block]; omega
  rw [removeSwap, hwadd, if_pos hi, wsub_of_le (Nat.lt_of_le_of_lt hused hs.size_lt) (by omega)]
  simp only [write_of_lt _ hlen, ok_bind]

theorem removeSwap_last (hs : Sound a) {i : Nat} (hi : 1 + i = a.used) : removeSwap a i = .ok (remove a) := by
  have hwadd : wadd 1 i = 1 + i := Nat.mod_eq_of_lt (by have := hs.used; have := hs.size_lt; omega)
  rw [removeSwap, hwadd, if_neg (by omega)]
  rfl

/-! ## The bag -/

inductive Op (E : Type) where
  /-- `name##_ensure`, and `sph_array_add` if that succeeds. -/
  | add (needed : Nat) (value : E)
  | remove
  | removeSwap (i : Nat)
  | clear
  | resize (newSize : Nat)

/-- An operation gives a status; 0 if it has none. -/
def step (d : Decl E) (g : Answer E) (a : SphArray E) : Op E → Exec (Nat × SphArray E)
  | .add needed value => do
    let (s, a) ← ensure d g needed a
    if s ≠ 0 then return (s, a)
    else
      let a ← add a value
      return (0, a)
  | .remove => return (0, remove a)
  | .removeSwap i => do
    let a ← removeSwap a i
    return (0, a)
  | .clear => return (0, clear a)
  | .resize newSize => resize d g a newSize

/-- What a caller owes. -/
def Allowed (d : Decl E) (a : SphArray E) : Op E → Prop
  | .add needed _ => 1 ≤ needed ∧ (needed + 2 * a.size) * d.sizeofElement < word
  | .remove => 0 < a.used
  | .removeSwap i => i < a.used
  | .clear => True
  | .resize newSize => 1 ≤ newSize ∧ newSize * d.sizeofElement < word

instance (d : Decl E) (a : SphArray E) (op : Op E) : Decidable (Allowed d a op) :=
  match op with
  | .add .. | .resize _ => inferInstanceAs (Decidable (_ ∧ _))
  | .remove | .removeSwap _ => inferInstanceAs (Decidable (_ < _))
  | .clear => inferInstanceAs (Decidable True)

/-- When `remove_swap` moves the last element: it is the one removed, or the
element past it is there and the same. -/
def MovesLast (a : SphArray E) : Op E → Prop
  | .removeSwap i => 1 + i = a.used ∨ a.used < a.size ∧ a.block[a.used]? = a.block[a.used - 1]?
  | _ => True

/-- Putting `v` in place of an element exchanges the two. -/
theorem cons_set {xs : List E} {i : Nat} (hi : i < xs.length) (v : E) : (xs[i] :: xs.set i v).Perm (v :: xs) := by
  induction xs generalizing i with
  | nil => simp at hi
  | cons x xs ih =>
    cases i with
    | zero => exact List.Perm.swap v x xs
    | succ i =>
      simp only [List.length_cons, Nat.add_lt_add_iff_right] at hi
      calc xs[i] :: x :: xs.set i v
        List.Perm _ (x :: xs[i] :: xs.set i v) := List.Perm.swap x _ _
        List.Perm _ (x :: v :: xs) := (ih hi).cons x
        List.Perm _ (v :: x :: xs) := List.Perm.swap v x xs

/-- A last element is one more. -/
theorem coe_concat (xs : List E) (x : E) : (↑(xs ++ [x]) : Multiset E) = x ::ₘ ↑xs :=
  Quot.sound (List.perm_append_singleton x xs)

section
variable [DecidableEq E]

instance (a : SphArray E) (op : Op E) : Decidable (MovesLast a op) :=
  match op with
  | .removeSwap _ => inferInstanceAs (Decidable (_ ∨ _ ∧ _))
  | .add .. | .remove | .clear | .resize _ => inferInstanceAs (Decidable True)

/-- What an operation on `a` that gave status `s` should do to the bag of its elements. -/
def bagStep (a : SphArray E) (bag : Multiset E) (s : Nat) : Op E → Multiset E
  | .add _ value => if s = 0 then value ::ₘ bag else bag
  | .remove => a.contents.getLast?.elim bag bag.erase
  | .removeSwap i => a.contents[i]?.elim bag bag.erase
  | .clear => 0
  | .resize newSize => if s = 0 then a.contents.take newSize else bag

/-- An array, declared or from `name##_new`, and the bag after any operations
that were allowed and meet `P`. -/
inductive Run (d : Decl E) (P : SphArray E → Op E → Prop) : SphArray E → Multiset E → Prop
  | declare : Run d P ⟨0, 0, none⟩ 0
  | new {g : Answer E} {size : Nat} {a a' : SphArray E} : size * d.sizeofElement < word → new d g size a = (0, a') →
      Run d P a' 0
  | step {g : Answer E} {a a' : SphArray E} {bag : Multiset E} {op : Op E} {s : Nat} : Run d P a bag →
      Allowed d a op → P a op → step d g a op = .ok (s, a') → Run d P a' (bagStep a bag s op)

/-- The operation returns, the array is sound and its elements are what they should be. -/
def Follows (d : Decl E) (g : Answer E) (a : SphArray E) (op : Op E) : Prop :=
  ∃ s a', step d g a op = .ok (s, a') ∧ Sound a' ∧ (a'.contents : Multiset E) = bagStep a a.contents s op

theorem follows_add (hs : Sound a) {needed : Nat} {value : E} (h : Allowed d a (.add needed value)) :
    Follows d g a (.add needed value) := by
  obtain ⟨hpos, hneed⟩ := h
  rcases ensure_spec (g := g) hs fun _ => hneed with he | ⟨b, he, hb, -, -, hcontents, hroom, -⟩
  · exact ⟨_, a, by rw [step, he]; rfl, hs, rfl⟩
  · obtain ⟨c, hadd, hc, -, -, -, hcontents'⟩ := add_spec hb (by omega) value
    refine ⟨0, c, by rw [step, he, ok_bind]; simp [hadd], hc, ?_⟩
    rw [hcontents', hcontents, bagStep, if_pos rfl, coe_concat]

theorem follows_remove (hs : Sound a) (h : Allowed d a .remove) : Follows d g a .remove := by
  obtain ⟨hr, hcontents, hall⟩ := remove_spec hs h
  refine ⟨0, remove a, rfl, hr, ?_⟩
  have hlt : a.used - 1 < a.block.length := by
    have := hs.block; have := hs.used; have : 0 < a.used := h
    omega
  rw [List.getElem?_eq_getElem hlt, Option.toList_some] at hall
  rw [bagStep, hcontents, hall, List.getLast?_concat, Option.elim_some, coe_concat, Multiset.erase_cons_head]

theorem follows_clear (hs : Sound a) : Follows d g a .clear := by
  refine ⟨0, clear a, rfl, ⟨hs.block, Nat.zero_le _, hs.size_lt⟩, ?_⟩
  rw [contents, clear, List.take_zero]
  rfl

theorem follows_resize (hs : Sound a) {newSize : Nat} (h : Allowed d a (.resize newSize)) :
    Follows d g a (.resize newSize) := by
  rcases resize_spec (g := g) hs h.2 with hr | ⟨b, hr, hb, -, -, -, hcontents⟩
  · exact ⟨_, a, hr, hs, rfl⟩
  · refine ⟨0, b, hr, hb, ?_⟩
    rw [hcontents, bagStep, if_pos rfl]

/-- Putting `v` in place of one of `xs` and `z` deletes that one if `v` is `z`. -/
theorem set_eq_erase {xs : List E} {i : Nat} (hi : i < xs.length) (v z : E) :
    (↑(xs.set i v) : Multiset E) = (z ::ₘ ↑xs).erase xs[i] ↔ v = z := by
  have hset : xs[i] ::ₘ (↑(xs.set i v) : Multiset E) = v ::ₘ ↑xs := Quot.sound (cons_set hi v)
  have hmem : xs[i] ∈ z ::ₘ (↑xs : Multiset E) := Multiset.mem_cons_of_mem (List.getElem_mem hi)
  constructor
  · intro h
    rw [h, Multiset.cons_erase hmem] at hset
    exact ((Multiset.cons_inj_left _).1 hset).symm
  · rintro rfl
    rw [← hset, Multiset.erase_cons_head]

/-- `remove_swap` away from the end: the element past the last takes the place of the removed one. -/
theorem removeSwap_away (hs : Sound a) {i : Nat} (hi : 1 + i < a.used) :
    (a.used < a.size ∧ a.block[a.used]? = a.block[a.used - 1]? → Follows d g a (.removeSwap i)) ∧
    ∀ s a', step d g a (.removeSwap i) = .ok (s, a') → ↑a'.contents = bagStep a a.contents s (.removeSwap i) →
      a.used < a.size ∧ a.block[a.used]? = a.block[a.used - 1]? := by
  obtain ⟨-, -, hall⟩ := remove_spec hs (by omega)
  have hused := hs.used
  have hlast : a.used - 1 < a.block.length := by rw [hs.block]; omega
  have hlen : i < (a.block.take (a.used - 1)).length := by rw [List.length_take]; omega
  have hi' : a.contents[i]? = some (a.block.take (a.used - 1))[i] := by
    rw [hall, List.getElem?_append_left hlen, List.getElem?_eq_getElem hlen]
  rw [List.getElem?_eq_getElem hlast, Option.toList_some] at hall
  rw [Follows, step, removeSwap_eq hs hi, List.getElem?_eq_getElem hlast]
  by_cases hroom : a.used < a.size
  · have hblock : a.used < a.block.length := by rw [hs.block]; exact hroom
    simp only [read_of_lt hblock, ok_bind, pure_eq_ok, hroom, true_and, List.getElem?_eq_getElem hblock,
      Option.some.injEq]
    have hsound : Sound ⟨a.size, a.used - 1, some (a.block.set i a.block[a.used])⟩ :=
      ⟨by simpa [block] using hs.block, by simp only; omega, hs.size_lt⟩
    have hcontents : contents ⟨a.size, a.used - 1, some (a.block.set i a.block[a.used])⟩ =
        (a.block.take (a.used - 1)).set i a.block[a.used] := List.take_set
    have hbag : bagStep a a.contents 0 (.removeSwap i) =
        (a.block[a.used - 1] ::ₘ ↑(a.block.take (a.used - 1))).erase (a.block.take (a.used - 1))[i] := by
      rw [bagStep, hi', Option.elim_some, hall, coe_concat]
    rw [← set_eq_erase hlen, ← hbag, ← hcontents]
    constructor
    · intro h'
      exact ⟨0, _, rfl, hsound, h'⟩
    · intro s a' h h'
      cases h
      exact h'
  · -- the block is full, and the slot past the last element outside it
    have herr : read a.block a.used = .error .outOfBounds := by
      rw [Exec.read, List.getElem?_eq_none (by rw [hs.block]; omega)]
    refine ⟨fun h => absurd h.1 hroom, ?_⟩
    intro s a' h
    rw [herr] at h
    cases h

theorem follows (hs : Sound a) {op : Op E} (h : Allowed d a op) (hm : MovesLast a op) : Follows d g a op := by
  cases op with
  | add needed value => exact follows_add hs h
  | remove => exact follows_remove hs h
  | clear => exact follows_clear hs
  | resize newSize => exact follows_resize hs h
  | removeSwap i =>
    by_cases hi : 1 + i = a.used
    · have hpos : 0 < a.used := by omega
      obtain ⟨s, a', hstep, hs', hbag⟩ := follows_remove (d := d) (g := g) hs hpos
      have hsame : step d g a (.removeSwap i) = step d g a .remove := by
        simp only [step, removeSwap_last hs hi]
        rfl
      have hlast : a.contents.getLast? = a.contents[i]? := by
        rw [List.getLast?_eq_getElem?, hs.length, ← hi, Nat.add_sub_cancel_left]
      refine ⟨s, a', hsame.trans hstep, hs', hbag.trans ?_⟩
      rw [bagStep, bagStep, hlast]
    · have hlt : i < a.used := h
      exact (removeSwap_away hs (by omega)).1 (hm.resolve_left hi)

theorem moves_of_bag (hs : Sound a) {op : Op E} (h : Allowed d a op) {s : Nat} (hstep : step d g a op = .ok (s, a'))
    (hbag : ↑a'.contents = bagStep a a.contents s op) : MovesLast a op := by
  cases op with
  | removeSwap i =>
    by_cases hi : 1 + i = a.used
    · exact .inl hi
    · have hlt : i < a.used := h
      exact .inr ((removeSwap_away hs (by omega)).2 s a' hstep hbag)
  | _ => trivial

theorem run_inv {bag : Multiset E} (h : Run d MovesLast a bag) : Sound a ∧ ↑a.contents = bag := by
  induction h with
  | declare => exact ⟨⟨rfl, Nat.le_refl _, by simp [word]⟩, rfl⟩
  | @new g size a a' hsize h =>
    rcases new_spec (g := g) hsize a with h' | ⟨data, h', hs⟩
    · rw [h'] at h
      cases h
    · rw [h'] at h
      cases h
      exact ⟨hs, by simp [contents]⟩
  | @step g a a' bag op s _ hallowed hmoves hstep ih =>
    obtain ⟨hs, rfl⟩ := ih
    obtain ⟨s', b, hstep', hs', hbag⟩ := follows hs hallowed hmoves
    rw [hstep] at hstep'
    cases hstep'
    exact ⟨hs', hbag⟩

/-- While `remove_swap` moves the last element, the elements in use are the bag
that the operations say, and there is room for them. So it is after one more
operation exactly if that one does too. -/
theorem bag_iff {bag : Multiset E} (hrun : Run d MovesLast a bag) : a.used ≤ a.size ∧ ↑a.contents = bag ∧
    ∀ g op, Allowed d a op → ((∃ s a', step d g a op = .ok (s, a') ∧ a'.used ≤ a'.size ∧
      ↑a'.contents = bagStep a bag s op) ↔ MovesLast a op) := by
  obtain ⟨hs, rfl⟩ := run_inv hrun
  refine ⟨hs.used, rfl, ?_⟩
  intro g op h
  constructor
  · rintro ⟨s, a', hstep, -, hbag⟩
    exact moves_of_bag hs h hstep hbag
  · intro hm
    obtain ⟨s, a', hstep, hs', hbag⟩ := follows hs h hm
    exact ⟨s, a', hstep, hs'.used, hbag⟩

end

/-- A block for three with the elements 1 and 2. -/
def oneTwo : SphArray Nat := ⟨3, 2, some [1, 2, 0]⟩

theorem run_oneTwo (P : SphArray Nat → Op Nat → Prop) (h1 : P ⟨3, 0, some [0, 0, 0]⟩ (.add 1 1))
    (h2 : P ⟨3, 1, some [1, 0, 0]⟩ (.add 1 2)) : Run (declareType Nat 8 (by decide)) P oneTwo {2, 1} := by
  have hnew : new (declareType Nat 8 (by decide)) (some fun _ => 0) 3 ⟨0, 0, none⟩ = (0, ⟨3, 0, some [0, 0, 0]⟩) := rfl
  have hone : step (declareType Nat 8 (by decide)) none ⟨3, 0, some [0, 0, 0]⟩ (.add 1 1) =
      .ok (0, ⟨3, 1, some [1, 0, 0]⟩) := rfl
  have htwo : step (declareType Nat 8 (by decide)) none ⟨3, 1, some [1, 0, 0]⟩ (.add 1 2) = .ok (0, oneTwo) := rfl
  exact ((Run.new (by decide) hnew).step (by decide) h1 hone).step (by decide) h2 htwo

/-- Of the elements 1 and 2 the last is removed as it should be, the first is not. -/
theorem bag_iff_two : (∃ s a', step (declareType Nat 8 (by decide)) none oneTwo (.removeSwap 1) = .ok (s, a') ∧
      a'.used ≤ a'.size ∧ ↑a'.contents = bagStep oneTwo {2, 1} s (.removeSwap 1)) ∧
    ¬ ∃ s a', step (declareType Nat 8 (by decide)) none oneTwo (.removeSwap 0) = .ok (s, a') ∧
      a'.used ≤ a'.size ∧ ↑a'.contents = bagStep oneTwo {2, 1} s (.removeSwap 0) := by
  obtain ⟨-, -, hiff⟩ := bag_iff (run_oneTwo MovesLast trivial trivial)
  refine ⟨(hiff none (.removeSwap 1) (by decide)).2 (.inl rfl), ?_⟩
  rw [hiff none (.removeSwap 0) (by decide)]
  decide

/-- Removing 1 leaves the element past the end, 0, and loses 2. -/
theorem removeSwap_loses : Run (declareType Nat 8 (by decide)) (fun _ _ => True) oneTwo {2, 1} ∧
    Allowed (declareType Nat 8 (by decide)) oneTwo (.removeSwap 0) ∧
    ∃ a', step (declareType Nat 8 (by decide)) none oneTwo (.removeSwap 0) = .ok (0, a') ∧
      a'.contents = [0] ∧ bagStep oneTwo {2, 1} 0 (.removeSwap 0) = {2} := by
  exact ⟨run_oneTwo _ trivial trivial, by decide, ⟨3, 1, some [0, 2, 0]⟩, rfl, rfl, rfl⟩

end SphArray
end SphSc

import SphSc.Lib.ProbingLoops
import SphSc.SphSet.Model
/-!
# The slots of a set

`bit` is the packed bitset as a predicate on slots, which the three `occupied`
functions read and update one slot at a time. With it `layout` reads a set as a
ring of slots, as for the hashtable.
-/
open Exec Ring Probing

namespace SphSc.SphSet

variable {E : Type}

/-! ## The bitset -/

/-- Whether slot `i` is occupied. -/
def bit (bitmap : List Byte) (i : Nat) : Bool := bitmap[i / 8]?.any fun byte => byte.getLsbD (i % 8)

theorem shift_three (i : Nat) : i >>> 3 = i / 8 := by simp [Nat.shiftRight_eq_div_pow]

/-- The largest power of two below the word size leaves room for rounding up to bytes. -/
theorem bytes_eq {n : Nat} (hp : ∃ k, n = 2 ^ k) (hn : n < word) : wadd n 7 >>> 3 = (n + 7) / 8 := by
  obtain ⟨k, hk⟩ := hp
  have hk63 : k ≤ 63 := by
    by_contra hc
    have : 2 ^ 64 ≤ 2 ^ k := Nat.pow_le_pow_right (by omega) (by omega)
    simp only [word] at hn; omega
  have : n ≤ 2 ^ 63 := hk ▸ Nat.pow_le_pow_right (by omega) hk63
  rw [shift_three, wadd, Nat.mod_eq_of_lt (by simp only [word]; omega)]

theorem and_seven (i : Nat) : i &&& 7 = i % 8 := Nat.and_two_pow_sub_one_eq_mod i 3

theorem bit_of_lt {bitmap : List Byte} {i : Nat} (h : i / 8 < bitmap.length) :
    bit bitmap i = bitmap[i / 8].getLsbD (i % 8) := by
  simp [bit, h]

theorem low_bit (b : Byte) (k : Nat) : (b >>> k) &&& 1 = if b.getLsbD k then 1 else 0 := by
  rw [show (1 : Byte) = 1#8 from rfl, BitVec.and_one_eq_setWidth_ofBool_getLsbD, BitVec.getLsbD_ushiftRight,
    Nat.add_zero]
  cases b.getLsbD k <;> rfl

theorem occupiedGet_eq {bitmap : List Byte} {i : Nat} (h : i / 8 < bitmap.length) :
    occupiedGet bitmap i = .ok (if bit bitmap i then 1 else 0) := by
  simp only [occupiedGet, shift_three, and_seven, read_of_lt h, ok_bind, pure_eq_ok, low_bit, bit_of_lt h]

theorem bit_set {bitmap : List Byte} {i : Nat} (h : i / 8 < bitmap.length) (byte : Byte) (j : Nat) :
    bit (bitmap.set (i / 8) byte) j = if j / 8 = i / 8 then byte.getLsbD (j % 8) else bit bitmap j := by
  unfold bit
  split
  · rename_i hj; simp [hj, h]
  · rename_i hj; rw [List.getElem?_set_ne (Ne.symm hj)]

/-- Slots in the same byte differ in their bit. -/
theorem slot_eq {i j : Nat} (h : j / 8 = i / 8) : j % 8 = i % 8 ↔ j = i := by omega

theorem occupiedSet_eq {bitmap : List Byte} {i : Nat} (h : i / 8 < bitmap.length) : ∃ bitmap',
    occupiedSet bitmap i = .ok bitmap' ∧ bitmap'.length = bitmap.length ∧
      ∀ j, bit bitmap' j = (decide (j = i) || bit bitmap j) := by
  refine ⟨bitmap.set (i / 8) (bitmap[i / 8] ||| 1#8 <<< (i % 8)), ?_, List.length_set, fun j => ?_⟩
  · simp only [occupiedSet, shift_three, and_seven, read_of_lt h, ok_bind, write_of_lt _ h]
  rw [bit_set h]
  split
  · rename_i hj
    have hlt : j % 8 < 8 := Nat.mod_lt j (by omega)
    have hb : bit bitmap j = bitmap[i / 8].getLsbD (j % 8) := by simp [bit, hj, h]
    rw [BitVec.getLsbD_or, hb, Bool.or_comm]
    congr 1
    have := slot_eq hj
    simp only [BitVec.getLsbD_shiftLeft, BitVec.getLsbD_one]
    by_cases hji : j = i
    · simp [hji]; omega
    · simp [hji]; omega
  · rename_i hj
    have hji : j ≠ i := fun hc => hj (by rw [hc])
    simp [hji]

theorem occupiedClear_eq {bitmap : List Byte} {i : Nat} (h : i / 8 < bitmap.length) : ∃ bitmap',
    occupiedClear bitmap i = .ok bitmap' ∧ bitmap'.length = bitmap.length ∧
      ∀ j, bit bitmap' j = (!decide (j = i) && bit bitmap j) := by
  refine ⟨bitmap.set (i / 8) (bitmap[i / 8] &&& ~~~(1#8 <<< (i % 8))), ?_, List.length_set, fun j => ?_⟩
  · simp only [occupiedClear, shift_three, and_seven, read_of_lt h, ok_bind, write_of_lt _ h]
  rw [bit_set h]
  split
  · rename_i hj
    have hlt : j % 8 < 8 := Nat.mod_lt j (by omega)
    have hb : bit bitmap j = bitmap[i / 8].getLsbD (j % 8) := by simp [bit, hj, h]
    rw [BitVec.getLsbD_and, hb, Bool.and_comm]
    congr 1
    have := slot_eq hj
    simp only [BitVec.getLsbD_not, BitVec.getLsbD_shiftLeft, BitVec.getLsbD_one]
    by_cases hji : j = i
    · simp [hji]
    · simp [hji]; omega
  · rename_i hj
    have hji : j ≠ i := fun hc => hj (by rw [hc])
    simp [hji]

/-! ## The slots -/

/-- What slot `i` stores. -/
def layout (a : Table E) (i : Nat) : Option E := if bit a.occupied i then a.values[i]? else none

/-- What no call changes, not even between the rounds of a shift. -/
structure Shape (a : Table E) : Prop where
  size_pow : ∃ k, a.size = 2 ^ k
  size_lt : a.size < word
  mask : a.mask = a.size - 1
  occupied : a.occupied.length = (a.size + 7) / 8
  values : ∀ i < a.size, bit a.occupied i → i < a.values.length

theorem layout_eq_some {a : Table E} {i : Nat} {e : E} :
    layout a i = some e ↔ bit a.occupied i = true ∧ a.values[i]? = some e := by
  unfold layout
  split <;> simp [*]

theorem read_value {a : Table E} {i : Nat} {e : E} (he : layout a i = some e) : read a.values i = .ok e :=
  read_eq_ok.2 (layout_eq_some.1 he).2

namespace Shape

variable {a : Table E}

theorem size_pos (hs : Shape a) : 0 < a.size := by
  obtain ⟨k, hk⟩ := hs.size_pow
  rw [hk]; exact Nat.two_pow_pos k

theorem next (hs : Shape a) {i : Nat} (hi : i < a.size) : wadd i 1 &&& a.mask = next a.size i := by
  obtain ⟨k, hk⟩ := hs.size_pow
  rw [hs.mask, wadd_one_mask hk (Nat.le_of_lt hs.size_lt) hi]

theorem dist (hs : Shape a) {h i : Nat} (hh : h < a.size) (hi : i < a.size) :
    wsub i h &&& a.mask = dist a.size h i := by
  obtain ⟨k, hk⟩ := hs.size_pow
  rw [hs.mask, wsub_mask hk (Nat.le_of_lt hs.size_lt) hh hi]

theorem layout_isSome (hs : Shape a) {i : Nat} (hi : i < a.size) : (layout a i).isSome ↔ bit a.occupied i = true := by
  unfold layout
  split
  · rename_i h; simp [h, hs.values i hi h]
  · simp [*]

theorem occupiedGet (hs : Shape a) {i : Nat} (hi : i < a.size) :
    occupiedGet a.occupied i = .ok (if (layout a i).isSome then 1 else 0) := by
  rw [occupiedGet_eq (by rw [hs.occupied]; omega)]
  simp only [← hs.layout_isSome hi]

end Shape

/-! ## Loops that scan -/

section
variable (d : Decl E) {a : Table E}

theorem getLoop_eq (hs : Shape a) (value : E) (remaining : Nat) {i : Nat} (hi : i < a.size) :
    getLoop d a value remaining i =
      match scan a.size (fun e => d.equal e value) (layout a) remaining i with
      | .hit j => .ok (some j)
      | _ => .ok none := by
  induction remaining generalizing i with
  | zero => rfl
  | succ remaining ih =>
    rw [getLoop, hs.occupiedGet hi, scan]
    cases he : layout a i with
    | none => simp
    | some e =>
      cases hk : d.equal e value with
      | true => simp [hk, read_value he]
      | false => simp [hk, read_value he, hs.next hi, ih (next_lt hi)]

theorem holdsValue_eq (hs : Shape a) (value : E) {i : Nat} (hi : i < a.size) :
    holdsValue d a value i = .ok ((layout a i).any fun e => d.equal e value) := by
  unfold holdsValue
  rw [hs.occupiedGet hi]
  cases he : layout a i with
  | none => simp
  | some e => simp [read_value he]

theorem addLoop_eq (hs : Shape a) (value : E) (remaining : Nat) {i : Nat} (hi : i < a.size) :
    addLoop d a value remaining i =
      match scan a.size (fun e => d.equal e value) (layout a) remaining i with
      | .hit j => .ok (a, some j)
      | .gap j => do
        let a ← put a j value
        return (a, some j)
      | .round => .ok (a, none) := by
  induction remaining generalizing i with
  | zero => rfl
  | succ remaining ih =>
    rw [addLoop, hs.occupiedGet hi, holdsValue_eq d hs value hi, scan]
    cases he : layout a i with
    | none => simp
    | some e =>
      cases hk : d.equal e value with
      | true => simp [hk]
      | false => simp [hk, hs.next hi, ih (next_lt hi)]

end

/-! ## Stores, seen on the layout -/

section
variable {a a' : Table E} {i : Nat}

theorem put_eq_ok {value : E} (h : put a i value = .ok a') (hi : i / 8 < a.occupied.length) :
    i < a.values.length ∧ ∃ occupied, a' = { a with values := a.values.set i value, occupied } ∧
      occupied.length = a.occupied.length ∧ ∀ j, bit occupied j = (decide (j = i) || bit a.occupied j) := by
  obtain ⟨values, h1, h⟩ := bind_eq_ok.1 h
  obtain ⟨occupied, h2, h⟩ := bind_eq_ok.1 h
  obtain ⟨hv, rfl⟩ := write_eq_ok.1 h1
  obtain ⟨occupied', h3, hlen, hbit⟩ := occupiedSet_eq hi
  rw [h3] at h2
  cases h2
  cases h
  exact ⟨hv, _, rfl, hlen, hbit⟩

theorem shape_put {value : E} (hs : Shape a) (hi : i < a.size) (h : put a i value = .ok a') : Shape a' := by
  obtain ⟨hv, occupied, rfl, hlen, hbit⟩ := put_eq_ok h (by rw [hs.occupied]; omega)
  refine { hs with occupied := hlen.trans hs.occupied, values := fun j hj hb => ?_ }
  simp only [hbit, Bool.or_eq_true, decide_eq_true_eq] at hb
  rw [List.length_set]
  rcases hb with rfl | hb
  · exact hv
  · exact hs.values j hj hb

theorem layout_put {value : E} (hs : Shape a) (hi : i < a.size) (h : put a i value = .ok a') :
    layout a' = Function.update (layout a) i (some value) := by
  obtain ⟨hv, occupied, rfl, hlen, hbit⟩ := put_eq_ok h (by rw [hs.occupied]; omega)
  funext j
  by_cases hji : j = i
  · subst hji; simp [layout, hbit, hv]
  · rw [Function.update_of_ne hji]
    simp [layout, hbit, hji, List.getElem?_set_ne (Ne.symm hji)]

theorem move_spec (hs : Shape a) {j : Nat} (hj : j < a.size) (hf : (layout a j).isSome) (e : E) :
    Shape { a with values := a.values.set j e } ∧
      layout { a with values := a.values.set j e } = Function.update (layout a) j (some e) := by
  have hb := (hs.layout_isSome hj).1 hf
  refine ⟨{ hs with values := fun i hi h => by simpa using hs.values i hi h }, ?_⟩
  funext i
  by_cases hij : i = j
  · subst hij; simp [layout, hb, hs.values i hj hb]
  · rw [Function.update_of_ne hij]
    simp [layout, List.getElem?_set_ne (Ne.symm hij)]

theorem vacate_spec (hs : Shape a) {j : Nat} (hj : j < a.size) : ∃ occupied, occupiedClear a.occupied j = .ok occupied ∧
    Shape { a with occupied } ∧ layout { a with occupied } = Function.update (layout a) j none := by
  have hbyte : j / 8 < a.occupied.length := by rw [hs.occupied]; omega
  obtain ⟨occupied, h, hlen, hbit⟩ := occupiedClear_eq hbyte
  refine ⟨occupied, h, { hs with occupied := hlen.trans hs.occupied, values := fun i hi hb => ?_ }, ?_⟩
  · simp only [hbit, Bool.and_eq_true] at hb
    exact hs.values i hi hb.2
  · funext i
    by_cases hij : i = j
    · subst hij; simp [layout, hbit]
    · rw [Function.update_of_ne hij]
      simp [layout, hbit, hij]

@[simp] theorem bit_replicate (n i : Nat) : bit (List.replicate n 0#8) i = false := by
  simp only [bit, List.getElem?_replicate]
  split <;> simp

theorem layout_empty (size mask n : Nat) (values : List E) (nullable : Byte) :
    layout ⟨size, mask, values, List.replicate n 0, nullable⟩ = fun _ => none := by
  funext i
  simp [layout]

theorem clear_eq_ok (hs : Shape a) (h : clear a = .ok a') :
    a' = { a with nullable := 0, occupied := List.replicate a.occupied.length 0 } := by
  obtain ⟨occupied, hf, h⟩ := bind_eq_ok.1 h
  obtain ⟨-, rfl⟩ := fill_eq_ok.1 hf
  cases h
  rw [wadd, Nat.add_comm 7, ← wadd, bytes_eq hs.size_pow hs.size_lt, ← hs.occupied]
  simp

theorem shape_cleared (hs : Shape a) :
    Shape { a with nullable := 0, occupied := List.replicate a.occupied.length 0 } :=
  { hs with
    occupied := by simpa using hs.occupied
    values := fun i _ hb => by simp at hb }

theorem new_eq {d : Decl E} {grants : Grants} {junk : Nat → E} {minSize : Nat} {t : Table E} {rs : List Request}
    (h : new d grants junk minSize = (0, some t, rs)) : t.size = calculateSize d.sizeFactor minSize ∧
      t.mask = wsub t.size 1 ∧ t.occupied = List.replicate (wadd t.size 7 >>> 3) 0 ∧ t.nullable = 0 := by
  simp only [new] at h
  split at h
  · cases h
  split at h
  · cases h
  cases h
  exact ⟨rfl, rfl, rfl, rfl⟩

theorem new_shape {d : Decl E} {grants : Grants} {junk : Nat → E} {minSize : Nat} {t : Table E} {rs : List Request}
    (h : new d grants junk minSize = (0, some t, rs)) (hp : ∃ k, t.size = 2 ^ k) :
    Shape t ∧ t.nullable = 0 ∧ layout t = fun _ => none := by
  obtain ⟨hsize, hmask, hoccupied, hnull⟩ := new_eq h
  have hlt : t.size < word := hsize ▸ calculateSize_lt d.sizeFactor minSize
  have hpos : 0 < t.size := by
    obtain ⟨k, hk⟩ := hp
    rw [hk]; exact Nat.two_pow_pos k
  refine ⟨⟨hp, hlt, hmask.trans (wsub_of_le hlt hpos), ?_, ?_⟩, hnull, ?_⟩
  · rw [hoccupied, List.length_replicate, bytes_eq hp hlt]
  · intro i _ hb
    simp [hoccupied] at hb
  · funext i
    simp [layout, hoccupied]

end

/-! ## The rounds of `remove` -/

section
variable (d : Decl E) {a : Table E}

theorem findRound_seeks (hs : Shape a) (value : E) :
    SeekRound a.size (fun e => d.equal e value) (layout a) (findRound d a value) := by
  intro i hi
  unfold findRound
  rw [hs.occupiedGet hi]
  cases he : layout a i with
  | none => simp
  | some e => cases hk : d.equal e value <;> simp [read_value he, hk, hs.next hi]

theorem shiftRound_shifts (hhash : ∀ v n, 0 < n → d.hash v n < n) (b : Table E) :
    ShiftRound b.size (fun v => d.hash v b.size) id
      (fun a : Table E => Shape a ∧ a.size = b.size ∧ a.nullable = b.nullable) layout (shiftRound d) := by
  rintro a i j ⟨hs, hsize, hnull⟩ hi hj hf
  rw [← hsize] at hi hj ⊢
  have hi' := next_lt hi
  unfold shiftRound
  simp only [hs.next hi]
  rw [hs.occupiedGet hi']
  cases he : layout a (next a.size i) with
  | none =>
    obtain ⟨occupied, hclear, hshape, hlay⟩ := vacate_spec hs hj
    exact ⟨{ a with occupied }, by simp [hclear], ⟨hshape, rfl, hnull⟩, hlay⟩
  | some e =>
    have hhome := hhash e a.size hs.size_pos
    have hv := hs.values j hj ((hs.layout_isSome hj).1 hf)
    obtain ⟨hshape, hlay⟩ := move_spec hs hj hf e
    have hone : ¬ (1 : Byte) = 0 := by decide
    simp only [Option.isSome_some, if_true, hone, if_false, ok_bind, read_value he, id]
    rw [hs.dist hhome hj, hs.dist hhome hi', write_of_lt _ hv]
    split
    · exact ⟨_, rfl, ⟨hshape, rfl, hnull⟩, hlay⟩
    · rfl

end

/-! ## Calls keep the shape -/

section
variable {d : Decl E} {a a' : Table E} {value : E} (hhash : ∀ v n, 0 < n → d.hash v n < n)
include hhash

theorem add_shape (hs : Shape a) {p : Option Nat} (h : add d a value = .ok (a', p)) : Shape a' := by
  have hstart := hhash value a.size hs.size_pos
  have hf : (scan a.size (fun e => d.equal e value) (layout a) a.size (d.hash value a.size)).Ends a.size _ _ :=
    scan_ends hstart
  rw [add] at h
  split at h
  · cases h
    exact { hs with }
  · rw [addLoop_eq d hs value _ hstart] at h
    cases hr : scan a.size (fun e => d.equal e value) (layout a) a.size (d.hash value a.size) with
    | hit i =>
      rw [hr] at h
      cases h
      exact hs
    | gap i =>
      rw [hr] at h hf
      obtain ⟨b, hput, h⟩ := bind_eq_ok.1 h
      cases h
      exact shape_put hs hf.1 hput
    | round =>
      rw [hr] at h
      cases h
      exact hs

theorem remove_shape (hs : Shape a) {fuel : Nat} {s : Byte} (h : remove d fuel a value = .ok (s, a')) : Shape a' := by
  rw [remove] at h
  split at h
  · split at h
    · cases h
      exact hs
    · cases h
      exact { hs with }
  · obtain ⟨p, hp, h⟩ := bind_eq_ok.1 h
    cases p with
    | none =>
      cases h
      exact hs
    | some j =>
      obtain ⟨hj, hfull⟩ := seek_ends (findRound_seeks d hs value) (hhash value a.size hs.size_pos) hp
      obtain ⟨b, hb, h⟩ := bind_eq_ok.1 h
      cases h
      exact (shift_keeps (shiftRound_shifts d hhash a) ⟨hs, rfl, rfl⟩ hj hj hfull hb).1

theorem call_shape (hs : Shape a) {fuel : Nat} {c : Call E} {r : Reply} (h : call d fuel a c = .ok (a', r)) :
    Shape a' := by
  cases c with
  | get value =>
    obtain ⟨p, -, h⟩ := bind_eq_ok.1 h
    cases h
    exact hs
  | add value =>
    obtain ⟨⟨b, p⟩, hadd, h⟩ := bind_eq_ok.1 h
    cases h
    exact add_shape hhash hs hadd
  | remove value =>
    obtain ⟨⟨s, b⟩, hrem, h⟩ := bind_eq_ok.1 h
    cases h
    exact remove_shape hhash hs hrem
  | clear =>
    obtain ⟨b, hclear, h⟩ := bind_eq_ok.1 h
    cases h
    obtain rfl := clear_eq_ok hs hclear
    exact shape_cleared hs

theorem run_shape {t : Table E} {es : List (Call E × Reply)} (hs : Shape t) (h : Run d t es a) : Shape a := by
  induction h with
  | nil => exact hs
  | call fuel _ hcall ih => exact call_shape hhash ih hcall

end

section
variable {d : Decl E} {a a' : Table E} {value : E}

theorem remove_nil (ho : a.occupied = []) (hv : d.equal value d.null = false) (fuel : Nat) :
    ∀ r, remove d fuel a value ≠ .ok r := by
  intro r h
  rw [remove, if_neg (by simp [hv])] at h
  obtain ⟨p, hp, -⟩ := bind_eq_ok.1 h
  cases fuel with
  | zero => cases hp
  | succ fuel =>
    obtain ⟨x, hx, -⟩ := bind_eq_ok.1 hp
    obtain ⟨byte, hget, -⟩ := bind_eq_ok.1 hx
    rw [ho] at hget
    cases hget

theorem call_nil (h0 : a.size = 0) (ho : a.occupied = []) {fuel : Nat} {c : Call E} {r : Reply}
    (h : call d fuel a c = .ok (a', r)) : a'.size = 0 ∧ a'.occupied = [] := by
  cases c with
  | get value =>
    obtain ⟨p, -, h⟩ := bind_eq_ok.1 h
    cases h
    exact ⟨h0, ho⟩
  | add value =>
    obtain ⟨⟨b, p⟩, hadd, h⟩ := bind_eq_ok.1 h
    cases h
    rw [add] at hadd
    split at hadd
    · cases hadd
      exact ⟨h0, ho⟩
    · rw [h0] at hadd
      cases hadd
      exact ⟨h0, ho⟩
  | remove value =>
    obtain ⟨⟨s, b⟩, hrem, h⟩ := bind_eq_ok.1 h
    cases h
    cases hv : d.equal value d.null with
    | false => exact absurd hrem (remove_nil ho hv fuel _)
    | true =>
      rw [remove, if_pos hv] at hrem
      split at hrem <;> cases hrem <;> exact ⟨h0, ho⟩
  | clear =>
    obtain ⟨b, hclear, h⟩ := bind_eq_ok.1 h
    obtain ⟨occupied, hfill, hb⟩ := bind_eq_ok.1 hclear
    cases h
    cases hb
    rw [h0, ho] at hfill
    cases hfill
    exact ⟨h0, rfl⟩

theorem run_nil {t : Table E} {es : List (Call E × Reply)} (h0 : t.size = 0) (ho : t.occupied = [])
    (h : Run d t es a) : a.size = 0 ∧ a.occupied = [] := by
  induction h with
  | nil => exact ⟨h0, ho⟩
  | call fuel _ hcall ih => exact call_nil ih.1 ih.2 hcall

end

end SphSc.SphSet

import SphSc.Lib.Ring
import Mathlib.Data.Nat.Log
import Mathlib.Order.Bounds.Basic
/-!
# Capacities

`name##_calculate_size` is the same function in `hashtable.h` and `set.h`.
`size_t` has 64 bits here, so `calculate_size_extra` is the shift by 32.
-/
open Ring

namespace SphSc

def calculateSize (sizeFactor n : Nat) : Nat :=
  let n := wmul sizeFactor n
  let n := if n < 2 then 2 else n
  let n := wsub n 1
  let n := n ||| n >>> 1
  let n := n ||| n >>> 2
  let n := n ||| n >>> 4
  let n := n ||| n >>> 8
  let n := n ||| n >>> 16
  let n := n ||| n >>> 32
  wadd 1 n

theorem calculateSize_lt (sizeFactor n : Nat) : calculateSize sizeFactor n < word :=
  Nat.mod_lt _ (by simp [word])

/-! ## Rounding up to a power of two -/

/-- `x` has the bits of `m` smeared down over `w` places. -/
def Smeared (m w x : Nat) : Prop := ∀ i, x.testBit i = true ↔ ∃ j < w, m.testBit (i + j) = true

theorem smeared_one (m : Nat) : Smeared m 1 m := by
  intro i
  constructor
  · intro h
    exact ⟨0, by omega, h⟩
  · rintro ⟨j, hj, h⟩
    obtain rfl : j = 0 := by omega
    exact h

theorem Smeared.or_shift {m w x : Nat} (h : Smeared m w x) : Smeared m (2 * w) (x ||| x >>> w) := by
  intro i
  rw [Nat.testBit_or, Nat.testBit_shiftRight, Bool.or_eq_true, h i, h (w + i)]
  constructor
  · rintro (⟨j, hj, hb⟩ | ⟨j, hj, hb⟩)
    · exact ⟨j, by omega, hb⟩
    · exact ⟨w + j, by omega, by rwa [show i + (w + j) = w + i + j by omega]⟩
  · rintro ⟨j, hj, hb⟩
    by_cases hlt : j < w
    · exact .inl ⟨j, hlt, hb⟩
    · exact .inr ⟨j - w, by omega, by rwa [show w + i + (j - w) = i + j by omega]⟩

/-- Smearing over the whole width sets every bit from the highest one down. -/
theorem Smeared.eq {m w x : Nat} (h : Smeared m w x) (hm : m ≠ 0) (hlt : m < 2 ^ w) : x = 2 ^ (m.log2 + 1) - 1 := by
  refine Nat.eq_of_testBit_eq fun i => Bool.eq_iff_iff.2 ?_
  rw [h i, Nat.testBit_two_pow_sub_one, decide_eq_true_eq]
  constructor
  · rintro ⟨j, -, hb⟩
    by_contra hle
    have hle : m.log2 < i + j := by omega
    rw [Nat.testBit_lt_two_pow ((Nat.log2_lt hm).1 hle)] at hb
    cases hb
  · intro hi
    have hlog := (Nat.log2_lt hm).2 hlt
    refine ⟨m.log2 - i, by omega, ?_⟩
    rw [show i + (m.log2 - i) = m.log2 by omega]
    exact Nat.testBit_log2 hm

theorem log2_succ {m : Nat} (hm : m ≠ 0) : m.log2 + 1 = Nat.clog 2 (m + 1) := by
  apply Nat.le_antisymm
  · rw [Nat.succ_le_iff, Nat.lt_clog_iff_pow_lt (by omega), Nat.lt_succ_iff]
    exact Nat.log2_self_le hm
  · exact Nat.clog_le_of_le_pow Nat.lt_log2_self

/-- The size is the next power of two, wrapped. -/
theorem calculateSize_eq (sizeFactor n : Nat) :
    calculateSize sizeFactor n = 2 ^ Nat.clog 2 (max 2 (wmul sizeFactor n)) % word := by
  have hlt : wmul sizeFactor n < word := Nat.mod_lt _ (by simp [word])
  obtain ⟨m, hm, hmlt, hm0, hmax⟩ : ∃ m, wsub (if wmul sizeFactor n < 2 then 2 else wmul sizeFactor n) 1 = m ∧
      m < 2 ^ 64 ∧ m ≠ 0 ∧ m + 1 = max 2 (wmul sizeFactor n) := by
    refine ⟨_, rfl, ?_, ?_, ?_⟩ <;> rw [wsub_of_le] <;> split <;> simp [word] at * <;> omega
  have hsmear := (smeared_one m).or_shift.or_shift.or_shift.or_shift.or_shift.or_shift
  have := hsmear.eq hm0 hmlt
  have hpos := Nat.two_pow_pos (m.log2 + 1)
  simp only [calculateSize, hm]
  simp only [Nat.reduceMul] at this
  rw [this, wadd, show 1 + (2 ^ (m.log2 + 1) - 1) = 2 ^ (m.log2 + 1) by omega, log2_succ hm0, hmax]

/-- The size is a power of two, unless it does not fit into a `size_t`. -/
theorem calculateSize_pow (sizeFactor n : Nat) :
    calculateSize sizeFactor n = 0 ∨ ∃ k, calculateSize sizeFactor n = 2 ^ k := by
  have hlt : wmul sizeFactor n < word := Nat.mod_lt _ (by simp [word])
  have hclog : Nat.clog 2 (max 2 (wmul sizeFactor n)) ≤ 64 := by
    apply Nat.clog_le_of_le_pow
    unfold word at hlt
    omega
  rw [calculateSize_eq]
  by_cases hk : Nat.clog 2 (max 2 (wmul sizeFactor n)) = 64
  · exact .inl (by rw [hk, word, Nat.mod_self])
  · exact .inr ⟨_, Nat.mod_eq_of_lt ((Nat.pow_lt_pow_iff_right (by omega)).2 (by omega))⟩

/-! ## Sizes that can be had -/

/-- Up to half of what a `size_t` holds, the size is the next power of two. -/
theorem calculateSize_of_le {sizeFactor n : Nat} (h : sizeFactor * n ≤ 2 ^ 63) :
    calculateSize sizeFactor n = 2 ^ Nat.clog 2 (max 2 (sizeFactor * n)) := by
  have hmul : wmul sizeFactor n = sizeFactor * n := Nat.mod_eq_of_lt (by unfold word; omega)
  have hclog : Nat.clog 2 (max 2 (sizeFactor * n)) ≤ 63 := Nat.clog_le_of_le_pow (by omega)
  rw [calculateSize_eq, hmul]
  exact Nat.mod_eq_of_lt ((Nat.pow_lt_pow_iff_right (by omega)).2 (by omega))

/-- The size is the least power of two that has room for two elements and for
those asked for. -/
theorem calculateSize_least (sizeFactor n : Nat) (h : sizeFactor * n ≤ 2 ^ 63) :
    IsLeast {size | (∃ k, size = 2 ^ k) ∧ max 2 (sizeFactor * n) ≤ size} (calculateSize sizeFactor n) := by
  rw [calculateSize_of_le h]
  constructor
  · exact ⟨⟨_, rfl⟩, Nat.le_pow_clog (by omega) _⟩
  · rintro size ⟨⟨k, rfl⟩, hroom⟩
    apply Nat.pow_le_pow_right (by omega)
    exact Nat.clog_le_of_le_pow hroom

/-- Three times 5 elements have room in 16 slots, not in 8. -/
theorem calculateSize_least_five :
    IsLeast {size | (∃ k, size = 2 ^ k) ∧ max 2 (3 * 5) ≤ size} (calculateSize 3 5) ∧ calculateSize 3 5 = 16 :=
  ⟨calculateSize_least 3 5 (by decide), by decide⟩

/-- Above it the size is zero or too small. -/
theorem calculateSize_lt_of_lt {sizeFactor n : Nat} (h : 2 ^ 63 < sizeFactor * n) :
    calculateSize sizeFactor n < sizeFactor * n := by
  rcases calculateSize_pow sizeFactor n with hzero | ⟨k, hk⟩
  · omega
  · have hlt := calculateSize_lt sizeFactor n
    rw [hk] at hlt ⊢
    have hk64 : k < 64 := (Nat.pow_lt_pow_iff_right (by omega)).1 hlt
    exact (Nat.pow_le_pow_right (by omega) (show k ≤ 63 by omega)).trans_lt h

end SphSc

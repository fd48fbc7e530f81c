import Mathlib.Data.BitVec
import Mathlib.Data.Fintype.EquivFin
import Mathlib.Order.Interval.Finset.Nat
import Mathlib.SetTheory.Cardinal.Finite
/-!
# Words

The operations mixers are made of lose nothing: xor with a shift of itself, a
product with an odd number, a rotation. The last section scales words to a
range and counts the words that give each value.
-/

namespace Words

variable {w : Nat}

instance instFiniteBitVec : Finite (BitVec w) := Finite.of_equiv (Fin (2 ^ w)) BitVec.equivFin.symm.toEquiv

/-! ## Operations that lose nothing -/

/-- Bit by bit from the top: the bit `k` places up is known already. -/
theorem xor_ushiftRight_injective {k : Nat} (hk : 0 < k) : Function.Injective fun z : BitVec w => z ^^^ z >>> k := by
  intro x y hxy
  have hbit : ∀ n i, w ≤ i + n → x.getLsbD i = y.getLsbD i := by
    intro n
    induction n with
    | zero =>
      intro i hi
      rw [BitVec.getLsbD_of_ge x i (by omega), BitVec.getLsbD_of_ge y i (by omega)]
    | succ n ih =>
      intro i hi
      have h := congrArg (BitVec.getLsbD · i) hxy
      simp only [BitVec.getLsbD_xor, BitVec.getLsbD_ushiftRight, ih (k + i) (by omega)] at h
      exact Bool.xor_left_inj.1 h
  exact BitVec.eq_of_getLsbD_eq fun i _ => hbit w i (by omega)

/-- Bit by bit from the bottom. -/
theorem xor_shiftLeft_injective {k : Nat} (hk : 0 < k) : Function.Injective fun z : BitVec w => z ^^^ z <<< k := by
  intro x y hxy
  have hbit : ∀ n, ∀ i < n, x.getLsbD i = y.getLsbD i := by
    intro n
    induction n with
    | zero => intro i hi; omega
    | succ n ih =>
      intro i hi
      have h := congrArg (BitVec.getLsbD · i) hxy
      have hlow : (x <<< k).getLsbD i = (y <<< k).getLsbD i := by
        rw [BitVec.getLsbD_shiftLeft, BitVec.getLsbD_shiftLeft]
        by_cases hik : i < k
        · simp [hik]
        · rw [ih (i - k) (by omega)]
      simp only [BitVec.getLsbD_xor, hlow] at h
      exact Bool.xor_left_inj.1 h
  exact BitVec.eq_of_getLsbD_eq fun i _ => hbit (i + 1) i (by omega)

theorem mul_injective (c inverse : BitVec w) (h : c * inverse = 1#w) : Function.Injective fun z : BitVec w => z * c := by
  intro x y hxy
  have hmul : x * c * inverse = y * c * inverse := congrArg (· * inverse) hxy
  rwa [BitVec.mul_assoc, BitVec.mul_assoc, h, BitVec.mul_one, BitVec.mul_one] at hmul

/-- The bits that leave on the left come in on the right. -/
def rotl (x : BitVec w) (k : Nat) : BitVec w := x <<< k ||| x >>> (w - k)

@[simp] theorem rotl_zero (k : Nat) : rotl (0 : BitVec w) k = 0 := by simp [rotl]

theorem rotl_injective {k : Nat} (hk : k < w) : Function.Injective fun z : BitVec w => rotl z k := by
  intro x y hxy
  refine BitVec.eq_of_getLsbD_eq fun i hi => ?_
  -- bit `i` has gone to `i + k`, or to `i + k - w`
  by_cases hik : i + k < w
  · have h := congrArg (BitVec.getLsbD · (i + k)) hxy
    simp only [rotl, BitVec.getLsbD_or, BitVec.getLsbD_shiftLeft, BitVec.getLsbD_ushiftRight] at h
    rw [BitVec.getLsbD_of_ge x _ (show w ≤ w - k + (i + k) by omega),
      BitVec.getLsbD_of_ge y _ (show w ≤ w - k + (i + k) by omega)] at h
    simpa only [hik, show ¬ i + k < k by omega, Nat.add_sub_cancel, decide_true, decide_false, Bool.not_false,
      Bool.true_and, Bool.or_false] using h
  · have h := congrArg (BitVec.getLsbD · (i + k - w)) hxy
    simp only [rotl, BitVec.getLsbD_or, BitVec.getLsbD_shiftLeft, BitVec.getLsbD_ushiftRight] at h
    rw [show w - k + (i + k - w) = i by omega] at h
    simpa only [show i + k - w < k by omega, decide_true, Bool.not_true, Bool.and_false, Bool.false_and,
      Bool.false_or] using h

/-! ## Scaling to a range

A number below `size` times `range` has a quotient below `range` when divided by
`size`. Those with a remainder of at least `size % range` are spread evenly.
-/

theorem ceil_le_iff {a r x : Nat} (hr : 0 < r) : (a + (r - 1)) / r ≤ x ↔ a ≤ x * r := by
  rw [← Nat.lt_succ_iff, Nat.div_lt_iff_lt_mul hr, Nat.succ_mul]
  omega

/-- The numbers that are accepted and give `k` are consecutive. -/
theorem scaled_iff {size range : Nat} (hrange : 0 < range) (hsize : 0 < size) (k x : Nat) :
    x * range / size = k ∧ size % range ≤ x * range % size ↔
      (k * size + size % range + (range - 1)) / range ≤ x ∧
        x < (k * size + size % range + (range - 1)) / range + size / range := by
  have hsplit := Nat.div_add_mod (x * range) size
  have hmod := Nat.mod_lt (x * range) hsize
  have hround : size % range + size / range * range = size := Nat.mod_add_div' size range
  have hbetween : x * range / size = k ∧ size % range ≤ x * range % size ↔
      k * size + size % range ≤ x * range ∧ x * range < k * size + size := by
    constructor
    · rintro ⟨rfl, hle⟩
      rw [Nat.mul_comm (x * range / size)]
      omega
    · rintro ⟨hle, hlt⟩
      have hk : x * range / size = k :=
        Nat.div_eq_of_lt_le (by omega) (by rw [Nat.succ_mul]; omega)
      rw [hk, Nat.mul_comm] at hsplit
      exact ⟨hk, by omega⟩
  rw [hbetween, ceil_le_iff hrange]
  refine and_congr_right fun _ => ?_
  rw [← not_le, ← not_le, not_iff_not]
  by_cases hq : size / range ≤ x
  · rw [← Nat.le_sub_iff_add_le hq, ceil_le_iff hrange, Nat.sub_mul]
    have hqx := Nat.mul_le_mul_right range hq
    omega
  · have hxq := Nat.mul_le_mul_right range (show x + 1 ≤ size / range by omega)
    rw [Nat.succ_mul] at hxq
    exact iff_of_false (by omega) (fun h => hq ((Nat.le_add_left _ _).trans h))

/-- Every value of the range comes from the same number of words. -/
theorem card_scaled {range k : Nat} (hrange : 0 < range) (hk : k < range) :
    Nat.card {x : BitVec w // x.toNat * range / 2 ^ w = k ∧ 2 ^ w % range ≤ x.toNat * range % 2 ^ w} =
      2 ^ w / range := by
  have hsize : 0 < 2 ^ w := Nat.two_pow_pos w
  let first := (k * 2 ^ w + 2 ^ w % range + (range - 1)) / range
  let toInterval : {x : BitVec w // x.toNat * range / 2 ^ w = k ∧ 2 ^ w % range ≤ x.toNat * range % 2 ^ w} →
      Finset.Ico first (first + 2 ^ w / range) := fun x =>
    ⟨x.1.toNat, Finset.mem_Ico.2 ((scaled_iff hrange hsize k _).1 x.2)⟩
  have hbijective : Function.Bijective toInterval := by
    constructor
    · intro x y hxy
      exact Subtype.ext (BitVec.eq_of_toNat_eq (congrArg Subtype.val hxy))
    · rintro ⟨n, hn⟩
      have hscaled := (scaled_iff hrange hsize k n).2 (Finset.mem_Ico.1 hn)
      have hlt : n < 2 ^ w := by
        have hquot : n * range / 2 ^ w < range := by omega
        rw [Nat.div_lt_iff_lt_mul hsize, Nat.mul_comm range] at hquot
        exact Nat.lt_of_mul_lt_mul_right hquot
      have hto : (BitVec.ofNat w n).toNat = n := by rw [BitVec.toNat_ofNat, Nat.mod_eq_of_lt hlt]
      exact ⟨⟨BitVec.ofNat w n, by rwa [hto]⟩, Subtype.ext hto⟩
  rw [Nat.card_eq_of_bijective toInterval hbijective, Nat.card_eq_fintype_card, Fintype.card_coe, Nat.card_Ico,
    Nat.add_sub_cancel_left]

end Words

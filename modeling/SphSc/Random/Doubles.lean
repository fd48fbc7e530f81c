import SphSc.Lib.Rounding
import SphSc.Random.Equidistribution
/-!
# Draws as doubles

The functions that draw doubles, in rounded arithmetic. Those of a fixed range
are exact. In any other range a draw may be rounded up, which makes it the range
itself where the range is too small.
-/
open Exec Words Rounding

namespace SphSc.Random

/-- A finite `double`, in units of the least one above zero. `R` is how products
and differences are rounded. -/
structure Double (R : Rounding 53) where
  units : ℤ
  isFloat : IsFloat 53 units

namespace Double

variable {R : Rounding 53}

/-- 1 is `2` to this power of units. -/
def one : Nat := 1074

def value (a : Double R) : ℚ := a.units / 2 ^ one

/-- The double nearest to a number of units. -/
def nearest (x : ℚ) : Double R := ⟨R.round x, R.isFloat x⟩

def pow (e : Nat) : Double R := ⟨2 ^ e, isFloat_pow e⟩

instance instMul : Mul (Double R) := ⟨fun a b => nearest (a.units * b.units / 2 ^ one)⟩

instance instSub : Sub (Double R) := ⟨fun a b => nearest (a.units - b.units : ℤ)⟩

instance instOne : OfNat (Double R) 1 := ⟨pow one⟩

instance instTwo : OfNat (Double R) 2 := ⟨pow (one + 1)⟩

/-- `sph_random_f64_from_u64`: the conversion, and the product with `0x1.0p-53`. -/
def fromU64 (a : Word) : Double R := nearest ((a >>> 11).toNat * 2 ^ one) * pow (one - 53)

theorem upper_lt (a : Word) : (a >>> 11).toNat < 2 ^ 53 := by
  rw [BitVec.toNat_ushiftRight, Nat.shiftRight_eq_div_pow, Nat.div_lt_iff_lt_mul (by norm_num)]
  exact Nat.lt_of_lt_of_le a.isLt (by norm_num)

theorem abs_upper_le (a : Word) : |((a >>> 11).toNat : ℤ)| ≤ 2 ^ 53 := by
  rw [abs_of_nonneg (Int.natCast_nonneg _)]
  exact_mod_cast (upper_lt a).le

/-- A number of 53 bits times a power of two is not rounded. -/
theorem round_mul_pow {k : ℤ} (hk : |k| ≤ 2 ^ 53) {e : Nat} {x : ℚ} (hx : x = k * 2 ^ e) : R.round x = k * 2 ^ e := by
  have hfloat : IsFloat 53 (k * 2 ^ e) := by
    refine ⟨e, Dvd.intro_left k rfl, ?_⟩
    rw [abs_mul, abs_of_nonneg (by positivity : (0 : ℤ) ≤ 2 ^ e), pow_add]
    exact mul_le_mul_of_nonneg_right hk (by positivity)
  have h := R.round_of_isFloat hfloat
  rw [← h, hx]
  push_cast
  rfl

/-- So its product with a power of two is the product. -/
theorem units_mul_pow {a : Double R} {k : ℤ} (hk : |k| ≤ 2 ^ 53) {e f : Nat} (ha : a.units = k * 2 ^ (e + one)) :
    (a * pow f).units = k * 2 ^ (e + f) := by
  apply round_mul_pow hk
  rw [ha, pow, div_eq_iff (by positivity)]
  push_cast
  ring

theorem units_fromU64 (a : Word) : (fromU64 a : Double R).units = (a >>> 11).toNat * 2 ^ (one - 53) := by
  have hconvert : (nearest ((a >>> 11).toNat * 2 ^ one) : Double R).units = (a >>> 11).toNat * 2 ^ (0 + one) :=
    round_mul_pow (abs_upper_le a) (by rw [Nat.zero_add]; push_cast; ring)
  have h := units_mul_pow (f := one - 53) (abs_upper_le a) hconvert
  rwa [Nat.zero_add] at h

theorem pow_one_eq : (2 : ℚ) ^ one = 2 ^ (one - 53) * 2 ^ 53 := by
  have hone : one = one - 53 + 53 := by decide
  exact (congrArg (fun e => (2 : ℚ) ^ e) hone).trans (pow_add _ _ _)

/-- `fromU64` is exact. -/
theorem value_fromU64 (a : Word) : (fromU64 a : Double R).value = f64FromU64 a := by
  rw [value, units_fromU64, pow_one_eq, f64FromU64, div_eq_iff (by positivity)]
  push_cast
  ring

/-- What `sph_random_f64_bounded` returns for the words `a`. -/
theorem units_mul_fromU64 (range : Double R) (a : Word) :
    (range * fromU64 a).units = R.round (range.units * (a >>> 11).toNat / 2 ^ 53) := by
  show R.round (range.units * (fromU64 a : Double R).units / 2 ^ one) = _
  apply congrArg R.round
  rw [units_fromU64, pow_one_eq, div_eq_div_iff (by positivity) (by positivity)]
  push_cast
  ring

/-! ## Fixed ranges -/

theorem value_eq {a : Double R} {k : ℤ} {e : Nat} (he : one = e + 52) (h : a.units = k * 2 ^ e) : a.value = k / 2 ^ 52 := by
  have hone : (2 : ℚ) ^ one = 2 ^ e * 2 ^ 52 := (congrArg (fun e => (2 : ℚ) ^ e) he).trans (pow_add _ _ _)
  rw [value, h, hone, div_eq_div_iff (by positivity) (by positivity)]
  push_cast
  ring

theorem value_one_mul (a : Word) : (1 * fromU64 a : Double R).value = 1 * f64FromU64 a := by
  have hunits : (1 * fromU64 a : Double R).units = (fromU64 a : Double R).units := by
    rw [units_mul_fromU64, units_fromU64]
    apply round_mul_pow (abs_upper_le a)
    show ((2 ^ one : ℤ) : ℚ) * _ / 2 ^ 53 = _
    rw [div_eq_iff (by positivity)]
    push_cast
    rw [pow_one_eq]
    ring
  rw [value, hunits, one_mul, ← value_fromU64 (R := R) a, value]

theorem value_two_mul_sub (a : Word) : (2 * fromU64 a - 1 : Double R).value = 2 * f64FromU64 a - 1 := by
  have hk := upper_lt a
  have hexp : one = (one - 52) + 52 := by decide
  have htwo : (2 * fromU64 a : Double R).units = (a >>> 11).toNat * 2 ^ (one - 52) := by
    rw [units_mul_fromU64]
    apply round_mul_pow (abs_upper_le a)
    show ((2 ^ (one + 1) : ℤ) : ℚ) * _ / 2 ^ 53 = _
    have hpow : (2 : ℚ) ^ (one + 1) = 2 ^ (one - 52) * 2 ^ 53 :=
      (congrArg (fun e => (2 : ℚ) ^ (e + 1)) hexp).trans (pow_add _ (one - 52) 53)
    rw [div_eq_iff (by positivity)]
    push_cast
    rw [hpow]
    ring
  have hunits : (2 * fromU64 a - 1 : Double R).units = ((a >>> 11).toNat - 2 ^ 52) * 2 ^ (one - 52) := by
    refine round_mul_pow (abs_le.2 ⟨by omega, by omega⟩) ?_
    have hpow : (2 : ℤ) ^ one = 2 ^ (one - 52) * 2 ^ 52 :=
      (congrArg (fun e => (2 : ℤ) ^ e) hexp).trans (pow_add _ (one - 52) 52)
    show ((((2 * fromU64 a : Double R).units - 2 ^ one : ℤ)) : ℚ) = _
    rw [htwo, hpow]
    push_cast
    ring
  rw [value_eq hexp hunits, f64FromU64]
  push_cast
  ring

end Double

open Double

/-- All dyadic rationals k / 2 ^ 53 are equally likely, in any draw of a series.
So are those from -1 to 1, 1 left out. -/
theorem doubles_equally_likely (R : Rounding 53) (n : Nat) :
    EquallyLikely (fun s => (f64 (fromU64 (R := R)) (after s n)).1.value) (fun k => k / 2 ^ 53) ∧
    EquallyLikely (fun s => (f640to1 (fromU64 (R := R)) (after s n)).1.value) (fun k => k / 2 ^ 53) ∧
    EquallyLikely (fun s => (f641to1 (fromU64 (R := R)) (after s n)).1.value) (fun k => k / 2 ^ 52 - 1) := by
  obtain ⟨h₁, h₂, h₃⟩ := rationals_equally_likely n
  have h₁' : ∀ s, (f64 (fromU64 (R := R)) (after s n)).1.value = (f64 f64FromU64 (after s n)).1 :=
    fun s => value_fromU64 _
  have h₂' : ∀ s, (f640to1 (fromU64 (R := R)) (after s n)).1.value = (f640to1 f64FromU64 (after s n)).1 :=
    fun s => value_one_mul _
  have h₃' : ∀ s, (f641to1 (fromU64 (R := R)) (after s n)).1.value = (f641to1 f64FromU64 (after s n)).1 :=
    fun s => value_two_mul_sub _
  simp only [h₁', h₂', h₃']
  exact ⟨h₁, h₂, h₃⟩

/-! ## Other ranges -/

section
variable {R : Rounding 53} {range : Double R}

/-- The product before it is rounded. -/
theorem product_le (h : 0 < range.units) (a : Word) :
    (range.units * (a >>> 11).toNat / 2 ^ 53 : ℚ) ≤ range.units - range.units / 2 ^ 53 := by
  have hk : ((a >>> 11).toNat : ℚ) + 1 ≤ 2 ^ 53 := by exact_mod_cast upper_lt a
  have hpos : (0 : ℚ) < range.units := by exact_mod_cast h
  have hmul := mul_le_mul_of_nonneg_left hk hpos.le
  rw [div_le_iff₀ (by positivity), sub_mul, div_mul_cancel₀ _ (by positivity)]
  linarith

theorem bounded_nonneg (h : 0 < range.units) (a : Word) : 0 ≤ (range * fromU64 a).units := by
  rw [units_mul_fromU64]
  have hpos : (0 : ℚ) < range.units := by exact_mod_cast h
  exact R.round_nonneg (by positivity)

theorem bounded_le (h : 0 < range.units) (a : Word) : (range * fromU64 a).units ≤ range.units := by
  rw [units_mul_fromU64]
  have hpos : (0 : ℚ) < range.units := by exact_mod_cast h
  have hshare : (0 : ℚ) < range.units / 2 ^ 53 := by positivity
  exact R.round_le range.isFloat ((product_le h a).trans (by linarith))

/-- What is nearer to a float below is not rounded to the range. -/
theorem round_lt_of_float {x : ℚ} {y m : ℤ} (hy : IsFloat 53 y) (hym : y < m) (hx : 2 * x < y + m) : R.round x < m := by
  by_contra hge
  have hge : (m : ℚ) ≤ R.round x := by exact_mod_cast not_lt.1 hge
  have hym : (y : ℚ) < m := by exact_mod_cast hym
  have hnear := R.nearest x y hy
  rw [abs_of_nonpos (by linarith)] at hnear
  rcases abs_cases (x - (y : ℚ)) with ⟨h, _⟩ | ⟨h, _⟩ <;> linarith

theorem bounded_lt (h : 2 ^ 52 < range.units) (a : Word) : (range * fromU64 a).units < range.units := by
  rw [units_mul_fromU64]
  have hpos : 0 < range.units := lt_trans (by norm_num) h
  have hle := product_le hpos a
  obtain ⟨e, hlow, hhigh⟩ := exists_pow (p := 52) (x := range.units) (by rw [abs_of_pos hpos]; exact h.le)
  rw [abs_of_pos hpos] at hlow hhigh
  have hspace : (0 : ℤ) < 2 ^ e := by positivity
  rcases hlow.eq_or_lt with heq | hlt
  · -- a power of two: the floats below it are closer together than those above
    cases e with
    | zero => simp [← heq] at h
    | succ e =>
      have hm : range.units = 2 ^ 53 * 2 ^ e := by
        rw [← heq]
        ring
      have hfloat : IsFloat 53 (range.units - 2 ^ e) := by
        refine ⟨e, ⟨2 ^ 53 - 1, by rw [hm]; ring⟩, ?_⟩
        have hpow : (0 : ℤ) < 2 ^ e := by positivity
        rw [hm, pow_add, abs_of_nonneg (by linarith)]
        linarith
      apply round_lt_of_float hfloat (by linarith [(by positivity : (0 : ℤ) < 2 ^ e)])
      have hshare : (range.units : ℚ) / 2 ^ 53 = 2 ^ e := by
        rw [hm]
        push_cast
        rw [div_eq_iff (by positivity)]
        ring
      have hpow : (0 : ℚ) < 2 ^ e := by positivity
      push_cast
      linarith
  · have hdvd : 2 ^ e ∣ range.units := by
      cases e with
      | zero => simp
      | succ e =>
        apply range.isFloat.dvd_succ (by norm_num)
        rw [abs_of_pos hpos, show 53 + e = 52 + (e + 1) by omega]
        exact hlow
    have hfloat : IsFloat 53 (range.units - 2 ^ e) := by
      refine ⟨e, dvd_sub hdvd dvd_rfl, ?_⟩
      have hge : (2 : ℤ) ^ e ≤ 2 ^ (52 + e) := pow_le_pow_right₀ (by norm_num) (by omega)
      rw [abs_of_nonneg (by linarith), show 53 + e = 52 + e + 1 by omega]
      linarith
    apply round_lt_of_float hfloat (by linarith)
    have hlt : (2 : ℚ) ^ (52 + e) < range.units := by exact_mod_cast hlt
    have hshare : (2 : ℚ) ^ e < 2 * (range.units / 2 ^ 53) := by
      rw [← mul_div_assoc, lt_div_iff₀ (by positivity)]
      have hpow : (2 : ℚ) ^ e * 2 ^ 53 = 2 * 2 ^ (52 + e) := by ring
      linarith
    push_cast
    linarith

/-- The words whose product is the greatest. -/
theorem fromU64_allOnes : (((-1 : Word) >>> 11).toNat : ℚ) = 2 ^ 53 - 1 := by
  have h : ((-1 : Word) >>> 11).toNat = 2 ^ 53 - 1 := by decide
  rw [h]
  norm_num

/-- Half a unit is less than the spacing of the least doubles. -/
theorem bounded_eq (h0 : 0 < range.units) (h : range.units < 2 ^ 52) : (range * fromU64 (-1)).units = range.units := by
  rw [units_mul_fromU64, fromU64_allOnes]
  have hpos : (0 : ℚ) < range.units := by exact_mod_cast h0
  have hlt : (range.units : ℚ) < 2 ^ 52 := by exact_mod_cast h
  have hx : (range.units : ℚ) * (2 ^ 53 - 1) / 2 ^ 53 = range.units - range.units / 2 ^ 53 := by
    field_simp
  have hshare : (range.units : ℚ) / 2 ^ 53 < 1 / 2 := by
    rw [div_lt_div_iff₀ (by positivity) (by positivity)]
    linarith
  have hshare0 : (0 : ℚ) < range.units / 2 ^ 53 := by positivity
  rw [hx]
  generalize (range.units : ℚ) / 2 ^ 53 = share at hshare hshare0
  have hnear := R.nearest (range.units - share) range.units range.isFloat
  rw [show (range.units : ℚ) - share - range.units = -share by ring, abs_neg, abs_of_pos hshare0] at hnear
  obtain ⟨hlo, hhi⟩ := abs_le.1 hnear
  have h₁ : (R.round (range.units - share) : ℚ) < range.units + 1 := by linarith
  have h₂ : (range.units : ℚ) < R.round (range.units - share) + 1 := by linarith
  have h₁ : R.round (range.units - share) < range.units + 1 := by exact_mod_cast h₁
  have h₂ : range.units < R.round (range.units - share) + 1 := by exact_mod_cast h₂
  omega

end

/-- A tie, which goes to the even number, the range. -/
theorem bounded_eq_min (range : Double (toEven 53 (by decide))) (h : range.units = 2 ^ 52) :
    (range * fromU64 (-1)).units = range.units := by
  have htie : roundEven 53 (2 ^ 52 * (2 ^ 53 - 1) / 2 ^ 53) = 2 ^ 52 := by decide +kernel
  rw [units_mul_fromU64, fromU64_allOnes, h]
  push_cast
  exact htie

/-- Draws in a range are in it, and the range itself is not drawn exactly where it
is above the least double that has all its bits, 2 ^ -1022. -/
theorem f64Bounded_lt_iff (range : Double (toEven 53 (by decide))) (h : 0 < range.units) :
    (∀ s, 0 ≤ (f64Bounded fromU64 range s).1.units ∧ (f64Bounded fromU64 range s).1.units ≤ range.units) ∧
      ((∀ s, (f64Bounded fromU64 range s).1.units < range.units) ↔ 2 ^ 52 < range.units) := by
  refine ⟨fun s => ⟨bounded_nonneg h _, bounded_le h _⟩, fun hall => ?_, fun hlt s => bounded_lt hlt _⟩
  by_contra hle
  have hdraw : (range * fromU64 (-1)).units < range.units := hall ⟨-1, 0, 0, 0⟩
  rcases (not_lt.1 hle).eq_or_lt with heq | hlt
  · exact hdraw.ne (bounded_eq_min range heq)
  · exact hdraw.ne (bounded_eq h hlt)

/-- The range 8. -/
theorem f64Bounded_lt_eight : (pow (one + 3) : Double (toEven 53 (by decide))).value = 8 ∧
    ∀ s, (f64Bounded fromU64 (pow (one + 3) : Double (toEven 53 (by decide))) s).1.units <
      (pow (one + 3) : Double (toEven 53 (by decide))).units := by
  have hlt : (2 : ℤ) ^ 52 < 2 ^ (one + 3) := pow_lt_pow_right₀ (by norm_num) (by decide)
  have hpos : (0 : ℤ) < 2 ^ (one + 3) := by positivity
  refine ⟨?_, (f64Bounded_lt_iff (pow (one + 3)) hpos).2.2 hlt⟩
  rw [value, pow, div_eq_iff (by positivity)]
  push_cast
  ring

end SphSc.Random

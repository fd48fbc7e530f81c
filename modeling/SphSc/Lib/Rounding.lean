import Mathlib.Algebra.Order.Floor.Ring
import Mathlib.Data.Int.Log
import Mathlib.Data.Rat.Floor
import Mathlib.Tactic.Linarith
import Mathlib.Tactic.Positivity
import Mathlib.Tactic.Ring
/-!
# Rounding to nearest

Binary floating-point numbers of `p` bits, in units of the smallest one above
zero, so that they are integers, with no bound on the exponent. A rounding gives
a number nearest to what it is given, whichever way it breaks ties.
-/

namespace Rounding

variable {p : Nat}

/-- Numbers of at most `p` bits and as many zeros after them as there may be. -/
def IsFloat (p : Nat) (x : ℤ) : Prop := ∃ e : Nat, 2 ^ e ∣ x ∧ |x| ≤ 2 ^ (p + e)

theorem IsFloat.neg {x : ℤ} (h : IsFloat p x) : IsFloat p (-x) := by
  obtain ⟨e, hdvd, hle⟩ := h
  exact ⟨e, hdvd.neg_right, by rwa [abs_neg]⟩

theorem isFloat_of_abs_le {x : ℤ} (h : |x| ≤ 2 ^ p) : IsFloat p x := ⟨0, by simp, h⟩

theorem isFloat_zero : IsFloat p 0 := isFloat_of_abs_le (by simp)

theorem isFloat_pow (e : Nat) : IsFloat p (2 ^ e) :=
  ⟨e, dvd_rfl, by
    rw [abs_of_nonneg (by positivity), pow_add]
    exact le_mul_of_one_le_left (by positivity) (one_le_pow₀ (by norm_num))⟩

/-- A number this large has one zero more, where there are any bits. -/
theorem IsFloat.dvd_succ (hp : 0 < p) {x : ℤ} (h : IsFloat p x) {e : Nat} (hle : 2 ^ (p + e) ≤ |x|) : 2 ^ (e + 1) ∣ x := by
  rcases lt_or_eq_of_le hle with hlt | heq
  · obtain ⟨f, hdvd, hf⟩ := h
    have hef : p + e < p + f := (pow_lt_pow_iff_right₀ (by norm_num : (1 : ℤ) < 2)).1 (hlt.trans_le hf)
    exact (pow_dvd_pow 2 (by omega)).trans hdvd
  · rw [← dvd_abs, ← heq]
    exact pow_dvd_pow 2 (by omega)

end Rounding

/-- A rounding to `p` bits. -/
structure Rounding (p : Nat) where
  round : ℚ → ℤ
  isFloat : ∀ x, Rounding.IsFloat p (round x)
  nearest : ∀ (x : ℚ) (y : ℤ), Rounding.IsFloat p y → |x - round x| ≤ |x - y|

namespace Rounding

variable {p : Nat} (R : Rounding p)

theorem round_of_isFloat {x : ℤ} (h : IsFloat p x) : R.round x = x := by
  have := R.nearest x x h
  rw [sub_self, abs_zero] at this
  have heq : (x : ℚ) - R.round x = 0 := abs_eq_zero.1 (le_antisymm this (abs_nonneg _))
  exact_mod_cast (sub_eq_zero.1 heq).symm

theorem round_mono {x y : ℚ} (h : x ≤ y) : R.round x ≤ R.round y := by
  rcases h.eq_or_lt with rfl | hlt
  · exact le_rfl
  by_contra hgt
  have hgt : (R.round y : ℚ) < R.round x := by exact_mod_cast not_le.1 hgt
  -- each is nearer to its own value than the other is
  have hx := R.nearest x (R.round y) (R.isFloat y)
  have hy := R.nearest y (R.round x) (R.isFloat x)
  rcases abs_cases (x - R.round x) with ⟨h1, _⟩ | ⟨h1, _⟩ <;> rcases abs_cases (x - R.round y) with ⟨h2, _⟩ | ⟨h2, _⟩ <;>
    rcases abs_cases (y - R.round x) with ⟨h3, _⟩ | ⟨h3, _⟩ <;> rcases abs_cases (y - R.round y) with ⟨h4, _⟩ | ⟨h4, _⟩ <;>
    linarith

theorem le_round {x : ℚ} {y : ℤ} (hy : IsFloat p y) (h : (y : ℚ) ≤ x) : y ≤ R.round x := by
  rw [← R.round_of_isFloat hy]
  exact R.round_mono h

theorem round_le {x : ℚ} {y : ℤ} (hy : IsFloat p y) (h : x ≤ y) : R.round x ≤ y := by
  rw [← R.round_of_isFloat hy]
  exact R.round_mono h

theorem round_nonneg {x : ℚ} (h : 0 ≤ x) : 0 ≤ R.round x := R.le_round isFloat_zero (by exact_mod_cast h)

/-- Numbers below this have one in their grid within half of its spacing. -/
theorem error_le {x : ℚ} {e : Nat} (h : |x| < 2 ^ (p + e)) : 2 * |x - R.round x| ≤ 2 ^ e := by
  have hpos : (0 : ℚ) < 2 ^ e := by positivity
  obtain ⟨hlo, hhi⟩ := abs_lt.1 h
  rw [pow_add] at hlo hhi
  -- the grid points on both sides
  have hq : (⌊x / 2 ^ e⌋ : ℚ) * 2 ^ e ≤ x := (le_div_iff₀ hpos).1 (Int.floor_le _)
  have hq' : x < (⌊x / 2 ^ e⌋ + 1 : ℚ) * 2 ^ e := (div_lt_iff₀ hpos).1 (Int.lt_floor_add_one _)
  generalize ⌊x / 2 ^ e⌋ = q at hq hq'
  have hlow : -(2 : ℤ) ^ p ≤ q := by
    have hcast : -(2 : ℚ) ^ p < q + 1 := lt_of_mul_lt_mul_right (by linarith) hpos.le
    have : -(2 : ℤ) ^ p < q + 1 := by exact_mod_cast hcast
    omega
  have hhigh : q < (2 : ℤ) ^ p := by
    have hcast : (q : ℚ) < 2 ^ p := lt_of_mul_lt_mul_right (by linarith) hpos.le
    exact_mod_cast hcast
  have hgrid : ∀ j : ℤ, -(2 : ℤ) ^ p ≤ j → j ≤ 2 ^ p → IsFloat p (j * 2 ^ e) := by
    intro j h₁ h₂
    refine ⟨e, Dvd.intro_left j rfl, ?_⟩
    rw [abs_mul, abs_of_nonneg (by positivity : (0 : ℤ) ≤ 2 ^ e), pow_add]
    exact mul_le_mul_of_nonneg_right (abs_le.2 ⟨h₁, h₂⟩) (by positivity)
  have hbelow := R.nearest x (q * 2 ^ e) (hgrid q hlow hhigh.le)
  have habove := R.nearest x ((q + 1) * 2 ^ e) (hgrid (q + 1) (by omega) (by omega))
  push_cast at hbelow habove
  rw [abs_of_nonneg (sub_nonneg.2 hq)] at hbelow
  rw [abs_of_nonpos (sub_nonpos.2 hq'.le)] at habove
  linarith

/-- The unit of relative error. -/
def unit (p : Nat) : ℚ := 1 / 2 ^ p

theorem unit_nonneg (p : Nat) : 0 ≤ unit p := by
  unfold unit
  positivity

/-- Between two powers of two. -/
theorem exists_pow {x : ℤ} (h : 2 ^ p ≤ |x|) : ∃ k, (2 : ℤ) ^ (p + k) ≤ |x| ∧ |x| < 2 ^ (p + k + 1) := by
  obtain ⟨n, hn⟩ : ∃ n : Nat, |x| = n := ⟨x.natAbs, Int.abs_eq_natAbs x⟩
  rw [hn] at h ⊢
  have hle : 2 ^ p ≤ n := by exact_mod_cast h
  have hn0 : n ≠ 0 := (Nat.lt_of_lt_of_le (Nat.two_pow_pos p) hle).ne'
  have hlog : p ≤ Nat.log 2 n := (Nat.le_log_iff_pow_le (by norm_num) hn0).2 hle
  refine ⟨Nat.log 2 n - p, ?_, ?_⟩
  · rw [Nat.add_sub_cancel' hlog]
    exact_mod_cast Nat.pow_log_le_self 2 hn0
  · rw [Nat.add_sub_cancel' hlog]
    exact_mod_cast Nat.lt_pow_succ_log_self (by norm_num) n

/-- Sums and differences lose at most that much of themselves: below `2 ^ p`
they lose nothing. -/
theorem relative_error_le (x : ℤ) : |(x : ℚ) - R.round x| ≤ unit p * |(x : ℚ)| := by
  by_cases hsmall : |x| ≤ 2 ^ p
  · rw [R.round_of_isFloat (isFloat_of_abs_le hsmall), sub_self, abs_zero]
    exact mul_nonneg (unit_nonneg p) (abs_nonneg _)
  obtain ⟨k, hlow, hhigh⟩ := exists_pow (not_le.1 hsmall).le
  have hlow : (2 : ℚ) ^ (p + k) ≤ |(x : ℚ)| := by exact_mod_cast hlow
  have hhigh : |(x : ℚ)| < 2 ^ (p + (k + 1)) := by exact_mod_cast hhigh
  have herror := R.error_le hhigh
  have hpos : (0 : ℚ) < 2 ^ p := by positivity
  rw [pow_add] at hlow
  rw [pow_succ] at herror
  rw [unit, one_div_mul_eq_div, le_div_iff₀ hpos]
  nlinarith [abs_nonneg ((x : ℚ) - R.round x)]

/-! ## The error of a sum -/

def add (x y : ℤ) : ℤ := R.round (x + y : ℤ)

def sub (x y : ℤ) : ℤ := R.round (x - y : ℤ)

theorem add_of_isFloat {x y : ℤ} (h : IsFloat p (x + y)) : R.add x y = x + y := R.round_of_isFloat h

theorem sub_of_isFloat {x y : ℤ} (h : IsFloat p (x - y)) : R.sub x y = x - y := R.round_of_isFloat h

/-- A sum is not much greater than it should be. -/
theorem add_le {x y : ℤ} (h : 0 ≤ x + y) : (R.add x y : ℚ) ≤ (1 + unit p) * (x + y) := by
  have hloss := R.relative_error_le (x + y)
  have hpos : (0 : ℚ) ≤ x + y := by exact_mod_cast h
  push_cast at hloss
  rw [abs_of_nonneg hpos] at hloss
  have := neg_abs_le ((x : ℚ) + y - R.round (x + y))
  unfold Rounding.add
  push_cast
  linarith

theorem abs_add_le_mul (x y : ℤ) : |(R.add x y : ℚ)| ≤ (1 + unit p) * (|(x : ℚ)| + |(y : ℚ)|) := by
  have hloss : |(R.add x y : ℚ) - (x + y)| ≤ unit p * |(x : ℚ) + y| := by
    rw [abs_sub_comm]
    exact_mod_cast R.relative_error_le (x + y)
  have habs := abs_add_le (x : ℚ) y
  have hle := mul_le_mul_of_nonneg_left habs (unit_nonneg p)
  have := abs_sub_abs_le_abs_sub (R.add x y : ℚ) (x + y)
  linarith

theorem le_add {x y : ℤ} (hx : IsFloat p x) (hy : 0 ≤ y) : x ≤ R.add x y :=
  R.le_round hx (by exact_mod_cast le_add_of_nonneg_right hy)

/-- The lesser number bounds the error, since the greater one is a float. -/
theorem add_error_le {x y : ℤ} (hx : IsFloat p x) (hy : 0 ≤ y) : |x + y - R.add x y| ≤ y := by
  have hy' : (0 : ℚ) ≤ y := by exact_mod_cast hy
  have h := R.nearest (x + y : ℤ) x hx
  rw [show ((x + y : ℤ) : ℚ) - (x : ℤ) = (y : ℤ) by push_cast; ring, abs_of_nonneg hy'] at h
  exact_mod_cast h

/-- A common exponent of two floats that fits the lesser one. -/
theorem common_exponent {x y : ℤ} (hx : IsFloat p x) (hy : IsFloat p y) (h0 : 0 ≤ y) (hle : y ≤ x) :
    ∃ e, 2 ^ e ∣ x ∧ 2 ^ e ∣ y ∧ y ≤ 2 ^ (p + e) := by
  obtain ⟨f, hxf, hxle⟩ := hx
  obtain ⟨e, hye, hyle⟩ := hy
  rw [abs_of_nonneg h0] at hyle
  rw [abs_of_nonneg (h0.trans hle)] at hxle
  rcases le_total e f with hef | hfe
  · exact ⟨e, (pow_dvd_pow 2 hef).trans hxf, hye, hyle⟩
  · exact ⟨f, hxf, (pow_dvd_pow 2 hfe).trans hye, hle.trans hxle⟩

/-- A sum that is rounded to a grid of `2 ^ (k + 1)`. -/
theorem add_rounded {x y : ℤ} (hp : 0 < p) (hx : IsFloat p x) (h0 : 0 ≤ y) (hle : y ≤ x) {e k : Nat}
    (hye : 2 ^ e ∣ y) (hyle : y ≤ 2 ^ (p + e)) (hek : e ≤ k) (hlow : 2 ^ (p + k) ≤ x + y)
    (hhigh : x + y < 2 ^ (p + k + 1)) : 2 ^ (k + 1) ∣ R.add x y ∧ IsFloat p (x - R.add x y) := by
  have hpow : (2 : ℤ) ^ (p + k + 1) = 2 * 2 ^ (p + k) := pow_succ' _ _
  have hgrid : (2 : ℤ) ^ (p + k) = 2 ^ p * 2 ^ k := pow_add _ _ _
  have hpos : (0 : ℤ) < 2 ^ k := by positivity
  have hs : 2 ^ (p + k) ≤ R.add x y := R.le_round (isFloat_pow _) (by exact_mod_cast hlow)
  have hsdvd : 2 ^ (k + 1) ∣ R.add x y := (R.isFloat _).dvd_succ hp (hs.trans (le_abs_self _))
  have hxdvd : 2 ^ k ∣ x := by
    cases k with
    | zero => simp
    | succ k =>
      apply hx.dvd_succ hp
      rw [abs_of_nonneg (h0.trans hle)]
      rw [← add_assoc, pow_succ'] at hlow
      omega
  have herror : |x + y - R.add x y| ≤ 2 ^ k := by
    have h := R.error_le (x := (x + y : ℤ)) (e := k + 1) (by
      rw [abs_of_nonneg (by exact_mod_cast h0.trans (hle.trans (le_add_of_nonneg_right h0)))]
      exact_mod_cast hhigh)
    have h : 2 * |x + y - R.add x y| ≤ 2 ^ (k + 1) := by exact_mod_cast h
    rw [pow_succ'] at h
    omega
  -- the second number leaves room for the error
  have hroom : y + 2 ^ k ≤ 2 ^ (p + k) := by
    rcases hek.eq_or_lt with rfl | hlt
    · obtain ⟨j, rfl⟩ := hye
      have hj : j < 2 ^ p := by
        refine lt_of_mul_lt_mul_left ?_ hpos.le
        rw [mul_comm _ (2 ^ p), ← hgrid]
        omega
      nlinarith
    · have hye : (2 : ℤ) ^ (p + e) ≤ 2 ^ (p + k - 1) := pow_le_pow_right₀ (by norm_num) (by omega)
      have hke : (2 : ℤ) ^ k ≤ 2 ^ (p + k - 1) := pow_le_pow_right₀ (by norm_num) (by omega)
      have hdouble : (2 : ℤ) ^ (p + k) = 2 * 2 ^ (p + k - 1) := by
        rw [← pow_succ']
        congr 1
        omega
      omega
  refine ⟨hsdvd, k, dvd_sub hxdvd ((pow_dvd_pow 2 (Nat.le_succ k)).trans hsdvd), ?_⟩
  have hge := R.le_add hx h0
  obtain ⟨hlo, -⟩ := abs_le.1 herror
  rw [abs_of_nonpos (by omega)]
  omega

/-- The errors of a sum are floats, and so is the way to them. -/
theorem isFloat_add_error {x y : ℤ} (hp : 0 < p) (hx : IsFloat p x) (hy : IsFloat p y) (h0 : 0 ≤ y) (hle : y ≤ x) :
    IsFloat p (x - R.add x y) ∧ IsFloat p (x + y - R.add x y) := by
  obtain ⟨e, hxe, hye, hyle⟩ := common_exponent hx hy h0 hle
  by_cases hexact : x + y ≤ 2 ^ (p + e)
  · have hsum : R.add x y = x + y :=
      R.add_of_isFloat ⟨e, dvd_add hxe hye, by rwa [abs_of_nonneg (by omega)]⟩
    rw [hsum, sub_self, show x - (x + y) = -y by ring]
    exact ⟨hy.neg, isFloat_zero⟩
  obtain ⟨k, hlow, hhigh⟩ := exists_pow (p := p + e) (x := x + y) (by rw [abs_of_nonneg (by omega)]; omega)
  rw [abs_of_nonneg (by omega), add_assoc] at hlow
  rw [abs_of_nonneg (by omega), add_assoc p e k] at hhigh
  obtain ⟨hdvd, hdiff⟩ := R.add_rounded hp hx h0 hle hye hyle (Nat.le_add_right e k) hlow hhigh
  have hedvd : 2 ^ e ∣ R.add x y := (pow_dvd_pow 2 (by omega)).trans hdvd
  exact ⟨hdiff, e, dvd_sub (dvd_add hxe hye) hedvd, (R.add_error_le hx h0).trans hyle⟩

/-- The error of a sum is computed without another, from the greater number. -/
theorem add_sub_add {x y : ℤ} (hp : 0 < p) (hx : IsFloat p x) (hy : IsFloat p y) (h0 : 0 ≤ y) (hle : y ≤ x) :
    R.add (R.sub x (R.add x y)) y = x + y - R.add x y := by
  obtain ⟨hdiff, herror⟩ := R.isFloat_add_error hp hx hy h0 hle
  have hsum : x - R.add x y + y = x + y - R.add x y := by ring
  rw [R.sub_of_isFloat hdiff, R.add_of_isFloat (by rwa [hsum]), hsum]

/-! ## Ties to even -/

/-- The spacing of the numbers around this one is `2` to this power. -/
def spacing (p : Nat) (x : ℚ) : Nat := Nat.log 2 ⌊x⌋₊ + 1 - p

/-- Ties go to the multiple of the spacing that is even. -/
def roundMagnitude (p : Nat) (x : ℚ) : Nat :=
  let g : Nat := 2 ^ spacing p x
  let q := ⌊x / g⌋₊
  if 2 * (x - q * g) < g ∨ 2 * (x - q * g) = g ∧ q % 2 = 0 then q * g else (q + 1) * g

def roundEven (p : Nat) (x : ℚ) : ℤ := if x < 0 then -roundMagnitude p (-x) else roundMagnitude p x

theorem lt_spacing (x : ℚ) : x < 2 ^ (p + spacing p x) := by
  have hlog := Nat.lt_pow_succ_log_self (show 1 < 2 by norm_num) ⌊x⌋₊
  have hle : 2 ^ (Nat.log 2 ⌊x⌋₊ + 1) ≤ 2 ^ (p + spacing p x) :=
    Nat.pow_le_pow_right (by norm_num) (by unfold spacing; omega)
  have hfloor : x < (⌊x⌋₊ + 1 : Nat) := by exact_mod_cast Nat.lt_floor_add_one x
  exact hfloor.trans_le (by exact_mod_cast hlog.trans_le hle)

/-- Where the spacing is more than 1, the number has all its bits. -/
theorem le_of_spacing (hp : 0 < p) {x : ℚ} {k : Nat} (h : spacing p x = k + 1) : (2 : ℚ) ^ (p + k) ≤ x := by
  unfold spacing at h
  have hlog : Nat.log 2 ⌊x⌋₊ = p + k := by omega
  by_cases hx : ⌊x⌋₊ = 0
  · rw [hx, Nat.log_zero_right] at h
    omega
  · have hle := Nat.pow_log_le_self 2 hx
    rw [hlog] at hle
    exact le_trans (by exact_mod_cast hle) (Nat.floor_le (le_of_not_gt fun hneg => hx (Nat.floor_of_nonpos hneg.le)))

/-- The multiples of the spacing on both sides are floats with none between them. -/
theorem no_float_between (hp : 0 < p) {x : ℚ} {q : Nat} (hq' : x < (q + 1) * 2 ^ spacing p x) {y : ℤ} (hy : IsFloat p y) :
    y ≤ q * 2 ^ spacing p x ∨ (q + 1) * 2 ^ spacing p x ≤ y := by
  by_contra hbetween
  push Not at hbetween
  obtain ⟨hlow, hhigh⟩ := hbetween
  have hdvd : 2 ^ spacing p x ∣ y := by
    cases hs : spacing p x with
    | zero => simp
    | succ k =>
      have hx := le_of_spacing hp hs
      rw [hs] at hlow hq'
      have hcast : (2 : ℚ) ^ (p + k) < (q + 1) * 2 ^ (k + 1) := hx.trans_lt hq'
      have hlt : 2 ^ (p - 1) * 2 ^ (k + 1) < (q + 1) * 2 ^ (k + 1) := by
        rw [← pow_add, show p - 1 + (k + 1) = p + k by omega]
        exact_mod_cast hcast
      have hq : 2 ^ (p - 1) ≤ q := Nat.lt_succ_iff.1 (Nat.lt_of_mul_lt_mul_right hlt)
      have hy' : (2 : ℤ) ^ (p + k) ≤ q * 2 ^ (k + 1) := by
        rw [show p + k = p - 1 + (k + 1) by omega, pow_add]
        exact_mod_cast Nat.mul_le_mul_right _ hq
      exact hy.dvd_succ hp ((hy'.trans hlow.le).trans (le_abs_self y))
  obtain ⟨j, rfl⟩ := hdvd
  have hpos : (0 : ℤ) < 2 ^ spacing p x := by positivity
  have hj : (q : ℤ) < j := lt_of_mul_lt_mul_left (by linarith) hpos.le
  have hj' : j < q + 1 := lt_of_mul_lt_mul_left (by linarith) hpos.le
  omega

theorem roundMagnitude_spec (hp : 0 < p) {x : ℚ} (h0 : 0 ≤ x) :
    IsFloat p (roundMagnitude p x) ∧ ∀ y, IsFloat p y → |x - roundMagnitude p x| ≤ |x - y| := by
  have hpos : (0 : ℚ) < 2 ^ spacing p x := by positivity
  have hlt := lt_spacing (p := p) x
  have hq : (⌊x / 2 ^ spacing p x⌋₊ : ℚ) * 2 ^ spacing p x ≤ x :=
    (le_div_iff₀ hpos).1 (Nat.floor_le (div_nonneg h0 hpos.le))
  have hq' : x < (⌊x / 2 ^ spacing p x⌋₊ + 1) * 2 ^ spacing p x := (div_lt_iff₀ hpos).1 (Nat.lt_floor_add_one _)
  have hmag : roundMagnitude p x =
      if 2 * (x - ⌊x / 2 ^ spacing p x⌋₊ * 2 ^ spacing p x) < 2 ^ spacing p x ∨
          2 * (x - ⌊x / 2 ^ spacing p x⌋₊ * 2 ^ spacing p x) = 2 ^ spacing p x ∧ ⌊x / 2 ^ spacing p x⌋₊ % 2 = 0 then
        ⌊x / 2 ^ spacing p x⌋₊ * 2 ^ spacing p x
      else (⌊x / 2 ^ spacing p x⌋₊ + 1) * 2 ^ spacing p x := by
    simp only [roundMagnitude, Nat.cast_pow, Nat.cast_ofNat]
  generalize ⌊x / 2 ^ spacing p x⌋₊ = q at hq hq' hmag
  have hbits : q < 2 ^ p := by
    rw [pow_add] at hlt
    have hcast : (q : ℚ) < 2 ^ p := lt_of_mul_lt_mul_right (hq.trans_lt hlt) hpos.le
    exact_mod_cast hcast
  have hgrid : ∀ j : Nat, j ≤ 2 ^ p → IsFloat p (j * 2 ^ spacing p x : Nat) := by
    intro j hj
    refine ⟨spacing p x, ⟨j, by push_cast; ring⟩, ?_⟩
    rw [abs_of_nonneg (by positivity), pow_add]
    exact_mod_cast Nat.mul_le_mul_right _ hj
  have hcases : ∀ y, IsFloat p y → (y : ℚ) ≤ q * 2 ^ spacing p x ∨ ((q : ℚ) + 1) * 2 ^ spacing p x ≤ y := by
    intro y hy
    rcases no_float_between hp hq' hy with h | h
    · exact .inl (by exact_mod_cast h)
    · exact .inr (by exact_mod_cast h)
  rw [hmag]
  split
  · rename_i hnear
    have hr : 2 * (x - q * 2 ^ spacing p x) ≤ 2 ^ spacing p x := hnear.elim le_of_lt fun h => h.1.le
    refine ⟨hgrid q hbits.le, fun y hy => ?_⟩
    push_cast
    rw [abs_of_nonneg (sub_nonneg.2 hq)]
    rcases hcases y hy with h | h
    · exact le_trans (by linarith) (le_abs_self _)
    · exact le_trans (by linarith) (neg_le_abs _)
  · rename_i hfar
    have hr : 2 ^ spacing p x ≤ 2 * (x - q * 2 ^ spacing p x) := le_of_not_gt fun h => hfar (.inl h)
    refine ⟨hgrid (q + 1) hbits, fun y hy => ?_⟩
    push_cast
    rw [abs_of_nonpos (sub_nonpos.2 hq'.le)]
    rcases hcases y hy with h | h
    · exact le_trans (by linarith) (le_abs_self _)
    · exact le_trans (by linarith) (neg_le_abs _)

/-- The rounding that the arithmetic of C uses by default. -/
def toEven (p : Nat) (hp : 0 < p) : Rounding p where
  round := roundEven p
  isFloat x := by
    unfold roundEven
    split
    · rename_i hneg
      exact (roundMagnitude_spec hp (by linarith)).1.neg
    · rename_i hpos
      exact (roundMagnitude_spec hp (not_lt.1 hpos)).1
  nearest x y hy := by
    unfold roundEven
    split
    · rename_i hneg
      have h := (roundMagnitude_spec hp (x := -x) (by linarith)).2 (-y) hy.neg
      have hx : x - (-(roundMagnitude p (-x) : ℤ) : ℤ) = -(-x - roundMagnitude p (-x)) := by push_cast; ring
      have hxy : x - y = -(-x - (-y : ℤ)) := by push_cast; ring
      rwa [hx, hxy, abs_neg, abs_neg]
    · rename_i hpos
      have h := (roundMagnitude_spec hp (not_lt.1 hpos)).2 y hy
      exact_mod_cast h

end Rounding

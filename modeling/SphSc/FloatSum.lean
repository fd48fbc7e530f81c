import SphSc.Lib.Exec
import SphSc.Lib.Floats
/-!
# Sums of floats

`sph_f32_sum` and `sph_f64_sum` add from the last number to the first and keep a
sum of what the additions lose. Floats are integers in units of the least one
above zero.
-/
open Exec Rounding Floats

namespace SphSc.FloatSum

variable {p : Nat} (F : Floats p)

/-- A round of the loop: the correction and the result. -/
def sumRound (s : Value × Value) (element : Value) : Value × Value :=
  let (correction, result) := s
  let temp := F.add result element
  (F.add correction
    (if result.ge element then F.add (F.sub result temp) element else F.add (F.sub element temp) result), temp)

def sumLoop (numbers : List Value) : (len : Nat) → Value × Value → Exec Value
  | 0, (correction, result) => return F.add correction result
  | len + 1, s => do
    let element ← read numbers len
    sumLoop numbers len (sumRound F s element)

/-- `sph_define_float_sum`. `len` is a `size_t`. -/
def sum (numbers : List Value) (len : Nat) : Exec Value := do
  let len := (len + (2 ^ 64 - 1)) % 2 ^ 64
  let result ← read numbers len
  sumLoop F numbers len (.number 0, result)

/-- `float`, up to `FLT_MAX`. -/
def f32 (R : Rounding 24) : Floats 24 := ⟨R, (2 ^ 24 - 1) * 2 ^ 253⟩

/-- `double`, up to `DBL_MAX`. -/
def f64 (R : Rounding 53) : Floats 53 := ⟨R, (2 ^ 53 - 1) * 2 ^ 2045⟩

def f32Sum (R : Rounding 24) := sum (f32 R)

def f64Sum (R : Rounding 53) := sum (f64 R)

/-- No number is read from an array of length 0. -/
theorem sum_zero {numbers : List Value} (h : numbers.length < 2 ^ 64) : sum F numbers 0 = .error .outOfBounds := by
  have hread : read numbers (2 ^ 64 - 1) = .error .outOfBounds := read_of_le (by omega)
  unfold sum
  simp only [Nat.zero_add, show (2 ^ 64 - 1) % 2 ^ 64 = 2 ^ 64 - 1 from rfl, hread]
  rfl

theorem sumLoop_eq (numbers : List Value) (len : Nat) (hlen : len ≤ numbers.length) (s : Value × Value) :
    sumLoop F numbers len s = .ok (let r := (numbers.take len).reverse.foldl (sumRound F) s
      F.add r.1 r.2) := by
  induction len generalizing s with
  | zero => rfl
  | succ len ih =>
    have hlt : len < numbers.length := hlen
    rw [sumLoop, read_of_lt hlt, ok_bind, ih (by omega), List.take_succ_eq_append_getElem hlt, List.reverse_append]
    rfl

/-- The loop goes through the numbers before the last one. -/
theorem sum_append_last (rest : List Value) (last : Value) (hlen : rest.length + 1 < 2 ^ 64) :
    sum F (rest.reverse ++ [last]) (rest.length + 1) = .ok (let r := rest.foldl (sumRound F) (.number 0, last)
      F.add r.1 r.2) := by
  have hmod : (rest.length + 1 + (2 ^ 64 - 1)) % 2 ^ 64 = rest.length := by omega
  have hlast : read (rest.reverse ++ [last]) rest.length = .ok last := by
    rw [read_eq_ok]
    simp
  have hloop := sumLoop_eq F (rest.reverse ++ [last]) rest.length (by simp) (.number 0, last)
  rw [List.take_left' (List.length_reverse ..), List.reverse_reverse] at hloop
  unfold sum
  simp only [hmod, hlast, ok_bind, hloop]

/-! ## What is lost -/

section
variable (R : Rounding p)

/-- The errors of the additions. -/
def losses (result : ℤ) : List ℤ → List ℤ
  | [] => []
  | x :: xs => (result + x - R.add result x) :: losses (R.add result x) xs

/-- The sum without correction. -/
def plain (result : ℤ) (xs : List ℤ) : ℤ := xs.foldl R.add result

theorem plain_add_losses (result : ℤ) (xs : List ℤ) : plain R result xs + (losses R result xs).sum = result + xs.sum := by
  induction xs generalizing result with
  | nil => simp [plain, losses]
  | cons x xs ih =>
    have := ih (R.add result x)
    simp only [plain, losses, List.foldl_cons, List.sum_cons] at this ⊢
    linarith

theorem length_losses (result : ℤ) (xs : List ℤ) : (losses R result xs).length = xs.length := by
  induction xs generalizing result with
  | nil => rfl
  | cons x xs ih => simp [losses, ih]

/-- Numbers that are floats and not below zero. -/
def Natural (p : Nat) (xs : List ℤ) : Prop := ∀ x ∈ xs, IsFloat p x ∧ 0 ≤ x

theorem natural_add {result x : ℤ} (hr : IsFloat p result ∧ 0 ≤ result) (hx : 0 ≤ x) :
    IsFloat p (R.add result x) ∧ 0 ≤ R.add result x :=
  ⟨R.isFloat _, hr.2.trans (R.le_add hr.1 hx)⟩

/-! ## How much is lost -/

/-- The sum of the sizes. -/
def size (xs : List ℤ) : ℚ := (xs.map fun x => |(x : ℚ)|).sum

theorem size_nonneg (xs : List ℤ) : 0 ≤ size xs := by
  refine List.sum_nonneg fun a ha => ?_
  obtain ⟨x, -, rfl⟩ := List.mem_map.1 ha
  exact abs_nonneg _

/-- What `n` additions may lose of the sum of the sizes. -/
def growth (p n : Nat) : ℚ := (1 + unit p) ^ n - 1

theorem growth_nonneg (p n : Nat) : 0 ≤ growth p n := by
  have := one_le_pow₀ (le_add_of_nonneg_right (unit_nonneg p) : (1 : ℚ) ≤ 1 + unit p) (n := n)
  unfold growth
  linarith

/-- One addition more. -/
theorem growth_succ (p n : Nat) : growth p (n + 1) = unit p + (1 + unit p) * growth p n := by
  unfold growth
  ring

theorem size_losses_le {xs : List ℤ} (hxs : Natural p xs) {result : ℤ} (hr : IsFloat p result ∧ 0 ≤ result) :
    size (losses R result xs) ≤ growth p xs.length * (result + xs.sum) := by
  induction xs generalizing result with
  | nil => simp [size, losses, growth]
  | cons x xs ih =>
    have hx := hxs x List.mem_cons_self
    have hrest : Natural p xs := fun y hy => hxs y (List.mem_cons_of_mem x hy)
    have hloss := R.relative_error_le (result + x)
    have htail := ih hrest (natural_add R hr hx.2)
    have hsum : (0 : ℚ) ≤ xs.sum := by exact_mod_cast List.sum_nonneg fun y hy => (hrest y hy).2
    have hhead : (0 : ℚ) ≤ result + x := by exact_mod_cast add_nonneg hr.2 hx.2
    have hu := unit_nonneg p
    have hg := growth_nonneg p xs.length
    push_cast at hloss
    rw [abs_of_nonneg hhead] at hloss
    have hadd := R.add_le (x := result) (y := x) (add_nonneg hr.2 hx.2)
    have hcons : size (losses R result (x :: xs)) =
        |(result : ℚ) + x - R.round (result + x)| + size (losses R (R.add result x) xs) := by
      simp [size, losses, Rounding.add]
    rw [hcons, List.length_cons, growth_succ, List.sum_cons, Int.cast_add]
    calc |(result : ℚ) + x - R.round (result + x)| + size (losses R (R.add result x) xs)
        ≤ unit p * (result + x) + growth p xs.length * ((1 + unit p) * (result + x) + xs.sum) := by
          have := mul_le_mul_of_nonneg_left (add_le_add_left hadd (xs.sum : ℚ)) hg
          linarith
      _ ≤ (unit p + (1 + unit p) * growth p xs.length) * (result + (x + xs.sum)) := by
          have h₁ := mul_nonneg hu hsum
          have h₂ := mul_nonneg (mul_nonneg hu hg) hsum
          linarith

/-- What a sum with rounding is off. -/
theorem foldl_add_error (es : List ℤ) (c : ℤ) :
    |((es.foldl R.add c : ℤ) : ℚ) - (c + es.sum)| ≤ growth p es.length * (|(c : ℚ)| + size es) := by
  induction es generalizing c with
  | nil => simp [size, growth]
  | cons e es ih =>
    have htail := ih (R.add c e)
    have hloss : |(R.add c e : ℚ) - (c + e)| ≤ unit p * |(c : ℚ) + e| := by
      rw [abs_sub_comm]
      exact_mod_cast R.relative_error_le (c + e)
    have hu := unit_nonneg p
    have hg := growth_nonneg p es.length
    have hsize := size_nonneg es
    have habs := abs_add_le (c : ℚ) e
    -- the first sum is not much greater than its parts
    have hadd := R.abs_add_le_mul c e
    have htri := abs_add_le (((es.foldl R.add (R.add c e) : ℤ) : ℚ) - (R.add c e + es.sum)) ((R.add c e : ℚ) - (c + e))
    have hcons : size (e :: es) = |(e : ℚ)| + size es := by simp [size]
    rw [List.foldl_cons, List.sum_cons, List.length_cons, growth_succ, hcons, Int.cast_add]
    calc |((es.foldl R.add (R.add c e) : ℤ) : ℚ) - (c + (e + es.sum))|
        ≤ growth p es.length * (|(R.add c e : ℚ)| + size es) + unit p * |(c : ℚ) + e| := by
          refine le_trans (le_of_eq ?_) (htri.trans (add_le_add htail hloss))
          congr 1
          ring
      _ ≤ growth p es.length * ((1 + unit p) * (|(c : ℚ)| + |(e : ℚ)|) + size es) +
            unit p * (|(c : ℚ)| + |(e : ℚ)|) := by
          gcongr
      _ ≤ (unit p + (1 + unit p) * growth p es.length) * (|(c : ℚ)| + (|(e : ℚ)| + size es)) := by
          have h₁ := mul_nonneg hu hsize
          have h₂ := mul_nonneg (mul_nonneg hu hg) hsize
          linarith

end

/-! ## Overflow -/

/-- There is room for `n` more additions to a result, with total `total`, and to the correction. -/
structure Room (F : Floats p) (n : Nat) (correction : ℤ) (total : ℚ) : Prop where
  result : (1 + unit p) ^ n * total ≤ F.greatest
  correction : (1 + unit p) ^ n * (|(correction : ℚ)| + growth p n * total) ≤ F.greatest

theorem Room.le {n : Nat} {correction : ℤ} {total : ℚ} (h : Room F n correction total) (h0 : 0 ≤ total) :
    total ≤ F.greatest ∧ |(correction : ℚ)| ≤ F.greatest := by
  have hone : (1 : ℚ) ≤ (1 + unit p) ^ n := one_le_pow₀ (le_add_of_nonneg_right (unit_nonneg p))
  have hgrowth := mul_nonneg (growth_nonneg p n) h0
  have habs := abs_nonneg (correction : ℚ)
  exact ⟨(le_mul_of_one_le_left h0 hone).trans h.result,
    (le_add_of_nonneg_right hgrowth).trans ((le_mul_of_one_le_left (add_nonneg habs hgrowth) hone).trans h.correction)⟩

/-- An addition takes its share of the room. -/
theorem Room.step {n : Nat} {correction result x : ℤ} {rest : ℚ} (hr : 0 ≤ result) (hx : 0 ≤ x) (hrest : 0 ≤ rest)
    (h : Room F (n + 1) correction (result + (x + rest))) :
    Room F n (F.rounding.add correction (result + x - F.rounding.add result x)) (F.rounding.add result x + rest) := by
  have hu := unit_nonneg p
  have hg := growth_nonneg p n
  have hpow : (0 : ℚ) ≤ (1 + unit p) ^ n := pow_nonneg (by linarith) n
  have hsum : (0 : ℚ) ≤ result + x := by exact_mod_cast add_nonneg hr hx
  have hadd := F.rounding.add_le (add_nonneg hr hx)
  have hloss : |((result + x - F.rounding.add result x : ℤ) : ℚ)| ≤ unit p * (result + x) := by
    have := F.rounding.relative_error_le (result + x)
    push_cast at this
    rw [abs_of_nonneg hsum] at this
    unfold Rounding.add
    push_cast
    exact this
  have hcorrection := F.rounding.abs_add_le_mul correction (result + x - F.rounding.add result x)
  have htotal : (F.rounding.add result x : ℚ) + rest ≤ (1 + unit p) * (result + (x + rest)) := by
    have := mul_nonneg hu hrest
    linarith
  constructor
  · calc (1 + unit p) ^ n * ((F.rounding.add result x : ℚ) + rest)
        ≤ (1 + unit p) ^ n * ((1 + unit p) * (result + (x + rest))) := mul_le_mul_of_nonneg_left htotal hpow
      _ = (1 + unit p) ^ (n + 1) * (result + (x + rest)) := by ring
      _ ≤ F.greatest := h.result
  · have hparts : |(F.rounding.add correction (result + x - F.rounding.add result x) : ℚ)| +
        growth p n * (F.rounding.add result x + rest) ≤
          (1 + unit p) * (|(correction : ℚ)| + growth p (n + 1) * (result + (x + rest))) := by
      have h₁ := mul_le_mul_of_nonneg_left htotal hg
      have h₂ := mul_le_mul_of_nonneg_left hloss (by linarith : 0 ≤ 1 + unit p)
      have h₃ : 0 ≤ (1 + unit p) * unit p * rest := mul_nonneg (mul_nonneg (by linarith) hu) hrest
      have h₄ : 0 ≤ unit p * (1 + unit p) * (growth p n * (result + (x + rest))) :=
        mul_nonneg (mul_nonneg hu (by linarith)) (mul_nonneg hg (by linarith))
      rw [growth_succ]
      linarith
    calc (1 + unit p) ^ n * (|(F.rounding.add correction (result + x - F.rounding.add result x) : ℚ)| +
          growth p n * (F.rounding.add result x + rest))
        ≤ (1 + unit p) ^ n * ((1 + unit p) * (|(correction : ℚ)| + growth p (n + 1) * (result + (x + rest)))) :=
          mul_le_mul_of_nonneg_left hparts hpow
      _ = (1 + unit p) ^ (n + 1) * (|(correction : ℚ)| + growth p (n + 1) * (result + (x + rest))) := by ring
      _ ≤ F.greatest := h.correction

/-- What a round adds to the correction is what the addition has lost. -/
theorem sumRound_number (hp : 0 < p) {correction result x : ℤ} (hr : IsFloat p result ∧ 0 ≤ result)
    (hx : IsFloat p x ∧ 0 ≤ x) (hsum : F.rounding.add result x ≤ F.greatest)
    (hcorrection : |F.rounding.add correction (result + x - F.rounding.add result x)| ≤ F.greatest) :
    sumRound F (.number correction, .number result) (.number x) =
      (.number (F.rounding.add correction (result + x - F.rounding.add result x)),
        .number (F.rounding.add result x)) := by
  have htemp : F.add (.number result) (.number x) = .number (F.rounding.add result x) :=
    F.add_number (by rwa [abs_of_nonneg (natural_add F.rounding hr hx.2).2])
  unfold sumRound
  simp only [htemp, Value.ge, decide_eq_true_eq]
  split
  · rename_i hle
    rw [F.add_sub_add hp hr.1 hx.1 hx.2 hle hsum, F.add_number hcorrection]
  · rename_i hgt
    have hcomm : F.rounding.add result x = F.rounding.add x result := by rw [Rounding.add, Rounding.add, add_comm]
    rw [hcomm] at hsum hcorrection ⊢
    rw [F.add_sub_add hp hx.1 hr.1 hr.2 (by omega) hsum, add_comm x result, F.add_number hcorrection]

theorem foldl_sumRound (hp : 0 < p) {xs : List ℤ} (hxs : Natural p xs) {result : ℤ} (hr : IsFloat p result ∧ 0 ≤ result)
    {correction : ℤ} (hroom : Room F xs.length correction (result + xs.sum)) :
    (xs.map Value.number).foldl (sumRound F) (.number correction, .number result) =
      (.number ((losses F.rounding result xs).foldl F.rounding.add correction), .number (plain F.rounding result xs)) := by
  induction xs generalizing result correction with
  | nil => rfl
  | cons x xs ih =>
    have hx := hxs x List.mem_cons_self
    have hrest : Natural p xs := fun y hy => hxs y (List.mem_cons_of_mem x hy)
    have hsum : (0 : ℚ) ≤ xs.sum := by exact_mod_cast List.sum_nonneg fun y hy => (hrest y hy).2
    have hnext := natural_add F.rounding hr hx.2
    rw [List.sum_cons, Int.cast_add] at hroom
    have hroom' := hroom.step F hr.2 hx.2 hsum
    have hle := hroom'.le F (add_nonneg (by exact_mod_cast hnext.2) hsum)
    have hresult : F.rounding.add result x ≤ F.greatest := by exact_mod_cast (le_add_of_nonneg_right hsum).trans hle.1
    rw [List.map_cons, List.foldl_cons, sumRound_number F hp hr hx hresult (by exact_mod_cast hle.2),
      ih hrest hnext hroom']
    rfl

/-! ## The sum -/

/-- The sum of numbers whose total is `total` is off by at most the rounding of
it and the square of what a sum without correction may be off. -/
theorem compensated_error (R : Rounding p) {xs : List ℤ} (hxs : Natural p xs) {result : ℤ}
    (hr : IsFloat p result ∧ 0 ≤ result) {total : ℚ} (htotal : result + xs.sum = total) :
    |(R.add ((losses R result xs).foldl R.add 0) (plain R result xs) : ℚ) - total| ≤
      (unit p + (1 + unit p) * growth p xs.length ^ 2) * total := by
  have hsplit : (plain R result xs : ℚ) + (losses R result xs).sum = total := by
    rw [← htotal]
    exact_mod_cast plain_add_losses R result xs
  have hlosses := size_losses_le R hxs hr
  have hcorrection := foldl_add_error R (losses R result xs) 0
  have hsum : (0 : ℚ) ≤ result + xs.sum := by
    exact_mod_cast add_nonneg hr.2 (List.sum_nonneg fun y hy => (hxs y hy).2)
  rw [length_losses] at hcorrection
  rw [htotal] at hlosses hsum
  generalize plain R result xs = sum at hsplit ⊢
  generalize (losses R result xs).foldl R.add 0 = correction at hcorrection ⊢
  have hfinal : |(R.add correction sum : ℚ) - (correction + sum)| ≤ unit p * |(correction : ℚ) + sum| := by
    rw [abs_sub_comm]
    exact_mod_cast R.relative_error_le (correction + sum)
  have hu := unit_nonneg p
  have hg := growth_nonneg p xs.length
  -- the correction is off by at most the square
  have hoff : |(correction : ℚ) + sum - total| ≤ growth p xs.length ^ 2 * total := by
    have heq : (correction : ℚ) + sum - total = correction - ((0 : ℤ) + (losses R result xs).sum) := by
      rw [Int.cast_zero]
      linarith
    rw [heq, pow_two, mul_assoc]
    refine hcorrection.trans (mul_le_mul_of_nonneg_left ?_ hg)
    simpa using hlosses
  have habs := abs_sub_abs_le_abs_sub ((correction : ℚ) + sum) total
  rw [abs_of_nonneg hsum] at habs
  have htri := abs_add_le ((R.add correction sum : ℚ) - (correction + sum)) (correction + sum - total)
  rw [sub_add_sub_cancel] at htri
  have hscaled := mul_le_mul_of_nonneg_left (habs.trans hoff) hu
  linarith

/-- The sizes that the total leaves room for. -/
theorem le_pow_of_error {n : Nat} {total : ℚ} (h0 : 0 ≤ total) {s : ℤ}
    (h : |(s : ℚ) - total| ≤ (unit p + (1 + unit p) * growth p n ^ 2) * total) :
    |(s : ℚ)| ≤ (1 + unit p) ^ (2 * n + 1) * total := by
  have hg := growth_nonneg p n
  have hu := unit_nonneg p
  have hpow : (1 + unit p) ^ (2 * n + 1) = (1 + unit p) * (1 + growth p n) ^ 2 := by
    unfold growth
    ring
  have habs := abs_sub_abs_le_abs_sub (s : ℚ) total
  rw [abs_of_nonneg h0] at habs
  have hcross : 0 ≤ 2 * ((1 + unit p) * (growth p n * total)) :=
    mul_nonneg (by norm_num) (mul_nonneg (by linarith) (mul_nonneg hg h0))
  rw [hpow]
  linarith

theorem room_of_total {n : Nat} {total : ℚ} (h0 : 0 ≤ total) (h : (1 + unit p) ^ (2 * n + 1) * total ≤ F.greatest) :
    Room F n 0 total := by
  have hone : 1 ≤ 1 + unit p := le_add_of_nonneg_right (unit_nonneg p)
  have hle : (1 + unit p) ^ n * total ≤ (1 + unit p) ^ (2 * n + 1) * total :=
    mul_le_mul_of_nonneg_right (pow_le_pow_right₀ hone (by omega)) h0
  have hle₂ : (1 + unit p) ^ n * (1 + unit p) ^ n * total ≤ (1 + unit p) ^ (2 * n + 1) * total := by
    rw [← pow_add]
    exact mul_le_mul_of_nonneg_right (pow_le_pow_right₀ hone (by omega)) h0
  have hpos := mul_nonneg (pow_nonneg (zero_le_one.trans hone) n) h0
  refine ⟨hle.trans h, ?_⟩
  unfold growth
  rw [Int.cast_zero, abs_zero]
  linarith

/-- Sums of floats that are not below zero, with a total that leaves some room
below the greatest float: the correction is the rounded sum of exactly what the
additions have lost, and the sum returned is off by at most the rounding of the
true sum and the square of what a sum without correction may be off. -/
theorem sum_compensates (hp : 0 < p) {front : List ℤ} {last : ℤ} (hnumbers : Natural p (front ++ [last]))
    (hlen : front.length + 1 < 2 ^ 64)
    (hroom : (1 + unit p) ^ (2 * front.length + 1) * (front ++ [last]).sum ≤ F.greatest) :
    ∃ s, sum F ((front ++ [last]).map .number) (front.length + 1) = .ok (.number s) ∧
      s = F.rounding.add ((losses F.rounding last front.reverse).foldl F.rounding.add 0)
        (plain F.rounding last front.reverse) ∧
      plain F.rounding last front.reverse + (losses F.rounding last front.reverse).sum = (front ++ [last]).sum ∧
      |(s : ℚ) - (front ++ [last]).sum| ≤
        (unit p + (1 + unit p) * growth p front.length ^ 2) * (front ++ [last]).sum := by
  have hlast := hnumbers last (List.mem_append_right _ List.mem_cons_self)
  have hrest : Natural p front.reverse := fun y hy => hnumbers y (List.mem_append_left _ (List.mem_reverse.1 hy))
  have hsum : last + front.reverse.sum = (front ++ [last]).sum := by
    rw [List.sum_append, List.sum_singleton, List.sum_reverse, add_comm]
  have hsum' : (last : ℚ) + front.reverse.sum = (front ++ [last]).sum := by exact_mod_cast hsum
  have h0 : (0 : ℚ) ≤ (front ++ [last]).sum := by
    exact_mod_cast List.sum_nonneg fun y hy => (hnumbers y hy).2
  have herror := compensated_error F.rounding hrest hlast hsum'
  rw [List.length_reverse] at herror
  have hvalue := sum_append_last F (front.reverse.map Value.number) (.number last) (by simpa using hlen)
  rw [foldl_sumRound F hp hrest hlast (by rw [hsum', List.length_reverse]; exact room_of_total F h0 hroom)] at hvalue
  rw [F.add_number (by exact_mod_cast (le_pow_of_error h0 herror).trans hroom)] at hvalue
  refine ⟨_, ?_, rfl, (plain_add_losses F.rounding last front.reverse).trans hsum, herror⟩
  simpa using hvalue

theorem sum_compensates_two : ∃ s, f64Sum (toEven 53 (by decide)) [.number 3, .number (2 ^ 60)] 2 = .ok (.number s) ∧
    |(s : ℚ) - (3 + 2 ^ 60)| ≤ (unit 53 + (1 + unit 53) * growth 53 1 ^ 2) * (3 + 2 ^ 60) := by
  have hnumbers : Natural 53 ([3] ++ [2 ^ 60]) := by
    intro x hx
    simp only [List.singleton_append, List.mem_cons, List.not_mem_nil, or_false] at hx
    rcases hx with rfl | rfl
    · exact ⟨isFloat_of_abs_le (by decide), by decide⟩
    · exact ⟨isFloat_pow 60, by decide⟩
  have hsum : ((([3] ++ [2 ^ 60] : List ℤ).sum : ℤ) : ℚ) = 3 + 2 ^ 60 := by norm_num
  have hroom : (1 + unit 53) ^ 3 * (3 + 2 ^ 60) ≤ (((2 ^ 53 - 1) * 2 ^ 2045 : ℤ) : ℚ) :=
    calc (1 + unit 53) ^ 3 * (3 + 2 ^ 60) ≤ ((2 ^ 61 : ℤ) : ℚ) := by norm_num [unit]
      _ ≤ (((2 ^ 53 - 1) * 2 ^ 2045 : ℤ) : ℚ) := Int.cast_le.2 (by decide +kernel)
  obtain ⟨s, hs, -, -, herror⟩ := sum_compensates (f64 (toEven 53 (by decide))) (by decide) hnumbers (by decide)
    (by rw [hsum]; exact hroom)
  rw [hsum] at herror
  exact ⟨s, hs, herror⟩

/-- The numbers are compared, not their sizes: a loss to a number far below zero
is not seen. -/
example : f64Sum (toEven 53 (by decide)) [.number (2 ^ 60), .number (-2 ^ 60), .number 1] 3 = .ok (.number 0) := by
  decide +kernel

/-! ## Sums beyond the greatest float -/

/-- The correction is no number once the result has become infinite. -/
def Lost : Value × Value → Prop
  | (correction, result) => (correction = .infinite true ∨ correction = .nan) ∧ result = .infinite false

theorem sumRound_lost {s : Value × Value} (h : Lost s) (x : ℤ) : Lost (sumRound F s (.number x)) := by
  obtain ⟨correction, result⟩ := s
  obtain ⟨-, rfl⟩ := h
  unfold sumRound
  simp [Value.ge, Lost]

theorem sumRound_overflows {result x : ℤ} (h : F.greatest < F.rounding.add result x) (correction : Value) :
    Lost (sumRound F (correction, .number result) (.number x)) := by
  have htemp : F.add (.number result) (.number x) = .infinite false := F.ofRounded_of_lt h
  have hcorrection : F.add correction (.infinite true) = .infinite true ∨ F.add correction (.infinite true) = .nan := by
    rcases correction with c | (_ | _) | _
    · exact .inl rfl
    · exact .inr rfl
    · exact .inl rfl
    · exact .inr rfl
  unfold sumRound
  simp only [htemp, Floats.number_sub_infinite, Bool.not_false, Floats.infinite_add_number, ite_self]
  exact ⟨hcorrection, rfl⟩

theorem foldl_overflows {xs : List ℤ} (hxs : Natural p xs) {result : ℤ} (hr : IsFloat p result ∧ 0 ≤ result)
    (hle : result ≤ F.greatest) (h : F.greatest < plain F.rounding result xs) (correction : Value) :
    Lost ((xs.map Value.number).foldl (sumRound F) (correction, .number result)) := by
  induction xs generalizing result correction with
  | nil => exact absurd hle (not_le.2 h)
  | cons x xs ih =>
    have hx := hxs x List.mem_cons_self
    have hnext := natural_add F.rounding hr hx.2
    rw [List.map_cons, List.foldl_cons]
    rcases le_or_gt (F.rounding.add result x) F.greatest with hsum | hsum
    · have htemp : F.add (.number result) (.number x) = .number (F.rounding.add result x) :=
        F.add_number (by rwa [abs_of_nonneg hnext.2])
      obtain ⟨correction', hround⟩ : ∃ correction', sumRound F (correction, .number result) (.number x) =
          (correction', .number (F.rounding.add result x)) := ⟨_, Prod.ext rfl htemp⟩
      rw [hround]
      exact ih (fun y hy => hxs y (List.mem_cons_of_mem x hy)) hnext hsum h correction'
    · -- the result stays infinite
      have hlost : ∀ (ys : List ℤ) {s : Value × Value}, Lost s → Lost ((ys.map Value.number).foldl (sumRound F) s) := by
        intro ys
        induction ys with
        | nil => exact fun hs => hs
        | cons y ys ih => exact fun hs => ih (sumRound_lost F hs y)
      exact hlost xs (sumRound_overflows F hsum correction)

/-- Where the sum without correction is beyond the greatest float, the sum is no number. -/
theorem sum_overflows {front : List ℤ} {last : ℤ} (hnumbers : Natural p (front ++ [last]))
    (hlen : front.length + 1 < 2 ^ 64) (hle : last ≤ F.greatest)
    (h : F.greatest < plain F.rounding last front.reverse) :
    sum F ((front ++ [last]).map .number) (front.length + 1) = .ok .nan := by
  have hlast := hnumbers last (List.mem_append_right _ List.mem_cons_self)
  have hrest : Natural p front.reverse := fun y hy => hnumbers y (List.mem_append_left _ (List.mem_reverse.1 hy))
  have hvalue := sum_append_last F (front.reverse.map Value.number) (.number last) (by simpa using hlen)
  have hlost := foldl_overflows F hrest hlast hle h (.number 0)
  generalize (front.reverse.map Value.number).foldl (sumRound F) (.number 0, .number last) = s at hvalue hlost
  obtain ⟨correction, result⟩ := s
  obtain ⟨rfl | rfl, rfl⟩ := hlost <;> simpa using hvalue

/-- Twice `DBL_MAX`. -/
example : f64Sum (toEven 53 (by decide)) (List.replicate 2 (.number ((2 ^ 53 - 1) * 2 ^ 2045))) 2 = .ok .nan := by
  decide +kernel

end SphSc.FloatSum

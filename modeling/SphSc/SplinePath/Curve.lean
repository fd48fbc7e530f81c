import SphSc.SplinePath.Sweep
import Mathlib.Tactic.Linarith
/-!
# Quadratic and cubic segments

A segment of `spline_path_bezier1` or `spline_path_bezier2`, as a curve with the
samples the generate function takes of it. Where the curve goes on in x, its
first step is at most two, so that blocks are swept as in `Sweep`.
-/
open Exec Ring Pieces

namespace SphSc.SplinePath

/-- The points of a Bezier segment. -/
inductive Curve where
  | quadratic (p0 p1 p2 : Point)
  | cubic (p0 p1 p2 p3 : Point)

namespace Curve

/-- The segment that the constructors build, when its start has been set. -/
def segment : Curve → Segment Data
  | quadratic p0 p1 p2 => { bezier1 p1.x p1.y p2.x p2.y with points := [p0, p1, p2, ⟨0, 0⟩] }
  | cubic p0 p1 p2 p3 => { bezier2 p1.x p1.y p2.x p2.y p3.x p3.y with points := [p0, p1, p2, p3] }

def first : Curve → Point
  | quadratic p0 _ _ => p0
  | cubic p0 _ _ _ => p0

def last : Curve → Point
  | quadratic _ _ p2 => p2
  | cubic _ _ _ p3 => p3

/-- The curve in one of its coordinates. -/
def coord (field : Point → ℚ) (t : ℚ) : Curve → ℚ
  | quadratic p0 p1 p2 => bezier1Interpolate t (1 - t) (field p0) (field p1) (field p2)
  | cubic p0 p1 p2 p3 => bezier2Interpolate t (1 - t) (field p0) (field p1) (field p2) (field p3)

def interpolator : Curve → Interpolator
  | quadratic .. => bezier1InterpolatePoints
  | cubic .. => bezier2InterpolatePoints

/-- The generate function of the segment, with the counter it stops at. -/
def generate (c : Curve) (fuel start end_ out : Nat) (block : List ℚ) : Exec (Nat × List ℚ) :=
  match c with
  | quadratic .. => bezier1Generate fuel start end_ c.segment out block
  | cubic .. => bezier2Generate fuel start end_ c.segment out block

theorem generate_eq (c : Curve) (fuel start end_ out : Nat) (block : List ℚ) :
    c.generate fuel start end_ out block = beziernGenerate c.interpolator fuel start end_ c.segment out block := by
  cases c <;> rfl

/-- Sampling the segment calls it. -/
theorem segment_generate (c : Curve) (depth start end_ out : Nat) (block : List ℚ) :
    SplinePath.generate depth start end_ c.segment out block =
      c.generate (word + 1) start end_ out block >>= fun r => .ok (c.segment, r.2) := by
  cases c <;> unfold SplinePath.generate <;> rfl

theorem read_first (c : Curve) : read c.segment.points 0 = .ok c.first := by
  cases c <;> rfl

theorem lastPoint_eq (c : Curve) : c.segment.lastPoint = .ok c.last := by
  cases c <;> rfl

theorem interpolate_eq (c : Curve) (t : ℚ) (field : Point → ℚ) :
    c.interpolator t (1 - t) c.segment.points field = .ok (c.coord field t) := by
  cases c <;> rfl

/-! ## Samples -/

/-- The x of sample `i` of a segment from `x₀` to `x₁`. -/
def sample (c : Curve) (x₀ x₁ i : Nat) : Nat := toSize (roundAway (c.coord Point.x (i / (2 * (x₁ - x₀)))))

theorem samples (c : Curve) (x₀ x₁ n : Nat) :
    Samples c.interpolator c.segment.points (2 * (x₁ - x₀)) n (c.sample x₀ x₁)
      fun i => c.coord Point.y (i / (2 * (x₁ - x₀))) where
  x i _ := by
    rw [sampleX, interpolate_eq]
    rfl
  y i _ := c.interpolate_eq _ _

theorem cast_count {x₀ x₁ : Nat} (hle : x₀ ≤ x₁) : ((2 * (x₁ - x₀) : Nat) : ℚ) = 2 * (x₁ - x₀) := by
  rw [Nat.cast_mul, Nat.cast_sub hle, Nat.cast_ofNat]

/-- The parameter of a sample. -/
theorem parameter_mem {x₀ x₁ i : Nat} (hle : x₀ ≤ x₁) (hi : i ≤ 2 * (x₁ - x₀)) :
    (0 : ℚ) ≤ i / (2 * (x₁ - x₀)) ∧ (i : ℚ) / (2 * (x₁ - x₀)) ≤ 1 := by
  rw [← cast_count hle]
  constructor
  · positivity
  · exact div_le_one_of_le₀ (by exact_mod_cast hi) (Nat.cast_nonneg _)

/-- A segment from `x₀` to `x₁`. -/
structure Spans (c : Curve) (x₀ x₁ : Nat) : Prop where
  first : c.first.x = x₀
  last : c.last.x = x₁

/-- The curve goes on in x. -/
def Monotone (c : Curve) : Prop := ∀ t u : ℚ, 0 ≤ t → t ≤ u → u ≤ 1 → c.coord Point.x t ≤ c.coord Point.x u

theorem coord_zero (c : Curve) (field : Point → ℚ) : c.coord field 0 = field c.first := by
  cases c <;> simp [coord, bezier1Interpolate, bezier2Interpolate, first]

theorem coord_one (c : Curve) (field : Point → ℚ) : c.coord field 1 = field c.last := by
  cases c <;> simp [coord, bezier1Interpolate, bezier2Interpolate, last]

end Curve

/-! ## Rounding -/

theorem toSize_roundAway {x : ℚ} (h : 0 ≤ x) : toSize (roundAway x) = (x + 1 / 2).floor.toNat := by
  rw [roundAway, if_pos h, toSize, Rat.floor_intCast]

theorem le_toSize_roundAway {x : ℚ} (h : 0 ≤ x) (n : Nat) : n ≤ toSize (roundAway x) ↔ (n : ℚ) ≤ x + 1 / 2 := by
  have hfloor : 0 ≤ (x + 1 / 2).floor := Rat.le_floor_iff.2 (by push_cast; linarith)
  rw [toSize_roundAway h, Int.le_toNat hfloor, Rat.le_floor_iff, Int.cast_natCast]

theorem toSize_roundAway_natCast (n : Nat) : toSize (roundAway n) = n := by
  have hn : (0 : ℚ) ≤ n := Nat.cast_nonneg n
  apply Nat.le_antisymm
  · rw [← Nat.lt_succ_iff, ← not_le, le_toSize_roundAway hn]
    push_cast
    linarith
  · rw [le_toSize_roundAway hn]
    linarith

theorem toSize_roundAway_mono {x y : ℚ} (h : 0 ≤ x) (hxy : x ≤ y) : toSize (roundAway x) ≤ toSize (roundAway y) := by
  rw [le_toSize_roundAway (h.trans hxy)]
  exact ((le_toSize_roundAway h _).1 (Nat.le_refl _)).trans (by linarith)

/-! ## The first step -/

namespace Curve

/-- A quadratic curve that goes on leaves its start at most three times as fast as it goes on average. -/
theorem quadratic_first_step {a b d t : ℚ} (hhalf : bezier1Interpolate (1 / 2) (1 - 1 / 2) a b d ≤ d) (ht : 0 ≤ t)
    (ht' : t ≤ 1 / 2) (hstep : (d - a) * t = 1 / 2) : bezier1Interpolate t (1 - t) a b d < a + 5 / 2 := by
  have hb : 2 * (b - a) ≤ 3 * (d - a) := by
    unfold bezier1Interpolate at hhalf
    linarith
  have hslope := mul_nonneg (mul_nonneg ht (show 0 ≤ 1 - t by linarith)) (sub_nonneg.2 hb)
  have hsplit : bezier1Interpolate t (1 - t) a b d =
      a + (d - a) * t * (3 - 2 * t) - t * (1 - t) * (3 * (d - a) - 2 * (b - a)) := by
    unfold bezier1Interpolate
    ring
  rw [hsplit, hstep]
  linarith

/-- A cubic curve that goes on, five times. What it does at sixths of the way bounds its control points. -/
theorem cubic_first_step {a b c d t : ℚ}
    (hsixth : bezier2Interpolate (1 / 6) (1 - 1 / 6) a b c d ≤ bezier2Interpolate (1 / 2) (1 - 1 / 2) a b c d)
    (hsixths : bezier2Interpolate (1 / 2) (1 - 1 / 2) a b c d ≤ bezier2Interpolate (5 / 6) (1 - 5 / 6) a b c d)
    (hhalf : bezier2Interpolate (1 / 2) (1 - 1 / 2) a b c d ≤ d) (ht : 0 ≤ t) (ht' : t ≤ 1 / 2)
    (hstep : (d - a) * t = 1 / 2) : bezier2Interpolate t (1 - t) a b c d < a + 5 / 2 := by
  have hb : 15 * (b - a) ≤ 23 * (d - a) := by
    unfold bezier2Interpolate at hsixth hsixths
    linarith
  have hbc : 3 * (b - a) + 3 * (c - a) ≤ 7 * (d - a) := by
    unfold bezier2Interpolate at hhalf
    linarith
  have hslope_b := mul_nonneg (mul_nonneg (mul_nonneg ht (show 0 ≤ 1 - t by linarith))
    (show 0 ≤ 1 - 2 * t by linarith)) (sub_nonneg.2 hb)
  have hslope_c := mul_nonneg (mul_nonneg (mul_nonneg ht ht) (show 0 ≤ 1 - t by linarith)) (sub_nonneg.2 hbc)
  have hsplit : bezier2Interpolate t (1 - t) a b c d =
      a + (d - a) * t * (23 / 5 - 34 / 5 * t + 16 / 5 * (t * t)) -
        1 / 5 * (t * (1 - t) * (1 - 2 * t) * (23 * (d - a) - 15 * (b - a))) -
        t * t * (1 - t) * (7 * (d - a) - (3 * (b - a) + 3 * (c - a))) := by
    unfold bezier2Interpolate
    ring
  have hsquare := mul_le_mul_of_nonneg_left ht' ht
  rw [hsplit, hstep]
  linarith

section
variable {c : Curve} {x₀ x₁ : Nat} (hspan : c.Spans x₀ x₁) (hmono : c.Monotone)

include hspan hmono

theorem first_step (hlt : x₀ < x₁) : c.coord Point.x (1 / (2 * (x₁ - x₀))) < x₀ + 5 / 2 := by
  have hone : (1 : ℚ) ≤ x₁ - x₀ := by
    have : (x₀ : ℚ) + 1 ≤ x₁ := by exact_mod_cast hlt
    linarith
  have ht : (0 : ℚ) ≤ 1 / (2 * (x₁ - x₀)) := by positivity
  have ht' : (1 : ℚ) / (2 * (x₁ - x₀)) ≤ 1 / 2 := one_div_le_one_div_of_le (by norm_num) (by linarith)
  have hstep : ((x₁ : ℚ) - x₀) * (1 / (2 * (x₁ - x₀))) = 1 / 2 := by
    field_simp
  have hlast := hmono (1 / 2) 1 (by norm_num) (by norm_num) (by norm_num)
  rw [coord_one, hspan.last] at hlast
  have hfirst := hspan.first
  have hend := hspan.last
  cases c with
  | quadratic p0 p1 p2 =>
    simp only [Curve.first, Curve.last] at hfirst hend
    simp only [coord, hfirst, hend] at hlast ⊢
    exact quadratic_first_step hlast ht ht' hstep
  | cubic p0 p1 p2 p3 =>
    have hsixth := hmono (1 / 6) (1 / 2) (by norm_num) (by norm_num) (by norm_num)
    have hsixths := hmono (1 / 2) (5 / 6) (by norm_num) (by norm_num) (by norm_num)
    simp only [Curve.first, Curve.last] at hfirst hend
    simp only [coord, hfirst, hend] at hlast hsixth hsixths ⊢
    exact cubic_first_step hsixth hsixths hlast ht ht' hstep

omit hmono in
theorem sample_zero : c.sample x₀ x₁ 0 = x₀ := by
  rw [sample, Nat.cast_zero, zero_div, coord_zero, hspan.first, toSize_roundAway_natCast]

omit hmono in
theorem sample_last (hle : x₀ ≤ x₁) : c.sample x₀ x₁ (2 * (x₁ - x₀)) = x₁ := by
  rw [sample, cast_count hle]
  by_cases hlt : (x₁ : ℚ) = x₀
  · rw [hlt, sub_self, mul_zero, div_zero, coord_zero, hspan.first, toSize_roundAway_natCast]
    exact_mod_cast hlt.symm
  · have hpos : (2 * (x₁ - x₀) : ℚ) ≠ 0 := mul_ne_zero two_ne_zero (sub_ne_zero.2 hlt)
    rw [div_self hpos, coord_one, hspan.last, toSize_roundAway_natCast]

theorem le_coord {t : ℚ} (ht : 0 ≤ t) (ht' : t ≤ 1) : (x₀ : ℚ) ≤ c.coord Point.x t := by
  rw [← hspan.first, ← coord_zero c Point.x]
  exact hmono 0 t (le_refl 0) ht ht'

/-- The samples of a curve that goes on are of the kind that sweeps a block. -/
theorem ascending (hlt : x₀ < x₁) : Ascending (c.sample x₀ x₁) x₀ x₁ := by
  refine ⟨sample_zero hspan, sample_last hspan hlt.le, ?_, ?_⟩
  · intro i j hij hj
    obtain ⟨hi, -⟩ := parameter_mem hlt.le (hij.trans hj)
    obtain ⟨-, hj'⟩ := parameter_mem hlt.le hj
    have hle : (i : ℚ) / (2 * (x₁ - x₀)) ≤ j / (2 * (x₁ - x₀)) := by
      rw [← cast_count hlt.le]
      gcongr
    refine toSize_roundAway_mono ?_ (hmono _ _ hi hle hj')
    exact (Nat.cast_nonneg x₀).trans (le_coord hspan hmono hi (hle.trans hj'))
  · have hfirst := first_step hspan hmono hlt
    obtain ⟨hzero, hone⟩ := parameter_mem hlt.le (show 1 ≤ 2 * (x₁ - x₀) by omega)
    have hnonneg := (Nat.cast_nonneg x₀).trans (le_coord hspan hmono hzero hone)
    rw [← Nat.lt_succ_iff, ← not_le, sample, le_toSize_roundAway hnonneg]
    push_cast
    linarith

end

end Curve

end SphSc.SplinePath

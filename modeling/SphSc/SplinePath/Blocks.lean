import SphSc.SplinePath.Curve
/-!
# Blocks of Bezier segments

What `spline_path_beziern_generate` leaves in a block inside of a segment that
goes on in x. All positions are stored to unless the first sample is right after
the first position, and nothing outside of the block is touched unless samples
after it have a gap between them.
-/
open Exec Ring Pieces

namespace SphSc.SplinePath

namespace Curve

/-- The block `start .. end_-1` of a segment from `x₀` to `x₁` that goes on in x.
Positions and the counter fit `size_t`. -/
structure Block (c : Curve) (x₀ x₁ start end_ : Nat) : Prop where
  spans : c.Spans x₀ x₁
  mono : c.Monotone
  ge : x₀ ≤ start
  lt : start < end_
  le : end_ ≤ x₁
  fits : x₁ < word
  count : 2 * (x₁ - x₀) + 1 < word

variable {c : Curve} {x₀ x₁ start end_ : Nat}

theorem Block.inside (hb : c.Block x₀ x₁ start end_) : Inside (c.sample x₀ x₁) x₀ x₁ start end_ (start - x₀) := by
  obtain ⟨hspan, hmono, hge, hlt, hle, hfits, hcount⟩ := hb
  exact ⟨ascending hspan hmono (by omega), by omega, hlt, hle, hfits, hcount⟩

/-- A round of a call. -/
def round (c : Curve) (x₀ x₁ start end_ out : Nat) : Sweep → Exec (Sweep ⊕ Sweep) :=
  beziernRound c.interpolator start end_ c.segment c.first (2 * (end_ - start)) (2 * (x₁ - x₀)) out

/-- A call is its outer loop. -/
theorem generate_loop (hspan : c.Spans x₀ x₁) (hge : x₀ ≤ start) (hse : start ≤ end_) (hle : end_ ≤ x₁)
    (hword : x₁ < word) (hcount : 2 * (x₁ - x₀) + 1 < word) (fuel out : Nat) (block : List ℚ) :
    c.generate fuel start end_ out block =
      (loop (c.round x₀ x₁ start end_ out) fuel ⟨start - x₀, start, block⟩ >>= fun v => .ok (v.i, v.block)) := by
  have hsize : wmul 2 (wsub end_ start) = 2 * (end_ - start) := by
    rw [wsub_of_le (by omega) hse, wmul, Nat.mod_eq_of_lt (by omega)]
  have hoffset : toSize ((start : ℚ) - x₀) = start - x₀ := by rw [← Nat.cast_sub hge, toSize_natCast]
  rw [generate_eq, beziernGenerate, read_first, ok_bind, lastPoint_eq, ok_bind, hspan.first, hspan.last, hsize, hoffset]
  rfl

/-! ## What is stored -/

/-- Every position of the block is stored to: what is there afterwards does not
depend on what was there before. The block has room up to the end of the segment. -/
def StoresAll (c : Curve) (x₁ start end_ fuel out : Nat) : Prop :=
  ∃ f : Nat → ℚ, ∀ block, out + (x₁ - start) < block.length → ∃ i, c.generate fuel start end_ out block =
    .ok (i, paint block (shown start end_ out fun k => some (f k)))

/-- The counter at which a call stops, and what it stores. -/
theorem Block.run (hb : c.Block x₀ x₁ start end_) {fuel : Nat} (hfuel : 2 * (x₁ - x₀) + 1 < fuel) (out : Nat) :
    ∃ i g, i ≤ 2 * (x₁ - x₀) + 1 ∧ (∀ k, start < k → k < end_ → (g k).isSome) ∧
      ((g start).isSome ↔ c.sample x₀ x₁ (start - x₀) ≠ start + 1) ∧
      ∀ block, out + (end_ - start) ≤ block.length →
        (∀ i, start - x₀ ≤ i → i < 2 * (end_ - start) → ReadsBeyond (c.sample x₀ x₁) end_ (start - x₀) i →
          out + (c.sample x₀ x₁ (i - 1) - start) < block.length) →
        c.generate fuel start end_ out block = .ok (i, paint block (shown start end_ out g)) := by
  have hfirst : toSize c.first.x = x₀ := by rw [hb.spans.first, toSize_natCast]
  obtain ⟨i, x, g, hi, hlater, hstart, hloop⟩ :=
    (swept_start (c.sample x₀ x₁) (show start - x₀ ≤ 2 * (x₁ - x₀) + 1 by have := hb.lt; have := hb.le; omega)).run
      (c.samples x₀ x₁ _) hfirst hb.inside out (show _ < fuel by omega)
  refine ⟨i, g, hi, hlater, hstart, ?_⟩
  intro block hout hroom
  have hrun := hloop block hout hroom
  rw [shown, window_none, paint_none] at hrun
  rw [generate_loop hb.spans hb.ge hb.lt.le hb.le hb.fits hb.count, round, hrun]
  rfl

theorem Block.sample_le (hb : c.Block x₀ x₁ start end_) {i : Nat} (hi : i < 2 * (end_ - start)) :
    c.sample x₀ x₁ i ≤ x₁ := by
  have ha := hb.inside.toAscending
  have hge := hb.ge
  have hle := hb.le
  have hlast := ha.mono i (2 * (x₁ - x₀)) (by omega) (Nat.le_refl _)
  rwa [ha.last] at hlast

/-- On a block with room up to the end of the segment, a call returns. -/
theorem Block.paints (hb : c.Block x₀ x₁ start end_) {fuel : Nat} (hfuel : 2 * (x₁ - x₀) + 1 < fuel) (out : Nat) :
    ∃ i g, (∀ k, start < k → k < end_ → (g k).isSome) ∧
      ((g start).isSome ↔ c.sample x₀ x₁ (start - x₀) ≠ start + 1) ∧
      ∀ block, out + (x₁ - start) < block.length →
        c.generate fuel start end_ out block = .ok (i, paint block (shown start end_ out g)) := by
  obtain ⟨i, g, -, hlater, hstart, hrun⟩ := hb.run hfuel out
  refine ⟨i, g, hlater, hstart, ?_⟩
  intro block hroom
  have hle := hb.le
  refine hrun block (by omega) ?_
  rintro i - hi ⟨-, -, hgap⟩
  have hsample := hb.sample_le hi
  omega

theorem Block.storesAll (hb : c.Block x₀ x₁ start end_) {fuel : Nat} (hfuel : 2 * (x₁ - x₀) + 1 < fuel) (out : Nat)
    (h : c.sample x₀ x₁ (start - x₀) ≠ start + 1) : c.StoresAll x₁ start end_ fuel out := by
  obtain ⟨i, g, hlater, hstart, hrun⟩ := hb.paints hfuel out
  have hlt := hb.lt
  refine ⟨fun k => (g k).getD 0, ?_⟩
  intro block hroom
  refine ⟨i, ?_⟩
  rw [hrun block hroom]
  congr 3
  refine window_congr fun k hk hk' => ?_
  have hsome : (g k).isSome := by
    by_cases hfirst : k = start
    · rw [hfirst]
      exact hstart.2 h
    · exact hlater k (by omega) (by omega)
  obtain ⟨v, hv⟩ := Option.isSome_iff_exists.1 hsome
  simp only [hv, Option.getD_some]

/-- The first position shows what was there before. -/
theorem Block.not_storesAll (hb : c.Block x₀ x₁ start end_) {fuel : Nat} (hfuel : 2 * (x₁ - x₀) + 1 < fuel) (out : Nat)
    (h : c.sample x₀ x₁ (start - x₀) = start + 1) : ¬ c.StoresAll x₁ start end_ fuel out := by
  rintro ⟨f, hf⟩
  obtain ⟨i, g, -, hstart, hrun⟩ := hb.paints hfuel out
  have hlt := hb.lt
  have hsame : shown start end_ out g out = shown start end_ out (fun k => some (f k)) out := by
    refine eq_of_paint (n := out + (x₁ - start) + 1) (by omega) fun block hlength => ?_
    obtain ⟨i', hi'⟩ := hf block (by omega)
    rw [hrun block (by omega)] at hi'
    exact congrArg Prod.snd (Except.ok.inj hi')
  rw [shown, shown, window, window, if_pos (by omega), if_pos (by omega), Nat.sub_self] at hsame
  exact hstart.1 (by rw [Nat.add_zero] at hsame; rw [hsame]; rfl) h

/-- The first sample is right after the first position. -/
theorem Block.first_sample_iff (hb : c.Block x₀ x₁ start end_) :
    c.sample x₀ x₁ (start - x₀) = start + 1 ↔
      (start : ℚ) + 1 / 2 ≤ c.coord Point.x ((start - x₀) / (2 * (x₁ - x₀))) ∧
        c.coord Point.x ((start - x₀) / (2 * (x₁ - x₀))) < (start : ℚ) + 3 / 2 := by
  have hge : (x₀ : ℚ) ≤ start := by exact_mod_cast hb.ge
  have hlt : (start : ℚ) < x₁ := by exact_mod_cast hb.lt.trans_le hb.le
  have hpos : (0 : ℚ) < 2 * (x₁ - x₀) := by linarith
  have hnonneg : 0 ≤ c.coord Point.x ((start - x₀) / (2 * (x₁ - x₀))) := by
    refine (Nat.cast_nonneg x₀).trans (le_coord hb.spans hb.mono (div_nonneg (by linarith) hpos.le) ?_)
    rw [div_le_one hpos]
    linarith
  rw [sample, Nat.cast_sub hb.ge, le_antisymm_iff, le_toSize_roundAway hnonneg, ← Nat.lt_succ_iff, ← not_le,
    le_toSize_roundAway hnonneg]
  push_cast
  constructor
  · rintro ⟨hhi, hlo⟩
    constructor <;> linarith
  · rintro ⟨hlo, hhi⟩
    constructor <;> linarith

/-- All positions of a block are stored to, unless the curve at the first sample
is rounded to the position after `start`. -/
theorem generate_storesAll (hb : c.Block x₀ x₁ start end_) {fuel : Nat} (hfuel : 2 * (x₁ - x₀) + 1 < fuel) (out : Nat) :
    c.StoresAll x₁ start end_ fuel out ↔
      ¬ ((start : ℚ) + 1 / 2 ≤ c.coord Point.x ((start - x₀) / (2 * (x₁ - x₀))) ∧
        c.coord Point.x ((start - x₀) / (2 * (x₁ - x₀))) < (start : ℚ) + 3 / 2) := by
  rw [← hb.first_sample_iff]
  exact ⟨fun h hfirst => hb.not_storesAll hfuel out hfirst h, hb.storesAll hfuel out⟩

/-- A segment on which x is ten times the parameter. -/
def even : Curve := quadratic ⟨0, 0⟩ ⟨5, 8⟩ ⟨10, 0⟩

theorem even_block {start end_ : Nat} (hlt : start < end_) (hle : end_ ≤ 10) : even.Block 0 10 start end_ := by
  refine ⟨⟨rfl, rfl⟩, ?_, Nat.zero_le _, hlt, hle, by decide, by decide⟩
  intro t u _ htu _
  have hcoord : ∀ t, even.coord Point.x t = 10 * t := by
    intro t
    simp only [even, coord, bezier1Interpolate]
    ring
  rw [hcoord, hcoord]
  linarith

/-- `generate_storesAll` at a block of that segment. -/
theorem generate_storesAll_even : even.StoresAll 10 2 7 22 0 ↔
    ¬ (((2 : Nat) : ℚ) + 1 / 2 ≤ even.coord Point.x (((2 : Nat) - (0 : Nat)) / (2 * ((10 : Nat) - (0 : Nat)))) ∧
      even.coord Point.x (((2 : Nat) - (0 : Nat)) / (2 * ((10 : Nat) - (0 : Nat)))) < ((2 : Nat) : ℚ) + 3 / 2) :=
  generate_storesAll (even_block (by omega) (by omega)) (by omega) 0

/-- A segment that slows down, to a halt at two thirds of the way. -/
def slowing : Curve := cubic ⟨0, 0⟩ ⟨12, 1⟩ ⟨6, 1⟩ ⟨9, 0⟩

theorem slowing_block {start end_ : Nat} (hlt : start < end_) (hle : end_ ≤ 9) : slowing.Block 0 9 start end_ := by
  refine ⟨⟨rfl, rfl⟩, ?_, Nat.zero_le _, hlt, hle, by decide, by decide⟩
  intro t u _ htu _
  have hdiff : slowing.coord Point.x u - slowing.coord Point.x t =
      27 * ((u - t) * ((u - 2 / 3) ^ 2 + (u - 2 / 3) * (t - 2 / 3) + (t - 2 / 3) ^ 2)) := by
    simp only [slowing, coord, bezier2Interpolate]
    ring
  have hsquare : 0 ≤ (u - 2 / 3) ^ 2 + (u - 2 / 3) * (t - 2 / 3) + (t - 2 / 3) ^ 2 := by
    nlinarith [sq_nonneg (u - 2 / 3 + (t - 2 / 3)), sq_nonneg (u - 2 / 3), sq_nonneg (t - 2 / 3)]
  have hpos := mul_nonneg (show 0 ≤ u - t by linarith) hsquare
  linarith

/-- It is near 2 at the first sample of the block from 1 on, so position 1 is left out. -/
theorem slowing_leaves_out : slowing.Block 0 9 1 5 ∧ ¬ slowing.StoresAll 9 1 5 20 0 :=
  ⟨slowing_block (by omega) (by omega),
    (slowing_block (by omega) (by omega)).not_storesAll (by omega) 0 (by decide +kernel)⟩

/-! ## What is touched -/

/-- No sample after the block is followed by a gap, in the rounds the counter asks for. -/
def NoGapBeyond (c : Curve) (x₀ x₁ start end_ : Nat) : Prop :=
  ∀ i, start - x₀ < i → i < 2 * (end_ - start) → end_ ≤ c.sample x₀ x₁ (i - 1) →
    c.sample x₀ x₁ i ≤ c.sample x₀ x₁ (i - 1) + 1

/-- On a block without room a call that returns has read nothing behind it. -/
theorem Block.noGapBeyond (hb : c.Block x₀ x₁ start end_) {fuel : Nat} {block : List ℚ}
    (hlength : block.length = end_ - start) {r : Nat × List ℚ} (h : c.generate fuel start end_ 0 block = .ok r) :
    c.NoGapBeyond x₀ x₁ start end_ := by
  have hfirst : toSize c.first.x = x₀ := by rw [hb.spans.first, toSize_natCast]
  have hle := hb.le
  have hlt := hb.lt
  have hge := hb.ge
  rw [generate_loop hb.spans hge hlt.le hle hb.fits hb.count] at h
  obtain ⟨v, hloop, -⟩ := bind_eq_ok.1 h
  have hstart : Swept (c.sample x₀ x₁) start end_ (start - x₀) (2 * (x₁ - x₀)) (start - x₀) start fun _ => none :=
    swept_start _ (by omega)
  have hloop' : loop (beziernRound c.interpolator start end_ c.segment c.first (2 * (end_ - start)) (2 * (x₁ - x₀)) 0)
      fuel ⟨start - x₀, start, paint block (shown start end_ 0 fun _ => none)⟩ = .ok v := by
    rw [shown, window_none, paint_none]
    exact hloop
  intro i hi hcount hend
  by_contra hgap
  exact hstart.reads (c.samples x₀ x₁ _) hfirst hb.inside (by omega) hloop' hi.le hcount ⟨hi, hend, by omega⟩

/-- The reads and writes of a call stay within the block exactly when there is no
gap behind a sample after it. -/
theorem generate_inBlock (hb : c.Block x₀ x₁ start end_) {block : List ℚ} (hlength : block.length = end_ - start) :
    (∃ fuel r, c.generate fuel start end_ 0 block = .ok r) ↔ c.NoGapBeyond x₀ x₁ start end_ := by
  constructor
  · rintro ⟨fuel, r, h⟩
    exact hb.noGapBeyond hlength h
  · intro hgap
    obtain ⟨i, g, -, -, -, hrun⟩ := hb.run (Nat.lt_succ_self _) 0
    refine ⟨_, _, hrun block (by omega) ?_⟩
    rintro i' - hcount ⟨hi', hend, hjump⟩
    have hnext := hgap i' hi' hcount hend
    omega

/-- `generate_inBlock` at a block of the even segment. -/
theorem generate_inBlock_even :
    (∃ fuel r, even.generate fuel 2 5 0 [0, 0, 0] = .ok r) ↔ even.NoGapBeyond 0 10 2 5 :=
  generate_inBlock (even_block (by omega) (by omega)) rfl

/-- Its first samples are at 0, 2, 3 and 5: on the block up to 3 the one at 3 is
read for the gap before the one at 5. -/
theorem slowing_reads_beyond : slowing.Block 0 9 0 3 ∧ ¬ ∃ fuel r, slowing.generate fuel 0 3 0 [0, 0, 0] = .ok r := by
  have hb := slowing_block (show 0 < 3 by omega) (by omega)
  refine ⟨hb, ?_⟩
  rintro ⟨fuel, r, h⟩
  exact absurd (hb.noGapBeyond rfl h 3 (by omega) (by omega) (by decide +kernel)) (by decide +kernel)

end Curve

end SphSc.SplinePath

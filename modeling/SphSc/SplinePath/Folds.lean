import SphSc.SplinePath.Blocks
/-!
# Bezier segments with folds

A segment may turn back in x. The outer loop of `spline_path_beziern_generate`
ends all the same: the sample at the end of the segment is not before the end of
the block, and the counter is never behind it.
-/
open Exec Ring Pieces

namespace SphSc.SplinePath

/-! ## Calls that may leave their block -/

theorem storeSample_error {start end_ x out : Nat} {y : ℚ} {block : List ℚ} {e : Stop}
    (h : storeSample start end_ x y out block = .error e) : e = .outOfBounds := by
  unfold storeSample write at h
  split at h
  · split at h <;> cases h
    rfl
  · cases h

theorem fillGap_error {start end_ xPrevious x out remaining j : Nat} {yPrevious y : ℚ} {block : List ℚ} {e : Stop}
    (h : fillGap start end_ xPrevious x yPrevious y out remaining j block = .error e) : e = .outOfBounds := by
  induction remaining generalizing j block with
  | zero => cases h
  | succ remaining ih =>
    unfold fillGap at h
    split at h
    · unfold write at h
      split at h
      · exact ih h
      · cases h
        rfl
    · cases h

section
variable {D : Type} {interpolator : Interpolator} {s : Segment D} {pStart : Point} {sSize : ℚ} {n : Nat} {X : Nat → Nat}
  {Y : Nat → ℚ} (hs : Samples interpolator s.points sSize n X Y) {start end_ out bSize i x : Nat} (hi : i ≤ n)

include hs hi

theorem gapStart_error {block : List ℚ} {e : Stop}
    (h : gapStart (sampleX interpolator sSize s.points) start pStart i (X i) x out block = .error e) :
    e = .outOfBounds := by
  unfold gapStart at h
  split at h
  · cases hread : read block (out + wsub x start) with
    | ok y =>
      rw [hread] at h
      cases h
    | error e' =>
      rw [hread] at h
      cases h
      unfold Exec.read at hread
      split at hread
      · cases hread
      · cases hread
        rfl
  · obtain ⟨r, hr, -⟩ := searchBack_spec (x := X i) (j := i) fun k hk => hs.x k (by omega)
    rw [hr] at h
    cases h

/-- A round goes on to the next sample, or has left the block. -/
theorem round_ends (hn : n + 1 < word) (hcont : i < bSize ∨ x < end_) (block : List ℚ) :
    beziernRound interpolator start end_ s pStart bSize sSize out ⟨i, x, block⟩ = .error .outOfBounds ∨
      ∃ block', beziernRound interpolator start end_ s pStart bSize sSize out ⟨i, x, block⟩ =
        .ok (.inl ⟨i + 1, X i, block'⟩) := by
  have hadd : wadd i 1 = i + 1 := Nat.mod_eq_of_lt (by omega)
  simp only [beziernRound, hcont, if_true, hs.x i hi, hs.y i hi, ok_bind, hadd]
  cases hstore : storeSample start end_ (X i) (Y i) out block with
  | error e =>
    rw [storeSample_error hstore]
    exact .inl rfl
  | ok stored =>
    simp only [ok_bind]
    split
    · exact .inr ⟨stored, rfl⟩
    · cases hstart : gapStart (sampleX interpolator sSize s.points) start pStart i (X i) x out stored with
      | error e =>
        rw [gapStart_error hs hi hstart]
        exact .inl rfl
      | ok p =>
        simp only [ok_bind]
        cases hfill : fillGap start end_ p.1 (X i) p.2 (Y i) out
            (wsub (X i) p.1 - if wadd p.1 1 < start then wsub start p.1 else 1)
            (if wadd p.1 1 < start then wsub start p.1 else 1) stored with
        | error e =>
          rw [fillGap_error hfill]
          exact .inl rfl
        | ok filled => exact .inr ⟨filled, rfl⟩

/-- With room for the sample before, it goes on. -/
theorem round_returns (hn : n + 1 < word) (hcont : i < bSize ∨ x < end_) (hX : X i < word) (hx : x < word)
    (hx₀ : toSize pStart.x < word) (hfits : end_ < word) (hse : start ≤ end_) {block : List ℚ}
    (hout : out + (end_ - start) ≤ block.length) (hroom : start < x → out + (x - start) < block.length) :
    ∃ block', block'.length = block.length ∧
      beziernRound interpolator start end_ s pStart bSize sSize out ⟨i, x, block⟩ = .ok (.inl ⟨i + 1, X i, block'⟩) := by
  by_cases hgap : wsub (X i) x < 2
  · exact ⟨_, length_paint _ _, round_next hs hi hn hcont hX hgap hout⟩
  · obtain ⟨xPrevious, -, hround⟩ := @round_gap _ _ _ pStart _ _ _ _ hs start end_ out bSize i x hi hn hcont hX hx hx₀
      hfits hse (by omega)
    by_cases hlt : start < x
    · have hinside : out + (x - start) < (paint block (shown start end_ out (dot (X i) (Y i)))).length := by
        rw [length_paint]
        exact hroom hlt
      exact ⟨_, length_paint _ _, hround block _ hout (fun _ => List.getElem?_eq_getElem hinside)
        fun hle => absurd hlt (by omega)⟩
    · exact ⟨_, length_paint _ _, hround block pStart.y hout (fun hlt' => absurd hlt' hlt) fun _ => rfl⟩

end

/-! ## Between the control points -/

namespace Curve

/-- The control points are not before 0 and not after `m` in x. -/
def Within (c : Curve) (m : Nat) : Prop := ∀ p ∈ c.segment.points, 0 ≤ p.x ∧ p.x ≤ m

theorem coord_neg (c : Curve) (t : ℚ) (field : Point → ℚ) : c.coord (fun p => -field p) t = -c.coord field t := by
  cases c <;> simp only [coord, bezier1Interpolate, bezier2Interpolate] <;> ring

/-- A curve is not beyond the greatest of its control points. -/
theorem coord_le {c : Curve} {field : Point → ℚ} {m t : ℚ} (h : ∀ p ∈ c.segment.points, field p ≤ m) (ht : 0 ≤ t)
    (ht' : t ≤ 1) : c.coord field t ≤ m := by
  have hmt : 0 ≤ 1 - t := by linarith
  cases c with
  | quadratic p0 p1 p2 =>
    simp only [segment, List.forall_mem_cons] at h
    obtain ⟨h0, h1, h2, -⟩ := h
    have hp0 := mul_nonneg (mul_nonneg (sub_nonneg.2 h0) hmt) hmt
    have hp1 := mul_nonneg (mul_nonneg (sub_nonneg.2 h1) hmt) ht
    have hp2 := mul_nonneg (mul_nonneg (sub_nonneg.2 h2) ht) ht
    simp only [coord, bezier1Interpolate]
    linarith
  | cubic p0 p1 p2 p3 =>
    simp only [segment, List.forall_mem_cons] at h
    obtain ⟨h0, h1, h2, h3, -⟩ := h
    have hp0 := mul_nonneg (mul_nonneg (mul_nonneg (sub_nonneg.2 h0) hmt) hmt) hmt
    have hp1 := mul_nonneg (mul_nonneg (mul_nonneg (sub_nonneg.2 h1) hmt) hmt) ht
    have hp2 := mul_nonneg (mul_nonneg (mul_nonneg (sub_nonneg.2 h2) hmt) ht) ht
    have hp3 := mul_nonneg (mul_nonneg (mul_nonneg (sub_nonneg.2 h3) ht) ht) ht
    simp only [coord, bezier2Interpolate]
    linarith

theorem Within.coord_nonneg {c : Curve} {m : Nat} (hc : c.Within m) {t : ℚ} (ht : 0 ≤ t) (ht' : t ≤ 1) :
    0 ≤ c.coord Point.x t := by
  have hneg := @coord_le c (fun p => -p.x) 0 t (fun p hp => neg_nonpos.2 (hc p hp).1) ht ht'
  rw [coord_neg] at hneg
  linarith

theorem Within.sample_le {c : Curve} {m : Nat} (hc : c.Within m) {x₀ x₁ i : Nat} (hle : x₀ ≤ x₁)
    (hi : i ≤ 2 * (x₁ - x₀)) : c.sample x₀ x₁ i ≤ m := by
  obtain ⟨ht, ht'⟩ := parameter_mem hle hi
  have hcoord : c.coord Point.x (i / (2 * (x₁ - x₀))) ≤ m := coord_le (fun p hp => (hc p hp).2) ht ht'
  rw [← Nat.lt_succ_iff, ← not_le, sample, le_toSize_roundAway (hc.coord_nonneg ht ht')]
  push_cast
  linarith

/-! ## Runs -/

section
variable {c : Curve} {x₀ x₁ start end_ : Nat}

/-- The variables of the outer loop before a round: those it starts with, or
those after sample `v.i - 1`. -/
structure Rounds (c : Curve) (x₀ x₁ start : Nat) (v : Sweep) : Prop where
  le : v.i ≤ 2 * (x₁ - x₀) + 1
  x : v.i = start - x₀ ∧ v.x = start ∨ ∃ k, v.i = k + 1 ∧ v.x = c.sample x₀ x₁ k

theorem Rounds.next {v : Sweep} (hi : v.i ≤ 2 * (x₁ - x₀)) (block : List ℚ) :
    c.Rounds x₀ x₁ start ⟨v.i + 1, c.sample x₀ x₁ v.i, block⟩ :=
  ⟨Nat.succ_le_succ hi, .inr ⟨v.i, rfl, rfl⟩⟩

variable (hspan : c.Spans x₀ x₁) (hge : x₀ ≤ start) (hse : start ≤ end_) (hle : end_ ≤ x₁)

include hspan hge hse hle

/-- A round is only begun for samples of the segment: at its end the curve is
not before the end of the block. -/
theorem Rounds.continues {v : Sweep} (hv : c.Rounds x₀ x₁ start v) (hcont : v.i < 2 * (end_ - start) ∨ v.x < end_) :
    v.i ≤ 2 * (x₁ - x₀) := by
  have hi := hv.le
  rcases hv.x with ⟨hfirst, -⟩ | ⟨k, hk, hx⟩
  · omega
  · by_contra hlast
    have hend : k = 2 * (x₁ - x₀) := by omega
    rw [hend, sample_last hspan (by omega)] at hx
    omega

variable (hcount : 2 * (x₁ - x₀) + 1 < word)

include hcount

/-- A round leaves the loop, leaves the block, or goes on to the next sample. -/
theorem Rounds.step {v : Sweep} (hv : c.Rounds x₀ x₁ start v) (out : Nat) :
    c.round x₀ x₁ start end_ out v = .ok (.inr v) ∨ c.round x₀ x₁ start end_ out v = .error .outOfBounds ∨
      ∃ v', c.round x₀ x₁ start end_ out v = .ok (.inl v') ∧ c.Rounds x₀ x₁ start v' ∧
        2 * (x₁ - x₀) + 1 - v'.i < 2 * (x₁ - x₀) + 1 - v.i := by
  by_cases hcont : v.i < 2 * (end_ - start) ∨ v.x < end_
  · have hi := hv.continues hspan hge hse hle hcont
    have hround : c.round x₀ x₁ start end_ out v = .error .outOfBounds ∨ ∃ block',
        c.round x₀ x₁ start end_ out v = .ok (.inl ⟨v.i + 1, c.sample x₀ x₁ v.i, block'⟩) :=
      round_ends (c.samples x₀ x₁ _) hi hcount hcont v.block
    rcases hround with h | ⟨block', h⟩
    · exact .inr (.inl h)
    · exact .inr (.inr ⟨_, h, Rounds.next hi block', by simp only; omega⟩)
  · exact .inl (if_neg hcont)

/-- A round with room for what is read and stored goes on. -/
theorem Rounds.step_of_room {v : Sweep} (hv : c.Rounds x₀ x₁ start v) (hword : x₁ < word) {m out : Nat}
    (hc : c.Within m) (hm : m < word) (hroom : out + (m - start) < v.block.length) :
    c.round x₀ x₁ start end_ out v = .ok (.inr v) ∨
      ∃ v', c.round x₀ x₁ start end_ out v = .ok (.inl v') ∧
        (c.Rounds x₀ x₁ start v' ∧ v'.block.length = v.block.length) ∧
        2 * (x₁ - x₀) + 1 - v'.i < 2 * (x₁ - x₀) + 1 - v.i := by
  have hlast := hc.sample_le (Nat.le_trans hge (Nat.le_trans hse hle)) (Nat.le_refl _)
  rw [sample_last hspan (by omega)] at hlast
  by_cases hcont : v.i < 2 * (end_ - start) ∨ v.x < end_
  · have hi := hv.continues hspan hge hse hle hcont
    have hX := hc.sample_le (by omega) hi
    have hx : v.x ≤ m := by
      rcases hv.x with ⟨-, hx⟩ | ⟨k, hk, hx⟩
      · omega
      · rw [hx]
        exact hc.sample_le (by omega) (by omega)
    have hfirst : toSize c.first.x = x₀ := by rw [hspan.first, toSize_natCast]
    have hround : ∃ block', block'.length = v.block.length ∧
        c.round x₀ x₁ start end_ out v = .ok (.inl ⟨v.i + 1, c.sample x₀ x₁ v.i, block'⟩) :=
      round_returns (c.samples x₀ x₁ _) hi hcount hcont (by omega) (by omega) (by omega) (by omega) hse (by omega)
        (by omega)
    obtain ⟨block', hlength, h⟩ := hround
    exact .inr ⟨_, h, ⟨Rounds.next hi block', hlength⟩, by simp only; omega⟩
  · exact .inl (if_neg hcont)

omit hspan hge hcount in
theorem Rounds.init (block : List ℚ) : c.Rounds x₀ x₁ start ⟨start - x₀, start, block⟩ :=
  ⟨by simp only; omega, .inl ⟨rfl, rfl⟩⟩

/-- The outer loop ends, whatever the block. -/
theorem generate_ne_outOfFuel (hword : x₁ < word) {fuel : Nat} (hfuel : 2 * (x₁ - x₀) + 1 < fuel) (out : Nat)
    (block : List ℚ) : c.generate fuel start end_ out block ≠ .error .outOfFuel := by
  rw [generate_loop hspan hge hse hle hword hcount]
  apply map_ne_error
  refine loop_ends (c.Rounds x₀ x₁ start) (fun v => 2 * (x₁ - x₀) + 1 - v.i) ?_ (Rounds.init hse hle block)
    (Nat.lt_of_le_of_lt (Nat.sub_le _ _) hfuel)
  intro v hv
  exact (hv.step hspan hge hse hle hcount out).imp_left fun h => ⟨v, h⟩

/-- The counter at the end of the loop. -/
theorem round_counter_le {fuel out : Nat} {block : List ℚ} {v : Sweep}
    (h : loop (c.round x₀ x₁ start end_ out) fuel ⟨start - x₀, start, block⟩ = .ok v) :
    v.i ≤ 2 * (x₁ - x₀) + 1 := by
  refine loop_inv (c.Rounds x₀ x₁ start) (fun v => v.i ≤ 2 * (x₁ - x₀) + 1) ?_ ?_ (Rounds.init hse hle block) h
  · intro v v' hv hnext
    rcases hv.step hspan hge hse hle hcount out with h | h | ⟨v'', h, hv'', -⟩ <;> rw [hnext] at h <;> cases h
    exact hv''
  · intro v v' hv hexit
    rcases hv.step hspan hge hse hle hcount out with h | h | ⟨v'', h, -, -⟩ <;> rw [hexit] at h <;> cases h
    exact hv.le

theorem round_returns_of_room (hword : x₁ < word) {fuel : Nat} (hfuel : 2 * (x₁ - x₀) + 1 < fuel) {m out : Nat}
    {block : List ℚ} (hc : c.Within m) (hm : m < word) (hroom : out + (m - start) < block.length) :
    ∃ v, loop (c.round x₀ x₁ start end_ out) fuel ⟨start - x₀, start, block⟩ = .ok v := by
  refine loop_returns (fun v => c.Rounds x₀ x₁ start v ∧ v.block.length = block.length)
    (fun v => 2 * (x₁ - x₀) + 1 - v.i) ?_ ⟨Rounds.init hse hle block, rfl⟩ (Nat.lt_of_le_of_lt (Nat.sub_le _ _) hfuel)
  rintro v ⟨hv, hlength⟩
  rw [← hlength] at hroom ⊢
  exact (hv.step_of_room hspan hge hse hle hcount hword hc hm hroom).imp_left fun h => ⟨v, h⟩

/-- The outer loop ends whatever the block, with a counter of at most twice the
size of the segment and one, and a call with room up to the last control point
returns. The loops within a round are recursions on what is left to search or fill. -/
theorem generate_ends (hword : x₁ < word) {fuel : Nat} (hfuel : 2 * (x₁ - x₀) + 1 < fuel) (out : Nat)
    (block : List ℚ) :
    c.generate fuel start end_ out block ≠ .error .outOfFuel ∧
      (∀ r, c.generate fuel start end_ out block = .ok r → r.1 ≤ 2 * (x₁ - x₀) + 1) ∧
      ∀ m, c.Within m → m < word → out + (m - start) < block.length →
        ∃ r, c.generate fuel start end_ out block = .ok r := by
  refine ⟨generate_ne_outOfFuel hspan hge hse hle hcount hword hfuel out block, ?_, ?_⟩ <;>
    rw [generate_loop hspan hge hse hle hword hcount]
  · intro r h
    obtain ⟨v, hloop, hr⟩ := bind_eq_ok.1 h
    cases hr
    exact round_counter_le hspan hge hse hle hcount hloop
  · intro m hc hm hroom
    obtain ⟨v, hv⟩ := round_returns_of_room hspan hge hse hle hcount hword hfuel hc hm hroom
    rw [hv]
    exact ⟨_, rfl⟩

end

/-- The fuel for Bezier segments in `SplinePath.generate` is enough. -/
theorem segment_ne_outOfFuel {c : Curve} {x₀ x₁ start end_ : Nat} (hspan : c.Spans x₀ x₁) (hge : x₀ ≤ start)
    (hse : start ≤ end_) (hle : end_ ≤ x₁) (hword : x₁ < word) (hcount : 2 * (x₁ - x₀) + 1 < word) (depth out : Nat)
    (block : List ℚ) : SplinePath.generate depth start end_ c.segment out block ≠ .error .outOfFuel := by
  rw [c.segment_generate]
  apply map_ne_error
  exact generate_ne_outOfFuel hspan hge hse hle hcount hword (Nat.lt_succ_of_lt hcount) out block

/-- A segment that goes beyond its end and back. -/
def folding : Curve := quadratic ⟨0, 0⟩ ⟨9, 4⟩ ⟨4, 0⟩

theorem folding_within : folding.Within 9 := by
  intro p hp
  simp only [folding, segment, List.mem_cons, List.not_mem_nil, or_false] at hp
  rcases hp with rfl | rfl | rfl | rfl <;> norm_num

/-- `generate_ends` at a block of that segment. -/
theorem generate_ends_folding :
    folding.generate 10 1 4 0 (List.replicate 9 0) ≠ .error .outOfFuel ∧
      (∀ r, folding.generate 10 1 4 0 (List.replicate 9 0) = .ok r → r.1 ≤ 9) ∧
      ∃ r, folding.generate 10 1 4 0 (List.replicate 9 0) = .ok r := by
  have hspan : folding.Spans 0 4 := ⟨rfl, rfl⟩
  obtain ⟨hends, hcounter, hreturns⟩ := generate_ends hspan (Nat.zero_le 1) (by omega : 1 ≤ 4) (Nat.le_refl 4)
    (by decide) (by decide) (by omega : 2 * (4 - 0) + 1 < 10) 0 (List.replicate 9 0)
  exact ⟨hends, hcounter, hreturns 9 folding_within (by decide) (by simp)⟩

end Curve

end SphSc.SplinePath

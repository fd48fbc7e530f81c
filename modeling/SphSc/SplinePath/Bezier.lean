import SphSc.SplinePath.Sampling
/-!
# Bezier segments, sample by sample

What a round of `spline_path_beziern_generate` does, given the samples: it
stores the sample if it is in the block, and fills the gap between it and the
one before if there is one.
-/
open Exec Ring Pieces

namespace SphSc.SplinePath

/-- The positions of the block, showing `g` from `start` on. -/
abbrev shown (start end_ out : Nat) (g : Nat → Option ℚ) : Nat → Option ℚ := window out (end_ - start) start g

section
variable {start end_ out : Nat} {block : List ℚ}

theorem write_paints {x : Nat} (y : ℚ) (hstart : start ≤ x) (hend : x < end_)
    (hout : out + (end_ - start) ≤ block.length) :
    write block (out + (x - start)) y =
      .ok (paint block (shown start end_ out fun k => if k = x then some y else none)) := by
  rw [write_of_lt y (by omega)]
  refine congrArg _ (List.ext_getElem? fun j => ?_)
  rw [List.getElem?_set, getElem?_paint, shown, window]
  by_cases hj : out + (x - start) = j
  · rw [if_pos hj, if_pos (by omega), if_pos (by omega), if_pos (by omega), List.getElem?_eq_getElem (by omega)]
    rfl
  · rw [if_neg hj]
    split
    · rw [if_neg (by omega)]
      simp
    · simp

/-- `p` is the position that the counter `j` stands for. -/
theorem fillGap_paints {xPrevious x p : Nat} (yPrevious y : ℚ) {remaining j : Nat} (hp : wadd xPrevious j = p)
    (hstart : start ≤ p) (hfits : end_ < word) (hout : out + (end_ - start) ≤ block.length) :
    fillGap start end_ xPrevious x yPrevious y out remaining j block =
      .ok (paint block (shown start end_ out fun k => if p ≤ k ∧ k < p + remaining then
        some (linearlyInterpolate yPrevious y ((j + (k - p) : Nat) / (wsub x xPrevious : ℚ))) else none)) := by
  induction remaining generalizing j p block with
  | zero =>
    have hnone : (fun k => if p ≤ k ∧ k < p + 0 then
        some (linearlyInterpolate yPrevious y ((j + (k - p) : Nat) / (wsub x xPrevious : ℚ))) else none) =
        fun _ => none := by
      funext k
      exact if_neg (by omega)
    rw [fillGap, hnone, shown, window_none, paint_none]
    rfl
  | succ remaining ih =>
    rw [fillGap, hp]
    by_cases hlt : p < end_
    · have hnext : wadd xPrevious (j + 1) = p + 1 := by
        unfold wadd at hp ⊢
        rw [← Nat.add_assoc, Nat.add_mod, hp, Nat.mod_eq_of_lt (by unfold word; omega : 1 < word),
          Nat.mod_eq_of_lt (by omega)]
      rw [if_pos hlt, wsub_of_le (by omega) hstart]
      dsimp only
      rw [write_paints _ hstart hlt hout, ok_bind, ih hnext (by omega) (by rwa [length_paint]), paint_paint, window_or]
      congr 2
      refine window_congr fun k _ _ => ?_
      by_cases hk : k = p
      · subst hk
        rw [if_neg (by omega), if_pos rfl, if_pos (by omega), Nat.sub_self]
        rfl
      · rw [if_neg hk, Option.or_none]
        by_cases hin : p ≤ k ∧ k < p + (remaining + 1)
        · have hj : j + 1 + (k - (p + 1)) = j + (k - p) := by omega
          rw [if_pos (by omega), if_pos hin, hj]
        · rw [if_neg (by omega), if_neg hin]
    · rw [if_neg hlt]
      have hnone : shown start end_ out (fun k => if p ≤ k ∧ k < p + (remaining + 1) then
          some (linearlyInterpolate yPrevious y ((j + (k - p) : Nat) / (wsub x xPrevious : ℚ))) else none) =
          shown start end_ out fun _ => none :=
        window_congr fun k _ _ => if_neg (by omega)
      rw [hnone, shown, window_none, paint_none]
      rfl

end

/-- The search finds a sample exactly when there is one before `x`. -/
theorem searchBack_spec {sample : Nat → Exec Nat} {X : Nat → Nat} {x j : Nat}
    (hsample : ∀ i ≤ j, sample i = .ok (X i)) :
    ∃ r, searchBack sample x j = .ok r ∧ (r ≠ 0 ↔ ∃ k, 1 ≤ k ∧ k ≤ j ∧ X k < x) := by
  induction j with
  | zero =>
    refine ⟨0, rfl, ?_⟩
    constructor
    · intro h
      exact absurd rfl h
    · rintro ⟨k, hk, hk', -⟩
      omega
  | succ j ih =>
    simp only [searchBack, hsample (j + 1) (Nat.le_refl _), ok_bind]
    split
    · rename_i hlt
      exact ⟨j + 1, rfl, fun _ => ⟨j + 1, by omega, Nat.le_refl _, hlt⟩, fun _ => Nat.succ_ne_zero j⟩
    · rename_i hlt
      obtain ⟨r, hr, hiff⟩ := ih fun i hi => hsample i (by omega)
      refine ⟨r, hr, hiff.trans ?_⟩
      constructor
      · rintro ⟨k, hk, hk', hx⟩
        exact ⟨k, hk, by omega, hx⟩
      · rintro ⟨k, hk, hk', hx⟩
        have hne : k ≠ j + 1 := by
          rintro rfl
          exact hlt hx
        exact ⟨k, hk, by omega, hx⟩

/-! ## Rounds -/

/-- The samples `0 .. n` of a segment. -/
structure Samples (interpolator : Interpolator) (points : List Point) (sSize : ℚ) (n : Nat) (X : Nat → Nat)
    (Y : Nat → ℚ) : Prop where
  x : ∀ i ≤ n, sampleX interpolator sSize points i = .ok (X i)
  y : ∀ i ≤ n, interpolator (i / sSize) (1 - i / sSize) points Point.y = .ok (Y i)

/-- `j_start`, where the counter of the fill loop begins. -/
def fillStart (start xPrevious : Nat) : Nat := if wadd xPrevious 1 < start then wsub start xPrevious else 1

/-- The position it stands for. -/
def fillPos (start xPrevious : Nat) : Nat := wadd xPrevious (fillStart start xPrevious)

/-- What the fill loop stores. -/
def gapFill (start xPrevious x : Nat) (yPrevious y : ℚ) (k : Nat) : Option ℚ :=
  if fillPos start xPrevious ≤ k ∧ k < fillPos start xPrevious + (wsub x xPrevious - fillStart start xPrevious) then
    some (linearlyInterpolate yPrevious y ((fillStart start xPrevious + (k - fillPos start xPrevious) : Nat) /
      (wsub x xPrevious : ℚ)))
  else none

/-- The sample itself. -/
def dot (x : Nat) (y : ℚ) (k : Nat) : Option ℚ := if k = x then some y else none

theorem start_le_fillPos {start xPrevious : Nat} (hstart : start < word) (hx : xPrevious < word) :
    start ≤ fillPos start xPrevious := by
  unfold fillPos fillStart
  split
  · have hback : wadd xPrevious (wsub start xPrevious) = start := by
      unfold wadd wsub
      rw [Nat.add_mod, Nat.mod_mod, ← Nat.add_mod, show xPrevious + (start + (word - xPrevious)) = start + word by omega,
        Nat.add_mod_right, Nat.mod_eq_of_lt hstart]
    omega
  · omega

theorem storeSample_paints {start end_ out x : Nat} (y : ℚ) {block : List ℚ} (hx : x < word)
    (hout : out + (end_ - start) ≤ block.length) :
    storeSample start end_ x y out block = .ok (paint block (shown start end_ out (dot x y))) := by
  unfold storeSample
  by_cases hin : start ≤ x ∧ x < end_
  · rw [if_pos hin, wsub_of_le hx hin.1, write_paints _ hin.1 hin.2 hout]
    rfl
  · have hnone : shown start end_ out (dot x y) = shown start end_ out fun _ => none :=
      window_congr fun k _ _ => if_neg (by omega)
    rw [if_neg hin, hnone, shown, window_none, paint_none]
    rfl

section
variable {D : Type} {interpolator : Interpolator} {s : Segment D} {pStart : Point} {sSize : ℚ} {n : Nat} {X : Nat → Nat}
  {Y : Nat → ℚ} (hs : Samples interpolator s.points sSize n X Y) {start end_ out bSize i x : Nat}
  (hi : i ≤ n) (hn : n + 1 < word) (hcont : i < bSize ∨ x < end_)

include hs hi hn hcont

theorem round_next (hX : X i < word) (hgap : wsub (X i) x < 2) {block : List ℚ}
    (hout : out + (end_ - start) ≤ block.length) :
    beziernRound interpolator start end_ s pStart bSize sSize out ⟨i, x, block⟩ =
      .ok (.inl ⟨i + 1, X i, paint block (shown start end_ out (dot (X i) (Y i)))⟩) := by
  have hadd : wadd i 1 = i + 1 := Nat.mod_eq_of_lt (by omega)
  simp only [beziernRound, hcont, if_true, hs.x i hi, hs.y i hi, ok_bind, storeSample_paints (Y i) hX hout, hgap, hadd]
  rfl

/-- Where a gap before sample `i` is filled from, when `x` is the x before: `x`
itself if it is in the block, else the start of the segment, unless no sample
is before this one. -/
inductive FilledFrom (X : Nat → Nat) (x₀ start i x : Nat) : Nat → Prop
  | block : start < x → FilledFrom X x₀ start i x x
  | found {k : Nat} : x ≤ start → 1 ≤ k → k ≤ i → X k < X i → FilledFrom X x₀ start i x x₀
  | none : x ≤ start → (∀ k, 1 ≤ k → k ≤ i → X i ≤ X k) → FilledFrom X x₀ start i x x

omit hn hcont in
theorem gapStart_spec (hx : x < word) : ∃ xPrevious, FilledFrom X (toSize pStart.x) start i x xPrevious ∧
    ∀ block, (start < x → gapStart (sampleX interpolator sSize s.points) start pStart i (X i) x out block =
        (read block (out + (x - start)) >>= fun y => .ok (xPrevious, y))) ∧
      (x ≤ start → gapStart (sampleX interpolator sSize s.points) start pStart i (X i) x out block =
        .ok (xPrevious, pStart.y)) := by
  by_cases hlt : start < x
  · refine ⟨x, .block hlt, fun block => ⟨fun _ => ?_, fun h => absurd hlt (by omega)⟩⟩
    rw [gapStart, if_pos hlt, wsub_of_le hx hlt.le]
    rfl
  · obtain ⟨r, hr, hfound⟩ := searchBack_spec (x := X i) (j := i) fun k hk => hs.x k (by omega)
    have hcall : ∀ block, gapStart (sampleX interpolator sSize s.points) start pStart i (X i) x out block =
        .ok (if r ≠ 0 then toSize pStart.x else x, pStart.y) := by
      intro block
      rw [gapStart, if_neg hlt, hr]
      rfl
    by_cases hr0 : r = 0
    · refine ⟨x, .none (by omega) ?_, fun block => ⟨fun h => absurd h hlt, fun _ => ?_⟩⟩
      · intro k hk hk'
        by_contra hlt'
        exact hfound.2 ⟨k, hk, hk', by omega⟩ hr0
      · rw [hcall, if_neg (not_not_intro hr0)]
    · obtain ⟨k, hk, hk', hX⟩ := hfound.1 hr0
      refine ⟨toSize pStart.x, .found (by omega) hk hk' hX, fun block => ⟨fun h => absurd h hlt, fun _ => ?_⟩⟩
      rw [hcall, if_pos hr0]

/-- A gap is filled with what lies between the point before it and the sample. -/
theorem round_gap (hX : X i < word) (hx : x < word) (hx₀ : toSize pStart.x < word) (hfits : end_ < word)
    (hse : start ≤ end_) (hgap : 2 ≤ wsub (X i) x) :
    ∃ xPrevious, FilledFrom X (toSize pStart.x) start i x xPrevious ∧
      ∀ (block : List ℚ) (yPrevious : ℚ), out + (end_ - start) ≤ block.length →
        (start < x → (paint block (shown start end_ out (dot (X i) (Y i))))[out + (x - start)]? = some yPrevious) →
        (x ≤ start → yPrevious = pStart.y) →
        beziernRound interpolator start end_ s pStart bSize sSize out ⟨i, x, block⟩ =
          .ok (.inl ⟨i + 1, X i, paint block (shown start end_ out fun k =>
            (gapFill start xPrevious (X i) yPrevious (Y i) k).or (dot (X i) (Y i) k))⟩) := by
  obtain ⟨xPrevious, hfrom, hstarts⟩ := @gapStart_spec _ _ _ pStart _ _ _ _ hs start out i x hi hx
  refine ⟨xPrevious, hfrom, ?_⟩
  intro block yPrevious hout hread hy
  obtain ⟨hin, hbefore⟩ := hstarts (paint block (shown start end_ out (dot (X i) (Y i))))
  have hxp : xPrevious < word := by cases hfrom <;> assumption
  have hadd : wadd i 1 = i + 1 := Nat.mod_eq_of_lt (by omega)
  have hnot : ¬ wsub (X i) x < 2 := by omega
  have hstart : gapStart (sampleX interpolator sSize s.points) start pStart i (X i) x out
      (paint block (shown start end_ out (dot (X i) (Y i)))) = .ok (xPrevious, yPrevious) := by
    by_cases hlt : start < x
    · rw [hin hlt, read_eq_ok.2 (hread hlt)]
      rfl
    · rw [hbefore (by omega), hy (by omega)]
  have hfill : fillGap start end_ xPrevious (X i) yPrevious (Y i) out (wsub (X i) xPrevious - fillStart start xPrevious)
      (fillStart start xPrevious) (paint block (shown start end_ out (dot (X i) (Y i)))) =
      .ok (paint block (shown start end_ out fun k =>
        (gapFill start xPrevious (X i) yPrevious (Y i) k).or (dot (X i) (Y i) k))) := by
    rw [fillGap_paints yPrevious (Y i) rfl (start_le_fillPos (by omega) hxp) hfits (by rwa [length_paint]),
      paint_paint, window_or]
    rfl
  simp only [beziernRound, hcont, if_true, hs.x i hi, hs.y i hi, ok_bind, storeSample_paints (Y i) hX hout, hnot,
    if_false, hstart, hadd]
  rw [← fillStart, hfill]
  rfl

omit hn in
/-- The sample before is read even if it is after the block. -/
theorem round_outOfBounds (hX : X i < word) (hx : x < word) (hgap : 2 ≤ wsub (X i) x) (hlt : start < x)
    {block : List ℚ} (hout : out + (end_ - start) ≤ block.length) (hroom : block.length ≤ out + (x - start)) :
    beziernRound interpolator start end_ s pStart bSize sSize out ⟨i, x, block⟩ = .error .outOfBounds := by
  obtain ⟨xPrevious, -, hstarts⟩ := @gapStart_spec _ _ _ pStart _ _ _ _ hs start out i x hi hx
  obtain ⟨hin, -⟩ := hstarts (paint block (shown start end_ out (dot (X i) (Y i))))
  have hnot : ¬ wsub (X i) x < 2 := by omega
  have hread : read (paint block (shown start end_ out (dot (X i) (Y i)))) (out + (x - start)) =
      .error .outOfBounds := read_of_le (by rwa [length_paint])
  simp only [beziernRound, hcont, if_true, hs.x i hi, hs.y i hi, ok_bind, storeSample_paints (Y i) hX hout, hnot,
    if_false, hin hlt, hread]
  rfl

end

end SphSc.SplinePath

import SphSc.SplinePath.Bezier
/-!
# Bezier segments without folds

Where the samples do not descend, the outer loop sweeps the block from left to
right. `Swept` says what it has stored on the way, `Swept.next` that a round
keeps it. The position that may be left out is the first one.
-/
open Exec Ring Pieces

namespace SphSc.SplinePath

/-- Samples that go from `x₀` up to `x₁`, the first step being at most two. -/
structure Ascending (X : Nat → Nat) (x₀ x₁ : Nat) : Prop where
  first : X 0 = x₀
  last : X (2 * (x₁ - x₀)) = x₁
  mono : ∀ i j, i ≤ j → j ≤ 2 * (x₁ - x₀) → X i ≤ X j
  second : X 1 ≤ x₀ + 2

/-- A block of such a segment that begins `o` after it, and ends where the
segment does or before. Positions and the counter fit `size_t`. -/
structure Inside (X : Nat → Nat) (x₀ x₁ start end_ o : Nat) : Prop extends Ascending X x₀ x₁ where
  offset : start = x₀ + o
  lt : start < end_
  le : end_ ≤ x₁
  fits : x₁ < word
  count : 2 * (x₁ - x₀) + 1 < word

/-- Numbers that are not far from each other. -/
theorem wsub_lt_two {a b : Nat} (ha : a < word) (hb : b < word) (hnear : b - a + 1 < word) :
    wsub a b < 2 ↔ b ≤ a ∧ a ≤ b + 1 := by
  unfold wsub word at *
  omega

theorem isSome_dot (x : Nat) (y : ℚ) (k : Nat) : (dot x y k).isSome ↔ k = x := by
  unfold dot
  split <;> simp [*]

/-- Without wrap-around, the gap is from the point before to the sample, within the block. -/
theorem isSome_gapFill {start xPrevious x : Nat} (hstart : start < word) (hx : x < word) (hxp : xPrevious + 1 < word)
    (hle : xPrevious ≤ x) (yPrevious y : ℚ) (k : Nat) :
    (gapFill start xPrevious x yPrevious y k).isSome ↔ xPrevious < k ∧ start ≤ k ∧ k < x := by
  have hone : wadd xPrevious 1 = xPrevious + 1 := Nat.mod_eq_of_lt hxp
  have hsub : wsub x xPrevious = x - xPrevious := wsub_of_le hx hle
  unfold gapFill fillPos fillStart
  rw [hone, hsub]
  by_cases hbefore : xPrevious + 1 < start
  · have hback : wsub start xPrevious = start - xPrevious := wsub_of_le hstart (by omega)
    have hpos : wadd xPrevious (start - xPrevious) = start := by
      rw [wadd, Nat.mod_eq_of_lt (by omega)]
      omega
    rw [if_pos hbefore, hback, hpos]
    split
    · simp only [Option.isSome_some, true_iff]
      omega
    · simp only [Option.isSome_none, Bool.false_eq_true, false_iff]
      omega
  · rw [if_neg hbefore, hone]
    split
    · simp only [Option.isSome_some, true_iff]
      omega
    · simp only [Option.isSome_none, Bool.false_eq_true, false_iff]
      omega

/-- The point before is after the sample: what is filled is after that point. -/
theorem gapFill_eq_none {start xPrevious x : Nat} (hx : xPrevious + 1 < word) (hstart : start ≤ xPrevious)
    (yPrevious y : ℚ) {k : Nat} (hk : k ≤ xPrevious) : gapFill start xPrevious x yPrevious y k = none := by
  have hone : wadd xPrevious 1 = xPrevious + 1 := Nat.mod_eq_of_lt hx
  unfold gapFill fillPos fillStart
  have hnot : ¬ xPrevious + 1 < start := by omega
  simp only [hone, hnot, if_false]
  exact if_neg (by omega)

/-! ## Rounds -/

section
variable (X : Nat → Nat) (start end_ o : Nat)

/-- The loop at the start of round `i`: `x` is the sample before, and `g` what
has been stored. From the position after `start` up to `x` all is stored; `start`
is, once `x` gets there, unless the first sample was right after it. -/
structure Swept (n i x : Nat) (g : Nat → Option ℚ) : Prop where
  le : i ≤ n + 1
  before : i = o ∧ x = start ∨ o < i ∧ x = X (i - 1)
  later : ∀ k, start < k → k ≤ x → k < end_ → (g k).isSome
  first : (g start).isSome ↔ o < i ∧ start ≤ x ∧ X o ≠ start + 1

/-- The sample before `i` is read after the end of the block. -/
def ReadsBeyond (i : Nat) : Prop := o < i ∧ end_ ≤ X (i - 1) ∧ X (i - 1) + 2 ≤ X i

end

section
variable {X : Nat → Nat} {x₀ x₁ start end_ o i x : Nat} {g : Nat → Option ℚ} (hb : Inside X x₀ x₁ start end_ o)
  (h : Swept X start end_ o (2 * (x₁ - x₀)) i x g)

include hb h

/-- Rounds that begin are for samples there are. -/
theorem Swept.index_le (hcont : i < 2 * (end_ - start) ∨ x < end_) : i ≤ 2 * (x₁ - x₀) := by
  obtain ⟨⟨-, hlast, -, -⟩, ho, hlt, hx₁, -, -⟩ := hb
  by_contra hle
  have hi : i = 2 * (x₁ - x₀) + 1 := by
    have := h.le
    omega
  rcases h.before with ⟨hio, -⟩ | ⟨hio, hx⟩
  · omega
  · have hx' : x = x₁ := by rw [hx, hi, Nat.add_sub_cancel, hlast]
    omega

omit hb in
/-- After the first round, `x` is the sample before. -/
theorem Swept.eq_sample (hio : o < i) : x = X (i - 1) := by
  rcases h.before with ⟨hio', -⟩ | ⟨-, hx⟩
  · omega
  · exact hx

omit h in
/-- The samples are in the segment. -/
theorem Inside.sample_mem (hi : i ≤ 2 * (x₁ - x₀)) : x₀ ≤ X i ∧ X i ≤ x₁ := by
  have hfirst := hb.mono 0 i (Nat.zero_le i) hi
  have hlast := hb.mono i (2 * (x₁ - x₀)) hi (Nat.le_refl _)
  rw [hb.first] at hfirst
  rw [hb.last] at hlast
  exact ⟨hfirst, hlast⟩

theorem Swept.mem : x₀ ≤ x ∧ x ≤ x₁ := by
  rcases h.before with ⟨-, hx⟩ | ⟨hio, hx⟩
  · have hoffset := hb.offset
    have hlt := hb.lt
    have hle := hb.le
    omega
  · rw [hx]
    exact hb.sample_mem (by have := h.le; omega)

/-- Samples in turn are two or more apart, or next to each other, or the same. -/
theorem Swept.wsub_lt_two (hi : i ≤ 2 * (x₁ - x₀)) : wsub (X i) x < 2 ↔ x ≤ X i ∧ X i ≤ x + 1 := by
  have hfits := hb.fits
  have hcount := hb.count
  have hx := h.mem hb
  have hX := hb.sample_mem hi
  exact SplinePath.wsub_lt_two (by omega) (by omega) (by omega)

/-- A sample at the one before, or next to it. -/
theorem Swept.step (hi : i ≤ 2 * (x₁ - x₀)) (hnext : x ≤ X i ∧ X i ≤ x + 1) (y : ℚ) :
    Swept X start end_ o (2 * (x₁ - x₀)) (i + 1) (X i) fun k => (dot (X i) y k).or (g k) := by
  refine ⟨by omega, .inr ⟨?_, rfl⟩, ?_, ?_⟩
  · rcases h.before with ⟨hio, -⟩ | ⟨hio, -⟩ <;> omega
  · intro k hk hkx hke
    rw [Option.isSome_or, Bool.or_eq_true, isSome_dot]
    by_cases hkX : k = X i
    · exact .inl hkX
    · exact .inr (h.later k hk (by omega) hke)
  · rw [Option.isSome_or, Bool.or_eq_true, isSome_dot, h.first]
    rcases h.before with ⟨rfl, rfl⟩ | ⟨hio, hx⟩
    · omega
    · have hle := hb.mono o (i - 1) (by omega) (by omega)
      omega

/-- A first sample before the block. -/
theorem Swept.wrap {xPrevious : Nat} (hi : i ≤ 2 * (x₁ - x₀)) (hwrap : X i < x)
    (hfrom : FilledFrom X x₀ start i x xPrevious) (yPrevious y : ℚ) :
    Swept X start end_ o (2 * (x₁ - x₀)) (i + 1) (X i) fun k =>
      ((gapFill start xPrevious (X i) yPrevious y k).or (dot (X i) y k)).or (g k) := by
  obtain ⟨⟨hfirst, -, hmono, -⟩, ho, hlt, hx₁, hfits, -⟩ := hb
  have hx₀ := hmono 0 i (by omega) hi
  obtain ⟨rfl, rfl⟩ : i = o ∧ x = start := by
    rcases h.before with hio | ⟨hio, hx⟩
    · exact hio
    · have hle := hmono (i - 1) i (by omega) hi
      omega
  have hfill : gapFill x xPrevious (X i) yPrevious y x = none := by
    cases hfrom with
    | block hlt' => omega
    | found =>
      rw [← Option.not_isSome_iff_eq_none, isSome_gapFill (by omega) (by omega) (by omega) (by omega)]
      omega
    | none => exact gapFill_eq_none (by omega) (Nat.le_refl _) _ _ (Nat.le_refl _)
  refine ⟨by omega, .inr ⟨by omega, rfl⟩, fun k hk hkx => by omega, ?_⟩
  rw [hfill, Option.none_or, Option.isSome_or, Bool.or_eq_true, isSome_dot, h.first]
  omega

/-- A sample after a gap. -/
theorem Swept.jump {xPrevious : Nat} (hi : i ≤ 2 * (x₁ - x₀)) (hgap : x + 2 ≤ X i)
    (hfrom : FilledFrom X x₀ start i x xPrevious) (yPrevious y : ℚ) :
    Swept X start end_ o (2 * (x₁ - x₀)) (i + 1) (X i) fun k =>
      ((gapFill start xPrevious (X i) yPrevious y k).or (dot (X i) y k)).or (g k) := by
  have hXi := hb.sample_mem hi
  have hx := h.mem hb
  obtain ⟨⟨hfirst, -, hmono, hsecond⟩, ho, hlt, hx₁, hfits, -⟩ := hb
  have hx₀ := hmono 0 i (by omega) hi
  have hle : xPrevious ≤ X i := by cases hfrom <;> omega
  have hxp : xPrevious + 1 < word := by cases hfrom <;> omega
  have hfill : ∀ k, (gapFill start xPrevious (X i) yPrevious y k).isSome ↔ xPrevious < k ∧ start ≤ k ∧ k < X i :=
    fun k => isSome_gapFill (by omega) (by omega) hxp hle yPrevious y k
  refine ⟨by omega, .inr ⟨?_, rfl⟩, ?_, ?_⟩
  · rcases h.before with ⟨hio, -⟩ | ⟨hio, -⟩ <;> omega
  · intro k hk hkx hke
    rw [Option.isSome_or, Bool.or_eq_true, Option.isSome_or, Bool.or_eq_true, isSome_dot, hfill]
    by_cases hkold : k ≤ x
    · exact .inr (h.later k hk hkold hke)
    · have hxp : xPrevious < k := by cases hfrom <;> omega
      omega
  · rw [Option.isSome_or, Bool.or_eq_true, Option.isSome_or, Bool.or_eq_true, isSome_dot, hfill, h.first]
    rcases h.before with ⟨rfl, rfl⟩ | ⟨hio, hx⟩
    · -- the first sample is after the start, so there is one before it to fill from
      have hone := hmono 1 i
      cases hfrom with
      | block hlt' => omega
      | found =>
        have hi0 : i ≠ 0 := by
          rintro rfl
          omega
        omega
      | none _ hno =>
        have hi0 : i ≠ 0 := by
          rintro rfl
          omega
        have hX1 := hno 1 (Nat.le_refl 1) (by omega)
        omega
    · have hoi := hmono o (i - 1) (by omega) (by omega)
      have hzero := hmono 0 (i - 1) (by omega) (by omega)
      cases hfrom with
      | block hlt' => omega
      | found => omega
      | none hle' hno =>
        have hi1 : i = 1 := by
          by_contra hne
          have hbefore := hno (i - 1) (by omega) (by omega)
          omega
        subst hi1
        omega

end

/-! ## Runs -/

/-- A position of the block that has been stored to, read after another sample is. -/
theorem shown_read {start end_ out x k : Nat} {g : Nat → Option ℚ} {block : List ℚ} {y v : ℚ} (hstart : start ≤ k)
    (hend : k < end_) (hg : (g k).isSome) (hne : k ≠ x)
    (hv : (paint (paint block (shown start end_ out g)) (shown start end_ out (dot x y)))[out + (k - start)]? = some v) :
    v = (g k).getD 0 := by
  obtain ⟨w, hw⟩ := Option.isSome_iff_exists.1 hg
  have hk : start + (out + (k - start) - out) = k := by omega
  have hin : out ≤ out + (k - start) ∧ out + (k - start) < out + (end_ - start) := by omega
  have hdot : dot x y k = none := if_neg hne
  simp only [getElem?_paint, shown, window, hin, and_self, if_true, hk, hw, hdot, Option.map_map,
    Option.map_eq_some_iff, Function.comp_apply, Option.getD_some, Option.getD_none] at hv ⊢
  obtain ⟨-, -, hv⟩ := hv
  exact hv.symm

/-- What is read for a gap is what has been stored there, or makes no difference
as the gap is after the block. -/
theorem gapFill_read {start end_ out xPrevious x k : Nat} {g : Nat → Option ℚ} {block : List ℚ} {y v : ℚ}
    (hstart : start < xPrevious) (hgap : xPrevious + 2 ≤ x) (hx : x < word) (hg : xPrevious < end_ → (g xPrevious).isSome)
    (hv : (paint (paint block (shown start end_ out g)) (shown start end_ out (dot x y)))[out + (xPrevious - start)]? =
      some v) (hk : k < end_) :
    gapFill start xPrevious x v y k = gapFill start xPrevious x ((g xPrevious).getD 0) y k := by
  by_cases hend : xPrevious < end_
  · rw [shown_read hstart.le hend (hg hend) (by omega) hv]
  · have hnone : ∀ yPrevious, gapFill start xPrevious x yPrevious y k = none := fun yPrevious =>
      gapFill_eq_none (by omega) hstart.le yPrevious y (by omega)
    rw [hnone, hnone]

section
variable {D : Type} {interpolator : Interpolator} {s : Segment D} {pStart : Point} {sSize : ℚ} {X : Nat → Nat}
  {Y : Nat → ℚ} {x₀ x₁ start end_ o : Nat} (hs : Samples interpolator s.points sSize (2 * (x₁ - x₀)) X Y)
  (hp : toSize pStart.x = x₀) (hb : Inside X x₀ x₁ start end_ o) {i x : Nat} {g : Nat → Option ℚ}
  (h : Swept X start end_ o (2 * (x₁ - x₀)) i x g)

include hs hp hb h

/-- What a round stores, on any block that has room for what it reads. -/
theorem Swept.next (out : Nat) (hcont : i < 2 * (end_ - start) ∨ x < end_) :
    ∃ g', Swept X start end_ o (2 * (x₁ - x₀)) (i + 1) (X i) g' ∧ ∀ block : List ℚ,
      out + (end_ - start) ≤ block.length → (ReadsBeyond X end_ o i → out + (x - start) < block.length) →
      beziernRound interpolator start end_ s pStart (2 * (end_ - start)) sSize out
        ⟨i, x, paint block (shown start end_ out g)⟩ =
          .ok (.inl ⟨i + 1, X i, paint block (shown start end_ out g')⟩) := by
  have hi := h.index_le hb hcont
  have hx := h.mem hb
  have hX := hb.sample_mem hi
  have hfits := hb.fits
  have hcount := hb.count
  have hoffset := hb.offset
  have hle := hb.le
  have hlt := hb.lt
  by_cases hnext : x ≤ X i ∧ X i ≤ x + 1
  · refine ⟨_, h.step hb hi hnext (Y i), ?_⟩
    intro block hout _
    rw [round_next hs hi (by omega) hcont (by omega) ((h.wsub_lt_two hb hi).2 hnext) (by rwa [length_paint]), paint_paint,
      window_or]
  · have hgap : 2 ≤ wsub (X i) x := by
      rw [← h.wsub_lt_two hb hi] at hnext
      omega
    obtain ⟨xPrevious, hfrom, hround⟩ := @round_gap _ _ _ pStart _ _ _ _ hs start end_ out (2 * (end_ - start)) i x hi
      (by omega) hcont (by omega) (by omega) (by omega) (by omega) hlt.le hgap
    rw [hp] at hfrom
    have hswept : ∀ yPrevious y, Swept X start end_ o (2 * (x₁ - x₀)) (i + 1) (X i) fun k =>
        ((gapFill start xPrevious (X i) yPrevious y k).or (dot (X i) y k)).or (g k) := by
      intro yPrevious y
      by_cases hwrap : X i < x
      · exact h.wrap hb hi hwrap hfrom yPrevious y
      · exact h.jump hb hi (by omega) hfrom yPrevious y
    by_cases hstart : start < x
    · -- the value that is read may be any, so what is stored is stated with the one that was
      have hio : o < i := by
        rcases h.before with ⟨-, hfirst⟩ | ⟨hio, -⟩
        · omega
        · exact hio
      have hsample := h.eq_sample hio
      have hmono := hb.mono (i - 1) i (by omega) hi
      have hxp : xPrevious = x := by cases hfrom <;> omega
      subst hxp
      refine ⟨_, hswept ((g xPrevious).getD 0) (Y i), ?_⟩
      intro block hout hroom
      have hinside : out + (xPrevious - start) < block.length := by
        by_cases hend : xPrevious < end_
        · omega
        · exact hroom ⟨hio, by omega, by omega⟩
      obtain ⟨v, hv⟩ : ∃ v, (paint (paint block (shown start end_ out g))
          (shown start end_ out (dot (X i) (Y i))))[out + (xPrevious - start)]? = some v :=
        ⟨_, List.getElem?_eq_getElem (by simpa only [length_paint] using hinside)⟩
      rw [hround _ v (by rwa [length_paint]) (fun _ => hv) (fun hle' => absurd hstart (by omega)), paint_paint, window_or]
      congr 4
      refine window_congr fun k _ hk => ?_
      rw [gapFill_read hstart (by omega) (by omega) (h.later _ hstart (Nat.le_refl _)) hv (by omega)]
    · refine ⟨_, hswept pStart.y (Y i), ?_⟩
      intro block hout _
      rw [hround _ pStart.y (by rwa [length_paint]) (fun hlt' => absurd hlt' hstart) (fun _ => rfl), paint_paint, window_or]

/-- Where the loop stops, and what it has stored by then, on any block that has
room for what it reads. -/
theorem Swept.run (out : Nat) {fuel : Nat} (hfuel : 2 * (x₁ - x₀) + 1 - i < fuel) :
    ∃ i' x' g', i' ≤ 2 * (x₁ - x₀) + 1 ∧ (∀ k, start < k → k < end_ → (g' k).isSome) ∧
      ((g' start).isSome ↔ X o ≠ start + 1) ∧ ∀ block : List ℚ, out + (end_ - start) ≤ block.length →
        (∀ i', i ≤ i' → i' < 2 * (end_ - start) → ReadsBeyond X end_ o i' →
          out + (X (i' - 1) - start) < block.length) →
        loop (beziernRound interpolator start end_ s pStart (2 * (end_ - start)) sSize out) fuel
            ⟨i, x, paint block (shown start end_ out g)⟩ =
          .ok ⟨i', x', paint block (shown start end_ out g')⟩ := by
  have hlt := hb.lt
  induction fuel generalizing i x g with
  | zero => omega
  | succ fuel ih =>
    by_cases hcont : i < 2 * (end_ - start) ∨ x < end_
    · obtain ⟨g₁, hg₁, hround⟩ := h.next hs hp hb out hcont
      have hi := h.index_le hb hcont
      have hle := hg₁.le
      obtain ⟨i', x', g', hi', hlater, hfirst, hloop⟩ := ih hg₁ (by omega)
      refine ⟨i', x', g', hi', hlater, hfirst, ?_⟩
      intro block hout hroom
      have hroom_i : ReadsBeyond X end_ o i → out + (x - start) < block.length := by
        intro hbeyond
        have hx := h.eq_sample hbeyond.1
        have hnot : ¬ x < end_ := by
          have := hbeyond.2.1
          omega
        rw [hx]
        exact hroom i (Nat.le_refl i) (by omega) hbeyond
      simp only [loop, hround block hout hroom_i, ok_bind]
      exact hloop block hout fun i'' hi'' => hroom i'' (by omega)
    · refine ⟨i, x, g, h.le, fun k hk hke => h.later k hk (by omega) hke, ?_, ?_⟩
      · rw [h.first]
        rcases h.before with ⟨-, hx⟩ | ⟨hio, -⟩
        · omega
        · have hx : start ≤ x := by omega
          simp only [hio, hx, true_and]
      · intro block _ _
        simp only [loop, beziernRound, hcont, if_false, pure_eq_ok, ok_bind]

/-- On a block without room, a loop that returns has read nothing beyond it. -/
theorem Swept.reads {out : Nat} {fuel : Nat} {block : List ℚ} (hout : block.length = out + (end_ - start)) {v : Sweep}
    (hloop : loop (beziernRound interpolator start end_ s pStart (2 * (end_ - start)) sSize out) fuel
      ⟨i, x, paint block (shown start end_ out g)⟩ = .ok v) {i' : Nat} (hi' : i ≤ i') (hlt' : i' < 2 * (end_ - start)) :
    ¬ ReadsBeyond X end_ o i' := by
  have hlt := hb.lt
  have hle := hb.le
  have hfits := hb.fits
  have hoffset := hb.offset
  induction fuel generalizing i x g with
  | zero => cases hloop
  | succ fuel ih =>
    have hcont : i < 2 * (end_ - start) ∨ x < end_ := by omega
    have hi := h.index_le hb hcont
    have hnot : ¬ ReadsBeyond X end_ o i := by
      rintro ⟨hio, hend, hgap⟩
      have hx := h.eq_sample hio
      have hxmem := h.mem hb
      have hX := hb.sample_mem hi
      have hwide : 2 ≤ wsub (X i) x := by
        have := h.wsub_lt_two hb hi
        omega
      have herror := @round_outOfBounds _ _ _ pStart _ _ _ _ hs start end_ out (2 * (end_ - start)) i x hi hcont
        (by omega) (by omega) hwide (by omega) (paint block (shown start end_ out g)) (by rw [length_paint]; omega)
        (by rw [length_paint]; omega)
      simp only [loop, herror] at hloop
      cases hloop
    obtain ⟨g₁, hg₁, hround⟩ := h.next hs hp hb out hcont
    simp only [loop, hround block hout.ge (fun hbeyond => absurd hbeyond hnot), ok_bind] at hloop
    by_cases hsame : i' = i
    · rw [hsame]
      exact hnot
    · exact ih hg₁ hloop (by omega)

end

/-- Nothing has been stored when the loop begins. -/
theorem swept_start (X : Nat → Nat) {start end_ o n : Nat} (ho : o ≤ n + 1) :
    Swept X start end_ o n o start fun _ => none :=
  ⟨ho, .inl ⟨rfl, rfl⟩, fun k hk hk' => by omega, by simp⟩

end SphSc.SplinePath

import SphSc.SplinePath.Folds
import SphSc.SplinePath.Preparing
/-!
# Samples between the points

Where the y of every point lies between two bounds, so does what is drawn: no
segment goes beyond its points, and neither do the lines that fill the gaps of
Bezier segments. What is shown holds of any block, so that a value read back from
it is between the bounds too.
-/
open Exec Ring Pieces

namespace SphSc.SplinePath

def Between (lo hi y : ℚ) : Prop := lo ≤ y ∧ y ≤ hi

/-- The values in the block. -/
def AllBetween (lo hi : ℚ) (block : List ℚ) : Prop := ∀ y ∈ block, Between lo hi y

variable {lo hi : ℚ} {block block' : List ℚ} {start end_ out : Nat}

theorem linearlyInterpolate_between {a b t : ℚ} (ha : Between lo hi a) (hb : Between lo hi b) (ht : Between 0 1 t) :
    Between lo hi (linearlyInterpolate a b t) := by
  obtain ⟨ht, ht'⟩ := ht
  have hsplit : linearlyInterpolate a b t = (1 - t) * a + t * b := by
    unfold linearlyInterpolate
    ring
  have hmt : 0 ≤ 1 - t := sub_nonneg.2 ht'
  have hsum : ∀ c : ℚ, (1 - t) * c + t * c = c := fun c => by ring
  rw [hsplit]
  constructor
  · calc lo = (1 - t) * lo + t * lo := (hsum lo).symm
      _ ≤ (1 - t) * a + t * b := add_le_add (mul_le_mul_of_nonneg_left ha.1 hmt) (mul_le_mul_of_nonneg_left hb.1 ht)
  · calc (1 - t) * a + t * b ≤ (1 - t) * hi + t * hi :=
        add_le_add (mul_le_mul_of_nonneg_left ha.2 hmt) (mul_le_mul_of_nonneg_left hb.2 ht)
      _ = hi := hsum hi

/-! ## Storing -/

theorem write_between {i : Nat} {y : ℚ} (h : write block i y = .ok block') (hblock : AllBetween lo hi block)
    (hy : Between lo hi y) : AllBetween lo hi block' := by
  obtain ⟨-, rfl⟩ := write_eq_ok.1 h
  intro v hv
  rcases List.mem_or_eq_of_mem_set hv with hv | rfl
  · exact hblock v hv
  · exact hy

theorem fill_between {i n : Nat} {y : ℚ} (h : fill block i n y = .ok block') (hblock : AllBetween lo hi block)
    (hy : Between lo hi y) : AllBetween lo hi block' := by
  obtain ⟨-, rfl⟩ := fill_eq_ok.1 h
  intro v hv
  simp only [List.mem_append, List.mem_replicate] at hv
  rcases hv with (hv | ⟨-, rfl⟩) | hv
  · exact hblock v (List.mem_of_mem_take hv)
  · exact hy
  · exact hblock v (List.mem_of_mem_drop hv)

theorem store_between {f : Nat → ℚ} {remaining i : Nat} (h : store out f remaining i block = .ok block')
    (hblock : AllBetween lo hi block) (hf : ∀ k, k < i + remaining → Between lo hi (f k)) :
    AllBetween lo hi block' := by
  induction remaining generalizing i block with
  | zero => cases h; exact hblock
  | succ remaining ih =>
    obtain ⟨block₁, hwrite, h⟩ := bind_eq_ok.1 h
    exact ih h (write_between hwrite hblock (hf i (by omega))) fun k hk => hf k (by omega)

theorem storeSample_between {x : Nat} {y : ℚ} (h : storeSample start end_ x y out block = .ok block')
    (hblock : AllBetween lo hi block) (hy : Between lo hi y) : AllBetween lo hi block' := by
  unfold storeSample at h
  split at h
  · exact write_between h hblock hy
  · cases h
    exact hblock

/-- The lines that fill gaps, whatever wraps around. -/
theorem fillGap_between {xPrevious x remaining j : Nat} {yPrevious y : ℚ}
    (h : fillGap start end_ xPrevious x yPrevious y out remaining j block = .ok block')
    (hj : remaining ≤ wsub x xPrevious - j) (hblock : AllBetween lo hi block) (hprevious : Between lo hi yPrevious)
    (hy : Between lo hi y) : AllBetween lo hi block' := by
  induction remaining generalizing j block with
  | zero => cases h; exact hblock
  | succ remaining ih =>
    unfold fillGap at h
    split at h
    · obtain ⟨block₁, hwrite, h⟩ := bind_eq_ok.1 h
      have ht : Between 0 1 ((j : ℚ) / (wsub x xPrevious : ℚ)) := by
        refine ⟨by positivity, div_le_one_of_le₀ ?_ (Nat.cast_nonneg _)⟩
        exact_mod_cast (by omega : j ≤ wsub x xPrevious)
      exact ih h (by omega) (write_between hwrite hblock (linearlyInterpolate_between hprevious hy ht))
    · cases h
      exact hblock

theorem gapStart_between {sample : Nat → Exec Nat} {pStart : Point} {i x xPrevious : Nat} {r : Nat × ℚ}
    (h : gapStart sample start pStart i x xPrevious out block = .ok r) (hblock : AllBetween lo hi block)
    (hstart : Between lo hi pStart.y) : Between lo hi r.2 := by
  unfold gapStart at h
  split at h
  · obtain ⟨y, hread, h⟩ := bind_eq_ok.1 h
    cases h
    exact hblock y (List.mem_of_getElem? (read_eq_ok.1 hread))
  · obtain ⟨j, -, h⟩ := bind_eq_ok.1 h
    cases h
    exact hstart

/-! ## Bezier segments -/

/-- A round stores the sample, and a line to it. -/
theorem beziernRound_between {D : Type} {interpolator : Interpolator} {s : Segment D} {pStart : Point} {bSize n : Nat}
    {sSize : ℚ} {X : Nat → Nat} {Y : Nat → ℚ} (hs : Samples interpolator s.points sSize n X Y) {v v' : Sweep}
    (hn : v.i ≤ n) (hY : Between lo hi (Y v.i)) (hstart : Between lo hi pStart.y)
    (h : beziernRound interpolator start end_ s pStart bSize sSize out v = .ok (.inl v'))
    (hblock : AllBetween lo hi v.block) : AllBetween lo hi v'.block := by
  unfold beziernRound at h
  split at h
  · simp only [hs.x v.i hn, hs.y v.i hn, ok_bind] at h
    obtain ⟨block₁, hstore, h⟩ := bind_eq_ok.1 h
    have hblock₁ := storeSample_between hstore hblock hY
    split at h
    · cases h
      exact hblock₁
    · obtain ⟨r, hgap, h⟩ := bind_eq_ok.1 h
      obtain ⟨block₂, hfill, h⟩ := bind_eq_ok.1 h
      cases h
      exact fillGap_between hfill (Nat.le_refl _) hblock₁ (gapStart_between hgap hblock₁ hstart) hY
  · cases h

namespace Curve

variable {c : Curve} {x₀ x₁ : Nat}

theorem coord_between (h : ∀ p ∈ c.segment.points, Between lo hi p.y) {t : ℚ} (ht : Between 0 1 t) :
    Between lo hi (c.coord Point.y t) := by
  have hneg := @coord_le c (fun p => -p.y) (-lo) t (fun p hp => neg_le_neg (h p hp).1) ht.1 ht.2
  rw [coord_neg] at hneg
  exact ⟨neg_le_neg_iff.1 hneg, coord_le (fun p hp => (h p hp).2) ht.1 ht.2⟩

theorem first_mem (c : Curve) : c.first ∈ c.segment.points := by
  cases c <;> simp [first, segment]

theorem generate_between (hspan : c.Spans x₀ x₁) (hge : x₀ ≤ start) (hse : start ≤ end_) (hle : end_ ≤ x₁)
    (hcount : 2 * (x₁ - x₀) + 1 < word) (hword : x₁ < word) (hpoints : ∀ p ∈ c.segment.points, Between lo hi p.y)
    {fuel : Nat} {r : Nat × List ℚ} (h : c.generate fuel start end_ out block = .ok r)
    (hblock : AllBetween lo hi block) : AllBetween lo hi r.2 := by
  rw [generate_loop hspan hge hse hle hword hcount] at h
  obtain ⟨v, hloop, hr⟩ := bind_eq_ok.1 h
  cases hr
  refine loop_inv (fun v => c.Rounds x₀ x₁ start v ∧ AllBetween lo hi v.block) (fun v => AllBetween lo hi v.block)
    ?_ ?_ ⟨Rounds.init hse hle block, hblock⟩ hloop
  · rintro v v' ⟨hv, hb⟩ hnext
    rcases hv.step hspan hge hse hle hcount out with h | h | ⟨v'', h, hv'', -⟩ <;> rw [hnext] at h <;> cases h
    refine ⟨hv'', ?_⟩
    have hcont : v.i < 2 * (end_ - start) ∨ v.x < end_ := by
      by_contra hstop
      rw [show c.round x₀ x₁ start end_ out v = .ok (.inr v) from if_neg hstop] at hnext
      cases hnext
    have hn := hv.continues hspan hge hse hle hcont
    exact beziernRound_between (c.samples x₀ x₁ _) hn (coord_between hpoints (parameter_mem (by omega) hn))
      (hpoints _ c.first_mem) hnext hb
  · rintro v v' ⟨hv, hb⟩ hexit
    rcases hv.step hspan hge hse hle hcount out with h | h | ⟨v'', h, -, -⟩ <;> rw [hexit] at h <;> cases h
    exact hb

end Curve

/-! ## Segments -/

/-- The points of a segment are between the bounds, its ends are at natural
numbers, and its shape does not leave the way from one end to the other: an arc is
no higher than the rectangle of its ends, and what the library returns for a
power or an exponential is a part of the way. -/
structure Built.Fits (lo hi : ℚ) (start last : Point) (b : Built) : Prop where
  start_between : Between lo hi start.y
  last_between : Between lo hi last.y
  span : ∃ x₀ x₁ : Nat, start.x = x₀ ∧ last.x = x₁ ∧ x₀ ≤ x₁ ∧ x₁ ≤ maxX
  shape : match b with
    | .power pow _ _ gamma => ∀ t, Between 0 1 t → Between 0 1 (pow t gamma)
    | .exponential exp _ _ gamma => Monotone exp ∧ exp 0 = 1 ∧ (dblEpsilon ≤ |gamma| → exp gamma ≠ 1)
    | .bezier1 _ y1 _ _ => Between lo hi y1
    | .bezier2 _ y1 _ y2 _ _ => Between lo hi y1 ∧ Between lo hi y2
    | .bezierArc _ _ curvature => Between (-1) 1 curvature
    | _ => True

theorem Built.read_prepared (b : Built) (start last : Point) : read (b.prepared start last).points 0 = .ok start := by
  cases b <;> rfl

theorem Built.lastPoint_prepared {b : Built} {start last : Point} (h : b.end_ start = .ok last) :
    (b.prepared start last).lastPoint = .ok last := by
  cases b with
  | path p => rfl
  | _ =>
    cases h
    rfl

/-- The parameter of a line, at each x of a call. -/
theorem parameter_between {x₀ x₁ i : Nat} (hge : x₀ ≤ start) (hle : end_ ≤ x₁) (hword : x₁ < word)
    (hi : i < 0 + wsub end_ start) (hse : start ≤ end_) {off : Nat} (hoff : off = start - x₀) :
    Between 0 1 ((wadd i off : Nat) / ((x₁ : ℚ) - x₀)) := by
  rw [wsub_of_le (by omega) hse] at hi
  have hadd : wadd i off = i + off := Nat.mod_eq_of_lt (by omega)
  rw [hadd, ← Nat.cast_sub (by omega)]
  exact ⟨by positivity, div_le_one_of_le₀ (by exact_mod_cast (by omega : i + off ≤ x₁ - x₀)) (Nat.cast_nonneg _)⟩

/-- An exponential that only grows, or only falls, over the segment. -/
theorem exponential_between {exp : ℚ → ℚ} {gamma t : ℚ} (hexp : Monotone exp) (hzero : exp 0 = 1) (ht : Between 0 1 t) :
    Between 0 1 ((exp (gamma * t) - 1) / (exp gamma - 1)) := by
  obtain ⟨ht, ht'⟩ := ht
  rcases le_total 0 gamma with hgamma | hgamma
  · have hlow : 1 ≤ exp (gamma * t) := hzero ▸ hexp (mul_nonneg hgamma ht)
    have hhigh : exp (gamma * t) ≤ exp gamma := hexp (mul_le_of_le_one_right hgamma ht')
    exact ⟨div_nonneg (by linarith) (by linarith), div_le_one_of_le₀ (by linarith) (by linarith)⟩
  · have hlow : exp gamma ≤ exp (gamma * t) := hexp (by nlinarith)
    have hhigh : exp (gamma * t) ≤ 1 := hzero ▸ hexp (mul_nonpos_of_nonpos_of_nonneg hgamma ht)
    refine ⟨div_nonneg_of_nonpos (by linarith) (by linarith), div_le_one_of_ge (by linarith) (by linarith)⟩

/-- The control point of an arc is in the rectangle of its ends. -/
theorem perpendicularPoint_between {p1 p2 : Point} {distance : ℚ} (h1 : Between lo hi p1.y) (h2 : Between lo hi p2.y)
    (hdistance : Between (-1) 1 distance) : Between lo hi (perpendicularPoint p1 p2 distance).y := by
  obtain ⟨hlow, hhigh⟩ := hdistance
  have ht : Between 0 1 ((1 - distance) / 2) := ⟨by linarith, by linarith⟩
  have hlerp := linearlyInterpolate_between h1 h2 ht
  rw [Built.perpendicularPoint_eq]
  have hsame : (p1.y + p2.y) / 2 - 1 / 2 * distance * (p2.y - p1.y) =
      linearlyInterpolate p1.y p2.y ((1 - distance) / 2) := by
    unfold linearlyInterpolate
    ring
  exact hsame ▸ hlerp

/-- A segment that was prepared, from one point to another. -/
structure Built.Placed (lo hi : ℚ) (s : Segment Data) (start last : Point) (b : Built) : Prop where
  eq : s = b.prepared start last
  lastPoint : s.lastPoint = .ok last
  fits : b.Fits lo hi start last

/-- Every segment was prepared and fits, also in the paths nested in the path. -/
inductive Path.Bounded (lo hi : ℚ) : Path Data → Prop
  | mk {p : Path Data} : (∀ s ∈ p.segments, ∃ b start last, Built.Placed lo hi s start last b) →
    (∀ s ∈ p.segments, ∀ sub, s.data = .path sub → Path.Bounded lo hi sub) → Path.Bounded lo hi p

structure Segment.Bounded (lo hi : ℚ) (s : Segment Data) : Prop where
  placed : ∃ b start last, Built.Placed lo hi s start last b
  nested : ∀ sub, s.data = .path sub → sub.Bounded lo hi

theorem Path.bounded_iff {p : Path Data} : p.Bounded lo hi ↔ ∀ s ∈ p.segments, s.Bounded lo hi := by
  constructor
  · rintro ⟨h, hnested⟩ s hs
    exact ⟨h s hs, hnested s hs⟩
  · intro h
    exact ⟨fun s hs => (h s hs).placed, fun s hs => (h s hs).nested⟩

/-- Where a segment is and what it may be called for. -/
def Segment.Calls (s : Segment Data) (start end_ : Nat) : Prop :=
  ∃ first last, read s.points 0 = .ok first ∧ s.lastPoint = .ok last ∧ toSize first.x ≤ start ∧ start ≤ end_ ∧
    end_ ≤ toSize last.x

/-- Calls within a segment keep the bounds, of its nested path whatever the block. -/
def Keeps (lo hi : ℚ) (generate : Generator Data) : Prop :=
  ∀ s start end_ out block r, s.Bounded lo hi → s.Calls start end_ → generate start end_ s out block = .ok r →
    r.1.Bounded lo hi ∧ (AllBetween lo hi block → AllBetween lo hi r.2)

theorem getLoop_between {generate : Generator Data} (hgen : Keeps lo hi generate) (hse : start ≤ end_)
    {remaining i : Nat} {path : Path Data} {r : Path Data × List ℚ} (hpath : path.Bounded lo hi)
    (h : getLoop generate start end_ out remaining i path block = .ok r) :
    r.1.Bounded lo hi ∧ (AllBetween lo hi block → AllBetween lo hi r.2) := by
  induction remaining generalizing i path block with
  | zero =>
    cases h
    exact ⟨hpath, id⟩
  | succ remaining ih =>
    obtain ⟨s, hs, h⟩ := bind_eq_ok.1 h
    obtain ⟨first, hfirst, h⟩ := bind_eq_ok.1 h
    obtain ⟨last, hlast, h⟩ := bind_eq_ok.1 h
    have hbounded := Path.bounded_iff.1 hpath s (List.mem_of_getElem? (read_eq_ok.1 hs))
    have hkept : ∀ path' : Path Data, path'.segments = path.segments → path'.Bounded lo hi := by
      intro path' hsame
      rw [Path.bounded_iff, hsame]
      exact Path.bounded_iff.1 hpath
    simp only at h
    split at h
    · cases h
      exact ⟨hkept _ rfl, id⟩
    split at h
    · refine ih ?_ h
      exact hkept _ rfl
    · obtain ⟨r₁, hr₁, h⟩ := bind_eq_ok.1 h
      have hcalls : s.Calls (if toSize first.x < start then start else toSize first.x)
          (if toSize last.x > end_ then end_ else toSize last.x) := by
        obtain ⟨b, start', last', rfl, hlast', hfits⟩ := hbounded.placed
        rw [Built.read_prepared] at hfirst
        rw [hlast'] at hlast
        cases hfirst
        cases hlast
        obtain ⟨x₀, x₁, hx₀, hx₁, hle, -⟩ := hfits.span
        refine ⟨_, _, b.read_prepared _ _, hlast', ?_⟩
        have hfirst : toSize first.x = x₀ := by rw [hx₀, toSize_natCast]
        have hlast : toSize last.x = x₁ := by rw [hx₁, toSize_natCast]
        split <;> split <;> omega
      obtain ⟨hs₁, hblock₁⟩ := hgen _ _ _ _ _ _ hbounded hcalls hr₁
      have hset : Path.Bounded lo hi
          { path with segments := path.segments.set i r₁.1, currentSegmentIndex := i, previousStart := start } := by
        rw [Path.bounded_iff]
        intro s' hs'
        rcases List.mem_or_eq_of_mem_set hs' with hs' | rfl
        · exact Path.bounded_iff.1 hpath s' hs'
        · exact hs₁
      obtain ⟨hr, hbetween⟩ := ih hset h
      exact ⟨hr, fun hblock => hbetween (hblock₁ hblock)⟩

/-! ## Generate functions -/

/-- A segment of a path is between its points in x. -/
theorem Built.Placed.calls {b : Built} {s : Segment Data} {start' last : Point} (h : b.Placed lo hi s start' last)
    (hcalls : s.Calls start end_) :
    ∃ x₀ x₁ : Nat, start'.x = x₀ ∧ last.x = x₁ ∧ x₁ ≤ maxX ∧ x₀ ≤ start ∧ start ≤ end_ ∧ end_ ≤ x₁ := by
  obtain ⟨first, last', hfirst, hlast, hge, hse, hle⟩ := hcalls
  rw [h.eq, b.read_prepared] at hfirst
  rw [h.lastPoint] at hlast
  cases hfirst
  cases hlast
  obtain ⟨x₀, x₁, hx₀, hx₁, -, hmax⟩ := h.fits.span
  rw [hx₀, toSize_natCast] at hge
  rw [hx₁, toSize_natCast] at hle
  exact ⟨x₀, x₁, hx₀, hx₁, hmax, hge, hse, hle⟩

/-- The segments whose samples are on a line between the ends. -/
theorem store_line_between {start' last : Point} {x₀ x₁ : Nat} (hx₀ : start'.x = x₀) (hx₁ : last.x = x₁)
    (hmax : x₁ ≤ maxX) (hge : x₀ ≤ start) (hse : start ≤ end_) (hle : end_ ≤ x₁) (hy₀ : Between lo hi start'.y)
    (hy₁ : Between lo hi last.y) {f : ℚ → ℚ} (hf : ∀ t, Between 0 1 t → Between 0 1 (f t))
    (h : store out (fun i => linearlyInterpolate start'.y last.y
      (f (wadd i (toSize (start - start'.x)) / (last.x - start'.x)))) (wsub end_ start) 0 block = .ok block')
    (hblock : AllBetween lo hi block) : AllBetween lo hi block' := by
  refine store_between h hblock fun k hk => linearlyInterpolate_between hy₀ hy₁ (hf _ ?_)
  rw [hx₀, hx₁]
  have hoff : toSize ((start : ℚ) - x₀) = start - x₀ := by rw [← Nat.cast_sub hge, toSize_natCast]
  exact parameter_between hge hle (Nat.lt_of_le_of_lt hmax (by decide)) hk hse hoff

theorem beziern_between {s : Segment Data} {c : Curve} {x₀ x₁ : Nat} (hpoints : s.points = c.segment.points)
    (hcount : s.pointsCount = c.segment.pointsCount) (hspan : c.Spans x₀ x₁) (hmax : x₁ ≤ maxX) (hge : x₀ ≤ start)
    (hse : start ≤ end_) (hle : end_ ≤ x₁) (hy : ∀ p ∈ c.segment.points, Between lo hi p.y) {fuel : Nat}
    {r : Nat × List ℚ} (h : beziernGenerate c.interpolator fuel start end_ s out block = .ok r)
    (hblock : AllBetween lo hi block) : AllBetween lo hi r.2 := by
  have hsame : beziernGenerate c.interpolator fuel start end_ s out block = c.generate fuel start end_ out block := by
    rw [c.generate_eq]
    obtain ⟨pointsCount, points, _, _, _⟩ := s
    obtain rfl : points = c.segment.points := hpoints
    obtain rfl : pointsCount = c.segment.pointsCount := hcount
    rfl
  have hword : 2 * maxX + 1 < word := by decide
  exact c.generate_between hspan hge hse hle (by omega) (by omega) hy (hsame ▸ h) hblock

/-- Sampling a segment that is not a path keeps the bounds. -/
theorem generate_between (hzero : Between lo hi 0) (depth : Nat) {b : Built} (hpath : ∀ p, b ≠ .path p)
    {s : Segment Data} {start' last : Point} (hplaced : b.Placed lo hi s start' last)
    (hcalls : s.Calls start end_) {r : Segment Data × List ℚ} (h : generate depth start end_ s out block = .ok r) :
    r.1 = s ∧ (AllBetween lo hi block → AllBetween lo hi r.2) := by
  obtain ⟨x₀, x₁, hx₀, hx₁, hmax, hge, hse, hle⟩ := hplaced.calls hcalls
  obtain ⟨rfl, hlast, hfits⟩ := hplaced
  have hshape := hfits.shape
  have hy₀ := hfits.start_between
  have hy₁ := hfits.last_between
  unfold generate at h
  cases b with
  | path p => exact absurd rfl (hpath p)
  | move x y =>
    obtain ⟨block', hstore, h⟩ := bind_eq_ok.1 h
    cases h
    exact ⟨rfl, fun hblock => fill_between hstore hblock hzero⟩
  | constant =>
    obtain ⟨block', hstore, h⟩ := bind_eq_ok.1 h
    cases h
    exact ⟨rfl, fun hblock => store_between hstore hblock fun _ _ => hy₀⟩
  | line x y =>
    obtain ⟨block', hstore, h⟩ := bind_eq_ok.1 h
    cases h
    cases hlast
    exact ⟨rfl, store_line_between (f := id) hx₀ hx₁ hmax hge hse hle hy₀ hy₁ (fun _ ht => ht) hstore⟩
  | power pow x y gamma =>
    obtain ⟨block', hstore, h⟩ := bind_eq_ok.1 h
    cases h
    cases hlast
    exact ⟨rfl, store_line_between hx₀ hx₁ hmax hge hse hle hy₀ hy₁ hshape hstore⟩
  | exponential exp x y gamma =>
    obtain ⟨block', hstore, h⟩ := bind_eq_ok.1 h
    cases h
    cases hlast
    obtain ⟨hexp, hexp₀, -⟩ := hshape
    refine ⟨rfl, fun hblock => store_line_between (f := fun t => if |gamma| < dblEpsilon then t
      else (exp (gamma * t) - 1) / (if |gamma| < dblEpsilon then 1 else exp gamma - 1))
      hx₀ hx₁ hmax hge hse hle hy₀ hy₁ (fun t ht => ?_) hstore hblock⟩
    split
    · exact ht
    · exact exponential_between hexp hexp₀ ht
  | bezier1 x1 y1 x y =>
    obtain ⟨block', hstore, h⟩ := bind_eq_ok.1 h
    cases h
    cases hlast
    refine ⟨rfl, beziern_between (c := .quadratic start' ⟨x1, y1⟩ ⟨x, y⟩) rfl rfl ⟨hx₀, hx₁⟩ hmax hge hse hle ?_
      hstore⟩
    simpa [Curve.segment] using ⟨hy₀, hshape, hy₁, hzero⟩
  | bezier2 x1 y1 x2 y2 x y =>
    obtain ⟨block', hstore, h⟩ := bind_eq_ok.1 h
    cases h
    cases hlast
    refine ⟨rfl, beziern_between (c := .cubic start' ⟨x1, y1⟩ ⟨x2, y2⟩ ⟨x, y⟩) rfl rfl ⟨hx₀, hx₁⟩ hmax hge hse hle ?_
      hstore⟩
    simpa [Curve.segment] using ⟨hy₀, hshape.1, hshape.2, hy₁⟩
  | bezierArc x y curvature =>
    obtain ⟨block', hstore, h⟩ := bind_eq_ok.1 h
    cases h
    refine ⟨rfl, beziern_between (c := .quadratic start' (perpendicularPoint start' last curvature) last) rfl rfl
      ⟨hx₀, hx₁⟩ hmax hge hse hle ?_ hstore⟩
    simpa [Curve.segment] using ⟨hy₀, perpendicularPoint_between hy₀ hy₁ hshape, hy₁, hzero⟩

/-- Every generate function keeps the bounds, a nested path by the ones below it. -/
theorem generate_keeps (hzero : Between lo hi 0) (depth : Nat) : Keeps lo hi (generate depth) := by
  induction depth with
  | zero =>
    rintro s start end_ out block r hs hcalls h
    obtain ⟨b, start', last, hplaced⟩ := hs.placed
    by_cases hpath : ∃ p, b = .path p
    · obtain ⟨p, rfl⟩ := hpath
      cases hplaced.eq
      cases h
    · obtain ⟨hr, hbetween⟩ := generate_between hzero 0 (fun p hp => hpath ⟨p, hp⟩) hplaced hcalls h
      exact ⟨hr ▸ hs, hbetween⟩
  | succ depth ih =>
    rintro s start end_ out block r hs hcalls h
    obtain ⟨b, start', last, hplaced⟩ := hs.placed
    by_cases hpath : ∃ p, b = .path p
    · obtain ⟨p, rfl⟩ := hpath
      obtain ⟨x₀, x₁, hx₀, -, hmax, hge, hse, hle⟩ := hplaced.calls hcalls
      obtain ⟨rfl, hlast, hfits⟩ := hplaced
      obtain ⟨first, hfirst, h⟩ := bind_eq_ok.1 h
      cases hfirst
      obtain ⟨r', hget, h⟩ := bind_eq_ok.1 h
      cases h
      have hword : maxX < word := by decide
      have hfirst : toSize start'.x = x₀ := by rw [hx₀, toSize_natCast]
      have hle' : wsub start (toSize start'.x) ≤ wsub end_ (toSize start'.x) := by
        rw [hfirst, wsub_of_le (by omega) hge, wsub_of_le (by omega) (by omega)]
        omega
      obtain ⟨hsub, hbetween⟩ := getLoop_between ih hle' (hs.nested p rfl) hget
      refine ⟨⟨⟨.path r'.1, start', last, rfl, hlast, ?_⟩, ?_⟩, hbetween⟩
      · exact ⟨hfits.start_between, hfits.last_between, hfits.span, trivial⟩
      · rintro sub ⟨⟩
        exact hsub
    · obtain ⟨hr, hbetween⟩ := generate_between hzero _ (fun p hp => hpath ⟨p, hp⟩) hplaced hcalls h
      exact ⟨hr ▸ hs, hbetween⟩

/-! ## Paths -/

theorem get_between (hzero : Between lo hi 0) {depth : Nat} {p : Path Data} (hp : p.Bounded lo hi) (hse : start ≤ end_)
    {r : Path Data × List ℚ} (h : get depth p start end_ block = .ok r) :
    r.1.Bounded lo hi ∧ (AllBetween lo hi block → AllBetween lo hi r.2) :=
  getLoop_between (generate_keeps hzero depth) hse hp h

/-- The segments fit, each from the end of the one before it on. -/
def AllFit (lo hi : ℚ) : (start : Point) → List Built → Prop
  | _, [] => True
  | start, b :: bs => ∀ last, b.end_ start = .ok last → b.Fits lo hi start last ∧ AllFit lo hi last bs

theorem prepareLoop_bounded {bs : List Built} {start : Point} {status : Byte} {segs : List (Segment Data)}
    (hfit : AllFit lo hi start bs) (hsub : ∀ p, .path p ∈ bs → p.Bounded lo hi)
    (h : prepareLoop start (bs.map Built.segment) = .ok (status, segs)) : ∀ s ∈ segs, s.Bounded lo hi := by
  induction bs generalizing start segs with
  | nil =>
    cases h
    simp
  | cons b bs ih =>
    rw [List.map_cons, Built.prepareLoop_segment] at h
    obtain ⟨last, hend, h⟩ := bind_eq_ok.1 h
    obtain ⟨r, hr, h⟩ := bind_eq_ok.1 h
    cases h
    obtain ⟨hfits, hrest⟩ := hfit last hend
    intro s hs
    rcases List.mem_cons.1 hs with rfl | hs
    · refine ⟨⟨b, start, last, rfl, Built.lastPoint_prepared hend, hfits⟩, fun sub hdata => hsub sub ?_⟩
      cases b <;> cases hdata
      simp
    · exact ih hrest (fun p hp => hsub p (by simp [hp])) hr s hs

theorem set_bounded {bs : List Built} (hfit : AllFit lo hi ⟨0, 0⟩ bs) (hsub : ∀ p, .path p ∈ bs → p.Bounded lo hi)
    {p : Path Data} (hset : set (bs.map Built.segment) = .ok (0, some p)) : p.Bounded lo hi := by
  obtain ⟨⟨status, segs⟩, hprepare, h⟩ := bind_eq_ok.1 hset
  simp only at h
  split at h
  · cases h
  · cases h
    rw [Path.bounded_iff]
    exact prepareLoop_bounded hfit hsub hprepare

theorem Sampled.bounded (hzero : Between lo hi 0) {depth : Nat} {p q : Path Data} (h : Sampled depth p q)
    (hp : p.Bounded lo hi) : q.Bounded lo hi := by
  induction h with
  | nil => exact hp
  | get w _ _ hget ih => exact (get_between hzero ih w.lt.le hget).1

/-- However a path whose segments fit between the bounds has been sampled before,
sampling it leaves a block of values between them such a block. -/
theorem samples_between (hzero : Between lo hi 0) {bs : List Built} (hfit : AllFit lo hi ⟨0, 0⟩ bs)
    (hsub : ∀ p, .path p ∈ bs → p.Bounded lo hi) {p : Path Data}
    (hset : set (bs.map Built.segment) = .ok (0, some p)) :
    p.Bounded lo hi ∧ ∀ depth q, Sampled depth p q → ∀ start end_ block r, start ≤ end_ → AllBetween lo hi block →
      get depth q start end_ block = .ok r → AllBetween lo hi r.2 := by
  have hp := set_bounded hfit hsub hset
  refine ⟨hp, fun depth q hq start end_ block r hse hblock h => ?_⟩
  exact (get_between hzero (hq.bounded hzero hp) hse h).2 hblock

/-- `samples_between` at a line to 3 and an arc down to 1. -/
theorem samples_between_arc : ∃ p, set ([.line 4 3, .bezierArc 10 1 (1 / 2)].map Built.segment) = .ok (0, some p) ∧
    p.Bounded 0 3 ∧ ∀ depth q, Sampled depth p q → ∀ start end_ block r, start ≤ end_ → AllBetween 0 3 block →
      get depth q start end_ block = .ok r → AllBetween 0 3 r.2 := by
  obtain ⟨p, hset⟩ : ∃ p, set ([.line 4 3, .bezierArc 10 1 (1 / 2)].map Built.segment) = .ok (0, some p) := ⟨_, rfl⟩
  refine ⟨p, hset, samples_between (by norm_num [Between]) ?_ (by simp) hset⟩
  rintro _ ⟨⟩
  refine ⟨⟨by norm_num [Between], by norm_num [Between], ⟨0, 4, rfl, rfl, by decide, by decide⟩, trivial⟩, ?_⟩
  rintro _ ⟨⟩
  refine ⟨⟨by norm_num [Between], by norm_num [Between], ⟨4, 10, rfl, rfl, by decide, by decide⟩, ?_⟩, trivial⟩
  norm_num [Between]

end SphSc.SplinePath

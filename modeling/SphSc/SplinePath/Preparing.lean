import SphSc.SplinePath.Model
import Mathlib.Tactic.Linarith
/-!
# Preparing segments again

`spline_path_prepare_segments` prepares the segments where they are. A second
run finds the points that the first one left, which makes no difference to a
segment unless it is an arc: its curvature is read from the point that the
control point is stored to.
-/
open Exec

namespace SphSc.SplinePath

/-- The calls of the constructors. -/
inductive Built where
  | move (x y : ℚ)
  | line (x y : ℚ)
  | constant
  | path (p : Path Data)
  | power (pow : ℚ → ℚ → ℚ) (x y gamma : ℚ)
  | exponential (exp : ℚ → ℚ) (x y gamma : ℚ)
  | bezier1 (x1 y1 x2 y2 : ℚ)
  | bezier2 (x1 y1 x2 y2 x3 y3 : ℚ)
  | bezierArc (x y curvature : ℚ)

namespace Built

def segment : Built → Segment Data
  | move x y => SplinePath.move x y
  | line x y => SplinePath.line x y
  | constant => SplinePath.constant
  | path p => SplinePath.path p
  | power pow x y gamma => SplinePath.power pow x y gamma
  | exponential exp x y gamma => SplinePath.exponential exp x y gamma
  | bezier1 x1 y1 x2 y2 => SplinePath.bezier1 x1 y1 x2 y2
  | bezier2 x1 y1 x2 y2 x3 y3 => SplinePath.bezier2 x1 y1 x2 y2 x3 y3
  | bezierArc x y curvature => SplinePath.bezierArc x y curvature

/-- Where a segment from `start` on ends. -/
def end_ (start : Point) : Built → Exec Point
  | constant => .ok ⟨sizeMax, start.y⟩
  | path p => do
    let pathEnd ← p.end_
    return ⟨start.x + pathEnd.x, pathEnd.y⟩
  | move x y | line x y | power _ x y _ | exponential _ x y _ | bezier1 _ _ x y | bezier2 _ _ _ _ x y
  | bezierArc x y _ => .ok ⟨x, y⟩

/-- The segment after it has been prepared to go from `start` to `last`. -/
def prepared (start last : Point) (b : Built) : Segment Data :=
  match b with
  | constant | path _ => { b.segment with points := [start, last, ⟨0, 0⟩, ⟨0, 0⟩] }
  | bezierArc _ _ curvature =>
    { b.segment with points := [start, perpendicularPoint start last curvature, last, ⟨0, 0⟩] }
  | _ => { b.segment with points := b.segment.points.set 0 start }

/-- The segment after it has been prepared twice. -/
def again (start last : Point) : Built → Segment Data
  | bezierArc x y curvature =>
    (bezierArc x y (perpendicularPoint start last curvature).y).prepared start last
  | b => b.prepared start last

/-- The next segment is prepared from the end of this one on. -/
theorem prepareLoop_segment (b : Built) (start : Point) (segs : List (Segment Data)) :
    prepareLoop start (b.segment :: segs) =
      b.end_ start >>= fun last => prepareLoop last segs >>= fun r => .ok (r.1, b.prepared start last :: r.2) := by
  cases b with
  | path p =>
    cases h : p.end_ with
    | ok pathEnd =>
      change ((p.end_ >>= _) >>= _) = _
      rw [end_, h]
      rfl
    | error e =>
      change ((p.end_ >>= _) >>= _) = _
      rw [end_, h]
      rfl
  | _ => rfl

theorem prepareLoop_prepared {b : Built} {start last : Point} (h : b.end_ start = .ok last)
    (segs : List (Segment Data)) :
    prepareLoop start (b.prepared start last :: segs) =
      prepareLoop last segs >>= fun r => .ok (r.1, b.again start last :: r.2) := by
  cases b with
  | path p =>
    obtain ⟨pathEnd, hend, hlast⟩ := bind_eq_ok.1 h
    cases hlast
    change ((p.end_ >>= _) >>= _) = _
    rw [hend]
    rfl
  | _ =>
    cases h
    rfl

/-! ## Arcs -/

theorem perpendicularPoint_eq (p1 p2 : Point) (distance : ℚ) :
    perpendicularPoint p1 p2 distance =
      ⟨(p1.x + p2.x) / 2 + 1 / 2 * distance * (p2.x - p1.x),
        (p1.y + p2.y) / 2 - 1 / 2 * distance * (p2.y - p1.y)⟩ := by
  unfold perpendicularPoint
  split
  · next hzero =>
    rw [hzero]
    simp
  · rfl

/-- Between two points, the control point tells the curvature. -/
theorem perpendicularPoint_inj {p1 p2 : Point} {d d' : ℚ} :
    perpendicularPoint p1 p2 d = perpendicularPoint p1 p2 d' ↔ p2 = p1 ∨ d = d' := by
  rw [perpendicularPoint_eq, perpendicularPoint_eq, Point.mk.injEq]
  constructor
  · rintro ⟨hx, hy⟩
    by_cases hd : d = d'
    · exact .inr hd
    · have hdiff : d - d' ≠ 0 := sub_ne_zero.2 hd
      have hx' : (d - d') * (p2.x - p1.x) = 0 := by linarith
      have hy' : (d - d') * (p2.y - p1.y) = 0 := by linarith
      obtain ⟨x2, y2⟩ := p2
      obtain ⟨x1, y1⟩ := p1
      have hxs : x2 = x1 := sub_eq_zero.1 ((mul_eq_zero.1 hx').resolve_left hdiff)
      have hys : y2 = y1 := sub_eq_zero.1 ((mul_eq_zero.1 hy').resolve_left hdiff)
      exact .inl (by rw [hxs, hys])
  · rintro (rfl | rfl)
    · simp
    · exact ⟨rfl, rfl⟩

/-- What a segment from `start` on must be for its points to stay: an arc ends
where it starts, or its control point has its curvature for a y. -/
def Stable (start : Point) : Built → Prop
  | bezierArc x y curvature => (⟨x, y⟩ : Point) = start ∨ start.y + y = curvature * (2 + (y - start.y))
  | _ => True

theorem stable_bezierArc {start : Point} {x y curvature : ℚ} :
    perpendicularPoint start ⟨x, y⟩ (perpendicularPoint start ⟨x, y⟩ curvature).y =
      perpendicularPoint start ⟨x, y⟩ curvature ↔ (bezierArc x y curvature).Stable start := by
  rw [perpendicularPoint_inj, Stable, perpendicularPoint_eq start _ curvature]
  refine or_congr_right ?_
  simp only
  constructor <;> intro h <;> linarith

theorem again_points {b : Built} {start last : Point} (h : b.end_ start = .ok last) :
    (b.again start last).points = (b.prepared start last).points ↔ b.Stable start := by
  cases b with
  | bezierArc x y curvature =>
    cases h
    rw [← stable_bezierArc]
    simp [again, prepared]
  | _ => exact iff_of_true rfl trivial

theorem again_eq {b : Built} {start last : Point} (h : b.end_ start = .ok last) (hb : b.Stable start) :
    b.again start last = b.prepared start last := by
  cases b with
  | bezierArc x y curvature =>
    cases h
    rw [again, prepared, stable_bezierArc.2 hb]
    rfl
  | _ => rfl

end Built

/-! ## Arrays -/

/-- The segments are stable, each from the end of the one before it on. -/
def Settled : (start : Point) → List Built → Prop
  | _, [] => True
  | start, b :: bs => b.Stable start ∧ ∀ last, b.end_ start = .ok last → Settled last bs

/-- Preparing segments gives the status 0, both times. -/
theorem prepareLoop_again {bs : List Built} {start : Point} {status : Byte} {segs : List (Segment Data)}
    (h : prepareLoop start (bs.map Built.segment) = .ok (status, segs)) :
    status = 0 ∧ ∃ segs', prepareLoop start segs = .ok (0, segs') ∧
      (segs'.map Segment.points = segs.map Segment.points ↔ Settled start bs) ∧ (Settled start bs → segs' = segs) := by
  induction bs generalizing start status segs with
  | nil =>
    cases h
    exact ⟨rfl, [], rfl, iff_of_true rfl trivial, fun _ => rfl⟩
  | cons b bs ih =>
    rw [List.map_cons, b.prepareLoop_segment] at h
    obtain ⟨last, hlast, h⟩ := bind_eq_ok.1 h
    obtain ⟨⟨status', rest⟩, hrest, hr⟩ := bind_eq_ok.1 h
    cases hr
    obtain ⟨rfl, rest', hagain, hpoints, heq⟩ := ih hrest
    have hsettled : Settled start (b :: bs) ↔ b.Stable start ∧ Settled last bs := by
      rw [Settled, hlast]
      simp
    refine ⟨rfl, b.again start last :: rest', ?_, ?_, ?_⟩
    · rw [Built.prepareLoop_prepared hlast, hagain]
      rfl
    · rw [hsettled, List.map_cons, List.map_cons, List.cons.injEq, Built.again_points hlast, hpoints]
    · rw [hsettled]
      rintro ⟨hstable, hsettled'⟩
      rw [Built.again_eq hlast hstable, heq hsettled']

end SphSc.SplinePath

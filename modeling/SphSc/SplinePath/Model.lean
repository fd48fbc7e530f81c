import SphSc.Lib.Ring
import SphSc.Lib.Pieces
import Mathlib.Data.Rat.Floor
/-!
# `spline-path.c`

Segments, the functions that prepare them, and `spline_path_get` with the
generate functions. Coordinates are rationals, so `spline_path_value_t` is
exact here. `out` is the block it points into and the position in it.
-/
open Exec Ring Pieces

namespace SphSc.SplinePath

/-- `spline_path_size_max` -/
def sizeMax : ℚ := 9007199254740992

/-- `sizeof(spline_path_value_t)` -/
def sizeofValue : Nat := 8

/-- `spline_path_point_t` -/
structure Point where
  x : ℚ
  y : ℚ
  deriving DecidableEq

/-- The `generate` functions, with what `spline_path_pow` and `spline_path_exp` stand for. -/
inductive Generate where
  | move
  | constant
  | line
  | path
  | bezier1
  | bezier2
  | power (pow : ℚ → ℚ → ℚ)
  | exponential (exp : ℚ → ℚ)

/-- The `prepare` functions. -/
inductive Prepare where
  | constant
  | path
  | bezierArc
  deriving DecidableEq

/-- `spline_path_segment_t`, with what `data` points to. -/
structure Segment (D : Type) where
  pointsCount : Nat
  points : List Point
  generate : Option Generate
  prepare : Option Prepare
  data : D

/-- `spline_path_t` -/
structure Path (D : Type) where
  segmentsCount : Nat
  segments : List (Segment D)
  currentSegmentIndex : Nat
  previousStart : Nat

/-- What `data` of a segment points to. -/
inductive Data where
  | null
  | path (p : Path Data)
  | value (gamma : ℚ)

/-- The conversion of a coordinate that is not negative to `size_t`. -/
def toSize (x : ℚ) : Nat := x.floor.toNat

/-- `linearly_interpolate` -/
def linearlyInterpolate (a b t : ℚ) : ℚ := a + t * (b - a)

section
variable {D : Type}

/-- `s->points[s->points_count - 1]` -/
def Segment.lastPoint (s : Segment D) : Exec Point :=
  if s.pointsCount = 0 then .error .outOfBounds else read s.points (s.pointsCount - 1)

def Segment.setPoint (s : Segment D) (i : Nat) (p : Point) : Exec (Segment D) := do
  let points ← write s.points i p
  return { s with points }

/-- `spline_path_end` -/
def Path.end_ (path : Path D) : Exec Point := do
  let s ← if path.segmentsCount = 0 then .error .outOfBounds else read path.segments (path.segmentsCount - 1)
  let p ← s.lastPoint
  if sizeMax = p.x then read s.points 0 else return p

/-! ## Constructors -/

/-- `spline_path_declare_segment` -/
def declareSegment : Segment Data :=
  { pointsCount := 0, points := List.replicate 4 ⟨0, 0⟩, generate := none, prepare := none, data := .null }

def move (x y : ℚ) : Segment Data :=
  { declareSegment with generate := some .move, pointsCount := 2, points := declareSegment.points.set 1 ⟨x, y⟩ }

def line (x y : ℚ) : Segment Data :=
  { declareSegment with generate := some .line, pointsCount := 2, points := declareSegment.points.set 1 ⟨x, y⟩ }

def constant : Segment Data :=
  { declareSegment with generate := some .constant, prepare := some .constant, pointsCount := 2 }

/-- `spline_path_path`, where `malloc` succeeds. -/
def path (p : Path Data) : Segment Data :=
  { declareSegment with data := .path p, generate := some .path, pointsCount := 2, prepare := some .path }

/-- `spline_path_alloc_segment`, where `malloc` succeeds. -/
def allocSegment (gen : Generate) (x y gamma : ℚ) : Segment Data :=
  { declareSegment with
    generate := some gen, pointsCount := 2, points := declareSegment.points.set 1 ⟨x, y⟩, data := .value gamma }

def power (pow : ℚ → ℚ → ℚ) (x y gamma : ℚ) : Segment Data := allocSegment (.power pow) x y gamma

def exponential (exp : ℚ → ℚ) (x y gamma : ℚ) : Segment Data := allocSegment (.exponential exp) x y gamma

def bezier1 (x1 y1 x2 y2 : ℚ) : Segment Data :=
  { declareSegment with
    generate := some .bezier1, pointsCount := 3, points := (declareSegment.points.set 1 ⟨x1, y1⟩).set 2 ⟨x2, y2⟩ }

def bezier2 (x1 y1 x2 y2 x3 y3 : ℚ) : Segment Data :=
  { declareSegment with
    generate := some .bezier2, pointsCount := 4,
    points := ((declareSegment.points.set 1 ⟨x1, y1⟩).set 2 ⟨x2, y2⟩).set 3 ⟨x3, y3⟩ }

def bezierArc (x y curvature : ℚ) : Segment Data :=
  { bezier1 0 curvature x y with prepare := some .bezierArc }

/-! ## Preparing segments -/

def constantPrepare (s : Segment D) : Exec (Byte × Segment D) := do
  let start ← read s.points 0
  let s ← s.setPoint 1 ⟨sizeMax, start.y⟩
  return (0, s)

def pathPrepare (s : Segment Data) : Exec (Byte × Segment Data) := do
  let .path p := s.data | .error .outOfBounds
  let pathEnd ← p.end_
  let start ← read s.points 0
  let s ← s.setPoint 1 ⟨start.x + pathEnd.x, pathEnd.y⟩
  return (0, s)

def perpendicularPoint (p1 p2 : Point) (distance : ℚ) : Point :=
  let c : Point := ⟨(p1.x + p2.x) / 2, (p1.y + p2.y) / 2⟩
  if distance = 0 then c
  else
    let dx := p2.x - p1.x
    let dy := p2.y - p1.y
    ⟨c.x + 1 / 2 * distance * dx, c.y - 1 / 2 * distance * dy⟩

def bezierArcPrepare (s : Segment D) : Exec (Byte × Segment D) := do
  let start ← read s.points 0
  let end_ ← read s.points 2
  let curvature ← read s.points 1
  let s ← s.setPoint 1 (perpendicularPoint start end_ curvature.y)
  return (0, s)

/-- `s->prepare && s->prepare(s)` -/
def prepare (s : Segment Data) : Exec (Byte × Segment Data) :=
  match s.prepare with
  | none => return (0, s)
  | some .constant => constantPrepare s
  | some .path => pathPrepare s
  | some .bezierArc => bezierArcPrepare s

/-- The loop of `spline_path_prepare_segments`, on the segments not yet prepared. -/
def prepareLoop : (start : Point) → List (Segment Data) → Exec (Byte × List (Segment Data))
  | _, [] => return (0, [])
  | start, s :: segments => do
    let s ← s.setPoint 0 start
    let (status, s) ← prepare s
    if status ≠ 0 then return (1, s :: segments)
    else
      let start ← s.lastPoint
      let (status, segments) ← prepareLoop start segments
      return (status, s :: segments)

def prepareSegments (segments : List (Segment Data)) : Exec (Byte × List (Segment Data)) :=
  prepareLoop ⟨0, 0⟩ segments

/-- `spline_path_set`, on all of the segments. -/
def set (segments : List (Segment Data)) : Exec (Byte × Option (Path Data)) := do
  let (status, segments) ← prepareSegments segments
  if status ≠ 0 then return (1, none)
  else return (0, some { segmentsCount := segments.length, segments, currentSegmentIndex := 0, previousStart := 0 })

/-! ## Generate functions -/

/-- The size is in bytes, and may wrap around. -/
def moveGenerate (start end_ out : Nat) (block : List ℚ) : Exec (List ℚ) :=
  fill block out (wmul sizeofValue (wsub end_ start) / sizeofValue) 0

def constantGenerate (start end_ : Nat) (s : Segment D) (out : Nat) (block : List ℚ) : Exec (List ℚ) := do
  let p ← read s.points 0
  store out (fun _ => p.y) (wsub end_ start) 0 block

def lineGenerate (start end_ : Nat) (s : Segment D) (out : Nat) (block : List ℚ) : Exec (List ℚ) := do
  let pStart ← read s.points 0
  let pEnd ← read s.points 1
  let sSize := pEnd.x - pStart.x
  let sOffset := toSize (start - pStart.x)
  store out (fun i => linearlyInterpolate pStart.y pEnd.y (wadd i sOffset / sSize)) (wsub end_ start) 0 block

def powerGenerate (pow : ℚ → ℚ → ℚ) (start end_ : Nat) (s : Segment Data) (out : Nat) (block : List ℚ) :
    Exec (List ℚ) := do
  let p0 ← read s.points 0
  let p1 ← s.lastPoint
  let span := p1.x - p0.x
  let off := toSize (start - p0.x)
  let gamma ← match s.data with
    | .value gamma => .ok gamma
    | .null => .ok 1
    | .path _ => .error .outOfBounds
  store out (fun i => linearlyInterpolate p0.y p1.y (pow (wadd i off / span) gamma)) (wsub end_ start) 0 block

/-- `DBL_EPSILON` -/
def dblEpsilon : ℚ := 1 / 2 ^ 52

def exponentialGenerate (exp : ℚ → ℚ) (start end_ : Nat) (s : Segment Data) (out : Nat) (block : List ℚ) :
    Exec (List ℚ) := do
  let p0 ← read s.points 0
  let p1 ← s.lastPoint
  let span := p1.x - p0.x
  let off := toSize (start - p0.x)
  let gamma ← match s.data with
    | .value gamma => .ok gamma
    | .null => .ok 0
    | .path _ => .error .outOfBounds
  let denom := if |gamma| < dblEpsilon then 1 else exp gamma - 1
  let f (t : ℚ) := if |gamma| < dblEpsilon then t else (exp (gamma * t) - 1) / denom
  store out (fun i => linearlyInterpolate p0.y p1.y (f (wadd i off / span))) (wsub end_ start) 0 block

/-! ## Bezier segments -/

/-- `spline_path_bezier1_interpolate` -/
def bezier1Interpolate (t mt a b c : ℚ) : ℚ := a * mt * mt + b * 2 * mt * t + c * t * t

/-- `spline_path_bezier2_interpolate` -/
def bezier2Interpolate (t mt a b c d : ℚ) : ℚ :=
  a * mt * mt * mt + b * 3 * mt * mt * t + c * 3 * mt * t * t + d * t * t * t

/-- An interpolation between points, of one of their fields. -/
abbrev Interpolator := (t mt : ℚ) → List Point → (field : Point → ℚ) → Exec ℚ

def bezier1InterpolatePoints : Interpolator := fun t mt points field => do
  let a ← read points 0
  let b ← read points 1
  let c ← read points 2
  return bezier1Interpolate t mt (field a) (field b) (field c)

def bezier2InterpolatePoints : Interpolator := fun t mt points field => do
  let a ← read points 0
  let b ← read points 1
  let c ← read points 2
  let d ← read points 3
  return bezier2Interpolate t mt (field a) (field b) (field c) (field d)

/-- `round`: to the nearest integer, halves away from zero. -/
def roundAway (x : ℚ) : ℚ := if 0 ≤ x then (x + 1 / 2).floor else -(-x + 1 / 2).floor

/-- The x of sample `i`, as `size_t`. -/
def sampleX (interpolator : Interpolator) (sSize : ℚ) (points : List Point) (i : Nat) : Exec Nat := do
  let t := i / sSize
  let x ← interpolator t (1 - t) points Point.x
  return toSize (roundAway x)

/-- The search for a sample before `x`. It gives `j`, which is 0 where there is none. -/
def searchBack (sample : Nat → Exec Nat) (x : Nat) : (j : Nat) → Exec Nat
  | 0 => return 0
  | j + 1 => do
    if (← sample (j + 1)) < x then return j + 1 else searchBack sample x j

/-- The sample is stored where it is in the block. -/
def storeSample (start end_ x : Nat) (y : ℚ) (out : Nat) (block : List ℚ) : Exec (List ℚ) :=
  if start ≤ x ∧ x < end_ then write block (out + wsub x start) y else return block

/-- `x_previous` and `y_previous` for the gap before sample `i`. -/
def gapStart (sample : Nat → Exec Nat) (start : Nat) (pStart : Point) (i x xPrevious out : Nat) (block : List ℚ) :
    Exec (Nat × ℚ) :=
  if start < xPrevious then do
    let yPrevious ← read block (out + wsub xPrevious start)
    return (xPrevious, yPrevious)
  else do
    let j ← searchBack sample x i
    -- the values found are replaced by those of the start point
    return (if j ≠ 0 then toSize pStart.x else xPrevious, pStart.y)

/-- The loop that fills a gap; `remaining` is `x - x_previous - j`. -/
def fillGap (start end_ xPrevious x : Nat) (yPrevious y : ℚ) (out : Nat) :
    (remaining j : Nat) → List ℚ → Exec (List ℚ)
  | 0, _, block => return block
  | remaining + 1, j, block =>
    if wadd xPrevious j < end_ then do
      let t := j / (wsub x xPrevious : ℚ)
      let block ← write block (out + wsub (wadd xPrevious j) start) (linearlyInterpolate yPrevious y t)
      fillGap start end_ xPrevious x yPrevious y out remaining (j + 1) block
    else return block

/-- The variables of the outer loop, with the block. Each round begins with
`x_previous` equal to `x`. -/
structure Sweep where
  i : Nat
  x : Nat
  block : List ℚ

/-- A round of the outer loop. -/
def beziernRound (interpolator : Interpolator) (start end_ : Nat) (s : Segment D) (pStart : Point) (bSize : Nat)
    (sSize : ℚ) (out : Nat) (v : Sweep) : Exec (Sweep ⊕ Sweep) := do
  if v.i < bSize ∨ v.x < end_ then
    let xPrevious := v.x
    let x ← sampleX interpolator sSize s.points v.i
    let t := v.i / sSize
    let y ← interpolator t (1 - t) s.points Point.y
    let block ← storeSample start end_ x y out v.block
    if wsub x xPrevious < 2 then return .inl ⟨wadd v.i 1, x, block⟩
    else
      let (xPrevious, yPrevious) ←
        gapStart (sampleX interpolator sSize s.points) start pStart v.i x xPrevious out block
      let jStart := if wadd xPrevious 1 < start then wsub start xPrevious else 1
      let block ← fillGap start end_ xPrevious x yPrevious y out (wsub x xPrevious - jStart) jStart block
      return .inl ⟨wadd v.i 1, x, block⟩
  else return .inr v

/-- `spline_path_beziern_generate`, with the counter it stops at. -/
def beziernGenerate (interpolator : Interpolator) (fuel start end_ : Nat) (s : Segment D) (out : Nat)
    (block : List ℚ) : Exec (Nat × List ℚ) := do
  let pStart ← read s.points 0
  let pEnd ← s.lastPoint
  let bSize := wmul 2 (wsub end_ start)
  let sSize := 2 * (pEnd.x - pStart.x)
  let v ← loop (beziernRound interpolator start end_ s pStart bSize sSize out) fuel
    ⟨toSize (start - pStart.x), start, block⟩
  return (v.i, v.block)

def bezier1Generate (fuel start end_ : Nat) (s : Segment D) (out : Nat) (block : List ℚ) : Exec (Nat × List ℚ) :=
  beziernGenerate bezier1InterpolatePoints fuel start end_ s out block

def bezier2Generate (fuel start end_ : Nat) (s : Segment D) (out : Nat) (block : List ℚ) : Exec (Nat × List ℚ) :=
  beziernGenerate bezier2InterpolatePoints fuel start end_ s out block

/-! ## Sampling -/

/-- A call of `s->generate`, which may change what `data` points to. -/
abbrev Generator (D : Type) := (start end_ : Nat) → Segment D → (out : Nat) → List ℚ → Exec (Segment D × List ℚ)

variable (generate : Generator D)

/-- The loop of `spline_path_get`; `remaining` is `path->segments_count - i`.
The index is cached after each round that did not break. -/
def getLoop (start end_ out : Nat) : (remaining i : Nat) → Path D → List ℚ → Exec (Path D × List ℚ)
  | 0, _, path, block => return (path, block)
  | remaining + 1, i, path, block => do
    let s ← read path.segments i
    let sStart := toSize (← read s.points 0).x
    let sEnd := toSize (← s.lastPoint).x
    let path := { path with previousStart := start }
    if sStart > end_ then return (path, block)
    else if sEnd < start then
      getLoop start end_ out remaining (i + 1) { path with currentSegmentIndex := i } block
    else
      let outStart := if sStart > start then wsub sStart start else 0
      let sStart := if sStart < start then start else sStart
      let sEnd := if sEnd > end_ then end_ else sEnd
      let (s, block) ← generate sStart sEnd s (out + outStart) block
      let path := { path with segments := path.segments.set i s }
      getLoop start end_ out remaining (i + 1) { path with currentSegmentIndex := i } block

/-- Where the loop of `spline_path_get` starts. -/
def Path.resumeIndex (path : Path D) (start : Nat) : Nat :=
  if start < path.previousStart then 0 else path.currentSegmentIndex

/-- `spline_path_get`, given what the segments generate. -/
def getWith (path : Path D) (start end_ out : Nat) (block : List ℚ) : Exec (Path D × List ℚ) :=
  let i := path.resumeIndex start
  getLoop generate start end_ out (path.segmentsCount - i) i path block

end

/-- What a call of `s->generate` does. `depth` bounds how deep paths may be nested,
and the rounds of a Bezier segment are as many as its counter has values. -/
def generate : (depth : Nat) → Generator Data
  | depth, start, end_, s, out, block =>
    match s.generate with
    | some .move => do return (s, ← moveGenerate start end_ out block)
    | some .constant => do return (s, ← constantGenerate start end_ s out block)
    | some .line => do return (s, ← lineGenerate start end_ s out block)
    | some .bezier1 => do return (s, (← bezier1Generate (word + 1) start end_ s out block).2)
    | some .bezier2 => do return (s, (← bezier2Generate (word + 1) start end_ s out block).2)
    | some (.power pow) => do return (s, ← powerGenerate pow start end_ s out block)
    | some (.exponential exp) => do return (s, ← exponentialGenerate exp start end_ s out block)
    | some .path =>
      match depth, s.data with
      | depth + 1, .path p => do
        let first ← read s.points 0
        let offset := toSize first.x
        let (p, block) ← getWith (generate depth) p (wsub start offset) (wsub end_ offset) out block
        return ({ s with data := .path p }, block)
      | _, .path _ => .error .outOfFuel
      | _, _ => .error .outOfBounds
    | none => .error .outOfBounds

/-- `spline_path_get` -/
def get (depth : Nat) (path : Path Data) (start end_ : Nat) (block : List ℚ) : Exec (Path Data × List ℚ) :=
  getWith (generate depth) path start end_ 0 block

/-- Calls on `[start, x₁)`, `[x₁, x₂)`, ..., each with the block for its samples. -/
def getInTurn (depth : Nat) : Path Data → (start : Nat) → List (Nat × List ℚ) → Exec (Path Data × List (Nat × List ℚ))
  | path, _, [] => return (path, [])
  | path, start, (end_, block) :: rest => do
    let (path, block) ← get depth path start end_ block
    let (path, rest) ← getInTurn depth path end_ rest
    return (path, (end_, block) :: rest)

end SphSc.SplinePath

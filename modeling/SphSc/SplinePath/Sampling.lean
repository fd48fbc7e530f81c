import SphSc.SplinePath.Cursor
/-!
# Sampling paths of moves and lines

A `Sketch` is what a path of move and line segments with an optional constant
at the end is made from, and `Sketch.curve` the curve it stands for.
`set_draws` shows that the path set from it draws that curve.
-/
open Exec Ring Pieces

namespace SphSc.SplinePath

/-! ## Sketches -/

/-- A move or line to a point. -/
inductive Stroke where
  | move (x : Nat) (y : ℚ)
  | line (x : Nat) (y : ℚ)

namespace Stroke

def x : Stroke → Nat
  | move x _ => x
  | line x _ => x

def y : Stroke → ℚ
  | move _ y => y
  | line _ y => y

def segment : Stroke → Segment Data
  | move x y => SplinePath.move x y
  | line x y => SplinePath.line x y

/-- What is drawn on the way from `(x₀, y₀)`. -/
def piece (x₀ : Nat) (y₀ : ℚ) : Stroke → Piece ℚ
  | move x _ => ⟨x₀, x, fun _ => 0⟩
  | line x y => ⟨x₀, x, fun t => y₀ + (y - y₀) * (t - x₀) / (x - x₀)⟩

@[simp] theorem piece_lo (x₀ : Nat) (y₀ : ℚ) (s : Stroke) : (s.piece x₀ y₀).lo = x₀ := by cases s <;> rfl

@[simp] theorem piece_hi (x₀ : Nat) (y₀ : ℚ) (s : Stroke) : (s.piece x₀ y₀).hi = s.x := by cases s <;> rfl

end Stroke

/-- `spline_path_size_max`, where constant segments end. -/
def maxX : Nat := 9007199254740992

/-- Strokes with their x in order, and whether a constant segment follows, whose
end is then the last x. -/
structure Sketch where
  strokes : List Stroke
  constant : Bool
  sorted : (strokes.map Stroke.x).Pairwise (· ≤ ·)
  bounded : constant = true → ∀ s ∈ strokes, s.x ≤ maxX

/-- The segments to prepare. -/
def segmentsOf (strokes : List Stroke) (constant : Bool) : List (Segment Data) :=
  strokes.map Stroke.segment ++ if constant then [SplinePath.constant] else []

def Sketch.segments (sk : Sketch) : List (Segment Data) := segmentsOf sk.strokes sk.constant

/-- The curve from `(x₀, y₀)` on. -/
def piecesOf : (x₀ : Nat) → (y₀ : ℚ) → List Stroke → (constant : Bool) → List (Piece ℚ)
  | x₀, y₀, [], constant => if constant then [⟨x₀, maxX, fun _ => y₀⟩] else []
  | x₀, y₀, s :: strokes, constant => s.piece x₀ y₀ :: piecesOf s.x s.y strokes constant

def Sketch.pieces (sk : Sketch) : List (Piece ℚ) := piecesOf 0 0 sk.strokes sk.constant

/-- The value at `x`: 0 on a move, the start y on the constant, and on a line
the interpolation between its ends. Nothing after the last segment. -/
def Sketch.curve (sk : Sketch) : Nat → Option ℚ := draw sk.pieces

/-! ## Preparing -/

@[simp] theorem toSize_natCast (n : Nat) : toSize n = n := by
  rw [toSize, ← Int.cast_natCast, Rat.floor_intCast, Int.toNat_natCast]

@[simp] theorem toSize_sizeMax : toSize sizeMax = maxX := toSize_natCast maxX

/-- The segment after it has been prepared to start at `(x₀, y₀)`. -/
def Stroke.prepared (x₀ : Nat) (y₀ : ℚ) (s : Stroke) : Segment Data :=
  { s.segment with points := [⟨x₀, y₀⟩, ⟨s.x, s.y⟩, ⟨0, 0⟩, ⟨0, 0⟩] }

def constantPrepared (x₀ : Nat) (y₀ : ℚ) : Segment Data :=
  { constant with points := [⟨x₀, y₀⟩, ⟨sizeMax, y₀⟩, ⟨0, 0⟩, ⟨0, 0⟩] }

def preparedOf : (x₀ : Nat) → (y₀ : ℚ) → List Stroke → (constant : Bool) → List (Segment Data)
  | x₀, y₀, [], constant => if constant then [constantPrepared x₀ y₀] else []
  | x₀, y₀, s :: strokes, constant => s.prepared x₀ y₀ :: preparedOf s.x s.y strokes constant

theorem prepareLoop_cons (x₀ : Nat) (y₀ : ℚ) (s : Stroke) (segments : List (Segment Data)) :
    prepareLoop ⟨x₀, y₀⟩ (s.segment :: segments) =
      prepareLoop ⟨s.x, s.y⟩ segments >>= fun r => .ok (r.1, s.prepared x₀ y₀ :: r.2) := by
  cases s <;> rfl

theorem prepareLoop_eq (x₀ : Nat) (y₀ : ℚ) (strokes : List Stroke) (constant : Bool) :
    prepareLoop ⟨x₀, y₀⟩ (segmentsOf strokes constant) = .ok (0, preparedOf x₀ y₀ strokes constant) := by
  induction strokes generalizing x₀ y₀ with
  | nil => cases constant <;> rfl
  | cons s strokes ih =>
    rw [segmentsOf, List.map_cons, List.cons_append, prepareLoop_cons, ← segmentsOf, ih, ok_bind]
    rfl

/-! ## Drawing -/

section
variable {depth start end_ out : Nat} {block : List ℚ}

theorem moveGenerate_paints (h : start ≤ end_) (hfits : end_ < word) (hbytes : sizeofValue * (end_ - start) < word)
    (hout : out + (end_ - start) ≤ block.length) :
    moveGenerate start end_ out block = .ok (paint block (window out (end_ - start) start fun _ => some 0)) := by
  rw [moveGenerate, wsub_of_le hfits h, wmul, Nat.mod_eq_of_lt hbytes,
    Nat.mul_div_cancel_left _ (by decide : 0 < sizeofValue)]
  exact fill_paints start 0 hout

theorem constantGenerate_paints {s : Segment Data} {p : Point} (hp : read s.points 0 = .ok p) (h : start ≤ end_)
    (hfits : end_ < word) (hout : out + (end_ - start) ≤ block.length) :
    constantGenerate start end_ s out block =
      .ok (paint block (window out (end_ - start) start fun _ => some p.y)) := by
  rw [constantGenerate, hp, ok_bind, wsub_of_le hfits h]
  exact store_paints (fun _ _ _ => rfl) hout

/-- The offset into the line and the counter add up to the distance from its start. -/
theorem lineGenerate_paints {s : Segment Data} {x₀ : Nat} {y₀ : ℚ} {p : Point} (h₀ : read s.points 0 = .ok ⟨x₀, y₀⟩)
    (h₁ : read s.points 1 = .ok p) (hx : x₀ ≤ start) (h : start ≤ end_) (hfits : end_ < word)
    (hout : out + (end_ - start) ≤ block.length) :
    lineGenerate start end_ s out block =
      .ok (paint block (window out (end_ - start) start fun t =>
        some (y₀ + (p.y - y₀) * (t - x₀) / (p.x - x₀)))) := by
  have hoff : toSize ((start : ℚ) - x₀) = start - x₀ := by rw [← Nat.cast_sub hx, toSize_natCast]
  rw [lineGenerate, h₀, ok_bind, h₁, ok_bind, wsub_of_le hfits h]
  simp only [hoff]
  refine store_paints (s := start) (fun k _ hk => ?_) hout
  have hadd : wadd k (start - x₀) = start + k - x₀ := by
    rw [wadd, Nat.mod_eq_of_lt (by omega)]; omega
  rw [hadd, linearlyInterpolate, Nat.cast_sub (by omega)]
  congr 1
  ring

theorem generate_move {s : Segment Data} (hs : s.generate = some .move) :
    generate depth start end_ s out block = moveGenerate start end_ out block >>= fun b => .ok (s, b) := by
  unfold generate
  rw [hs]
  rfl

theorem generate_constant {s : Segment Data} (hs : s.generate = some .constant) :
    generate depth start end_ s out block = constantGenerate start end_ s out block >>= fun b => .ok (s, b) := by
  unfold generate
  rw [hs]
  rfl

theorem generate_line {s : Segment Data} (hs : s.generate = some .line) :
    generate depth start end_ s out block = lineGenerate start end_ s out block >>= fun b => .ok (s, b) := by
  unfold generate
  rw [hs]
  rfl

end

theorem stroke_draws (depth x₀ : Nat) (y₀ : ℚ) (s : Stroke) :
    Draws (generate depth) (s.prepared x₀ y₀) (s.piece x₀ y₀) := by
  cases s with
  | move x y =>
    refine ⟨⟨_, rfl, toSize_natCast x₀⟩, ⟨_, rfl, toSize_natCast x⟩, ?_⟩
    intro start end_ out block _ h _ hfits hbytes hout
    rw [generate_move rfl, moveGenerate_paints h hfits hbytes hout]
    rfl
  | line x y =>
    refine ⟨⟨_, rfl, toSize_natCast x₀⟩, ⟨_, rfl, toSize_natCast x⟩, ?_⟩
    intro start end_ out block hx h _ hfits _ hout
    rw [generate_line rfl, lineGenerate_paints rfl rfl hx h hfits hout]
    rfl

theorem constant_draws (depth x₀ : Nat) (y₀ : ℚ) :
    Draws (generate depth) (constantPrepared x₀ y₀) ⟨x₀, maxX, fun _ => y₀⟩ := by
  refine ⟨⟨_, rfl, toSize_natCast x₀⟩, ⟨_, rfl, toSize_sizeMax⟩, ?_⟩
  intro start end_ out block _ h _ hfits _ hout
  rw [generate_constant rfl, constantGenerate_paints rfl h hfits hout]
  rfl

theorem preparedOf_draws (depth x₀ : Nat) (y₀ : ℚ) (strokes : List Stroke) (constant : Bool) :
    List.Forall₂ (Draws (generate depth)) (preparedOf x₀ y₀ strokes constant) (piecesOf x₀ y₀ strokes constant) := by
  induction strokes generalizing x₀ y₀ with
  | nil =>
    cases constant with
    | false => exact .nil
    | true => exact .cons (constant_draws depth x₀ y₀) .nil
  | cons s strokes ih => exact .cons (stroke_draws depth x₀ y₀ s) (ih s.x s.y)

theorem chain_piecesOf {x₀ : Nat} (y₀ : ℚ) {strokes : List Stroke} {constant : Bool}
    (hsorted : (x₀ :: strokes.map Stroke.x).Pairwise (· ≤ ·))
    (hbounded : constant = true → x₀ ≤ maxX ∧ ∀ s ∈ strokes, s.x ≤ maxX) :
    Chain x₀ (piecesOf x₀ y₀ strokes constant) := by
  induction strokes generalizing x₀ y₀ with
  | nil =>
    cases constant with
    | false => trivial
    | true => exact ⟨rfl, (hbounded rfl).1, trivial⟩
  | cons s strokes ih =>
    obtain ⟨hle, hsorted⟩ := List.pairwise_cons.1 hsorted
    refine ⟨s.piece_lo x₀ y₀, ?_, ?_⟩
    · rw [s.piece_hi]
      exact hle s.x (by simp)
    · rw [s.piece_hi]
      refine ih s.y hsorted fun hc => ⟨(hbounded hc).2 s (by simp), fun t ht => ?_⟩
      exact (hbounded hc).2 t (by simp [ht])

theorem Sketch.chain (sk : Sketch) : Chain 0 sk.pieces :=
  chain_piecesOf 0 (List.pairwise_cons.2 ⟨fun _ _ => Nat.zero_le _, sk.sorted⟩)
    fun hc => ⟨Nat.zero_le _, sk.bounded hc⟩

/-- A path set from a sketch is the path of its prepared segments, which draw its pieces. -/
theorem set_draws (depth : Nat) {sk : Sketch} {p : Path Data} (h : set sk.segments = .ok (0, some p)) :
    ∃ segs, p = ⟨segs.length, segs, 0, 0⟩ ∧ List.Forall₂ (Draws (generate depth)) segs sk.pieces := by
  have hprep : prepareSegments sk.segments = .ok (0, preparedOf 0 0 sk.strokes sk.constant) :=
    prepareLoop_eq 0 0 sk.strokes sk.constant
  rw [set, hprep, ok_bind] at h
  cases h
  exact ⟨_, rfl, preparedOf_draws depth 0 0 sk.strokes sk.constant⟩

/-! ## History -/

/-- An interval with a block for its samples. -/
structure Interval where
  start : Nat
  end_ : Nat
  lt : start < end_
  fits : end_ < word
  bytes : sizeofValue * (end_ - start) < word

/-- The path after any calls that sampled it and returned. -/
inductive Sampled (depth : Nat) (p : Path Data) : Path Data → Prop
  | nil : Sampled depth p p
  | get {q q' : Path Data} (w : Interval) {block block' : List ℚ} : Sampled depth p q →
      w.end_ - w.start ≤ block.length → get depth q w.start w.end_ block = .ok (q', block') → Sampled depth p q'

theorem Interval.addressable (w : Interval) (ps : List (Piece ℚ)) : Addressable ps w.start w.end_ :=
  ⟨w.lt, w.fits, .inl w.bytes⟩

theorem Sampled.cached {depth : Nat} {p q : Path Data} (h : Sampled depth p q) {segs : List (Segment Data)}
    {ps : List (Piece ℚ)} (hd : List.Forall₂ (Draws (generate depth)) segs ps) (hc : Chain 0 ps)
    (hp : Cached segs p) : Cached segs q := by
  induction h with
  | nil => exact hp
  | @get q q' w block block' _ hout hget ih =>
    have hout' : 0 + (w.end_ - w.start) ≤ block.length := by omega
    obtain ⟨r, hr, hcached, -⟩ := getWith_spec hd hc ih (w.addressable ps) hout'
    rw [SplinePath.get, hr] at hget
    cases hget
    exact hcached

/-- After any calls, sampling a path leaves what sampling it anew leaves exactly
when the scan starts over, because the start is below the one before, or the
segment it resumes at starts by the start. -/
theorem get_eq_fresh_iff (depth : Nat) (sk : Sketch) {p q : Path Data} (hset : set sk.segments = .ok (0, some p))
    (hcalls : Sampled depth p q) (w : Interval) :
    (∀ block, w.end_ - w.start ≤ block.length →
      (get depth q w.start w.end_ block).map Prod.snd = (get depth p w.start w.end_ block).map Prod.snd) ↔
    w.start < q.previousStart ∨
      ∀ s pt, q.segments[q.currentSegmentIndex]? = some s → s.points[0]? = some pt → toSize pt.x ≤ w.start := by
  obtain ⟨segs, rfl, hd⟩ := set_draws depth hset
  have hp : Cached segs ⟨segs.length, segs, 0, 0⟩ := ⟨rfl, rfl, .inl rfl⟩
  have hq := hcalls.cached hd sk.chain hp
  have hresume : Path.resumeIndex (⟨segs.length, segs, 0, 0⟩ : Path Data) w.start = 0 := by simp [Path.resumeIndex]
  unfold get
  rw [samples_eq_iff hd sk.chain hq hp (w.addressable _), hresume, List.drop_zero,
    draw_resumed_iff sk.chain hq hd.length_eq w.lt, behind_iff hd hq]

def twoLines : Sketch := ⟨[.line 1 1, .line 2 2], false, by decide, by simp⟩

def twoLinesPath : Path Data := ⟨2, preparedOf 0 0 [.line 1 1, .line 2 2] false, 0, 0⟩

/-- After a call for both lines the second line is cached, and starts by 1. -/
theorem get_second_line : ∃ q, Sampled 0 twoLinesPath q ∧ q.currentSegmentIndex = 1 ∧
    ∀ block, 1 ≤ block.length →
      (get 0 q 1 2 block).map Prod.snd = (get 0 twoLinesPath 1 2 block).map Prod.snd := by
  have hp : Cached _ twoLinesPath := ⟨rfl, rfl, .inl rfl⟩
  let both : Interval := ⟨0, 2, by decide, by decide, by decide⟩
  let second : Interval := ⟨1, 2, by decide, by decide, by decide⟩
  have hout : 0 + (both.end_ - both.start) ≤ [(5 : ℚ), 5].length := Nat.le_refl 2
  obtain ⟨q, hq, hcached, -⟩ :=
    getWith_spec (preparedOf_draws 0 0 0 _ false) twoLines.chain hp (both.addressable _) hout
  have hcalls : Sampled 0 twoLinesPath q := .get both .nil hout hq
  have hindex : q.currentSegmentIndex = 1 := by
    have h := congrArg (Except.map fun r => r.1.currentSegmentIndex) hq
    have h' : (get 0 twoLinesPath 0 2 [5, 5]).map (fun r => r.1.currentSegmentIndex) = .ok 1 := by decide +kernel
    exact Except.ok.inj (h.symm.trans h')
  refine ⟨q, hcalls, hindex, (get_eq_fresh_iff 0 twoLines rfl hcalls second).2 (.inr fun s pt hs hpt => ?_)⟩
  rw [hcached.segments, hindex] at hs
  cases hs
  cases hpt
  decide +kernel

/-- A second call for both lines resumes at the second and leaves the first
sample as it was. -/
theorem get_again_skips : set twoLines.segments = .ok (0, some twoLinesPath) ∧
    (get 0 twoLinesPath 0 2 [5, 5]).map Prod.snd = .ok [0, 1] ∧
    (get 0 twoLinesPath 0 2 [5, 5] >>= fun (q, _) => (get 0 q 0 2 [5, 5]).map Prod.snd) = .ok [5, 1] :=
  ⟨rfl, by decide +kernel, by decide +kernel⟩

/-! ## Blocks -/

/-- Ends in increasing order, each with a block for the samples up to it. -/
def Blocks : (start : Nat) → List (Nat × List ℚ) → Prop
  | _, [] => True
  | start, (end_, block) :: rest => start < end_ ∧ end_ < word ∧ end_ - start ≤ block.length ∧ Blocks end_ rest

/-- What sampling `[start, end)` into a block leaves in it: the curve where it
is drawn, and the rest as it was. -/
structure IsSampled (curve : Nat → Option ℚ) (start end_ : Nat) (block block' : List ℚ) : Prop where
  length : block'.length = block.length
  covered : ∀ x y, start ≤ x → x < end_ → curve x = some y → block'[x - start]? = some y
  uncovered : ∀ x, start ≤ x → x < end_ → curve x = none → block'[x - start]? = block[x - start]?
  outside : ∀ j, end_ - start ≤ j → block'[j]? = block[j]?

/-- Each block is sampled. -/
def AllSampled (curve : Nat → Option ℚ) : (start : Nat) → (blocks blocks' : List (Nat × List ℚ)) → Prop
  | _, [], [] => True
  | start, (end_, block) :: rest, (end_', block') :: rest' =>
    end_' = end_ ∧ IsSampled curve start end_ block block' ∧ AllSampled curve end_ rest rest'
  | _, _, _ => False

/-- The samples of all blocks one after the other. -/
def joined : (start : Nat) → List (Nat × List ℚ) → List ℚ
  | _, [] => []
  | start, (end_, block) :: rest => block.take (end_ - start) ++ joined end_ rest

/-- Where the last block ends. -/
def lastEnd : (start : Nat) → List (Nat × List ℚ) → Nat
  | start, [] => start
  | _, (end_, _) :: rest => lastEnd end_ rest

theorem isSampled_paint {curve : Nat → Option ℚ} {start end_ : Nat} {block : List ℚ}
    (hout : end_ - start ≤ block.length) :
    IsSampled curve start end_ block (paint block (window 0 (end_ - start) start curve)) where
  length := length_paint _ _
  covered x y hx hx' hy := by
    have hw : window 0 (end_ - start) start curve (x - start) = some y := by
      rw [window, if_pos (by omega), ← hy]
      congr 1; omega
    rw [getElem?_paint, hw, List.getElem?_eq_getElem (by omega)]
    rfl
  uncovered x hx hx' hy := by
    have hw : window 0 (end_ - start) start curve (x - start) = none := by
      rw [window, if_pos (by omega), ← hy]
      congr 1; omega
    simp [hw]
  outside j hj := by
    have hw : window 0 (end_ - start) start curve j = none := if_neg (by omega)
    simp [hw]

/-- The blocks, painted. -/
def painted (curve : Nat → Option ℚ) : (start : Nat) → List (Nat × List ℚ) → List (Nat × List ℚ)
  | _, [] => []
  | start, (end_, block) :: rest =>
    (end_, paint block (window 0 (end_ - start) start curve)) :: painted curve end_ rest

theorem allSampled_painted {curve : Nat → Option ℚ} {start : Nat} {blocks : List (Nat × List ℚ)}
    (h : Blocks start blocks) : AllSampled curve start blocks (painted curve start blocks) := by
  induction blocks generalizing start with
  | nil => trivial
  | cons b rest ih =>
    obtain ⟨end_, block⟩ := b
    exact ⟨rfl, isSampled_paint h.2.2.1, ih h.2.2.2⟩

theorem Blocks.le_lastEnd {start : Nat} {blocks : List (Nat × List ℚ)} (h : Blocks start blocks) :
    start ≤ lastEnd start blocks := by
  induction blocks generalizing start with
  | nil => exact Nat.le_refl _
  | cons b rest ih =>
    have := ih h.2.2.2
    have := h.1
    simp only [lastEnd]
    omega

theorem Blocks.lastEnd_lt {start : Nat} {blocks : List (Nat × List ℚ)} (h : Blocks start blocks)
    (hstart : start < word) : lastEnd start blocks < word := by
  induction blocks generalizing start with
  | nil => exact hstart
  | cons b rest ih => exact ih h.2.2.2 h.2.1

theorem paint_take (block : List ℚ) (f : Nat → Option ℚ) (n : Nat) : (paint block f).take n = paint (block.take n) f := by
  apply List.ext_getElem?
  intro j
  simp only [List.getElem?_take, getElem?_paint]
  split <;> simp

/-- Painting the joined samples in one go is painting block by block. -/
theorem joined_painted {curve : Nat → Option ℚ} {start : Nat} {blocks : List (Nat × List ℚ)} (h : Blocks start blocks) :
    joined start (painted curve start blocks) =
      paint (joined start blocks) (window 0 (lastEnd start blocks - start) start curve) := by
  induction blocks generalizing start with
  | nil => simp [joined, painted, paint]
  | cons b rest ih =>
    obtain ⟨end_, block⟩ := b
    obtain ⟨hlt, -, hout, hrest⟩ := h
    have hle := hrest.le_lastEnd
    simp only [joined, painted, lastEnd, paint_take, paint_append, List.length_take, ih hrest]
    congr 1
    · -- the samples of the first block
      apply paint_congr
      intro j hj
      rw [List.length_take] at hj
      rw [window, window, if_pos (by omega), if_pos (by omega)]
    · -- those of the blocks that follow, which start where it ends
      apply paint_congr
      intro j _
      unfold window
      have hx : start + (min (end_ - start) block.length + j - 0) = end_ + (j - 0) := by omega
      rw [hx]
      by_cases hj : j < lastEnd end_ rest - end_
      · rw [if_pos (by omega), if_pos (by omega)]
      · rw [if_neg (by omega), if_neg (by omega)]

theorem length_joined {start : Nat} {blocks : List (Nat × List ℚ)} (h : Blocks start blocks) :
    (joined start blocks).length = lastEnd start blocks - start := by
  induction blocks generalizing start with
  | nil => simp [joined, lastEnd]
  | cons b rest ih =>
    obtain ⟨hlt, -, hout, hrest⟩ := h
    have := hrest.le_lastEnd
    simp only [joined, lastEnd, List.length_append, List.length_take, ih hrest]
    omega

/-- The cached segment starts by the start of each block, so each call reads the
curve as a first call would. -/
theorem getInTurn_eq {depth : Nat} {segs : List (Segment Data)} {ps : List (Piece ℚ)} {p : Path Data}
    (hd : List.Forall₂ (Draws (generate depth)) segs ps) (hc : Chain 0 ps) (hp : Cached segs p)
    (hsmall : ∀ q ∈ ps, sizeofValue * q.hi < word) {start : Nat} {blocks : List (Nat × List ℚ)}
    (hb : Blocks start blocks) (hbehind : Behind ps p start) :
    ∃ q, getInTurn depth p start blocks = .ok (q, painted (draw ps) start blocks) := by
  induction blocks generalizing start p with
  | nil => exact ⟨p, rfl⟩
  | cons b rest ih =>
    obtain ⟨end_, block⟩ := b
    obtain ⟨hlt, hfits, hout, hrest⟩ := hb
    have hout' : 0 + (end_ - start) ≤ block.length := by omega
    obtain ⟨p', hget, hp', hbehind'⟩ := getWith_spec hd hc hp ⟨hlt, hfits, .inr hsmall⟩ hout'
    -- the call leaves the cached segment at or before the next start
    obtain ⟨q, hq⟩ := ih hp' hrest (hbehind' hbehind)
    have hdraw := (draw_resumed_iff hc hp hd.length_eq hlt).2 (.inr hbehind)
    have hwindow : window 0 (end_ - start) start (draw (ps.drop (p.resumeIndex start))) =
        window 0 (end_ - start) start (draw ps) := window_congr fun x hx hx' => hdraw x hx (by omega)
    refine ⟨q, ?_⟩
    rw [getInTurn, SplinePath.get, hget, ok_bind]
    dsimp only
    rw [hq, hwindow]
    rfl

theorem sizeofValue_piece {x₀ : Nat} {y₀ : ℚ} {strokes : List Stroke} {constant : Bool}
    (hx : ∀ s ∈ strokes, s.x < maxX) : ∀ q ∈ piecesOf x₀ y₀ strokes constant, sizeofValue * q.hi < word := by
  have hword : sizeofValue * maxX < word := by decide
  induction strokes generalizing x₀ y₀ with
  | nil =>
    intro q hq
    cases constant with
    | false => cases hq
    | true => obtain rfl := List.mem_singleton.1 hq; exact hword
  | cons s strokes ih =>
    intro q hq
    rcases List.mem_cons.1 hq with rfl | hq
    · rw [s.piece_hi]
      exact Nat.lt_of_le_of_lt (Nat.mul_le_mul_left _ (Nat.le_of_lt (hx s (by simp)))) hword
    · exact ih (fun t ht => hx t (by simp [ht])) q hq

/-- Sampling a path block by block leaves in each block the curve of its sketch,
and in all of them what one call leaves in one block. -/
theorem sampled_in_turn (depth : Nat) (sk : Sketch) (hx : ∀ s ∈ sk.strokes, s.x < maxX) {p : Path Data}
    (hset : set sk.segments = .ok (0, some p)) {start : Nat} {blocks : List (Nat × List ℚ)}
    (hb : Blocks start blocks) (hne : blocks ≠ []) :
    ∃ q blocks', getInTurn depth p start blocks = .ok (q, blocks') ∧ AllSampled sk.curve start blocks blocks' ∧
      ∃ q', get depth p start (lastEnd start blocks) (joined start blocks) = .ok (q', joined start blocks') := by
  obtain ⟨segs, rfl, hd⟩ := set_draws depth hset
  have hp : Cached segs ⟨segs.length, segs, 0, 0⟩ := ⟨rfl, rfl, .inl rfl⟩
  have hsmall : ∀ q ∈ sk.pieces, sizeofValue * q.hi < word := sizeofValue_piece hx
  have hbehind : Behind sk.pieces ⟨segs.length, segs, 0, 0⟩ start := fun q hq => by
    rw [chain_head sk.chain hq]; exact Nat.zero_le _
  obtain ⟨q, hq⟩ := getInTurn_eq hd sk.chain hp hsmall hb hbehind
  refine ⟨q, _, hq, allSampled_painted hb, ?_⟩
  have hlast : start < lastEnd start blocks ∧ lastEnd start blocks < word := by
    cases blocks with
    | nil => exact absurd rfl hne
    | cons b rest =>
      exact ⟨Nat.lt_of_lt_of_le hb.1 hb.2.2.2.le_lastEnd, hb.2.2.2.lastEnd_lt hb.2.1⟩
  have hout : 0 + (lastEnd start blocks - start) ≤ (joined start blocks).length := by rw [length_joined hb]; omega
  obtain ⟨q', hq', -⟩ := getWith_spec hd sk.chain hp ⟨hlast.1, hlast.2, .inr hsmall⟩ hout
  exact ⟨q', by rw [get, hq', joined_painted hb]; rfl⟩

/-- A move, a line and a constant. -/
def rise : Sketch := ⟨[.move 2 1, .line 6 3], true, by decide, by decide⟩

/-- Blocks that end in the middle of the line and after the start of the constant. -/
theorem rise_in_turn : ∃ q blocks',
    getInTurn 0 ⟨3, preparedOf 0 0 [.move 2 1, .line 6 3] true, 0, 0⟩ 1 [(4, [9, 9, 9]), (7, [9, 9, 9, 9])] =
      .ok (q, blocks') ∧
    AllSampled rise.curve 1 [(4, [9, 9, 9]), (7, [9, 9, 9, 9])] blocks' ∧
    ∃ q', get 0 ⟨3, preparedOf 0 0 [.move 2 1, .line 6 3] true, 0, 0⟩ 1 7 [9, 9, 9, 9, 9, 9] =
      .ok (q', joined 1 blocks') :=
  sampled_in_turn 0 rise (by decide) rfl
    ⟨by decide, by decide, by decide, by decide, by decide, by decide, trivial⟩ (by simp)

end SphSc.SplinePath

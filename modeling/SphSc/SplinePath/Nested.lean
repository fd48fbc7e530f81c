import SphSc.SplinePath.Sampling
/-!
# Nested paths

A `Figure` is what a path of moves, lines and nested paths is made from.
Sampling it draws each nested path as sampling that path alone would, moved to
where its segment starts: what the path of its flattened segments draws.
-/
open Exec Ring Pieces

namespace SphSc.SplinePath

/-! ## Flat lists of segments -/

/-- The segment with its points moved by `dx` along x. -/
def Segment.shiftX (dx : ℚ) (s : Segment Data) : Segment Data :=
  { s with points := s.points.map fun p => { p with x := p.x + dx } }

/-- The x of the first point. -/
def startX : List Point → ℚ
  | [] => 0
  | p :: _ => p.x

mutual

/-- What stands for a segment `s` with these `data` that starts at `x`. -/
def Data.flatten (x : ℚ) (s : Segment Data) : Data → List (Segment Data)
  | .null => [s]
  | .path p => p.flatten.map (Segment.shiftX x)
  | .value _ => [s]

/-- The prepared segments of a path, with each path segment replaced by those of
its own path, moved to where it starts. -/
def Path.flatten : Path Data → List (Segment Data)
  | ⟨_, segments, _, _⟩ => flattenAll segments

def flattenAll : List (Segment Data) → List (Segment Data)
  | [] => []
  | s :: rest => s.flatten ++ flattenAll rest

def Segment.flatten : Segment Data → List (Segment Data)
  | s@⟨_, points, _, _, data⟩ => data.flatten (startX points) s

end

/-- The path of the flattened segments, as `spline_path_set` would leave it had
it prepared them. -/
def Path.flat (p : Path Data) : Path Data := ⟨p.flatten.length, p.flatten, 0, 0⟩

theorem Segment.shiftX_shiftX (dx dx' : ℚ) (s : Segment Data) : (s.shiftX dx).shiftX dx' = s.shiftX (dx + dx') := by
  simp [shiftX, Function.comp_def, add_assoc]

theorem Segment.shiftX_zero (s : Segment Data) : s.shiftX 0 = s := by
  simp [shiftX]

/-! ## Figures -/

/-- Strokes and nested paths in order. -/
inductive Figure where
  | nil
  | stroke (s : Stroke) (rest : Figure)
  | path (inner rest : Figure)

namespace Figure

/-- The segments to prepare, where each nested path has been set from its own. -/
def segments : Figure → Exec (List (Segment Data))
  | nil => return []
  | stroke s rest => do
    let rest ← rest.segments
    return s.segment :: rest
  | path inner rest => do
    let (_, some p) ← set (← inner.segments) | .error .outOfBounds
    let rest ← rest.segments
    return SplinePath.path p :: rest

/-- The x a figure that starts at `x₀` leads to. -/
def endX : (x₀ : Nat) → Figure → Nat
  | x₀, nil => x₀
  | _, stroke s rest => rest.endX s.x
  | x₀, path inner rest => rest.endX (x₀ + inner.endX 0)

def endY : (y₀ : ℚ) → Figure → ℚ
  | y₀, nil => y₀
  | _, stroke s rest => rest.endY s.y
  | _, path inner rest => rest.endY (inner.endY 0)

/-- How deep paths are nested in it. -/
def depth : Figure → Nat
  | nil => 0
  | stroke _ rest => rest.depth
  | path inner rest => max (inner.depth + 1) rest.depth

/-- The x of the strokes are in order from `x₀` on, and nested paths are not
empty: `spline_path_end` reads their last segment. -/
def Sorted : (x₀ : Nat) → Figure → Prop
  | _, nil => True
  | x₀, stroke s rest => x₀ ≤ s.x ∧ rest.Sorted s.x
  | x₀, path inner rest => inner ≠ nil ∧ inner.Sorted 0 ∧ rest.Sorted (x₀ + inner.endX 0)

/-- A path segment after it has been prepared, where its path ends at `(x, y)`. -/
def pathPrepared (x₀ : Nat) (y₀ : ℚ) (p : Path Data) (x : Nat) (y : ℚ) : Segment Data :=
  { SplinePath.path p with points := [⟨x₀, y₀⟩, ⟨(x₀ + x : Nat), y⟩, ⟨0, 0⟩, ⟨0, 0⟩] }

/-- The segments after they have been prepared to start at `(x₀, y₀)`. -/
def prepared : (x₀ : Nat) → (y₀ : ℚ) → Figure → List (Segment Data)
  | _, _, nil => []
  | x₀, y₀, stroke s rest => s.prepared x₀ y₀ :: rest.prepared s.x s.y
  | x₀, y₀, path inner rest =>
    pathPrepared x₀ y₀ ⟨(inner.prepared 0 0).length, inner.prepared 0 0, 0, 0⟩ (inner.endX 0) (inner.endY 0) ::
      rest.prepared (x₀ + inner.endX 0) (inner.endY 0)

/-- One piece for each segment. That of a nested path shows its curve. -/
def pieces : (x₀ : Nat) → (y₀ : ℚ) → Figure → List (Piece ℚ)
  | _, _, nil => []
  | x₀, y₀, stroke s rest => s.piece x₀ y₀ :: rest.pieces s.x s.y
  | x₀, _, path inner rest =>
    ⟨x₀, x₀ + inner.endX 0, fun t => (draw (inner.pieces 0 0) (t - x₀)).getD 0⟩ ::
      rest.pieces (x₀ + inner.endX 0) (inner.endY 0)

/-- One piece for each stroke at any depth. -/
def flatPieces : (x₀ : Nat) → (y₀ : ℚ) → Figure → List (Piece ℚ)
  | _, _, nil => []
  | x₀, y₀, stroke s rest => s.piece x₀ y₀ :: rest.flatPieces s.x s.y
  | x₀, _, path inner rest =>
    (inner.flatPieces 0 0).map (Piece.shift x₀) ++ rest.flatPieces (x₀ + inner.endX 0) (inner.endY 0)

/-! ## The curve -/

section
variable {fig : Figure} {x₀ : Nat} (y₀ : ℚ)

theorem chainTo_pieces (h : fig.Sorted x₀) : ChainTo x₀ (fig.pieces x₀ y₀) (fig.endX x₀) := by
  induction fig generalizing x₀ y₀ with
  | nil => rfl
  | stroke s rest ih =>
    obtain ⟨hle, hrest⟩ := h
    refine ⟨s.piece_lo x₀ y₀, ?_, ?_⟩
    · rw [s.piece_hi]
      exact hle
    · rw [s.piece_hi]
      exact ih s.y hrest
  | path inner rest _ ih => exact ⟨rfl, Nat.le_add_right _ _, ih _ h.2.2⟩

theorem chainTo_flatPieces (h : fig.Sorted x₀) : ChainTo x₀ (fig.flatPieces x₀ y₀) (fig.endX x₀) := by
  induction fig generalizing x₀ y₀ with
  | nil => rfl
  | stroke s rest ih =>
    obtain ⟨hle, hrest⟩ := h
    refine ⟨s.piece_lo x₀ y₀, ?_, ?_⟩
    · rw [s.piece_hi]
      exact hle
    · rw [s.piece_hi]
      exact ih s.y hrest
  | path inner rest ihInner ihRest =>
    obtain ⟨-, hinner, hrest⟩ := h
    have hshift := (ihInner 0 hinner).shift x₀
    rw [Nat.zero_add, Nat.add_comm] at hshift
    exact hshift.append (ihRest _ hrest)

theorem Sorted.le_endX (h : fig.Sorted x₀) : x₀ ≤ fig.endX x₀ := (chainTo_pieces 0 h).le

/-- The strokes of a nested path draw what its piece shows. -/
theorem draw_flatPieces (h : fig.Sorted x₀) (t : Nat) : draw (fig.flatPieces x₀ y₀) t = draw (fig.pieces x₀ y₀) t := by
  induction fig generalizing x₀ y₀ t with
  | nil => rfl
  | stroke s rest ih => rw [flatPieces, pieces, draw, draw, ih s.y h.2]
  | path inner rest ihInner ihRest =>
    obtain ⟨-, hinner, hrest⟩ := h
    have hsome := (chainTo_pieces 0 hinner).isSome_draw (t - x₀)
    rw [flatPieces, pieces, draw_append, draw_shift, ihInner 0 hinner, ihRest _ hrest, draw]
    dsimp only
    by_cases hx : x₀ ≤ t
    · -- the nested path draws something exactly up to its end, where the piece ends
      rw [if_pos hx]
      cases hdraw : draw (inner.pieces 0 0) (t - x₀) with
      | none =>
        rw [hdraw] at hsome
        rw [if_neg fun hin => absurd (hsome.2 (by omega)) (by simp)]
        rfl
      | some v =>
        rw [hdraw] at hsome
        have hin := hsome.1 rfl
        rw [if_pos (by omega)]
        rfl
    · rw [if_neg hx, if_neg fun hin => hx hin.1]
      rfl

end

/-! ## Preparing -/

/-- The last prepared segment leads to the end of the figure. -/
theorem lastPoint_prepared {fig : Figure} (hne : fig ≠ nil) (x₀ : Nat) (y₀ : ℚ) :
    ∃ s, (fig.prepared x₀ y₀).getLast? = some s ∧ s.lastPoint = .ok ⟨fig.endX x₀, fig.endY y₀⟩ := by
  induction fig generalizing x₀ y₀ with
  | nil => exact absurd rfl hne
  | stroke s rest ih =>
    by_cases hrest : rest = nil
    · subst hrest
      exact ⟨_, rfl, by cases s <;> rfl⟩
    · obtain ⟨l, hl, hlast⟩ := ih hrest s.x s.y
      refine ⟨l, ?_, hlast⟩
      rw [prepared, List.getLast?_cons, hl]
      rfl
  | path inner rest _ ih =>
    by_cases hrest : rest = nil
    · subst hrest
      exact ⟨_, rfl, rfl⟩
    · obtain ⟨l, hl, hlast⟩ := ih hrest (x₀ + inner.endX 0) (inner.endY 0)
      refine ⟨l, ?_, hlast⟩
      rw [prepared, List.getLast?_cons, hl]
      rfl

theorem end_prepared {fig : Figure} (hne : fig ≠ nil) (hx : fig.endX 0 < maxX) (index previous : Nat) :
    Path.end_ ⟨(fig.prepared 0 0).length, fig.prepared 0 0, index, previous⟩ = .ok ⟨fig.endX 0, fig.endY 0⟩ := by
  obtain ⟨s, hs, hlast⟩ := lastPoint_prepared hne 0 0
  have hlen : (fig.prepared 0 0).length ≠ 0 := by
    intro h
    rw [List.length_eq_zero_iff.1 h] at hs
    cases hs
  have hmax : sizeMax ≠ (fig.endX 0 : ℚ) := by
    intro h
    have := congrArg toSize h
    rw [toSize_sizeMax, toSize_natCast] at this
    omega
  rw [List.getLast?_eq_getElem?] at hs
  rw [Path.end_, if_neg hlen, read_eq_ok.2 hs, ok_bind]
  dsimp only
  rw [hlast, ok_bind, if_neg hmax]
  rfl

theorem prepareLoop_path (x₀ : Nat) (y₀ : ℚ) {p : Path Data} {x : Nat} {y : ℚ} (hend : p.end_ = .ok ⟨x, y⟩)
    (segs : List (Segment Data)) :
    prepareLoop ⟨x₀, y₀⟩ (SplinePath.path p :: segs) =
      prepareLoop ⟨(x₀ + x : Nat), y⟩ segs >>= fun r => .ok (r.1, pathPrepared x₀ y₀ p x y :: r.2) := by
  change ((p.end_ >>= _) >>= _) = _
  rw [hend, pathPrepared, Nat.cast_add]
  rfl

theorem Sorted.inner_lt {inner rest : Figure} {x₀ : Nat} (h : (path inner rest).Sorted x₀)
    (hx : (path inner rest).endX x₀ < maxX) : inner.endX 0 < maxX := by
  have := h.2.2.le_endX
  rw [endX] at hx
  omega

theorem set_prepared {segs segs' : List (Segment Data)} (h : prepareLoop ⟨(0 : Nat), 0⟩ segs = .ok (0, segs')) :
    set segs = .ok (0, some ⟨segs'.length, segs', 0, 0⟩) := by
  have hzero : (⟨0, 0⟩ : Point) = ⟨(0 : Nat), 0⟩ := by rw [Nat.cast_zero]
  rw [set, prepareSegments, hzero, h]
  rfl

/-- Preparing the segments leads through the figure, at every depth. -/
theorem segments_prepared {fig : Figure} {x₀ : Nat} (y₀ : ℚ) (h : fig.Sorted x₀) (hx : fig.endX x₀ < maxX) :
    ∃ segs, fig.segments = .ok segs ∧ prepareLoop ⟨x₀, y₀⟩ segs = .ok (0, fig.prepared x₀ y₀) := by
  induction fig generalizing x₀ y₀ with
  | nil => exact ⟨_, rfl, rfl⟩
  | stroke s rest ih =>
    obtain ⟨segs, hsegs, hprep⟩ := ih s.y h.2 hx
    refine ⟨s.segment :: segs, ?_, ?_⟩
    · rw [segments, hsegs]
      rfl
    · rw [prepareLoop_cons, hprep]
      rfl
  | path inner rest ihInner ihRest =>
    have hinner := h.inner_lt hx
    obtain ⟨hne, hsorted, hrest⟩ := h
    obtain ⟨segs, hsegs, hprep⟩ := ihInner 0 hsorted hinner
    obtain ⟨segs', hsegs', hprep'⟩ := ihRest (inner.endY 0) hrest hx
    refine ⟨SplinePath.path ⟨(inner.prepared 0 0).length, inner.prepared 0 0, 0, 0⟩ :: segs', ?_, ?_⟩
    · rw [segments, hsegs, ok_bind, set_prepared hprep, hsegs']
      rfl
    · rw [prepareLoop_path x₀ y₀ (end_prepared hne hinner 0 0), hprep']
      rfl

/-! ## Drawing -/

theorem sizeofValue_lt {x : Nat} (h : x < maxX) : sizeofValue * x < word :=
  Nat.lt_of_le_of_lt (Nat.mul_le_mul_left _ (Nat.le_of_lt h)) (by decide : sizeofValue * maxX < word)

/-- Pieces whose end is small have byte counts, however they are cut. -/
theorem bytes_lt {ps : List (Piece ℚ)} {a b : Nat} (hc : ChainTo a ps b) (hb : b < maxX) (start end_ : Nat) :
    ∀ p ∈ ps, sizeofValue * (min p.hi end_ - max p.lo start) < word := by
  intro p hp
  have := hc.hi_le p hp
  exact sizeofValue_lt (by omega)

/-- A path that was not sampled before draws the pieces of its segments, also on
intervals without samples. -/
theorem getWith_fresh {generate : Generator Data} {R : Segment Data → Segment Data → Prop} (hrefl : ∀ s, R s s)
    (htrans : ∀ s s' s'', R s s' → R s' s'' → R s s'') {segs : List (Segment Data)} {ps : List (Piece ℚ)}
    (hd : List.Forall₂ (Paints R generate) segs ps) {b : Nat} (hc : ChainTo 0 ps b) (hb : b < maxX)
    {start end_ out : Nat} {block : List ℚ} (hse : start ≤ end_) (hfits : end_ < word)
    (hout : out + (end_ - start) ≤ block.length) :
    ∃ p', getWith generate ⟨segs.length, segs, 0, 0⟩ start end_ out block =
      .ok (p', paint block (window out (end_ - start) start (draw ps))) := by
  have hlen := hd.length_eq
  obtain ⟨p', hloop, -⟩ :=
    @getLoop_paints _ generate ps ⟨segs.length, segs, 0, 0⟩ R start end_ out block hrefl htrans 0 hc.chain hse hfits
      (bytes_lt hc hb start end_) segs.length 0 (by simpa using hd) (by omega) hout
  refine ⟨p', ?_⟩
  have hindex : Path.resumeIndex (⟨segs.length, segs, 0, 0⟩ : Path Data) start = 0 := ite_self _
  rw [getWith, hindex]
  exact hloop

theorem generate_path {depth start end_ out : Nat} {block : List ℚ} {s : Segment Data} {p : Path Data} {first : Point}
    (hs : s.generate = some .path) (hdata : s.data = .path p) (hfirst : read s.points 0 = .ok first) :
    generate (depth + 1) start end_ s out block =
      getWith (generate depth) p (wsub start (toSize first.x)) (wsub end_ (toSize first.x)) out block >>= fun r =>
        .ok ({ s with data := .path r.1 }, r.2) := by
  obtain ⟨count, points, _, _, _⟩ := s
  cases hs
  cases hdata
  change (read points 0 >>= _) = _
  rw [hfirst]
  rfl

/-- A nested path draws its curve, moved to where its segment starts. -/
theorem path_paints {depth : Nat} {segs : List (Segment Data)} {ps : List (Piece ℚ)}
    (hd : List.Forall₂ (Paints (fun _ _ => True) (generate depth)) segs ps) {x : Nat} (hc : ChainTo 0 ps x)
    (hx : x < maxX) (x₀ : Nat) (y₀ y : ℚ) :
    Paints (fun _ _ => True) (generate (depth + 1)) (pathPrepared x₀ y₀ ⟨segs.length, segs, 0, 0⟩ x y)
      ⟨x₀, x₀ + x, fun t => (draw ps (t - x₀)).getD 0⟩ := by
  refine ⟨⟨_, rfl, toSize_natCast x₀⟩, ⟨_, rfl, toSize_natCast (x₀ + x)⟩, ?_⟩
  intro start end_ out block hlo hse hhi hfits hbytes hout
  dsimp only at hlo hhi ⊢
  have hlen : end_ - x₀ - (start - x₀) = end_ - start := by omega
  obtain ⟨p', hget⟩ := @getWith_fresh (generate depth) (fun _ _ => True) (fun _ => trivial) (fun _ _ _ _ _ => trivial)
    segs ps hd x hc hx (start - x₀) (end_ - x₀) out block (by omega) (by omega) (by omega)
  refine ⟨{ pathPrepared x₀ y₀ ⟨segs.length, segs, 0, 0⟩ x y with data := .path p' }, trivial, ?_⟩
  rw [generate_path rfl rfl rfl, toSize_natCast, wsub_of_le (by omega) hlo, wsub_of_le hfits (by omega), hget, ok_bind,
    hlen, window_shift hlo]
  -- the interval does not go past the end of the nested path
  have hwindow : window out (end_ - start) start (fun t => draw ps (t - x₀)) =
      window out (end_ - start) start fun t => some ((draw ps (t - x₀)).getD 0) := by
    apply window_congr
    intro t ht ht'
    have hsome := (hc.isSome_draw (t - x₀)).2 (by omega)
    obtain ⟨v, hv⟩ := Option.isSome_iff_exists.1 hsome
    rw [hv]
    rfl
  rw [hwindow]

theorem prepared_paints {fig : Figure} {x₀ : Nat} (y₀ : ℚ) (h : fig.Sorted x₀) (hx : fig.endX x₀ < maxX) {depth : Nat}
    (hdepth : fig.depth ≤ depth) :
    List.Forall₂ (Paints (fun _ _ => True) (generate depth)) (fig.prepared x₀ y₀) (fig.pieces x₀ y₀) := by
  induction fig generalizing x₀ y₀ depth with
  | nil => exact .nil
  | stroke s rest ih =>
    have hdraws := (stroke_draws depth x₀ y₀ s).same
    exact .cons ⟨hdraws.first, hdraws.last, fun h₁ h₂ h₃ h₄ h₅ h₆ =>
      (hdraws.paints h₁ h₂ h₃ h₄ h₅ h₆).imp fun _ h => ⟨trivial, h.2⟩⟩ (ih s.y h.2 hx hdepth)
  | path inner rest ihInner ihRest =>
    have hinner := h.inner_lt hx
    obtain ⟨-, hsorted, hrest⟩ := h
    rw [Figure.depth] at hdepth
    obtain ⟨depth, rfl⟩ : ∃ d, depth = d + 1 := ⟨depth - 1, by omega⟩
    have hpaints := ihInner 0 hsorted hinner (show inner.depth ≤ depth by omega)
    exact .cons (path_paints hpaints (chainTo_pieces 0 hsorted) hinner x₀ y₀ _) (ihRest _ hrest hx (by omega))

/-! ## Flattening -/

theorem stroke_draws_shifted (depth dx x₀ : Nat) (y₀ : ℚ) (s : Stroke) :
    Draws (generate depth) ((s.prepared x₀ y₀).shiftX dx) ((s.piece x₀ y₀).shift dx) := by
  have hlo : toSize ((x₀ : ℚ) + dx) = x₀ + dx := by rw [← Nat.cast_add, toSize_natCast]
  have hhi : toSize ((s.x : ℚ) + dx) = s.x + dx := by rw [← Nat.cast_add, toSize_natCast]
  cases s with
  | move x y =>
    refine ⟨⟨_, rfl, hlo⟩, ⟨_, rfl, hhi⟩, ?_⟩
    intro start end_ out block _ h _ hfits hbytes hout
    rw [generate_move rfl, moveGenerate_paints h hfits hbytes hout]
    rfl
  | line x y =>
    refine ⟨⟨_, rfl, hlo⟩, ⟨_, rfl, hhi⟩, ?_⟩
    intro start end_ out block hx h _ hfits _ hout
    have hfirst : read ((Stroke.line x y).prepared x₀ y₀ |>.shiftX dx).points 0 = .ok ⟨(x₀ + dx : Nat), y₀⟩ := by
      rw [Nat.cast_add]
      rfl
    rw [generate_line rfl, lineGenerate_paints hfirst rfl hx h hfits hout, ok_bind]
    -- the line has the same slope, and the sample is as far from its start
    have hwindow : ∀ t, start ≤ t → y₀ + (y - y₀) * ((t : ℚ) - (x₀ + dx : Nat)) / ((x + dx : ℚ) - (x₀ + dx : Nat)) =
        y₀ + (y - y₀) * ((t - dx : Nat) - (x₀ : ℚ)) / (x - x₀) := by
      intro t ht
      have hle : dx ≤ t := Nat.le_trans (Nat.le_add_left _ _) (Nat.le_trans hx ht)
      rw [Nat.cast_sub hle, Nat.cast_add]
      congr 2 <;> ring
    exact congrArg (fun f => Except.ok (_, paint block f))
      (window_congr fun t ht _ => congrArg some (hwindow t ht))

theorem flatten_draws (fig : Figure) (depth x₀ : Nat) (y₀ : ℚ) (dx : Nat) :
    List.Forall₂ (Draws (generate depth)) ((flattenAll (fig.prepared x₀ y₀)).map (Segment.shiftX dx))
      ((fig.flatPieces x₀ y₀).map (Piece.shift dx)) := by
  induction fig generalizing x₀ y₀ dx with
  | nil => exact .nil
  | stroke s rest ih =>
    have hflat : (s.prepared x₀ y₀).flatten = [s.prepared x₀ y₀] := by cases s <;> rfl
    rw [prepared, flattenAll, hflat]
    exact .cons (stroke_draws_shifted depth dx x₀ y₀ s) (ih s.x s.y dx)
  | path inner rest ihInner ihRest =>
    have hflat : (pathPrepared x₀ y₀ ⟨(inner.prepared 0 0).length, inner.prepared 0 0, 0, 0⟩ (inner.endX 0)
        (inner.endY 0)).flatten = (flattenAll (inner.prepared 0 0)).map (Segment.shiftX x₀) := rfl
    have hinner := ihInner 0 0 (x₀ + dx)
    rw [prepared, flattenAll, hflat, flatPieces, List.map_append, List.map_append, List.map_map, List.map_map]
    refine List.rel_append ?_ (ihRest _ _ dx)
    -- a path in a path is shifted by the starts of both
    have hseg : Segment.shiftX dx ∘ Segment.shiftX x₀ = Segment.shiftX (x₀ + dx : Nat) := by
      funext s
      rw [Function.comp_apply, Segment.shiftX_shiftX, Nat.cast_add]
    have hpiece : Piece.shift dx ∘ Piece.shift (α := ℚ) x₀ = Piece.shift (x₀ + dx) := by
      funext p
      exact p.shift_shift x₀ dx
    rw [hseg, hpiece]
    exact hinner

/-- Sampling the path set from a figure leaves in a block what sampling the path
of its flattened segments leaves there: the samples of the strokes at any depth,
and nothing past the end of the figure. -/
theorem get_flat (fig : Figure) (h : fig.Sorted 0) (hx : fig.endX 0 < maxX) {depth : Nat} (hdepth : fig.depth ≤ depth)
    {start end_ : Nat} (hlt : start < end_) (hfits : end_ < word) {block : List ℚ}
    (hout : end_ - start ≤ block.length) :
    ∃ segs p, fig.segments = .ok segs ∧ set segs = .ok (0, some p) ∧
      (fig ≠ nil → p.end_ = .ok ⟨fig.endX 0, fig.endY 0⟩) ∧
      ∃ p' q block', get depth p start end_ block = .ok (p', block') ∧
        get 0 p.flat start end_ block = .ok (q, block') ∧
        IsSampled (draw (fig.flatPieces 0 0)) start end_ block block' ∧
        block'.length = block.length ∧ ∀ j, fig.endX 0 ≤ start + j → block'[j]? = block[j]? := by
  obtain ⟨segs, hsegs, hprep⟩ := segments_prepared 0 h hx
  have hout' : 0 + (end_ - start) ≤ block.length := by omega
  obtain ⟨p', hget⟩ := getWith_fresh (fun _ => trivial) (fun _ _ _ _ _ => trivial) (prepared_paints 0 h hx hdepth)
    (chainTo_pieces 0 h) hx (Nat.le_of_lt hlt) hfits hout'
  have hflat : List.Forall₂ (Paints Eq (generate 0)) (flattenAll (fig.prepared 0 0)) (fig.flatPieces 0 0) := by
    have hdraws := flatten_draws fig 0 0 0 0
    have hseg : Segment.shiftX ((0 : Nat) : ℚ) = id := funext Segment.shiftX_zero
    have hpiece : Piece.shift (α := ℚ) 0 = id := funext Piece.shift_zero
    rw [hseg, hpiece, List.map_id, List.map_id] at hdraws
    exact hdraws.imp fun _ _ hd => hd.same
  obtain ⟨q, hget'⟩ := getWith_fresh (fun _ => rfl) (fun _ _ _ => Eq.trans) hflat (chainTo_flatPieces 0 h) hx
    (Nat.le_of_lt hlt) hfits hout'
  -- both calls paint the same curve
  have hdraw : draw (fig.flatPieces 0 0) = draw (fig.pieces 0 0) := funext (draw_flatPieces 0 h)
  rw [hdraw] at hget'
  refine ⟨segs, _, hsegs, set_prepared hprep, fun hne => end_prepared hne hx 0 0, p', q, _, hget, hget',
    hdraw ▸ isSampled_paint hout, length_paint _ _, ?_⟩
  intro j hj
  -- which is not drawn from the end of the figure on
  have hnone : window 0 (end_ - start) start (draw (fig.pieces 0 0)) j = none := by
    rw [window]
    split
    · have hsome := (chainTo_pieces 0 h).isSome_draw (start + (j - 0))
      rw [← Option.not_isSome_iff_eq_none, hsome]
      omega
    · rfl
  rw [getElem?_paint, hnone]
  exact Option.map_id'

/-- A line in a path in a path, after a move, and a line that follows. -/
def hill : Figure := .stroke (.move 2 1) (.path (.stroke (.move 1 0) (.path (.stroke (.line 3 6) .nil) .nil))
  (.stroke (.line 9 0) .nil))

/-- An interval that starts within the inner line and ends after the figure. -/
theorem hill_flat : ∃ segs p, hill.segments = .ok segs ∧ set segs = .ok (0, some p) ∧
    (hill ≠ nil → p.end_ = .ok ⟨hill.endX 0, hill.endY 0⟩) ∧
    ∃ p' q block', get 2 p 4 11 [7, 7, 7, 7, 7, 7, 7] = .ok (p', block') ∧
      get 0 p.flat 4 11 [7, 7, 7, 7, 7, 7, 7] = .ok (q, block') ∧
      IsSampled (draw (hill.flatPieces 0 0)) 4 11 [7, 7, 7, 7, 7, 7, 7] block' ∧
      block'.length = 7 ∧ ∀ j, hill.endX 0 ≤ 4 + j → block'[j]? = [7, 7, 7, 7, 7, 7, 7][j]? :=
  get_flat hill (by simp [hill, Sorted, endX, Stroke.x]) (by decide) (by decide) (by decide) (by decide)
    (by decide)

end Figure

end SphSc.SplinePath

import SphSc.SplinePath.Sampling
/-!
# `spline_path_validate`

The validator compares the second point of a segment with the first, and the
sampler takes the last point for the end. The two agree on segments of two
points. What it logs is left out, and a null pointer to the segments is the
empty list.
-/
open Exec Ring

namespace SphSc.SplinePath

/-- `spline_path_point_max` -/
def pointMax : Nat := 4

mutual

/-- `spline_path_validate` -/
def Path.validate : Path Data → Exec Byte
  | ⟨segmentsCount, segments, _, _⟩ =>
    if segments.isEmpty ∨ segmentsCount = 0 then return 1 else validateLoop segmentsCount segments

/-- The loop, on the segments from `i` on; `remaining` is `path->segments_count - i`. -/
def validateLoop : (remaining : Nat) → List (Segment Data) → Exec Byte
  | 0, _ => return 0
  | _ + 1, [] => .error .outOfBounds
  | remaining + 1, s :: segments => do
    let status ← s.validate
    if status ≠ 0 then return 1 else validateLoop remaining segments

/-- A round of the loop. -/
def Segment.validate : Segment Data → Exec Byte
  | ⟨pointsCount, points, generate, _, data⟩ =>
    if pointsCount < 2 ∨ pointsCount > pointMax then return 1
    else do
      let p0 ← read points 0
      let p1 ← read points 1
      if p1.x < p0.x then return 1
      else
        match generate with
        | none => return 1
        | some .path => data.validate
        | some _ => return 0

/-- The checks of a nested path. -/
def Data.validate : Data → Exec Byte
  | .null => return 1
  | .path sub =>
    if sub.segments.isEmpty ∨ sub.segmentsCount = 0 then return 1
    else do
      let status ← sub.validate
      if status ≠ 0 then return 1 else return 0
  | .value _ => .error .outOfBounds

end

/-! ## Segments of a path -/

/-- The segments of a path and of the paths nested in it. -/
inductive Path.Contains : Path Data → Segment Data → Prop
  | own {p : Path Data} {s : Segment Data} {i : Nat} :
    i < p.segmentsCount → p.segments[i]? = some s → Path.Contains p s
  | nested {p sub : Path Data} {s s' : Segment Data} {i : Nat} :
    i < p.segmentsCount → p.segments[i]? = some s → s.generate = some .path → s.data = .path sub →
    Path.Contains sub s' → Path.Contains p s'

theorem contains_cases {p : Path Data} {s' : Segment Data} (h : p.Contains s') :
    s' ∈ p.segments ∨ ∃ s ∈ p.segments, ∃ sub, s.data = .path sub ∧ sub.Contains s' := by
  cases h with
  | own _ hget => exact .inl (List.mem_of_getElem? hget)
  | nested _ hget _ hdata hs => exact .inr ⟨_, List.mem_of_getElem? hget, _, hdata, hs⟩

/-- The end of the segment is not before its start. -/
def Segment.Ordered (s : Segment Data) : Prop :=
  ∃ first last, read s.points 0 = .ok first ∧ s.lastPoint = .ok last ∧ first.x ≤ last.x

/-- The end of the segment is before its start. -/
def Segment.Inverted (s : Segment Data) : Prop :=
  ∃ first last, read s.points 0 = .ok first ∧ s.lastPoint = .ok last ∧ last.x < first.x

theorem Segment.Ordered.not_inverted {s : Segment Data} (h : s.Ordered) : ¬ s.Inverted := by
  obtain ⟨first, last, hfirst, hlast, hle⟩ := h
  rintro ⟨first', last', hfirst', hlast', hlt⟩
  rw [hfirst] at hfirst'
  rw [hlast] at hlast'
  cases hfirst'
  cases hlast'
  exact absurd hlt (not_lt.2 hle)

/-- What the validator lets through. -/
structure Segment.Checked (s : Segment Data) : Prop where
  pointsCount : 2 ≤ s.pointsCount ∧ s.pointsCount ≤ pointMax
  points : ∃ p0 p1, read s.points 0 = .ok p0 ∧ read s.points 1 = .ok p1 ∧ p0.x ≤ p1.x
  generate : s.generate ≠ none
  path : s.generate = some .path → ∃ sub, s.data = .path sub ∧ sub.validate = .ok 0

theorem validate_segment {s : Segment Data} (h : s.validate = .ok 0) : s.Checked := by
  obtain ⟨pointsCount, points, generate, prep, data⟩ := s
  unfold Segment.validate at h
  split at h
  · cases h
  rename_i hcount
  obtain ⟨p0, hp0, h⟩ := bind_eq_ok.1 h
  obtain ⟨p1, hp1, h⟩ := bind_eq_ok.1 h
  split at h
  · cases h
  rename_i hx
  have hcount' : 2 ≤ pointsCount ∧ pointsCount ≤ pointMax := by omega
  have hpoints : p0.x ≤ p1.x := not_lt.1 hx
  cases generate with
  | none => cases h
  | some g =>
    refine ⟨hcount', ⟨p0, p1, hp0, hp1, hpoints⟩, by simp, ?_⟩
    intro hg
    cases hg
    cases data with
    | null => cases h
    | value gamma => cases h
    | path sub =>
      simp only [Data.validate] at h
      split at h
      · cases h
      obtain ⟨status, hstatus, h⟩ := bind_eq_ok.1 h
      split at h
      · cases h
      · rename_i hzero
        exact ⟨sub, rfl, by rw [hstatus, not_not.1 hzero]⟩

theorem validateLoop_checked {remaining : Nat} {segments : List (Segment Data)}
    (h : validateLoop remaining segments = .ok 0) {i : Nat} (hi : i < remaining) :
    ∃ s, segments[i]? = some s ∧ s.Checked := by
  induction remaining generalizing segments i with
  | zero => omega
  | succ remaining ih =>
    cases segments with
    | nil => simp only [validateLoop] at h; cases h
    | cons s segments =>
      simp only [validateLoop] at h
      obtain ⟨status, hstatus, h⟩ := bind_eq_ok.1 h
      split at h
      · cases h
      rename_i hzero
      rw [not_not.1 hzero] at hstatus
      cases i with
      | zero => exact ⟨s, rfl, validate_segment hstatus⟩
      | succ i => exact ih h (by omega)

theorem validate_checked {p : Path Data} (h : p.validate = .ok 0) {i : Nat} (hi : i < p.segmentsCount) :
    ∃ s, p.segments[i]? = some s ∧ s.Checked := by
  obtain ⟨segmentsCount, segments, _, _⟩ := p
  simp only [Path.validate] at h
  split at h
  · cases h
  · exact validateLoop_checked h hi

theorem validate_contains {p : Path Data} {s : Segment Data} (hs : p.Contains s) (h : p.validate = .ok 0) :
    s.Checked := by
  induction hs with
  | own hi hget =>
    obtain ⟨s', hs', hchecked⟩ := validate_checked h hi
    rw [hget] at hs'
    cases hs'
    exact hchecked
  | nested hi hget hgen hdata _ ih =>
    obtain ⟨s', hs', hchecked⟩ := validate_checked h hi
    rw [hget] at hs'
    cases hs'
    obtain ⟨sub, hsub, hvalid⟩ := hchecked.path hgen
    rw [hdata] at hsub
    cases hsub
    exact ih hvalid

/-! ## Sampling with checks -/

/-- `generate`, stopping the run at a call with an end before the start, or a
window that leaves the positions `lo .. hi-1`. The other segments do what `leaf`
does; a path segment samples its path with its own window for bounds. -/
def checked (leaf : Generator Data) : (depth lo hi : Nat) → Generator Data
  | depth, lo, hi, start, end_, s, out, block =>
    if start ≤ end_ ∧ lo ≤ out ∧ out + (end_ - start) ≤ hi then
      match s.generate with
      | none => .error .outOfBounds
      | some .path =>
        match depth, s.data with
        | depth + 1, .path p => do
          let first ← read s.points 0
          let offset := toSize first.x
          let (p, block) ←
            getWith (checked leaf depth out (out + (end_ - start))) p (wsub start offset) (wsub end_ offset) out block
          return ({ s with data := .path p }, block)
        | _, .path _ => .error .outOfFuel
        | _, _ => .error .outOfBounds
      | some _ => leaf start end_ s out block
    else .error .outOfBounds

theorem toSize_mono {x y : ℚ} (h : x ≤ y) : toSize x ≤ toSize y := Int.toNat_le_toNat (Rat.floor_monotone h)

section
variable {D : Type} {generate : Generator D} {start end_ out : Nat}

/-- Where every segment ends no earlier than it starts, the calls a scan makes
are between `start` and `end_`, with windows in that of the scan. -/
theorem getLoop_checked {segs : List (Segment D)} {count : Nat} (hse : start ≤ end_) (hfits : end_ < word)
    (hsegs : ∀ k < count, ∃ s first last, segs[k]? = some s ∧ read s.points 0 = .ok first ∧ s.lastPoint = .ok last ∧
      first.x ≤ last.x ∧ ∀ start' end' out' block, toSize first.x ≤ start' → start' ≤ end' → end' ≤ end_ → out ≤ out' →
        out' + (end' - start') ≤ out + (end_ - start) → generate start' end' s out' block ≠ .error .outOfBounds)
    {remaining i : Nat} (hi : i + remaining ≤ count) {path : Path D} (hpath : ∀ k, i ≤ k → path.segments[k]? = segs[k]?)
    (block : List ℚ) : getLoop generate start end_ out remaining i path block ≠ .error .outOfBounds := by
  induction remaining generalizing i path block with
  | zero => simp [getLoop]
  | succ remaining ih =>
    obtain ⟨s, first, last, hs, hfirst, hlast, hle, hgen⟩ := hsegs i (by omega)
    have hsize := toSize_mono hle
    rw [← hpath i (Nat.le_refl i)] at hs
    simp only [getLoop, read_eq_ok.2 hs, ok_bind, hfirst, hlast]
    split
    · simp
    rename_i hbreak
    split
    · refine ih (by omega) ?_ block
      intro k hk
      exact hpath k (by omega)
    rename_i hskip
    have hstart : (if toSize first.x < start then start else toSize first.x) = max (toSize first.x) start := by
      split <;> omega
    have hend : (if toSize last.x > end_ then end_ else toSize last.x) = min (toSize last.x) end_ := by
      split <;> omega
    have hoff : (if toSize first.x > start then wsub (toSize first.x) start else 0) =
        max (toSize first.x) start - start := by
      split
      · rw [wsub_of_le (by omega) (by omega)]
        omega
      · omega
    rw [hstart, hend, hoff]
    have hcall := hgen (max (toSize first.x) start) (min (toSize last.x) end_)
      (out + (max (toSize first.x) start - start)) block (by omega) (by omega) (by omega) (by omega) (by omega)
    cases hr : generate (max (toSize first.x) start) (min (toSize last.x) end_) s
        (out + (max (toSize first.x) start - start)) block with
    | error e =>
      rw [hr] at hcall
      change Except.error e ≠ Except.error Stop.outOfBounds
      intro he
      cases he
      exact hcall rfl
    | ok r =>
      refine ih (by omega) (fun k hk => ?_) r.2
      rw [List.getElem?_set_ne (by omega)]
      exact hpath k (by omega)

end

section
variable {leaf : Generator Data} (hleaf : ∀ start end_ s out block, leaf start end_ s out block ≠ .error .outOfBounds)
include hleaf

/-- A call between the positions is not stopped, if no sampling of a nested path is. -/
theorem checked_call {depth lo hi start end_ out : Nat} {s : Segment Data} (hchecked : s.Checked) {first : Point}
    (hfirst : read s.points 0 = .ok first) (hse : start ≤ end_) (hlo : lo ≤ out) (hhi : out + (end_ - start) ≤ hi)
    (hnested : ∀ depth' sub, depth = depth' + 1 → s.generate = some .path → s.data = .path sub → ∀ block,
      getWith (checked leaf depth' out (out + (end_ - start))) sub (wsub start (toSize first.x))
        (wsub end_ (toSize first.x)) out block ≠ .error .outOfBounds) (block : List ℚ) :
    checked leaf depth lo hi start end_ s out block ≠ .error .outOfBounds := by
  have hpath := hchecked.path
  have hgen := hchecked.generate
  unfold checked
  rw [if_pos ⟨hse, hlo, hhi⟩]
  split
  · rename_i hnone
    exact absurd hnone hgen
  · rename_i hsome
    obtain ⟨sub, hdata, -⟩ := hpath hsome
    cases depth with
    | zero => simp [hdata]
    | succ depth =>
      have hsub := hnested depth sub rfl hsome hdata block
      simp only [hdata, hfirst, ok_bind]
      cases hr : getWith (checked leaf depth out (out + (end_ - start))) sub (wsub start (toSize first.x))
          (wsub end_ (toSize first.x)) out block with
      | error e =>
        rw [hr] at hsub
        change Except.error e ≠ Except.error Stop.outOfBounds
        intro he
        cases he
        exact hsub rfl
      | ok r => simp
  · exact hleaf _ _ _ _ _

/-- On a validated path whose segments end no earlier than they start, no call
is stopped. -/
theorem checked_safe (depth : Nat) {p : Path Data} (hvalid : p.validate = .ok 0)
    (hordered : ∀ s, p.Contains s → s.Ordered) {lo hi start end_ out : Nat} (hse : start ≤ end_) (hfits : end_ < word)
    (hlo : lo ≤ out) (hhi : out + (end_ - start) ≤ hi) (block : List ℚ) :
    getWith (checked leaf depth lo hi) p start end_ out block ≠ .error .outOfBounds := by
  induction depth using Nat.strong_induction_on generalizing p lo hi start end_ out block with
  | _ depth ih =>
    by_cases hindex : p.resumeIndex start ≤ p.segmentsCount
    · have hpath : ∀ k, p.resumeIndex start ≤ k → p.segments[k]? = p.segments[k]? := fun _ _ => rfl
      refine getLoop_checked hse hfits (fun k hk => ?_) (show _ ≤ p.segmentsCount by omega) hpath block
      obtain ⟨s, hs, hchecked⟩ := validate_checked hvalid hk
      obtain ⟨first, last, hfirst, hlast, hle⟩ := hordered s (.own hk hs)
      refine ⟨s, first, last, hs, hfirst, hlast, hle, ?_⟩
      intro start' end' out' block' hstart' hse' hend' hout' hwindow
      refine checked_call hleaf hchecked hfirst hse' (by omega) (by omega) ?_ block'
      rintro depth' sub rfl hgen hdata block''
      obtain ⟨sub', hdata', hsub⟩ := hchecked.path hgen
      rw [hdata] at hdata'
      cases hdata'
      rw [wsub_of_le (by omega) hstart', wsub_of_le (by omega) (by omega)]
      exact ih depth' (by omega) hsub (fun s' hs' => hordered s' (.nested hk hs hgen hdata hs')) (by omega) (by omega)
        (Nat.le_refl _) (by omega) block''
    · rw [getWith, Nat.sub_eq_zero_of_le (by omega)]
      simp [getLoop]

end

/-! ## What validation is worth -/

/-- A segment that was let through ends no earlier than it starts, unless it has
more than two points. -/
theorem Segment.Checked.ordered_iff {s : Segment Data} (h : s.Checked) (htyped : s.points.length = pointMax) :
    s.Ordered ↔ (2 < s.pointsCount → ¬ s.Inverted) := by
  obtain ⟨p0, p1, hp0, hp1, hle⟩ := h.points
  obtain ⟨htwo, hmax⟩ := h.pointsCount
  have hlast : s.lastPoint = read s.points (s.pointsCount - 1) := if_neg (by omega)
  constructor
  · rintro ⟨first, last, hfirst, hlast', hle'⟩ - ⟨first', last', hfirst', hlast'', hlt⟩
    rw [hfirst] at hfirst'
    rw [hlast'] at hlast''
    cases hfirst'
    cases hlast''
    exact absurd hle' (not_le.2 hlt)
  · intro hinverted
    by_cases hcount : s.pointsCount = 2
    · refine ⟨p0, p1, hp0, ?_, hle⟩
      rw [hlast, hcount]
      exact hp1
    · have hread := read_of_lt (show s.pointsCount - 1 < s.points.length by omega)
      refine ⟨p0, _, hp0, hlast.trans hread, ?_⟩
      by_contra hlt
      exact hinverted (by omega) ⟨p0, _, hp0, hlast.trans hread, not_le.1 hlt⟩

/-- Sampling a validated path is safe exactly when no segment of three or four
points ends before it starts. -/
theorem validate_safe {p : Path Data} (htyped : ∀ s, p.Contains s → s.points.length = pointMax)
    (hvalid : p.validate = .ok 0) :
    ((∀ s, p.Contains s → s.Ordered) ∧
      ∀ leaf, (∀ start end_ s out block, leaf start end_ s out block ≠ .error .outOfBounds) →
        ∀ depth start end_ block, start < end_ → end_ < word →
          getWith (checked leaf depth 0 (end_ - start)) p start end_ 0 block ≠ .error .outOfBounds) ↔
      ∀ s, p.Contains s → 2 < s.pointsCount → ¬ s.Inverted := by
  constructor
  · rintro ⟨hordered, -⟩ s hs
    exact ((validate_contains hs hvalid).ordered_iff (htyped s hs)).1 (hordered s hs)
  · intro hinverted
    have hordered : ∀ s, p.Contains s → s.Ordered := fun s hs =>
      ((validate_contains hs hvalid).ordered_iff (htyped s hs)).2 (hinverted s hs)
    refine ⟨hordered, ?_⟩
    intro leaf hleaf depth start end_ block hlt hfits
    exact checked_safe hleaf depth hvalid hordered hlt.le hfits (Nat.le_refl 0) (by omega) block

/-- A path of a quadratic segment stands between a line and another such segment. -/
theorem validate_safe_nested : ∃ sub p, set [bezier1 2 3 4 5] = .ok (0, some sub) ∧
    set [line 10 5, path sub, bezier1 16 0 20 7] = .ok (0, some p) ∧
    (∀ s, p.Contains s → s.Ordered) ∧
      ∀ leaf, (∀ start end_ s out block, leaf start end_ s out block ≠ .error .outOfBounds) →
        ∀ depth start end_ block, start < end_ → end_ < word →
          getWith (checked leaf depth 0 (end_ - start)) p start end_ 0 block ≠ .error .outOfBounds := by
  let first : Segment Data := bezier1 2 3 4 5
  let sub : Path Data := ⟨1, [first], 0, 0⟩
  let own : List (Segment Data) :=
    [line 10 5, { path sub with points := [⟨10, 5⟩, ⟨10 + 4, 5⟩, ⟨0, 0⟩, ⟨0, 0⟩] },
      { bezier1 16 0 20 7 with points := [⟨10 + 4, 5⟩, ⟨16, 0⟩, ⟨20, 7⟩, ⟨0, 0⟩] }]
  let p : Path Data := ⟨3, own, 0, 0⟩
  have hcontains : ∀ s, p.Contains s → s ∈ first :: own := by
    intro s hs
    rcases contains_cases hs with hmem | ⟨s', hmem, sub', hdata, hs⟩
    · exact List.mem_cons_of_mem first hmem
    · obtain rfl | rfl | rfl : s' = own[0] ∨ s' = own[1] ∨ s' = own[2] := by simpa [p, own] using hmem
      · cases hdata
      · cases hdata
        rcases contains_cases hs with hmem | ⟨s', hmem, sub', hdata, -⟩
        · obtain rfl := List.mem_singleton.1 hmem
          exact List.mem_cons_self
        · obtain rfl := List.mem_singleton.1 hmem
          cases hdata
      · cases hdata
  have hsegments : ∀ s ∈ first :: own, s.points.length = pointMax ∧ (2 < s.pointsCount → ¬ s.Inverted) := by
    intro s hs
    obtain rfl | rfl | rfl | rfl : s = first ∨ s = own[0] ∨ s = own[1] ∨ s = own[2] := by simpa [own] using hs
    · exact ⟨rfl, fun _ => Segment.Ordered.not_inverted ⟨_, _, rfl, rfl, by decide +kernel⟩⟩
    · exact ⟨rfl, fun h => absurd h (by decide)⟩
    · exact ⟨rfl, fun h => absurd h (by decide)⟩
    · exact ⟨rfl, fun _ => Segment.Ordered.not_inverted ⟨_, _, rfl, rfl, by decide +kernel⟩⟩
  have hset : set [line 10 5, path sub, bezier1 16 0 20 7] = .ok (0, some p) := rfl
  refine ⟨sub, p, rfl, hset, (validate_safe ?_ ?_).2 ?_⟩
  · exact fun s hs => (hsegments s (hcontains s hs)).1
  · decide +kernel
  · exact fun s hs => (hsegments s (hcontains s hs)).2

/-- A quadratic segment that turns back: its control point is after its start. -/
theorem validate_inverted : ∃ p, set [line 10 0, bezier1 12 0 5 0] = .ok (0, some p) ∧ p.validate = .ok 0 ∧
    ¬ ((∀ s, p.Contains s → s.Ordered) ∧
      ∀ leaf, (∀ start end_ s out block, leaf start end_ s out block ≠ .error .outOfBounds) →
        ∀ depth start end_ block, start < end_ → end_ < word →
          getWith (checked leaf depth 0 (end_ - start)) p start end_ 0 block ≠ .error .outOfBounds) := by
  refine ⟨_, rfl, ?_, ?_⟩
  · decide +kernel
  · rintro ⟨hordered, -⟩
    obtain ⟨first, last, hfirst, hlast, hle⟩ := hordered _ (.own (show 1 < 2 by omega) rfl)
    cases hfirst
    cases hlast
    exact absurd hle (by decide +kernel)

end SphSc.SplinePath

import SphSc.SplinePath.Model
/-!
# The cached segment index

`Draws` says that a segment is a piece of a curve: where it starts and ends, and
that its `generate` paints it. On a path of such segments `getLoop` from any
index paints the pieces from that index on. So the cached index changes nothing
exactly when the scan starts over, or the cached segment starts at or before
the interval asked for.
-/
open Exec Ring Pieces

namespace SphSc.SplinePath

variable {D : Type} {generate : Generator D} {segs : List (Segment D)} {ps : List (Piece ℚ)} {path path' : Path D}

structure Draws (generate : Generator D) (s : Segment D) (p : Piece ℚ) : Prop where
  first : ∃ pt, read s.points 0 = .ok pt ∧ toSize pt.x = p.lo
  last : ∃ pt, s.lastPoint = .ok pt ∧ toSize pt.x = p.hi
  paints : ∀ {start end_ out block}, p.lo ≤ start → start ≤ end_ → end_ ≤ p.hi → end_ < word →
    sizeofValue * (end_ - start) < word → out + (end_ - start) ≤ block.length →
    generate start end_ s out block =
      .ok (s, paint block (window out (end_ - start) start fun x => some (p.value x)))

/-- An interval whose samples have byte counts, either because a block for all
of them has, or because the coordinates of the pieces are small. -/
structure Addressable (ps : List (Piece ℚ)) (start end_ : Nat) : Prop where
  lt : start < end_
  fits : end_ < word
  bytes : sizeofValue * (end_ - start) < word ∨ ∀ p ∈ ps, sizeofValue * p.hi < word

theorem Addressable.clip {start end_ : Nat} (ha : Addressable ps start end_) {p : Piece ℚ} (hp : p ∈ ps) :
    sizeofValue * (min p.hi end_ - max p.lo start) < word := by
  rcases ha.bytes with h | h
  · exact Nat.lt_of_le_of_lt (Nat.mul_le_mul_left _ (by omega)) h
  · exact Nat.lt_of_le_of_lt (Nat.mul_le_mul_left _ (by omega)) (h p hp)

/-- As `Draws`, for a segment whose `data` may point to something else after the
call. `R` relates the segment before to the segment after. -/
structure Paints (R : Segment D → Segment D → Prop) (generate : Generator D) (s : Segment D) (p : Piece ℚ) : Prop where
  first : ∃ pt, read s.points 0 = .ok pt ∧ toSize pt.x = p.lo
  last : ∃ pt, s.lastPoint = .ok pt ∧ toSize pt.x = p.hi
  paints : ∀ {start end_ out block}, p.lo ≤ start → start ≤ end_ → end_ ≤ p.hi → end_ < word →
    sizeofValue * (end_ - start) < word → out + (end_ - start) ≤ block.length →
    ∃ s', R s s' ∧ generate start end_ s out block =
      .ok (s', paint block (window out (end_ - start) start fun x => some (p.value x)))

theorem Draws.same {s : Segment D} {p : Piece ℚ} (hd : Draws generate s p) : Paints Eq generate s p :=
  ⟨hd.first, hd.last, fun h₁ h₂ h₃ h₄ h₅ h₆ => ⟨s, rfl, hd.paints h₁ h₂ h₃ h₄ h₅ h₆⟩⟩

section
variable {R : Segment D → Segment D → Prop} {start end_ out : Nat} {block : List ℚ}

/-- What a segment that a round does not skip paints. -/
theorem Paints.clipped {s : Segment D} {p : Piece ℚ} (hd : Paints R generate s p) (hse : start ≤ end_)
    (hfits : end_ < word) (hbytes : sizeofValue * (min p.hi end_ - max p.lo start) < word) (hle : p.lo ≤ p.hi)
    (hlo : p.lo ≤ end_) (hhi : start ≤ p.hi) (hout : out + (end_ - start) ≤ block.length) :
    ∃ s', R s s' ∧
      generate (if p.lo < start then start else p.lo) (if p.hi > end_ then end_ else p.hi) s
          (out + if p.lo > start then wsub p.lo start else 0) block =
        .ok (s', paint block (window out (end_ - start) start fun x =>
          if p.lo ≤ x ∧ x < p.hi then some (p.value x) else none)) := by
  have hstart : (if p.lo < start then start else p.lo) = max p.lo start := by split <;> omega
  have hend : (if p.hi > end_ then end_ else p.hi) = min p.hi end_ := by split <;> omega
  have hoff : (if p.lo > start then wsub p.lo start else 0) = max p.lo start - start := by
    split
    · rw [wsub_of_le (by omega) (by omega)]; omega
    · omega
  rw [hstart, hend, hoff, ← window_clip hlo hhi]
  exact hd.paints (by omega) (by omega) (by omega) (by omega) hbytes (by omega)

theorem forall₂_set (htrans : ∀ s s' s'', R s s' → R s' s'' → R s s'') {segs segs' : List (Segment D)} {i : Nat}
    {s s' : Segment D} (hs : segs[i]? = some s) (hR : R s s') (h : List.Forall₂ R (segs.set i s') segs') :
    List.Forall₂ R segs segs' := by
  induction segs generalizing i segs' with
  | nil => cases hs
  | cons t segs ih =>
    cases i with
    | zero =>
      cases hs
      cases h with
      | cons ht h => exact .cons (htrans _ _ _ hR ht) h
    | succ i =>
      cases h with
      | cons ht h => exact .cons ht (ih hs h)

/-- What a round of the scan does, in three cases. -/
theorem getLoop_round (remaining : Nat) {i : Nat} {s : Segment D} {p : Piece ℚ} (hs : path.segments[i]? = some s)
    (hd : Paints R generate s p) (hle : p.lo ≤ p.hi) (hse : start ≤ end_) (hfits : end_ < word)
    (hbytes : sizeofValue * (min p.hi end_ - max p.lo start) < word) (hout : out + (end_ - start) ≤ block.length) :
    -- Break: the segment starts after the interval.
    (end_ < p.lo ∧ getLoop generate start end_ out (remaining + 1) i path block =
      .ok ({ path with previousStart := start }, block)) ∨
    -- Skip: it ended before the interval.
    (p.lo ≤ end_ ∧ p.hi < start ∧ getLoop generate start end_ out (remaining + 1) i path block =
      getLoop generate start end_ out remaining (i + 1)
        { path with previousStart := start, currentSegmentIndex := i } block) ∨
    -- Paint: its part of the interval.
    (p.lo ≤ end_ ∧ ∃ s', R s s' ∧ getLoop generate start end_ out (remaining + 1) i path block =
      getLoop generate start end_ out remaining (i + 1)
        { path with segments := path.segments.set i s', previousStart := start, currentSegmentIndex := i }
        (paint block (window out (end_ - start) start fun x =>
          if p.lo ≤ x ∧ x < p.hi then some (p.value x) else none))) := by
  obtain ⟨first, hfirst, hlo⟩ := hd.first
  obtain ⟨last, hlast, hhi⟩ := hd.last
  simp only [getLoop, read_eq_ok.2 hs, ok_bind, hfirst, hlast, hlo, hhi]
  split
  · rename_i hbreak
    exact .inl ⟨hbreak, rfl⟩
  · rename_i hbreak
    split
    · rename_i hskip
      exact .inr (.inl ⟨by omega, hskip, rfl⟩)
    · obtain ⟨s', hR, hpaint⟩ := hd.clipped hse hfits hbytes hle (by omega) (by omega) hout
      refine .inr (.inr ⟨by omega, s', hR, ?_⟩)
      rw [hpaint, ok_bind]

/-- What the scan does from index `i` on. The index it caches is new only if
that segment starts by the end of the interval. -/
theorem getLoop_paints (hrefl : ∀ s, R s s) (htrans : ∀ s s' s'', R s s' → R s' s'' → R s s'') {a : Nat}
    (hc : Chain a ps) (hse : start ≤ end_) (hfits : end_ < word)
    (hbytes : ∀ p ∈ ps, sizeofValue * (min p.hi end_ - max p.lo start) < word) {remaining i : Nat}
    (hd : List.Forall₂ (Paints R generate) (path.segments.drop i) (ps.drop i)) (hi : i + remaining = ps.length)
    (hout : out + (end_ - start) ≤ block.length) :
    ∃ path', getLoop generate start end_ out remaining i path block =
        .ok (path', paint block (window out (end_ - start) start (draw (ps.drop i)))) ∧
      List.Forall₂ R path.segments path'.segments ∧ path'.segmentsCount = path.segmentsCount ∧
      path'.previousStart = (if remaining = 0 then path.previousStart else start) ∧
      (path'.currentSegmentIndex = path.currentSegmentIndex ∨
        ∃ p, ps[path'.currentSegmentIndex]? = some p ∧ p.lo ≤ end_) := by
  -- on the rounds that are left, each of which paints its own piece
  induction remaining generalizing i path block with
  | zero =>
    refine ⟨path, ?_, List.forall₂_same.2 fun s _ => hrefl s, rfl, rfl, .inl rfl⟩
    have hnil : ps.drop i = [] := List.drop_eq_nil_of_le (by omega)
    have hdraw : draw (ps.drop i) = fun _ => none := by rw [hnil]; rfl
    rw [hdraw, window_none, paint_none]
    rfl
  | succ remaining ih =>
    obtain ⟨p, hp⟩ : ∃ p, ps[i]? = some p := ⟨_, List.getElem?_eq_getElem (by omega)⟩
    obtain ⟨hc', -, -, -⟩ := draw_drop hc hp
    have hmem := List.mem_of_getElem? hp
    have hdrop : ps.drop i = p :: ps.drop (i + 1) := by
      obtain ⟨hlt, rfl⟩ := List.getElem?_eq_some_iff.1 hp
      exact List.drop_eq_getElem_cons hlt
    rw [hdrop] at hc' hd ⊢
    obtain ⟨s, segs, hds, hrest', hsegs⟩ := List.forall₂_cons_right_iff.1 hd
    have hs : path.segments[i]? = some s := by
      have := congrArg (fun l => l[0]?) hsegs
      simpa using this
    have hdrops : path.segments.drop (i + 1) = segs := by
      rw [← List.drop_drop, hsegs]
      rfl
    have hle := hc'.2.1
    have hrest := hc'.2.2
    simp only [Nat.add_one_ne_zero, if_false]
    have hcached : ∀ c, p.lo ≤ end_ → (c = i ∨ ∃ p, ps[c]? = some p ∧ p.lo ≤ end_) →
        c = path.currentSegmentIndex ∨ ∃ p, ps[c]? = some p ∧ p.lo ≤ end_ := by
      rintro c hstart (rfl | h)
      · exact .inr ⟨p, hp, hstart⟩
      · exact .inr h
    obtain ⟨hgt, hround⟩ | ⟨hstart, hskip, hround⟩ | ⟨hstart, s', hR, hround⟩ :=
      getLoop_round remaining hs hds hle hse hfits (hbytes p hmem) hout
    · -- all that follows starts after the interval
      refine ⟨{ path with previousStart := start }, ?_, List.forall₂_same.2 fun s _ => hrefl s, rfl, rfl, .inl rfl⟩
      rw [hround, window_draw_before hc' (by omega), paint_none]
    · -- the piece ended before the interval
      obtain ⟨path', hloop, hrel, hcount, hprev, hcache⟩ :=
        @ih { path with previousStart := start, currentSegmentIndex := i } block (i + 1)
          (by rw [hdrops]; exact hrest') (by omega) hout
      refine ⟨path', ?_, hrel, hcount, ?_, hcached _ hstart hcache⟩
      · rw [hround, hloop, window_draw_after hskip.le]
      · rw [hprev]
        exact ite_self _
    · obtain ⟨path', hloop, hrel, hcount, hprev, hcache⟩ :=
        @ih { path with segments := path.segments.set i s', previousStart := start, currentSegmentIndex := i }
          (paint block (window out (end_ - start) start fun x => if p.lo ≤ x ∧ x < p.hi then some (p.value x) else none))
          (i + 1) (by rw [List.drop_set_of_lt (by omega), hdrops]; exact hrest') (by omega)
          (by rw [length_paint]; exact hout)
      refine ⟨path', ?_, ?_, hcount, ?_, hcached _ hstart hcache⟩
      · rw [hround, hloop, paint_paint, window_or]
        simp only [draw_cons_or hrest]
      · exact forall₂_set htrans hs hR hrel
      · rw [hprev]
        exact ite_self _

end

/-- Where the segments stay as they are, so does the path but for its cache. -/
theorem getLoop_spec (hd : List.Forall₂ (Draws generate) segs ps) {a : Nat} (hc : Chain a ps) {start end_ out : Nat}
    (ha : Addressable ps start end_) {remaining i : Nat} {block : List ℚ} (hsegs : path.segments = segs)
    (hi : i + remaining = segs.length) (hout : out + (end_ - start) ≤ block.length) :
    ∃ c, getLoop generate start end_ out remaining i path block =
        .ok ({ path with
            currentSegmentIndex := c, previousStart := if remaining = 0 then path.previousStart else start },
          paint block (window out (end_ - start) start (draw (ps.drop i)))) ∧
      (c = path.currentSegmentIndex ∨ ∃ p, ps[c]? = some p ∧ p.lo ≤ end_) := by
  have hsame : List.Forall₂ (Paints Eq generate) (path.segments.drop i) (ps.drop i) := by
    rw [hsegs]
    exact List.forall₂_drop i (hd.imp fun _ _ h => h.same)
  obtain ⟨path', hloop, hrel, hcount, hprev, hcache⟩ :=
    getLoop_paints (fun _ => rfl) (fun _ _ _ => Eq.trans) hc (Nat.le_of_lt ha.lt) ha.fits (fun _ => ha.clip) hsame
      (hd.length_eq ▸ hi) hout
  obtain ⟨count, segments, index, previous⟩ := path'
  rw [List.forall₂_eq_eq_eq] at hrel
  subst hcount hrel hprev
  exact ⟨index, hloop, hcache⟩

theorem segment_at (hd : List.Forall₂ (Draws generate) segs ps) {i : Nat} {p : Piece ℚ} (hp : ps[i]? = some p) :
    ∃ s, segs[i]? = some s ∧ Draws generate s p := by
  obtain ⟨hi, rfl⟩ := List.getElem?_eq_some_iff.1 hp
  have hi' : i < segs.length := hd.length_eq ▸ hi
  exact ⟨segs[i], List.getElem?_eq_getElem hi', hd.get hi' hi⟩

/-! ## The cache -/

/-- A path as calls that sample it leave it. -/
structure Cached (segs : List (Segment D)) (path : Path D) : Prop where
  segments : path.segments = segs
  count : path.segmentsCount = segs.length
  index : path.currentSegmentIndex = 0 ∨ path.currentSegmentIndex < segs.length

/-- The cached segment starts at or before `x`. -/
def Behind (ps : List (Piece ℚ)) (path : Path D) (x : Nat) : Prop :=
  ∀ p, ps[path.currentSegmentIndex]? = some p → p.lo ≤ x

/-- In terms of the path alone. -/
theorem behind_iff (hd : List.Forall₂ (Draws generate) segs ps) (h : Cached segs path) {x : Nat} :
    Behind ps path x ↔ ∀ s pt, path.segments[path.currentSegmentIndex]? = some s → s.points[0]? = some pt →
      toSize pt.x ≤ x := by
  rw [h.segments]
  constructor
  · intro hb s pt hs hpt
    obtain ⟨hlt, -⟩ := List.getElem?_eq_some_iff.1 hs
    obtain ⟨p, hp⟩ : ∃ p, ps[path.currentSegmentIndex]? = some p :=
      ⟨_, List.getElem?_eq_getElem (hd.length_eq ▸ hlt)⟩
    obtain ⟨s', hs', hds⟩ := segment_at hd hp
    obtain ⟨pt', hpt', hlo⟩ := hds.first
    rw [hs'] at hs; cases hs
    rw [read_eq_ok, hpt] at hpt'; cases hpt'
    rw [hlo]
    exact hb p hp
  · intro hb p hp
    obtain ⟨s, hs, hds⟩ := segment_at hd hp
    obtain ⟨pt, hpt, hlo⟩ := hds.first
    rw [← hlo]
    exact hb s pt hs (read_eq_ok.1 hpt)

theorem Cached.resumeIndex_le (h : Cached segs path) (start : Nat) : path.resumeIndex start ≤ segs.length := by
  unfold Path.resumeIndex
  split
  · exact Nat.zero_le _
  · rcases h.index with h0 | hlt
    · omega
    · omega

theorem getWith_spec (hd : List.Forall₂ (Draws generate) segs ps) (hc : Chain 0 ps) (h : Cached segs path)
    {start end_ out : Nat} (ha : Addressable ps start end_) {block : List ℚ}
    (hout : out + (end_ - start) ≤ block.length) :
    ∃ path', getWith generate path start end_ out block = .ok (path',
        paint block (window out (end_ - start) start (draw (ps.drop (path.resumeIndex start))))) ∧
      Cached segs path' ∧ (Behind ps path start → Behind ps path' end_) := by
  have hrounds : path.resumeIndex start + (path.segmentsCount - path.resumeIndex start) = segs.length := by
    have := h.resumeIndex_le start
    rw [h.count]; omega
  obtain ⟨c, hloop, hcache⟩ := getLoop_spec hd hc ha h.segments hrounds hout
  refine ⟨_, hloop, ⟨h.segments, h.count, ?_⟩, fun hb p hp => ?_⟩
  · rcases hcache with rfl | ⟨p, hp, -⟩
    · exact h.index
    · exact .inr (hd.length_eq ▸ (List.getElem?_eq_some_iff.1 hp).1)
  · rcases hcache with rfl | ⟨p', hp', hlo⟩
    · exact Nat.le_trans (hb p hp) (Nat.le_of_lt ha.lt)
    · rw [hp'] at hp; cases hp; exact hlo

/-- Resuming misses nothing of the interval exactly when the scan starts over
or the cached segment starts by the start of the interval: a piece that starts
later has one before it that covers the start. -/
theorem draw_resumed_iff (hc : Chain 0 ps) (h : Cached segs path) (hlen : segs.length = ps.length) {start end_ : Nat}
    (hlt : start < end_) :
    (∀ x, start ≤ x → x < end_ → draw (ps.drop (path.resumeIndex start)) x = draw ps x) ↔
      start < path.previousStart ∨ Behind ps path start := by
  by_cases hprev : start < path.previousStart
  · simp [Path.resumeIndex, hprev]
  rw [Path.resumeIndex, if_neg hprev, or_iff_right hprev, Behind]
  cases hp : ps[path.currentSegmentIndex]? with
  | none =>
    have hnil : path.currentSegmentIndex = 0 := by
      rcases h.index with h0 | hlt'
      · exact h0
      · have := List.getElem?_eq_none_iff.1 hp
        omega
    simp [hnil]
  | some p =>
    obtain ⟨hc', -, hsame, hsome⟩ := draw_drop hc hp
    constructor
    · rintro hdraw _ ⟨⟩
      by_contra hgt
      have hx := hsome start (Nat.zero_le _) (by omega)
      rw [← hdraw start (Nat.le_refl _) hlt, draw_of_lt hc' (by omega)] at hx
      cases hx
    · intro hb x hx _
      exact hsame x (Nat.le_trans (hb p rfl) hx)

/-- What sampling paints decides what it leaves in every block. -/
theorem samples_eq_iff (hd : List.Forall₂ (Draws generate) segs ps) (hc : Chain 0 ps) (h : Cached segs path)
    (h' : Cached segs path') {start end_ : Nat} (ha : Addressable ps start end_) :
    (∀ block : List ℚ, end_ - start ≤ block.length → (getWith generate path start end_ 0 block).map Prod.snd =
      (getWith generate path' start end_ 0 block).map Prod.snd) ↔
    ∀ x, start ≤ x → x < end_ →
      draw (ps.drop (path.resumeIndex start)) x = draw (ps.drop (path'.resumeIndex start)) x := by
  constructor
  · intro hblocks x hx hx'
    have hpaint : ∀ block : List ℚ, block.length = end_ - start →
        paint block (window 0 (end_ - start) start (draw (ps.drop (path.resumeIndex start)))) =
          paint block (window 0 (end_ - start) start (draw (ps.drop (path'.resumeIndex start)))) := by
      intro block hlen
      have hout : 0 + (end_ - start) ≤ block.length := by omega
      obtain ⟨q, hq, -⟩ := getWith_spec hd hc h ha hout
      obtain ⟨q', hq', -⟩ := getWith_spec hd hc h' ha hout
      have := hblocks block (by omega)
      rw [hq, hq'] at this
      exact Except.ok.inj this
    have hj := eq_of_paint (j := x - start) (by omega) hpaint
    have hwx : ∀ f : Nat → Option ℚ, window 0 (end_ - start) start f (x - start) = f x := by
      intro f
      rw [window, if_pos (by omega)]
      congr 1; omega
    rwa [hwx, hwx] at hj
  · intro hdraw block hlen
    have hout : 0 + (end_ - start) ≤ block.length := by omega
    obtain ⟨q, hq, -⟩ := getWith_spec hd hc h ha hout
    obtain ⟨q', hq', -⟩ := getWith_spec hd hc h' ha hout
    rw [hq, hq', window_congr (g := draw (ps.drop (path'.resumeIndex start))) fun x hx hx' => hdraw x hx (by omega)]
    rfl

end SphSc.SplinePath

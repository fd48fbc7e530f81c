import SphSc.Lib.Agree
import SphSc.SplinePath.Memory
/-!
# Sessions on segments in memory

`spline_path_set`, calls of `spline_path_get` and `spline_path_free` on an array
of segments. Samples are those of the segments with their data, and the data of
an array is freed once.
-/
open Exec Ring Pieces Links

namespace SphSc.SplinePath.Memory

variable {N : Type} [DecidableEq N] {heap heap' : Cells N} {h : Handle N} {data : Data} {b : List N} {bs : List (List N)}
  {n : N} {p : Path (Handle N)} {p' : Path Data} {segs : List (Segment (Handle N))} {segs' : List (Segment Data)}

/-! ## Samples are those of the segments without a heap -/

variable {s : Segment (Handle N)} {s' t' : Segment Data} {i : Nat}

omit [DecidableEq N] in
theorem SameSegment.lastPoint (hs : SameSegment s s') : s'.lastPoint = s.lastPoint := by
  rw [Segment.lastPoint, hs.pointsCount, hs.points]
  rfl

omit [DecidableEq N] in
theorem SegsHold.read (hs : SegsHold heap segs segs' bs) (i : Nat) :
    Agree (fun s s' => ∃ b, segs[i]? = some s ∧ bs[i]? = some b ∧ SameSegment s s' ∧ Holds heap s.data s'.data b)
      (Exec.read segs i) (Exec.read segs' i) := by
  have hlen := hs.length
  have hlen' := hs.length'
  rcases Nat.lt_or_ge i bs.length with hi | hi
  · rw [read_of_lt (by omega), read_of_lt (by omega)]
    have hs₁ := List.getElem?_eq_getElem (show i < segs.length by omega)
    have hs₂ := List.getElem?_eq_getElem (show i < segs'.length by omega)
    have hb := List.getElem?_eq_getElem hi
    exact .ok ⟨_, hs₁, hb, hs.same i _ _ hs₁ hs₂, hs.hold i _ _ _ hs₁ hs₂ hb⟩
  · rw [read_of_le (by omega), read_of_le (by omega)]
    exact .error _

omit [DecidableEq N] in
/-- What one segment uses is changed. -/
theorem SegsHold.set (hs : SegsHold heap segs segs' bs) (hnodup : bs.flatten.Nodup) (hi : segs[i]? = some s)
    (hb : bs[i]? = some b) (hsame : SameSegment s t') (hh : Holds heap' s.data t'.data b)
    (hframe : ∀ n ∉ b, heap' n = heap n) : SegsHold heap' segs (segs'.set i t') bs where
  length := hs.length
  length' := by rw [List.length_set, hs.length']
  same j u u' hu hu' := by
    rcases eq_or_ne i j with rfl | hij
    · obtain rfl : s = u := by simpa [hi] using hu
      obtain ⟨-, rfl⟩ : i < segs'.length ∧ t' = u' := by
        simpa [List.getElem?_set, List.getElem?_eq_some_iff] using hu'
      exact hsame
    · rw [List.getElem?_set_ne hij] at hu'
      exact hs.same j u u' hu hu'
  hold j u u' c hu hu' hc := by
    rcases eq_or_ne i j with rfl | hij
    · obtain rfl : s = u := by simpa [hi] using hu
      obtain ⟨-, rfl⟩ : i < segs'.length ∧ t' = u' := by
        simpa [List.getElem?_set, List.getElem?_eq_some_iff] using hu'
      obtain rfl : b = c := by simpa [hb] using hc
      exact hh
    · rw [List.getElem?_set_ne hij] at hu'
      refine (hs.hold j u u' c hu hu' hc).congr fun n hn => hframe n ?_
      exact apart hnodup hc hb (Ne.symm hij) hn

/-- A call of a generate function stores the same samples, and changes nothing
but the blocks that the segment uses. -/
def GenAgrees (g : Generator N) (g' : SplinePath.Generator Data) : Prop :=
  ∀ ⦃heap s s' b⦄ (start end_ out : Nat) (block : List ℚ), SameSegment s s' → Holds heap s.data s'.data b →
    Agree (fun r r' => r.2 = r'.2 ∧ SameSegment s r'.1 ∧ Holds r.1 s.data r'.1.data b ∧ ∀ n ∉ b, r.1 n = heap n)
      (g heap start end_ s out block) (g' start end_ s' out block)

/-- What getting samples leaves: the paths still go together, and only blocks of
the segments have changed. -/
structure Kept (heap : Cells N) (bs : List (List N)) (heap' : Cells N) (q : Path (Handle N)) (q' : Path Data) :
    Prop where
  holds : PathHolds heap' q q' bs
  frame : ∀ n ∉ bs.flatten, heap' n = heap n

omit [DecidableEq N] in
theorem getLoop_agrees {g : Generator N} {g' : SplinePath.Generator Data} (hg : GenAgrees g g') (start end_ out : Nat)
    (remaining i : Nat) (hp : PathHolds heap p p' bs) (hnodup : bs.flatten.Nodup) (block : List ℚ) :
    Agree (fun r r' => r.2.2 = r'.2 ∧ Kept heap bs r.1 r.2.1 r'.1)
      (getLoop g start end_ out remaining i heap p block)
      (SplinePath.getLoop g' start end_ out remaining i p' block) := by
  induction remaining generalizing i heap p p' block with
  | zero => exact .ok ⟨rfl, hp, fun _ _ => rfl⟩
  | succ remaining ih =>
    rw [getLoop, SplinePath.getLoop]
    apply (hp.segments.read i).bind
    rintro s s' ⟨b, hs, hb, hsame, hh⟩
    rw [hsame.points, hsame.lastPoint]
    apply (agree_refl _).bind
    rintro first _ rfl
    apply (agree_refl _).bind
    rintro last _ rfl
    -- the indices are stored in both paths
    have hstart : PathHolds heap { p with previousStart := start } { p' with previousStart := start } bs :=
      ⟨hp.count, hp.index, rfl, hp.segments⟩
    have hindex : PathHolds heap { p with previousStart := start, currentSegmentIndex := i }
        { p' with previousStart := start, currentSegmentIndex := i } bs := ⟨hp.count, rfl, rfl, hp.segments⟩
    simp only []
    split
    · exact .ok ⟨rfl, hstart, fun _ _ => rfl⟩
    · split
      · exact ih (i + 1) hindex block
      · apply (hg _ _ _ block hsame hh).bind
        rintro ⟨heap', block'⟩ ⟨t', _⟩ ⟨rfl, hsame', hh', hframe⟩
        have hset : PathHolds heap' { p with previousStart := start, currentSegmentIndex := i }
            { p' with previousStart := start, segments := p'.segments.set i t', currentSegmentIndex := i } bs :=
          ⟨hp.count, rfl, rfl, hp.segments.set hnodup hs hb hsame' hh' hframe⟩
        refine (ih (i + 1) hset block').mono fun r r' hr =>
          ⟨hr.1, hr.2.holds, fun n hn => ?_⟩
        rw [hr.2.frame n hn]
        exact hframe n fun hnb => hn (List.mem_flatten_of_mem (List.mem_of_getElem? hb) hnb)

omit [DecidableEq N] in
theorem getWith_agrees {g : Generator N} {g' : SplinePath.Generator Data} (hg : GenAgrees g g') (start end_ out : Nat)
    (hp : PathHolds heap p p' bs) (hnodup : bs.flatten.Nodup) (block : List ℚ) :
    Agree (fun r r' => r.2.2 = r'.2 ∧ Kept heap bs r.1 r.2.1 r'.1)
      (getWith g heap p start end_ out block) (SplinePath.getWith g' p' start end_ out block) := by
  have hresume : p'.resumeIndex start = p.resumeIndex start := by
    rw [Path.resumeIndex, Path.resumeIndex, hp.start, hp.index]
  unfold getWith SplinePath.getWith
  rw [hresume, hp.count]
  exact getLoop_agrees hg start end_ out _ _ hp hnodup block

omit [DecidableEq N] in
theorem Holds.loadData_eq (hh : Holds heap h data b) (hpath : ∀ p', data ≠ .path p') : loadData heap h = .ok data := by
  cases hh with
  | null => rfl
  | value hn => simp [loadData, Heap.load_eq hn]
  | path => exact absurd rfl (hpath _)

omit [DecidableEq N] in
theorem Holds.loadData_path (hh : Holds heap h (.path p') b) : loadData heap h = .error .outOfBounds := by
  obtain ⟨n, p, bs, rfl, -, hn, -⟩ := hh.of_path
  simp [loadData, Heap.load_eq hn]

omit [DecidableEq N] in
theorem Holds.loadPath_eq (hh : Holds heap h data b) (hpath : ∀ p', data ≠ .path p') :
    loadPath heap h = .error .outOfBounds := by
  cases hh with
  | null => rfl
  | value hn => simp [loadPath, Heap.load_eq hn]
  | path => exact absurd rfl (hpath _)

omit [DecidableEq N] in
theorem SameSegment.with_data (hs : SameSegment s s') : { s with data := s'.data } = s' := by
  obtain ⟨_, _, _, _, _⟩ := s'
  obtain ⟨rfl, rfl, rfl, rfl⟩ := hs
  rfl

theorem read_error {α : Type} {block : List α} {e : Stop} (h : Exec.read block i = .error e) : e = .outOfBounds := by
  unfold Exec.read at h
  split at h
  · cases h
  · cases h
    rfl

theorem lastPoint_error {D : Type} {s : Segment D} {e : Stop} (h : s.lastPoint = .error e) : e = .outOfBounds := by
  unfold Segment.lastPoint at h
  split at h
  · cases h
    rfl
  · exact read_error h

/-- Points are read before `data`. Where one of them is missing, or nothing follows, the stop is the same. -/
theorem reads_stop (s : Segment Data) (k : Point → Point → Exec (List ℚ)) (hk : ∀ p q, k p q = .error .outOfBounds) :
    (Exec.read s.points 0 >>= fun p => s.lastPoint >>= fun q => k p q) = .error .outOfBounds := by
  cases hread : Exec.read s.points 0 with
  | error e =>
    rw [read_error hread]
    rfl
  | ok p =>
    rw [ok_bind]
    cases hlast : s.lastPoint with
    | error e =>
      rw [lastPoint_error hlast]
      rfl
    | ok q => exact hk p q

/-- The exponent and the base are not read from a path. -/
theorem powerGenerate_path (pow : ℚ → ℚ → ℚ) (start end_ out : Nat) (block : List ℚ) (h : s'.data = .path p') :
    powerGenerate pow start end_ s' out block = .error .outOfBounds := by
  unfold powerGenerate
  rw [h]
  exact reads_stop s' _ fun _ _ => rfl

theorem exponentialGenerate_path (exp : ℚ → ℚ) (start end_ out : Nat) (block : List ℚ) (h : s'.data = .path p') :
    exponentialGenerate exp start end_ s' out block = .error .outOfBounds := by
  unfold exponentialGenerate
  rw [h]
  exact reads_stop s' _ fun _ _ => rfl

omit [DecidableEq N] in
/-- A generate function that does not read `data` stores the same samples. -/
theorem agrees_of_eq (hsame : SameSegment s s') (hh : Holds heap s.data s'.data b) {x y : Exec (List ℚ)} (hxy : x = y) :
    Agree (fun r r' => r.2 = r'.2 ∧ SameSegment s r'.1 ∧ Holds r.1 s.data r'.1.data b ∧ ∀ n ∉ b, r.1 n = heap n)
      (x >>= fun block => .ok (heap, block)) (y >>= fun block => .ok (s', block)) := by
  rw [hxy]
  apply (agree_refl y).bind
  rintro block _ rfl
  exact .ok ⟨rfl, hsame, hh, fun _ _ => rfl⟩

omit [DecidableEq N] in
/-- One that reads a value from there does. -/
theorem agrees_of_value (hsame : SameSegment s s') (hh : Holds heap s.data s'.data b)
    {f : Segment Data → Exec (List ℚ)} (hf : ∀ p', s'.data = .path p' → f s' = .error .outOfBounds) :
    Agree (fun r r' => r.2 = r'.2 ∧ SameSegment s r'.1 ∧ Holds r.1 s.data r'.1.data b ∧ ∀ n ∉ b, r.1 n = heap n)
      (loadData heap s.data >>= fun data => f { s with data } >>= fun block => .ok (heap, block))
      (f s' >>= fun block => .ok (s', block)) := by
  by_cases hpath : ∃ p', s'.data = .path p'
  · obtain ⟨p', hp'⟩ := hpath
    rw [hf p' hp', Holds.loadData_path (hp' ▸ hh)]
    exact .error _
  · rw [hh.loadData_eq fun p' hp' => hpath ⟨p', hp'⟩, ok_bind, hsame.with_data]
    exact agrees_of_eq hsame hh rfl

omit [DecidableEq N] in
theorem beziernGenerate_eq (hsame : SameSegment s s') (interpolator : Interpolator) (fuel start end_ out : Nat)
    (block : List ℚ) :
    beziernGenerate interpolator fuel start end_ s out block =
      beziernGenerate interpolator fuel start end_ s' out block := by
  unfold beziernGenerate
  rw [hsame.points, hsame.lastPoint]
  have hround : beziernRound interpolator start end_ s = beziernRound interpolator start end_ s' := by
    funext
    unfold beziernRound
    rw [hsame.points]
  rw [hround]

/-- A nested path is sampled where it is. -/
theorem nested_agrees {g : Generator N} {g' : SplinePath.Generator Data} (hg : GenAgrees g g') (start end_ out : Nat)
    (block : List ℚ) (hsame : SameSegment s s') (hh : Holds heap s.data (.path p') b) :
    Agree (fun r r' => r.2 = r'.2 ∧ SameSegment s r'.1 ∧ Holds r.1 s.data r'.1.data b ∧ ∀ n ∉ b, r.1 n = heap n)
      (loadPath heap s.data >>= fun c => Exec.read s.points 0 >>= fun first =>
        getWith g heap c.2 (wsub start (toSize first.x)) (wsub end_ (toSize first.x)) out block >>= fun r =>
        r.1.store c.1 (.path r.2.1) >>= fun heap => .ok (heap, r.2.2))
      (Exec.read s'.points 0 >>= fun first =>
        SplinePath.getWith g' p' (wsub start (toSize first.x)) (wsub end_ (toSize first.x)) out block >>= fun r =>
        .ok ({ s' with data := .path r.1 }, r.2)) := by
  obtain ⟨n, p, bs, hs, rfl, hn, hp⟩ := hh.of_path
  have hnodup := hh.nodup
  obtain ⟨hnbs, hbs⟩ := List.nodup_cons.1 hnodup
  have hload : loadPath heap s.data = .ok (n, p) := by simp [loadPath, hs, Heap.load_eq hn]
  have hread : Exec.read s'.points 0 = Exec.read s.points 0 := by rw [hsame.points]
  rw [hload, ok_bind, hread]
  apply (agree_refl _).bind
  rintro first _ rfl
  apply (getWith_agrees hg _ _ out hp hbs block).bind
  rintro ⟨heap', q, block'⟩ ⟨q', _⟩ ⟨rfl, hkept⟩
  have hholds : PathHolds heap' q q' bs := hkept.holds
  have hframe : ∀ m ∉ bs.flatten, heap' m = heap m := hkept.frame
  have hn' : heap' n = some (.path p) := by rw [hframe n hnbs, hn]
  -- the path is stored where none of its segments has anything
  have hupdate : ∀ m ∈ bs.flatten, Function.update heap' n (some (.path q)) m = heap' m := fun m hm =>
    Function.update_of_ne (fun hmn => hnbs (by rwa [hmn] at hm)) ..
  have hq : PathHolds (Function.update heap' n (some (.path q))) q q' bs :=
    ⟨hholds.count, hholds.index, hholds.start, hholds.segments.congr hupdate⟩
  simp only [Heap.store_eq hn', ok_bind]
  refine .ok ⟨rfl, ⟨hsame.pointsCount, hsame.points, hsame.generate, hsame.prepare⟩, ?_, fun m hm => ?_⟩
  · rw [hs]
    exact hq.holds (Function.update_self ..) hnodup
  · have hmn : m ≠ n := fun hmn => hm (by simp [hmn])
    have hmb : m ∉ bs.flatten := fun hmb => hm (List.mem_cons_of_mem _ hmb)
    simp only [Function.update_of_ne hmn]
    exact hframe m hmb

/-- Sampling a segment whose data is on the heap is sampling the segment with its data. -/
theorem generate_agrees (depth : Nat) : GenAgrees (generate (N := N) depth) (SplinePath.generate depth) := by
  induction depth using Nat.strongRecOn with
  | ind depth ih =>
  intro heap s s' b start end_ out block hsame hh
  unfold generate SplinePath.generate
  rw [hsame.generate]
  have hpoints := hsame.points
  rcases hgen : s.generate with _ | gen
  · exact .error _
  cases gen with
  | move => exact agrees_of_eq hsame hh rfl
  | constant => exact agrees_of_eq hsame hh (by rw [constantGenerate, constantGenerate, hpoints])
  | line => exact agrees_of_eq hsame hh (by rw [lineGenerate, lineGenerate, hpoints])
  | bezier1 =>
    have hbezier := beziernGenerate_eq hsame bezier1InterpolatePoints (word + 1) start end_ out block
    simp only [bezier1Generate, hbezier]
    apply (agree_refl _).bind
    rintro r _ rfl
    exact .ok ⟨rfl, hsame, hh, fun _ _ => rfl⟩
  | bezier2 =>
    have hbezier := beziernGenerate_eq hsame bezier2InterpolatePoints (word + 1) start end_ out block
    simp only [bezier2Generate, hbezier]
    apply (agree_refl _).bind
    rintro r _ rfl
    exact .ok ⟨rfl, hsame, hh, fun _ _ => rfl⟩
  | power pow =>
    exact agrees_of_value hsame hh (f := fun s => powerGenerate pow start end_ s out block)
      fun p' hp' => powerGenerate_path pow start end_ out block hp'
  | exponential exp =>
    exact agrees_of_value hsame hh (f := fun s => exponentialGenerate exp start end_ s out block)
      fun p' hp' => exponentialGenerate_path exp start end_ out block hp'
  | path =>
    by_cases hpath : ∃ p', s'.data = .path p'
    · obtain ⟨p', hp'⟩ := hpath
      have hh' : Holds heap s.data (.path p') b := hp' ▸ hh
      simp only [hp']
      cases depth with
      | zero =>
        obtain ⟨n, p, -, hs, -, hn, -⟩ := hh'.of_path
        rw [hs, show loadPath heap ⟨some n, true⟩ = .ok (n, p) by simp [loadPath, Heap.load_eq hn]]
        exact .error _
      | succ depth =>
        have hnested := nested_agrees (ih depth (Nat.lt_succ_self depth)) start end_ out block hsame hh'
        rw [hsame.generate, hgen] at hnested
        exact hnested
    · rw [hh.loadPath_eq fun p' hp' => hpath ⟨p', hp'⟩]
      cases hdata : s'.data with
      | null => cases depth <;> exact .error _
      | value gamma => cases depth <;> exact .error _
      | path p' => exact absurd ⟨p', hdata⟩ hpath

/-! ## Preparing -/

omit [DecidableEq N] in
theorem setPoint_agrees (hsame : SameSegment s s') (i : Nat) (q : Point) :
    Agree (fun t t' => SameSegment t t' ∧ t.data = s.data ∧ t'.data = s'.data) (s.setPoint i q) (s'.setPoint i q) := by
  unfold Segment.setPoint
  rw [hsame.points]
  apply (agree_refl _).bind
  rintro points _ rfl
  exact .ok ⟨⟨hsame.pointsCount, rfl, hsame.generate, hsame.prepare⟩, rfl, rfl⟩

omit [DecidableEq N] in
theorem end_eq (hp : PathHolds heap p p' bs) : p.end_ = p'.end_ := by
  apply Agree.eq
  unfold Path.end_
  rw [hp.count]
  split
  · exact .error _
  · apply (hp.segments.read _).bind
    rintro s s' ⟨b, -, -, hsame, -⟩
    simp only [hsame.points, hsame.lastPoint]
    exact agree_refl _

/-- What `data` points to, as a path. -/
def asPath : Data → Exec (SplinePath.Path Data)
  | .path p => .ok p
  | _ => .error .outOfBounds

theorem pathPrepare_eq (s : Segment Data) : SplinePath.pathPrepare s = (do
    let p ← asPath s.data
    let pathEnd ← p.end_
    let start ← Exec.read s.points 0
    let s ← s.setPoint 1 ⟨start.x + pathEnd.x, pathEnd.y⟩
    return (0, s)) := by
  unfold SplinePath.pathPrepare asPath
  cases s.data <;> rfl

/-- All that preparing a segment reads from `data`: where a nested path ends. -/
def Ends (heap : Cells N) (h : Handle N) (data : Data) : Prop :=
  Agree (fun c p' => c.2.end_ = p'.end_) (loadPath heap h) (asPath data)

omit [DecidableEq N] in
theorem Holds.ends (hh : Holds heap h data b) : Ends heap h data := by
  unfold Ends
  by_cases hpath : ∃ p', data = .path p'
  · obtain ⟨p', rfl⟩ := hpath
    obtain ⟨n, p, bs, rfl, -, hn, hp⟩ := hh.of_path
    rw [show loadPath heap ⟨some n, true⟩ = .ok (n, p) by simp [loadPath, Heap.load_eq hn]]
    exact .ok (end_eq hp)
  · rw [hh.loadPath_eq fun p' hp' => hpath ⟨p', hp'⟩]
    cases data with
    | path p' => exact absurd ⟨p', rfl⟩ hpath
    | _ => exact .error _

omit [DecidableEq N] in
theorem prepare_agrees (hsame : SameSegment s s') (hends : Ends heap s.data s'.data) :
    Agree (fun r r' => r.1 = 0 ∧ r'.1 = 0 ∧ SameSegment r.2 r'.2 ∧ r.2.data = s.data ∧ r'.2.data = s'.data)
      (prepare heap s) (SplinePath.prepare s') := by
  unfold prepare SplinePath.prepare
  rw [hsame.prepare]
  have hpoints := hsame.points
  rcases s.prepare with _ | _ | _ | _
  · exact .ok ⟨rfl, rfl, hsame, rfl, rfl⟩
  · unfold constantPrepare
    rw [hpoints]
    apply (agree_refl _).bind
    rintro start _ rfl
    exact (setPoint_agrees hsame 1 _).bind fun t t' ht => .ok ⟨rfl, rfl, ht⟩
  · simp only [pathPrepare_eq]
    apply hends.bind
    rintro ⟨n, p⟩ p' hend
    dsimp only at hend ⊢
    rw [hend, hpoints]
    apply (agree_refl _).bind
    rintro pathEnd _ rfl
    apply (agree_refl _).bind
    rintro start _ rfl
    exact (setPoint_agrees hsame 1 _).bind fun t t' ht => .ok ⟨rfl, rfl, ht⟩
  · unfold bezierArcPrepare
    rw [hpoints]
    apply (agree_refl _).bind
    rintro start _ rfl
    apply (agree_refl _).bind
    rintro end_ _ rfl
    apply (agree_refl _).bind
    rintro curvature _ rfl
    exact (setPoint_agrees hsame 1 _).bind fun t t' ht => .ok ⟨rfl, rfl, ht⟩

omit [DecidableEq N] in
theorem segsHold_nil (heap : Cells N) : SegsHold heap [] [] [] := ⟨rfl, rfl, by simp, by simp⟩

omit [DecidableEq N] in
theorem SegsHold.cons (hs : SegsHold heap segs segs' bs) (hsame : SameSegment s s') (hh : Holds heap s.data s'.data b) :
    SegsHold heap (s :: segs) (s' :: segs') (b :: bs) where
  length := congrArg (· + 1) hs.length
  length' := congrArg (· + 1) hs.length'
  same i u u' hu hu' := by
    rcases i with _ | i
    · cases hu
      cases hu'
      exact hsame
    · exact hs.same i u u' hu hu'
  hold i u u' c hu hu' hc := by
    rcases i with _ | i
    · cases hu
      cases hu'
      cases hc
      exact hh
    · exact hs.hold i u u' c hu hu' hc

omit [DecidableEq N] in
theorem SegsHold.of_cons (hs : SegsHold heap (s :: segs) segs' bs) : ∃ s' rest b cs, segs' = s' :: rest ∧ bs = b :: cs ∧
    SameSegment s s' ∧ Holds heap s.data s'.data b ∧ SegsHold heap segs rest cs := by
  have hlen := hs.length
  have hlen' := hs.length'
  rcases bs with _ | ⟨b, cs⟩
  · cases hlen
  rcases segs' with _ | ⟨s', rest⟩
  · cases hlen'
  · exact ⟨s', rest, b, cs, rfl, rfl, hs.same 0 s s' rfl rfl, hs.hold 0 s s' b rfl rfl rfl,
      Nat.succ.inj hlen, Nat.succ.inj hlen', fun i => hs.same (i + 1), fun i => hs.hold (i + 1)⟩

omit [DecidableEq N] in
theorem prepareLoop_agrees (start : Point) (hs : SegsHold heap segs segs' bs) :
    Agree (fun r r' => r.1 = 0 ∧ r'.1 = 0 ∧ SegsHold heap r.2 r'.2 bs)
      (prepareLoop heap start segs) (SplinePath.prepareLoop start segs') := by
  induction segs generalizing start segs' bs with
  | nil =>
    have hlen := hs.length.symm.trans List.length_nil
    have hsegs' : segs' = [] := List.eq_nil_of_length_eq_zero (hs.length'.trans hlen)
    subst hsegs'
    exact .ok ⟨rfl, rfl, hs⟩
  | cons s segs ih =>
    obtain ⟨s', rest, b, cs, rfl, rfl, hsame, hh, hrest⟩ := hs.of_cons
    rw [prepareLoop, SplinePath.prepareLoop]
    apply (setPoint_agrees hsame 0 start).bind
    rintro t t' ⟨hsame, ht, ht'⟩
    apply (prepare_agrees hsame (by rw [ht, ht']; exact hh.ends)).bind
    rintro ⟨_, u⟩ ⟨_, u'⟩ ⟨rfl, rfl, hsame, hu, hu'⟩
    simp only [ne_eq, not_true_eq_false, if_false]
    rw [show u'.lastPoint = u.lastPoint from hsame.lastPoint]
    apply (agree_refl _).bind
    rintro last _ rfl
    apply (ih last hrest).bind
    rintro ⟨_, us⟩ ⟨_, us'⟩ ⟨rfl, rfl, hus⟩
    refine .ok ⟨rfl, rfl, hus.cons hsame ?_⟩
    rwa [show u.data = s.data from hu.trans ht, show u'.data = s'.data from hu'.trans ht']

/-! ## What no call changes -/

theorem setPoint_data {D : Type} {s t : Segment D} {i : Nat} {q : Point} (h : s.setPoint i q = .ok t) :
    t.data = s.data := by
  obtain ⟨points, -, hok⟩ := bind_eq_ok.1 h
  cases hok
  rfl

omit [DecidableEq N] in
/-- No segment fails to be prepared. -/
theorem prepare_ok {t : Segment (Handle N)} {status : Byte} (h : prepare heap s = .ok (status, t)) :
    status = 0 ∧ t.data = s.data := by
  unfold prepare at h
  split at h
  · cases h
    exact ⟨rfl, rfl⟩
  · obtain ⟨start, -, h⟩ := bind_eq_ok.1 h
    obtain ⟨u, hu, hok⟩ := bind_eq_ok.1 h
    cases hok
    exact ⟨rfl, setPoint_data hu⟩
  · obtain ⟨c, -, h⟩ := bind_eq_ok.1 h
    obtain ⟨pathEnd, -, h⟩ := bind_eq_ok.1 h
    obtain ⟨start, -, h⟩ := bind_eq_ok.1 h
    obtain ⟨u, hu, hok⟩ := bind_eq_ok.1 h
    cases hok
    exact ⟨rfl, setPoint_data hu⟩
  · obtain ⟨start, -, h⟩ := bind_eq_ok.1 h
    obtain ⟨end_, -, h⟩ := bind_eq_ok.1 h
    obtain ⟨curvature, -, h⟩ := bind_eq_ok.1 h
    obtain ⟨u, hu, hok⟩ := bind_eq_ok.1 h
    cases hok
    exact ⟨rfl, setPoint_data hu⟩

omit [DecidableEq N] in
theorem prepareLoop_ok {start : Point} {status : Byte} {ts : List (Segment (Handle N))}
    (h : prepareLoop heap start segs = .ok (status, ts)) :
    status = 0 ∧ ts.map Segment.data = segs.map Segment.data := by
  induction segs generalizing start status ts with
  | nil =>
    cases h
    exact ⟨rfl, rfl⟩
  | cons s segs ih =>
    obtain ⟨t, ht, h⟩ := bind_eq_ok.1 h
    obtain ⟨⟨status₁, u⟩, hu, h⟩ := bind_eq_ok.1 h
    obtain ⟨rfl, hdata⟩ := prepare_ok hu
    simp only [ne_eq, not_true_eq_false, if_false] at h
    obtain ⟨last, -, h⟩ := bind_eq_ok.1 h
    obtain ⟨⟨status₂, us⟩, hus, hok⟩ := bind_eq_ok.1 h
    cases hok
    obtain ⟨rfl, hrest⟩ := ih hus
    exact ⟨rfl, by rw [List.map_cons, List.map_cons, hdata, setPoint_data ht, hrest]⟩

/-- Nothing is allocated by it. -/
def NoAlloc (heap heap' : Cells N) : Prop := ∀ n, heap n = none → heap' n = none

/-- What a block holds before and after, where paths are related by `R` and all else is the same. -/
inductive SameCell (R : Path (Handle N) → Path (Handle N) → Prop) : Option (Cell N) → Option (Cell N) → Prop
  | none : SameCell R none none
  | value (gamma : ℚ) : SameCell R (some (.value gamma)) (some (.value gamma))
  | path {p q : Path (Handle N)} : R p q → SameCell R (some (.path p)) (some (.path q))

def SameCells (R : Path (Handle N) → Path (Handle N) → Prop) (heap heap' : Cells N) : Prop :=
  ∀ n, SameCell R (heap n) (heap' n)

/-- The same path, but for what `spline_path_get` stores in it. -/
structure SamePath (p q : Path (Handle N)) : Prop where
  segments : q.segments = p.segments
  count : q.segmentsCount = p.segmentsCount

/-- The path is the same, and so are those on the heap. -/
structure Stays (heap : Cells N) (p : Path (Handle N)) (heap' : Cells N) (q : Path (Handle N)) : Prop where
  path : SamePath p q
  cells : SameCells SamePath heap heap'

omit [DecidableEq N] in
theorem SamePath.refl (p : Path (Handle N)) : SamePath p p := ⟨rfl, rfl⟩

omit [DecidableEq N] in
theorem SamePath.trans {p₁ p₂ p₃ : Path (Handle N)} (h : SamePath p₁ p₂) (h' : SamePath p₂ p₃) : SamePath p₁ p₃ :=
  ⟨h'.segments.trans h.segments, h'.count.trans h.count⟩

omit [DecidableEq N] in
theorem SameCells.refl {R : Path (Handle N) → Path (Handle N) → Prop} (hR : ∀ p, R p p) (heap : Cells N) :
    SameCells R heap heap := by
  intro n
  rcases heap n with _ | p | gamma
  · exact .none
  · exact .path (hR p)
  · exact .value gamma

omit [DecidableEq N] in
theorem SameCells.trans {heap₁ heap₂ heap₃ : Cells N} (h : SameCells SamePath heap₁ heap₂)
    (h' : SameCells SamePath heap₂ heap₃) : SameCells SamePath heap₁ heap₃ := by
  intro n
  have hn := h n
  have hn' := h' n
  revert hn hn'
  generalize heap₁ n = c₁, heap₂ n = c₂, heap₃ n = c₃
  rintro (_ | gamma | hpq) hn'
  · exact hn'
  · exact hn'
  · obtain _ | _ | hqr := hn'
    exact .path (hpq.trans hqr)

omit [DecidableEq N] in
theorem SameCells.noAlloc {R : Path (Handle N) → Path (Handle N) → Prop} (h : SameCells R heap heap') :
    NoAlloc heap heap' := by
  intro n hn
  have hcell := h n
  rw [hn] at hcell
  generalize heap' n = c at hcell
  cases hcell
  rfl

omit [DecidableEq N] in
theorem SameCell.of_path {R : Path (Handle N) → Path (Handle N) → Prop} {c c' : Option (Cell N)} (h : SameCell R c c')
    (hc : c = some (.path p)) : ∃ q, c' = some (.path q) ∧ R p q := by
  cases h with
  | path hR =>
    cases hc
    exact ⟨_, rfl, hR⟩
  | _ => cases hc

omit [DecidableEq N] in
theorem Stays.of_path {q q' : Path (Handle N)} (h : Stays heap q heap' q') (hsame : SamePath p q) : Stays heap p heap' q' :=
  ⟨hsame.trans h.path, h.cells⟩

omit [DecidableEq N] in
theorem getLoop_stays {g : Generator N} (hg : ∀ ⦃heap start end_ s out block heap' block'⦄,
      g heap start end_ s out block = .ok (heap', block') → SameCells SamePath heap heap')
    {start end_ out remaining i : Nat} {q : Path (Handle N)} {block block' : List ℚ}
    (h : getLoop g start end_ out remaining i heap p block = .ok (heap', q, block')) : Stays heap p heap' q := by
  induction remaining generalizing i heap p block with
  | zero =>
    cases h
    exact ⟨.refl _, .refl SamePath.refl _⟩
  | succ remaining ih =>
    obtain ⟨s, -, h⟩ := bind_eq_ok.1 h
    obtain ⟨first, -, h⟩ := bind_eq_ok.1 h
    obtain ⟨last, -, h⟩ := bind_eq_ok.1 h
    simp only [] at h
    split at h
    · cases h
      exact ⟨⟨rfl, rfl⟩, .refl SamePath.refl _⟩
    · split at h
      · exact (ih h).of_path ⟨rfl, rfl⟩
      · obtain ⟨⟨heap₁, block₁⟩, hgen, h⟩ := bind_eq_ok.1 h
        obtain ⟨hpath, hcells⟩ := (ih h).of_path (p := p) ⟨rfl, rfl⟩
        exact ⟨hpath, (hg hgen).trans hcells⟩

omit [DecidableEq N] in
theorem loadPath_ok {c : N × Path (Handle N)} (hload : loadPath heap h = .ok c) :
    h.data = some c.1 ∧ heap c.1 = some (.path c.2) := by
  obtain ⟨n, hn, hload⟩ := bind_eq_ok.1 hload
  obtain ⟨cell, hcell, hload⟩ := bind_eq_ok.1 hload
  cases cell with
  | value gamma => cases hload
  | path p =>
    cases hload
    exact ⟨deref_eq_ok.1 hn, Heap.load_eq_ok.1 hcell⟩

/-- A path is stored over the same path. -/
theorem store_sameCells {q : Path (Handle N)} (hn : heap n = some (.path p)) (hpq : SamePath p q)
    (h : heap.store n (.path q) = .ok heap') : SameCells SamePath heap heap' := by
  rw [Heap.store_eq hn] at h
  cases h
  intro m
  rcases eq_or_ne m n with rfl | hm
  · rw [hn, Function.update_self]
    exact .path hpq
  · rw [Function.update_of_ne hm]
    exact SameCells.refl SamePath.refl heap m

theorem generate_sameCells (depth : Nat) ⦃heap : Cells N⦄ ⦃start end_ : Nat⦄ ⦃s : Segment (Handle N)⦄ ⦃out : Nat⦄
    ⦃block : List ℚ⦄ ⦃heap' : Cells N⦄ ⦃block' : List ℚ⦄
    (h : generate depth heap start end_ s out block = .ok (heap', block')) : SameCells SamePath heap heap' := by
  induction depth using Nat.strongRecOn generalizing heap start end_ s out block heap' block' with
  | ind depth ih =>
  -- all but nested paths leave the heap as it is
  have hsame : ∀ {α : Type} {x : Exec α} {f : α → List ℚ},
      (x >>= fun a => .ok (heap, f a)) = .ok (heap', block') → SameCells SamePath heap heap' := by
    intro α x f hx
    obtain ⟨a, -, hok⟩ := bind_eq_ok.1 hx
    cases hok
    exact .refl SamePath.refl heap
  unfold generate at h
  split at h
  · exact hsame h
  · exact hsame h
  · exact hsame h
  · exact hsame h
  · exact hsame h
  · obtain ⟨data, -, h⟩ := bind_eq_ok.1 h
    exact hsame h
  · obtain ⟨data, -, h⟩ := bind_eq_ok.1 h
    exact hsame h
  · obtain ⟨⟨n, p⟩, hload, h⟩ := bind_eq_ok.1 h
    cases depth with
    | zero => cases h
    | succ depth =>
      obtain ⟨first, -, h⟩ := bind_eq_ok.1 h
      obtain ⟨⟨heap₁, q, block₁⟩, hget, h⟩ := bind_eq_ok.1 h
      obtain ⟨heap₂, hstore, hok⟩ := bind_eq_ok.1 h
      cases hok
      obtain ⟨hpath, hcells⟩ :=
        getLoop_stays (fun _ _ _ _ _ _ _ _ hgen => ih depth (Nat.lt_succ_self depth) hgen) hget
      obtain ⟨p₁, hn, hsame₁⟩ := (hcells n).of_path (loadPath_ok hload).2
      have hback : SamePath p₁ q := ⟨hpath.segments.trans hsame₁.segments.symm, hpath.count.trans hsame₁.count.symm⟩
      exact hcells.trans (store_sameCells hn hback hstore)
  · cases h

theorem gets_stays (depth : Nat) {requests : List (Nat × Nat × List ℚ)} {q : Path (Handle N)} {blocks : List (List ℚ)}
    (h : gets depth heap p requests = .ok (heap', q, blocks)) : Stays heap p heap' q := by
  induction requests generalizing heap p blocks with
  | nil =>
    cases h
    exact ⟨.refl _, .refl SamePath.refl _⟩
  | cons request requests ih =>
    obtain ⟨start, end_, block⟩ := request
    obtain ⟨⟨heap₁, p₁, block₁⟩, hget, h⟩ := bind_eq_ok.1 h
    obtain ⟨⟨heap₂, p₂, blocks₂⟩, hgets, hok⟩ := bind_eq_ok.1 h
    cases hok
    obtain ⟨hpath, hcells⟩ : Stays heap p heap₁ p₁ := getLoop_stays (generate_sameCells depth) hget
    obtain ⟨hpath', hcells'⟩ := ih hgets
    exact ⟨hpath.trans hpath', hcells.trans hcells'⟩

/-! ## Freeing -/

/-- What `spline_path_free` frees. -/
def own (segs : List (Segment (Handle N))) : List N := segs.filterMap fun s => s.data.data

omit [DecidableEq N] in
theorem own_eq {ts : List (Segment (Handle N))} (hdata : ts.map Segment.data = segs.map Segment.data) :
    own ts = own segs := by
  have h := congrArg (List.filterMap Handle.data) hdata
  rwa [List.filterMap_map, List.filterMap_map] at h

/-- `free` is set where there is data. -/
def Frees (segs : List (Segment (Handle N))) : Prop := ∀ s ∈ segs, s.data.free = s.data.data.isSome

theorem freeData_some (heap : Cells N) (n : N) : freeData heap ⟨some n, true⟩ = heap.free n := rfl

theorem freeLoop_eq (before : List (Segment (Handle N))) (hfree : Frees segs) (hnodup : (own segs).Nodup)
    (halive : ∀ n ∈ own segs, (heap n).isSome) :
    freeLoop (before ++ segs) segs.length before.length heap = .ok (heap.without (own segs)) := by
  induction segs generalizing before heap with
  | nil => exact congrArg Except.ok (Heap.without_nil heap).symm
  | cons s segs ih =>
    have hs := hfree s (by simp)
    have hrest : Frees segs := fun t ht => hfree t (List.mem_cons_of_mem _ ht)
    have hnext : ∀ {heap' : Cells N}, (own segs).Nodup → (∀ n ∈ own segs, (heap' n).isSome) →
        freeLoop (before ++ s :: segs) segs.length (before.length + 1) heap' = .ok (heap'.without (own segs)) := by
      intro heap' hnodup halive
      simpa using ih (before ++ [s]) hrest hnodup halive
    rw [List.length_cons, freeLoop, read_length, ok_bind]
    obtain ⟨_, _, _, _, data, free⟩ := s
    cases data with
    | none =>
      obtain rfl : free = false := hs
      exact hnext hnodup halive
    | some n =>
      obtain rfl : free = true := hs
      obtain ⟨hn, hnodup⟩ := List.nodup_cons.1 hnodup
      obtain ⟨c, hc⟩ := Option.isSome_iff_exists.1 (halive n (by simp [own]))
      simp only [freeData_some, Heap.free_eq hc, ok_bind]
      rw [hnext hnodup fun m hm => ?_]
      · exact congrArg Except.ok (Heap.without_cons heap n (own segs)).symm
      · rw [Function.update_of_ne (fun hmn => hn (by rwa [hmn] at hm))]
        exact halive m (List.mem_cons_of_mem _ hm)

theorem freeData_noAlloc (hfree : freeData heap h = .ok heap') : NoAlloc heap heap' := by
  intro n hn
  unfold freeData at hfree
  split at hfree
  · unfold Heap.free at hfree
    split at hfree
    · cases hfree
      rw [Function.update_apply]
      split
      · rfl
      · exact hn
    · cases hfree
  · cases hfree
    exact hn

/-- What was freed is not freed again. -/
theorem freeLoop_freed (before : List (Segment (Handle N))) (hn : heap n = none)
    (hs : ⟨some n, true⟩ ∈ segs.map Segment.data) :
    freeLoop (before ++ segs) segs.length before.length heap ≠ .ok heap' := by
  induction segs generalizing before heap with
  | nil => cases hs
  | cons s segs ih =>
    have hnext : ∀ {heap₁ : Cells N}, heap₁ n = none → ⟨some n, true⟩ ∈ segs.map Segment.data →
        freeLoop (before ++ s :: segs) segs.length (before.length + 1) heap₁ ≠ .ok heap' := by
      intro heap₁ hn₁ hs
      simpa using ih (before ++ [s]) hn₁ hs
    intro h
    rw [List.length_cons, freeLoop, read_length, ok_bind] at h
    obtain ⟨heap₁, hheap₁, h⟩ := bind_eq_ok.1 h
    rcases List.mem_cons.1 hs with hs | hs
    · rw [← hs, freeData_some, Heap.free_none hn] at hheap₁
      cases hheap₁
    · exact hnext (freeData_noAlloc hheap₁ n hn) hs h

omit [DecidableEq N] in
theorem Holds.free_eq (hh : Holds heap h data b) : h.free = h.data.isSome := by
  cases hh <;> rfl

omit [DecidableEq N] in
theorem Holds.own_sublist (hh : Holds heap h data b) : h.data.toList.Sublist b := by
  cases hh with
  | null => exact List.Sublist.refl _
  | value => exact List.Sublist.refl _
  | path => exact List.Sublist.cons_cons _ (List.nil_sublist _)

omit [DecidableEq N] in
theorem SegsHold.frees (hs : SegsHold heap segs segs' bs) : Frees segs := by
  induction segs generalizing segs' bs with
  | nil => exact fun _ hs => nomatch hs
  | cons s segs ih =>
    obtain ⟨s', rest, b, cs, rfl, rfl, -, hh, hrest⟩ := hs.of_cons
    intro t ht
    rcases List.mem_cons.1 ht with rfl | ht
    · exact hh.free_eq
    · exact ih hrest t ht

omit [DecidableEq N] in
/-- The data of the segments themselves is some of what they use. -/
theorem SegsHold.own_sublist (hs : SegsHold heap segs segs' bs) : (own segs).Sublist bs.flatten := by
  induction segs generalizing segs' bs with
  | nil => exact List.nil_sublist _
  | cons s segs ih =>
    obtain ⟨s', rest, b, cs, rfl, rfl, -, hh, hrest⟩ := hs.of_cons
    have hsublist := hh.own_sublist.append (ih hrest)
    rw [List.flatten_cons]
    unfold own at hsublist ⊢
    cases hdata : s.data.data <;> simpa [hdata] using hsublist

/-! ## Sessions -/

theorem gets_agrees (depth : Nat) (requests : List (Nat × Nat × List ℚ)) (hp : PathHolds heap p p' bs)
    (hnodup : bs.flatten.Nodup) :
    Agree (fun r r' => r.2.2 = r'.2 ∧ Kept heap bs r.1 r.2.1 r'.1) (gets depth heap p requests)
      (treeGets depth p' requests) := by
  induction requests generalizing heap p p' with
  | nil => exact .ok ⟨rfl, hp, fun _ _ => rfl⟩
  | cons request requests ih =>
    obtain ⟨start, end_, block⟩ := request
    apply (getWith_agrees (generate_agrees depth) start end_ 0 hp hnodup block).bind
    rintro ⟨heap₁, p₁, block₁⟩ ⟨p₁', _⟩ ⟨rfl, hkept⟩
    apply (ih hkept.holds).bind
    rintro ⟨heap₂, p₂, blocks⟩ ⟨p₂', _⟩ ⟨rfl, hrest⟩
    exact .ok ⟨rfl, hrest.holds, fun n hn => (hrest.frame n hn).trans (hkept.frame n hn)⟩

/-- An array with a segment whose data was freed: no session with it returns. -/
theorem session_freed (depth : Nat) (requests : List (Nat × Nat × List ℚ)) (hn : heap n = none)
    (hs : ⟨some n, true⟩ ∈ segs.map Segment.data) (o : Outcome N) : session depth heap segs requests ≠ .ok o := by
  intro h
  obtain ⟨⟨status, ts⟩, hprepare, h⟩ := bind_eq_ok.1 h
  obtain ⟨rfl, hdata⟩ := prepareLoop_ok hprepare
  simp only [ne_eq, not_true_eq_false, if_false] at h
  obtain ⟨⟨heap₁, q, blocks⟩, hgets, h⟩ := bind_eq_ok.1 h
  obtain ⟨heap₂, hfree, -⟩ := bind_eq_ok.1 h
  obtain ⟨⟨hsegs, hcount⟩, hcells⟩ := gets_stays depth hgets
  rw [free, hsegs, hcount] at hfree
  exact freeLoop_freed [] (hcells.noAlloc n hn) (hdata ▸ hs) hfree

/-- Where no two of the segments use one block of data, in nested paths too, a
session gives the samples of the segments with their data, and stops only where
those do. It frees the data of the segments of the array, once, and not what
segments of nested paths use. The array, and every other with one of its
segments that have data, is of no use after that. -/
theorem session_frees (hs : SegsHold heap segs segs' bs) (hnodup : bs.flatten.Nodup) (depth : Nat)
    (requests : List (Nat × Nat × List ℚ)) :
    Agree (fun o r => o.status = r.1 ∧ o.blocks = r.2 ∧ o.segments.map Segment.data = segs.map Segment.data ∧
        (∀ n, o.heap n = none ↔ heap n = none ∨ n ∈ own segs) ∧ (∀ n ∉ bs.flatten, o.heap n = heap n) ∧
        ∀ segs₂, (∃ n ∈ own segs, ⟨some n, true⟩ ∈ segs₂.map Segment.data) →
          ∀ depth₂ requests₂ o₂, session depth₂ o.heap segs₂ requests₂ ≠ .ok o₂)
      (session depth heap segs requests) (treeSession depth segs' requests) := by
  unfold session treeSession SplinePath.set SplinePath.prepareSegments
  rw [bind_assoc]
  refine (prepareLoop_agrees ⟨0, 0⟩ hs).returns.bind ?_
  rintro ⟨_, ts⟩ ⟨_, ts'⟩ ⟨⟨rfl, rfl, hts⟩, hprepare, -⟩
  obtain ⟨-, hdata⟩ := prepareLoop_ok hprepare
  have hown := own_eq hdata
  simp only [ne_eq, not_true_eq_false, if_false]
  have hp : PathHolds heap { segmentsCount := ts.length, segments := ts, currentSegmentIndex := 0, previousStart := 0 }
      { segmentsCount := ts'.length, segments := ts', currentSegmentIndex := 0, previousStart := 0 } bs :=
    ⟨hts.length'.trans hts.length.symm, rfl, rfl, hts⟩
  apply (gets_agrees depth requests hp hnodup).returns.bind
  rintro ⟨heap₁, q, blocks⟩ ⟨q', _⟩ ⟨⟨rfl, hkept⟩, hgets, -⟩
  obtain ⟨⟨hsegs, hcount⟩, -⟩ := gets_stays depth hgets
  have hsublist := hts.own_sublist
  have halive : ∀ n ∈ bs.flatten, (heap₁ n).isSome := hkept.holds.segments.alive
  have hfree : free heap₁ q = .ok (heap₁.without (own ts)) := by
    rw [free, hsegs, hcount]
    exact freeLoop_eq [] hts.frees (hsublist.nodup hnodup) fun n hn => halive n (hsublist.subset hn)
  rw [hfree, ok_bind]
  have hframe : ∀ n ∉ bs.flatten, heap₁ n = heap n := hkept.frame
  have hnone : ∀ n, heap₁ n = none ↔ heap n = none := by
    intro n
    by_cases hn : n ∈ bs.flatten
    · have h₁ := Option.isSome_iff_ne_none.1 (halive n hn)
      have h := Option.isSome_iff_ne_none.1 (hs.alive n hn)
      simp [h₁, h]
    · rw [hframe n hn]
  have hfreed : ∀ n, heap₁.without (own ts) n = none ↔ heap n = none ∨ n ∈ own segs := by
    intro n
    rw [← hown, ← hnone, Heap.without]
    split <;> simp_all
  refine .ok ⟨rfl, rfl, hdata, hfreed, fun n hn => ?_, ?_⟩
  · have hn' : n ∉ own ts := fun hown => hn (hsublist.subset hown)
    simpa [Heap.without, hn'] using hframe n hn
  · rintro segs₂ ⟨n, hn, hsegs₂⟩ depth₂ requests₂ o₂
    exact session_freed depth₂ requests₂ ((hfreed n).2 (.inr hn)) hsegs₂ o₂

/-- A path with a power segment, as a segment of another path. -/
def powered : Segment (Handle Nat) × Cells Nat :=
  allocSegment (fun _ => none) (.power fun t _ => t) 2 8 2 (some 0)

def nested : Segment (Handle Nat) × Cells Nat :=
  path powered.2 { segmentsCount := 1, segments := [powered.1], currentSegmentIndex := 0, previousStart := 0 } (some 1)

def nestedTree : Segment Data :=
  SplinePath.path
    { segmentsCount := 1, segments := [SplinePath.power (fun t _ => t) 2 8 2], currentSegmentIndex := 0,
      previousStart := 0 }

theorem nested_holds : SegsHold nested.2 [nested.1] [nestedTree] [[1, 0]] := by
  have hfirst : Heap.alloc (fun _ => none : Cells Nat) (some 0) = some 0 := Heap.alloc_eq_some.2 ⟨rfl, rfl⟩
  have hsecond : Heap.alloc powered.2 (some 1) = some 1 := Heap.alloc_eq_some.2 ⟨rfl, rfl⟩
  obtain ⟨hpowered, hvalue, -⟩ := allocSegment_holds (.power fun t _ => t) 2 8 2 hfirst
  have hp : PathHolds powered.2
      { segmentsCount := 1, segments := [powered.1], currentSegmentIndex := 0, previousStart := 0 }
      { segmentsCount := 1, segments := [SplinePath.power (fun t _ => t) 2 8 2], currentSegmentIndex := 0,
        previousStart := 0 } [[0]] := ⟨rfl, rfl, rfl, (segsHold_nil _).cons hpowered hvalue⟩
  obtain ⟨hnested, hpath, -⟩ := path_holds hp (by simp) hsecond
  exact (segsHold_nil _).cons hnested hpath

/-- Its samples are got once, with `spline_path_segments_get`. -/
theorem session_frees_nested :
    Agree (fun o r => o.status = r.1 ∧ o.blocks = r.2 ∧ o.segments.map Segment.data = [nested.1].map Segment.data ∧
        (∀ n, o.heap n = none ↔ nested.2 n = none ∨ n ∈ own [nested.1]) ∧
        (∀ n ∉ [[1, 0]].flatten, o.heap n = nested.2 n) ∧
        ∀ segs₂, (∃ n ∈ own [nested.1], ⟨some n, true⟩ ∈ segs₂.map Segment.data) →
          ∀ depth₂ requests₂ o₂, session depth₂ o.heap segs₂ requests₂ ≠ .ok o₂)
      (segmentsGet 2 nested.2 [nested.1] 0 2 [0, 0]) (treeSession 2 [nestedTree] [(0, 2, [0, 0])]) :=
  session_frees nested_holds (by simp) 2 [(0, 2, [0, 0])]

end SphSc.SplinePath.Memory

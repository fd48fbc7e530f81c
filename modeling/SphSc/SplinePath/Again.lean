import SphSc.SplinePath.Preparing
import SphSc.SplinePath.Sessions
/-!
# Passing segments again

`spline_path_set` and `spline_path_segments_get` prepare the caller's array where
it is. What a second call finds is what the first one left: the points it stored,
data that it freed, and nested paths with the place where they resume.
-/
open Exec Ring Pieces Links

namespace SphSc.SplinePath

/-- The segment is what the constructor call gives, with its data where `malloc`
had a block for it. Of a nested path it only matters here where it ends. -/
def Built.InMemory {N : Type} (heap : Memory.Cells N) (s : Segment (Memory.Handle N)) (b : Built) : Prop :=
  Memory.SameSegment s b.segment ∧
    match b with
    | .path p => ∃ n q, s.data = ⟨some n, true⟩ ∧ heap n = some (.path q) ∧ q.end_ = p.end_
    | .power _ _ _ gamma | .exponential _ _ _ gamma => ∃ n, s.data = ⟨some n, true⟩ ∧ heap n = some (.value gamma)
    | _ => s.data = Memory.noData

/-- It stays so while other blocks are allocated and changed. -/
theorem Built.InMemory.congr {N : Type} {heap heap' : Memory.Cells N} {s : Segment (Memory.Handle N)} {b : Built}
    (hb : b.InMemory heap s) (hsame : ∀ n, s.data.data = some n → heap' n = heap n) : b.InMemory heap' s := by
  obtain ⟨hsegment, hdata⟩ := hb
  refine ⟨hsegment, ?_⟩
  cases b with
  | path p =>
    obtain ⟨n, q, hs, hn, hend⟩ := hdata
    exact ⟨n, q, hs, by rw [hsame n (by rw [hs]), hn], hend⟩
  | power pow x y gamma | exponential exp x y gamma =>
    obtain ⟨n, hs, hn⟩ := hdata
    exact ⟨n, hs, by rw [hsame n (by rw [hs]), hn]⟩
  | _ => exact hdata

namespace Memory

variable {N : Type} {heap heap' : Cells N} {h : Handle N} {data : Data} {n : N} {p q : Path (Handle N)}
  {s : Segment (Handle N)} {s' : Segment Data} {segs : List (Segment (Handle N))} {segs' : List (Segment Data)}
  {b : Built} {bs : List Built}

/-! ## Constructors -/

/-- The segment of a constructor that allocates nothing. -/
def plain (s : Segment Data) : Segment (Handle N) := ⟨s.pointsCount, s.points, s.generate, s.prepare, noData⟩

section
variable [DecidableEq N]

theorem path_inMemory {block : Option N} {p : SplinePath.Path Data} {q : Path (Handle N)} (hend : q.end_ = p.end_)
    (hblock : heap.alloc block = some n) : (Built.path p).InMemory (path heap q block).2 (path heap q block).1 := by
  simp only [path, hblock]
  exact ⟨⟨rfl, rfl, rfl, rfl⟩, n, q, rfl, Function.update_self .., hend⟩

theorem power_inMemory {block : Option N} (pow : ℚ → ℚ → ℚ) (x y gamma : ℚ) (hblock : heap.alloc block = some n) :
    (Built.power pow x y gamma).InMemory (allocSegment heap (.power pow) x y gamma block).2
      (allocSegment heap (.power pow) x y gamma block).1 := by
  simp only [allocSegment, hblock]
  exact ⟨⟨rfl, rfl, rfl, rfl⟩, n, rfl, Function.update_self ..⟩

theorem exponential_inMemory {block : Option N} (exp : ℚ → ℚ) (x y gamma : ℚ) (hblock : heap.alloc block = some n) :
    (Built.exponential exp x y gamma).InMemory (allocSegment heap (.exponential exp) x y gamma block).2
      (allocSegment heap (.exponential exp) x y gamma block).1 := by
  simp only [allocSegment, hblock]
  exact ⟨⟨rfl, rfl, rfl, rfl⟩, n, rfl, Function.update_self ..⟩

/-- Without a block, they make constants. -/
theorem constant_inMemory {block : Option N} (gen : Generate) (x y gamma : ℚ) (p : Path (Handle N))
    (hblock : heap.alloc block = none) :
    Built.constant.InMemory (path heap p block).2 (path heap p block).1 ∧
      Built.constant.InMemory (allocSegment heap gen x y gamma block).2
        (allocSegment heap gen x y gamma block).1 := by
  simp only [path, allocSegment, hblock]
  exact ⟨⟨⟨rfl, rfl, rfl, rfl⟩, rfl⟩, ⟨rfl, rfl, rfl, rfl⟩, rfl⟩

end

/-! ## Preparing -/

theorem inMemory_ends (hb : b.InMemory heap s) : Ends heap s.data b.segment.data := by
  obtain ⟨-, hdata⟩ := hb
  unfold Ends
  cases b with
  | path p =>
    obtain ⟨n, q, hs, hn, hend⟩ := hdata
    rw [hs, show loadPath heap ⟨some n, true⟩ = .ok (n, q) by simp [loadPath, Heap.load_eq hn]]
    exact .ok hend
  | power pow x y gamma | exponential exp x y gamma =>
    obtain ⟨n, hs, hn⟩ := hdata
    rw [hs, show loadPath heap ⟨some n, true⟩ = .error .outOfBounds by simp [loadPath, Heap.load_eq hn]]
    exact .error _
  | _ =>
    rw [show s.data = noData from hdata]
    exact .error _

/-- The segments differ in `data` only, and are prepared alike. -/
structure Ready (heap : Cells N) (s : Segment (Handle N)) (s' : Segment Data) : Prop where
  same : SameSegment s s'
  ends : Ends heap s.data s'.data

theorem ready_of_inMemory (hb : b.InMemory heap s) : Ready heap s b.segment := ⟨hb.1, inMemory_ends hb⟩

theorem prepareLoop_ready (start : Point) (hs : List.Forall₂ (Ready heap) segs segs') :
    Agree (fun r r' => List.Forall₂ (Ready heap) r.2 r'.2) (prepareLoop heap start segs)
      (SplinePath.prepareLoop start segs') := by
  induction hs generalizing start with
  | nil => exact .ok .nil
  | cons hready _ ih =>
    rw [prepareLoop, SplinePath.prepareLoop]
    apply (setPoint_agrees hready.same 0 start).bind
    rintro t t' ⟨hsame, ht, ht'⟩
    apply (prepare_agrees hsame (by rw [ht, ht']; exact hready.ends)).bind
    rintro ⟨_, u⟩ ⟨_, u'⟩ ⟨rfl, rfl, hsame, hu, hu'⟩
    simp only [ne_eq, not_true_eq_false, if_false]
    rw [show u'.lastPoint = u.lastPoint from hsame.lastPoint]
    apply (agree_refl _).bind
    rintro last _ rfl
    apply (ih last).bind
    rintro ⟨_, us⟩ ⟨_, us'⟩ hus
    refine .ok (.cons ⟨hsame, ?_⟩ hus)
    rw [show u.data = _ from hu.trans ht, show u'.data = _ from hu'.trans ht']
    exact hready.ends

theorem SamePath.end_eq (h : SamePath p q) : q.end_ = p.end_ := by
  rw [Path.end_, Path.end_, h.segments, h.count]

/-- A nested path ends where it does wherever it resumes. -/
theorem Ends.of_cells (hends : Ends heap h data) (hcells : SameCells SamePath heap heap') : Ends heap' h data := by
  obtain ⟨d, free⟩ := h
  cases d with
  | none => exact hends
  | some n =>
    have hcell := hcells n
    unfold Ends loadPath Heap.load at hends ⊢
    simp only [deref_some, ok_bind] at hends ⊢
    generalize heap n = c at hcell hends
    generalize heap' n = c' at hcell
    cases hcell with
    | none => exact hends
    | value => exact hends
    | @path p q hpq =>
      change Agree _ (.ok (n, p)) _ at hends
      change Agree _ (.ok (n, q)) _
      generalize asPath data = y at hends ⊢
      cases hends with
      | ok hend => exact .ok (hpq.end_eq.trans hend)

theorem points_eq (hs : List.Forall₂ (Ready heap) segs segs') : segs.map Segment.points = segs'.map Segment.points := by
  induction hs with
  | nil => rfl
  | cons hready _ ih => rw [List.map_cons, List.map_cons, hready.same.points, ih]

/-- Segments in memory that are prepared alike, with the same data, are the same. -/
theorem segments_eq {ts : List (Segment (Handle N))} (hs : List.Forall₂ (Ready heap) segs segs')
    (ht : List.Forall₂ (Ready heap') ts segs') (hdata : ts.map Segment.data = segs.map Segment.data) : ts = segs := by
  induction hs generalizing ts with
  | nil =>
    cases ht
    rfl
  | @cons s s' segs segs' hready _ ih =>
    cases ht with
    | @cons t _ ts _ hready' ht =>
      obtain ⟨hhead, htail⟩ := List.cons.inj hdata
      have hst : t = s := by
        obtain ⟨⟨hcount, hpoints, hgen, hprep⟩, -⟩ := hready
        obtain ⟨⟨hcount', hpoints', hgen', hprep'⟩, -⟩ := hready'
        cases s
        cases t
        simp_all
      rw [hst, ih ht htail]

/-- The points are as they were after the array is prepared. -/
def PointsStay (heap : Cells N) (segs : List (Segment (Handle N))) : Prop :=
  ∃ status segs', prepareLoop heap ⟨0, 0⟩ segs = .ok (status, segs') ∧
    segs'.map Segment.points = segs.map Segment.points

/-- Preparing an array again, wherever its nested paths resume now. -/
theorem prepareLoop_again (hs : List.Forall₂ (fun s b => b.InMemory heap s) segs bs) {status : Byte}
    {segs₁ : List (Segment (Handle N))} (h : prepareLoop heap ⟨0, 0⟩ segs = .ok (status, segs₁))
    (hcells : SameCells SamePath heap heap') :
    ∃ segs₂, prepareLoop heap' ⟨0, 0⟩ segs₁ = .ok (0, segs₂) ∧
      (segs₂.map Segment.points = segs₁.map Segment.points ↔ Settled ⟨0, 0⟩ bs) ∧ (Settled ⟨0, 0⟩ bs → segs₂ = segs₁) := by
  have hready : List.Forall₂ (Ready heap) segs (bs.map Built.segment) := by
    rw [List.forall₂_map_right_iff]
    exact hs.imp fun _ _ => ready_of_inMemory
  have hfirst := prepareLoop_ready ⟨0, 0⟩ hready
  rw [h] at hfirst
  obtain ⟨status', segs₁', htree, hready₁⟩ : ∃ status' segs₁',
      SplinePath.prepareLoop ⟨0, 0⟩ (bs.map Built.segment) = .ok (status', segs₁') ∧
        List.Forall₂ (Ready heap) segs₁ segs₁' := by
    generalize SplinePath.prepareLoop ⟨0, 0⟩ (bs.map Built.segment) = y at hfirst
    cases hfirst with
    | ok hr => exact ⟨_, _, rfl, hr⟩
  obtain ⟨-, segs₂', hagain, hpoints, heq⟩ := SplinePath.prepareLoop_again htree
  have hready₁' : List.Forall₂ (Ready heap') segs₁ segs₁' :=
    hready₁.imp fun _ _ hr => ⟨hr.same, hr.ends.of_cells hcells⟩
  have hsecond := prepareLoop_ready ⟨0, 0⟩ hready₁'
  rw [hagain] at hsecond
  obtain ⟨status₂, segs₂, hsegs₂, hready₂⟩ : ∃ status₂ segs₂,
      prepareLoop heap' ⟨0, 0⟩ segs₁ = .ok (status₂, segs₂) ∧ List.Forall₂ (Ready heap') segs₂ segs₂' := by
    generalize prepareLoop heap' ⟨0, 0⟩ segs₁ = x at hsecond
    cases hsecond with
    | ok hr => exact ⟨_, _, rfl, hr⟩
  obtain ⟨rfl, hdata⟩ := prepareLoop_ok hsegs₂
  refine ⟨segs₂, hsegs₂, ?_, fun hsettled => ?_⟩
  · rw [points_eq hready₂, points_eq hready₁, hpoints]
  · rw [heq hsettled] at hready₂
    exact segments_eq hready₁ hready₂ hdata

/-- The points stay exactly in settled arrays, wherever nested paths resume. -/
theorem pointsStay_iff (hs : List.Forall₂ (fun s b => b.InMemory heap s) segs bs) {status : Byte}
    {segs₁ : List (Segment (Handle N))} (h : prepareLoop heap ⟨0, 0⟩ segs = .ok (status, segs₁)) (hcells : SameCells SamePath heap heap') :
    PointsStay heap' segs₁ ↔ Settled ⟨0, 0⟩ bs := by
  obtain ⟨segs₂, hagain, hpoints, -⟩ := prepareLoop_again hs h hcells
  rw [← hpoints]
  constructor
  · rintro ⟨status', us, hus, hsame⟩
    rw [hagain] at hus
    cases hus
    exact hsame
  · exact fun hsame => ⟨0, segs₂, hagain, hsame⟩

/-! ## Data -/

/-- `free` is set where there is data. -/
theorem data_of_inMemory (hb : b.InMemory heap s) : s.data = noData ∨ ∃ n, s.data = ⟨some n, true⟩ ∧ (heap n).isSome := by
  obtain ⟨-, hdata⟩ := hb
  cases b with
  | path p =>
    obtain ⟨n, q, hs, hn, -⟩ := hdata
    exact .inr ⟨n, hs, by simp [hn]⟩
  | power pow x y gamma | exponential exp x y gamma =>
    obtain ⟨n, hs, hn⟩ := hdata
    exact .inr ⟨n, hs, by simp [hn]⟩
  | _ => exact .inl hdata

section
variable (hs : List.Forall₂ (fun s b => b.InMemory heap s) segs bs)
include hs

theorem data_of_mem (hmem : s ∈ segs) : s.data = noData ∨ ∃ n, s.data = ⟨some n, true⟩ ∧ (heap n).isSome := by
  obtain ⟨i, hi⟩ := List.mem_iff_getElem?.1 hmem
  obtain ⟨hlt, rfl⟩ := List.getElem?_eq_some_iff.1 hi
  exact data_of_inMemory (hs.get hlt (hs.length_eq ▸ hlt))

theorem frees_of_inMemory : Frees segs := by
  intro s hmem
  rcases data_of_mem hs hmem with hdata | ⟨n, hdata, -⟩ <;> rw [hdata] <;> rfl

theorem data_of_own (hn : n ∈ own segs) : ⟨some n, true⟩ ∈ segs.map Segment.data ∧ (heap n).isSome := by
  obtain ⟨s, hmem, hsn⟩ := List.mem_filterMap.1 hn
  rcases data_of_mem hs hmem with hdata | ⟨m, hdata, halive⟩
  · rw [hdata] at hsn
    cases hsn
  · rw [hdata] at hsn
    cases hsn
    exact ⟨List.mem_map.2 ⟨s, hmem, hdata⟩, halive⟩

end

/-! ## Sampling -/

/-- The same path, which `spline_path_get` resumes at the same segment. -/
structure Resumes (p q : Path (Handle N)) : Prop where
  path : SamePath p q
  index : ∀ start, q.resumeIndex start = p.resumeIndex start

theorem Resumes.refl (p : Path (Handle N)) : Resumes p p := ⟨.refl p, fun _ => rfl⟩

theorem SameCells.of_resumes (h : SameCells Resumes heap heap') : SameCells SamePath heap heap' := by
  intro n
  have hn := h n
  revert hn
  generalize heap n = c, heap' n = c'
  rintro (_ | gamma | hpq)
  · exact .none
  · exact .value gamma
  · exact .path hpq.path

/-- Once another start is stored in both, the paths are equal. -/
theorem Resumes.eq (h : Resumes p q) (start : Nat) : { q with previousStart := start } =
    { p with previousStart := start } := by
  have hindex := h.index (max p.previousStart q.previousStart)
  rw [Path.resumeIndex, Path.resumeIndex, if_neg (Nat.not_lt.2 (Nat.le_max_right _ _)),
    if_neg (Nat.not_lt.2 (Nat.le_max_left _ _))] at hindex
  rw [h.path.segments, h.path.count, hindex]

/-- A call of a generate function does not tell the heaps apart, and leaves none to tell. -/
def GenSame (g : Generator N) : Prop :=
  ∀ ⦃heap heap' : Cells N⦄ (start end_ : Nat) (s : Segment (Handle N)) (out : Nat) (block : List ℚ),
    SameCells Resumes heap heap' →
    Agree (fun r r' => r'.2 = r.2 ∧ SameCells Resumes r.1 r'.1) (g heap start end_ s out block)
      (g heap' start end_ s out block)

theorem getLoop_same {g : Generator N} (hg : GenSame g) (start end_ out remaining i : Nat) (p : Path (Handle N))
    (block : List ℚ) (hcells : SameCells Resumes heap heap') :
    Agree (fun r r' => r'.2 = r.2 ∧ SameCells Resumes r.1 r'.1) (getLoop g start end_ out remaining i heap p block)
      (getLoop g start end_ out remaining i heap' p block) := by
  induction remaining generalizing i heap heap' p block with
  | zero => exact .ok ⟨rfl, hcells⟩
  | succ remaining ih =>
    rw [getLoop, getLoop]
    apply (agree_refl _).bind
    rintro s _ rfl
    apply (agree_refl _).bind
    rintro first _ rfl
    apply (agree_refl _).bind
    rintro last _ rfl
    simp only []
    split
    · exact .ok ⟨rfl, hcells⟩
    · split
      · exact ih (i + 1) _ block hcells
      · apply (hg _ _ s _ block hcells).bind
        rintro ⟨heap₁, block₁⟩ ⟨heap₁', block₁'⟩ ⟨hblock, hcells₁⟩
        obtain rfl : block₁' = block₁ := hblock
        exact ih (i + 1) _ block₁' hcells₁

/-- The start is stored before it matters. -/
theorem getLoop_start (g : Generator N) (start end_ out remaining i : Nat) (heap : Cells N) (p : Path (Handle N))
    (block : List ℚ) : getLoop g start end_ out (remaining + 1) i heap p block =
      getLoop g start end_ out (remaining + 1) i heap { p with previousStart := start } block := rfl

/-- Where the paths may have different starts stored, they resume alike after the call. -/
theorem getWith_same {g : Generator N} (hg : GenSame g) (start end_ out : Nat) (block : List ℚ) (hpq : Resumes p q)
    (hcells : SameCells Resumes heap heap') :
    Agree (fun r r' => r'.2.2 = r.2.2 ∧ Resumes r.2.1 r'.2.1 ∧ SameCells Resumes r.1 r'.1)
      (getWith g heap p start end_ out block) (getWith g heap' q start end_ out block) := by
  unfold getWith
  rw [hpq.index, hpq.path.count]
  dsimp only
  generalize p.segmentsCount - p.resumeIndex start = remaining
  cases remaining with
  | zero => exact .ok ⟨rfl, hpq, hcells⟩
  | succ remaining =>
    rw [getLoop_start g start end_ out remaining _ heap p, getLoop_start g start end_ out remaining _ heap' q, hpq.eq start]
    refine (getLoop_same hg start end_ out (remaining + 1) (p.resumeIndex start) { p with previousStart := start } block
      hcells).mono fun r r' hr => ⟨by rw [hr.1], ?_, hr.2⟩
    rw [hr.1]
    exact .refl _

theorem loadData_same (hcells : SameCells Resumes heap heap') (h : Handle N) : loadData heap' h = loadData heap h := by
  unfold loadData
  split
  · rfl
  · rename_i n _
    have hcell := hcells n
    unfold Heap.load
    generalize heap n = c at hcell
    generalize heap' n = c' at hcell
    cases hcell <;> rfl

theorem loadPath_same (hcells : SameCells Resumes heap heap') (h : Handle N) :
    Agree (fun r r' => r'.1 = r.1 ∧ Resumes r.2 r'.2 ∧ heap r.1 = some (.path r.2) ∧ heap' r.1 = some (.path r'.2))
      (loadPath heap h) (loadPath heap' h) := by
  obtain ⟨d, free⟩ := h
  cases d with
  | none => exact .error _
  | some n =>
    have hcell := hcells n
    unfold loadPath Heap.load
    simp only [deref_some, ok_bind]
    generalize hc : heap n = c at hcell
    generalize hc' : heap' n = c' at hcell
    cases hcell with
    | none => exact .error _
    | value => exact .error _
    | path hpq => exact .ok ⟨rfl, hpq, hc, hc'⟩

theorem SameCells.isSome_eq {R : Path (Handle N) → Path (Handle N) → Prop} (hcells : SameCells R heap heap') (n : N) :
    (heap' n).isSome = (heap n).isSome := by
  have hcell := hcells n
  generalize heap n = c at hcell
  generalize heap' n = c' at hcell
  cases hcell <;> rfl

theorem getLoop_other {g : Generator N} {start end_ out remaining i : Nat} {block block' : List ℚ}
    (hg : ∀ {heap start end_ s out block heap' block'}, s ∈ p.segments →
      g heap start end_ s out block = .ok (heap', block') → heap' = heap)
    (h : getLoop g start end_ out remaining i heap p block = .ok (heap', q, block')) : heap' = heap := by
  induction remaining generalizing i heap p block with
  | zero =>
    cases h
    rfl
  | succ remaining ih =>
    obtain ⟨s, hs, h⟩ := bind_eq_ok.1 h
    obtain ⟨first, -, h⟩ := bind_eq_ok.1 h
    obtain ⟨last, -, h⟩ := bind_eq_ok.1 h
    simp only [] at h
    split at h
    · cases h
      rfl
    · split at h
      · exact ih (p := { p with previousStart := start, currentSegmentIndex := i }) hg h
      · obtain ⟨⟨heap₁, block₁⟩, hgen, h⟩ := bind_eq_ok.1 h
        rw [ih (p := { p with previousStart := start, currentSegmentIndex := i }) hg h]
        exact hg (List.mem_of_getElem? (read_eq_ok.1 hs)) hgen

section
variable [DecidableEq N]

theorem SameCells.update (hcells : SameCells Resumes heap heap') (n : N) {c c' : Option (Cell N)}
    (hcell : SameCell Resumes c c') : SameCells Resumes (Function.update heap n c) (Function.update heap' n c') := by
  intro m
  rcases eq_or_ne m n with rfl | hm
  · rwa [Function.update_self, Function.update_self]
  · rw [Function.update_of_ne hm, Function.update_of_ne hm]
    exact hcells m

theorem store_same (hpq : Resumes p q) (hcells : SameCells Resumes heap heap') (n : N) :
    Agree (SameCells Resumes) (heap.store n (.path p)) (heap'.store n (.path q)) := by
  unfold Heap.store
  rw [hcells.isSome_eq n]
  split
  · exact .ok (hcells.update n (.path hpq))
  · exact .error _

theorem generate_same (depth : Nat) : GenSame (generate (N := N) depth) := by
  induction depth using Nat.strongRecOn with
  | ind depth ih =>
  intro heap heap' start end_ s out block hcells
  -- all but nested paths leave the heaps as they are
  have hsame : ∀ {α : Type} {x : Exec α} {f : α → List ℚ},
      Agree (fun r r' => r'.2 = r.2 ∧ SameCells Resumes r.1 r'.1) (x >>= fun a => .ok (heap, f a))
        (x >>= fun a => .ok (heap', f a)) := by
    intro α x f
    apply (agree_refl x).bind
    rintro a _ rfl
    exact .ok ⟨rfl, hcells⟩
  unfold generate
  split
  · exact hsame
  · exact hsame
  · exact hsame
  · exact hsame
  · exact hsame
  · rw [loadData_same hcells]
    apply (agree_refl _).bind
    rintro data _ rfl
    exact hsame
  · rw [loadData_same hcells]
    apply (agree_refl _).bind
    rintro data _ rfl
    exact hsame
  · apply (loadPath_same hcells s.data).bind
    rintro ⟨n, p⟩ ⟨n', q⟩ ⟨hn, hpq, hp, hq⟩
    obtain rfl : n' = n := hn
    cases depth with
    | zero => exact .error _
    | succ depth =>
      apply (agree_refl _).bind
      rintro first _ rfl
      apply (getWith_same (ih depth (Nat.lt_succ_self depth)) _ _ out block hpq hcells).bind
      rintro ⟨heap₁, p₁, block₁⟩ ⟨heap₁', q₁, block₁'⟩ ⟨hblock, hpq₁, hcells₁⟩
      obtain rfl : block₁' = block₁ := hblock
      apply (store_same hpq₁ hcells₁ n').bind
      rintro heap₂ heap₂' hcells₂
      exact .ok ⟨rfl, hcells₂⟩
  · exact .error _

/-- Without data there is nothing on the heap to change. -/
theorem generate_other {depth start end_ out : Nat} {block block' : List ℚ} (hs : s.data.data = none)
    (h : generate depth heap start end_ s out block = .ok (heap', block')) : heap' = heap := by
  have hsame : ∀ {α : Type} {x : Exec α} {f : α → List ℚ},
      (x >>= fun a => .ok (heap, f a)) = .ok (heap', block') → heap' = heap := by
    intro α x f hx
    obtain ⟨a, -, hok⟩ := bind_eq_ok.1 hx
    cases hok
    rfl
  unfold generate at h
  split at h
  · exact hsame h
  · exact hsame h
  · exact hsame h
  · exact hsame h
  · exact hsame h
  · obtain ⟨data, -, h⟩ := bind_eq_ok.1 h
    exact hsame h
  · obtain ⟨data, -, h⟩ := bind_eq_ok.1 h
    exact hsame h
  · rw [loadPath, hs] at h
    cases h
  · cases h

theorem gets_other {depth : Nat} {requests : List (Nat × Nat × List ℚ)} {blocks : List (List ℚ)}
    (hp : own p.segments = []) (h : gets depth heap p requests = .ok (heap', q, blocks)) :
    heap' = heap := by
  induction requests generalizing heap p blocks with
  | nil =>
    cases h
    rfl
  | cons request requests ih =>
    obtain ⟨start, end_, block⟩ := request
    obtain ⟨⟨heap₁, p₁, block₁⟩, hget, h⟩ := bind_eq_ok.1 h
    obtain ⟨⟨heap₂, p₂, blocks₂⟩, hgets, hok⟩ := bind_eq_ok.1 h
    cases hok
    have hstays : Stays heap p heap₁ p₁ := getLoop_stays (generate_sameCells depth) hget
    rw [ih (hstays.path.segments ▸ hp) hgets]
    exact getLoop_other (fun hmem hgen => generate_other (List.filterMap_eq_nil_iff.1 hp _ hmem) hgen) hget

theorem gets_same (depth : Nat) (requests : List (Nat × Nat × List ℚ)) (p : Path (Handle N))
    (hcells : SameCells Resumes heap heap') :
    Agree (fun r r' => r'.2 = r.2 ∧ SameCells Resumes r.1 r'.1) (gets depth heap p requests)
      (gets depth heap' p requests) := by
  induction requests generalizing heap heap' p with
  | nil => exact .ok ⟨rfl, hcells⟩
  | cons request requests ih =>
    obtain ⟨start, end_, block⟩ := request
    apply (getLoop_same (generate_same depth) start end_ 0 _ _ p block hcells).bind
    rintro ⟨heap₁, p₁, block₁⟩ ⟨heap₁', _, _⟩ ⟨⟨⟩, hcells₁⟩
    apply (ih p₁ hcells₁).bind
    rintro ⟨heap₂, p₂, blocks⟩ ⟨heap₂', _, _⟩ ⟨⟨⟩, hcells₂⟩
    exact .ok ⟨rfl, hcells₂⟩

theorem freeData_same (hcells : SameCells Resumes heap heap') (h : Handle N) :
    Agree (SameCells Resumes) (freeData heap h) (freeData heap' h) := by
  unfold freeData
  split
  · rename_i n _ _
    unfold Heap.free
    rw [hcells.isSome_eq n]
    split
    · exact .ok (hcells.update n .none)
    · exact .error _
  · exact .ok hcells

theorem freeLoop_same (segs : List (Segment (Handle N))) (remaining i : Nat) (hcells : SameCells Resumes heap heap') :
    Agree (SameCells Resumes) (freeLoop segs remaining i heap) (freeLoop segs remaining i heap') := by
  induction remaining generalizing i heap heap' with
  | zero => exact .ok hcells
  | succ remaining ih =>
    rw [freeLoop, freeLoop]
    apply (agree_refl _).bind
    rintro s _ rfl
    exact (freeData_same hcells s.data).bind fun _ _ hcells₁ => ih (i + 1) hcells₁

/-! ## Passing the array again -/

/-- What is drawn. -/
def Outcome.drawn (o : Outcome N) : Byte × List (List ℚ) := (o.status, o.blocks)

/-- Passed again after a call that left `o`, the array keeps its points, and
gives the samples that it gives before that call. -/
structure Redrawn (heap : Cells N) (segs : List (Segment (Handle N))) (o : Outcome N) : Prop where
  points : PointsStay o.heap o.segments
  set : ∀ depth requests,
    (draw depth o.heap o.segments requests).map Outcome.drawn = (draw depth heap segs requests).map Outcome.drawn
  segmentsGet : ∀ depth requests,
    (session depth o.heap o.segments requests).map Outcome.drawn = (session depth heap segs requests).map Outcome.drawn

/-- Where the nested paths resume as they did, so are the samples. -/
theorem drawn_eq {ts : List (Segment (Handle N))} (hprepare : prepareLoop heap' ⟨0, 0⟩ ts = prepareLoop heap ⟨0, 0⟩ segs)
    (hcells : SameCells Resumes heap heap') (depth : Nat) (requests : List (Nat × Nat × List ℚ)) :
    (draw depth heap' ts requests).map Outcome.drawn = (draw depth heap segs requests).map Outcome.drawn ∧
      (session depth heap' ts requests).map Outcome.drawn = (session depth heap segs requests).map Outcome.drawn := by
  unfold draw session
  rw [hprepare]
  generalize prepareLoop heap ⟨0, 0⟩ segs = x
  constructor
  · refine (Agree.map_eq ((agree_refl x).bind ?_)).symm
    rintro ⟨status, us⟩ _ rfl
    dsimp only
    split
    · exact .ok rfl
    · apply (gets_same depth requests _ hcells).bind
      rintro ⟨heap₁, p₁, blocks⟩ ⟨heap₁', _, _⟩ ⟨⟨⟩, -⟩
      exact .ok rfl
  · refine (Agree.map_eq ((agree_refl x).bind ?_)).symm
    rintro ⟨status, us⟩ _ rfl
    dsimp only
    split
    · exact .ok rfl
    · apply (gets_same depth requests _ hcells).bind
      rintro ⟨heap₁, p₁, blocks⟩ ⟨heap₁', _, _⟩ ⟨⟨⟩, hcells₁⟩
      apply (freeLoop_same _ _ _ hcells₁).bind
      rintro _ _ -
      exact .ok rfl

/-- What was freed stays freed. -/
theorem freeLoop_noAlloc (remaining i : Nat) (hfree : freeLoop segs remaining i heap = .ok heap') : NoAlloc heap heap' := by
  induction remaining generalizing i heap with
  | zero =>
    cases hfree
    exact fun _ => id
  | succ remaining ih =>
    rw [freeLoop] at hfree
    obtain ⟨s, -, hfree⟩ := bind_eq_ok.1 hfree
    obtain ⟨heap₁, hheap₁, hfree⟩ := bind_eq_ok.1 hfree
    exact fun n hn => ih (i + 1) hfree n (freeData_noAlloc hheap₁ n hn)

/-- The data of the segments is freed. -/
theorem freeLoop_frees (before : List (Segment (Handle N)))
    (hfree : freeLoop (before ++ segs) segs.length before.length heap = .ok heap')
    (hs : ⟨some n, true⟩ ∈ segs.map Segment.data) : heap' n = none := by
  induction segs generalizing before heap with
  | nil => cases hs
  | cons s segs ih =>
    rw [List.length_cons, freeLoop, read_length, ok_bind] at hfree
    obtain ⟨heap₁, hheap₁, hfree⟩ := bind_eq_ok.1 hfree
    rcases List.mem_cons.1 hs with hs | hs
    · rw [← hs, freeData_some, Heap.free] at hheap₁
      split at hheap₁ <;> cases hheap₁
      exact freeLoop_noAlloc _ _ hfree n (Function.update_self ..)
    · exact ih (before ++ [s]) (by simpa using hfree) hs

/-- What `spline_path_set` and calls of `spline_path_get` leave. -/
theorem left_of_draw {depth : Nat} {requests : List (Nat × Nat × List ℚ)} {o : Outcome N}
    (h : draw depth heap segs requests = .ok o) :
    prepareLoop heap ⟨0, 0⟩ segs = .ok (0, o.segments) ∧ SameCells SamePath heap o.heap ∧
      (requests = [] → o.heap = heap) := by
  obtain ⟨⟨status, ts⟩, hprepare, h⟩ := bind_eq_ok.1 h
  obtain ⟨rfl, -⟩ := prepareLoop_ok hprepare
  simp only [ne_eq, not_true_eq_false, if_false] at h
  obtain ⟨⟨heap₁, q, blocks⟩, hgets, h⟩ := bind_eq_ok.1 h
  cases h
  refine ⟨hprepare, (gets_stays depth hgets).cells, ?_⟩
  rintro rfl
  cases hgets
  rfl

section
variable (hs : List.Forall₂ (fun s b => b.InMemory heap s) segs bs)
include hs

/-- What is left after the path has been freed too. -/
theorem left_of_session {depth : Nat} {requests : List (Nat × Nat × List ℚ)} {o : Outcome N}
    (h : session depth heap segs requests = .ok o) :
    prepareLoop heap ⟨0, 0⟩ segs = .ok (0, o.segments) ∧ (∀ n ∈ own segs, o.heap n = none) ∧
      (own segs = [] → o.heap = heap) := by
  obtain ⟨⟨status, ts⟩, hprepare, h⟩ := bind_eq_ok.1 h
  obtain ⟨rfl, hdata⟩ := prepareLoop_ok hprepare
  simp only [ne_eq, not_true_eq_false, if_false] at h
  obtain ⟨⟨heap₁, q, blocks⟩, hgets, h⟩ := bind_eq_ok.1 h
  obtain ⟨heap₂, hfree, h⟩ := bind_eq_ok.1 h
  cases h
  obtain ⟨⟨hsegs, hcount⟩, -⟩ := gets_stays depth hgets
  rw [free, hsegs, hcount] at hfree
  refine ⟨hprepare, fun n hn => freeLoop_frees [] hfree (hdata ▸ (data_of_own hs hn).1), fun hown => ?_⟩
  have hown' : own ts = [] := (own_eq hdata).trans hown
  have hfrees : Frees ts := by
    intro t ht
    obtain ⟨s, hmem, hst⟩ := List.mem_map.1 (hdata ▸ List.mem_map_of_mem ht)
    rw [← hst]
    exact frees_of_inMemory hs s hmem
  have heq : freeLoop ts ts.length 0 heap₁ = .ok (heap₁.without (own ts)) :=
    freeLoop_eq [] hfrees (by simp [hown']) (by simp [hown'])
  rw [heq, hown', Heap.without_nil] at hfree
  cases hfree
  exact gets_other hown' hgets

theorem redrawn_of_settled (hsettled : Settled ⟨0, 0⟩ bs) {o : Outcome N}
    (h : prepareLoop heap ⟨0, 0⟩ segs = .ok (0, o.segments)) (hcells : SameCells Resumes heap o.heap) :
    Redrawn heap segs o := by
  obtain ⟨segs₂, hagain, -, heq⟩ := prepareLoop_again hs h hcells.of_resumes
  rw [heq hsettled] at hagain
  have hdrawn := drawn_eq (hagain.trans h.symm) hcells
  exact ⟨(pointsStay_iff hs h hcells.of_resumes).2 hsettled, fun depth requests => (hdrawn depth requests).1,
    fun depth requests => (hdrawn depth requests).2⟩

/-- With data freed, no call returns again. -/
theorem own_eq_nil_of_redrawn {depth : Nat} {requests : List (Nat × Nat × List ℚ)} {o : Outcome N}
    (h : session depth heap segs requests = .ok o) (hredrawn : Redrawn heap segs o) : own segs = [] := by
  obtain ⟨hprepare, hfreed, -⟩ := left_of_session hs h
  obtain ⟨-, hdata⟩ := prepareLoop_ok hprepare
  rw [List.eq_nil_iff_forall_not_mem]
  intro n hn
  -- the first call would return again
  have hsame := hredrawn.segmentsGet depth requests
  rw [h] at hsame
  cases hagain : session depth o.heap o.segments requests with
  | ok o' => exact session_freed depth requests (hfreed n hn) (hdata ▸ (data_of_own hs hn).1) o' hagain
  | error e =>
    rw [hagain] at hsame
    cases hsame

/-- Preparing an array twice leaves its points as they are exactly if it is
settled. Passed again after `spline_path_set`, an array keeps its points and
gives the same samples exactly then too, and after `spline_path_segments_get`
if moreover it has no data that was freed. After calls of `spline_path_get` on
the path that `spline_path_set` made, it does so only if it is settled, and does
so if also each nested path resumes where it did before. -/
theorem prepared_again :
    (∀ status segs₁, prepareLoop heap ⟨0, 0⟩ segs = .ok (status, segs₁) →
      (PointsStay heap segs₁ ↔ Settled ⟨0, 0⟩ bs)) ∧
    (∀ depth o, draw depth heap segs [] = .ok o → (Redrawn heap segs o ↔ Settled ⟨0, 0⟩ bs)) ∧
    (∀ depth requests o, session depth heap segs requests = .ok o →
      (Redrawn heap segs o ↔ Settled ⟨0, 0⟩ bs ∧ own segs = [])) ∧
    ∀ depth requests o, draw depth heap segs requests = .ok o →
      (Redrawn heap segs o → Settled ⟨0, 0⟩ bs) ∧
      (Settled ⟨0, 0⟩ bs → SameCells Resumes heap o.heap → Redrawn heap segs o) := by
  refine ⟨fun _ _ h => pointsStay_iff hs h (.refl SamePath.refl heap), fun depth o h => ?_, fun depth requests o h => ?_,
    fun depth requests o h => ?_⟩
  · obtain ⟨hprepare, hcells, hheap⟩ := left_of_draw h
    constructor
    · exact fun hredrawn => (pointsStay_iff hs hprepare hcells).1 hredrawn.points
    · exact fun hsettled => redrawn_of_settled hs hsettled hprepare (hheap rfl ▸ .refl Resumes.refl heap)
  · obtain ⟨hprepare, -, hheap⟩ := left_of_session hs h
    constructor
    · intro hredrawn
      have hown := own_eq_nil_of_redrawn hs h hredrawn
      exact ⟨(pointsStay_iff hs hprepare (hheap hown ▸ .refl SamePath.refl heap)).1 hredrawn.points, hown⟩
    · rintro ⟨hsettled, hown⟩
      exact redrawn_of_settled hs hsettled hprepare (hheap hown ▸ .refl Resumes.refl heap)
  · obtain ⟨hprepare, hcells, -⟩ := left_of_draw h
    exact ⟨fun hredrawn => (pointsStay_iff hs hprepare hcells).1 hredrawn.points,
      fun hsettled hresume => redrawn_of_settled hs hsettled hprepare hresume⟩

end

end

/-- A line, an arc from its end on along the same y, a power segment and a path of another one. -/
def powerDrawn : Segment (Handle Nat) × Cells Nat :=
  allocSegment nested.2 (.power fun t _ => t) 12 4 3 (some 2)

def segmentsDrawn : List (Segment (Handle Nat)) :=
  [plain (SplinePath.line 4 2), plain (SplinePath.bezierArc 8 2 2), powerDrawn.1, nested.1]

def nestedPath : SplinePath.Path Data :=
  { segmentsCount := 1, segments := [SplinePath.power (fun t _ => t) 2 8 2], currentSegmentIndex := 0, previousStart := 0 }

def builtDrawn : List Built := [.line 4 2, .bezierArc 8 2 2, .power (fun t _ => t) 12 4 3, .path nestedPath]

theorem segmentsDrawn_inMemory : List.Forall₂ (fun s b => b.InMemory powerDrawn.2 s) segmentsDrawn builtDrawn := by
  have hsecond : Heap.alloc powered.2 (some 1) = some 1 := Heap.alloc_eq_some.2 ⟨rfl, rfl⟩
  have hthird : Heap.alloc nested.2 (some 2) = some 2 := Heap.alloc_eq_some.2 ⟨rfl, rfl⟩
  have hnested : (Built.path nestedPath).InMemory nested.2 nested.1 := path_inMemory rfl hsecond
  refine .cons ⟨⟨rfl, rfl, rfl, rfl⟩, rfl⟩ (.cons ⟨⟨rfl, rfl, rfl, rfl⟩, rfl⟩ (.cons ?_ (.cons ?_ .nil)))
  · exact power_inMemory (fun t _ => t) 12 4 3 hthird
  · exact hnested.congr fun n hn => by
      cases hn
      rfl

/-- Passed to `spline_path_set` twice it draws the same, but not after
`spline_path_segments_get`, which frees the data of the last two segments. -/
theorem prepared_again_drawn :
    (∃ o, draw 2 powerDrawn.2 segmentsDrawn [] = .ok o ∧ Redrawn powerDrawn.2 segmentsDrawn o) ∧
      ∃ o, segmentsGet 2 powerDrawn.2 segmentsDrawn 0 4 [0, 0, 0, 0] = .ok o ∧
        ¬ Redrawn powerDrawn.2 segmentsDrawn o := by
  obtain ⟨-, hset, hsegments, -⟩ := prepared_again segmentsDrawn_inMemory
  have hsettled : Settled ⟨0, 0⟩ builtDrawn := by
    refine ⟨trivial, fun last hlast => ?_⟩
    cases hlast
    refine ⟨.inr (by norm_num), fun last hlast => ?_⟩
    cases hlast
    refine ⟨trivial, fun last hlast => ?_⟩
    cases hlast
    exact ⟨trivial, fun _ _ => trivial⟩
  refine ⟨⟨_, rfl, (hset 2 _ rfl).2 hsettled⟩, _, rfl, fun hredrawn => ?_⟩
  have hown := ((hsegments 2 [(0, 4, [0, 0, 0, 0])] _ rfl).1 hredrawn).2
  cases hown

/-- A path of two lines, as one segment. -/
def twoLines : Segment (Handle Nat) × Cells Nat :=
  let second := { plain (SplinePath.line 2 2) with points := [⟨1, 1⟩, ⟨2, 2⟩, ⟨0, 0⟩, ⟨0, 0⟩] }
  path (fun _ => none) ⟨2, [plain (SplinePath.line 1 1), second], 0, 0⟩ (some 0)

/-- Passed to `spline_path_set` again, it resumes at the second line. -/
example : (do
    let o ← draw 1 twoLines.2 [twoLines.1] [(0, 2, [9, 9])]
    let again ← draw 1 o.heap o.segments [(0, 2, [9, 9])]
    return (o.blocks, again.blocks)).toOption = some ([[0, 1]], [[9, 1]]) := by
  decide +kernel

/-- A rising arc is a straight line the second time: its control point is at
`(10, 0)`, and 0 is taken for its curvature. -/
theorem arc_moves : ∃ o, draw 0 (fun _ => none : Cells Nat) [plain (SplinePath.bezierArc 10 10 1)] [] = .ok o ∧
    o.segments.map Segment.points = [[⟨0, 0⟩, ⟨10, 0⟩, ⟨10, 10⟩, ⟨0, 0⟩]] ∧ ¬ PointsStay o.heap o.segments := by
  refine ⟨_, rfl, by decide +kernel, ?_⟩
  rintro ⟨status, segs', h, hsame⟩
  cases h
  exact absurd hsame (by decide +kernel)

end Memory

end SphSc.SplinePath

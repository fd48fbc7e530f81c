import SphSc.Lib.Heap
import SphSc.Lib.Links
import SphSc.SplinePath.Model
/-!
# Segments in memory

`data` of a segment is a pointer. What it points to was allocated by the
constructor, is shared by the copies of the segment, and is freed by
`spline_path_free`. The functions here read and write it on the heap.
-/
open Exec Ring Pieces Links

namespace SphSc.SplinePath.Memory

variable {N : Type} [DecidableEq N]

/-- `data` and `free` of a segment. `free` is the function `free` or null. -/
structure Handle (N : Type) where
  data : Option N
  free : Bool
  deriving DecidableEq

/-- What is allocated for a segment. -/
inductive Cell (N : Type) where
  | path (p : Path (Handle N))
  | value (gamma : ℚ)

abbrev Cells (N : Type) := Heap N (Cell N)

def noData : Handle N := ⟨none, false⟩

/-! ## Constructors -/

/-- `spline_path_declare_segment` -/
def declareSegment : Segment (Handle N) :=
  { pointsCount := 0, points := List.replicate 4 ⟨0, 0⟩, generate := none, prepare := none, data := noData }

def constant : Segment (Handle N) :=
  { declareSegment with generate := some .constant, prepare := some .constant, pointsCount := 2 }

/-- `spline_path_path`; the segment is a constant where `malloc` fails. -/
def path (heap : Cells N) (p : Path (Handle N)) (block : Option N) : Segment (Handle N) × Cells N :=
  match heap.alloc block with
  | none => (constant, heap)
  | some n =>
    ({ declareSegment (N := N) with
        data := ⟨some n, true⟩, generate := some .path, pointsCount := 2, prepare := some .path },
      Function.update heap n (some (.path p)))

/-- `spline_path_alloc_segment`; the segment is a constant where `malloc` fails. -/
def allocSegment (heap : Cells N) (gen : Generate) (x y gamma : ℚ) (block : Option N) :
    Segment (Handle N) × Cells N :=
  match heap.alloc block with
  | none => (constant, heap)
  | some n =>
    ({ declareSegment (N := N) with
        generate := some gen, pointsCount := 2, points := (List.replicate 4 ⟨0, 0⟩).set 1 ⟨x, y⟩,
        data := ⟨some n, true⟩ },
      Function.update heap n (some (.value gamma)))

/-! ## Preparing segments -/

section
variable (heap : Cells N)

/-- `*(spline_path_t*)s->data` -/
def loadPath (h : Handle N) : Exec (N × Path (Handle N)) := do
  let n ← deref h.data
  match ← heap.load n with
  | .path p => return (n, p)
  | .value _ => .error .outOfBounds

def pathPrepare (s : Segment (Handle N)) : Exec (Byte × Segment (Handle N)) := do
  let (_, p) ← loadPath heap s.data
  let pathEnd ← p.end_
  let start ← read s.points 0
  let s ← s.setPoint 1 ⟨start.x + pathEnd.x, pathEnd.y⟩
  return (0, s)

def prepare (s : Segment (Handle N)) : Exec (Byte × Segment (Handle N)) :=
  match s.prepare with
  | none => return (0, s)
  | some .constant => constantPrepare s
  | some .path => pathPrepare heap s
  | some .bezierArc => bezierArcPrepare s

/-- The loop of `spline_path_prepare_segments`, on the segments not yet prepared. -/
def prepareLoop : (start : Point) → List (Segment (Handle N)) → Exec (Byte × List (Segment (Handle N)))
  | _, [] => return (0, [])
  | start, s :: segments => do
    let s ← s.setPoint 0 start
    let (status, s) ← prepare heap s
    if status ≠ 0 then return (1, s :: segments)
    else
      let start ← s.lastPoint
      let (status, segments) ← prepareLoop start segments
      return (status, s :: segments)

/-- What `data` points to, for the functions that read a value there. -/
def loadData (h : Handle N) : Exec Data :=
  match h.data with
  | none => return .null
  | some n => do
    match ← heap.load n with
    | .value gamma => return .value gamma
    | .path _ => .error .outOfBounds

end

/-! ## Sampling -/

/-- A call of `s->generate`, which may change the heap. -/
abbrev Generator (N : Type) :=
  Cells N → (start end_ : Nat) → Segment (Handle N) → (out : Nat) → List ℚ → Exec (Cells N × List ℚ)

/-- The loop of `spline_path_get`; `remaining` is `path->segments_count - i`. -/
def getLoop (generate : Generator N) (start end_ out : Nat) :
    (remaining i : Nat) → Cells N → Path (Handle N) → List ℚ → Exec (Cells N × Path (Handle N) × List ℚ)
  | 0, _, heap, path, block => return (heap, path, block)
  | remaining + 1, i, heap, path, block => do
    let s ← read path.segments i
    let sStart := toSize (← read s.points 0).x
    let sEnd := toSize (← s.lastPoint).x
    let path := { path with previousStart := start }
    if sStart > end_ then return (heap, path, block)
    else if sEnd < start then
      getLoop generate start end_ out remaining (i + 1) heap { path with currentSegmentIndex := i } block
    else
      let outStart := if sStart > start then wsub sStart start else 0
      let sStart := if sStart < start then start else sStart
      let sEnd := if sEnd > end_ then end_ else sEnd
      let (heap, block) ← generate heap sStart sEnd s (out + outStart) block
      getLoop generate start end_ out remaining (i + 1) heap { path with currentSegmentIndex := i } block

def getWith (generate : Generator N) (heap : Cells N) (path : Path (Handle N)) (start end_ out : Nat)
    (block : List ℚ) : Exec (Cells N × Path (Handle N) × List ℚ) :=
  let i := path.resumeIndex start
  getLoop generate start end_ out (path.segmentsCount - i) i heap path block

/-- What a call of `s->generate` does. The nested path is changed where it is,
which no other path can see before the call returns. -/
def generate : (depth : Nat) → Generator N
  | depth, heap, start, end_, s, out, block =>
    match s.generate with
    | some .move => do return (heap, ← moveGenerate start end_ out block)
    | some .constant => do return (heap, ← constantGenerate start end_ s out block)
    | some .line => do return (heap, ← lineGenerate start end_ s out block)
    | some .bezier1 => do return (heap, (← bezier1Generate (word + 1) start end_ s out block).2)
    | some .bezier2 => do return (heap, (← bezier2Generate (word + 1) start end_ s out block).2)
    | some (.power pow) => do
      let data ← loadData heap s.data
      return (heap, ← powerGenerate pow start end_ { s with data } out block)
    | some (.exponential exp) => do
      let data ← loadData heap s.data
      return (heap, ← exponentialGenerate exp start end_ { s with data } out block)
    | some .path => do
      let (n, p) ← loadPath heap s.data
      match depth with
      | 0 => .error .outOfFuel
      | depth + 1 =>
        let first ← read s.points 0
        let offset := toSize first.x
        let (heap, p, block) ← getWith (generate depth) heap p (wsub start offset) (wsub end_ offset) out block
        let heap ← heap.store n (.path p)
        return (heap, block)
    | none => .error .outOfBounds

/-! ## Freeing -/

/-- `s->free(s->data)`, where there is a function. Null is nothing to free. -/
def freeData (heap : Cells N) (h : Handle N) : Exec (Cells N) :=
  match h.free, h.data with
  | true, some n => heap.free n
  | _, _ => return heap

/-- The loop of `spline_path_free`; `remaining` is `path.segments_count - i`. -/
def freeLoop (segments : List (Segment (Handle N))) : (remaining i : Nat) → Cells N → Exec (Cells N)
  | 0, _, heap => return heap
  | remaining + 1, i, heap => do
    let s ← read segments i
    let heap ← freeData heap s.data
    freeLoop segments remaining (i + 1) heap

def free (heap : Cells N) (path : Path (Handle N)) : Exec (Cells N) :=
  freeLoop path.segments path.segmentsCount 0 heap

/-! ## Sessions -/

/-- Samples of the path are got for each request, a start, an end and a block. -/
def gets (depth : Nat) : Cells N → Path (Handle N) → List (Nat × Nat × List ℚ) →
    Exec (Cells N × Path (Handle N) × List (List ℚ))
  | heap, path, [] => return (heap, path, [])
  | heap, path, (start, end_, block) :: requests => do
    let (heap, path, block) ← getWith (generate depth) heap path start end_ 0 block
    let (heap, path, blocks) ← gets depth heap path requests
    return (heap, path, block :: blocks)

/-- What is left after a call: the status, the heap, the array as prepared, and the samples. -/
structure Outcome (N : Type) where
  status : Byte
  heap : Cells N
  segments : List (Segment (Handle N))
  blocks : List (List ℚ)

/-- `spline_path_set`, and `spline_path_get` for each request. -/
def draw (depth : Nat) (heap : Cells N) (segments : List (Segment (Handle N)))
    (requests : List (Nat × Nat × List ℚ)) : Exec (Outcome N) := do
  let (status, segments) ← prepareLoop heap ⟨0, 0⟩ segments
  if status ≠ 0 then return ⟨1, heap, segments, []⟩
  else
    let path : Path (Handle N) :=
      { segmentsCount := segments.length, segments, currentSegmentIndex := 0, previousStart := 0 }
    let (heap, _, blocks) ← gets depth heap path requests
    return ⟨0, heap, segments, blocks⟩

/-- `spline_path_set`, `spline_path_get` for each request, and `spline_path_free`. -/
def session (depth : Nat) (heap : Cells N) (segments : List (Segment (Handle N)))
    (requests : List (Nat × Nat × List ℚ)) : Exec (Outcome N) := do
  let (status, segments) ← prepareLoop heap ⟨0, 0⟩ segments
  if status ≠ 0 then return ⟨1, heap, segments, []⟩
  else
    let path : Path (Handle N) :=
      { segmentsCount := segments.length, segments, currentSegmentIndex := 0, previousStart := 0 }
    let (heap, path, blocks) ← gets depth heap path requests
    let heap ← free heap path
    return ⟨0, heap, segments, blocks⟩

/-- `spline_path_segments_get` -/
def segmentsGet (depth : Nat) (heap : Cells N) (segments : List (Segment (Handle N))) (start end_ : Nat)
    (block : List ℚ) : Exec (Outcome N) :=
  session depth heap segments [(start, end_, block)]

/-! ## Segments without a heap -/

section
variable (depth : Nat)

/-- The same requests, where `data` of a segment is what it points to. -/
def treeGets : Path Data → List (Nat × Nat × List ℚ) → Exec (Path Data × List (List ℚ))
  | path, [] => return (path, [])
  | path, (start, end_, block) :: requests => do
    let (path, block) ← get depth path start end_ block
    let (path, blocks) ← treeGets path requests
    return (path, block :: blocks)

def treeSession (segments : List (Segment Data)) (requests : List (Nat × Nat × List ℚ)) :
    Exec (Byte × List (List ℚ)) := do
  match ← set segments with
  | (_, none) => return (1, [])
  | (_, some path) =>
    let (_, blocks) ← treeGets depth path requests
    return (0, blocks)

end

/-! ## What the heap holds -/

/-- The segments differ in what `data` is only. -/
structure SameSegment (s : Segment (Handle N)) (s' : Segment Data) : Prop where
  pointsCount : s'.pointsCount = s.pointsCount
  points : s'.points = s.points
  generate : s'.generate = s.generate
  prepare : s'.prepare = s.prepare

/-- What a handle stands for, and the blocks that it uses, those of the segments
of a nested path in turn. No block is used twice. -/
inductive Holds (heap : Cells N) : Handle N → Data → List N → Prop
  | null : Holds heap noData .null []
  | value {n : N} {gamma : ℚ} : heap n = some (.value gamma) → Holds heap ⟨some n, true⟩ (.value gamma) [n]
  | path {n : N} {p : Path (Handle N)} {p' : Path Data} {bs : List (List N)} : heap n = some (.path p) →
    p'.segmentsCount = p.segmentsCount → p'.currentSegmentIndex = p.currentSegmentIndex →
    p'.previousStart = p.previousStart → p.segments.length = bs.length → p'.segments.length = bs.length →
    (∀ (i : Nat) s s', p.segments[i]? = some s → p'.segments[i]? = some s' → SameSegment s s') →
    (∀ (i : Nat) s s' b, p.segments[i]? = some s → p'.segments[i]? = some s' → bs[i]? = some b →
      Holds heap s.data s'.data b) →
    (n :: bs.flatten).Nodup → Holds heap ⟨some n, true⟩ (.path p') (n :: bs.flatten)

/-- The segments with the blocks that each of them uses. -/
structure SegsHold (heap : Cells N) (segs : List (Segment (Handle N))) (segs' : List (Segment Data))
    (bs : List (List N)) : Prop where
  length : segs.length = bs.length
  length' : segs'.length = bs.length
  same : ∀ (i : Nat) s s', segs[i]? = some s → segs'[i]? = some s' → SameSegment s s'
  hold : ∀ (i : Nat) s s' b, segs[i]? = some s → segs'[i]? = some s' → bs[i]? = some b →
    Holds heap s.data s'.data b

structure PathHolds (heap : Cells N) (p : Path (Handle N)) (p' : Path Data) (bs : List (List N)) : Prop where
  count : p'.segmentsCount = p.segmentsCount
  index : p'.currentSegmentIndex = p.currentSegmentIndex
  start : p'.previousStart = p.previousStart
  segments : SegsHold heap p.segments p'.segments bs

variable {heap heap' : Cells N} {h : Handle N} {data : Data} {b : List N} {bs : List (List N)} {n : N}
  {p : Path (Handle N)} {p' : Path Data} {segs : List (Segment (Handle N))} {segs' : List (Segment Data)}

omit [DecidableEq N] in
theorem Holds.congr (hh : Holds heap h data b) (hsame : ∀ n ∈ b, heap' n = heap n) : Holds heap' h data b := by
  induction hh with
  | null => exact .null
  | value hn => exact .value (by rw [hsame _ (by simp), hn])
  | path hn hcount hindex hstart hlen hlen' hsegments _ hnodup ih =>
    refine .path (by rw [hsame _ (by simp), hn]) hcount hindex hstart hlen hlen' hsegments ?_ hnodup
    intro i s s' b hs hs' hb
    refine ih i s s' b hs hs' hb fun m hm => hsame m ?_
    exact List.mem_cons_of_mem _ (List.mem_flatten_of_mem (List.mem_of_getElem? hb) hm)

omit [DecidableEq N] in
theorem Holds.nodup (hh : Holds heap h data b) : b.Nodup := by
  cases hh with
  | null => exact List.nodup_nil
  | value => exact List.nodup_singleton _
  | path _ _ _ _ _ _ _ _ hnodup => exact hnodup

omit [DecidableEq N] in
theorem PathHolds.holds (hp : PathHolds heap p p' bs) (hn : heap n = some (.path p)) (hnodup : (n :: bs.flatten).Nodup) :
    Holds heap ⟨some n, true⟩ (.path p') (n :: bs.flatten) :=
  .path hn hp.count hp.index hp.start hp.segments.length hp.segments.length' hp.segments.same hp.segments.hold hnodup

omit [DecidableEq N] in
/-- A handle that stands for a path. -/
theorem Holds.of_path (hh : Holds heap h (.path p') b) : ∃ n p bs, h = ⟨some n, true⟩ ∧ b = n :: bs.flatten ∧
    heap n = some (.path p) ∧ PathHolds heap p p' bs := by
  cases hh with
  | path hn hcount hindex hstart hlen hlen' hsegments hholds hnodup =>
    exact ⟨_, _, _, rfl, rfl, hn, hcount, hindex, hstart, hlen, hlen', hsegments, hholds⟩

omit [DecidableEq N] in
theorem SegsHold.congr (hs : SegsHold heap segs segs' bs) (hsame : ∀ n ∈ bs.flatten, heap' n = heap n) :
    SegsHold heap' segs segs' bs where
  length := hs.length
  length' := hs.length'
  same := hs.same
  hold i s s' b hi hi' hb :=
    (hs.hold i s s' b hi hi' hb).congr fun _ hn => hsame _ (List.mem_flatten_of_mem (List.mem_of_getElem? hb) hn)

omit [DecidableEq N] in
/-- The blocks of different segments are different. -/
theorem apart (hnodup : bs.flatten.Nodup) {i j : Nat} {b c : List N} (hb : bs[i]? = some b) (hc : bs[j]? = some c)
    (hij : i ≠ j) (hn : n ∈ b) : n ∉ c := by
  have hdisjoint := (List.nodup_flatten.1 hnodup).2
  rw [List.pairwise_iff_getElem] at hdisjoint
  obtain ⟨hi, rfl⟩ := List.getElem?_eq_some_iff.1 hb
  obtain ⟨hj, rfl⟩ := List.getElem?_eq_some_iff.1 hc
  rcases Nat.lt_or_gt_of_ne hij with hlt | hlt
  · exact fun hn' => hdisjoint i j hi hj hlt hn hn'
  · exact fun hn' => hdisjoint j i hj hi hlt hn' hn

omit [DecidableEq N] in
theorem Holds.alive (hh : Holds heap h data b) : ∀ n ∈ b, (heap n).isSome := by
  induction hh with
  | null => simp
  | value hn => simp [hn]
  | @path n p p' bs hn _ _ _ hlen hlen' _ _ _ ih =>
    intro m hm
    rcases List.mem_cons.1 hm with rfl | hm
    · simp [hn]
    · obtain ⟨b, hb, hm⟩ := List.mem_flatten.1 hm
      obtain ⟨i, hi⟩ := List.getElem?_of_mem hb
      have hlt : i < bs.length := (List.getElem?_eq_some_iff.1 hi).1
      exact ih i _ _ b (List.getElem?_eq_getElem (by omega)) (List.getElem?_eq_getElem (by omega)) hi m hm

omit [DecidableEq N] in
theorem SegsHold.alive (hs : SegsHold heap segs segs' bs) : ∀ n ∈ bs.flatten, (heap n).isSome := by
  intro n hn
  obtain ⟨b, hb, hn⟩ := List.mem_flatten.1 hn
  obtain ⟨i, hi⟩ := List.getElem?_of_mem hb
  have hlt : i < bs.length := (List.getElem?_eq_some_iff.1 hi).1
  have hlen := hs.length
  have hlen' := hs.length'
  exact (hs.hold i _ _ b (List.getElem?_eq_getElem (by omega)) (List.getElem?_eq_getElem (by omega)) hi).alive n hn

/-! ## Constructors make segments whose data is held -/

theorem allocSegment_holds {block : Option N} (gen : Generate) (x y gamma : ℚ) (hblock : heap.alloc block = some n) :
    SameSegment (allocSegment heap gen x y gamma block).1 (SplinePath.allocSegment gen x y gamma) ∧
      Holds (allocSegment heap gen x y gamma block).2 (allocSegment heap gen x y gamma block).1.data (.value gamma) [n] ∧
      ∀ m, (heap m).isSome → (allocSegment heap gen x y gamma block).2 m = heap m := by
  obtain ⟨-, hn⟩ := Heap.alloc_eq_some.1 hblock
  simp only [allocSegment, hblock]
  refine ⟨⟨rfl, rfl, rfl, rfl⟩, .value (Function.update_self ..), fun m hm => Function.update_of_ne ?_ ..⟩
  rintro rfl
  simp [hn] at hm

theorem path_holds {block : Option N} (hp : PathHolds heap p p' bs) (hnodup : bs.flatten.Nodup)
    (hblock : heap.alloc block = some n) : SameSegment (path heap p block).1 (SplinePath.path p') ∧
      Holds (path heap p block).2 (path heap p block).1.data (.path p') (n :: bs.flatten) ∧
      ∀ m, (heap m).isSome → (path heap p block).2 m = heap m := by
  obtain ⟨-, hn⟩ := Heap.alloc_eq_some.1 hblock
  have hfresh : ∀ m, (heap m).isSome → m ≠ n := by
    rintro m hm rfl
    simp [hn] at hm
  have hbs : n ∉ bs.flatten := fun hnb => hfresh n (hp.segments.alive n hnb) rfl
  simp only [path, hblock]
  refine ⟨⟨rfl, rfl, rfl, rfl⟩, ?_, fun m hm => Function.update_of_ne (hfresh m hm) ..⟩
  have hp' : PathHolds (Function.update heap n (some (.path p))) p p' bs :=
    ⟨hp.count, hp.index, hp.start, hp.segments.congr fun m hm =>
      Function.update_of_ne (hfresh m (hp.segments.alive m hm)) ..⟩
  exact hp'.holds (Function.update_self ..) (List.nodup_cons.2 ⟨hbs, hnodup⟩)

end SphSc.SplinePath.Memory

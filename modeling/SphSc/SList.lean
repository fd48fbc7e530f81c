import SphSc.Lib.Heap
import SphSc.Lib.Links
import SphSc.Lib.Shares
/-!
# The singly linked lists of `list.h`

The functions `sph_slist_declare_type` generates, on the nodes of the heap. Lists
are held by variables of their caller.
-/
open Exec Links

namespace SphSc.SList

variable {N E V : Type} [DecidableEq N]

/-- `name##_t` -/
structure Node (N E : Type) where
  next : Option N
  value : E
  deriving DecidableEq

/-- The nodes that are allocated. -/
abbrev Nodes (N E : Type) := Heap N (Node N E)

def addFront (heap : Nodes N E) (head : Option N) (value : E) (block : Option N) : Option N × Nodes N E :=
  match heap.alloc block with
  | none => (none, heap)
  | some node => (some node, Function.update heap node (some ⟨head, value⟩))

def removeFront (heap : Nodes N E) : (head : Option N) → Exec (Option N × Nodes N E)
  | none => return (none, heap)
  | some head => do
    let node ← heap.load head
    let heap ← heap.free head
    return (node.next, heap)

/-- A round of the loop of `destroy`. -/
def destroyRound (s : Option N × Nodes N E) : Exec ((Option N × Nodes N E) ⊕ Nodes N E) :=
  match s with
  | (none, heap) => return .inr heap
  | (some head, heap) => do
    let node ← heap.load head
    let heap ← heap.free head
    return .inl (node.next, heap)

def destroy (fuel : Nat) (heap : Nodes N E) (head : Option N) : Exec (Nodes N E) := loop destroyRound fuel (head, heap)

/-- A round of the loop of `count`. -/
def countRound (heap : Nodes N E) (s : BitVec 64 × Option N) : Exec ((BitVec 64 × Option N) ⊕ BitVec 64) :=
  match s with
  | (count, none) => return .inr count
  | (count, some head) => do
    let node ← heap.load head
    return .inl (count + 1, node.next)

def count (fuel : Nat) (heap : Nodes N E) (head : Option N) : Exec (BitVec 64) := loop (countRound heap) fuel (0, head)

def append (heap : Nodes N E) (head tail : Option N) : Exec (Nodes N E) :=
  match head with
  | none => return heap
  | some head => do
    let node ← heap.load head
    heap.store head { node with next := tail }

/-! ## Calls -/

/-- What a caller does with its variables. What `add_front` and `remove_front`
return is the variable's new value. `append` and `destroy` leave the pointers in
the variables as they are, and `clear` is the assignment of null. -/
inductive Call (V N E : Type) where
  | addFront (v : V) (value : E) (block : Option N)
  | removeFront (v : V)
  | append (v w : V)
  | count (v : V)
  | destroy (v : V)
  | clear (v : V)

/-- What a call returns, but for a pointer to a list. -/
inductive Result where
  /-- Whether it is not null. -/
  | list (found : Bool)
  | count (n : BitVec 64)
  | void
  deriving DecidableEq

structure State (V N E : Type) where
  heap : Nodes N E
  heads : V → Option N

variable [DecidableEq V]

def call (fuel : Nat) (s : State V N E) : Call V N E → Exec (State V N E × Result)
  | .addFront v value block =>
    let (head, heap) := addFront s.heap (s.heads v) value block
    return (⟨heap, Function.update s.heads v head⟩, .list head.isSome)
  | .removeFront v => do
    let (head, heap) ← removeFront s.heap (s.heads v)
    return (⟨heap, Function.update s.heads v head⟩, .list head.isSome)
  | .append v w => do
    let heap ← append s.heap (s.heads v) (s.heads w)
    return ({ s with heap }, .void)
  | .count v => do
    let n ← count fuel s.heap (s.heads v)
    return (s, .count n)
  | .destroy v => do
    let heap ← destroy fuel s.heap (s.heads v)
    return ({ s with heap }, .void)
  | .clear v => return ({ s with heads := Function.update s.heads v none }, .void)

def calls (fuel : Nat) (s : State V N E) : List (Call V N E) → Exec (State V N E × List Result)
  | [] => return (s, [])
  | c :: cs => do
    let (s, r) ← call fuel s c
    let (s, rs) ← calls fuel s cs
    return (s, r :: rs)

/-- Nothing is allocated. -/
def start : State V N E := ⟨fun _ => none, fun _ => none⟩

namespace Spec

structure Lists (V E : Type) where
  /-- `none` where a variable points to what is not its list any more. -/
  lists : V → Option (List E)
  /-- The elements that no list has any more and that were not removed. -/
  lost : List E

/-- What a variable has whose list went elsewhere: it is still null if it was. -/
def rest (xs : List E) : Option (List E) := if xs.isEmpty then some [] else none

/-- Lists are not appended to themselves, and variables without a list are not used
before they are set to null. -/
def allowed (a : Lists V E) : Call V N E → Bool
  | .addFront v _ _ | .removeFront v | .count v | .destroy v => (a.lists v).isSome
  | .append v w => v ≠ w && (a.lists v).isSome && (a.lists w).isSome
  | .clear _ => true

/-- What a call does that returns this, if it may return this. -/
def step (a : Lists V E) : Call V N E → Result → Option (Lists V E)
  | .addFront v value _, .list found => do
    let xs ← a.lists v
    if found then return { a with lists := Function.update a.lists v (some (value :: xs)) }
    else return ⟨Function.update a.lists v (some []), a.lost ++ xs⟩
  | .removeFront v, .list found => do
    let xs ← a.lists v
    if found = !xs.tail.isEmpty then return { a with lists := Function.update a.lists v (some xs.tail) }
    else none
  | .append v w, .void => do
    let ys ← a.lists w
    match ← a.lists v with
    | [] => return a
    | x :: xs => return ⟨Function.update (Function.update a.lists v (some (x :: ys))) w (rest ys), a.lost ++ xs⟩
  | .count v, .count n => do
    let xs ← a.lists v
    if n = BitVec.ofNat 64 xs.length then return a else none
  | .destroy v, .void => do
    let xs ← a.lists v
    return { a with lists := Function.update a.lists v (rest xs) }
  | .clear v, .void => return ⟨Function.update a.lists v (some []), a.lost ++ (a.lists v).getD []⟩
  | _, _ => none

def start : Lists V E := ⟨fun _ => some [], []⟩

def run (a : Lists V E) : List (Call V N E) → List Result → Option (Lists V E)
  | [], [] => some a
  | c :: cs, r :: rs => do run (← step a c r) cs rs
  | _, _ => none

end Spec

/-- Each call is allowed after what those before it have returned. -/
def disciplined (fuel : Nat) : State V N E → Spec.Lists V E → List (Call V N E) → Bool
  | _, _, [] => true
  | s, a, c :: cs => Spec.allowed a c &&
    match call fuel s c with
    | .error _ => true
    | .ok (s, r) =>
      match Spec.step a c r with
      | none => true
      | some a => disciplined fuel s a cs

/-! ## Nodes of a list -/

/-- A node with its element. -/
abbrev Cell (N E : Type) := N × E

/-- The list at `head` has these nodes. -/
def Cells (heap : Nodes N E) : (head : Option N) → List (Cell N E) → Prop
  | head, [] => head = none
  | head, (n, value) :: cells => head = some n ∧ ∃ next, heap n = some ⟨next, value⟩ ∧ Cells heap next cells

variable {heap heap' : Nodes N E} {head tail : Option N} {cells cells' : List (Cell N E)} {n : N} {value : E}
  {node : Node N E} {fuel : Nat} {s : State V N E}

omit [DecidableEq N] in
theorem Cells.congr (h : Cells heap head cells) (hsame : ∀ n ∈ cells.map Prod.fst, heap' n = heap n) :
    Cells heap' head cells := by
  induction cells generalizing head with
  | nil => exact h
  | cons c cells ih =>
    obtain ⟨rfl, next, hn, h⟩ := h
    refine ⟨rfl, next, ?_, ih h fun n hn => hsame n (by simp [hn])⟩
    rw [hsame c.1 (by simp), hn]

omit [DecidableEq N] in
theorem Cells.path (h : Cells heap head cells) :
    Path (fun n => (heap n).bind Node.next) head (cells.map Prod.fst) none := by
  induction cells generalizing head with
  | nil => exact h
  | cons c cells ih =>
    obtain ⟨rfl, next, hn, h⟩ := h
    refine ⟨rfl, ?_⟩
    simpa only [hn, Option.bind_some] using ih h

omit [DecidableEq N] in
theorem Cells.nodup (h : Cells heap head cells) : (cells.map Prod.fst).Nodup := h.path.nodup

omit [DecidableEq N] in
theorem Cells.isSome_eq (h : Cells heap head cells) : head.isSome = !(cells.map Prod.snd).isEmpty := by
  cases cells with
  | nil => rw [show head = none from h]; rfl
  | cons c cells => rw [h.1]; rfl

omit [DecidableEq N] in
/-- The cells are in the heap. -/
theorem Cells.mem (h : Cells heap head cells) (hc : (n, value) ∈ cells) : ∃ next, heap n = some ⟨next, value⟩ := by
  induction cells generalizing head with
  | nil => cases hc
  | cons c cells ih =>
    obtain ⟨-, next, hn, h⟩ := h
    rcases List.mem_cons.1 hc with rfl | hc
    · exact ⟨next, hn⟩
    · exact ih h hc

/-! ## One function at a time -/

/-- `destroy` frees the nodes of the list, each when its successor has been read. -/
theorem destroy_eq (h : Cells heap head cells) (hfuel : cells.length < fuel) :
    destroy fuel heap head = .ok (heap.without (cells.map Prod.fst)) := by
  induction cells generalizing heap head fuel with
  | nil =>
    obtain rfl : head = none := h
    obtain ⟨fuel, rfl⟩ := Nat.exists_eq_succ_of_ne_zero (Nat.ne_of_gt hfuel)
    rw [List.map_nil, Heap.without_nil]
    exact loop_exit rfl fuel
  | cons c cells ih =>
    have hnd := h.nodup
    obtain ⟨rfl, next, hn, h⟩ := h
    obtain ⟨fuel, rfl⟩ := Nat.exists_eq_succ_of_ne_zero (Nat.ne_of_gt (Nat.zero_lt_of_lt hfuel))
    have hround : destroyRound (some c.1, heap) = .ok (.inl (next, Function.update heap c.1 none)) := by
      simp only [destroyRound, Heap.load_eq hn, Heap.free_eq hn, ok_bind, pure_eq_ok]
    have hrest : Cells (Function.update heap c.1 none) next cells := h.congr fun m hm => by
      rw [Function.update_of_ne]
      rintro rfl
      exact (List.nodup_cons.1 hnd).1 hm
    rw [destroy, loop_next hround, List.map_cons, Heap.without_cons]
    exact ih hrest (by simpa using hfuel)

omit [DecidableEq N] in
theorem count_eq (h : Cells heap head cells) (hfuel : cells.length < fuel) :
    count fuel heap head = .ok (BitVec.ofNat 64 cells.length) := by
  have hloop : ∀ start : BitVec 64, loop (countRound heap) fuel (start, head) =
      .ok (start + BitVec.ofNat 64 cells.length) := by
    induction cells generalizing head fuel with
    | nil =>
      intro start
      obtain rfl : head = none := h
      obtain ⟨fuel, rfl⟩ := Nat.exists_eq_succ_of_ne_zero (Nat.ne_of_gt hfuel)
      rw [loop_exit (r := start) rfl]
      simp
    | cons c cells ih =>
      intro start
      obtain ⟨rfl, next, hn, h⟩ := h
      obtain ⟨fuel, rfl⟩ := Nat.exists_eq_succ_of_ne_zero (Nat.ne_of_gt (Nat.zero_lt_of_lt hfuel))
      have hround : countRound heap (start, some c.1) = .ok (.inl (start + 1, next)) := by
        simp only [countRound, Heap.load_eq hn, ok_bind, pure_eq_ok]
      rw [loop_next hround, ih h (by simpa using hfuel), List.length_cons, Nat.add_comm, BitVec.ofNat_add,
        BitVec.add_assoc]
      rfl
  rw [count, hloop]
  simp

/-! ## Who has the nodes -/

/-- The nodes of each variable's list, and, at `none`, of no list. No node that is
allocated is missing, and none is there twice. The variables that are `gone` have
no list. -/
structure Owns (s : State V N E) (cells : Option V → List (Cell N E)) (gone : V → Bool) : Prop where
  linked : ∀ v, gone v = false → Cells s.heap (s.heads v) (cells (some v))
  empty : ∀ v, gone v = true → cells (some v) = []
  kept : ∀ c ∈ cells none, ∃ next, s.heap c.1 = some ⟨next, c.2⟩
  shares : Shares Prod.fst (fun n => (s.heap n).isSome) cells

/-- The elements of the nodes. -/
def elements (cells : Option V → List (Cell N E)) (gone : V → Bool) : Spec.Lists V E where
  lists v := if gone v then none else some ((cells (some v)).map Prod.snd)
  lost := (cells none).map Prod.snd

variable {owned : Option V → List (Cell N E)} {gone : V → Bool} {g : Bool} {v w : V}

omit [DecidableEq N] [DecidableEq V] in
theorem elements_lists (hv : gone v = false) :
    (elements owned gone).lists v = some ((owned (some v)).map Prod.snd) := by
  simp [elements, hv]

omit [DecidableEq N] [DecidableEq V] in
@[simp] theorem elements_lost : (elements owned gone).lost = (owned none).map Prod.snd := rfl

omit [DecidableEq N] in
@[simp] theorem elements_update_some (v : V) :
    elements (Function.update owned (some v) cells) (Function.update gone v g) =
      { elements owned gone with
        lists := Function.update (elements owned gone).lists v (if g then none else some (cells.map Prod.snd)) } := by
  refine congrArg₂ Spec.Lists.mk (funext fun w => ?_) ?_
  · simp only [elements, Function.update_apply, Option.some_inj]
    split <;> rfl
  · rw [Function.update_of_ne (by simp)]
    rfl

omit [DecidableEq N] in
@[simp] theorem elements_update_none : elements (Function.update owned none cells) gone =
    { elements owned gone with lost := cells.map Prod.snd } := by
  refine congrArg₂ Spec.Lists.mk (funext fun w => ?_) ?_
  · rw [Function.update_of_ne (by simp)]
    rfl
  · rw [Function.update_self]

omit [DecidableEq N] [DecidableEq V] in
theorem owns_start : Owns (start : State V N E) (fun _ => []) fun _ => false where
  linked _ _ := rfl
  empty := by simp
  kept := by simp
  shares := by simpa [start] using Shares.empty

omit [DecidableEq N] [DecidableEq V] in
theorem Owns.alive (h : Owns s owned gone) {p : Option V} {c : Cell N E} (hc : c ∈ owned p) :
    ∃ next, s.heap c.1 = some ⟨next, c.2⟩ := by
  cases p with
  | none => exact h.kept c hc
  | some v =>
    cases hv : gone v with
    | false => exact (h.linked v hv).mem hc
    | true =>
      rw [h.empty v hv] at hc
      cases hc

omit [DecidableEq N] in
/-- One variable is set, and the lists of the others stay where they are. -/
theorem Owns.linked_update (h : Owns s owned gone) {next : Option N}
    (hsame : ∀ u ≠ v, ∀ n ∈ (owned (some u)).map Prod.fst, heap' n = s.heap n) (hv : g = false → Cells heap' next cells)
    (u : V) (hu : Function.update gone v g u = false) :
    Cells heap' (Function.update s.heads v next u) (Function.update owned (some v) cells (some u)) := by
  rcases eq_or_ne u v with rfl | huv
  · rw [Function.update_self] at hu
    simpa only [Function.update_self] using hv hu
  · rw [Function.update_of_ne huv] at hu
    simp only [Function.update_of_ne huv, Function.update_of_ne (show some u ≠ some v by simpa using huv)]
    exact (h.linked u hu).congr (hsame u huv)

omit [DecidableEq N] in
theorem Owns.empty_update (h : Owns s owned gone) (hv : g = true → cells = []) (u : V)
    (hu : Function.update gone v g u = true) : Function.update owned (some v) cells (some u) = [] := by
  rcases eq_or_ne u v with rfl | huv
  · rw [Function.update_self] at hu ⊢
    exact hv hu
  · rw [Function.update_of_ne huv] at hu
    rw [Function.update_of_ne (show some u ≠ some v by simpa using huv)]
    exact h.empty u hu

/-- The call returns, the nodes have owners again, and their elements are what
the lists should have. -/
def Good (fuel : Nat) (s : State V N E) (owned : Option V → List (Cell N E)) (gone : V → Bool) (c : Call V N E) : Prop :=
  ∃ s' r owned' gone', call fuel s c = .ok (s', r) ∧ Owns s' owned' gone' ∧
    Spec.step (elements owned gone) c r = some (elements owned' gone')

omit [DecidableEq N] in
/-- A variable is set to null, and what it had is lost. -/
theorem Owns.clear (h : Owns s owned gone) (v : V) :
    Owns { s with heads := Function.update s.heads v none }
      (Function.update (Function.update owned (some v) []) none (owned none ++ owned (some v)))
      (Function.update gone v false) where
  linked u hu := by
    rw [Function.update_of_ne (Option.some_ne_none u)]
    have hnull : Cells s.heap none ([] : List (Cell N E)) := rfl
    exact h.linked_update (fun _ _ _ _ => rfl) (fun _ => hnull) u hu
  empty u hu := by
    rw [Function.update_of_ne (Option.some_ne_none u)]
    exact h.empty_update (fun _ => rfl) u hu
  kept c hc := by
    rw [Function.update_self, List.mem_append] at hc
    exact hc.elim h.alive h.alive
  shares := h.shares.move (List.nil_append (owned (some v))).symm (Option.some_ne_none v)

theorem clear_good (h : Owns s owned gone) (v : V) : Good fuel s owned gone (.clear v) := by
  refine ⟨_, .void, _, _, rfl, h.clear v, ?_⟩
  cases hv : gone v with
  | false => simp [Spec.step, elements_lists hv]
  | true =>
    have hlist : (elements owned gone).lists v = none := by simp [elements, hv]
    simp [Spec.step, hlist, h.empty v hv]

theorem addFront_good (h : Owns s owned gone) (hv : gone v = false) (value : E) (block : Option N) :
    Good fuel s owned gone (.addFront v value block) := by
  cases hblock : s.heap.alloc block with
  | none =>
    refine ⟨_, .list false, _, _, ?_, h.clear v, ?_⟩
    · simp only [call, addFront, hblock, pure_eq_ok, Option.isSome_none]
    · simp [Spec.step, elements_lists hv]
  | some n =>
    obtain ⟨-, hn⟩ := Heap.alloc_eq_some.1 hblock
    have hfresh : ∀ {p c}, c ∈ owned p → c.1 ≠ n := by
      rintro p c hc rfl
      obtain ⟨next, hnext⟩ := h.alive hc
      rw [hn] at hnext
      cases hnext
    have hsame : ∀ u, ∀ m ∈ (owned (some u)).map Prod.fst,
        Function.update s.heap n (some ⟨s.heads v, value⟩) m = s.heap m := by
      intro u m hm
      obtain ⟨c, hc, rfl⟩ := List.mem_map.1 hm
      exact Function.update_of_ne (hfresh hc) ..
    refine ⟨⟨Function.update s.heap n (some ⟨s.heads v, value⟩), Function.update s.heads v (some n)⟩, .list true,
      Function.update owned (some v) ((n, value) :: owned (some v)), Function.update gone v false, ?_, ?_, ?_⟩
    · simp only [call, addFront, hblock, pure_eq_ok, Option.isSome_some]
    · refine ⟨h.linked_update (fun u _ => hsame u) fun _ => ?_, h.empty_update (by simp), fun c hc => ?_, ?_⟩
      · exact ⟨rfl, s.heads v, Function.update_self .., (h.linked v hv).congr (hsame v)⟩
      · rw [Function.update_of_ne (Option.some_ne_none v).symm] at hc
        simp only [Function.update_of_ne (hfresh hc)]
        exact h.kept c hc
      · refine (h.shares.acquire (c := (n, value)) (by simp [hn])).of_live fun m => ?_
        simp only [Function.update_apply]
        split <;> simp_all
    · simp [Spec.step, elements_lists hv]

/-- The first nodes of a list are freed. -/
theorem Owns.release (h : Owns s owned gone) {next : Option N} (hv : owned (some v) = cells ++ cells')
    (hnext : g = false → Cells s.heap next cells') (hgone : g = true → cells' = []) :
    Owns ⟨s.heap.without (cells.map Prod.fst), Function.update s.heads v next⟩
      (Function.update owned (some v) cells') (Function.update gone v g) := by
  have hshares := h.shares.release hv
  have hsame : ∀ {p c}, c ∈ Function.update owned (some v) cells' p →
      s.heap.without (cells.map Prod.fst) c.1 = s.heap c.1 := by
    intro p c hc
    exact if_neg (hshares.live_of_mem hc).2
  refine ⟨fun u hu => ?_, h.empty_update hgone, fun c hc => ?_, hshares.of_live fun n => ?_⟩
  · refine (h.linked_update (fun _ _ _ _ => rfl) hnext u hu).congr fun n hn => ?_
    obtain ⟨c, hc, rfl⟩ := List.mem_map.1 hn
    exact hsame hc
  · simp only [hsame hc]
    rw [Function.update_of_ne (Option.some_ne_none v).symm] at hc
    exact h.kept c hc
  · simp only [Heap.without]
    split <;> simp_all

theorem removeFront_good (h : Owns s owned gone) (hv : gone v = false) : Good fuel s owned gone (.removeFront v) := by
  have hlist := h.linked v hv
  cases hcells : owned (some v) with
  | nil =>
    rw [hcells] at hlist
    have hhead : s.heads v = none := hlist
    refine ⟨s, .list false, owned, gone, ?_, h, ?_⟩
    · simp only [call, hhead, removeFront, pure_eq_ok, ok_bind, Option.isSome_none]
      rw [← hhead, Function.update_eq_self]
    · have hnil : (elements owned gone).lists v = some [] := by simp [elements_lists hv, hcells]
      have hsame : Function.update (elements owned gone).lists v (some []) = (elements owned gone).lists := by
        rw [← hnil, Function.update_eq_self]
      simp only [Spec.step, hnil, Option.bind_eq_bind, Option.bind_some, List.tail_nil, List.isEmpty_nil, Bool.not_true,
        if_true, hsame]
      rfl
  | cons c cells =>
    rw [hcells] at hlist
    obtain ⟨hhead, next, hn, hrest⟩ := hlist
    have hsplit : owned (some v) = [c] ++ cells := hcells
    have howns := h.release (g := false) hsplit (fun _ => hrest) (by simp)
    refine ⟨_, .list next.isSome, _, _, ?_, howns, ?_⟩
    · simp only [call, hhead, removeFront, Heap.load_eq hn, Heap.free_eq hn, pure_eq_ok, ok_bind]
      rw [List.map_singleton, Heap.without_cons, Heap.without_nil]
    · simp [Spec.step, elements_lists hv, hcells, hrest.isSome_eq]

omit [DecidableEq N] [DecidableEq V] in
theorem rest_eq (cells : List (Cell N E)) :
    Spec.rest (cells.map Prod.snd) = if !cells.isEmpty then none else some [] := by
  cases cells <;> rfl

theorem destroy_good (h : Owns s owned gone) (hv : gone v = false) (hfuel : (owned (some v)).length < fuel) :
    Good fuel s owned gone (.destroy v) := by
  have hlist := h.linked v hv
  -- the variable keeps its pointer, which is null if there was nothing to free
  have hnull : (!(owned (some v)).isEmpty) = false → Cells s.heap (s.heads v) [] := by
    intro hempty
    have hnil : owned (some v) = [] := by simpa using hempty
    rwa [hnil] at hlist
  have howns := h.release (v := v) (List.append_nil _).symm hnull fun _ => rfl
  rw [Function.update_eq_self] at howns
  refine ⟨_, .void, _, _, ?_, howns, ?_⟩
  · simp only [call, destroy_eq hlist hfuel, ok_bind, pure_eq_ok]
  · simp [Spec.step, elements_lists hv, rest_eq]

theorem count_good (h : Owns s owned gone) (hv : gone v = false) (hfuel : (owned (some v)).length < fuel) :
    Good fuel s owned gone (.count v) := by
  refine ⟨s, .count (BitVec.ofNat 64 (owned (some v)).length), owned, gone, ?_, h, ?_⟩
  · simp only [call, count_eq (h.linked v hv) hfuel, ok_bind, pure_eq_ok]
  · simp [Spec.step, elements_lists hv]

/-- What followed the first node is lost, and the other list follows it, which is
not the other variable's any more. -/
theorem append_good (h : Owns s owned gone) (hvw : v ≠ w) (hv : gone v = false) (hw : gone w = false) :
    Good fuel s owned gone (.append v w) := by
  have hlist := h.linked v hv
  cases hcells : owned (some v) with
  | nil =>
    rw [hcells] at hlist
    have hhead : s.heads v = none := hlist
    refine ⟨s, .void, owned, gone, ?_, h, ?_⟩
    · simp only [call, hhead, append, pure_eq_ok, ok_bind]
    · simp [Spec.step, elements_lists hv, elements_lists hw, hcells]
  | cons c cells =>
    rw [hcells] at hlist
    obtain ⟨hhead, next, hn, hrest⟩ := hlist
    have hwv : some w ≠ some v := by simpa using hvw.symm
    have hsplit : owned (some v) = [c] ++ cells := hcells
    have hlost := h.shares.move (q := none) hsplit (Option.some_ne_none v)
    have hother : Function.update (Function.update owned (some v) [c]) none (owned none ++ cells) (some w) =
        [] ++ owned (some w) := by simp [hwv]
    have hmoved := hlost.move hother hwv
    rw [Function.update_of_ne (Option.some_ne_none v), Function.update_self] at hmoved
    have hsame : ∀ u, u ≠ v → ∀ n ∈ (owned (some u)).map Prod.fst,
        Function.update s.heap c.1 (some ⟨s.heads w, c.2⟩) n = s.heap n := by
      intro u hu n hn
      obtain ⟨d, hd, rfl⟩ := List.mem_map.1 hn
      refine Function.update_of_ne (fun hcd => hu ?_) ..
      exact Option.some_inj.1 (h.shares.apart _ _ d c hd (by simp [hcells]) hcd)
    refine ⟨{ s with heap := Function.update s.heap c.1 (some ⟨s.heads w, c.2⟩) }, .void, _,
      Function.update gone w (!(owned (some w)).isEmpty), ?_,
      ⟨fun u hu => ?_, fun u hu => ?_, fun d hd => ?_, hmoved.of_live fun n => ?_⟩, ?_⟩
    · simp only [call, hhead, append, Heap.load_eq hn, Heap.store_eq hn, ok_bind, pure_eq_ok]
    · rcases eq_or_ne u v with rfl | huv
      · simp only [Function.update_self, hhead]
        exact ⟨rfl, s.heads w, Function.update_self .., (h.linked w hw).congr (hsame w hvw.symm)⟩
      · rcases eq_or_ne u w with rfl | huw
        · -- its pointer is null if it had nothing to give
          have hnil : owned (some u) = [] := by simpa using hu
          have hnull := (h.linked u hw).congr (hsame u huv)
          rw [hnil] at hnull
          simpa [huv] using hnull
        · rw [Function.update_of_ne huw] at hu
          simp only [Function.update_apply, huw, huv, Option.some_inj, if_false, reduceCtorEq]
          exact (h.linked u hu).congr (hsame u huv)
    · rcases eq_or_ne u w with rfl | huw
      · simp [hvw.symm]
      · rw [Function.update_of_ne huw] at hu
        have huv : u ≠ v := by
          rintro rfl
          rw [hv] at hu
          cases hu
        simp only [Function.update_apply, huw, huv, Option.some_inj, if_false, reduceCtorEq]
        exact h.empty u hu
    · have hd' : d ∈ owned none ∨ d ∈ cells := by simpa [Function.update_apply] using hd
      have hne : d.1 ≠ c.1 := by
        rcases hd' with hd | hd
        · exact fun hcd => Option.some_ne_none v (h.shares.apart _ _ c d (by simp [hcells]) hd hcd.symm)
        · simpa using h.shares.disjoint hsplit hd
      simp only [Function.update_of_ne hne]
      exact hd'.elim h.alive fun hd => h.alive (p := some v) (by simp [hcells, hd])
    · simp only [Function.update_apply]
      split <;> simp_all
    · have hstep : Spec.step (elements owned gone) (Call.append (N := N) v w) .void =
          some ⟨Function.update (Function.update (elements owned gone).lists v
              (some (c.2 :: (owned (some w)).map Prod.snd))) w (Spec.rest ((owned (some w)).map Prod.snd)),
            (owned none).map Prod.snd ++ cells.map Prod.snd⟩ := by
        simp [Spec.step, elements_lists hv, elements_lists hw, hcells]
      rw [hstep]
      refine congrArg some (congrArg₂ Spec.Lists.mk (funext fun u => ?_) (by simp))
      rcases eq_or_ne u w with rfl | huw
      · simp [rest_eq, hvw.symm]
      · rcases eq_or_ne u v with rfl | huv
        · simp [huw, hv]
        · simp [huw, huv, elements]

/-! ## Runs -/

namespace Spec

variable {a a' : Lists V E} {c : Call V N E} {r : Result} {k : Nat}

omit [DecidableEq N] in
/-- A call makes no list longer than the longest was, by more than one. -/
theorem step_length (h : step a c r = some a') (hk : ∀ v, ((a.lists v).getD []).length ≤ k) (v : V) :
    ((a'.lists v).getD []).length ≤ k + 1 := by
  have hupdate : ∀ (lists : V → Option (List E)) (u : V) (x : Option (List E)),
      (∀ v, ((lists v).getD []).length ≤ k + 1) → (x.getD []).length ≤ k + 1 →
      ∀ v, ((Function.update lists u x v).getD []).length ≤ k + 1 := by
    intro lists u x hlists hx v
    rw [Function.update_apply]
    split
    · exact hx
    · exact hlists v
  have hlist : ∀ {u xs}, a.lists u = some xs → xs.length ≤ k := by
    intro u xs hu
    have hle := hk u
    rwa [hu] at hle
  have hrest : ∀ xs : List E, ((rest xs).getD []).length ≤ k + 1 := by
    intro xs
    unfold rest
    split <;> exact Nat.zero_le _
  have hk' : ∀ v, ((a.lists v).getD []).length ≤ k + 1 := fun v => Nat.le_succ_of_le (hk v)
  unfold step at h
  split at h
  · obtain ⟨xs, hxs, h⟩ := Option.bind_eq_some_iff.1 h
    split at h <;> cases h
    · refine hupdate _ _ _ hk' ?_ v
      exact Nat.succ_le_succ (hlist hxs)
    · exact hupdate _ _ _ hk' (Nat.zero_le _) v
  · obtain ⟨xs, hxs, h⟩ := Option.bind_eq_some_iff.1 h
    split at h <;> cases h
    refine hupdate _ _ _ hk' ?_ v
    have hle := hlist hxs
    simp only [Option.getD_some, List.length_tail]
    omega
  · obtain ⟨ys, hys, h⟩ := Option.bind_eq_some_iff.1 h
    obtain ⟨xs, -, h⟩ := Option.bind_eq_some_iff.1 h
    split at h <;> cases h
    · exact hk' v
    · refine hupdate _ _ _ (hupdate _ _ _ hk' ?_) (hrest ys) v
      exact Nat.succ_le_succ (hlist hys)
  · obtain ⟨xs, -, h⟩ := Option.bind_eq_some_iff.1 h
    split at h <;> cases h
    exact hk' v
  · obtain ⟨xs, -, h⟩ := Option.bind_eq_some_iff.1 h
    cases h
    exact hupdate _ _ _ hk' (hrest xs) v
  · cases h
    exact hupdate _ _ _ hk' (Nat.zero_le _) v
  · cases h

end Spec

omit [DecidableEq N] [DecidableEq V] in
theorem Owns.length_eq (h : Owns s owned gone) (v : V) :
    (((elements owned gone).lists v).getD []).length = (owned (some v)).length := by
  cases hv : gone v with
  | false => simp [elements_lists hv]
  | true => simp [elements, hv, h.empty v hv]

theorem call_good (h : Owns s owned gone) (c : Call V N E) (hc : Spec.allowed (elements owned gone) c = true)
    (hfuel : ∀ v, (owned (some v)).length < fuel) : Good fuel s owned gone c := by
  have hgone : ∀ {v}, ((elements owned gone).lists v).isSome = true → gone v = false := by
    intro v hv
    by_contra hgone
    simp [elements, hgone] at hv
  cases c with
  | addFront v value block => exact addFront_good h (hgone hc) value block
  | removeFront v => exact removeFront_good h (hgone hc)
  | append v w =>
    simp only [Spec.allowed, Bool.and_eq_true, decide_eq_true_eq] at hc
    exact append_good h hc.1.1 (hgone hc.1.2) (hgone hc.2)
  | count v => exact count_good h (hgone hc) (hfuel v)
  | destroy v => exact destroy_good h (hgone hc) (hfuel v)
  | clear v => exact clear_good h v

theorem calls_good (cs : List (Call V N E)) {k : Nat} (hcs : disciplined fuel s (elements owned gone) cs = true)
    (hfuel : k + cs.length < fuel) (h : Owns s owned gone) (hk : ∀ v, (owned (some v)).length ≤ k) :
    ∃ s' rs owned' gone', calls fuel s cs = .ok (s', rs) ∧ Owns s' owned' gone' ∧
      Spec.run (elements owned gone) cs rs = some (elements owned' gone') := by
  induction cs generalizing s owned gone k with
  | nil => exact ⟨s, [], owned, gone, rfl, h, rfl⟩
  | cons c cs ih =>
    rw [List.length_cons] at hfuel
    obtain ⟨hc, hcs⟩ := Bool.and_eq_true_iff.1 hcs
    have hgood : Good fuel s owned gone c := call_good h c hc fun v => Nat.lt_of_le_of_lt (hk v) (by omega)
    obtain ⟨s₁, r, owned₁, gone₁, hcall, h₁, hstep⟩ := hgood
    simp only [hcall, hstep] at hcs
    have hk₁ : ∀ v, (owned₁ (some v)).length ≤ k + 1 := fun v => by
      rw [← h₁.length_eq]
      exact Spec.step_length hstep (fun u => by rw [h.length_eq]; exact hk u) v
    obtain ⟨s₂, rs, owned₂, gone₂, hcalls, h₂, hrun⟩ := ih hcs (by omega) h₁ hk₁
    refine ⟨s₂, r :: rs, owned₂, gone₂, ?_, h₂, ?_⟩
    · simp only [calls, hcall, hcalls, ok_bind, pure_eq_ok]
    · simp only [Spec.run, hstep]
      exact hrun

omit [DecidableEq N] [DecidableEq V] in
/-- Without lists, what is still allocated is what was lost. -/
theorem Owns.leaks_iff (h : Owns s owned gone) (hlists : ∀ v, ((elements owned gone).lists v).getD [] = []) :
    (∀ n, s.heap n = none) ↔ (elements owned gone).lost = [] := by
  have hempty : ∀ v, owned (some v) = [] := by
    intro v
    have hlen := h.length_eq v
    rw [hlists v] at hlen
    exact List.eq_nil_of_length_eq_zero hlen.symm
  rw [elements_lost, List.map_eq_nil_iff, List.eq_nil_iff_forall_not_mem]
  constructor
  · intro hheap c hc
    obtain ⟨next, hnext⟩ := h.kept c hc
    rw [hheap] at hnext
    cases hnext
  · intro hlost n
    rw [← Option.not_isSome_iff_eq_none, h.shares.live_iff]
    rintro ⟨_ | v, c, hc, -⟩
    · exact hlost c hc
    · rw [hempty] at hc
      cases hc

/-- Calls of a caller that appends no list to itself, and sets a variable to null
before it uses it again whose list it has destroyed or appended to another, use no
node that is not allocated, and return what they should about the lists that they
should leave. Every node that is allocated is in one list or was lost, so that if
no variable has a list any more, nothing is allocated unless something was lost. -/
theorem slist_refines (fuel : Nat) (cs : List (Call V N E)) (hcs : disciplined fuel start Spec.start cs = true)
    (hfuel : cs.length < fuel) :
    ∃ s rs owned gone, calls fuel start cs = .ok (s, rs) ∧ Owns s owned gone ∧
      Spec.run Spec.start cs rs = some (elements owned gone) ∧
      ((∀ v, ((elements owned gone).lists v).getD [] = []) →
        ((∀ n, s.heap n = none) ↔ (elements owned gone).lost = [])) := by
  obtain ⟨s, rs, owned, gone, hcalls, howns, hrun⟩ := calls_good (k := 0) cs hcs (by rwa [Nat.zero_add]) owns_start
    fun _ => Nat.zero_le 0
  exact ⟨s, rs, owned, gone, hcalls, howns, hrun, howns.leaks_iff⟩

/-- A list of two elements that another one is appended to loses the second. The
other variable is set to null before a list is made there again, and a failing
`add_front` loses that. -/
def appending : List (Call Bool Nat Nat) :=
  [.addFront false 5 (some 0), .addFront false 6 (some 1), .addFront true 7 (some 2), .append false true, .clear true,
    .addFront true 8 (some 3), .addFront true 9 none, .count false, .destroy false]

theorem slist_refines_appending : ∃ s rs owned gone, calls 10 start appending = .ok (s, rs) ∧ Owns s owned gone ∧
    Spec.run Spec.start appending rs = some (elements owned gone) ∧
    ((∀ v, ((elements owned gone).lists v).getD [] = []) →
      ((∀ n, s.heap n = none) ↔ (elements owned gone).lost = [])) :=
  slist_refines 10 appending (by decide) (by decide)

/-- Both variables point to the node that was appended, which is freed twice. -/
example : (calls 9 start [.addFront false 5 (some 0), .addFront true 6 (some 1), .append false true, .destroy false,
    .destroy true] : Exec (State Bool Nat Nat × List Result)) = .error .outOfBounds := rfl

/-- A list that is appended to itself is a circle: `count` never returns, and
`destroy` goes on to a node that it has freed. -/
theorem append_self (hn : heap n = some node) :
    ∃ heap', append heap (some n) (some n) = .ok heap' ∧ (∀ fuel, count fuel heap' (some n) = .error .outOfFuel) ∧
      ∀ fuel, destroy (fuel + 2) heap' (some n) = .error .outOfBounds := by
  refine ⟨Function.update heap n (some ⟨some n, node.value⟩), ?_, fun fuel => ?_, fun fuel => ?_⟩
  · simp only [append, Heap.load_eq hn, Heap.store_eq hn, ok_bind]
  · refine loop_diverges (fun s => s.2 = some n) ?_ fuel rfl
    rintro ⟨count, head⟩ rfl
    exact ⟨(count + 1, some n), by simp [countRound, Heap.load], rfl⟩
  · have hround : destroyRound (some n, Function.update heap n (some ⟨some n, node.value⟩)) =
        .ok (.inl (some n, Function.update heap n none)) := by
      simp [destroyRound, Heap.load, Heap.free]
    rw [destroy, loop_next hround]
    simp [loop, destroyRound, Heap.load, bind, Except.bind]

end SphSc.SList

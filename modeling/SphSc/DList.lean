import SphSc.Lib.Links
/-!
# The doubly linked lists of `list.h`

The functions `sph_dlist_declare_type` generates that relink nodes. Nodes in
memory are a list when `next` leads from the head through all of them to null
and `previous` leads from the last of them back.
-/
open Exec Links

namespace SphSc.DList

variable {N E : Type}

/-- `name##_t` -/
structure Node (N E : Type) where
  previous : Option N
  next : Option N
  value : E
  deriving DecidableEq

/-- Every node, in a list or not. -/
abbrev Memory (N E : Type) := N → Node N E

def Memory.next (memory : Memory N E) (n : N) : Option N := (memory n).next

def Memory.previous (memory : Memory N E) (n : N) : Option N := (memory n).previous

variable [DecidableEq N]

def Memory.setNext (memory : Memory N E) (n : N) (p : Option N) : Memory N E :=
  Function.update memory n { memory n with next := p }

def Memory.setPrevious (memory : Memory N E) (n : N) (p : Option N) : Memory N E :=
  Function.update memory n { memory n with previous := p }

/-- A round of the loop of `reverse`, on `node`, `last` and memory. -/
def reverseRound (s : Option N × Option N × Memory N E) :
    Exec ((Option N × Option N × Memory N E) ⊕ (Option N × Memory N E)) :=
  match s with
  | (none, last, memory) => return .inr (last, memory)
  | (some node, _, memory) =>
    let next := memory.next node
    let memory := memory.setNext node (memory.previous node)
    let memory := memory.setPrevious node next
    return .inl (next, some node, memory)

/-- A pointer to the head, which may be null, as what it points to. -/
def reverse (fuel : Nat) (head : Option (Option N)) (memory : Memory N E) : Exec (Option (Option N) × Memory N E) :=
  match head with
  | none => return (none, memory)
  | some node => do
    let (last, memory) ← loop reverseRound fuel (node, none, memory)
    return (some last, memory)

def unlink (head : Option (Option N)) (node : Option N) (memory : Memory N E) : Option (Option N) × Memory N E :=
  match node with
  | none => (head, memory)
  | some node =>
    let (head, memory) :=
      match memory.previous node with
      | some previous => (head, memory.setNext previous (memory.next node))
      | none => (head.map fun _ => memory.next node, memory)
    match memory.next node with
    | some next => (head, memory.setPrevious next (memory.previous node))
    | none => (head, memory)

/-! ## Calls -/

inductive Call (N : Type) where
  | reverse
  /-- `unlink(&head, node)` -/
  | unlink (node : N)
  deriving DecidableEq

/-- A call on the list at `head`. -/
def call (fuel : Nat) (head : Option N) (memory : Memory N E) : Call N → Exec (Option N × Memory N E)
  | .reverse => do
    let (head', memory) ← reverse fuel (some head) memory
    return (head'.getD head, memory)
  | .unlink node =>
    let (head', memory) := unlink (some head) (some node) memory
    return (head'.getD head, memory)

def calls (fuel : Nat) (head : Option N) (memory : Memory N E) : List (Call N) → Exec (Option N × Memory N E)
  | [] => return (head, memory)
  | c :: cs => do
    let (head, memory) ← call fuel head memory c
    calls fuel head memory cs

namespace Spec

/-- What a call does to the list of nodes, for a node of the list. -/
def step (xs : List N) : Call N → Option (List N)
  | .reverse => some xs.reverse
  | .unlink node => if node ∈ xs then some (xs.erase node) else none

def run (xs : List N) (cs : List (Call N)) : Option (List N) := cs.foldlM step xs

theorem step_subset {xs xs' : List N} {c : Call N} (h : step xs c = some xs') : xs' ⊆ xs := by
  cases c with
  | reverse =>
    cases h
    simp
  | unlink node =>
    simp only [step] at h
    split at h
    · cases h
      exact List.erase_subset
    · cases h

theorem step_length_le {xs xs' : List N} {c : Call N} (h : step xs c = some xs') : xs'.length ≤ xs.length := by
  cases c with
  | reverse =>
    cases h
    simp
  | unlink node =>
    simp only [step] at h
    split at h
    · cases h
      exact List.length_erase_le
    · cases h

theorem run_length_le {xs xs' : List N} {cs : List (Call N)} (h : run xs cs = some xs') : xs'.length ≤ xs.length := by
  induction cs generalizing xs with
  | nil =>
    cases h
    exact Nat.le_refl _
  | cons c cs ih =>
    simp only [run, List.foldlM_cons, Option.bind_eq_bind, Option.bind_eq_some_iff] at h
    obtain ⟨xs₁, hstep, hrest⟩ := h
    exact Nat.le_trans (ih hrest) (step_length_le hstep)

end Spec

/-! ## Lists of nodes -/

/-- The list at `head`, of the nodes `xs`. -/
structure WellFormed (memory : Memory N E) (head : Option N) (xs : List N) : Prop where
  forward : Path memory.next head xs none
  first : ∀ n, head = some n → memory.previous n = none
  inverse : ∀ n ∈ xs, ∀ m ∈ xs, memory.next n = some m ↔ memory.previous m = some n

variable {memory memory' : Memory N E} {head : Option N} {xs ys : List N} {n m : N} {p : Option N}

@[simp] theorem next_setNext : (memory.setNext n p).next = Function.update memory.next n p := by
  funext m
  by_cases hm : m = n
  · subst hm
    simp [Memory.next, Memory.setNext]
  · simp [Memory.next, Memory.setNext, hm]

@[simp] theorem previous_setNext : (memory.setNext n p).previous = memory.previous := by
  funext m
  by_cases hm : m = n
  · subst hm
    simp [Memory.previous, Memory.setNext]
  · simp [Memory.previous, Memory.setNext, hm]

@[simp] theorem next_setPrevious : (memory.setPrevious n p).next = memory.next := by
  funext m
  by_cases hm : m = n
  · subst hm
    simp [Memory.next, Memory.setPrevious]
  · simp [Memory.next, Memory.setPrevious, hm]

@[simp] theorem previous_setPrevious : (memory.setPrevious n p).previous = Function.update memory.previous n p := by
  funext m
  by_cases hm : m = n
  · subst hm
    simp [Memory.previous, Memory.setPrevious]
  · simp [Memory.previous, Memory.setPrevious, hm]

omit [DecidableEq N] in
/-- Both directions are paths through the nodes. -/
theorem wellFormed_iff : WellFormed memory head xs ↔
    Path memory.next head xs none ∧ Path memory.previous xs.getLast? xs.reverse none := by
  constructor
  · intro h
    have hforward : Path memory.next head (xs ++ []) none := by simpa using h.forward
    refine ⟨h.forward, path_back hforward h.first fun n m hn hm => ?_⟩
    rw [List.append_nil] at hn
    obtain ⟨as, bs, rfl⟩ := List.append_of_mem hn
    rw [h.forward.link_eq] at hm
    have hmem : m ∈ as ++ n :: bs := by simp [List.mem_of_mem_head? hm]
    exact (h.inverse n hn m hmem).1 (h.forward.link_eq.trans hm)
  · rintro ⟨hforward, hback⟩
    refine ⟨hforward, ?_, fun n hn m hm => ⟨fun hlink => ?_, fun hlink => ?_⟩⟩
    · rintro n rfl
      rcases xs with _ | ⟨x, xs⟩
      · cases hforward
      · obtain ⟨hx, -⟩ := hforward
        cases hx
        rw [List.reverse_cons] at hback
        exact hback.last
    · obtain ⟨as, bs, rfl⟩ := List.append_of_mem hn
      rw [hforward.link_eq] at hlink
      obtain ⟨bs, rfl⟩ : ∃ bs', bs = m :: bs' := List.head?_eq_some_iff.1 hlink
      have hsplit : (as ++ n :: m :: bs).reverse = bs.reverse ++ m :: n :: as.reverse := by simp
      rw [hsplit] at hback
      exact hback.link_eq
    · obtain ⟨as, bs, rfl⟩ := List.append_of_mem hm
      have hsplit : (as ++ m :: bs).reverse = bs.reverse ++ m :: as.reverse := by simp
      rw [hsplit] at hback
      rw [hback.link_eq, List.head?_reverse] at hlink
      obtain ⟨as, rfl⟩ := List.getLast?_eq_some_iff.1 hlink
      rw [List.append_assoc] at hforward
      exact hforward.link_eq

/-! ## Reversing -/

/-- Memory with the links of the nodes `xs` exchanged. -/
def mirror (memory : Memory N E) (xs : List N) : Memory N E := fun n =>
  if n ∈ xs then { memory n with previous := (memory n).next, next := (memory n).previous } else memory n

theorem mirror_snoc (memory : Memory N E) (hn : n ∉ xs) :
    ((mirror memory xs).setNext n (memory.previous n)).setPrevious n (memory.next n) = mirror memory (xs ++ [n]) := by
  funext m
  by_cases hm : m = n
  · subst hm
    simp [Memory.setNext, Memory.setPrevious, Memory.next, Memory.previous, mirror, hn]
  · simp [Memory.setNext, Memory.setPrevious, mirror, hm]

/-- The nodes `xs` have been visited, and `ys` are still to come. -/
theorem reverse_loop {fuel : Nat} (h : Path memory.next head (xs ++ ys) none) (hfuel : ys.length < fuel) :
    loop reverseRound fuel (ys.head?, xs.getLast?, mirror memory xs) =
      .ok ((xs ++ ys).getLast?, mirror memory (xs ++ ys)) := by
  induction ys generalizing xs fuel with
  | nil =>
    obtain ⟨fuel, rfl⟩ : ∃ k, fuel = k + 1 := ⟨fuel - 1, by simp at hfuel; omega⟩
    rw [List.append_nil]
    rfl
  | cons n ys ih =>
    obtain ⟨fuel, rfl⟩ : ∃ k, fuel = k + 1 := ⟨fuel - 1, by simp at hfuel; omega⟩
    have hn : n ∉ xs := fun hn => (List.nodup_append.1 h.nodup).2.2 n hn n (by simp) rfl
    have hnext : (mirror memory xs).next n = memory.next n := by simp [Memory.next, mirror, hn]
    have hprevious : (mirror memory xs).previous n = memory.previous n := by simp [Memory.previous, mirror, hn]
    -- the round swaps the links of `n`, which comes to stand before the reversed nodes
    have hround : reverseRound (some n, xs.getLast?, mirror memory xs) =
        .ok (.inl (ys.head?, some n, mirror memory (xs ++ [n]))) := by
      simp only [reverseRound, hnext, hprevious, ← mirror_snoc memory hn]
      rw [show memory.next n = ys.head? from h.link_eq]
      rfl
    rw [List.append_cons] at h
    have hlt : ys.length < fuel := by simpa using hfuel
    have hrest := ih h hlt
    rw [List.getLast?_concat] at hrest
    rw [List.append_assoc, List.singleton_append] at hrest
    rw [List.head?_cons, loop, hround, ok_bind]
    exact hrest

theorem reverse_eq {fuel : Nat} (h : WellFormed memory head xs) (hfuel : xs.length < fuel) :
    reverse fuel (some head) memory = .ok (some xs.getLast?, mirror memory xs) := by
  have hnone : mirror memory [] = memory := by
    funext n
    simp [mirror]
  have hpath : Path memory.next head ([] ++ xs) none := h.forward
  have hloop := reverse_loop hpath hfuel
  rw [hnone, ← h.forward.head] at hloop
  rw [reverse]
  exact congrArg (· >>= fun r => .ok (some r.1, r.2)) hloop

/-- The links exchanged, the list reads backwards. -/
theorem reverse_wellFormed (h : WellFormed memory head xs) :
    WellFormed (mirror memory xs) xs.getLast? xs.reverse := by
  obtain ⟨hforward, hback⟩ := wellFormed_iff.1 h
  refine wellFormed_iff.2 ⟨hback.congr fun n hn => ?_, ?_⟩
  · simp [Memory.next, Memory.previous, mirror, List.mem_reverse.1 hn]
  · rw [List.getLast?_reverse, List.reverse_reverse, ← hforward.head]
    exact hforward.congr fun n hn => by simp [Memory.next, Memory.previous, mirror, hn]

theorem mirror_mirror (memory : Memory N E) (xs : List N) : mirror (mirror memory xs) xs.reverse = memory := by
  funext n
  by_cases hn : n ∈ xs <;> simp [mirror, hn]

/-! ## Unlinking -/

omit [DecidableEq N] in
/-- The neighbours of a node of the list. -/
theorem WellFormed.neighbours (h : WellFormed memory head (xs ++ n :: ys)) :
    memory.next n = ys.head? ∧ memory.previous n = xs.getLast? := by
  obtain ⟨hforward, hback⟩ := wellFormed_iff.1 h
  refine ⟨hforward.link_eq, ?_⟩
  rw [List.reverse_append, List.reverse_cons, List.append_assoc] at hback
  simpa using hback.link_eq

/-- What `unlink` leaves in memory, for the nodes before and after. -/
def without (memory : Memory N E) (n : N) (xs ys : List N) : Memory N E :=
  let memory' := match xs.getLast? with
    | some l => memory.setNext l (memory.next n)
    | none => memory
  match ys.head? with
  | some m => memory'.setPrevious m (memory.previous n)
  | none => memory'

theorem unlink_eq (h : WellFormed memory head (xs ++ n :: ys)) :
    unlink (some head) (some n) memory = (some (if xs = [] then ys.head? else head), without memory n xs ys) := by
  obtain ⟨hnext, hprevious⟩ := h.neighbours
  have hnd := h.forward.nodup
  rcases List.eq_nil_or_concat xs with rfl | ⟨front, l, rfl⟩
  · rw [List.getLast?_nil] at hprevious
    rcases ys with _ | ⟨m, ys⟩ <;> simp_all [unlink, without]
  · rw [List.concat_eq_append] at *
    have hnl : n ≠ l := by
      rintro rfl
      simp [List.nodup_append] at hnd
    rw [List.getLast?_concat] at hprevious
    rcases ys with _ | ⟨m, ys⟩ <;> simp_all [unlink, without]

theorem next_without : (without memory n xs ys).next = match xs.getLast? with
    | some l => Function.update memory.next l (memory.next n)
    | none => memory.next := by
  unfold without
  cases xs.getLast? <;> cases ys.head? <;> simp

theorem previous_without : (without memory n xs ys).previous = match ys.head? with
    | some m => Function.update memory.previous m (memory.previous n)
    | none => memory.previous := by
  unfold without
  cases xs.getLast? <;> cases ys.head? <;> simp

theorem unlink_wellFormed (h : WellFormed memory head (xs ++ n :: ys)) :
    WellFormed (without memory n xs ys) (if xs = [] then ys.head? else head) (xs ++ ys) := by
  obtain ⟨hforward, hback⟩ := wellFormed_iff.1 h
  obtain ⟨hnext, hprevious⟩ := h.neighbours
  refine wellFormed_iff.2 ⟨?_, ?_⟩
  · -- forwards, the node before `n` or the head links past it
    rw [next_without]
    rcases List.eq_nil_or_concat xs with rfl | ⟨front, l, rfl⟩
    · rw [if_pos rfl, ← hnext]
      exact hforward.2
    · rw [List.concat_eq_append] at *
      rw [List.getLast?_concat, if_neg (by simp)]
      exact hforward.skip
  · -- backwards, so does the node after it
    rw [previous_without]
    simp only [List.reverse_append, List.reverse_cons, List.append_assoc, List.singleton_append] at hback ⊢
    cases ys with
    | nil =>
      simp only [List.getLast?_concat, List.reverse_nil, List.nil_append, List.append_nil, List.head?_nil] at hback ⊢
      rw [← hprevious]
      exact hback.2
    | cons m ys =>
      have hlast : (xs ++ n :: m :: ys).getLast? = (xs ++ m :: ys).getLast? := by simp
      rw [hlast, List.reverse_cons] at hback
      rw [List.reverse_cons]
      exact hback.skip

/-- Only the nodes before and after are written to. -/
theorem without_of_notMem (hm : m ∉ xs ++ ys) : without memory n xs ys m = memory m := by
  have hlast : ∀ l, xs.getLast? = some l → m ≠ l := by
    rintro l hl rfl
    exact hm (by simp [List.mem_of_getLast? hl])
  have hhead : ∀ k, ys.head? = some k → m ≠ k := by
    rintro k hk rfl
    exact hm (by simp [List.mem_of_mem_head? hk])
  unfold without
  cases hl : xs.getLast? <;> cases hk : ys.head? <;> simp_all [Memory.setNext, Memory.setPrevious]

@[simp] theorem value_setNext : (memory.setNext n p m).value = (memory m).value := by
  by_cases hm : m = n
  · subst hm
    simp [Memory.setNext]
  · simp [Memory.setNext, hm]

@[simp] theorem value_setPrevious : (memory.setPrevious n p m).value = (memory m).value := by
  by_cases hm : m = n
  · subst hm
    simp [Memory.setPrevious]
  · simp [Memory.setPrevious, hm]

theorem value_without : (without memory n xs ys m).value = (memory m).value := by
  unfold without
  cases xs.getLast? <;> cases ys.head? <;> simp

/-! ## Refinement -/

/-- What calls do to memory: the list is the one given, the other nodes are
left alone, and no value changes. -/
structure Leaves (memory : Memory N E) (xs : List N) (head' : Option N) (memory' : Memory N E) (xs' : List N) :
    Prop where
  wellFormed : WellFormed memory' head' xs'
  others : ∀ m, m ∉ xs ∨ m ∉ xs' → memory' m = memory m
  values : ∀ m, (memory' m).value = (memory m).value

/-- A call on a list, for a node of the list. -/
theorem call_refines {fuel : Nat} {c : Call N} {xs' : List N} (h : WellFormed memory head xs)
    (hfuel : xs.length < fuel) (hstep : Spec.step xs c = some xs') :
    ∃ head' memory', call fuel head memory c = .ok (head', memory') ∧ Leaves memory xs head' memory' xs' := by
  cases c with
  | reverse =>
    cases hstep
    refine ⟨xs.getLast?, mirror memory xs, ?_, reverse_wellFormed h, fun m hm => ?_, fun m => ?_⟩
    · rw [call, reverse_eq h hfuel]
      rfl
    · have hm : m ∉ xs := by simpa using hm
      simp [mirror, hm]
    · unfold mirror
      split <;> rfl
  | unlink node =>
    simp only [Spec.step] at hstep
    split at hstep
    · rename_i hnode
      cases hstep
      obtain ⟨as, bs, rfl⟩ := List.append_of_mem hnode
      have hnd := h.forward.nodup
      have has : node ∉ as := fun hn => (List.nodup_append.1 hnd).2.2 node hn node (by simp) rfl
      rw [List.erase_append_right _ has, List.erase_cons_head]
      refine ⟨_, without memory node as bs, ?_, unlink_wellFormed h, fun m hm => ?_, fun m => value_without⟩
      · rw [call, unlink_eq h]
        rfl
      · apply without_of_notMem
        intro hmem
        rcases hm with hm | hm
        · exact hm (by simp at hmem ⊢; tauto)
        · exact hm hmem
    · cases hstep

theorem calls_refine {fuel : Nat} {cs : List (Call N)} {xs' : List N} (h : WellFormed memory head xs)
    (hfuel : xs.length < fuel) (hrun : Spec.run xs cs = some xs') :
    ∃ head' memory', calls fuel head memory cs = .ok (head', memory') ∧ WellFormed memory' head' xs' ∧
      (∀ m ∉ xs, memory' m = memory m) ∧ ∀ m, (memory' m).value = (memory m).value := by
  induction cs generalizing memory head xs with
  | nil =>
    cases hrun
    exact ⟨head, memory, rfl, h, fun _ _ => rfl, fun _ => rfl⟩
  | cons c cs ih =>
    simp only [Spec.run, List.foldlM_cons, Option.bind_eq_bind, Option.bind_eq_some_iff] at hrun
    obtain ⟨xs₁, hstep, hrest⟩ := hrun
    obtain ⟨head₁, memory₁, hcall, h₁⟩ := call_refines h hfuel hstep
    have hlen := Spec.step_length_le hstep
    have hsub := Spec.step_subset hstep
    obtain ⟨head', memory', hcalls, h', hothers, hvalues⟩ := ih h₁.wellFormed (by omega) hrest
    refine ⟨head', memory', by rw [calls, hcall]; exact hcalls, h', fun m hm => ?_, fun m => ?_⟩
    · rw [hothers m fun hc => hm (hsub hc), h₁.others m (.inl hm)]
    · rw [hvalues m, h₁.values m]

theorem reverse_twice {fuel : Nat} (h : WellFormed memory head xs) (hfuel : xs.length < fuel) :
    calls fuel head memory [.reverse, .reverse] = .ok (head, memory) := by
  have hrev := reverse_wellFormed h
  have hlast : xs.reverse.getLast? = head := by rw [List.getLast?_reverse, ← h.forward.head]
  simp only [calls, call, reverse_eq h hfuel, reverse_eq hrev (by simpa using hfuel), ok_bind, pure_eq_ok,
    Option.getD_some, mirror_mirror, hlast]

/-- Calls of `reverse`, and of `unlink` for nodes of the list, return and do to
the list what they do to its nodes, whatever is in the rest of memory. A call
leaves the nodes alone that are not in the list before or not after it.
Reversing twice restores the list and memory. -/
theorem refines_list (memory : Memory N E) (head : Option N) (xs : List N) (h : WellFormed memory head xs) (fuel : Nat)
    (hfuel : xs.length < fuel) :
    (∀ cs xs', Spec.run xs cs = some xs' → ∃ head' memory', calls fuel head memory cs = .ok (head', memory') ∧
      WellFormed memory' head' xs' ∧ (head' = none ↔ xs' = []) ∧ (∀ m ∉ xs, memory' m = memory m) ∧
      ∀ c xs'', Spec.step xs' c = some xs'' → ∃ head'' memory'',
        call fuel head' memory' c = .ok (head'', memory'') ∧ Leaves memory' xs' head'' memory'' xs'') ∧
    calls fuel head memory [.reverse, .reverse] = .ok (head, memory) := by
  refine ⟨fun cs xs' hrun => ?_, reverse_twice h hfuel⟩
  obtain ⟨head', memory', hcalls, h', hothers, -⟩ := calls_refine h hfuel hrun
  have hlen : xs'.length ≤ xs.length := Spec.run_length_le hrun
  refine ⟨head', memory', hcalls, h', ?_, hothers, fun c xs'' hstep => call_refines h' (by omega) hstep⟩
  rw [h'.forward.head, List.head?_eq_none_iff]

/-- Nodes 1, 2 and 3 in a row. -/
def three : Memory Nat Unit := fun n =>
  { previous := if n = 1 then none else some (n - 1), next := if n = 3 then none else some (n + 1), value := () }

/-- Reversed, without its middle. -/
theorem refines_list_three : ∃ head' memory', calls 4 (some 1) three [.reverse, .unlink 2] = .ok (head', memory') ∧
    WellFormed memory' head' [3, 1] := by
  have h : WellFormed three (some 1) [1, 2, 3] := wellFormed_iff.2 ⟨⟨rfl, rfl, rfl, rfl⟩, ⟨rfl, rfl, rfl, rfl⟩⟩
  obtain ⟨hcalls, -⟩ := refines_list three (some 1) [1, 2, 3] h 4 (by decide)
  obtain ⟨head', memory', hcalls, h', -⟩ := hcalls [.reverse, .unlink 2] [3, 1] rfl
  exact ⟨head', memory', hcalls, h'⟩

end SphSc.DList

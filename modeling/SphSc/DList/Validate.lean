import SphSc.DList
import SphSc.Lib.Ring
import SphSc.Lib.Runs
import Mathlib.Data.Fintype.Card
/-!
# `name##_validate`

The walk of `validate` over nodes with any links. A node it goes past links back
to the node before it, so the nodes it has gone past are a way back from the
last of them to null, on which no node is twice.
-/
open Exec Links Ring Runs

namespace SphSc.DList

variable {N E : Type} [DecidableEq N]

/-- What is printed. -/
structure Report (N : Type) where
  format : String
  index : Nat
  node : N
  deriving DecidableEq

/-- `index`, `node` and `previous` -/
structure Walk (N : Type) where
  index : Nat
  node : Option N
  previous : Option N

/-- A round of the loop, which ends early with a report. -/
def validateRound (memory : Memory N E) (w : Walk N) : Exec (Walk N ⊕ Option (Report N)) :=
  match w.node with
  | none => return .inr none
  | some node =>
    if ¬ w.previous = memory.previous node then
      return .inr (some ⟨"invalid previous link at index %zu, node %p\n", w.index, node⟩)
    else if memory.next node = memory.previous node ∧ memory.next node = none then
      return .inr (some ⟨"circular link at index %zu, node %p\n", w.index, node⟩)
    else return .inl ⟨wadd w.index 1, memory.next node, some node⟩

/-- Before the first round. -/
def walk (head : Option N) : Walk N := ⟨0, head, none⟩

/-- `name##_validate`, with what it reports. -/
def validate (fuel : Nat) (memory : Memory N E) (head : Option N) : Exec (Option (Report N)) :=
  loop (validateRound memory) fuel (walk head)

/-- A round that goes past a node. -/
def pass (memory : Memory N E) (w : Walk N) (n : N) : Option (Walk N) :=
  if w.node = some n then
    match validateRound memory w with
    | .ok (.inl w') => some w'
    | _ => none
  else none

/-- The list has one node. -/
def Single (memory : Memory N E) (head : Option N) : Prop :=
  ∃ n, head = some n ∧ memory.previous n = none ∧ memory.next n = none

/-! ## The nodes gone past -/

/-- The walk has gone past the nodes `xs`. -/
structure Passed (memory : Memory N E) (head : Option N) (xs : List N) (w : Walk N) : Prop where
  forward : Path memory.next head xs w.node
  back : Path memory.previous w.previous xs.reverse none
  linked : ∀ n ∈ xs, ¬ (memory.next n = memory.previous n ∧ memory.next n = none)

variable {memory : Memory N E} {head : Option N} {xs zs : List N} {w w' : Walk N} {n : N}

omit [DecidableEq N] in
theorem passed_walk (memory : Memory N E) (head : Option N) : Passed memory head [] (walk head) where
  forward := rfl
  back := rfl
  linked := fun _ h => absurd h List.not_mem_nil

omit [DecidableEq N] in
theorem Passed.nodup (h : Passed memory head xs w) : xs.Nodup := List.nodup_reverse.1 h.back.nodup

omit [DecidableEq N] in
theorem Passed.previous_eq (h : Passed memory head xs w) : w.previous = xs.getLast? := by
  rw [h.back.head, List.head?_reverse]

/-- What a round does, by what is at the node. -/
inductive Round (memory : Memory N E) (w : Walk N) : Walk N ⊕ Option (Report N) → Prop
  | ends : w.node = none → Round memory w (.inr none)
  | reports {node : N} {report : Report N} : w.node = some node →
      w.previous ≠ memory.previous node ∨ memory.next node = memory.previous node ∧ memory.next node = none →
      report.node = node → Round memory w (.inr (some report))
  | passes {node : N} : w.node = some node → w.previous = memory.previous node →
      ¬ (memory.next node = memory.previous node ∧ memory.next node = none) →
      Round memory w (.inl ⟨wadd w.index 1, memory.next node, some node⟩)

theorem validateRound_cases (memory : Memory N E) (w : Walk N) :
    ∃ r, validateRound memory w = .ok r ∧ Round memory w r := by
  rcases w with ⟨index, _ | n, previous⟩
  · exact ⟨_, rfl, .ends rfl⟩
  · simp only [validateRound]
    by_cases hprevious : previous = memory.previous n
    · rw [if_neg (not_not.2 hprevious)]
      by_cases halone : memory.next n = memory.previous n ∧ memory.next n = none
      · rw [if_pos halone]
        exact ⟨_, rfl, .reports rfl (.inr halone) rfl⟩
      · rw [if_neg halone]
        exact ⟨_, rfl, .passes rfl hprevious halone⟩
    · rw [if_pos hprevious]
      exact ⟨_, rfl, .reports rfl (.inl hprevious) rfl⟩

/-- Going past a node adds it to those gone past. -/
theorem Passed.snoc (h : Passed memory head xs w) (hround : validateRound memory w = .ok (.inl w')) :
    ∃ n, w.node = some n ∧ Passed memory head (xs ++ [n]) w' := by
  obtain ⟨r, hr, hcases⟩ := validateRound_cases memory w
  obtain rfl : .inl w' = r := Except.ok.inj (hround.symm.trans hr)
  cases hcases with
  | passes hnode hprevious hlinked =>
    rename_i n
    refine ⟨n, hnode, path_snoc.2 ⟨hnode ▸ h.forward, rfl⟩, ?_, ?_⟩
    · rw [List.reverse_append]
      exact ⟨rfl, hprevious ▸ h.back⟩
    · intro m hm
      rcases List.mem_append.1 hm with hm | hm
      · exact h.linked m hm
      · obtain rfl := List.mem_singleton.1 hm
        exact hlinked

/-- The walks that the loop comes to. -/
theorem passed_run (h : Run (pass memory) any (walk head) xs w) : Passed memory head xs w := by
  induction h with
  | nil => exact passed_walk memory head
  | snoc _ _ hpass ih =>
    unfold pass at hpass
    split at hpass
    · rename_i hnode
      split at hpass
      · rename_i hround
        cases hpass
        obtain ⟨n, hn, hpassed⟩ := ih.snoc hround
        rwa [Option.some.inj (hnode.symm.trans hn)]
      · cases hpass
    · cases hpass

/-- A node gone past already is reported. -/
theorem Passed.reports (h : Passed memory head xs w) (hnode : w.node = some n) (hn : n ∈ xs) :
    ∃ report, validateRound memory w = .ok (.inr (some report)) ∧ report.node = n := by
  obtain ⟨r, hr, hcases⟩ := validateRound_cases memory w
  cases hcases with
  | ends hend => cases hend.symm.trans hnode
  | reports hm _ hreport => exact ⟨_, hr, hreport.trans (Option.some.inj (hm.symm.trans hnode))⟩
  | passes =>
    obtain ⟨m, hm, hpassed⟩ := h.snoc hr
    obtain rfl : n = m := Option.some.inj (hnode.symm.trans hm)
    exact absurd rfl ((List.nodup_append.1 hpassed.nodup).2.2 n hn n List.mem_cons_self)

/-- There are only so many nodes to go past. -/
theorem validate_loop [Fintype N] (h : Passed memory head xs w) : ∃ r ys v, Passed memory head ys v ∧
    validateRound memory v = .ok (.inr r) ∧
      ∀ fuel, Fintype.card N < xs.length + fuel → loop (validateRound memory) fuel w = .ok r := by
  induction hleft : Fintype.card N - xs.length using Nat.strong_induction_on generalizing xs w with
  | _ left ih =>
    have hcard := h.nodup.length_le_card
    obtain ⟨w' | r, hr, -⟩ := validateRound_cases memory w
    · obtain ⟨n, -, hpassed⟩ := h.snoc hr
      have hcard' := hpassed.nodup.length_le_card
      rw [List.length_append, List.length_singleton] at hcard'
      obtain ⟨r, ys, v, hv, hround, hloop⟩ := ih (Fintype.card N - (xs ++ [n]).length)
        (by rw [List.length_append, List.length_singleton]; omega) hpassed rfl
      refine ⟨r, ys, v, hv, hround, fun fuel hfuel => ?_⟩
      obtain ⟨fuel, rfl⟩ : ∃ k, fuel = k + 1 := ⟨fuel - 1, by omega⟩
      rw [loop_next hr]
      apply hloop
      rw [List.length_append, List.length_singleton]
      omega
    · refine ⟨r, xs, w, h, hr, fun fuel hfuel => ?_⟩
      obtain ⟨fuel, rfl⟩ : ∃ k, fuel = k + 1 := ⟨fuel - 1, by omega⟩
      exact loop_exit hr fuel

/-- Whatever the links, the walk ends, and the nodes it goes past without a
report are distinct: where it comes to one of them again it reports it. -/
theorem validate_ends [Fintype N] (memory : Memory N E) (head : Option N) :
    (∃ r, ∀ fuel, Fintype.card N < fuel → validate fuel memory head = .ok r) ∧
    ∀ xs w, Run (pass memory) any (walk head) xs w → xs.Nodup ∧
      ∀ n ∈ xs, w.node = some n → ∃ report, validateRound memory w = .ok (.inr (some report)) ∧ report.node = n := by
  constructor
  · obtain ⟨r, -, -, -, -, hloop⟩ := validate_loop (passed_walk memory head)
    refine ⟨r, fun fuel hfuel => hloop fuel ?_⟩
    rwa [List.length_nil, Nat.zero_add]
  · intro xs w hrun
    have hpassed := passed_run hrun
    exact ⟨hpassed.nodup, fun n hn hnode => hpassed.reports hnode hn⟩

/-! ## What is reported -/

omit [DecidableEq N] in
/-- A list that ends goes on from the nodes gone past. -/
theorem Passed.rest (h : Passed memory head xs w) (hnode : w.node = some n) (hwf : WellFormed memory head zs) :
    ∃ ys, zs = xs ++ n :: ys := by
  obtain ⟨ys, rfl, hys⟩ := h.forward.split hwf.forward
  rw [hnode] at hys
  obtain ⟨ys, rfl⟩ := hys.eq_cons (Option.some_ne_none n)
  exact ⟨ys, rfl⟩

/-- Nothing is reported exactly of the lists that are well formed and do not
have one node. -/
theorem validate_none_iff {r : Option (Report N)} {xs : List N} (h : Passed memory head xs w)
    (hround : validateRound memory w = .ok (.inr r)) :
    r = none ↔ (∃ zs, WellFormed memory head zs) ∧ ¬ Single memory head := by
  obtain ⟨r', hr, hcases⟩ := validateRound_cases memory w
  obtain rfl : .inr r = r' := Except.ok.inj (hround.symm.trans hr)
  cases hcases with
  | ends hend =>
    refine iff_of_true rfl ⟨⟨xs, wellFormed_iff.2 ⟨hend ▸ h.forward, h.previous_eq ▸ h.back⟩⟩, ?_⟩
    rintro ⟨n, rfl, hprevious, hnext⟩
    obtain ⟨ys, rfl⟩ := h.forward.eq_cons (by simp [hend])
    exact h.linked n List.mem_cons_self ⟨hnext.trans hprevious.symm, hnext⟩
  | reports hnode hwrong hreport =>
    rename_i n report
    refine iff_of_false (Option.some_ne_none _) ?_
    rintro ⟨⟨zs, hwf⟩, hsingle⟩
    obtain ⟨ys, rfl⟩ := h.rest hnode hwf
    obtain ⟨-, hprevious⟩ := hwf.neighbours
    rcases hwrong with hwrong | ⟨halone, hnext⟩
    · exact hwrong (h.previous_eq.trans hprevious.symm)
    · -- a last node that no node is before
      rw [← halone, hnext] at hprevious
      obtain rfl := List.getLast?_eq_none_iff.1 hprevious.symm
      exact hsingle ⟨n, hwf.forward.1, halone.symm.trans hnext, hnext⟩

/-- Nothing is reported exactly of the well-formed lists, unless the list has
one node, which is reported as a circle. -/
theorem validate_exact_iff [Fintype N] (memory : Memory N E) (head : Option N) :
    ∃ r, (∀ fuel, Fintype.card N < fuel → validate fuel memory head = .ok r) ∧
      ((r = none ↔ head = none ∨ ∃ xs, WellFormed memory head xs) ↔ ¬ Single memory head) := by
  obtain ⟨r, ys, v, hv, hround, hloop⟩ := validate_loop (passed_walk memory head)
  refine ⟨r, fun fuel hfuel => hloop fuel (by rwa [List.length_nil, Nat.zero_add]), ?_⟩
  have hnil : head = none → ∃ xs, WellFormed memory head xs := by
    rintro rfl
    exact ⟨[], wellFormed_iff.2 ⟨rfl, rfl⟩⟩
  rw [validate_none_iff hv hround, or_iff_right_of_imp hnil]
  constructor
  · rintro hiff ⟨n, rfl, hprevious, hnext⟩
    have hwf : WellFormed memory (some n) [n] := wellFormed_iff.2 ⟨⟨rfl, hnext⟩, ⟨rfl, hprevious⟩⟩
    exact (hiff.2 ⟨_, hwf⟩).2 ⟨n, rfl, hprevious, hnext⟩
  · intro hsingle
    exact and_iff_left hsingle

/-- One node, linked to nothing. -/
def lone : Memory Unit Unit := fun _ => { previous := none, next := none, value := () }

theorem lone_reported : WellFormed lone (some ()) [()] ∧ ∀ fuel, validate (fuel + 1) lone (some ()) =
    .ok (some ⟨"circular link at index %zu, node %p\n", 0, ()⟩) :=
  ⟨wellFormed_iff.2 ⟨⟨rfl, rfl⟩, ⟨rfl, rfl⟩⟩, fun _ => rfl⟩

end SphSc.DList

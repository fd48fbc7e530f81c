import Mathlib.Algebra.BigOperators.Group.Finset.Basic
import Mathlib.Algebra.GroupWithZero.Nat
import SphSc.Lib.Parking
/-!
# How many slots linear probing looks at

A scan for a key that is not stored looks at the slots from its home to the
first empty one. Scans for the stored keys look at more or fewer slots the one
way or another they came in, but all of them together look at the same number:
seen from an empty slot, each entry is as far on from its home as the scan for it
goes, and where the entries are altogether follows from the keys.
-/
open Ring

namespace Probing

variable {κ ε : Type} {n : Nat} {home : κ → Nat} {key : ε → κ} {L L' : Nat → Option ε} {test : ε → Bool}

/-- How many slots `scan` looks at. -/
def steps (n : Nat) (test : ε → Bool) (L : Nat → Option ε) : (remaining i : Nat) → Nat
  | 0, _ => 0
  | remaining + 1, i =>
    match L i with
    | none => 1
    | some e => if test e then 1 else steps n test L remaining (next n i) + 1

/-- Those from where it starts to the one it stops at. -/
theorem steps_of_hit {remaining i j : Nat} {e : ε} (hi : i < n) (hj : j < n) (he : L j = some e) (ht : test e = true)
    (h : scan n test L remaining i = .hit j) : steps n test L remaining i = dist n i j + 1 := by
  induction remaining generalizing i with
  | zero => cases h
  | succ remaining ih =>
    rw [scan] at h
    rw [steps]
    cases hi' : L i with
    | none =>
      rw [hi'] at h
      cases h
    | some e' =>
      rw [hi'] at h
      cases ht' : test e' with
      | true =>
        simp only [ht', if_true, Found.hit.injEq] at h
        subst h
        simp [ht']
      | false =>
        have hne : i ≠ j := by
          rintro rfl
          rw [he] at hi'
          cases hi'
          rw [ht] at ht'
          cases ht'
        simp only [ht', Bool.false_eq_true, if_false] at h ⊢
        rw [ih (next_lt hi) h, dist_next_left hi hj hne]

/-- A scan that passes by all entries only looks where they are. -/
theorem steps_congr (hsame : ∀ i < n, (L i).isSome = (L' i).isSome) (h : ∀ e, Stores n L e → test e = false)
    (h' : ∀ e, Stores n L' e → test e = false) (remaining : Nat) {i : Nat} (hi : i < n) :
    steps n test L remaining i = steps n test L' remaining i := by
  induction remaining generalizing i with
  | zero => rfl
  | succ remaining ih =>
    have hocc := hsame i hi
    rw [steps, steps]
    cases he : L i with
    | none =>
      rw [he] at hocc
      rw [Option.not_isSome_iff_eq_none.1 (show ¬ (L' i).isSome by simp [← hocc])]
    | some e =>
      rw [he] at hocc
      obtain ⟨e', he'⟩ := Option.isSome_iff_exists.1 hocc.symm
      simp only [he', h e ⟨i, hi, he⟩, h' e' ⟨i, hi, he'⟩, Bool.false_eq_true, if_false, ih (next_lt hi)]

/-! ## Scans for keys -/

variable [DecidableEq κ]

/-- How many slots the scan for a key looks at. -/
def reads (n : Nat) (home : κ → Nat) (key : ε → κ) (L : Nat → Option ε) (k : κ) : Nat :=
  steps n (fun e => decide (key e = k)) L n (home k)

/-- The scan for a stored key ends at its entry. -/
theorem scan_stored (hw : WellProbed n home key L) (hhome : ∀ k, home k < n) {i : Nat} {e : ε} (hi : i < n)
    (he : L i = some e) : scan n (fun e' => decide (key e' = key e)) L n (home (key e)) = .hit i := by
  have hsound : (scan n (fun e' => decide (key e' = key e)) L n (home (key e))).Sound n key L (home (key e)) (key e) :=
    scan_sound (hhome _) fun e' => decide_eq_true_iff
  cases hscan : scan n (fun e' => decide (key e' = key e)) L n (home (key e)) with
  | hit j =>
    rw [hscan] at hsound
    obtain ⟨hj, e', he', hk⟩ := hsound
    rw [hw.unique j hj i hi e' e he' he hk]
  | gap j =>
    rw [hscan] at hsound
    obtain ⟨hj, hjn, hscanned⟩ := hsound
    exact absurd rfl (absent_of_empty hw hhome hj hjn hscanned e ⟨i, hi, he⟩)
  | round =>
    rw [hscan] at hsound
    exact absurd rfl (absent_of_round hhome hsound e ⟨i, hi, he⟩)

theorem reads_stored (hw : WellProbed n home key L) (hhome : ∀ k, home k < n) {i : Nat} {e : ε} (hi : i < n)
    (he : L i = some e) : reads n home key L (key e) = dist n (home (key e)) i + 1 :=
  steps_of_hit (hhome _) hi he (decide_eq_true rfl) (scan_stored hw hhome hi he)

/-- Layouts of the same keys take as long to find that a key is not there. -/
theorem reads_absent (hw : WellProbed n home key L) (hw' : WellProbed n home key L') (hhome : ∀ k, home k < n)
    (hkeys : keySet n key L = keySet n key L') {k : κ} (hk : k ∉ keySet n key L) :
    reads n home key L k = reads n home key L' k := by
  refine steps_congr (fun i hi => same_slots hw hw' hhome hkeys hi) ?_ ?_ n (hhome k)
  · intro e he
    exact decide_eq_false fun hc => hk (mem_keySet.2 ⟨e, he, hc⟩)
  · intro e he
    exact decide_eq_false fun hc => hk (hkeys ▸ mem_keySet.2 ⟨e, he, hc⟩)

/-- A sum over the keys, slot by slot. -/
theorem sum_keySet (hw : WellProbed n home key L) (f : κ → Nat) :
    ∑ k ∈ keySet n key L, f k = ∑ i ∈ Finset.range n, (L i).elim 0 fun e => f (key e) := by
  rw [keySet, List.sum_toFinset f (nodup_keys hw), List.map_filterMap]
  have hslots : ∀ m, ((List.range m).filterMap fun i => ((L i).map key).map f).sum =
      ∑ i ∈ Finset.range m, (L i).elim 0 fun e => f (key e) := by
    intro m
    induction m with
    | zero => rfl
    | succ m ih =>
      rw [List.range_succ, List.filterMap_append, List.sum_append, ih, Finset.sum_range_succ]
      cases hm : L m <;> simp [hm]
  exact hslots n

omit [DecidableEq κ] in
/-- From an empty slot, an entry is as far as its home and the way from there. -/
theorem dist_from_gap (hw : WellProbed n home key L) (hhome : ∀ k, home k < n) {z i : Nat} {e : ε} (hz : z < n)
    (hzn : L z = none) (hi : i < n) (he : L i = some e) :
    dist n (home (key e)) i + dist n z (home (key e)) = dist n z i := by
  obtain ⟨hpos, hle⟩ := slot_before_gap hw hhome hz hzn hi he
  have hh := hhome (key e)
  have := dist_cases n (home (key e)) i
  have := dist_cases n z (home (key e))
  have := dist_cases n z i
  have := dist_cases n i z
  have := dist_cases n (home (key e)) z
  omega

/-- With an empty slot, scans for all the keys look at as many slots in all layouts of the keys. -/
theorem sum_reads (hw : WellProbed n home key L) (hw' : WellProbed n home key L') (hhome : ∀ k, home k < n)
    (hkeys : keySet n key L = keySet n key L') {z : Nat} (hz : z < n) (hzn : L z = none) :
    ∑ k ∈ keySet n key L, reads n home key L k = ∑ k ∈ keySet n key L, reads n home key L' k := by
  have htotal : ∀ {L : Nat → Option ε}, WellProbed n home key L → L z = none →
      ∑ k ∈ keySet n key L, reads n home key L k + ∑ k ∈ keySet n key L, dist n z (home k) =
        ∑ i ∈ Finset.range n, if (L i).isSome then dist n z i + 1 else 0 := by
    intro L hw hzn
    rw [sum_keySet hw, sum_keySet hw, ← Finset.sum_add_distrib]
    refine Finset.sum_congr rfl fun i hi => ?_
    have hi := Finset.mem_range.1 hi
    cases he : L i with
    | none => rfl
    | some e =>
      have hdist := dist_from_gap hw hhome hz hzn hi he
      simp only [Option.elim_some, Option.isSome_some, if_true, reads_stored hw hhome hi he]
      omega
  have hslots : ∀ i < n, (L i).isSome = (L' i).isSome := fun i hi => same_slots hw hw' hhome hkeys hi
  have hzn' : L' z = none := by
    have hocc := hslots z hz
    rw [hzn] at hocc
    exact Option.not_isSome_iff_eq_none.1 (by simp [← hocc])
  have hsum := htotal hw hzn
  have hsum' := htotal hw' hzn'
  have hright : (∑ i ∈ Finset.range n, if (L i).isSome then dist n z i + 1 else 0) =
      ∑ i ∈ Finset.range n, if (L' i).isSome then dist n z i + 1 else 0 :=
    Finset.sum_congr rfl fun i hi => by rw [hslots i (Finset.mem_range.1 hi)]
  rw [← hkeys] at hsum'
  omega

end Probing

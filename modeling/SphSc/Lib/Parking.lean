import SphSc.Lib.Probing
import Mathlib.Combinatorics.Enumerative.DoubleCounting
import Mathlib.Order.Interval.Finset.Nat
/-!
# Where linear probing leaves its entries

Which slots a well-probed layout fills follows from the homes of its keys
alone. Behind an empty slot there is, in every stretch that ends at it, room for
the keys whose homes lie in the stretch. Behind a full slot there is a
stretch, back to the nearest empty slot, that the keys with homes in it fill.
So neither the order of insertions nor deletions in between matter.
-/
open Ring

namespace Probing

variable {κ ε : Type} [DecidableEq κ] {n : Nat} {home : κ → Nat} {key : ε → κ} {L L' : Nat → Option ε}

/-- How many of the keys have their home among the last `d` slots up to `z`. -/
def load (n : Nat) (home : κ → Nat) (K : Finset κ) (z d : Nat) : Nat := (K.filter fun k => dist n (home k) z < d).card

omit [DecidableEq κ] in
/-- No entry has an empty slot on the way from its home, so its slot is between its home and that. -/
theorem slot_before_gap (hw : WellProbed n home key L) (hhome : ∀ k, home k < n) {z i : Nat} {e : ε} (hz : z < n)
    (hzn : L z = none) (hi : i < n) (he : L i = some e) :
    0 < dist n i z ∧ dist n i z ≤ dist n (home (key e)) z := by
  have hh := hhome (key e)
  have hne : i ≠ z := by
    rintro rfl
    rw [hzn] at he
    cases he
  have hle : dist n (home (key e)) i ≤ dist n (home (key e)) z := by
    by_contra hgt
    have := hw.chain i hi e he z hz (by omega)
    simp [hzn] at this
  have hadd := dist_add hh hi hz hle
  have hpos : dist n i z ≠ dist n z z := fun hc => hne ((dist_inj_left hi hz).1 hc)
  rw [dist_self] at hpos
  omega

theorem load_lt_of_gap (hw : WellProbed n home key L) (hhome : ∀ k, home k < n) {z d : Nat} (hz : z < n)
    (hzn : L z = none) (hd : 0 < d) : load n home (keySet n key L) z d < d := by
  have hle : load n home (keySet n key L) z d ≤ (Finset.Ico 1 d).card := by
    refine Finset.card_le_card_of_forall_subsingleton
      (fun k x => ∃ i < n, ∃ e, L i = some e ∧ key e = k ∧ dist n i z = x) ?_ ?_
    · intro k hk
      obtain ⟨hk, hlt⟩ := Finset.mem_filter.1 hk
      obtain ⟨e, ⟨i, hi, he⟩, rfl⟩ := mem_keySet.1 hk
      obtain ⟨hpos, hle⟩ := slot_before_gap hw hhome hz hzn hi he
      exact ⟨dist n i z, Finset.mem_Ico.2 ⟨hpos, by omega⟩, i, hi, e, he, rfl, rfl⟩
    · rintro x - k ⟨-, i, hi, e, he, rfl, hx⟩ k' ⟨-, j, hj, e', he', rfl, hx'⟩
      obtain rfl := (dist_inj_left hi hj).1 (hx.trans hx'.symm)
      rw [he] at he'
      cases he'
      rfl
  rw [Nat.card_Ico] at hle
  omega

/-- The stretch of full slots up to `z`, back to the nearest empty slot. -/
theorem full_stretch {z : Nat} (hz : z < n) (hfull : (L z).isSome) : ∃ d, 0 < d ∧ d ≤ n ∧
    (∀ i < n, dist n i z < d → (L i).isSome) ∧ (d = n ∨ ∃ y < n, dist n y z = d ∧ L y = none) := by
  have hex : ∃ d, 0 < d ∧ (d = n ∨ ∃ y < n, dist n y z = d ∧ L y = none) := ⟨n, by omega, .inl rfl⟩
  classical
  refine ⟨Nat.find hex, (Nat.find_spec hex).1, Nat.find_min' hex ⟨by omega, .inl rfl⟩, fun i hi hlt => ?_,
    (Nat.find_spec hex).2⟩
  by_contra hnone
  have hne : i ≠ z := by
    rintro rfl
    exact hnone hfull
  have hpos : dist n i z ≠ dist n z z := fun hc => hne ((dist_inj_left hi hz).1 hc)
  rw [dist_self] at hpos
  exact Nat.find_min hex hlt ⟨by omega, .inr ⟨i, hi, rfl, by simpa using hnone⟩⟩

theorem le_load_of_full (hw : WellProbed n home key L) (hhome : ∀ k, home k < n) {z : Nat} (hz : z < n)
    (hfull : (L z).isSome) : ∃ d, 0 < d ∧ d ≤ n ∧ d ≤ load n home (keySet n key L) z d := by
  obtain ⟨d, hpos, hle, hstretch, hend⟩ := full_stretch hz hfull
  refine ⟨d, hpos, hle, ?_⟩
  -- each slot of the stretch holds a key of its own, at home in the stretch
  have hcard : (Finset.range d).card ≤ load n home (keySet n key L) z d := by
    refine Finset.card_le_card_of_forall_subsingleton
      (fun x k => ∃ i < n, ∃ e, L i = some e ∧ key e = k ∧ dist n i z = x) ?_ ?_
    · intro x hx
      have hx := Finset.mem_range.1 hx
      obtain ⟨i, hi, rfl⟩ := exists_dist hz (show x < n by omega)
      obtain ⟨e, he⟩ := Option.isSome_iff_exists.1 (hstretch i hi hx)
      refine ⟨key e, Finset.mem_filter.2 ⟨mem_keySet.2 ⟨e, ⟨i, hi, he⟩, rfl⟩, ?_⟩, i, hi, e, he, rfl, rfl⟩
      rcases hend with rfl | ⟨y, hy, rfl, hyn⟩
      · exact dist_lt (hhome _) hz
      · -- from a home before the empty slot the entry would have that on its way
        by_contra hge
        have hh := hhome (key e)
        have hy' := dist_add' (z := z) hh hy (by omega)
        have hi' := dist_add' (z := z) hh hi (by omega)
        have := hw.chain i hi e he y hy (by omega)
        simp [hyn] at this
    · rintro k - x ⟨-, i, hi, e, he, rfl, rfl⟩ x' ⟨-, j, hj, e', he', hk, rfl⟩
      rw [hw.unique i hi j hj e e' he he' hk.symm]
  rwa [Finset.card_range] at hcard

/-- A slot is empty exactly when the homes of the keys leave room for it. -/
theorem gap_iff_load (hw : WellProbed n home key L) (hhome : ∀ k, home k < n) {z : Nat} (hz : z < n) :
    L z = none ↔ ∀ d, 0 < d → d ≤ n → load n home (keySet n key L) z d < d := by
  constructor
  · exact fun hzn d hd _ => load_lt_of_gap hw hhome hz hzn hd
  · intro hroom
    by_contra hne
    obtain ⟨d, hpos, hle, hload⟩ := le_load_of_full hw hhome hz (Option.isSome_iff_ne_none.2 hne)
    have := hroom d hpos hle
    omega

/-- Layouts of the same keys fill the same slots. -/
theorem same_slots (hw : WellProbed n home key L) (hw' : WellProbed n home key L') (hhome : ∀ k, home k < n)
    (hkeys : keySet n key L = keySet n key L') {z : Nat} (hz : z < n) : (L z).isSome = (L' z).isSome := by
  have hiff : L z = none ↔ L' z = none := by
    rw [gap_iff_load hw hhome hz, gap_iff_load hw' hhome hz, hkeys]
  cases h : L z <;> cases h' : L' z <;> simp_all

end Probing

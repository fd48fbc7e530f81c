import SphSc.Lib.Exec
import SphSc.Lib.Probing
/-!
# The two loops of a deletion

Code that deletes by linear probing first seeks the key and then shifts
entries back. What a round of either loop has to do is stated on the layout
the code's state stands for (`SeekRound`, `ShiftRound`). From that follows what
the loops do, that they return when some slot is empty, and that otherwise the
shift runs forever, as does the search for a key that is not there.
-/
open Exec Ring

namespace Probing

variable {κ ε σ : Type} {n : Nat} {home : κ → Nat} {key : ε → κ} {L : Nat → Option ε}

/-! ## Seeking -/

/-- A round at slot `i`: stop at an empty slot or at an entry that passes `test`. -/
def SeekRound (n : Nat) (test : ε → Bool) (L : Nat → Option ε) (round : Nat → Exec (Nat ⊕ Option Nat)) : Prop :=
  ∀ i < n, round i = .ok (match L i with
    | none => .inr none
    | some e => if test e then .inr (some i) else .inl (next n i))

variable {test : ε → Bool} {seek : Nat → Exec (Nat ⊕ Option Nat)}

theorem SeekRound.cases (hround : SeekRound n test L seek) {i : Nat} (hi : i < n) :
    (L i = none ∧ seek i = .ok (.inr none)) ∨ ∃ e, L i = some e ∧
      (test e = true ∧ seek i = .ok (.inr (some i)) ∨ test e = false ∧ seek i = .ok (.inl (next n i))) := by
  have hr := hround i hi
  cases he : L i with
  | none => exact .inl ⟨rfl, by rw [hr, he]⟩
  | some e =>
    refine .inr ⟨e, rfl, ?_⟩
    cases hte : test e with
    | true => exact .inl ⟨rfl, by simp [hr, he, hte]⟩
    | false => exact .inr ⟨rfl, by simp [hr, he, hte]⟩

theorem seek_loop (hround : SeekRound n test L seek) (hw : WellProbed n home key L) (hhome : ∀ k, home k < n)
    {k : κ} (ht : ∀ e, test e = true ↔ key e = k) {fuel : Nat} {r : Option Nat}
    (h : loop seek fuel (home k) = .ok r) :
    (r = none ∧ ∀ e, Stores n L e → key e ≠ k) ∨ ∃ i e, r = some i ∧ i < n ∧ L i = some e ∧ key e = k := by
  -- no entry between the home and the index is of the key
  refine loop_inv (fun i => i < n ∧ Scanned n key L (home k) k (dist n (home k) i))
    (fun r => (r = none ∧ ∀ e, Stores n L e → key e ≠ k) ∨ ∃ i e, r = some i ∧ i < n ∧ L i = some e ∧ key e = k)
    ?_ ?_ ⟨hhome k, by rw [dist_self]; exact scanned_zero _ _⟩ h
  · rintro i i' ⟨hi, hs⟩ hr
    rcases hround.cases hi with ⟨-, hr'⟩ | ⟨e, he, ⟨-, hr'⟩ | ⟨hte, hr'⟩⟩ <;> rw [hr] at hr' <;> cases hr'
    refine ⟨next_lt hi, ?_⟩
    by_cases hne : next n i = home k
    · rw [hne, dist_self]; exact scanned_zero _ _
    · rw [dist_next (hhome k) hi hne]
      apply scanned_succ hs (hhome k) hi rfl he
      intro hk
      simp [(ht e).2 hk] at hte
  · rintro i r ⟨hi, hs⟩ hr
    rcases hround.cases hi with ⟨he, hr'⟩ | ⟨e, he, ⟨hte, hr'⟩ | ⟨-, hr'⟩⟩ <;> rw [hr] at hr' <;> cases hr'
    · exact .inl ⟨rfl, absent_of_empty hw hhome hi he hs⟩
    · exact .inr ⟨i, e, rfl, hi, he, (ht e).1 hte⟩

/-- What the search finds is an entry, however the layout is probed. -/
theorem seek_ends (hround : SeekRound n test L seek) {fuel i j : Nat} (hi : i < n)
    (h : loop seek fuel i = .ok (some j)) : j < n ∧ (L j).isSome := by
  refine loop_inv (fun i => i < n) (fun r => ∀ j, r = some j → j < n ∧ (L j).isSome) ?_ ?_ hi h j rfl
  · intro i i' hi hr
    rcases hround.cases hi with ⟨-, hr'⟩ | ⟨e, he, ⟨-, hr'⟩ | ⟨-, hr'⟩⟩ <;> rw [hr] at hr' <;> cases hr'
    exact next_lt hi
  · intro i r hi hr
    rcases hround.cases hi with ⟨he, hr'⟩ | ⟨e, he, ⟨-, hr'⟩ | ⟨-, hr'⟩⟩ <;> rw [hr] at hr' <;> cases hr'
    · rintro j ⟨⟩
    · rintro j ⟨⟩
      exact ⟨hi, by simp [he]⟩

theorem seek_in_bounds (hround : SeekRound n test L seek) (fuel : Nat) {i : Nat} (hi : i < n) :
    loop seek fuel i ≠ .error .outOfBounds := by
  refine loop_in_bounds (fun i => i < n) ?_ fuel hi
  intro i hi
  rcases hround.cases hi with ⟨-, hr⟩ | ⟨e, -, ⟨-, hr⟩ | ⟨-, hr⟩⟩
  · exact .inl ⟨none, hr⟩
  · exact .inl ⟨some i, hr⟩
  · exact .inr ⟨next n i, hr, next_lt hi⟩

/-- Without an empty slot the search finds an entry or goes round forever. -/
theorem seek_full (hround : SeekRound n test L seek) (hfull : ∀ i < n, (L i).isSome) (fuel : Nat) {i : Nat}
    (hi : i < n) : loop seek fuel i = .error .outOfFuel ∨ ∃ j, loop seek fuel i = .ok (some j) := by
  induction fuel generalizing i with
  | zero => exact .inl rfl
  | succ fuel ih =>
    rcases hround.cases hi with ⟨he, -⟩ | ⟨e, he, ⟨-, hr⟩ | ⟨-, hr⟩⟩
    · have := hfull i hi
      simp [he] at this
    · exact .inr ⟨i, by simp only [loop, hr, ok_bind]⟩
    · simp only [loop, hr, ok_bind]
      exact ih (next_lt hi)

/-- With an empty slot the search returns. -/
theorem seek_returns (hround : SeekRound n test L seek) {z : Nat} (hz : z < n) (hzn : L z = none) {fuel i : Nat}
    (hi : i < n) (hfuel : n ≤ fuel) : ∃ r, loop seek fuel i = .ok r := by
  refine loop_returns (fun i => i < n) (fun i => dist n i z) ?_ hi (Nat.lt_of_lt_of_le (dist_lt hi hz) hfuel)
  intro i hi
  rcases hround.cases hi with ⟨-, hr⟩ | ⟨e, he, ⟨-, hr⟩ | ⟨-, hr⟩⟩
  · exact .inl ⟨none, hr⟩
  · exact .inl ⟨some i, hr⟩
  · have hne : i ≠ z := by rintro rfl; rw [hzn] at he; cases he
    have := dist_next_left hi hz hne
    exact .inr ⟨next n i, hr, next_lt hi, by omega⟩

/-! ## Shifting -/

/-- A round of the shift on the state, `index` and `hole`. `ok` is what all
states of the loop have in common. -/
def ShiftRound (n : Nat) (home : κ → Nat) (key : ε → κ) (ok : σ → Prop) (view : σ → Nat → Option ε)
    (round : σ × Nat × Nat → Exec ((σ × Nat × Nat) ⊕ σ)) : Prop :=
  ∀ s index hole, ok s → index < n → hole < n → (view s hole).isSome →
    match view s (next n index) with
    | none => ∃ s', round (s, index, hole) = .ok (.inr s') ∧ ok s' ∧ view s' = Function.update (view s) hole none
    | some e =>
      if dist n (home (key e)) hole ≤ dist n (home (key e)) (next n index) then
        ∃ s', round (s, index, hole) = .ok (.inl (s', next n index, next n index)) ∧ ok s' ∧
          view s' = Function.update (view s) hole (some e)
      else round (s, index, hole) = .ok (.inl (s, next n index, hole))

variable {ok : σ → Prop} {view : σ → Nat → Option ε} {shift : σ × Nat × Nat → Exec ((σ × Nat × Nat) ⊕ σ)}

/-- Between two rounds of the shift that deletes the entry `e₀` of `L`. -/
structure Shifting (n : Nat) (home : κ → Nat) (key : ε → κ) (ok : σ → Prop) (view : σ → Nat → Option ε)
    (L : Nat → Option ε) (e₀ : ε) (s : σ × Nat × Nat) : Prop where
  ok : ok s.1
  shift : ShiftInv n home key (view s.1) s.2.2 s.2.1
  gap : ∃ z < n, view s.1 z = none
  stores : ∀ e, StoresBut n (view s.1) s.2.2 e ↔ Stores n L e ∧ key e ≠ key e₀

/-- The layout after deleting `e₀` from `L`. -/
structure Deleted (n : Nat) (home : κ → Nat) (key : ε → κ) (L : Nat → Option ε) (e₀ : ε) (L' : Nat → Option ε) :
    Prop where
  probed : WellProbed n home key L'
  stores : ∀ e, Stores n L' e ↔ Stores n L e ∧ key e ≠ key e₀

theorem Shifting.step (hround : ShiftRound n home key ok view shift) (hhome : ∀ k, home k < n) {e₀ : ε}
    {s : σ × Nat × Nat} (hs : Shifting n home key ok view L e₀ s) :
    (∃ s', shift s = .ok (.inl s') ∧ Shifting n home key ok view L e₀ s') ∨
    ∃ s', shift s = .ok (.inr s') ∧ ok s' ∧ Deleted n home key L e₀ (view s') := by
  obtain ⟨s, index, hole⟩ := s
  obtain ⟨hok, hI, ⟨z, hz, hzn⟩, hst⟩ := hs
  simp only at hok hI hzn hst
  have hfull : (view s hole).isSome := hI.segment hole hI.hole_lt (by simp)
  have hne := next_ne_hole hI hz hzn
  have hr := hround s index hole hok hI.index_lt hI.hole_lt hfull
  cases he : view s (next n index) with
  | none =>
    -- an empty slot ends the shift
    simp only [he] at hr
    obtain ⟨s', hr, hok', hv⟩ := hr
    refine .inr ⟨s', hr, hok', hv ▸ shift_exit hI hhome he, ?_⟩
    intro e
    rw [hv, stores_emptied, hst]
  | some e =>
    simp only [he] at hr
    split at hr
    · -- the entry moves into the hole
      rename_i hd
      obtain ⟨s', hr, hok', hv⟩ := hr
      refine .inl ⟨_, hr, hok', hv ▸ shift_move hI hne he hd, ⟨z, hz, ?_⟩, fun e' => ?_⟩
      · rw [hv, Function.update_of_ne, hzn]
        rintro rfl; simp [hzn] at hfull
      · rw [hv, storesBut_move hI hne he, hst]
    · -- the entry stays, with its home after the hole
      rename_i hd
      exact .inl ⟨_, hr, hok, shift_skip hI hne he hd, ⟨z, hz, hzn⟩, hst⟩

/-- A round leaves at an empty slot and goes on at a full one, with the same slots taken. -/
theorem ShiftRound.cases (hround : ShiftRound n home key ok view shift) {s : σ} {index hole : Nat} (hs : ok s)
    (hi : index < n) (hh : hole < n) (hfull : (view s hole).isSome) :
    (view s (next n index) = none ∧ ∃ s', shift (s, index, hole) = .ok (.inr s') ∧ ok s') ∨
    ((view s (next n index)).isSome ∧ ∃ s' hole', shift (s, index, hole) = .ok (.inl (s', next n index, hole')) ∧
      ok s' ∧ hole' < n ∧ (view s' hole').isSome ∧ ∀ i, (view s' i).isSome = (view s i).isSome) := by
  have hr := hround s index hole hs hi hh hfull
  cases he : view s (next n index) with
  | none =>
    simp only [he] at hr
    obtain ⟨s', hr, hok', -⟩ := hr
    exact .inl ⟨rfl, s', hr, hok'⟩
  | some e =>
    refine .inr ⟨rfl, ?_⟩
    simp only [he] at hr
    split at hr
    · obtain ⟨s', hr, hok', hv⟩ := hr
      have hsame : ∀ i, (view s' i).isSome = (view s i).isSome := by
        intro i
        by_cases hih : i = hole
        · rw [hv, hih, hfull]; simp
        · rw [hv, Function.update_of_ne hih]
      exact ⟨s', _, hr, hok', next_lt hi, by rw [hsame, he]; rfl, hsame⟩
    · exact ⟨s, hole, hr, hs, hh, hfull, fun _ => rfl⟩

/-- The shift keeps what all its states have in common, however the layout is probed. -/
theorem shift_keeps (hround : ShiftRound n home key ok view shift) {fuel : Nat} {s s' : σ} {index hole : Nat}
    (hs : ok s) (hi : index < n) (hh : hole < n) (hfull : (view s hole).isSome)
    (h : loop shift fuel (s, index, hole) = .ok s') : ok s' := by
  refine loop_inv (fun s => ok s.1 ∧ s.2.1 < n ∧ s.2.2 < n ∧ (view s.1 s.2.2).isSome) ok ?_ ?_ ⟨hs, hi, hh, hfull⟩ h
  · rintro ⟨s, index, hole⟩ t ⟨hs, hi, hh, hfull⟩ hr
    rcases hround.cases hs hi hh hfull with ⟨-, s', hr', -⟩ | ⟨-, s', hole', hr', hok', hh', hfull', -⟩ <;>
      rw [hr] at hr' <;> cases hr'
    exact ⟨hok', next_lt hi, hh', hfull'⟩
  · rintro ⟨s, index, hole⟩ s' ⟨hs, hi, hh, hfull⟩ hr
    rcases hround.cases hs hi hh hfull with ⟨-, s', hr', hok'⟩ | ⟨-, s', hole', hr', -⟩ <;> rw [hr] at hr' <;> cases hr'
    exact hok'

theorem shift_in_bounds (hround : ShiftRound n home key ok view shift) (fuel : Nat) {s : σ} {index hole : Nat}
    (hs : ok s) (hi : index < n) (hh : hole < n) (hfull : (view s hole).isSome) :
    loop shift fuel (s, index, hole) ≠ .error .outOfBounds := by
  refine loop_in_bounds (fun s => ok s.1 ∧ s.2.1 < n ∧ s.2.2 < n ∧ (view s.1 s.2.2).isSome) ?_ fuel ⟨hs, hi, hh, hfull⟩
  rintro ⟨s, index, hole⟩ ⟨hs, hi, hh, hfull⟩
  rcases hround.cases hs hi hh hfull with ⟨-, s', hr, -⟩ | ⟨-, s', hole', hr, hok', hh', hfull', -⟩
  · exact .inl ⟨s', hr⟩
  · exact .inr ⟨_, hr, hok', next_lt hi, hh', hfull'⟩

/-- With an empty slot the shift returns. -/
theorem shift_returns (hround : ShiftRound n home key ok view shift) {z fuel : Nat} {s : σ} {index hole : Nat}
    (hs : ok s) (hi : index < n) (hh : hole < n) (hfull : (view s hole).isSome) (hz : z < n) (hzn : view s z = none)
    (hfuel : n ≤ fuel) : ∃ s', loop shift fuel (s, index, hole) = .ok s' := by
  refine loop_returns
    (fun s => ok s.1 ∧ s.2.1 < n ∧ s.2.2 < n ∧ (view s.1 s.2.2).isSome ∧ (view s.1 z).isSome = false)
    (fun s => dist n (next n s.2.1) z) ?_ ⟨hs, hi, hh, hfull, by rw [hzn]; rfl⟩
    (Nat.lt_of_lt_of_le (dist_lt (next_lt hi) hz) hfuel)
  rintro ⟨s, index, hole⟩ ⟨hs, hi, hh, hfull, hzn⟩
  simp only at hs hi hh hfull hzn
  rcases hround.cases hs hi hh hfull with ⟨-, s', hr, -⟩ | ⟨hnext, s', hole', hr, hok', hh', hfull', hsame⟩
  · exact .inl ⟨s', hr⟩
  · have hne : next n index ≠ z := by rintro rfl; simp [hzn] at hnext
    have := dist_next_left (next_lt hi) hz hne
    exact .inr ⟨_, hr, ⟨hok', next_lt hi, hh', hfull', (hsame z).trans hzn⟩, by simp only; omega⟩

/-- Without an empty slot the shift goes round forever. -/
theorem shift_loop_diverges (hround : ShiftRound n home key ok view shift) (fuel : Nat) {s : σ} {index hole : Nat}
    (hs : ok s) (hi : index < n) (hh : hole < n) (hfull : ∀ i < n, (view s i).isSome) :
    loop shift fuel (s, index, hole) = .error .outOfFuel := by
  refine loop_diverges (fun s => ok s.1 ∧ s.2.1 < n ∧ s.2.2 < n ∧ ∀ i < n, (view s.1 i).isSome) ?_ fuel
    ⟨hs, hi, hh, hfull⟩
  rintro ⟨s, index, hole⟩ ⟨hs, hi, hh, hfull⟩
  rcases hround.cases hs hi hh (hfull hole hh) with ⟨hnext, -⟩ | ⟨-, s', hole', hr, hok', hh', -, hsame⟩
  · have := hfull _ (next_lt hi)
    simp [hnext] at this
  · exact ⟨_, hr, hok', next_lt hi, hh', fun i hlt => (hsame i).trans (hfull i hlt)⟩

theorem shift_loop (hround : ShiftRound n home key ok view shift) (hhome : ∀ k, home k < n) {s s' : σ}
    {fuel hole : Nat} {e₀ : ε} (hs : ok s) (hw : WellProbed n home key (view s)) (hh : hole < n)
    (he : view s hole = some e₀) (h : loop shift fuel (s, hole, hole) = .ok s') :
    ok s' ∧ Deleted n home key (view s) e₀ (view s') := by
  by_cases hfull : ∀ i < n, (view s i).isSome
  · rw [shift_loop_diverges hround fuel hs hh hh hfull] at h; cases h
  · have hgap : ∃ z < n, view s z = none := by simpa using hfull
    refine loop_inv (Shifting n home key ok view (view s) e₀)
      (fun s' => ok s' ∧ Deleted n home key (view s) e₀ (view s')) ?_ ?_
      ⟨hs, shift_start hw hh he, hgap, storesBut_iff hw hh he⟩ h
    · intro t t' ht hr
      rcases ht.step hround hhome with ⟨t'', hr', ht'⟩ | ⟨t'', hr', -⟩
      · rw [hr] at hr'; cases hr'; exact ht'
      · rw [hr] at hr'; cases hr'
    · intro t t' ht hr
      rcases ht.step hround hhome with ⟨t'', hr', -⟩ | ⟨t'', hr', h⟩
      · rw [hr] at hr'; cases hr'
      · rw [hr] at hr'; cases hr'; exact h

end Probing

import Mathlib.Data.Finmap
import Mathlib.Data.List.NodupEquivFin
import SphSc.Lib.Ring
/-!
# Linear probing with backward-shift deletion

A layout puts entries into the slots of a ring. An entry has a key and a key
has a home slot. `WellProbed` is what makes scanning from the home slot up to
the first empty slot a complete search: that stretch is full for every stored
entry, and no key is stored twice.

`insert` and `shift_exit` say that filling the first empty slot and shifting
entries back into a hole keep `WellProbed` and change the stored entries as
insertion and deletion should. The deletion loop passes through layouts that
are not well probed; `ShiftInv` describes them.
-/

namespace Probing
open Ring

variable {κ ε ν : Type}

/-- Some slot below `n` holds `e`. -/
def Stores (n : Nat) (L : Nat → Option ε) (e : ε) : Prop := ∃ i < n, L i = some e

structure WellProbed (n : Nat) (home : κ → Nat) (key : ε → κ) (L : Nat → Option ε) : Prop where
  /-- Every slot from an entry's home up to the entry is full. -/
  chain : ∀ i < n, ∀ e, L i = some e → ∀ j < n,
    dist n (home (key e)) j < dist n (home (key e)) i → (L j).isSome
  unique : ∀ i < n, ∀ j < n, ∀ e e', L i = some e → L j = some e' → key e = key e' → i = j

/-- The first `d` slots from `h` on are full, none of them with key `k`. -/
def Scanned (n : Nat) (key : ε → κ) (L : Nat → Option ε) (h : Nat) (k : κ) (d : Nat) : Prop :=
  ∀ j < n, dist n h j < d → ∃ e, L j = some e ∧ key e ≠ k

variable {n : Nat} {home : κ → Nat} {key : ε → κ} {L : Nat → Option ε}

theorem wellProbed_empty (h : ∀ i < n, L i = none) : WellProbed n home key L where
  chain i hi e he := by simp [h i hi] at he
  unique i hi _ _ e _ he := by simp [h i hi] at he

/-! ## Searching -/

theorem scanned_zero (h : Nat) (k : κ) : Scanned n key L h k 0 := fun _ _ hd => absurd hd (by omega)

theorem scanned_succ {h i d : Nat} {k : κ} {e : ε} (hs : Scanned n key L h k d) (hh : h < n) (hi : i < n)
    (hd : dist n h i = d) (he : L i = some e) (hk : key e ≠ k) : Scanned n key L h k (d + 1) := by
  intro j hj hlt
  by_cases hji : j = i
  · exact ⟨e, hji ▸ he, hk⟩
  · have hne : dist n h j ≠ dist n h i := fun hc => hji ((dist_inj hh hj hi).1 hc)
    exact hs j hj (by omega)

/-- An empty slot ends the search: the key is nowhere. -/
theorem absent_of_empty (hw : WellProbed n home key L) (hhome : ∀ k, home k < n) {i : Nat} {k : κ} (hi : i < n)
    (he : L i = none) (hs : Scanned n key L (home k) k (dist n (home k) i)) :
    ∀ e, Stores n L e → key e ≠ k := by
  rintro e ⟨m, hm, hme⟩ rfl
  by_cases hlt : dist n (home (key e)) m < dist n (home (key e)) i
  · obtain ⟨e', he', hk⟩ := hs m hm hlt
    rw [hme] at he'; cases he'
    exact hk rfl
  · by_cases hmi : m = i
    · rw [hmi, he] at hme; cases hme
    · have hne : dist n (home (key e)) m ≠ dist n (home (key e)) i := fun hc =>
        hmi ((dist_inj (hhome _) hm hi).1 hc)
      have := hw.chain m hm e hme i hi (by omega)
      simp [he] at this

/-- A full round ends the search too, whether or not the layout is well probed. -/
theorem absent_of_round (hhome : ∀ k, home k < n) {k : κ} (hs : Scanned n key L (home k) k n) :
    ∀ e, Stores n L e → key e ≠ k := by
  rintro e ⟨m, hm, hme⟩
  obtain ⟨e', he', hk⟩ := hs m hm (dist_lt (hhome k) hm)
  rw [hme] at he'; cases he'
  exact hk

/-- Where a scan stops. -/
inductive Found where
  | hit (i : Nat)
  | gap (i : Nat)
  | round

/-- A scan from slot `i` over at most `remaining` slots for an entry that passes `test`. -/
def scan (n : Nat) (test : ε → Bool) (L : Nat → Option ε) : (remaining i : Nat) → Found
  | 0, _ => .round
  | remaining + 1, i =>
    match L i with
    | none => .gap i
    | some e => if test e then .hit i else scan n test L remaining (next n i)

/-- What a scan for key `k` knows about the layout where it stops. -/
def Found.Sound (n : Nat) (key : ε → κ) (L : Nat → Option ε) (h : Nat) (k : κ) : Found → Prop
  | .hit i => i < n ∧ ∃ e, L i = some e ∧ key e = k
  | .gap i => i < n ∧ L i = none ∧ Scanned n key L h k (dist n h i)
  | .round => Scanned n key L h k n

theorem scan_sound_from {test : ε → Bool} {h : Nat} {k : κ} (hh : h < n) (ht : ∀ e, test e = true ↔ key e = k)
    {remaining i d : Nat} (hsum : remaining + d = n) (hi : i < n) (hd : 0 < remaining → dist n h i = d)
    (hs : Scanned n key L h k d) : (scan n test L remaining i).Sound n key L h k := by
  induction remaining generalizing i d with
  | zero => rw [Nat.zero_add] at hsum; subst hsum; exact hs
  | succ remaining ih =>
    have hd := hd (by omega)
    rw [scan]
    cases he : L i with
    | none => exact ⟨hi, he, hd ▸ hs⟩
    | some e =>
      by_cases hk : key e = k
      · simp only [(ht e).2 hk, if_true]
        exact ⟨hi, e, he, hk⟩
      · have hf : test e = false := by
          rw [← Bool.not_eq_true]; exact fun h => hk ((ht e).1 h)
        simp only [hf, Bool.false_eq_true, if_false]
        refine ih (d := d + 1) (by omega) (next_lt hi) (fun hr => ?_) (scanned_succ hs hh hi hd he hk)
        have hne : next n i ≠ h := by
          have := next_cases n i; have := dist_cases n h i; omega
        rw [dist_next hh hi hne, hd]

/-- A scan of the whole ring from the key's home. -/
theorem scan_sound {test : ε → Bool} {h : Nat} {k : κ} (hh : h < n) (ht : ∀ e, test e = true ↔ key e = k) :
    (scan n test L n h).Sound n key L h k :=
  scan_sound_from hh ht (Nat.add_zero n) hh (fun _ => dist_self) (scanned_zero h k)

/-- What any scan knows where it stops. -/
def Found.Ends (n : Nat) (test : ε → Bool) (L : Nat → Option ε) : Found → Prop
  | .hit i => i < n ∧ ∃ e, L i = some e ∧ test e = true
  | .gap i => i < n ∧ L i = none
  | .round => ∀ i < n, (L i).isSome

theorem scan_ends {test : ε → Bool} {L : Nat → Option ε} {n h : Nat} (hh : h < n) :
    (scan n test L n h).Ends n test L := by
  have hsound : (scan n test L n h).Sound n test L h true := scan_sound hh fun _ => Iff.rfl
  cases hscan : scan n test L n h with
  | hit i =>
    rw [hscan] at hsound
    exact hsound
  | gap i =>
    rw [hscan] at hsound
    exact ⟨hsound.1, hsound.2.1⟩
  | round =>
    rw [hscan] at hsound
    intro i hi
    obtain ⟨e, he, -⟩ := hsound i hi (dist_lt hh hi)
    rw [he]
    rfl

theorem scan_gap {test : ε → Bool} {remaining i j : Nat} (h : scan n test L remaining i = .gap j) : L j = none := by
  induction remaining generalizing i with
  | zero => cases h
  | succ remaining ih =>
    rw [scan] at h
    split at h
    · rename_i hL
      cases h
      exact hL
    · split at h
      · cases h
      · exact ih h

/-- A scan for an entry that is there passes by a slot that was empty. -/
theorem scan_update {test : ε → Bool} {remaining i j k : Nat} (hj : L j = none) (e : Option ε)
    (h : scan n test L remaining i = .hit k) : scan n test (Function.update L j e) remaining i = .hit k := by
  induction remaining generalizing i with
  | zero => cases h
  | succ remaining ih =>
    have hi : i ≠ j := by
      rintro rfl
      rw [scan, hj] at h
      cases h
    rw [scan] at h ⊢
    rw [Function.update_of_ne hi]
    cases he : L i with
    | none => rw [he] at h; cases h
    | some e' =>
      rw [he] at h
      dsimp only at h ⊢
      split at h
      · rename_i ht
        rw [if_pos ht]
        exact h
      · rename_i ht
        rw [if_neg ht]
        exact ih h

/-- The empty slot where a scan stops is where it finds what is put there. -/
theorem scan_filled {test : ε → Bool} {remaining i j : Nat} {e : ε} (he : test e = true)
    (h : scan n test L remaining i = .gap j) : scan n test (Function.update L j (some e)) remaining i = .hit j := by
  induction remaining generalizing i with
  | zero => cases h
  | succ remaining ih =>
    rw [scan] at h ⊢
    cases hL : L i with
    | none =>
      rw [hL] at h
      cases h
      rw [Function.update_self]
      dsimp only
      rw [if_pos he]
    | some e' =>
      rw [hL] at h
      dsimp only at h
      split at h
      · cases h
      · rename_i ht
        have hnext := ih h
        by_cases hi : i = j
        · -- the empty slot has no entry
          subst hi
          have hgap := scan_gap h
          rw [hL] at hgap
          cases hgap
        · rw [Function.update_of_ne hi, hL]
          dsimp only
          rw [if_neg ht]
          exact hnext

/-! ## Inserting -/

/-- Filling the empty slot at which the search for a new key ended. -/
theorem insert (hw : WellProbed n home key L) (hhome : ∀ k, home k < n) {i : Nat} {e : ε} (hi : i < n)
    (hn : L i = none) (hs : Scanned n key L (home (key e)) (key e) (dist n (home (key e)) i)) :
    WellProbed n home key (Function.update L i (some e)) where
  chain i' hi' e' he' j hj hlt := by
    by_cases hji : j = i
    · simp [hji]
    rw [Function.update_of_ne hji]
    by_cases hii : i' = i
    · subst hii
      simp only [Function.update_self, Option.some.injEq] at he'
      subst he'
      obtain ⟨e'', hj', -⟩ := hs j hj hlt
      simp [hj']
    · rw [Function.update_of_ne hii] at he'
      exact hw.chain i' hi' e' he' j hj hlt
  unique i' hi' j hj e₁ e₂ h₁ h₂ hk := by
    have habs := absent_of_empty hw hhome hi hn hs
    by_cases hii : i' = i <;> by_cases hji : j = i
    · rw [hii, hji]
    · subst hii
      rw [Function.update_self, Option.some.injEq] at h₁
      rw [Function.update_of_ne hji] at h₂
      exact absurd hk.symm (h₁ ▸ habs e₂ ⟨j, hj, h₂⟩)
    · subst hji
      rw [Function.update_self, Option.some.injEq] at h₂
      rw [Function.update_of_ne hii] at h₁
      exact absurd hk (h₂ ▸ habs e₁ ⟨i', hi', h₁⟩)
    · rw [Function.update_of_ne hii] at h₁
      rw [Function.update_of_ne hji] at h₂
      exact hw.unique i' hi' j hj e₁ e₂ h₁ h₂ hk

theorem stores_insert {i : Nat} {e : ε} (hi : i < n) (hn : L i = none) (e' : ε) :
    Stores n (Function.update L i (some e)) e' ↔ e' = e ∨ Stores n L e' := by
  constructor
  · rintro ⟨j, hj, hje⟩
    by_cases hji : j = i
    · subst hji; simp only [Function.update_self, Option.some.injEq] at hje; exact .inl hje.symm
    · rw [Function.update_of_ne hji] at hje; exact .inr ⟨j, hj, hje⟩
  · rintro (rfl | ⟨j, hj, hje⟩)
    · exact ⟨i, hi, by simp⟩
    · have hji : j ≠ i := by rintro rfl; rw [hn] at hje; cases hje
      exact ⟨j, hj, by rw [Function.update_of_ne hji]; exact hje⟩

/-! ## Stored keys and their values -/

theorem nodup_keys (hw : WellProbed n home key L) : ((List.range n).filterMap fun i => (L i).map key).Nodup := by
  rw [List.Nodup, List.pairwise_filterMap]
  refine List.nodup_range.pairwise_of_forall_ne fun i hi j hj hne k hk k' hk' hkk => hne ?_
  obtain ⟨e, he, rfl⟩ := Option.map_eq_some_iff.1 hk
  obtain ⟨e', he', rfl⟩ := Option.map_eq_some_iff.1 hk'
  exact hw.unique i (List.mem_range.1 hi) j (List.mem_range.1 hj) e e' he he' hkk

section Contents
variable [DecidableEq κ] (n : Nat) (key : ε → κ) (val : ε → ν) (L : Nat → Option ε)

/-- The stored keys. -/
def keySet : Finset κ := ((List.range n).filterMap fun i => (L i).map key).toFinset

/-- The stored entries as a finite map. -/
def contents : Finmap fun _ : κ => ν :=
  ((List.range n).filterMap fun i => (L i).map fun e => (⟨key e, val e⟩ : Sigma fun _ : κ => ν)).toFinmap

end Contents

section
variable [DecidableEq κ] {val : ε → ν}

theorem mem_keySet {k : κ} : k ∈ keySet n key L ↔ ∃ e, Stores n L e ∧ key e = k := by
  simp only [keySet, List.mem_toFinset, List.mem_filterMap, List.mem_range, Option.map_eq_some_iff, Stores]
  constructor
  · rintro ⟨i, hi, e, he, hk⟩; exact ⟨e, ⟨i, hi, he⟩, hk⟩
  · rintro ⟨e, ⟨i, hi, he⟩, hk⟩; exact ⟨i, hi, e, he, hk⟩

theorem card_keySet_le : (keySet n key L).card ≤ n := by
  refine Nat.le_trans (List.toFinset_card_le _) (Nat.le_trans (List.length_filterMap_le _ _) ?_)
  rw [List.length_range]

/-- There is room for another key exactly while some slot is empty. -/
theorem card_keySet_lt (hw : WellProbed n home key L) : (keySet n key L).card < n ↔ ∃ i < n, L i = none := by
  have h : ((List.range n).filterMap fun i => (L i).map key).length < (List.range n).length ↔ _ :=
    List.length_filterMap_lt_length_iff_exists
  rw [List.length_range] at h
  rw [keySet, List.toFinset_card_of_nodup (nodup_keys hw), h]
  simp

theorem lookup_contents (hw : WellProbed n home key L) {k : κ} {v : ν} :
    (contents n key val L).lookup k = some v ↔ ∃ e, Stores n L e ∧ key e = k ∧ val e = v := by
  have hnd : ((List.range n).filterMap fun i =>
      (L i).map fun e => (⟨key e, val e⟩ : Sigma fun _ : κ => ν)).NodupKeys := by
    have := nodup_keys hw
    rwa [List.NodupKeys, List.keys, List.map_filterMap, show (fun i => ((L i).map fun e =>
      (⟨key e, val e⟩ : Sigma fun _ : κ => ν)).map Sigma.fst) = fun i => (L i).map key by
        funext i; cases L i <;> rfl]
  rw [contents, Finmap.dlookup_list_toFinmap, ← Option.mem_def, List.mem_dlookup_iff hnd]
  simp only [List.mem_filterMap, List.mem_range, Option.map_eq_some_iff, Sigma.mk.injEq, heq_eq_eq, Stores]
  constructor
  · rintro ⟨i, hi, e, he, hk, hv⟩; exact ⟨e, ⟨i, hi, he⟩, hk, hv⟩
  · rintro ⟨e, ⟨i, hi, he⟩, hk, hv⟩; exact ⟨i, hi, e, he, hk, hv⟩

theorem mem_contents (hw : WellProbed n home key L) {k : κ} :
    k ∈ contents n key val L ↔ ∃ e, Stores n L e ∧ key e = k := by
  rw [Finmap.mem_iff]
  constructor
  · rintro ⟨v, hv⟩
    obtain ⟨e, he, hk, -⟩ := (lookup_contents hw).1 hv
    exact ⟨e, he, hk⟩
  · rintro ⟨e, he, hk⟩
    exact ⟨val e, (lookup_contents hw).2 ⟨e, he, hk, rfl⟩⟩

theorem keys_contents (hw : WellProbed n home key L) : (contents n key val L).keys = keySet n key L := by
  ext k
  rw [Finmap.mem_keys, mem_contents hw, mem_keySet]

theorem contents_empty : contents n key val (fun _ => none) = ∅ := by
  simp [contents]

variable {L' : Nat → Option ε}

theorem keySet_insert {e : ε} (h : ∀ e', Stores n L' e' ↔ e' = e ∨ Stores n L e') :
    keySet n key L' = Insert.insert (key e) (keySet n key L) := by
  ext k
  simp only [mem_keySet, h, Finset.mem_insert, or_and_right, exists_or, exists_eq_left, eq_comm (a := k)]

theorem keySet_erase {k : κ} (h : ∀ e, Stores n L' e ↔ Stores n L e ∧ key e ≠ k) :
    keySet n key L' = (keySet n key L).erase k := by
  ext k'
  simp only [mem_keySet, h, Finset.mem_erase]
  constructor
  · rintro ⟨e, ⟨he, hne⟩, rfl⟩; exact ⟨hne, e, he, rfl⟩
  · rintro ⟨hne, e, he, rfl⟩; exact ⟨e, ⟨he, hne⟩, rfl⟩

theorem contents_insert (hw : WellProbed n home key L) (hw' : WellProbed n home key L') {e : ε}
    (habs : ∀ e', Stores n L e' → key e' ≠ key e) (h : ∀ e', Stores n L' e' ↔ e' = e ∨ Stores n L e') :
    contents n key val L' = (contents n key val L).insert (key e) (val e) := by
  refine Finmap.ext_lookup fun k => Option.ext fun v => ?_
  rw [lookup_contents hw']
  by_cases hk : k = key e
  · subst hk
    rw [Finmap.lookup_insert, Option.some.injEq]
    constructor
    · rintro ⟨e', he', hk, rfl⟩
      rcases (h e').1 he' with rfl | he'
      · rfl
      · exact absurd hk (habs e' he')
    · intro hv; exact ⟨e, (h e).2 (.inl rfl), rfl, hv⟩
  · rw [Finmap.lookup_insert_of_ne _ hk, lookup_contents hw]
    constructor
    · rintro ⟨e', he', rfl, hv⟩
      rcases (h e').1 he' with rfl | he'
      · exact absurd rfl hk
      · exact ⟨e', he', rfl, hv⟩
    · rintro ⟨e', he', hk', hv⟩; exact ⟨e', (h e').2 (.inr he'), hk', hv⟩

theorem contents_erase (hw : WellProbed n home key L) (hw' : WellProbed n home key L') {k : κ}
    (h : ∀ e, Stores n L' e ↔ Stores n L e ∧ key e ≠ k) :
    contents n key val L' = (contents n key val L).erase k := by
  refine Finmap.ext_lookup fun k' => Option.ext fun v => ?_
  rw [lookup_contents hw']
  by_cases hk : k' = k
  · subst hk
    rw [Finmap.lookup_erase]
    constructor
    · rintro ⟨e, he, hk, -⟩; exact absurd hk ((h e).1 he).2
    · rintro ⟨⟩
  · rw [Finmap.lookup_erase_ne hk, lookup_contents hw]
    constructor
    · rintro ⟨e, he, hk', hv⟩; exact ⟨e, ((h e).1 he).1, hk', hv⟩
    · rintro ⟨e, he, hk', hv⟩; exact ⟨e, (h e).2 ⟨he, hk' ▸ hk⟩, hk', hv⟩

end

/-! ## Deleting -/

/-- Some slot below `n` other than `hole` holds `e`. -/
def StoresBut (n : Nat) (L : Nat → Option ε) (hole : Nat) (e : ε) : Prop := ∃ i < n, i ≠ hole ∧ L i = some e

/-- Between two rounds of the shift: the entry in `hole` is stale, the slots
from `hole` to `index` are full, and no entry among them has `hole` on the way
from its home. -/
structure ShiftInv (n : Nat) (home : κ → Nat) (key : ε → κ) (L : Nat → Option ε) (hole index : Nat) : Prop where
  hole_lt : hole < n
  index_lt : index < n
  segment : ∀ j < n, dist n hole j ≤ dist n hole index → (L j).isSome
  chain : ∀ i < n, i ≠ hole → ∀ e, L i = some e → ∀ j < n,
    dist n (home (key e)) j < dist n (home (key e)) i → (L j).isSome
  passed : ∀ i < n, i ≠ hole → ∀ e, L i = some e → dist n hole i ≤ dist n hole index →
    dist n (home (key e)) i ≤ dist n (home (key e)) hole
  unique : ∀ i < n, i ≠ hole → ∀ j < n, j ≠ hole → ∀ e e', L i = some e → L j = some e' → key e = key e' → i = j

theorem shift_start (hw : WellProbed n home key L) {hole : Nat} {e : ε} (hh : hole < n) (he : L hole = some e) :
    ShiftInv n home key L hole hole where
  hole_lt := hh
  index_lt := hh
  segment j hj hle := by
    rw [dist_self, Nat.le_zero] at hle
    rw [(dist_inj hh hj hh).1 (by simp [hle])]; simp [he]
  chain i hi _ := hw.chain i hi
  passed i hi hne e' _ hle := by
    rw [dist_self, Nat.le_zero] at hle
    exact absurd ((dist_inj hh hi hh).1 (by simp [hle])) hne
  unique i hi _ j hj _ := hw.unique i hi j hj

/-- While some slot is empty the shift does not come round to its hole. -/
theorem next_ne_hole {hole index z : Nat} (hI : ShiftInv n home key L hole index) (hz : z < n) (hzn : L z = none) :
    next n index ≠ hole := by
  intro heq
  have hlt := dist_lt hI.hole_lt hz
  have hall : dist n hole z ≤ dist n hole index := by
    have := hI.index_lt; have := hI.hole_lt
    have := next_cases n index; have := dist_cases n hole index; omega
  have := hI.segment z hz hall
  simp [hzn] at this

theorem shift_skip {hole index : Nat} {e : ε} (hI : ShiftInv n home key L hole index)
    (hne : next n index ≠ hole) (he : L (next n index) = some e)
    (hd : ¬ dist n (home (key e)) hole ≤ dist n (home (key e)) (next n index)) :
    ShiftInv n home key L hole (next n index) := by
  have hi' := next_lt hI.index_lt
  have hstep := dist_next hI.hole_lt hI.index_lt hne
  have hlast : ∀ j < n, dist n hole j ≤ dist n hole (next n index) →
      dist n hole j ≤ dist n hole index ∨ j = next n index := by
    intro j hj hle
    by_cases hc : dist n hole j = dist n hole (next n index)
    · exact .inr ((dist_inj hI.hole_lt hj hi').1 hc)
    · exact .inl (by omega)
  refine ⟨hI.hole_lt, hi', fun j hj hle => ?_, hI.chain, fun i hi hih e' he' hle => ?_, hI.unique⟩
  · rcases hlast j hj hle with h | rfl
    · exact hI.segment j hj h
    · simp [he]
  · rcases hlast i hi hle with h | rfl
    · exact hI.passed i hi hih e' he' h
    · rw [he] at he'; cases he'; omega

theorem shift_move {hole index : Nat} {e : ε} (hI : ShiftInv n home key L hole index)
    (hne : next n index ≠ hole) (he : L (next n index) = some e)
    (hd : dist n (home (key e)) hole ≤ dist n (home (key e)) (next n index)) :
    ShiftInv n home key (Function.update L hole (some e)) (next n index) (next n index) := by
  have hi' := next_lt hI.index_lt
  have hfull : ∀ j, (L j).isSome → (Function.update L hole (some e) j).isSome := by
    intro j hj
    by_cases h : j = hole
    · simp [h]
    · rwa [Function.update_of_ne h]
  refine ⟨hi', hi', fun j hj hle => ?_, fun i hi hii e' he' j hj hlt => ?_, fun i hi hii _ _ hle => ?_, ?_⟩
  · -- the new hole is where the scan is
    rw [dist_self, Nat.le_zero] at hle
    rw [(dist_inj hi' hj hi').1 (by simp [hle])]
    exact hfull _ (by simp [he])
  · -- the moved entry has a shorter way from home, all of it full
    refine hfull j ?_
    by_cases hih : i = hole
    · subst hih
      rw [Function.update_self, Option.some.injEq] at he'
      subst he'
      exact hI.chain _ hi' hne e he j hj (by omega)
    · rw [Function.update_of_ne hih] at he'
      exact hI.chain i hi hih e' he' j hj hlt
  · rw [dist_self, Nat.le_zero] at hle
    exact absurd ((dist_inj hi' hi hi').1 (by simp [hle])) hii
  · intro i hi hii j hj hji e₁ e₂ h₁ h₂ hk
    by_cases hih : i = hole <;> by_cases hjh : j = hole
    · rw [hih, hjh]
    · subst hih
      rw [Function.update_self, Option.some.injEq] at h₁
      rw [Function.update_of_ne hjh] at h₂
      exact absurd (hI.unique _ hi' hne j hj hjh e e₂ he h₂ (h₁ ▸ hk)) (Ne.symm hji)
    · subst hjh
      rw [Function.update_self, Option.some.injEq] at h₂
      rw [Function.update_of_ne hih] at h₁
      exact absurd (hI.unique _ hi' hne i hi hih e e₁ he h₁ (h₂ ▸ hk.symm)) (Ne.symm hii)
    · rw [Function.update_of_ne hih] at h₁
      rw [Function.update_of_ne hjh] at h₂
      exact hI.unique i hi hih j hj hjh e₁ e₂ h₁ h₂ hk

theorem storesBut_move {hole index : Nat} {e : ε} (hI : ShiftInv n home key L hole index)
    (hne : next n index ≠ hole) (he : L (next n index) = some e) (e' : ε) :
    StoresBut n (Function.update L hole (some e)) (next n index) e' ↔ StoresBut n L hole e' := by
  constructor
  · rintro ⟨i, hi, hii, h⟩
    by_cases hih : i = hole
    · subst hih
      rw [Function.update_self] at h
      exact ⟨_, next_lt hI.index_lt, hne, he.trans h⟩
    · rw [Function.update_of_ne hih] at h
      exact ⟨i, hi, hih, h⟩
  · rintro ⟨i, hi, hih, h⟩
    by_cases hii : i = next n index
    · subst hii
      exact ⟨hole, hI.hole_lt, Ne.symm hne, by rw [Function.update_self, ← he, h]⟩
    · exact ⟨i, hi, hii, by rwa [Function.update_of_ne hih]⟩

/-- At the first empty slot the hole can be emptied: an entry with the hole on
its way from home would have that empty slot on its way too. -/
theorem shift_exit {hole index : Nat} (hI : ShiftInv n home key L hole index) (hhome : ∀ k, home k < n)
    (hn : L (next n index) = none) : WellProbed n home key (Function.update L hole none) where
  chain i hi e he j hj hlt := by
    have hih : i ≠ hole := by rintro rfl; simp at he
    rw [Function.update_of_ne hih] at he
    have hfull := hI.chain i hi hih e he
    have hjh : j ≠ hole := by
      rintro rfl
      have hi' := next_lt hI.index_lt
      have hz := next_ne_hole hI hi' hn
      have hstep := dist_next hI.hole_lt hI.index_lt hz
      have hnp : ¬ dist n j i ≤ dist n j index := fun hle => by
        have := hI.passed i hi hih e he hle; omega
      have hzi : next n index ≠ i := by intro h; rw [h, he] at hn; cases hn
      have hzd : dist n j (next n index) ≠ dist n j i := fun h => hzi ((dist_inj hI.hole_lt hi' hi).1 h)
      have hbefore : dist n (home (key e)) (next n index) < dist n (home (key e)) i := by
        have := hI.hole_lt; have := hhome (key e)
        have := dist_cases n j (next n index); have := dist_cases n j i
        have := dist_cases n (home (key e)) (next n index); have := dist_cases n (home (key e)) i
        have := dist_cases n (home (key e)) j
        omega
      exact absurd (hfull _ hi' hbefore) (by simp [hn])
    rw [Function.update_of_ne hjh]
    exact hfull j hj hlt
  unique i hi j hj e e' he he' hk := by
    have hih : i ≠ hole := by rintro rfl; simp at he
    have hjh : j ≠ hole := by rintro rfl; simp at he'
    rw [Function.update_of_ne hih] at he
    rw [Function.update_of_ne hjh] at he'
    exact hI.unique i hi hih j hj hjh e e' he he' hk

theorem stores_emptied (hole : Nat) (e : ε) :
    Stores n (Function.update L hole none) e ↔ StoresBut n L hole e := by
  constructor
  · rintro ⟨i, hi, h⟩
    have hih : i ≠ hole := by rintro rfl; simp at h
    exact ⟨i, hi, hih, by rwa [Function.update_of_ne hih] at h⟩
  · rintro ⟨i, hi, hih, h⟩
    exact ⟨i, hi, by rwa [Function.update_of_ne hih]⟩

/-- With unique keys, all entries but the one in `hole` are those with another key. -/
theorem storesBut_iff (hw : WellProbed n home key L) {hole : Nat} {e₀ : ε} (hh : hole < n) (h₀ : L hole = some e₀)
    (e : ε) : StoresBut n L hole e ↔ Stores n L e ∧ key e ≠ key e₀ := by
  constructor
  · rintro ⟨i, hi, hih, h⟩
    exact ⟨⟨i, hi, h⟩, fun hk => hih (hw.unique i hi hole hh e e₀ h h₀ hk)⟩
  · rintro ⟨⟨i, hi, h⟩, hk⟩
    refine ⟨i, hi, ?_, h⟩
    rintro rfl
    rw [h₀] at h; cases h
    exact hk rfl

end Probing

import Mathlib.Data.List.Perm.Basic
import Mathlib.Tactic.Common
/-!
# Sorting ranges of a list

What a sort of the positions `lo .. hi-1` has to leave: the same elements in
another order there, everything else where it was, and no element before one
that is less. Elements are compared by a Boolean `less`, a strict weak order
on the elements at hand.
-/

namespace Sorting

variable {α : Type} {less : α → α → Bool} {xs ys zs : List α} {lo hi lo' hi' : Nat}

/-! ## Strict weak orders -/

/-- `less` is a strict order on the elements of the list, and being incomparable is transitive. -/
structure StrictWeak (less : α → α → Bool) (xs : List α) : Prop where
  irrefl : ∀ a ∈ xs, less a a = false
  trans : ∀ a ∈ xs, ∀ b ∈ xs, ∀ c ∈ xs, less a b = true → less b c = true → less a c = true
  incomparable : ∀ a ∈ xs, ∀ b ∈ xs, ∀ c ∈ xs, less a b = false → less b a = false → less b c = false →
    less c b = false → less a c = false

theorem StrictWeak.asymm (h : StrictWeak less xs) {a b : α} (ha : a ∈ xs) (hb : b ∈ xs) (hab : less a b = true) :
    less b a = false := by
  by_contra hba
  have haa := h.trans a ha b hb a ha hab (by simpa using hba)
  rw [h.irrefl a ha] at haa
  cases haa

/-- Not being less is transitive. -/
theorem StrictWeak.not_less_trans (h : StrictWeak less xs) {a b c : α} (ha : a ∈ xs) (hb : b ∈ xs) (hc : c ∈ xs)
    (hab : less a b = false) (hbc : less b c = false) : less a c = false := by
  cases hba : less b a with
  | true =>
    by_contra hac
    have hbc' := h.trans b hb a ha c hc hba (by simpa using hac)
    rw [hbc] at hbc'
    cases hbc'
  | false =>
    cases hcb : less c b with
    | true =>
      by_contra hac
      have hab' := h.trans a ha c hc b hb (by simpa using hac) hcb
      rw [hab] at hab'
      cases hab'
    | false => exact h.incomparable a ha b hb c hc hab hba hbc hcb

theorem StrictWeak.perm (h : StrictWeak less xs) (hp : ys.Perm xs) : StrictWeak less ys where
  irrefl a ha := h.irrefl a (hp.mem_iff.1 ha)
  trans a ha b hb c hc := h.trans a (hp.mem_iff.1 ha) b (hp.mem_iff.1 hb) c (hp.mem_iff.1 hc)
  incomparable a ha b hb c hc := h.incomparable a (hp.mem_iff.1 ha) b (hp.mem_iff.1 hb) c (hp.mem_iff.1 hc)

theorem strictWeak_lt (xs : List Nat) : StrictWeak (fun a b => decide (a < b)) xs where
  irrefl a _ := by simp
  trans a _ b _ c _ := by simpa using Nat.lt_trans
  incomparable a _ b _ c _ := by
    simp only [decide_eq_false_iff_not]
    omega

/-! ## Rearranging a range -/

/-- The elements at `lo .. hi-1`. -/
def slice (lo hi : Nat) (xs : List α) : List α := (xs.take hi).drop lo

theorem mem_slice {a : α} : a ∈ slice lo hi xs ↔ ∃ i, lo ≤ i ∧ i < hi ∧ xs[i]? = some a := by
  simp only [slice, List.mem_iff_getElem?, List.getElem?_drop, List.getElem?_take]
  constructor
  · rintro ⟨i, h⟩
    split at h
    · exact ⟨lo + i, by omega, by omega, h⟩
    · cases h
  · rintro ⟨i, hlo, hhi, h⟩
    refine ⟨i - lo, ?_⟩
    rw [show lo + (i - lo) = i by omega, if_pos hhi]
    exact h

/-- `ys` is `xs` with the elements at `lo .. hi-1` in another order. -/
structure Rearranged (lo hi : Nat) (xs ys : List α) : Prop where
  perm : ys.Perm xs
  outside : ∀ i, i < lo ∨ hi ≤ i → ys[i]? = xs[i]?

theorem Rearranged.refl (lo hi : Nat) (xs : List α) : Rearranged lo hi xs xs := ⟨.refl _, fun _ _ => rfl⟩

theorem Rearranged.trans (h : Rearranged lo hi xs ys) (h' : Rearranged lo hi ys zs) : Rearranged lo hi xs zs :=
  ⟨h'.perm.trans h.perm, fun i hi => (h'.outside i hi).trans (h.outside i hi)⟩

theorem Rearranged.widen (h : Rearranged lo hi xs ys) (hlo : lo' ≤ lo) (hhi : hi ≤ hi') : Rearranged lo' hi' xs ys :=
  ⟨h.perm, fun i hi => h.outside i (by omega)⟩

theorem getElem?_swap {i j : Nat} (hi : i < xs.length) (hj : j < xs.length) (k : Nat) :
    (xs.swap i j)[k]? = if k = j then xs[i]? else if k = i then xs[j]? else xs[k]? := by
  rw [List.swap_eq_of_lt hi hj, List.getElem?_set, List.getElem?_set]
  by_cases hkj : j = k
  · subst hkj
    simp [hi, hj]
  · by_cases hki : i = k
    · subst hki
      simp [hi, hj, hkj, Ne.symm hkj]
    · simp [hkj, hki, Ne.symm hkj, Ne.symm hki]

theorem Rearranged.swap {i j : Nat} (hi : i < xs.length) (hj : j < xs.length) (hlo : lo ≤ i ∧ lo ≤ j)
    (hhi : i < hi' ∧ j < hi') : Rearranged lo hi' xs (xs.swap i j) := by
  refine ⟨List.swap_perm xs i j, ?_⟩
  intro k hk
  rw [getElem?_swap hi hj, if_neg (by omega), if_neg (by omega)]

/-- The elements of the range, in another order. -/
theorem Rearranged.slice_perm (h : Rearranged lo hi xs ys) (hle : lo ≤ hi) :
    (slice lo hi ys).Perm (slice lo hi xs) := by
  have hlen := h.perm.length_eq
  have htake : ys.take lo = xs.take lo := by
    apply List.ext_getElem?
    intro i
    rw [List.getElem?_take, List.getElem?_take]
    split
    · exact h.outside i (.inl (by omega))
    · rfl
  have hdrop : ys.drop hi = xs.drop hi := by
    apply List.ext_getElem?
    intro i
    rw [List.getElem?_drop, List.getElem?_drop]
    exact h.outside (hi + i) (.inr (by omega))
  have hsplit : ∀ zs : List α, zs = zs.take lo ++ (slice lo hi zs ++ zs.drop hi) := by
    intro zs
    have hfirst : (zs.take hi).take lo = zs.take lo := by rw [List.take_take, Nat.min_eq_left hle]
    rw [slice, ← List.append_assoc, ← hfirst, List.take_append_drop, List.take_append_drop]
  have hp := h.perm
  rw [hsplit xs, hsplit ys, htake, hdrop] at hp
  exact (List.perm_append_right_iff _).1 ((List.perm_append_left_iff _).1 hp)

theorem Rearranged.exists_of_getElem? (h : Rearranged lo hi xs ys) {i : Nat} {a : α} (hlo : lo ≤ i) (hhi : i < hi)
    (ha : ys[i]? = some a) : ∃ j, lo ≤ j ∧ j < hi ∧ xs[j]? = some a :=
  mem_slice.1 ((h.slice_perm (by omega)).mem_iff.1 (mem_slice.2 ⟨i, hlo, hhi, ha⟩))

/-! ## Sorted ranges -/

/-- In `lo .. hi-1` no element is less than one before it. -/
def Sorted (less : α → α → Bool) (lo hi : Nat) (xs : List α) : Prop :=
  ∀ i j a b, lo ≤ i → i < j → j < hi → xs[i]? = some a → xs[j]? = some b → less b a = false

theorem Sorted.congr (h : Sorted less lo hi xs) (hsame : ∀ i, lo ≤ i → i < hi → ys[i]? = xs[i]?) :
    Sorted less lo hi ys := by
  intro i j a b hlo hij hhi ha hb
  rw [hsame i hlo (by omega)] at ha
  rw [hsame j (by omega) hhi] at hb
  exact h i j a b hlo hij hhi ha hb

/-- At the positions `lo .. hi-1` all elements have the property. -/
def AllOn (P : α → Prop) (lo hi : Nat) (xs : List α) : Prop := ∀ i a, lo ≤ i → i < hi → xs[i]? = some a → P a

theorem AllOn.rearranged {P : α → Prop} (h : AllOn P lo' hi' xs) (hr : Rearranged lo hi xs ys)
    (hlo : hi ≤ lo' ∨ lo' ≤ lo) (hhi : hi' ≤ lo ∨ hi ≤ hi') : AllOn P lo' hi' ys := by
  intro i a hi₁ hi₂ ha
  by_cases hin : lo ≤ i ∧ i < hi
  · obtain ⟨j, hj₁, hj₂, hj⟩ := hr.exists_of_getElem? hin.1 hin.2 ha
    exact h j a (by omega) (by omega) hj
  · rw [hr.outside i (by omega)] at ha
    exact h i a hi₁ hi₂ ha

/-- Two sorted ranges are one where nothing in the first, or between them, is
greater than some element and nothing between them, or in the second, is less. -/
theorem Sorted.join {v : α} {mid mid' : Nat} (hless : StrictWeak less xs) (hv : v ∈ xs)
    (hlow : AllOn (fun a => less v a = false) lo mid' xs) (hhigh : AllOn (fun a => less a v = false) mid hi xs)
    (h : Sorted less lo mid xs) (h' : Sorted less mid' hi xs) : Sorted less lo hi xs := by
  intro i j a b hi₁ hij hj₁ ha hb
  by_cases hfirst : j < mid
  · exact h i j a b hi₁ hij hfirst ha hb
  · by_cases hsecond : mid' ≤ i
    · exact h' i j a b hsecond hij hj₁ ha hb
    · have hvb := hhigh j b (by omega) hj₁ hb
      have hav := hlow i a hi₁ (by omega) ha
      exact hless.not_less_trans (List.mem_of_getElem? hb) hv (List.mem_of_getElem? ha) hvb hav

end Sorting

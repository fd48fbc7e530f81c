import SphSc.Lib.Exec
import SphSc.Lib.Sorting
import Mathlib.Tactic.Ring
/-!
# `quicksort.h`

`quicksort` knows the array only through the two functions it is given. The
positions are of type `ssize_t`, which the loops do not leave: they stay within
one of the range. `fuel` bounds the rounds of each loop and the recursion.
-/
open Exec Sorting

namespace SphSc.Quicksort

/-- The function arguments of `quicksort`, for an array of type `A`. -/
structure Ops (A : Type) where
  lessP : A → Int → Int → Exec Bool
  swap : A → Int → Int → Exec A

/-- A round of `while (less) i += d`. -/
def scanRound (less : Int → Exec Bool) (d i : Int) : Exec (Int ⊕ Int) := do
  if ← less i then return .inl (i + d) else return .inr i

/-- The variables of the outer loop. -/
structure Scan (A : Type) where
  array : A
  pivot : Int
  l : Int
  r : Int

section
variable {A : Type} (ops : Ops A)

/-- A round of `while (l <= r)`. -/
def partitionRound (fuel : Nat) (s : Scan A) : Exec (Scan A ⊕ Scan A) := do
  if s.l ≤ s.r then
    let l ← loop (scanRound (fun l => ops.lessP s.array l s.pivot) 1) fuel s.l
    let r ← loop (scanRound (fun r => ops.lessP s.array s.pivot r) (-1)) fuel s.r
    if l ≤ r then
      let pivot := if s.pivot = l then r else if s.pivot = r then l else s.pivot
      let array ← ops.swap s.array l r
      return .inl ⟨array, pivot, l + 1, r - 1⟩
    else return .inl ⟨s.array, s.pivot, l, r⟩
  else return .inr s

/-- All of `quicksort` before it calls itself. -/
def partition (fuel : Nat) (array : A) (left right : Int) : Exec (Scan A) :=
  loop (partitionRound ops fuel) fuel ⟨array, left + (right - left) / 2, left, right⟩

def quicksort : (fuel : Nat) → A → (left right : Int) → Exec A
  | fuel, array, left, right =>
    if right ≤ left then return array
    else
      match fuel with
      | 0 => .error .outOfFuel
      | fuel + 1 => do
        let s ← partition ops fuel array left right
        let array ← if left < s.r then quicksort fuel s.array left s.r else pure s.array
        if s.l < right then quicksort fuel array s.l right else return array

/-- The functions, stopping the run at a position outside of `left .. right`. -/
def Ops.confine (left right : Int) : Ops A where
  lessP array i j :=
    if left ≤ i ∧ i ≤ right ∧ left ≤ j ∧ j ≤ right then ops.lessP array i j else .error .outOfBounds
  swap array i j :=
    if left ≤ i ∧ i ≤ right ∧ left ≤ j ∧ j ≤ right then ops.swap array i j else .error .outOfBounds

end

/-! ## The scans -/

/-- A scan over positions where `less` answers stops at the first `false`. -/
theorem scan_stops {less : Int → Exec Bool} {test : Int → Bool} {d i : Int} {k fuel : Nat}
    (hrun : ∀ m ≤ k, less (i + d * m) = .ok (test (i + d * m))) (hstop : test (i + d * k) = false)
    (hfuel : k < fuel) :
    ∃ m ≤ k, loop (scanRound less d) fuel i = .ok (i + d * m) ∧ test (i + d * m) = false ∧
      ∀ m' < m, test (i + d * m') = true := by
  induction k generalizing i fuel with
  | zero =>
    obtain ⟨fuel, rfl⟩ : ∃ f, fuel = f + 1 := ⟨fuel - 1, by omega⟩
    have hless := hrun 0 (Nat.le_refl 0)
    refine ⟨0, Nat.le_refl 0, ?_, hstop, ?_⟩
    · rw [hstop] at hless
      simp only [Nat.cast_zero, mul_zero, add_zero] at hless ⊢
      simp [loop, scanRound, hless]
    · intro m' hm'
      omega
  | succ k ih =>
    obtain ⟨fuel, rfl⟩ : ∃ f, fuel = f + 1 := ⟨fuel - 1, by omega⟩
    have hless := hrun 0 (Nat.zero_le _)
    simp only [Nat.cast_zero, mul_zero, add_zero] at hless
    have hshift : ∀ m : Nat, i + d + d * m = i + d * (m + 1 : Nat) := by
      intro m
      push_cast
      ring
    cases ht : test i with
    | false =>
      refine ⟨0, Nat.zero_le _, ?_, by simpa using ht, ?_⟩
      · rw [ht] at hless
        simp [loop, scanRound, hless]
      · intro m' hm'
        omega
    | true =>
      obtain ⟨m, hm, hloop, hfalse, htrue⟩ := @ih (i + d) fuel
        (by intro m hm; rw [hshift]; exact hrun (m + 1) (by omega)) (by rw [hshift]; exact hstop) (by omega)
      rw [hshift] at hloop hfalse
      refine ⟨m + 1, by omega, ?_, hfalse, ?_⟩
      · rw [ht] at hless
        simp only [loop, scanRound, hless, ok_bind, if_true, pure_eq_ok]
        exact hloop
      · intro m' hm'
        cases m' with
        | zero => simpa using ht
        | succ m' =>
          rw [← hshift]
          exact htrue m' (by omega)

/-- A scan that tests elements stops at one that fails, all before it having passed. -/
theorem scan_elements {α : Type} {look : Int → Exec Bool} {p : α → Bool} {xs : List α} {d i : Int} {b : α} {k fuel : Nat}
    (hlook : ∀ m : Nat, m ≤ k → ∀ a, xs[(i + d * m).toNat]? = some a → look (i + d * m) = .ok (p a))
    (hinside : ∀ m : Nat, m ≤ k → (i + d * m).toNat < xs.length) (hb : xs[(i + d * k).toNat]? = some b)
    (hstop : p b = false) (hfuel : k < fuel) :
    ∃ m ≤ k, loop (scanRound look d) fuel i = .ok (i + d * m) ∧ (∃ a, xs[(i + d * m).toNat]? = some a ∧ p a = false) ∧
      ∀ m' < m, ∀ a, xs[(i + d * m' : Int).toNat]? = some a → p a = true := by
  let test : Int → Bool := fun j => (xs[j.toNat]?).elim false p
  have htest : ∀ {j : Int} {a : α}, xs[j.toNat]? = some a → test j = p a := by
    intro j a ha
    simp only [test, ha, Option.elim_some]
  have hrun : ∀ m ≤ k, look (i + d * m) = .ok (test (i + d * m)) := by
    intro m hm
    have ha := List.getElem?_eq_getElem (hinside m hm)
    rw [hlook m hm _ ha, htest ha]
  obtain ⟨m, hm, hloop, hfalse, htrue⟩ := scan_stops hrun ((htest hb).trans hstop) hfuel
  refine ⟨m, hm, hloop, ?_, ?_⟩
  · have ha := List.getElem?_eq_getElem (hinside m hm)
    exact ⟨_, ha, (htest ha).symm.trans hfalse⟩
  · intro m' hm' a ha
    exact (htest ha).symm.trans (htrue m' hm')

/-! ## The partition -/

variable {α : Type} {ops : Ops (List α)} {less : α → α → Bool} {left right : Int}

/-- At positions in `left .. right`, `less_p` compares the elements and `swap` exchanges them. -/
structure Compares (ops : Ops (List α)) (less : α → α → Bool) (left right : Int) : Prop where
  lessP : ∀ (xs : List α) (i j : Int) (a b : α), left ≤ i → i ≤ right → left ≤ j → j ≤ right →
    xs[i.toNat]? = some a → xs[j.toNat]? = some b → ops.lessP xs i j = .ok (less a b)
  swap : ∀ (xs : List α) (i j : Int), left ≤ i → i ≤ right → left ≤ j → j ≤ right →
    i < xs.length → j < xs.length → ops.swap xs i j = .ok (xs.swap i.toNat j.toNat)

theorem Compares.confine (h : Compares ops less left right) :
    Compares (ops.confine left right) less left right where
  lessP xs i j a b h₁ h₂ h₃ h₄ ha hb := by
    simp only [Ops.confine, h₁, h₂, h₃, h₄, and_self, if_true]
    exact h.lessP xs i j a b h₁ h₂ h₃ h₄ ha hb
  swap xs i j h₁ h₂ h₃ h₄ hi hj := by
    simp only [Ops.confine, h₁, h₂, h₃, h₄, and_self, if_true]
    exact h.swap xs i j h₁ h₂ h₃ h₄ hi hj

theorem Compares.narrow (h : Compares ops less left right) {left' right' : Int} (hl : left ≤ left')
    (hr : right' ≤ right) : Compares ops less left' right' where
  lessP xs i j a b h₁ h₂ h₃ h₄ := h.lessP xs i j a b (by omega) (by omega) (by omega) (by omega)
  swap xs i j h₁ h₂ h₃ h₄ := h.swap xs i j (by omega) (by omega) (by omega) (by omega)

/-- Functions for an array of elements that are compared by `less`. -/
def elementOps (less : α → α → Bool) : Ops (List α) where
  lessP array i j := do
    let a ← read array i.toNat
    let b ← read array j.toNat
    return less a b
  swap array i j :=
    if i.toNat < array.length ∧ j.toNat < array.length then .ok (array.swap i.toNat j.toNat) else .error .outOfBounds

theorem elementOps_compares (less : α → α → Bool) {left : Int} (right : Int) (h0 : 0 ≤ left) :
    Compares (elementOps less) less left right where
  lessP xs i j a b _ _ _ _ ha hb := by
    simp only [elementOps, read_eq_ok.2 ha, read_eq_ok.2 hb, ok_bind, pure_eq_ok]
  swap xs i j hi _ hj _ hil hjl := by
    simp only [elementOps]
    rw [if_pos ⟨by omega, by omega⟩]

/-- The outer loop on the way: `v` is the pivot, which the swaps move. Once
elements have been swapped, both scans have one behind them that stops them. -/
structure Partial (less : α → α → Bool) (left right : Int) (xs : List α) (v : α) (s : Scan (List α)) : Prop where
  rearranged : Rearranged left.toNat (right + 1).toNat xs s.array
  pivot_ge : left ≤ s.pivot
  pivot_le : s.pivot ≤ right
  pivot : s.array[s.pivot.toNat]? = some v
  l_le : s.l ≤ right + 1
  le_r : left - 1 ≤ s.r
  low : AllOn (fun a => less v a = false) left.toNat s.l.toNat s.array
  high : AllOn (fun a => less a v = false) (s.r + 1).toNat (right + 1).toNat s.array
  moved : s.l = left ∧ s.r = right ∨ left < s.l ∧ s.r < right

section
variable (hops : Compares ops less left right) (h0 : 0 ≤ left) {xs : List α} {v : α} {pivot : Int}
  (hlen : right < xs.length) (hpl : left ≤ pivot) (hpr : pivot ≤ right) (hpivot : xs[pivot.toNat]? = some v)

include hops h0 hlen hpl hpr hpivot

theorem scan_left {l q : Int} {b : α} {fuel : Nat} (hl : left ≤ l) (hlq : l ≤ q) (hq : q ≤ right)
    (hb : xs[q.toNat]? = some b) (hstop : less b v = false) (hfuel : (q - l).toNat < fuel) :
    ∃ l', l ≤ l' ∧ l' ≤ q ∧ loop (scanRound (fun l => ops.lessP xs l pivot) 1) fuel l = .ok l' ∧
      (∃ a, xs[l'.toNat]? = some a ∧ less a v = false) ∧
      AllOn (fun a => less a v = true) l.toNat l'.toNat xs := by
  have hend : l + 1 * ((q - l).toNat : Int) = q := by omega
  obtain ⟨m, hm, hloop, hfound, hpassed⟩ := @scan_elements _ (fun l => ops.lessP xs l pivot) (fun a => less a v) xs 1 l b
    (q - l).toNat fuel (fun m hm a ha => hops.lessP xs _ _ a v (by omega) (by omega) hpl hpr ha hpivot)
    (fun m hm => by omega) (by rwa [hend]) hstop hfuel
  refine ⟨l + 1 * m, by omega, by omega, hloop, hfound, ?_⟩
  intro i a hi₁ hi₂ ha
  have hpos : (l + 1 * ((i - l.toNat : Nat) : Int)).toNat = i := by omega
  exact hpassed (i - l.toNat) (by omega) a (by rwa [hpos])

theorem scan_right {r q : Int} {b : α} {fuel : Nat} (hr : r ≤ right) (hqr : q ≤ r) (hq : left ≤ q)
    (hb : xs[q.toNat]? = some b) (hstop : less v b = false) (hfuel : (r - q).toNat < fuel) :
    ∃ r', q ≤ r' ∧ r' ≤ r ∧ loop (scanRound (fun r => ops.lessP xs pivot r) (-1)) fuel r = .ok r' ∧
      (∃ a, xs[r'.toNat]? = some a ∧ less v a = false) ∧
      AllOn (fun a => less v a = true) (r' + 1).toNat (r + 1).toNat xs := by
  have hend : r + -1 * ((r - q).toNat : Int) = q := by omega
  obtain ⟨m, hm, hloop, hfound, hpassed⟩ := @scan_elements _ (fun r => ops.lessP xs pivot r) (fun a => less v a) xs (-1) r
    b (r - q).toNat fuel (fun m hm a ha => hops.lessP xs _ _ v a hpl hpr (by omega) (by omega) hpivot ha)
    (fun m hm => by omega) (by rwa [hend]) hstop hfuel
  refine ⟨r + -1 * m, by omega, by omega, hloop, hfound, ?_⟩
  intro i a hi₁ hi₂ ha
  have hpos : (r + -1 * ((r.toNat - i : Nat) : Int)).toNat = i := by omega
  exact hpassed (r.toNat - i) (by omega) a (by rwa [hpos])

end

section
variable {xs : List α} {v : α} {s : Scan (List α)}

theorem Partial.strictWeak (h : Partial less left right xs v s) (hless : StrictWeak less xs) :
    StrictWeak less s.array := hless.perm h.rearranged.perm

/-- What stops the scan to the right: first the pivot, later the element after `r`. -/
theorem Partial.stop_left (h : Partial less left right xs v s) (h0 : 0 ≤ left) (hless : StrictWeak less xs)
    (hlen : right < xs.length) (hle : s.l ≤ s.r) :
    ∃ q b, s.l ≤ q ∧ q ≤ right ∧ (s.r = right → q = s.pivot) ∧ s.array[q.toNat]? = some b ∧ less b v = false := by
  rcases h.moved with ⟨hl, hr⟩ | ⟨hl, hr⟩
  · refine ⟨s.pivot, v, ?_, h.pivot_le, fun _ => rfl, h.pivot, ?_⟩
    · rw [hl]
      exact h.pivot_ge
    · exact (h.strictWeak hless).irrefl v (List.mem_of_getElem? h.pivot)
  · have hlength := h.rearranged.perm.length_eq
    obtain ⟨b, hb⟩ : ∃ b, s.array[(s.r + 1).toNat]? = some b := ⟨_, List.getElem?_eq_getElem (by omega)⟩
    refine ⟨s.r + 1, b, by omega, by omega, by omega, hb, ?_⟩
    exact h.high _ b (by omega) (by omega) hb

/-- What stops the scan to the left: first the pivot, later the element before `l`. -/
theorem Partial.stop_right (h : Partial less left right xs v s) (h0 : 0 ≤ left) (hless : StrictWeak less xs)
    (hlen : right < xs.length) (hle : s.l ≤ s.r) :
    ∃ q b, left ≤ q ∧ q ≤ s.r ∧ (s.l = left → q = s.pivot) ∧ s.array[q.toNat]? = some b ∧ less v b = false := by
  rcases h.moved with ⟨hl, hr⟩ | ⟨hl, hr⟩
  · refine ⟨s.pivot, v, h.pivot_ge, ?_, fun _ => rfl, h.pivot, ?_⟩
    · rw [hr]
      exact h.pivot_le
    · exact (h.strictWeak hless).irrefl v (List.mem_of_getElem? h.pivot)
  · have hlength := h.rearranged.perm.length_eq
    have hlr := h.l_le
    obtain ⟨b, hb⟩ : ∃ b, s.array[(s.l - 1).toNat]? = some b := ⟨_, List.getElem?_eq_getElem (by omega)⟩
    refine ⟨s.l - 1, b, by omega, by omega, by omega, hb, ?_⟩
    exact h.low _ b (by omega) (by omega) hb

/-- The scans widen what is known of both sides. -/
theorem Partial.widen (h : Partial less left right xs v s) (hless : StrictWeak less xs) {l r : Int}
    (hscan_l : AllOn (fun a => less a v = true) s.l.toNat l.toNat s.array)
    (hscan_r : AllOn (fun a => less v a = true) (r + 1).toNat (s.r + 1).toNat s.array) :
    AllOn (fun a => less v a = false) left.toNat l.toNat s.array ∧
      AllOn (fun a => less a v = false) (r + 1).toNat (right + 1).toNat s.array := by
  have hv := List.mem_of_getElem? h.pivot
  refine ⟨fun i a hi₁ hi₂ ha => ?_, fun i a hi₁ hi₂ ha => ?_⟩
  · by_cases hold : i < s.l.toNat
    · exact h.low i a hi₁ hold ha
    · exact (h.strictWeak hless).asymm (List.mem_of_getElem? ha) hv (hscan_l i a (by omega) hi₂ ha)
  · by_cases hold : (s.r + 1).toNat ≤ i
    · exact h.high i a hold hi₂ ha
    · exact (h.strictWeak hless).asymm hv (List.mem_of_getElem? ha) (hscan_r i a hi₁ (by omega) ha)

/-- Exchanging the elements at `l` and `r`, with the pivot's position. -/
theorem Partial.exchange (h : Partial less left right xs v s) (h0 : 0 ≤ left) (hlen : right < xs.length) {l r : Int}
    {a b : α} (hl : left ≤ l) (hlr : l ≤ r) (hr : r ≤ right)
    (hlow : AllOn (fun a => less v a = false) left.toNat l.toNat s.array)
    (hhigh : AllOn (fun a => less a v = false) (r + 1).toNat (right + 1).toNat s.array)
    (ha : s.array[l.toNat]? = some a) (hav : less a v = false) (hb : s.array[r.toNat]? = some b)
    (hvb : less v b = false) :
    Partial less left right xs v ⟨s.array.swap l.toNat r.toNat,
      if s.pivot = l then r else if s.pivot = r then l else s.pivot, l + 1, r - 1⟩ := by
  have hlength := h.rearranged.perm.length_eq
  have hge := h.pivot_ge
  have hle := h.pivot_le
  have hli : l.toNat < s.array.length := by omega
  have hri : r.toNat < s.array.length := by omega
  have hget := getElem?_swap hli hri
  refine ⟨?_, ?_, ?_, ?_, by simp only; omega, by simp only; omega, ?_, ?_, .inr ⟨by simp only; omega, by simp only; omega⟩⟩
  · exact h.rearranged.trans (Rearranged.swap hli hri ⟨by omega, by omega⟩ ⟨by omega, by omega⟩)
  · simp only
    split_ifs <;> omega
  · simp only
    split_ifs <;> omega
  · have hp := h.pivot
    simp only
    split_ifs with hpl hpr
    · rw [hget, if_pos rfl, ← hpl, hp]
    · rw [hget, ← hp, hpr]
      by_cases hsame : l.toNat = r.toNat
      · rw [if_pos hsame, hsame]
      · rw [if_neg hsame, if_pos rfl]
    · rw [hget, if_neg (by omega), if_neg (by omega), hp]
  · intro i c hi₁ hi₂ hc
    simp only at hi₂ hc
    rw [hget] at hc
    split_ifs at hc with hir hil
    · have hlr' : l.toNat = r.toNat := by omega
      rw [hlr', hb] at hc
      cases hc
      exact hvb
    · rw [hb] at hc
      cases hc
      exact hvb
    · exact hlow i c hi₁ (by omega) hc
  · intro i c hi₁ hi₂ hc
    simp only at hi₁ hc
    rw [hget] at hc
    split_ifs at hc with hir hil
    · rw [ha] at hc
      cases hc
      exact hav
    · have hlr' : l.toNat = r.toNat := by omega
      omega
    · exact hhigh i c (by omega) hi₂ hc

/-- A round that begins with `l <= r` goes on, with less between `l` and `r`. -/
theorem Partial.round (h : Partial less left right xs v s) (hops : Compares ops less left right) (h0 : 0 ≤ left)
    (hless : StrictWeak less xs) (hlen : right < xs.length) {fuel : Nat} (hfuel : (right - left + 1).toNat < fuel)
    (hle : s.l ≤ s.r) : ∃ s', partitionRound ops fuel s = .ok (.inl s') ∧ Partial less left right xs v s' ∧
      (s'.r - s'.l + 1).toNat < (s.r - s.l + 1).toNat := by
  have hlength := h.rearranged.perm.length_eq
  have hll := h.l_le
  have hlr := h.le_r
  have hbounds : left ≤ s.l ∧ s.r ≤ right := by
    rcases h.moved with h | h <;> omega
  obtain ⟨q, b, hq₁, hq₂, hqp, hb, hbv⟩ := h.stop_left h0 hless hlen hle
  obtain ⟨p, c, hp₁, hp₂, hpp, hc, hvc⟩ := h.stop_right h0 hless hlen hle
  obtain ⟨l, hl₁, hl₂, hloop_l, ⟨a, ha, hav⟩, hscan_l⟩ :=
    scan_left hops h0 (by omega) h.pivot_ge h.pivot_le h.pivot hbounds.1 hq₁ hq₂ hb hbv
      (show (q - s.l).toNat < fuel by omega)
  obtain ⟨r, hr₁, hr₂, hloop_r, ⟨d, hd, hvd⟩, hscan_r⟩ :=
    scan_right hops h0 (by omega) h.pivot_ge h.pivot_le h.pivot hbounds.2 hp₂ hp₁ hc hvc
      (show (s.r - p).toNat < fuel by omega)
  obtain ⟨hlow, hhigh⟩ := h.widen hless hscan_l hscan_r
  by_cases hcross : l ≤ r
  · refine ⟨_, ?_, h.exchange h0 hlen (by omega) hcross (by omega) hlow hhigh ha hav hd hvd, ?_⟩
    · simp only [partitionRound, hle, if_true, hloop_l, hloop_r, ok_bind, hcross, pure_eq_ok,
        hops.swap s.array l r (by omega) (by omega) (by omega) (by omega) (by omega) (by omega)]
    · simp only
      omega
  · refine ⟨⟨s.array, s.pivot, l, r⟩, ?_, ?_, ?_⟩
    · simp only [partitionRound, hle, if_true, hloop_l, hloop_r, ok_bind, hcross, if_false, pure_eq_ok]
    · refine ⟨h.rearranged, h.pivot_ge, h.pivot_le, h.pivot, by simp only; omega, by simp only; omega, hlow, hhigh, ?_⟩
      rcases h.moved with ⟨hl, hr⟩ | ⟨hl, hr⟩
      · have hq := hqp hr
        have hp := hpp hl
        omega
      · exact .inr ⟨by simp only; omega, by simp only; omega⟩
    · simp only
      omega

end

/-! ## The sort -/

section
variable {xs : List α} {fuel : Nat}

/-- `partition` returns, with the bounds crossed and both strictly inside. -/
theorem partition_spec (hops : Compares ops less left right) (h0 : 0 ≤ left) (hlt : left < right)
    (hless : StrictWeak less xs) (hlen : right < xs.length) (hfuel : (right - left + 1).toNat < fuel) :
    ∃ v s, partition ops fuel xs left right = .ok s ∧ Partial less left right xs v s ∧ s.r < s.l ∧ left < s.l ∧
      s.r < right := by
  have hmid : left ≤ left + (right - left) / 2 ∧ left + (right - left) / 2 ≤ right := by omega
  obtain ⟨v, hv⟩ : ∃ v, xs[(left + (right - left) / 2).toNat]? = some v := ⟨_, List.getElem?_eq_getElem (by omega)⟩
  have hstart : Partial less left right xs v ⟨xs, left + (right - left) / 2, left, right⟩ :=
    ⟨.refl _ _ _, hmid.1, hmid.2, hv, by simp only; omega, by simp only; omega,
      fun i a hi₁ hi₂ => by simp only at hi₂; omega, fun i a hi₁ hi₂ => by simp only at hi₁; omega, .inl ⟨rfl, rfl⟩⟩
  have hround : ∀ s, Partial less left right xs v s → s.r < s.l ∧ partitionRound ops fuel s = .ok (.inr s) ∨
      ∃ s', partitionRound ops fuel s = .ok (.inl s') ∧ Partial less left right xs v s' ∧
        (s'.r - s'.l + 1).toNat < (s.r - s.l + 1).toNat := by
    intro s h
    by_cases hle : s.l ≤ s.r
    · exact .inr (h.round hops h0 hless hlen hfuel hle)
    · exact .inl ⟨by omega, by simp only [partitionRound, hle, if_false, pure_eq_ok]⟩
  obtain ⟨s, hs⟩ := loop_returns (Partial less left right xs v) (fun s => (s.r - s.l + 1).toNat)
    (fun s h => (hround s h).imp_left fun hexit => ⟨s, hexit.2⟩) hstart hfuel
  have hout : Partial less left right xs v s ∧ s.r < s.l := by
    refine loop_inv (Partial less left right xs v) (fun s => Partial less left right xs v s ∧ s.r < s.l) ?_ ?_ hstart hs
    · intro s s' h hnext
      rcases hround s h with ⟨-, hexit⟩ | ⟨s'', hs'', hpart, -⟩
      · rw [hnext] at hexit
        cases hexit
      · rw [hnext] at hs''
        cases hs''
        exact hpart
    · intro s s' h hexit'
      rcases hround s h with ⟨hcross, hexit⟩ | ⟨s'', hs'', -, -⟩
      · rw [hexit'] at hexit
        cases hexit
        exact ⟨h, hcross⟩
      · rw [hexit'] at hs''
        cases hs''
  obtain ⟨hpart, hcross⟩ := hout
  have hmoved := hpart.moved
  exact ⟨v, s, hs, hpart, hcross, by omega, by omega⟩

theorem quicksort_of_le (fuel : Nat) (xs : List α) (h : right ≤ left) : quicksort ops fuel xs left right = .ok xs := by
  unfold quicksort
  rw [if_pos h]
  rfl

/-- The tests before the calls only spare them. -/
theorem sorts_if (fuel : Nat) (xs : List α) (left right : Int) :
    (if left < right then quicksort ops fuel xs left right else pure xs) = quicksort ops fuel xs left right := by
  split
  · rfl
  · rw [quicksort_of_le fuel xs (by omega)]
    rfl

/-- With enough fuel `quicksort` returns with the range sorted. -/
theorem quicksort_spec (hops : Compares ops less left right) (h0 : 0 ≤ left) (hless : StrictWeak less xs)
    (hlen : right < xs.length) (hfuel : (right - left + 3).toNat ≤ fuel) :
    ∃ ys, quicksort ops fuel xs left right = .ok ys ∧ Rearranged left.toNat (right + 1).toNat xs ys ∧
      Sorted less left.toNat (right + 1).toNat ys := by
  induction fuel generalizing xs left right with
  | zero =>
    refine ⟨xs, quicksort_of_le 0 xs (by omega), .refl _ _ _, ?_⟩
    intro i j a b hi hij hj
    omega
  | succ fuel ih =>
    by_cases hle : right ≤ left
    · refine ⟨xs, quicksort_of_le _ xs hle, .refl _ _ _, ?_⟩
      intro i j a b hi hij hj
      omega
    · obtain ⟨v, s, hs, hpart, hcross, hsl, hsr⟩ := partition_spec hops h0 (by omega) hless hlen (show _ < fuel by omega)
      have hsize := hpart.rearranged.perm.length_eq
      obtain ⟨ys, hys, hrys, hsys⟩ := ih (hops.narrow (Int.le_refl left) (by omega)) h0 (hpart.strictWeak hless)
        (show s.r < s.array.length by omega) (by omega)
      have hpys := hrys.perm.trans hpart.rearranged.perm
      have hysize := hpys.length_eq
      obtain ⟨zs, hzs, hrzs, hszs⟩ := ih (hops.narrow (show left ≤ s.l by omega) (Int.le_refl right)) (by omega)
        (hless.perm hpys) (show right < ys.length by omega) (by omega)
      have hpzs := hrzs.perm.trans hpys
      refine ⟨zs, ?_, ?_, ?_⟩
      · rw [quicksort, if_neg hle]
        simp only [hs, ok_bind, sorts_if, hys, hzs]
        split
        · rfl
        · rw [quicksort_of_le fuel s.array (by omega)] at hys
          cases hys
          exact hzs
      · have hfirst := hpart.rearranged.trans (hrys.widen (Nat.le_refl _) (by omega))
        exact hfirst.trans (hrzs.widen (by omega) (Nat.le_refl _))
      · -- the gap between the two ranges holds elements that are neither less nor greater than the pivot
        have hlow := (hpart.low.rearranged hrys (by omega) (by omega)).rearranged hrzs (by omega) (by omega)
        have hhigh := (hpart.high.rearranged hrys (by omega) (by omega)).rearranged hrzs (by omega) (by omega)
        have hv := (hrzs.perm.trans hrys.perm).mem_iff.2 (List.mem_of_getElem? hpart.pivot)
        have hsorted := hsys.congr fun i hi₁ hi₂ => hrzs.outside i (by omega)
        exact hsorted.join (hless.perm hpzs) hv hlow hhigh hszs

/-- The range is sorted: its elements in another order, none before one that is less. -/
theorem quicksort_sorts (hops : Compares ops less left right) (hless : StrictWeak less xs) (h0 : 0 ≤ left)
    (hle : left ≤ right + 1) (hlen : right < xs.length) (hfuel : (right - left + 3).toNat ≤ fuel) :
    ∃ ys, quicksort ops fuel xs left right = .ok ys ∧
      (slice left.toNat (right + 1).toNat ys).Perm (slice left.toNat (right + 1).toNat xs) ∧
      (∀ (i j : Int) (a b : α), left ≤ i → i < j → j ≤ right → ys[i.toNat]? = some a → ys[j.toNat]? = some b →
        less b a = false) ∧
      ∀ i : Nat, (i : Int) < left ∨ right < i → ys[i]? = xs[i]? := by
  obtain ⟨ys, hys, hr, hs⟩ := quicksort_spec hops h0 hless hlen hfuel
  refine ⟨ys, hys, hr.slice_perm (by omega), ?_, ?_⟩
  · intro i j a b hi hij hj ha hb
    exact hs i.toNat j.toNat a b (by omega) (by omega) (by omega) ha hb
  · intro i hi
    exact hr.outside i (by omega)

example : quicksort (elementOps fun a b : Nat => decide (a < b)) 6 [3, 1, 2, 1] 0 3 = .ok [1, 1, 2, 3] := by decide

/-- `quicksort_sorts` at an array of three numbers. -/
theorem quicksort_sorts_three : ∃ ys, quicksort (elementOps fun a b => decide (a < b)) 5 [3, 1, 2] 0 2 = .ok ys ∧
    (slice 0 3 ys).Perm (slice 0 3 [3, 1, 2]) ∧
    (∀ (i j : Int) (a b : Nat), 0 ≤ i → i < j → j ≤ 2 → ys[i.toNat]? = some a → ys[j.toNat]? = some b →
      decide (b < a) = false) ∧
    ∀ i : Nat, (i : Int) < 0 ∨ 2 < (i : Int) → ys[i]? = ([3, 1, 2] : List Nat)[i]? :=
  quicksort_sorts (elementOps_compares _ 2 (by decide)) (strictWeak_lt _) (by decide) (by decide) (by decide)
    (by decide)

/-- Stopped at any position outside of its range, `quicksort` returns all the same,
and the two ranges it goes on with are shorter. -/
theorem quicksort_in_range (hops : Compares ops less left right) (hless : StrictWeak less xs) (h0 : 0 ≤ left)
    (hlen : right < xs.length) (hfuel : (right - left + 3).toNat ≤ fuel) :
    (∃ ys, quicksort (ops.confine left right) fuel xs left right = .ok ys) ∧
      (left < right → ∃ s, partition (ops.confine left right) fuel xs left right = .ok s ∧
        s.r - left < right - left ∧ right - s.l < right - left) := by
  refine ⟨?_, fun hlt => ?_⟩
  · obtain ⟨ys, hys, -⟩ := quicksort_spec hops.confine h0 hless hlen hfuel
    exact ⟨ys, hys⟩
  · obtain ⟨v, s, hs, -, -, hl, hr⟩ := partition_spec hops.confine h0 hlt hless hlen (show _ < fuel by omega)
    exact ⟨s, hs, by omega, by omega⟩

/-- `quicksort_in_range` at the same array. -/
theorem quicksort_in_range_three :
    (∃ ys, quicksort ((elementOps fun a b => decide (a < b)).confine 0 2) 5 [3, 1, 2] 0 2 = .ok ys) ∧
      (0 < (2 : Int) → ∃ s, partition ((elementOps fun a b => decide (a < b)).confine 0 2) 5 [3, 1, 2] 0 2 = .ok s ∧
        s.r - 0 < 2 - 0 ∧ 2 - s.l < 2 - 0) :=
  quicksort_in_range (elementOps_compares _ 2 (by decide)) (strictWeak_lt _) (by decide) (by decide) (by decide)

end

end SphSc.Quicksort

import Mathlib.Data.Nat.Bitwise
import Mathlib.Tactic.Common
/-!
# Rings of slots

Positions `0 .. n-1` around a ring: `next` moves one slot forward and
`dist n h i` counts the slots from `h` forward to `i`. Both are written with
`if` on positions, so `omega` decides facts about them from `next_cases` and
`dist_cases`. The last section
computes them the way 64-bit code does when `n` is a power of two, with a mask.
-/

namespace Ring

def next (n i : Nat) : Nat := if i + 1 = n then 0 else i + 1

def dist (n h i : Nat) : Nat := if h ≤ i then i - h else i + n - h

variable {n h i j : Nat}

theorem next_cases (n i : Nat) : i + 1 = n ∧ next n i = 0 ∨ i + 1 ≠ n ∧ next n i = i + 1 := by
  unfold next; split <;> simp [*]

theorem dist_cases (n h i : Nat) : h ≤ i ∧ dist n h i = i - h ∨ i < h ∧ dist n h i = i + n - h := by
  unfold dist; split <;> simp [*]; omega

theorem next_lt (hi : i < n) : next n i < n := by
  have := next_cases n i; omega

theorem dist_lt (hh : h < n) (hi : i < n) : dist n h i < n := by
  have := dist_cases n h i; omega

@[simp] theorem dist_self : dist n h h = 0 := by simp [dist]

/-- Positions are told apart by their distance from a fixed one. -/
theorem dist_inj (hh : h < n) (hi : i < n) (hj : j < n) : dist n h i = dist n h j ↔ i = j := by
  have := dist_cases n h i; have := dist_cases n h j; omega

/-- As are those from which a fixed one is reached. -/
theorem dist_inj_left (hi : i < n) (hj : j < n) : dist n i h = dist n j h ↔ i = j := by
  have := dist_cases n i h; have := dist_cases n j h; omega

theorem exists_dist {d : Nat} (hh : h < n) (hd : d < n) : ∃ i < n, dist n i h = d := by
  by_cases hle : d ≤ h
  · refine ⟨h - d, by omega, ?_⟩
    have := dist_cases n (h - d) h; omega
  · refine ⟨h + n - d, by omega, ?_⟩
    have := dist_cases n (h + n - d) h; omega

/-- On the way from `h` to `z`, `i` comes by `z`. -/
theorem dist_add {z : Nat} (hh : h < n) (hi : i < n) (hz : z < n) (hle : dist n h i ≤ dist n h z) :
    dist n h i + dist n i z = dist n h z := by
  have := dist_cases n h i; have := dist_cases n h z; have := dist_cases n i z; omega

theorem dist_add' {z : Nat} (hh : h < n) (hi : i < n) (hle : dist n i z ≤ dist n h z) :
    dist n h i + dist n i z = dist n h z := by
  have := dist_cases n h i; have := dist_cases n h z; have := dist_cases n i z; omega

theorem dist_next (hh : h < n) (hi : i < n) (hne : next n i ≠ h) : dist n h (next n i) = dist n h i + 1 := by
  have := dist_cases n h i; have := dist_cases n h (next n i); have := next_cases n i; omega

/-- From every other slot, `z` is one slot nearer from the next. -/
theorem dist_next_left {z : Nat} (hi : i < n) (hz : z < n) (hne : i ≠ z) : dist n i z = dist n (next n i) z + 1 := by
  have := dist_cases n i z; have := dist_cases n (next n i) z; have := next_cases n i; omega

/-! ## Masks -/

/-- The number of `size_t` values. -/
def word : Nat := 2 ^ 64

/-- `a + b`, `a - b` and `a * b` on `size_t`. -/
def wadd (a b : Nat) : Nat := (a + b) % word

def wsub (a b : Nat) : Nat := (a + (word - b)) % word

def wmul (a b : Nat) : Nat := a * b % word

theorem wsub_of_le {a b : Nat} (ha : a < word) (hb : b ≤ a) : wsub a b = a - b := by
  rw [wsub, show a + (word - b) = (a - b) + word by omega, Nat.add_mod_right]
  exact Nat.mod_eq_of_lt (by omega)

theorem dvd_word {k : Nat} (hk : n = 2 ^ k) (hn : n ≤ word) : n ∣ word := by
  subst hk
  exact (Nat.pow_dvd_pow_iff_le_right (by omega)).2 ((Nat.pow_le_pow_iff_right (by omega)).1 hn)

theorem and_mask (a : Nat) {k : Nat} (hk : n = 2 ^ k) (hn : n ≤ word) : (a % word) &&& (n - 1) = a % n := by
  have hd := dvd_word hk hn
  subst hk
  rw [Nat.and_two_pow_sub_one_eq_mod, Nat.mod_mod_of_dvd a hd]

/-- `(index + 1) & mask`. -/
theorem wadd_one_mask {k : Nat} (hk : n = 2 ^ k) (hn : n ≤ word) (hi : i < n) : wadd i 1 &&& (n - 1) = next n i := by
  rw [wadd, and_mask _ hk hn, next]
  split
  · simp [*]
  · exact Nat.mod_eq_of_lt (by omega)

/-- `(index - home) & mask`. -/
theorem wsub_mask {k : Nat} (hk : n = 2 ^ k) (hn : n ≤ word) (hh : h < n) (hi : i < n) :
    wsub i h &&& (n - 1) = dist n h i := by
  obtain ⟨m, hm⟩ := dvd_word hk hn
  obtain ⟨m, rfl⟩ : ∃ m', m = m' + 1 := by
    cases m with
    | zero => simp [word] at hm
    | succ m => exact ⟨m, rfl⟩
  rw [Nat.mul_succ] at hm
  rw [wsub, and_mask _ hk hn, dist]
  split
  · rw [show i + (word - h) = (i - h) + n * (m + 1) by rw [Nat.mul_succ]; omega, Nat.add_mul_mod_self_left]
    exact Nat.mod_eq_of_lt (by omega)
  · rw [show i + (word - h) = (i + n - h) + n * m by omega, Nat.add_mul_mod_self_left]
    exact Nat.mod_eq_of_lt (by omega)

end Ring

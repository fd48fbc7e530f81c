import SphSc.Lib.Rounding
/-!
# Floats up to a greatest one

A sum whose rounding is beyond the greatest number is infinite, and operations
on infinities may have no number for a result. Zeros have no sign.
-/

/-- How floats of `p` bits are rounded, and the greatest of them. -/
structure Floats (p : Nat) where
  rounding : Rounding p
  greatest : ℤ

namespace Floats

inductive Value where
  | number (x : ℤ)
  | infinite (negative : Bool)
  | nan
  deriving DecidableEq

namespace Value

def neg : Value → Value
  | number x => number (-x)
  | infinite negative => infinite !negative
  | nan => nan

/-- Whether the second one is at most the first. -/
def ge : Value → Value → Bool
  | number x, number y => y ≤ x
  | number _, infinite negative => negative
  | infinite false, number _ | infinite false, infinite _ | infinite true, infinite true => true
  | infinite true, number _ | infinite true, infinite false => false
  | nan, _ | _, nan => false

end Value

open Value

variable {p : Nat} (F : Floats p)

def ofRounded (x : ℤ) : Value :=
  if F.greatest < x then infinite false else if x < -F.greatest then infinite true else number x

def add : Value → Value → Value
  | number x, number y => F.ofRounded (F.rounding.add x y)
  | number _, infinite negative | infinite negative, number _ => infinite negative
  | infinite negative, infinite negative' => if negative = negative' then infinite negative else nan
  | nan, _ | _, nan => nan

def sub (x y : Value) : Value := F.add x y.neg

theorem ofRounded_of_le {x : ℤ} (h : |x| ≤ F.greatest) : F.ofRounded x = number x := by
  obtain ⟨hlow, hhigh⟩ := abs_le.1 h
  rw [ofRounded, if_neg (not_lt.2 hhigh), if_neg (not_lt.2 hlow)]

theorem ofRounded_of_lt {x : ℤ} (h : F.greatest < x) : F.ofRounded x = infinite false := if_pos h

theorem add_number {x y : ℤ} (h : |F.rounding.add x y| ≤ F.greatest) :
    F.add (number x) (number y) = number (F.rounding.add x y) := F.ofRounded_of_le h

theorem sub_number {x y : ℤ} (h : |F.rounding.sub x y| ≤ F.greatest) :
    F.sub (number x) (number y) = number (F.rounding.sub x y) := by
  have hsub : F.rounding.add x (-y) = F.rounding.sub x y := by rw [Rounding.add, Rounding.sub, Int.sub_eq_add_neg]
  rw [← hsub] at h ⊢
  exact F.add_number h

/-- The error of a sum is computed from the greater number where the sum is not too great. -/
theorem add_sub_add {x y : ℤ} (hp : 0 < p) (hx : Rounding.IsFloat p x) (hy : Rounding.IsFloat p y) (h0 : 0 ≤ y)
    (hle : y ≤ x) (hsum : F.rounding.add x y ≤ F.greatest) :
    F.add (F.sub (number x) (number (F.rounding.add x y))) (number y) = number (x + y - F.rounding.add x y) := by
  have hge := F.rounding.le_add hx h0
  have hsub : F.rounding.sub x (F.rounding.add x y) = x - F.rounding.add x y :=
    F.rounding.sub_of_isFloat (F.rounding.isFloat_add_error hp hx hy h0 hle).1
  have herror := F.rounding.add_sub_add hp hx hy h0 hle
  rw [F.sub_number (by rw [hsub, abs_le]; omega), F.add_number, herror]
  rw [herror]
  exact (F.rounding.add_error_le hx h0).trans (by omega)

@[simp] theorem add_nan (x : Value) : F.add x nan = nan := by cases x <;> rfl

@[simp] theorem nan_add (x : Value) : F.add nan x = nan := rfl

@[simp] theorem infinite_add_number (negative : Bool) (x : ℤ) :
    F.add (infinite negative) (number x) = infinite negative := rfl

@[simp] theorem infinite_add_infinite (negative negative' : Bool) :
    F.add (infinite negative) (infinite negative') = if negative = negative' then infinite negative else nan := rfl

@[simp] theorem number_sub_infinite (x : ℤ) (negative : Bool) :
    F.sub (number x) (infinite negative) = infinite !negative := rfl

@[simp] theorem infinite_sub_self (negative : Bool) : F.sub (infinite negative) (infinite negative) = nan := by
  cases negative <;> rfl

end Floats

import Mathlib.Algebra.Group.Nat.Defs
import SphSc.Lib.Numerals
/-!
# Numbers in decimal

The digits of a number, the last of which is its remainder by ten. Read again,
they give the number.
-/
open Exec

namespace Numerals

/-- The digit for a number below ten. -/
def digit (n : Nat) : Byte := BitVec.ofNat 8 (48 + n)

/-- The digits of a number, without leading zeros. -/
def decimal (n : Nat) : List Byte := (Nat.toDigits 10 n).map fun c => BitVec.ofNat 8 c.toNat

theorem toNat_digit {n : Nat} (h : n < 10) : (digit n).toNat = 48 + n := by
  rw [digit, BitVec.toNat_ofNat]
  omega

theorem digit_eq {n : Nat} (h : n < 10) : BitVec.ofNat 8 n.digitChar.toNat = digit n := by
  have hall : ∀ n < 10, BitVec.ofNat 8 n.digitChar.toNat = digit n := by decide
  exact hall n h

theorem decimal_of_lt {n : Nat} (h : n < 10) : decimal n = [digit n] := by
  rw [decimal, Nat.toDigits_of_lt_base h, List.map_singleton, digit_eq h]

theorem decimal_of_le {n : Nat} (h : 10 ≤ n) : decimal n = decimal (n / 10) ++ [digit (n % 10)] := by
  rw [decimal, Nat.toDigits_of_base_le (by decide) h, List.map_append, List.map_singleton,
    digit_eq (Nat.mod_lt n (by decide))]
  rfl

theorem decimal_ne_nil (n : Nat) : decimal n ≠ [] := by
  rw [decimal, ne_eq, List.map_eq_nil_iff]
  exact Nat.toDigits_ne_nil

theorem length_decimal_le_iff {n k : Nat} (hk : 0 < k) : (decimal n).length ≤ k ↔ n < 10 ^ k := by
  rw [decimal, List.length_map]
  exact Nat.length_toDigits_le_iff (by decide) hk

theorem isDigit_digit {n : Nat} (h : n < 10) : isDigit (digit n) := by
  rw [isDigit, toNat_digit h, decide_eq_true_eq]
  omega

theorem isDigit_decimal {n : Nat} {c : Byte} (h : c ∈ decimal n) : isDigit c := by
  induction n using Nat.strong_induction_on with
  | _ n ih =>
    rcases Nat.lt_or_ge n 10 with hlt | hle
    · rw [decimal_of_lt hlt, List.mem_singleton] at h
      rw [h]
      exact isDigit_digit hlt
    · rw [decimal_of_le hle, List.mem_append, List.mem_singleton] at h
      rcases h with h | rfl
      · exact ih (n / 10) (Nat.div_lt_self (by omega) (by decide)) h
      · exact isDigit_digit (Nat.mod_lt n (by decide))

/-- The digits stand for the number. -/
theorem ofDigits_decimal (n : Nat) : ofDigits (decimal n) = n := by
  induction n using Nat.strong_induction_on with
  | _ n ih =>
    rcases Nat.lt_or_ge n 10 with hlt | hle
    · rw [decimal_of_lt hlt, ofDigits, List.foldl_cons, List.foldl_nil, toNat_digit hlt]
      omega
    · have hrest := ih (n / 10) (Nat.div_lt_self (by omega) (by decide))
      rw [ofDigits] at hrest
      rw [decimal_of_le hle, ofDigits, List.foldl_append, hrest, List.foldl_cons, List.foldl_nil,
        toNat_digit (Nat.mod_lt n (by decide))]
      omega

/-- Only zero starts with a zero. -/
theorem head_decimal_iff (n : Nat) : (decimal n).head? = some (digit 0) ↔ n = 0 := by
  induction n using Nat.strong_induction_on with
  | _ n ih =>
    rcases Nat.lt_or_ge n 10 with hlt | hle
    · rw [decimal_of_lt hlt, List.head?_cons, Option.some.injEq]
      constructor
      · intro h
        have htoNat := congrArg BitVec.toNat h
        rw [toNat_digit hlt, toNat_digit (by decide)] at htoNat
        omega
      · rintro rfl
        rfl
    · have hrest := ih (n / 10) (Nat.div_lt_self (by omega) (by decide))
      obtain ⟨c, rest, hdecimal⟩ := List.exists_cons_of_ne_nil (decimal_ne_nil (n / 10))
      rw [hdecimal, List.head?_cons] at hrest
      rw [decimal_of_le hle, hdecimal, List.cons_append, List.head?_cons, hrest]
      omega

end Numerals

import Mathlib.Algebra.Group.Int.Defs
import Mathlib.Data.List.TakeWhile
import SphSc.Lib.Exec
/-!
# Numbers at the start of a text

`strtol` and `strtod` skip blanks, take as much as is a number of what comes
next, and say where it ended. Where no number comes next they take nothing and
give 0. A number has no blanks in it, so what they take depends on the first
word only.
-/
open Exec

namespace Numerals

/-- `isspace` -/
def isSpace (c : Byte) : Bool := c.toNat = 32 ∨ (9 ≤ c.toNat ∧ c.toNat ≤ 13)

/-- The longest number that words start with, with its length. -/
structure Numeral (V : Type) where
  zero : V
  convert : List Byte → Option (V × Nat)
  pos : ∀ word v n, convert word = some (v, n) → 0 < n
  le : ∀ word v n, convert word = some (v, n) → n ≤ word.length

/-- What stands between the blanks at the start, if there are any, and the next. -/
def firstWord (text : List Byte) : List Byte := (text.dropWhile isSpace).takeWhile fun c => !isSpace c

/-- There is nothing but blanks. -/
def Blank (text : List Byte) : Prop := ∀ c ∈ text, isSpace c

instance (text : List Byte) : Decidable (Blank text) := inferInstanceAs (Decidable (∀ c ∈ text, isSpace c = true))

namespace Numeral

variable {V W : Type}

/-- A number comes next. -/
def Converts (p : Numeral V) (text : List Byte) : Prop := (p.convert (firstWord text)).isSome

/-- The value, and how much of the text was taken. -/
def strto (p : Numeral V) (text : List Byte) : V × Nat :=
  match p.convert (firstWord text) with
  | none => (p.zero, 0)
  | some (v, n) => (v, (text.takeWhile isSpace).length + n)

/-- The same numbers with other values. -/
def map (f : V → W) (p : Numeral V) : Numeral W where
  zero := f p.zero
  convert word := (p.convert word).map fun (v, n) => (f v, n)
  pos word v n h := by
    obtain ⟨⟨v', n'⟩, h, heq⟩ := Option.map_eq_some_iff.1 h
    cases heq
    exact p.pos word v' n h
  le word v n h := by
    obtain ⟨⟨v', n'⟩, h, heq⟩ := Option.map_eq_some_iff.1 h
    cases heq
    exact p.le word v' n h

variable {p : Numeral V} {text rest : List Byte}

theorem map_converts (f : V → W) : (p.map f).Converts text ↔ p.Converts text := by
  simp [Converts, map]

theorem map_strto (f : V → W) (text : List Byte) : (p.map f).strto text = (f (p.strto text).1, (p.strto text).2) := by
  simp only [strto, map]
  cases p.convert (firstWord text) <;> rfl

theorem strto_of_not (h : ¬ p.Converts text) : p.strto text = (p.zero, 0) := by
  unfold Converts at h
  unfold strto
  rw [Option.not_isSome_iff_eq_none.1 h]

end Numeral

section
variable {V : Type} {p : Numeral V} {text rest : List Byte}

theorem takeWhile_blank (h : Blank text) (rest : List Byte) :
    (text ++ rest).takeWhile isSpace = text ++ rest.takeWhile isSpace := List.takeWhile_append_of_pos h

theorem word_blank (h : Blank text) (rest : List Byte) : firstWord (text ++ rest) = firstWord rest := by
  unfold firstWord
  rw [List.dropWhile_append_of_pos h]

/-- Blanks before a number are taken with it. -/
theorem strto_blank (h : Blank text) (hconv : p.Converts rest) :
    p.strto (text ++ rest) = ((p.strto rest).1, text.length + (p.strto rest).2) := by
  obtain ⟨⟨v, n⟩, hv⟩ := Option.isSome_iff_exists.1 hconv
  unfold Numeral.strto
  rw [word_blank h, hv, takeWhile_blank h, List.length_append]
  simp only [Nat.add_assoc]

theorem converts_blank (h : Blank text) (rest : List Byte) : p.Converts (text ++ rest) ↔ p.Converts rest := by
  unfold Numeral.Converts
  rw [word_blank h]

/-- Blanks end a number. -/
def Ends (rest : List Byte) : Prop := ∀ c, rest.head? = some c → isSpace c

theorem takeWhile_ends (hrest : Ends rest) (text : List Byte) :
    (text ++ rest).takeWhile (fun c => !isSpace c) = text.takeWhile fun c => !isSpace c := by
  have hstop : rest.takeWhile (fun c => !isSpace c) = [] := by
    cases rest with
    | nil => rfl
    | cons c rest => exact List.takeWhile_cons_of_neg (by simp [hrest c rfl])
  rw [List.takeWhile_append]
  split
  · rename_i hall
    rw [hstop, List.append_nil, (List.takeWhile_prefix _).eq_of_length hall]
  · rfl

theorem firstWord_append (h : ¬ Blank text) (hrest : Ends rest) : firstWord (text ++ rest) = firstWord text := by
  have hdrop : (text ++ rest).dropWhile isSpace = text.dropWhile isSpace ++ rest := by
    rw [List.dropWhile_append, if_neg]
    rw [List.isEmpty_iff, List.dropWhile_eq_nil_iff]
    exact h
  unfold firstWord
  rw [hdrop, takeWhile_ends hrest]

theorem converts_append (h : ¬ Blank text) (hrest : Ends rest) : p.Converts (text ++ rest) ↔ p.Converts text := by
  unfold Numeral.Converts
  rw [firstWord_append h hrest]

/-- A text that is not blank is read without what comes after a blank. -/
theorem strto_append (h : ¬ Blank text) (hrest : Ends rest) : p.strto (text ++ rest) = p.strto text := by
  have htake : (text ++ rest).takeWhile isSpace = text.takeWhile isSpace := by
    rw [List.takeWhile_append, if_neg]
    intro hlen
    apply h
    rw [Blank, ← List.takeWhile_eq_self_iff]
    exact (List.takeWhile_prefix _).eq_of_length hlen
  unfold Numeral.strto
  rw [firstWord_append h hrest, htake]

theorem strto_le (p : Numeral V) (text : List Byte) : (p.strto text).2 ≤ text.length := by
  unfold Numeral.strto
  split
  · exact Nat.zero_le _
  · rename_i v n h
    have hle := p.le _ v n h
    have hword : (firstWord text).length ≤ (text.dropWhile isSpace).length := (List.takeWhile_prefix _).length_le
    have hsplit := congrArg List.length (@List.takeWhile_append_dropWhile _ isSpace text)
    rw [List.length_append] at hsplit
    simp only
    omega

theorem strto_pos (h : p.Converts text) : 0 < (p.strto text).2 := by
  obtain ⟨⟨v, n⟩, hv⟩ := Option.isSome_iff_exists.1 h
  have hpos := p.pos _ v n hv
  unfold Numeral.strto
  rw [hv]
  simp only
  omega

end

/-! ## `strtol` with base 10 -/

def isDigit (c : Byte) : Bool := 48 ≤ c.toNat ∧ c.toNat ≤ 57

/-- The number that digits stand for. -/
def ofDigits (digits : List Byte) : Nat := digits.foldl (fun n c => 10 * n + (c.toNat - 48)) 0

def longMax : Int := 2 ^ 63 - 1
def longMin : Int := -2 ^ 63

def plus : Byte := 43
def minus : Byte := 45

/-- The length of a sign at the start. -/
def signLength (word : List Byte) : Nat := if word.head? = some plus ∨ word.head? = some minus then 1 else 0

def convertLong (word : List Byte) : Option (Int × Nat) :=
  let digits := (word.drop (signLength word)).takeWhile isDigit
  if digits = [] then none
  else
    let n : Int := if word.head? = some minus then -ofDigits digits else ofDigits digits
    some (max longMin (min longMax n), signLength word + digits.length)

theorem convertLong_length {word : List Byte} {v : Int} {n : Nat} (h : convertLong word = some (v, n)) :
    0 < n ∧ n ≤ word.length := by
  have hprefix := (List.takeWhile_prefix (p := isDigit) (l := word.drop (signLength word))).length_le
  rw [List.length_drop] at hprefix
  simp only [convertLong] at h
  split at h
  · cases h
  · rename_i hdigits
    have hpos := List.length_pos_iff.2 hdigits
    obtain ⟨-, rfl⟩ := Prod.mk.inj (Option.some.inj h)
    omega

/-- `strtol(text, end, 10)`. What does not fit into a `long` gives the nearest that does. -/
def strtol : Numeral Int where
  zero := 0
  convert := convertLong
  pos _ _ _ h := (convertLong_length h).1
  le _ _ _ h := (convertLong_length h).2

/-- A word of digits is one number. -/
theorem strtol_digits {digits : List Byte} (hne : digits ≠ []) (h : ∀ c ∈ digits, isDigit c) :
    strtol.Converts digits ∧ strtol.strto digits = (min longMax (ofDigits digits), digits.length) := by
  have hspace : ∀ c ∈ digits, isSpace c = false := by
    intro c hc
    have := h c hc
    simp only [isDigit, isSpace, decide_eq_true_eq, decide_eq_false_iff_not] at this ⊢
    omega
  have htake : digits.takeWhile isSpace = [] := by
    obtain ⟨c, rest, rfl⟩ := List.exists_cons_of_ne_nil hne
    exact List.takeWhile_cons_of_neg (by simp [hspace c List.mem_cons_self])
  have hword : firstWord digits = digits := by
    have hdrop : digits.dropWhile isSpace = digits := by
      obtain ⟨c, rest, rfl⟩ := List.exists_cons_of_ne_nil hne
      exact List.dropWhile_cons_of_neg (by simp [hspace c List.mem_cons_self])
    rw [firstWord, hdrop, List.takeWhile_eq_self_iff]
    intro c hc
    simp [hspace c hc]
  have hsign : ∀ s : Byte, isDigit s = false → digits.head? ≠ some s := by
    intro s hs hhead
    rw [h s (List.mem_of_head? hhead)] at hs
    cases hs
  have hconvert : convertLong digits = some (min longMax (ofDigits digits), digits.length) := by
    have hnone : signLength digits = 0 := by
      unfold signLength
      rw [if_neg]
      rintro (hhead | hhead)
      · exact hsign plus (by decide) hhead
      · exact hsign minus (by decide) hhead
    have hall : (digits.drop 0).takeWhile isDigit = digits := List.takeWhile_eq_self_iff.2 h
    simp only [convertLong, hnone, hall, hsign minus (by decide), hne, if_false, Nat.zero_add, Option.some.injEq,
      Prod.mk.injEq, and_true]
    unfold longMin longMax
    omega
  refine ⟨?_, ?_⟩
  · unfold Numeral.Converts
    rw [hword]
    exact Option.isSome_of_eq_some hconvert
  · unfold Numeral.strto
    rw [hword]
    simp only [strtol, hconvert, htake, List.length_nil, Nat.zero_add]

end Numerals

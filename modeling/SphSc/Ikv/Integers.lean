import SphSc.Ikv.Numbers
import SphSc.Lib.Decimal
/-!
# Integers, written and read

`ikv_write_file_direct` writes `uintmax_t` values in full. `ikv_read_value`
reads them with `strtol`, whose values end at `LONG_MAX`.
-/
open Exec Numerals Tokens

namespace SphSc.Ikv

theorem formatInteger_eq (n : Nat) : formatInteger n = decimal n := rfl

/-- The first number has no decimal point. -/
theorem findDot_digits {digits : List Byte} (h : ∀ c ∈ digits, isDigit c) (tokens : List (List Byte)) :
    findDot (digits ++ separated space tokens) = .integers := by
  induction digits with
  | nil =>
    cases tokens with
    | nil => rfl
    | cons token tokens =>
      rw [List.nil_append, separated_cons, findDot, if_neg (by decide), if_pos rfl]
  | cons c digits ih =>
    have hc := h c List.mem_cons_self
    have hdot : c ≠ dot := by
      rintro rfl
      exact absurd hc (by decide)
    have hspace : c ≠ space := by
      rintro rfl
      exact absurd hc (by decide)
    rw [List.cons_append, findDot, if_neg hdot, if_neg hspace]
    exact ih fun c' hc' => h c' (List.mem_cons_of_mem _ hc')

theorem detect_integers {digits : List Byte} (tokens : List (List Byte)) (hne : digits ≠ [])
    (h : ∀ c ∈ digits, isDigit c) : detect (space :: (digits ++ separated space tokens)) = .ok .integers := by
  obtain ⟨c, digits, rfl⟩ := List.exists_cons_of_ne_nil hne
  have hread : read (space :: (c :: digits ++ separated space tokens) ++ [0]) 1 = .ok c := rfl
  have hdrop : (space :: (c :: digits ++ separated space tokens)).drop 2 = digits ++ separated space tokens := rfl
  rw [detect, hread, ok_bind, if_pos (h c List.mem_cons_self), hdrop,
    findDot_digits (fun c' hc' => h c' (List.mem_cons_of_mem _ hc')) tokens]
  rfl

/-- What `strtol` makes of a number that was written. -/
theorem strto_formatInteger (n : Nat) :
    integer.Converts (formatInteger n) ∧ (integer.strto (formatInteger n)).1 = toInteger (min longMax n) := by
  rw [formatInteger_eq]
  obtain ⟨hconv, hstrto⟩ := strtol_digits (decimal_ne_nil n) fun c => isDigit_decimal
  refine ⟨(Numeral.map_converts toInteger).2 hconv, ?_⟩
  rw [integer, Numeral.map_strto, hstrto, ofDigits_decimal]

theorem toInteger_min {n : Nat} (h : n < 2 ^ 64) : toInteger (min longMax n) = n ↔ n < 2 ^ 63 := by
  unfold toInteger longMax
  omega

variable {F : Type} {strtod : Numeral F} {formatFloat : F → List Byte} {data : List (BitVec 64)}

/-- An array of integers, written and read. -/
theorem read_integers (hne : data ≠ []) (hsize : data.length * 8 < Ring.word) :
    readArray strtod (fun _ => true) (writeLeaf formatFloat (.integers (data.map BitVec.toNat))) =
      .ok (⟨0, ""⟩, some ⟨data.length, .integers (data.map fun n => some (toInteger (min longMax n.toNat)))⟩) := by
  have htokens : ∀ token ∈ data.map fun n => formatInteger n.toNat, space ∉ token ∧ token ≠ [] := by
    intro token htoken
    obtain ⟨n, -, rfl⟩ := List.mem_map.1 htoken
    refine ⟨?_, decimal_ne_nil _⟩
    intro hspace
    exact absurd (isDigit_decimal hspace) (by decide)
  have htext : writeLeaf formatFloat (.integers (data.map BitVec.toNat)) =
      separated space (data.map fun n => formatInteger n.toNat) := by
    simp only [writeLeaf, separated, List.flatMap_map]
  have hdetect : detect (separated space (data.map fun n => formatInteger n.toNat)) = .ok .integers := by
    obtain ⟨n, data, rfl⟩ := List.exists_cons_of_ne_nil hne
    rw [List.map_cons, separated_cons]
    exact detect_integers _ (decimal_ne_nil _) fun c => isDigit_decimal
  have hcount : (separated space (data.map fun n => formatInteger n.toNat)).count space = data.length := by
    rw [count_separated fun token h => (htokens token h).1, List.length_map]
  have hgrants : callocGrants (fun _ => true) data.length = true := by simp [callocGrants, hsize]
  have happart : Apart integer (data.map fun n => formatInteger n.toNat) := by
    apply apart_of_not_blank
    intro token htoken hblank
    obtain ⟨n, -, rfl⟩ := List.mem_map.1 htoken
    exact not_converts_blank hblank (strto_formatInteger n.toNat).1
  have hloop := numbers_line integer (by simpa using hne) htokens
  rw [(filled_iff integer _).2 happart] at hloop
  rw [List.length_map] at hloop
  rw [htext, readArray, hdetect, ok_bind]
  simp only [hcount, hgrants, Bool.not_true, Bool.false_eq_true, if_false, hloop, ok_bind, pure_eq_ok, List.map_map,
    Function.comp_def, (strto_formatInteger _).2]

/-- The array comes back when what was written for it is read. -/
def IntegersSurvive (strtod : Numeral F) (formatFloat : F → List Byte) (data : List (BitVec 64)) : Prop :=
  ∃ status, readArray strtod (fun _ => true) (writeLeaf formatFloat (.integers (data.map BitVec.toNat))) =
    .ok (status, some ⟨data.length, .integers (data.map fun n => some n.toNat)⟩) ∧ status.id = 0

/-- Arrays of integers survive exactly if `strtol` has all their values. -/
theorem integers_survive_iff (strtod : Numeral F) (formatFloat : F → List Byte) (hne : data ≠ [])
    (hsize : data.length * 8 < Ring.word) :
    IntegersSurvive strtod formatFloat data ↔ ∀ n ∈ data, n.toNat < 2 ^ 63 := by
  have hvalues : (∀ n ∈ data, n.toNat < 2 ^ 63) ↔
      data.map (fun n => some (toInteger (min longMax n.toNat))) = data.map fun n => some n.toNat := by
    rw [List.map_inj_left]
    apply forall₂_congr
    intro n _
    rw [Option.some.injEq, toInteger_min n.isLt]
  rw [hvalues, IntegersSurvive, read_integers hne hsize]
  constructor
  · rintro ⟨status, h, -⟩
    have hdata := (Prod.mk.inj (Except.ok.inj h)).2
    simpa using hdata
  · intro h
    exact ⟨⟨0, ""⟩, by rw [h], rfl⟩

theorem integers_survive_greatest : IntegersSurvive strtol (fun _ => []) [5, 0, 9223372036854775807] :=
  (integers_survive_iff strtol _ (List.cons_ne_nil _ _) (by decide)).2 (by simp)

/-- 9223372036854775808 comes back as 9223372036854775807. -/
theorem integers_saturated : ¬ IntegersSurvive strtol (fun _ => []) [9223372036854775808] := by
  rintro ⟨status, h, -⟩
  rw [read_integers (by decide) (by decide)] at h
  have hdata := (Prod.mk.inj (Except.ok.inj h)).2
  exact absurd hdata (by decide)

end SphSc.Ikv

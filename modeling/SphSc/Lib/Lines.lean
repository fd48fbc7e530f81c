import Mathlib.Tactic.Common
/-!
# Text in lines

`lines` splits a text after each terminator, as reading it line by line does.
A text that is put together from lines is split into them again.
-/

namespace Lines

variable {α : Type} [DecidableEq α]

/-- The lines of a text, each with the terminator `nl` that ends it. Only the
last may be without. -/
def lines (nl : α) : List α → List (List α)
  | [] => []
  | c :: text =>
    if c = nl then [c] :: lines nl text
    else match lines nl text with
      | [] => [[c]]
      | l :: ls => (c :: l) :: ls

variable {nl : α}

theorem lines_cons_of_ne {c : α} (h : c ≠ nl) (text : List α) :
    ∃ l ls, lines nl (c :: text) = (c :: l) :: ls := by
  rw [lines, if_neg h]
  cases lines nl text with
  | nil => exact ⟨[], [], rfl⟩
  | cons l ls => exact ⟨l, ls, rfl⟩

theorem lines_eq_nil {text : List α} : lines nl text = [] ↔ text = [] := by
  constructor
  · intro h
    cases text with
    | nil => rfl
    | cons c text =>
      by_cases hc : c = nl
      · rw [lines, if_pos hc] at h
        cases h
      · obtain ⟨l, ls, hlines⟩ := lines_cons_of_ne hc text
        rw [hlines] at h
        cases h
  · rintro rfl
    rfl

/-- A line that ends comes apart from what follows. -/
theorem lines_line {l : List α} (h : nl ∉ l) (text : List α) :
    lines nl (l ++ nl :: text) = (l ++ [nl]) :: lines nl text := by
  induction l with
  | nil =>
    rw [List.nil_append, lines, if_pos rfl]
    rfl
  | cons c l ih =>
    have hc : c ≠ nl := by
      rintro rfl
      exact h List.mem_cons_self
    rw [List.cons_append, lines, if_neg hc, ih fun hl => h (List.mem_cons_of_mem c hl)]
    rfl

theorem lines_append (text text' : List α) :
    lines nl (text ++ nl :: text') = lines nl (text ++ [nl]) ++ lines nl text' := by
  induction text with
  | nil =>
    rw [List.nil_append, List.nil_append, lines, lines, if_pos rfl, if_pos rfl]
    rfl
  | cons c text ih =>
    rw [List.cons_append, List.cons_append, lines, lines, ih]
    by_cases hc : c = nl
    · rw [if_pos hc, if_pos hc]
      rfl
    · rw [if_neg hc, if_neg hc]
      cases htext : lines nl (text ++ [nl]) with
      | nil => exact absurd (lines_eq_nil.1 htext) (by simp)
      | cons l ls => rfl

/-- Lines written one after the other are read back. -/
theorem lines_flatten {ls : List (List α)} (h : ∀ l ∈ ls, nl ∉ l) :
    lines nl (ls.flatMap fun l => l ++ [nl]) = ls.map fun l => l ++ [nl] := by
  induction ls with
  | nil => rfl
  | cons l ls ih =>
    rw [List.flatMap_cons, List.append_assoc, List.singleton_append, lines_line (h l List.mem_cons_self),
      ih fun l' hl' => h l' (List.mem_cons_of_mem l hl')]
    rfl

/-- A terminator stands only at the end of a line. -/
theorem not_mem_dropLast {text l : List α} (h : l ∈ lines nl text) : nl ∉ l.dropLast := by
  induction text generalizing l with
  | nil => cases h
  | cons c text ih =>
    rw [lines] at h
    split at h
    · rcases List.mem_cons.1 h with rfl | h
      · exact List.not_mem_nil
      · exact ih h
    · rename_i hc
      split at h
      · obtain rfl := List.mem_singleton.1 h
        exact List.not_mem_nil
      · rename_i l' ls hlines
        rw [hlines] at ih
        rcases List.mem_cons.1 h with rfl | h
        · cases l' with
          | nil => exact List.not_mem_nil
          | cons d l' =>
            rw [List.dropLast_cons_of_ne_nil (List.cons_ne_nil d l')]
            intro hmem
            rcases List.mem_cons.1 hmem with rfl | hmem
            · exact hc rfl
            · exact ih List.mem_cons_self hmem
        · exact ih (List.mem_cons_of_mem _ h)

end Lines

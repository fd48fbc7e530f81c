import SphSc.Ikv.Model
/-!
# The parts of a line

The indentation of a line, the key after it and whether more follows, and that
the loops of the reader find them.
-/
open Exec

namespace SphSc.Ikv

/-- How many spaces a line starts with. -/
def indent (line : List Byte) : Nat := (line.takeWhile fun c => c = space).length

/-- How deep a line is indented. -/
def level (line : List Byte) : Nat := indent line / 2

/-- The line without its indentation. -/
def body (line : List Byte) : List Byte := line.dropWhile fun c => c = space

/-- How much of a line's body is the key: what stands before a space, unless
that is the last byte. -/
def nameLength (body : List Byte) : Nat := if space ∈ body.dropLast then body.idxOf space else body.length

/-- Where the key of a line ends. -/
def keyEnd (line : List Byte) : Nat := indent line + nameLength (body line)

/-- There is more on the line than a key. -/
def Valued (line : List Byte) : Prop := space ∈ (body line).dropLast

instance (line : List Byte) : Decidable (Valued line) := inferInstanceAs (Decidable (_ ∈ _))

theorem indent_add (line : List Byte) : indent line + (body line).length = line.length := by
  have hsplit := congrArg List.length (@List.takeWhile_append_dropWhile _ (fun c : Byte => decide (c = space)) line)
  rwa [List.length_append] at hsplit

theorem skipIndent_eq (before rest : List Byte) :
    skipIndent (before ++ rest) rest.length before.length = .ok (before.length + indent rest) := by
  unfold indent
  induction rest generalizing before with
  | nil => simp [skipIndent]
  | cons c rest ih =>
    rw [List.length_cons, skipIndent, read_length, ok_bind]
    split
    · rename_i hc
      have hnext := ih (before ++ [c])
      rw [List.append_assoc, List.singleton_append, List.length_append, List.length_singleton] at hnext
      rw [hnext, List.takeWhile_cons, if_pos (decide_eq_true hc), List.length_cons]
      congr 1
      omega
    · rename_i hc
      rw [List.takeWhile_cons, if_neg (by simpa using hc)]
      rfl

theorem nameLength_cons {c : Byte} {rest : List Byte} (hc : c ≠ space) (hrest : rest ≠ []) :
    nameLength (c :: rest) = nameLength rest + 1 := by
  have hmem : space ∈ (c :: rest).dropLast ↔ space ∈ rest.dropLast := by
    rw [List.dropLast_cons_of_ne_nil hrest, List.mem_cons, or_iff_right (Ne.symm hc)]
  simp only [nameLength, hmem, List.idxOf_cons_ne _ hc, List.length_cons]
  split <;> rfl

theorem findKeyEnd_eq (before : List Byte) {rest : List Byte} (h : rest ≠ []) :
    findKeyEnd (before ++ rest) rest.length before.length = .ok (some (before.length + nameLength rest)) := by
  induction rest generalizing before with
  | nil => exact absurd rfl h
  | cons c rest ih =>
    have hlast : before.length = (before ++ c :: rest).length - 1 ↔ rest = [] := by
      rw [List.length_append, List.length_cons, ← List.length_eq_zero_iff]
      omega
    rw [List.length_cons, findKeyEnd, read_length, ok_bind]
    simp only [hlast]
    by_cases hrest : rest = []
    · -- the last byte belongs to the key
      subst hrest
      rw [if_pos (.inr rfl), if_pos rfl]
      rfl
    · by_cases hc : c = space
      · rw [if_pos (.inl hc), if_neg hrest, nameLength, List.dropLast_cons_of_ne_nil hrest, hc,
          if_pos List.mem_cons_self, List.idxOf_cons_self]
        rfl
      · have hnext := ih (before ++ [c]) hrest
        rw [List.append_assoc, List.singleton_append, List.length_append, List.length_singleton] at hnext
        rw [if_neg (not_or.2 ⟨hc, hrest⟩), hnext, nameLength_cons hc hrest]
        congr 2
        omega

theorem skipIndent_line (line : List Byte) : skipIndent line line.length 0 = .ok (indent line) := by
  have hskip := skipIndent_eq [] line
  rwa [List.nil_append, List.length_nil, Nat.zero_add] at hskip

theorem findKeyEnd_line (line : List Byte) : findKeyEnd line (line.length - indent line) (indent line) =
    .ok (if body line = [] then none else some (keyEnd line)) := by
  have hrest : line.length - indent line = (body line).length := by
    have := indent_add line
    omega
  rw [hrest]
  by_cases hbody : body line = []
  · rw [if_pos hbody, hbody]
    rfl
  · have hfind := findKeyEnd_eq (line.takeWhile fun c => c = space) hbody
    have hsplit : (line.takeWhile fun c => c = space) ++ body line = line := List.takeWhile_append_dropWhile
    rw [hsplit] at hfind
    rw [if_neg hbody, indent, hfind]
    rfl

theorem nameLength_le (body : List Byte) : nameLength body ≤ body.length := by
  unfold nameLength
  split
  · exact List.idxOf_le_length
  · exact Nat.le_refl _

theorem nameLength_eq_iff (body : List Byte) : nameLength body = body.length ↔ space ∉ body.dropLast := by
  unfold nameLength
  split
  · rename_i h
    have hlt := List.idxOf_lt_length_of_mem (List.dropLast_subset body h)
    exact iff_of_false (by omega) (not_not.2 h)
  · rename_i h
    exact iff_of_true rfl h

/-- A key takes the whole line exactly if there is no value. -/
theorem keyEnd_eq_iff (line : List Byte) : keyEnd line = line.length ↔ ¬ Valued line := by
  rw [Valued, ← nameLength_eq_iff, keyEnd, ← indent_add line, Nat.add_left_cancel_iff]

/-- A key ends at the end of the line, or at a space that is not the last byte. -/
theorem keyEnd_cases (line : List Byte) : keyEnd line = line.length ∨ keyEnd line + 2 ≤ line.length := by
  by_cases hvalued : Valued line
  · right
    have hmem : space ∈ (body line).dropLast := hvalued
    have hlt := List.idxOf_lt_length_of_mem hmem
    have hinit : (body line).idxOf space = (body line).dropLast.idxOf space := by
      nth_rewrite 1 [← List.dropLast_append_getLast (List.ne_nil_of_mem (List.dropLast_subset _ hmem))]
      exact List.idxOf_append_of_mem hmem
    rw [List.length_dropLast] at hlt
    rw [keyEnd, nameLength, if_pos hmem, hinit, ← indent_add line]
    omega
  · exact .inl ((keyEnd_eq_iff line).2 hvalued)

/-! ## Lines that start with a name -/

/-- Nothing, or a space and more. -/
def After (rest : List Byte) : Prop := rest = [] ∨ ∃ text, rest = space :: text ∧ text ≠ []

theorem nameLength_append {name rest : List Byte} (hname : space ∉ name) (hrest : After rest) :
    nameLength (name ++ rest) = name.length := by
  rcases hrest with rfl | ⟨text, rfl, htext⟩
  · rw [List.append_nil, nameLength, if_neg fun h => hname (List.dropLast_subset _ h)]
  · have hmem : space ∈ (name ++ space :: text).dropLast := by
      rw [List.dropLast_append_cons, List.dropLast_cons_of_ne_nil htext]
      exact List.mem_append_right _ List.mem_cons_self
    rw [nameLength, if_pos hmem, List.idxOf_append_of_notMem hname, List.idxOf_cons_self, Nat.add_zero]

end SphSc.Ikv

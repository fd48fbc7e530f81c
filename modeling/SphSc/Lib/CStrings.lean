import Mathlib.Data.List.TakeWhile
import SphSc.Lib.Exec
/-!
# Strings

A string of C is a block with a NUL in it. Its text is what stands before the
first one, and `strlen` finds out how long that is.
-/
open Exec

namespace CStrings

/-- A string, as the block it starts. -/
structure CString where
  block : List Byte
  terminated : 0 ∈ block

/-- What stands before the first NUL. -/
def CString.text (s : CString) : List Byte := s.block.takeWhile fun b => b ≠ 0

/-- `strlen` -/
def strlen : List Byte → Exec Nat
  | [] => .error .outOfBounds
  | b :: block => do
    if b = 0 then return 0
    else return (← strlen block) + 1

/-- A string ends with a NUL. -/
theorem CString.block_eq (s : CString) : ∃ after, s.block = s.text ++ 0 :: after := by
  obtain ⟨block, hmem⟩ := s
  unfold text
  induction block with
  | nil => cases hmem
  | cons b block ih =>
    by_cases hb : b = 0
    · exact ⟨block, by simp [hb]⟩
    · have hafter : 0 ∈ block := (List.mem_cons.1 hmem).resolve_left (Ne.symm hb)
      obtain ⟨after, h⟩ := ih hafter
      refine ⟨after, ?_⟩
      rw [List.takeWhile_cons_of_pos (by simpa using hb), List.cons_append, ← h]

/-- As far as the NUL, the characters of a string can be read. -/
theorem CString.read_block {s : CString} {i : Nat} (h : i ≤ s.text.length) :
    read s.block i = .ok (s.text[i]?.getD 0) := by
  obtain ⟨after, hblock⟩ := s.block_eq
  rw [read_eq_ok, hblock]
  rcases Nat.lt_or_eq_of_le h with hlt | rfl
  · rw [List.getElem?_append_left hlt, List.getElem?_eq_getElem hlt]
    rfl
  · simp

theorem CString.ne_zero {s : CString} {b : Byte} (h : b ∈ s.text) : b ≠ 0 := by
  simpa using List.mem_takeWhile_imp h

theorem strlen_eq (s : CString) : strlen s.block = .ok s.text.length := by
  obtain ⟨block, hmem⟩ := s
  unfold CString.text
  induction block with
  | nil => cases hmem
  | cons b block ih =>
    rw [strlen]
    by_cases hb : b = 0
    · rw [if_pos hb, List.takeWhile_cons_of_neg (by simpa using hb)]
      rfl
    · rw [if_neg hb, ih ((List.mem_cons.1 hmem).resolve_left (Ne.symm hb)), ok_bind,
        List.takeWhile_cons_of_pos (by simpa using hb)]
      rfl

end CStrings

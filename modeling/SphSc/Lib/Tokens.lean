import Mathlib.Tactic.Common
/-!
# Text in tokens

A text that starts with a separator is a list of tokens, each after a
separator. The tokens are its runs without separators exactly if none is empty.
-/

namespace Tokens

variable {α : Type} [DecidableEq α]

/-- The tokens, each after one separator. -/
def separated (sep : α) (tokens : List (List α)) : List α := tokens.flatMap fun token => sep :: token

/-- The longest runs without separators. -/
def runs (sep : α) (text : List α) : List (List α) := (text.splitOn sep).filter fun run => run ≠ []

/-- The longest runs without separators that a separator comes after. -/
def ended (sep : α) (text : List α) : List (List α) := (text.splitOn sep).dropLast.filter fun run => run ≠ []

/-- Each separator comes right before a character that is none. -/
def Single (sep : α) (text : List α) : Prop :=
  ∀ before after, text = before ++ sep :: after → ∃ c rest, after = c :: rest ∧ c ≠ sep

variable {sep : α} {tokens : List (List α)}

omit [DecidableEq α] in
theorem separated_cons (token : List α) (tokens : List (List α)) :
    separated sep (token :: tokens) = sep :: (token ++ separated sep tokens) := by
  simp [separated]

omit [DecidableEq α] in
theorem separated_pos (h : tokens ≠ []) : 0 < (separated sep tokens).length := by
  obtain ⟨token, tokens, rfl⟩ := List.exists_cons_of_ne_nil h
  rw [separated_cons, List.length_cons]
  exact Nat.succ_pos _

omit [DecidableEq α] in
/-- One character has no room for a token. -/
theorem eq_nil_of_separated (hle : (separated sep tokens).length ≤ 1) (h : ∀ token ∈ tokens, token ≠ []) : tokens = [] := by
  cases tokens with
  | nil => rfl
  | cons token tokens =>
    have hpos := List.length_pos_iff.2 (h token List.mem_cons_self)
    rw [separated_cons, List.length_cons, List.length_append] at hle
    omega

/-- Splitting a text undoes putting it together. -/
theorem splitOn_separated {first : List α} (hfirst : sep ∉ first) (h : ∀ token ∈ tokens, sep ∉ token) :
    (first ++ separated sep tokens).splitOn sep = first :: tokens := by
  induction tokens generalizing first with
  | nil => simpa [separated] using List.splitOn_eq_singleton hfirst
  | cons token tokens ih =>
    have hrest := ih (h token List.mem_cons_self) fun token' htoken' => h token' (List.mem_cons_of_mem _ htoken')
    rw [separated_cons, List.splitOn_append_cons_self, hrest, List.splitOn_eq_singleton hfirst]
    rfl

theorem runs_separated (h : ∀ token ∈ tokens, sep ∉ token) :
    runs sep (separated sep tokens) = tokens.filter fun token => token ≠ [] := by
  have hsplit := splitOn_separated (show sep ∉ [] from List.not_mem_nil) h
  rw [List.nil_append] at hsplit
  rw [runs, hsplit]
  simp

theorem count_separated (h : ∀ token ∈ tokens, sep ∉ token) : (separated sep tokens).count sep = tokens.length := by
  induction tokens with
  | nil => rfl
  | cons token tokens ih =>
    have htoken := List.count_eq_zero_of_not_mem (h token List.mem_cons_self)
    have hrest := ih fun token' htoken' => h token' (List.mem_cons_of_mem _ htoken')
    rw [separated_cons, List.count_cons_self, List.count_append, htoken, hrest, Nat.zero_add, List.length_cons]

theorem exists_tokens (sep : α) (text : List α) :
    ∃ first tokens, text = first ++ separated sep tokens ∧ sep ∉ first ∧ ∀ token ∈ tokens, sep ∉ token := by
  induction text with
  | nil => exact ⟨[], [], rfl, List.not_mem_nil, fun _ h => by cases h⟩
  | cons c text ih =>
    obtain ⟨first, tokens, rfl, hfirst, htokens⟩ := ih
    by_cases hc : c = sep
    · refine ⟨[], first :: tokens, ?_, List.not_mem_nil, ?_⟩
      · rw [hc, List.nil_append, separated_cons]
      · intro token htoken
        rcases List.mem_cons.1 htoken with rfl | htoken
        · exact hfirst
        · exact htokens token htoken
    · refine ⟨c :: first, tokens, rfl, ?_, htokens⟩
      intro hmem
      rcases List.mem_cons.1 hmem with h | h
      · exact hc h.symm
      · exact hfirst h

/-- A text that starts with a separator, in tokens. -/
theorem exists_separated {text : List α} (h : text.head? = some sep) :
    ∃ tokens, text = separated sep tokens ∧ tokens ≠ [] ∧ ∀ token ∈ tokens, sep ∉ token := by
  obtain ⟨first, tokens, rfl, hfirst, htokens⟩ := exists_tokens sep text
  cases first with
  | nil =>
    refine ⟨tokens, rfl, ?_, htokens⟩
    rintro rfl
    cases h
  | cons c first =>
    cases h
    exact absurd List.mem_cons_self hfirst

/-- The runs are as many as the separators exactly if no token is empty. -/
theorem length_runs_iff (h : ∀ token ∈ tokens, sep ∉ token) :
    (runs sep (separated sep tokens)).length = tokens.length ↔ ∀ token ∈ tokens, token ≠ [] := by
  rw [runs_separated h, List.length_filter_eq_length_iff]
  simp

theorem single_iff (h : ∀ token ∈ tokens, sep ∉ token) :
    Single sep (separated sep tokens) ↔ ∀ token ∈ tokens, token ≠ [] := by
  constructor
  · intro hsingle token htoken hnil
    obtain ⟨before, after, rfl⟩ := List.append_of_mem htoken
    obtain ⟨c, rest, hafter, hc⟩ := hsingle (separated sep before) (separated sep after) (by
      simp [separated, hnil])
    cases after with
    | nil => cases hafter
    | cons token' after =>
      rw [separated_cons] at hafter
      exact hc (List.cons.inj hafter).1.symm
  · intro hne before after heq
    obtain ⟨first, tokens₁, rfl, hfirst, htokens₁⟩ := exists_tokens sep before
    obtain ⟨token, tokens₂, rfl, htoken, htokens₂⟩ := exists_tokens sep after
    have hjoin : first ++ separated sep tokens₁ ++ sep :: (token ++ separated sep tokens₂) =
        first ++ separated sep (tokens₁ ++ token :: tokens₂) := by
      simp [separated]
    have hall : ∀ t ∈ tokens₁ ++ token :: tokens₂, sep ∉ t := by
      intro t ht
      simp only [List.mem_append, List.mem_cons] at ht
      rcases ht with ht | rfl | ht
      · exact htokens₁ t ht
      · exact htoken
      · exact htokens₂ t ht
    have hsplit := splitOn_separated hfirst hall
    rw [← hjoin, ← heq, ← List.nil_append (separated sep tokens), splitOn_separated List.not_mem_nil h] at hsplit
    have hmem : token ∈ tokens := by
      rw [(List.cons.inj hsplit).2]
      simp
    obtain ⟨c, rest, rfl⟩ := List.exists_cons_of_ne_nil (hne token hmem)
    refine ⟨c, rest ++ separated sep tokens₂, rfl, ?_⟩
    rintro rfl
    exact htoken List.mem_cons_self

/-! ## Runs before a separator -/

/-- A text is one piece, or starts with a piece and a separator. -/
@[elab_as_elim] theorem split_induction (sep : α) {motive : List α → Prop}
    (last : ∀ piece, sep ∉ piece → motive piece)
    (next : ∀ piece text, sep ∉ piece → motive text → motive (piece ++ sep :: text)) (text : List α) : motive text := by
  obtain ⟨first, tokens, rfl, hfirst, htokens⟩ := exists_tokens sep text
  induction tokens generalizing first with
  | nil => simpa [separated] using last first hfirst
  | cons token tokens ih =>
    rw [separated_cons]
    exact next first _ hfirst
      (ih token (htokens token List.mem_cons_self) fun t ht => htokens t (List.mem_cons_of_mem _ ht))

theorem ended_last {piece : List α} (h : sep ∉ piece) : ended sep piece = [] := by
  rw [ended, List.splitOn_eq_singleton h]
  rfl

theorem ended_next {piece : List α} (h : sep ∉ piece) (text : List α) :
    ended sep (piece ++ sep :: text) = (if piece = [] then [] else [piece]) ++ ended sep text := by
  rw [ended, ended, List.splitOn_append_cons_self, List.splitOn_eq_singleton h, List.singleton_append,
    List.dropLast_cons_of_ne_nil (List.splitOn_ne_nil _ _)]
  by_cases hnil : piece = [] <;> simp [hnil]

theorem length_ended_le (sep : α) (text : List α) : (ended sep text).length ≤ text.length := by
  induction text using split_induction sep with
  | last piece h =>
    rw [ended_last h]
    exact Nat.zero_le _
  | next piece text h ih =>
    rw [ended_next h, List.length_append, List.length_append, List.length_cons]
    split <;> simp only [List.length_nil, List.length_singleton] <;> omega

theorem runs_next {piece : List α} (h : sep ∉ piece) (text : List α) :
    runs sep (piece ++ sep :: text) = (if piece = [] then [] else [piece]) ++ runs sep text := by
  rw [runs, runs, List.splitOn_append_cons_self, List.splitOn_eq_singleton h, List.singleton_append]
  by_cases hnil : piece = [] <;> simp [hnil]

/-- The last piece of a text may be a run that no separator comes after. -/
theorem runs_eq_ended (sep : α) (text : List α) :
    ∃ last, runs sep text = ended sep text ++ (if last = [] then [] else [last]) ∧
      (last = [] ↔ text = [] ∨ text.getLast? = some sep) := by
  induction text using split_induction sep with
  | last piece h =>
    have hlast : piece.getLast? ≠ some sep := fun hlast => h (List.mem_of_getLast? hlast)
    refine ⟨piece, ?_, by simp [hlast]⟩
    rw [ended_last h, runs, List.splitOn_eq_singleton h]
    by_cases hnil : piece = [] <;> simp [hnil]
  | next piece text h ih =>
    obtain ⟨last, hruns, hlast⟩ := ih
    refine ⟨last, by rw [runs_next h, ended_next h, hruns, List.append_assoc], ?_⟩
    rw [hlast]
    cases text with
    | nil => simp
    | cons c text => simp

/-- Every run has a separator after it exactly if the text ends with one. -/
theorem ended_iff (sep : α) (text : List α) :
    (ended sep text).length = (runs sep text).length ↔ text = [] ∨ text.getLast? = some sep := by
  obtain ⟨last, hruns, hlast⟩ := runs_eq_ended sep text
  rw [← hlast, hruns, List.length_append]
  by_cases hnil : last = [] <;> simp [hnil]

theorem ended_eq {text : List α} (h : text = [] ∨ text.getLast? = some sep) : ended sep text = runs sep text := by
  obtain ⟨last, hruns, hlast⟩ := runs_eq_ended sep text
  rw [hruns, if_pos (hlast.2 h), List.append_nil]

end Tokens

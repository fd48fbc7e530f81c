import SphSc.Ikv.ReadValue
/-!
# The numbers of a line

The loop over the numbers of a line whose tokens are each after one space. It
stores `taken`, which is a number for each token unless blanks other than
spaces are between two spaces: `strtol` then goes on to the next token.
-/
open Exec Ring Numerals Tokens

namespace SphSc.Ikv

variable {V : Type} {p : Numeral V} {line done token : List Byte} {tokens : List (List Byte)}

theorem ends_separated (tokens : List (List Byte)) : Ends (separated space tokens) := by
  intro c hc
  cases tokens with
  | nil => cases hc
  | cons token tokens =>
    rw [separated_cons] at hc
    cases hc
    decide

theorem strto_nil (p : Numeral V) : ¬ p.Converts [] := by
  intro h
  have hpos := strto_pos h
  have hle := strto_le p []
  simp only [List.length_nil] at hle
  omega

theorem not_converts_blank {text : List Byte} (h : Blank text) : ¬ p.Converts text := by
  rw [← List.append_nil text, converts_blank h]
  exact strto_nil p

/-- A space before a number is taken with it. -/
theorem converts_space (text : List Byte) : p.Converts (space :: text) ↔ p.Converts text :=
  converts_blank (show Blank [space] by decide) text

instance (p : Numeral V) (text : List Byte) : Decidable (p.Converts text) :=
  inferInstanceAs (Decidable ((p.convert (firstWord text)).isSome = true))

/-- The numbers that are stored. -/
def taken (p : Numeral V) : List (List Byte) → List V
  | [] => []
  | token :: tokens =>
    if Blank token ∧ p.Converts (separated space tokens) then
      (p.strto (separated space tokens)).1 :: taken p (tokens.dropWhile fun token => Blank token).tail
    else (p.strto token).1 :: taken p tokens
termination_by tokens => tokens.length
decreasing_by
  · have hdrop := List.length_dropWhile_le (fun token => decide (Blank token)) tokens
    rw [List.length_tail, List.length_cons]
    omega
  · exact Nat.lt_succ_self _

/-- The number that comes next is that of the first token that is not blank. -/
theorem strto_separated (h : p.Converts (separated space tokens)) :
    ∃ blanks next rest, tokens = blanks ++ next :: rest ∧ (∀ token ∈ blanks, Blank token) ∧ ¬ Blank next ∧
      p.Converts next ∧ p.strto (separated space tokens) =
        ((p.strto next).1, (separated space blanks).length + 1 + (p.strto next).2) := by
  induction tokens with
  | nil => exact absurd h (strto_nil p)
  | cons token tokens ih =>
    rw [separated_cons, converts_space] at h
    have hspace : p.strto (separated space (token :: tokens)) =
        ((p.strto (token ++ separated space tokens)).1, 1 + (p.strto (token ++ separated space tokens)).2) := by
      rw [separated_cons]
      exact strto_blank (show Blank [space] by decide) h
    by_cases hblank : Blank token
    · rw [converts_blank hblank] at h
      obtain ⟨blanks, next, rest, rfl, hblanks, hnext, hconv, hstrto⟩ := ih h
      refine ⟨token :: blanks, next, rest, rfl, ?_, hnext, hconv, ?_⟩
      · intro token' htoken'
        rcases List.mem_cons.1 htoken' with rfl | htoken'
        · exact hblank
        · exact hblanks token' htoken'
      · rw [hspace, strto_blank hblank h, hstrto, separated_cons, List.length_cons, List.length_append]
        simp only [Prod.mk.injEq, true_and]
        omega
    · rw [converts_append hblank (ends_separated tokens)] at h
      refine ⟨[], token, tokens, rfl, List.forall_mem_nil _, hblank, h, ?_⟩
      rw [hspace, strto_append hblank (ends_separated tokens)]
      rfl

theorem tail_dropWhile {blanks rest : List (List Byte)} {next : List Byte} (hblanks : ∀ token ∈ blanks, Blank token)
    (hnext : ¬ Blank next) : ((blanks ++ next :: rest).dropWhile fun token => Blank token).tail = rest := by
  rw [List.dropWhile_append_of_pos (by simpa using hblanks), List.dropWhile_cons_of_neg (by simpa using hnext)]
  rfl

/-- No blank token is right before a number. -/
def Apart (p : Numeral V) (tokens : List (List Byte)) : Prop :=
  tokens.IsChain fun token next => ¬ (Blank token ∧ p.Converts next)

theorem not_apart {blanks rest : List (List Byte)} {next : List Byte} (htoken : Blank token)
    (hblanks : ∀ token ∈ blanks, Blank token) (hnext : p.Converts next) :
    ¬ Apart p (token :: (blanks ++ next :: rest)) := by
  intro h
  induction blanks generalizing token with
  | nil => exact (List.isChain_cons_cons.1 h).1 ⟨htoken, hnext⟩
  | cons blank blanks ih =>
    exact ih (hblanks blank List.mem_cons_self) (fun token' htoken' => hblanks token' (List.mem_cons_of_mem _ htoken'))
      (List.isChain_cons_cons.1 h).2

theorem apart_of_not_blank (p : Numeral V) (h : ∀ token ∈ tokens, ¬ Blank token) : Apart p tokens := by
  induction tokens with
  | nil => exact List.isChain_nil
  | cons token tokens ih =>
    have hrest := ih fun token' htoken' => h token' (List.mem_cons_of_mem _ htoken')
    cases tokens with
    | nil => exact List.isChain_singleton _
    | cons next tokens => exact List.isChain_cons_cons.2 ⟨fun hblank => h token List.mem_cons_self hblank.1, hrest⟩

/-- A token that does not make `strtol` go on to another is apart from the next. -/
theorem apart_cons (h : ¬ (Blank token ∧ p.Converts (separated space tokens))) :
    Apart p (token :: tokens) ↔ Apart p tokens := by
  unfold Apart
  cases tokens with
  | nil => simp
  | cons next tokens =>
    rw [List.isChain_cons_cons]
    refine and_iff_right ?_
    rintro ⟨hblank, hconv⟩
    have hnext : ¬ Blank next := fun hnext => not_converts_blank hnext hconv
    refine h ⟨hblank, ?_⟩
    rw [separated_cons, converts_space, converts_append hnext (ends_separated tokens)]
    exact hconv

/-- Every token has its number exactly if no blank token is right before one. -/
theorem taken_cases (p : Numeral V) (tokens : List (List Byte)) :
    (Apart p tokens ∧ taken p tokens = tokens.map fun token => (p.strto token).1) ∨
      (¬ Apart p tokens ∧ (taken p tokens).length < tokens.length) := by
  fun_induction taken p tokens with
  | case1 => exact .inl ⟨List.isChain_nil, rfl⟩
  | case2 token tokens h ih =>
    obtain ⟨blanks, next, rest, rfl, hblanks, hnext, hconv, -⟩ := strto_separated h.2
    refine .inr ⟨not_apart h.1 hblanks hconv, ?_⟩
    rw [tail_dropWhile hblanks hnext] at ih ⊢
    have hle : (taken p rest).length ≤ rest.length := by
      rcases ih with ⟨-, htaken⟩ | ⟨-, hlt⟩
      · rw [htaken, List.length_map]
      · exact Nat.le_of_lt hlt
    simp only [List.length_cons, List.length_append]
    omega
  | case3 token tokens h ih =>
    rw [apart_cons h, List.map_cons, List.length_cons, List.length_cons]
    rcases ih with ⟨hapart, htaken⟩ | ⟨hapart, hlt⟩
    · exact .inl ⟨hapart, by rw [htaken]⟩
    · exact .inr ⟨hapart, Nat.succ_lt_succ hlt⟩

/-! ## The loop -/

/-- What `strtol` takes after a space, where that is not of another token. -/
theorem strto_token (h : ¬ (Blank token ∧ p.Converts (separated space tokens))) :
    p.strto (token ++ separated space tokens) = p.strto token := by
  by_cases hblank : Blank token
  · have hrest : ¬ p.Converts (separated space tokens) := fun hconv => h ⟨hblank, hconv⟩
    rw [← converts_blank hblank] at hrest
    rw [Numeral.strto_of_not hrest, Numeral.strto_of_not (not_converts_blank hblank)]
  · exact strto_append hblank (ends_separated tokens)

/-- Where `strtol` stops that is called after a space: inside the token there
or a later one. -/
theorem strto_stops (p : Numeral V) (htoken : space ∉ token) (htokens : ∀ token ∈ tokens, space ∉ token ∧ token ≠ []) :
    ∃ before after rest, token ++ separated space tokens = before ++ (after ++ separated space rest) ∧
      space ∉ after ∧ (∀ token ∈ rest, space ∉ token ∧ token ≠ []) ∧
      taken p (token :: tokens) = (p.strto (token ++ separated space tokens)).1 :: taken p rest ∧
      (p.strto (token ++ separated space tokens)).2 = before.length := by
  by_cases h : Blank token ∧ p.Converts (separated space tokens)
  · have hstrto := strto_blank h.1 h.2
    obtain ⟨blanks, next, rest, rfl, hblanks, hnext, -, hseparated⟩ := strto_separated h.2
    have hle := strto_le p next
    have hmem : ∀ token ∈ next :: rest, space ∉ token ∧ token ≠ [] :=
      fun token' htoken' => htokens token' (List.mem_append_right _ htoken')
    refine ⟨token ++ separated space blanks ++ space :: next.take (p.strto next).2, next.drop (p.strto next).2, rest,
      ?_, ?_, ?_, ?_, ?_⟩
    · simp only [separated, List.flatMap_append, List.flatMap_cons, List.append_assoc, List.cons_append]
      rw [← List.append_assoc (next.take _), List.take_append_drop]
    · intro hspace
      exact (hmem next List.mem_cons_self).1 (List.mem_of_mem_drop hspace)
    · exact fun token' htoken' => hmem token' (List.mem_cons_of_mem _ htoken')
    · rw [taken, if_pos h, tail_dropWhile hblanks hnext, hstrto]
    · rw [hstrto, hseparated]
      simp only [List.length_append, List.length_cons, List.length_take]
      omega
  · have hstrto := strto_token h
    have hle := strto_le p token
    refine ⟨token.take (p.strto token).2, token.drop (p.strto token).2, tokens, ?_, ?_, htokens, ?_, ?_⟩
    · rw [← List.append_assoc, List.take_append_drop]
    · exact fun hspace => htoken (List.mem_of_mem_drop hspace)
    · rw [taken, if_neg h, hstrto]
    · rw [hstrto, List.length_take]
      omega

/-- A round at a space. -/
theorem numberRound_space {text : List Byte} (hline : line = done ++ space :: text) (htext : text ≠ [])
    (filled : List (Option V)) (n : Nat) :
    numberRound p line ⟨done.length, filled.length, filled ++ List.replicate (n + 1) none⟩ =
      .ok (.inl ⟨done.length + 1 + (p.strto text).2, (filled ++ [some (p.strto text).1]).length,
        filled ++ [some (p.strto text).1] ++ List.replicate n none⟩) := by
  have hlength : done.length + 1 < line.length := by
    have := List.length_pos_iff.2 htext
    rw [hline, List.length_append, List.length_cons]
    omega
  have hlt : done.length < line.length - 1 := by omega
  have hread : read line done.length = .ok space := by
    rw [hline]
    exact read_length done space text
  have hdrop : line.drop (done.length + 1) = text := by
    rw [hline, List.drop_length_add_append]
    rfl
  unfold numberRound
  simp only [hlt, if_true, hread, ok_bind, hdrop, write_next, pure_eq_ok, List.length_append, List.length_singleton]

/-- A round inside a token. -/
theorem numberRound_inside {c : Byte} {text : List Byte} (hline : line = done ++ c :: text) (hc : c ≠ space)
    (hend : done.length < line.length - 1) (valueI : Nat) (slots : List (Option V)) :
    numberRound p line ⟨done.length, valueI, slots⟩ = .ok (.inl ⟨(done ++ [c]).length, valueI, slots⟩) := by
  have hread : read line done.length = .ok c := by
    rw [hline]
    exact read_length done c text
  unfold numberRound
  simp only [hend, if_true, hread, ok_bind, hc, if_false, pure_eq_ok, List.length_append, List.length_singleton]

/-- The loop from inside a token on. -/
theorem numbers_loop (p : Numeral V) {fuel : Nat} {done token : List Byte} {tokens : List (List Byte)}
    (hline : line = done ++ (token ++ separated space tokens)) (htoken : space ∉ token)
    (htokens : ∀ token ∈ tokens, space ∉ token ∧ token ≠ []) (filled : List (Option V)) {n : Nat}
    (hn : (taken p tokens).length ≤ n) (hfuel : 0 < fuel ∧ line.length ≤ fuel + done.length) :
    loop (numberRound p line) fuel ⟨done.length, filled.length, filled ++ List.replicate n none⟩ =
      .ok (filled ++ (taken p tokens).map some ++ List.replicate (n - (taken p tokens).length) none) := by
  induction fuel generalizing done token tokens filled n with
  | zero => omega
  | succ fuel ih =>
    have hlength : line.length = done.length + (token.length + (separated space tokens).length) := by
      rw [hline, List.length_append, List.length_append]
    by_cases hend : done.length < line.length - 1
    · cases token with
      | cons c token =>
        have hc : c ≠ space := fun hc => htoken (hc ▸ List.mem_cons_self)
        rw [loop, numberRound_inside hline hc hend, ok_bind]
        refine ih (by simp [hline]) (fun h => htoken (List.mem_cons_of_mem _ h)) htokens filled hn ?_
        rw [List.length_append, List.length_singleton]
        omega
      | nil =>
        cases tokens with
        | nil =>
          simp only [List.length_nil, separated, List.flatMap_nil] at hlength
          omega
        | cons token tokens =>
          rw [List.nil_append, separated_cons] at hline
          obtain ⟨htoken, hne⟩ := htokens token List.mem_cons_self
          have htokens : ∀ token ∈ tokens, space ∉ token ∧ token ≠ [] :=
            fun token' htoken' => htokens token' (List.mem_cons_of_mem _ htoken')
          obtain ⟨before, after, rest, hsplit, hafter, hrest, htaken, hstrto⟩ := strto_stops p htoken htokens
          rw [htaken] at hn ⊢
          rw [List.length_cons] at hn
          obtain ⟨n, rfl⟩ : ∃ m, n = m + 1 := ⟨n - 1, by omega⟩
          have hround := numberRound_space (p := p) hline (by simp [hne]) filled n
          have hposition : done.length + 1 + before.length = (done ++ space :: before).length := by
            rw [List.length_append, List.length_cons]
            omega
          rw [loop, hround, ok_bind, hstrto, hposition]
          dsimp only
          rw [ih (by rw [hline, hsplit]; simp) hafter hrest _ (Nat.le_of_succ_le_succ hn)
            ⟨by omega, by rw [← hposition]; omega⟩]
          simp
    · have hnil : tokens = [] :=
        @eq_nil_of_separated _ space _ (by omega) fun token htoken => (htokens token htoken).2
      have hround : numberRound p line ⟨done.length, filled.length, filled ++ List.replicate n none⟩ =
          .ok (.inr (filled ++ List.replicate n none)) := by
        unfold numberRound
        simp only [hend, if_false, pure_eq_ok]
      rw [loop, hround, ok_bind, hnil, taken]
      simp

/-- The array after the loop over a line of tokens. -/
theorem numbers_line (p : Numeral V) (hne : tokens ≠ []) (htokens : ∀ token ∈ tokens, space ∉ token ∧ token ≠ []) :
    loop (numberRound p (separated space tokens)) (separated space tokens).length
        ⟨0, 0, List.replicate tokens.length none⟩ =
      .ok ((taken p tokens).map some ++ List.replicate (tokens.length - (taken p tokens).length) none) := by
  have hle : (taken p tokens).length ≤ tokens.length := by
    rcases taken_cases p tokens with ⟨-, htaken⟩ | ⟨-, hlt⟩
    · rw [htaken, List.length_map]
    · exact Nat.le_of_lt hlt
  exact @numbers_loop _ _ p _ [] [] tokens rfl List.not_mem_nil htokens [] _ hle ⟨separated_pos hne, Nat.le_refl _⟩

/-- The loop stores a number for each token, and that of the token, exactly if
no blank token is right before a number. -/
theorem filled_iff (p : Numeral V) (tokens : List (List Byte)) :
    (taken p tokens).map some ++ List.replicate (tokens.length - (taken p tokens).length) none =
      tokens.map (fun token => some (p.strto token).1) ↔ Apart p tokens := by
  rcases taken_cases p tokens with ⟨hapart, htaken⟩ | ⟨hapart, hlt⟩
  · simp [hapart, htaken, Function.comp_def]
  · refine iff_of_false ?_ hapart
    intro heq
    have hnone : (none : Option V) ∈ tokens.map fun token => some (p.strto token).1 := by
      rw [← heq]
      exact List.mem_append_right _ (List.mem_replicate.2 ⟨by omega, rfl⟩)
    obtain ⟨token, -, h⟩ := List.mem_map.1 hnone
    cases h

end SphSc.Ikv

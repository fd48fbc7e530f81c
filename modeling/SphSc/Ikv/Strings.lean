import SphSc.Ikv.Line
import SphSc.Ikv.Numbers
/-!
# The strings of a line

The loop over the strings of a line whose tokens are each after one space. It
copies every token. Then it stores the NUL at `i_start - i`, which is the
length of the token to the left of the string and not to the right.
-/
open Exec Ring Numerals Tokens

namespace SphSc.Ikv

variable {line done token : List Byte} {tokens : List (List Byte)} {grants : Grants}

/-- What is made of the tokens from a space at `i` on. -/
def stringsFrom : (i : Nat) → List (List Byte) → List Str
  | _, [] => []
  | i, token :: tokens =>
    { room := wmul (token.length + 1) 8, copied := token, nul := wsub (i + 1) (i + 1 + token.length) } ::
      stringsFrom (i + 1 + token.length) tokens

theorem stringsFrom_copied (i : Nat) (tokens : List (List Byte)) : (stringsFrom i tokens).map Str.copied = tokens := by
  induction tokens generalizing i with
  | nil => rfl
  | cons token tokens ih => rw [stringsFrom, List.map_cons, ih]

/-- The end of a token is looked for as the end of a key is. -/
theorem findTokenEnd_eq_findKeyEnd (line : List Byte) (remaining i : Nat) :
    findTokenEnd line remaining i = findKeyEnd line remaining i := by
  induction remaining generalizing i with
  | zero => rfl
  | succ remaining ih => simp only [findTokenEnd, findKeyEnd, ih]

theorem after_separated (htokens : ∀ token ∈ tokens, token ≠ []) : After (separated space tokens) := by
  cases tokens with
  | nil => exact .inl rfl
  | cons token tokens =>
    refine .inr ⟨token ++ separated space tokens, separated_cons .., fun h => ?_⟩
    exact htokens token List.mem_cons_self (List.append_eq_nil_iff.1 h).1

/-- A token ends at the next space or at the end of the line. -/
theorem findTokenEnd_token (hline : line = done ++ (token ++ separated space tokens)) (htoken : space ∉ token)
    (htokens : ∀ token ∈ tokens, token ≠ []) (hne : token ≠ []) :
    findTokenEnd line (line.length - done.length) done.length = .ok (some (done.length + token.length)) := by
  have hfind := findKeyEnd_eq done (List.append_ne_nil_of_left_ne_nil hne (separated space tokens))
  rw [nameLength_append htoken (after_separated htokens)] at hfind
  rw [findTokenEnd_eq_findKeyEnd, hline, List.length_append, Nat.add_sub_cancel_left]
  exact hfind

/-- A round at a space, past which it goes to the token's second byte. -/
theorem stringRound_space {c : Byte} {rest : List Byte} {s : Str} {requests : List Request}
    (hline : line = done ++ space :: (c :: rest ++ separated space tokens)) (htoken : space ∉ c :: rest)
    (htokens : ∀ token ∈ tokens, token ≠ [])
    (hs : stringsFrom done.length ((c :: rest) :: tokens) =
      s :: stringsFrom ((done ++ [space, c]).length + rest.length) tokens)
    (filled : List (Option Str)) (n : Nat) :
    stringRound grants line ⟨done.length, filled.length, filled ++ List.replicate (n + 1) none, requests⟩ =
      if grants (.malloc s.room :: requests) then
        .ok (.inl ⟨(done ++ [space, c]).length, (filled ++ [some s]).length,
          filled ++ [some s] ++ List.replicate n none, .malloc s.room :: requests⟩)
      else .ok (.inr none) := by
  obtain rfl := (List.cons.inj hs).1
  have hlength := congrArg List.length hline
  simp only [List.length_append, List.length_cons] at hlength
  have hlt : done.length < line.length - 1 := by omega
  have hread : read line done.length = .ok space := by
    rw [hline]
    exact read_length done space _
  have hend : findTokenEnd line (line.length - (done.length + 1)) (done.length + 1) =
      .ok (some (done.length + 1 + (c :: rest).length)) := by
    have hdone : (done ++ [space]).length = done.length + 1 := by rw [List.length_append, List.length_singleton]
    have hspec := @findTokenEnd_token line (done ++ [space]) (c :: rest) tokens (by simp [hline]) htoken htokens
      (List.cons_ne_nil c rest)
    rwa [hdone] at hspec
  have hdrop : (line.drop (done.length + 1)).take (c :: rest).length = c :: rest := by
    rw [hline, List.drop_length_add_append]
    exact List.take_left
  have hcopied : done.length + 1 + (c :: rest).length - (done.length + 1) = (c :: rest).length :=
    Nat.add_sub_cancel_left _ _
  have hposition : (done ++ [space, c]).length = done.length + 1 + 1 := by simp
  unfold stringRound
  simp only [hlt, if_true, hread, ok_bind, hend, hcopied, hdrop, write_next, pure_eq_ok, hposition, List.length_append,
    List.length_singleton]
  cases grants (.malloc (wmul ((c :: rest).length + 1) 8) :: requests) <;> rfl

/-- A round inside a token. -/
theorem stringRound_inside {c : Byte} {text : List Byte} (hline : line = done ++ c :: text) (hc : c ≠ space)
    (hend : done.length < line.length - 1) (valueI : Nat) (slots : List (Option Str)) (requests : List Request) :
    stringRound grants line ⟨done.length, valueI, slots, requests⟩ =
      .ok (.inl ⟨(done ++ [c]).length, valueI, slots, requests⟩) := by
  have hread : read line done.length = .ok c := by
    rw [hline]
    exact read_length done c text
  unfold stringRound
  simp only [hend, if_true, hread, ok_bind, hc, if_false, pure_eq_ok, List.length_append, List.length_singleton]

/-- The loop from inside a token on, which may run out of memory. -/
theorem strings_loop (grants : Grants) {fuel : Nat} {done token : List Byte} {tokens : List (List Byte)}
    (hline : line = done ++ (token ++ separated space tokens)) (htoken : space ∉ token)
    (htokens : ∀ token ∈ tokens, space ∉ token ∧ token ≠ []) (filled : List (Option Str)) {n : Nat}
    (hn : tokens.length ≤ n) (requests : List Request) (hfuel : 0 < fuel ∧ line.length ≤ fuel + done.length) :
    ((∃ rs, grants rs = false) ∧
        loop (stringRound grants line) fuel ⟨done.length, filled.length, filled ++ List.replicate n none, requests⟩ =
          .ok none) ∨
      loop (stringRound grants line) fuel ⟨done.length, filled.length, filled ++ List.replicate n none, requests⟩ =
        .ok (some (filled ++ (stringsFrom (done.length + token.length) tokens).map some ++
          List.replicate (n - tokens.length) none)) := by
  induction fuel generalizing done token tokens filled n requests with
  | zero => omega
  | succ fuel ih =>
    have hlength : line.length = done.length + (token.length + (separated space tokens).length) := by
      rw [hline, List.length_append, List.length_append]
    by_cases hend : done.length < line.length - 1
    · cases token with
      | cons c token =>
        have hc : c ≠ space := fun hc => htoken (hc ▸ List.mem_cons_self)
        have hposition : (done ++ [c]).length + token.length = done.length + (c :: token).length := by
          rw [List.length_append, List.length_singleton, List.length_cons]
          omega
        rw [loop, stringRound_inside hline hc hend, ok_bind, ← hposition]
        refine ih (by simp [hline]) (fun h => htoken (List.mem_cons_of_mem _ h)) htokens filled hn requests ?_
        rw [List.length_append, List.length_singleton]
        omega
      | nil =>
        cases tokens with
        | nil =>
          simp only [List.length_nil, separated, List.flatMap_nil] at hlength
          omega
        | cons token tokens =>
          rw [List.nil_append, separated_cons] at hline
          obtain ⟨hspace, hne⟩ := htokens token List.mem_cons_self
          have hmore : ∀ token ∈ tokens, space ∉ token ∧ token ≠ [] :=
            fun token' htoken' => htokens token' (List.mem_cons_of_mem _ htoken')
          obtain ⟨c, rest, rfl⟩ := List.exists_cons_of_ne_nil hne
          obtain ⟨n, rfl⟩ : ∃ m, n = m + 1 := ⟨n - 1, by rw [List.length_cons] at hn; omega⟩
          obtain ⟨s, hs⟩ : ∃ s, stringsFrom done.length ((c :: rest) :: tokens) =
              s :: stringsFrom ((done ++ [space, c]).length + rest.length) tokens := by
            have hposition : done.length + 1 + (c :: rest).length = (done ++ [space, c]).length + rest.length := by
              simp only [List.length_append, List.length_cons, List.length_nil]
              omega
            exact ⟨_, by rw [stringsFrom, hposition]⟩
          rw [loop, stringRound_space hline hspace (fun token' h => (hmore token' h).2) hs filled n]
          cases hgrants : grants (.malloc s.room :: requests) with
          | false => exact .inl ⟨⟨_, hgrants⟩, rfl⟩
          | true =>
            have htail : n + 1 - ((c :: rest) :: tokens).length = n - tokens.length := by
              rw [List.length_cons]
              omega
            have hnext : line = (done ++ [space, c]) ++ (rest ++ separated space tokens) := by simp [hline]
            have hfuel' : 0 < fuel ∧ line.length ≤ fuel + (done ++ [space, c]).length := by
              rw [List.length_append, List.length_cons, List.length_singleton]
              omega
            rw [if_pos rfl, ok_bind, List.length_nil, Nat.add_zero, hs, List.map_cons, htail,
              List.append_cons filled (some s) ((stringsFrom _ _).map some)]
            exact ih hnext (fun h => hspace (List.mem_cons_of_mem _ h)) hmore _ (Nat.le_of_succ_le_succ hn) _ hfuel'
    · have hnil : tokens = [] :=
        @eq_nil_of_separated _ space _ (by omega) fun token htoken => (htokens token htoken).2
      have hround : stringRound grants line ⟨done.length, filled.length, filled ++ List.replicate n none, requests⟩ =
          .ok (.inr (some (filled ++ List.replicate n none))) := by
        unfold stringRound
        simp only [hend, if_false, pure_eq_ok]
      right
      rw [loop, hround, ok_bind, hnil, stringsFrom]
      simp

/-- The array after the loop over a line of tokens, where it has room. -/
theorem strings_line (grants : Grants) (hne : tokens ≠ []) (htokens : ∀ token ∈ tokens, space ∉ token ∧ token ≠ [])
    {n : Nat} (hn : tokens.length ≤ n) (requests : List Request) :
    ((∃ rs, grants rs = false) ∧ loop (stringRound grants (separated space tokens)) (separated space tokens).length
        ⟨0, 0, List.replicate n none, requests⟩ = .ok none) ∨
      loop (stringRound grants (separated space tokens)) (separated space tokens).length
        ⟨0, 0, List.replicate n none, requests⟩ =
        .ok (some ((stringsFrom 0 tokens).map some ++ List.replicate (n - tokens.length) none)) := by
  exact @strings_loop _ grants _ [] [] tokens rfl List.not_mem_nil htokens [] _ hn requests
    ⟨separated_pos hne, Nat.le_refl _⟩

theorem stringRound_length {s : StringState} {x : StringState ⊕ Option (List (Option Str))}
    (hgrants : ∀ rs, grants rs = true) (h : stringRound grants line s = .ok x) :
    ∃ slots, slots.length = s.slots.length ∧
      ((∃ s', x = .inl s' ∧ s'.slots = slots) ∨ x = .inr (some slots)) := by
  unfold stringRound at h
  split at h
  · obtain ⟨c, -, h⟩ := bind_eq_ok.1 h
    split at h
    · obtain ⟨stop, -, h⟩ := bind_eq_ok.1 h
      cases stop with
      | none =>
        cases h
        exact ⟨s.slots, rfl, .inl ⟨_, rfl, rfl⟩⟩
      | some i =>
        simp only [hgrants, Bool.not_true, Bool.false_eq_true, if_false] at h
        obtain ⟨slots, hslots, h⟩ := bind_eq_ok.1 h
        obtain ⟨-, rfl⟩ := write_eq_ok.1 hslots
        cases h
        exact ⟨_, List.length_set, .inl ⟨_, rfl, rfl⟩⟩
    · cases h
      exact ⟨s.slots, rfl, .inl ⟨_, rfl, rfl⟩⟩
  · cases h
    exact ⟨s.slots, rfl, .inr rfl⟩

/-- With enough memory the loop keeps the array, as long as it was. -/
theorem strings_length {fuel : Nat} {s : StringState} {r : Option (List (Option Str))}
    (hgrants : ∀ rs, grants rs = true) (h : loop (stringRound grants line) fuel s = .ok r) :
    ∃ slots, r = some slots ∧ slots.length = s.slots.length := by
  refine loop_inv (fun s' => s'.slots.length = s.slots.length)
    (fun r => ∃ slots, r = some slots ∧ slots.length = s.slots.length) ?_ ?_ rfl h
  · intro s₁ s₂ hlength hround
    obtain ⟨slots, hslots, ⟨s', heq, rfl⟩ | heq⟩ := stringRound_length hgrants hround
    · cases heq
      exact hslots.trans hlength
    · cases heq
  · intro s₁ r hlength hround
    obtain ⟨slots, hslots, ⟨s', heq, -⟩ | heq⟩ := stringRound_length hgrants hround
    · cases heq
    · cases heq
      exact ⟨slots, rfl, hslots.trans hlength⟩

/-! ## Exact strings -/

/-- The tokens of a line of strings. -/
structure IsTokens (tokens : List (List Byte)) : Prop where
  ne : tokens ≠ []
  token : ∀ token ∈ tokens, token ≠ [] ∧ space ∉ token ∧ newline ∉ token ∧ 0 ∉ token
  first : ∀ c token tokens', tokens = (c :: token) :: tokens' → isDigit c = false

/-- The string is the token with a NUL after it, whatever was in memory, and
nothing was stored outside of it. -/
def Str.Holds (s : Str) (token : List Byte) : Prop :=
  s.copied.length ≤ s.room ∧ s.nul < s.room ∧
    ∀ junk, (List.range (token.length + 1)).map (s.contents junk) = token ++ [0]

/-- `ikv_read_value` gives an exact string for each token. -/
def ReadsStrings {F : Type} (strtod : Numeral F) (tokens : List (List Byte)) : Prop :=
  ∃ status slots, readArray strtod (fun _ => true) (separated space tokens) =
      .ok (status, some ⟨tokens.length, .strings slots⟩) ∧ status.id = 0 ∧
    List.Forall₂ (fun slot token => ∃ s : Str, slot = some s ∧ s.Holds token) slots tokens

/-- The NUL of the first string is not in it. -/
theorem not_holds (hne : token ≠ []) :
    ¬ (⟨wmul (token.length + 1) 8, token, wsub 1 (1 + token.length)⟩ : Str).Holds token := by
  rintro ⟨hcopied, -, hcontents⟩
  have hpos := List.length_pos_iff.2 hne
  have hlast := congrArg (fun text => text[token.length]?) (hcontents fun _ => 1)
  simp only [List.getElem?_map, List.getElem?_range (Nat.lt_succ_self _), Option.map_some,
    List.getElem?_concat_length, Option.some.injEq, Str.contents] at hlast
  have hnul : token.length = wsub 1 (1 + token.length) := by
    by_contra hnul
    rw [if_neg hnul] at hlast
    simp at hlast
  simp only [wmul, wsub, word] at hcopied hnul
  omega

theorem detect_strings (h : IsTokens tokens) : detect (separated space tokens) = .ok .strings := by
  obtain ⟨token, tokens, rfl⟩ := List.exists_cons_of_ne_nil h.ne
  obtain ⟨c, token, rfl⟩ := List.exists_cons_of_ne_nil (h.token token List.mem_cons_self).1
  have hread : read (separated space ((c :: token) :: tokens) ++ [0]) 1 = .ok c := rfl
  have hc := h.first c token tokens rfl
  rw [detect, hread, ok_bind, hc]
  rfl

/-- No line of strings gives exact strings. -/
theorem not_reads_strings {F : Type} (strtod : Numeral F) (h : IsTokens tokens) : ¬ ReadsStrings strtod tokens := by
  rintro ⟨status, slots, hread, -, hslots⟩
  have htokens : ∀ token ∈ tokens, space ∉ token ∧ token ≠ [] :=
    fun token htoken => ⟨(h.token token htoken).2.1, (h.token token htoken).1⟩
  rw [readArray, detect_strings h, ok_bind] at hread
  simp only [Bool.not_true, Bool.false_eq_true, if_false] at hread
  obtain ⟨r, hloop, hread⟩ := bind_eq_ok.1 hread
  obtain ⟨slots', rfl, hlength⟩ := strings_length (fun _ => rfl) hloop
  have hdata := (Prod.mk.inj (Except.ok.inj hread)).2
  obtain ⟨-, rfl⟩ : _ ∧ slots' = slots := by simpa using hdata
  rw [List.length_replicate] at hlength
  have hroom := hlength ▸ hslots.length_eq.ge
  rcases strings_line (fun _ => true) h.ne htokens hroom _ with ⟨⟨_, hfalse⟩, -⟩ | hline
  · cases hfalse
  · rw [hline] at hloop
    cases hloop
    obtain ⟨token, tokens, rfl⟩ := List.exists_cons_of_ne_nil h.ne
    obtain ⟨⟨s, hs, hholds⟩, -⟩ := List.forall₂_cons.1 hslots
    cases hs
    rw [Nat.zero_add] at hholds
    exact not_holds (h.token token List.mem_cons_self).1 hholds

/-- " ab c" -/
theorem not_reads_strings_two : ¬ ReadsStrings strtol [[97, 98], [99]] := by
  refine not_reads_strings strtol ⟨by decide, by decide, ?_⟩
  intro c token tokens h
  cases h
  rfl

/-- In " a" the NUL is stored one byte before the string. -/
theorem string_not_terminated : IsTokens [[97]] ∧ ¬ ReadsStrings strtol [[97]] := by
  refine ⟨⟨by decide, by decide, ?_⟩, ?_⟩
  · intro c token tokens h
    cases h
    rfl
  · rintro ⟨status, slots, hread, -, hslots⟩
    have hcomputed : readArray strtol (fun _ => true) (separated space [[97]]) =
        .ok (⟨0, ""⟩, some ⟨1, .strings [some ⟨16, [97], 2 ^ 64 - 1⟩]⟩) := rfl
    rw [hcomputed] at hread
    cases hread
    obtain ⟨⟨s, hs, -, hnul, -⟩, -⟩ := List.forall₂_cons.1 hslots
    cases hs
    exact absurd hnul (by decide)

end SphSc.Ikv

import SphSc.Ikv.Strings
/-!
# Arrays that are filled

`ikv_read_value` makes an array of as many elements as the line has spaces. It
fills it with the runs between the spaces exactly if each space is followed by
a run and each number is read from its own run.
-/
open Exec Ring Numerals Tokens

namespace SphSc.Ikv

/-- What can follow a key: a space and something after it, with no NUL and no newline. -/
structure IsRest (line : List Byte) : Prop where
  head : line.head? = some space
  length : 2 ≤ line.length
  nul : 0 ∉ line
  newline : newline ∉ line

variable {F : Type}

/-- Each element comes from a run of its own, in order. -/
def Data.FromRuns (strtod : Numeral F) (runs : List (List Byte)) : Data F → Prop
  | .integers slots => slots = runs.map fun run => some (integer.strto run).1
  | .floats slots => slots = runs.map fun run => some (strtod.strto run).1
  | .strings slots => slots.map (Option.map Str.copied) = runs.map some

/-- Whatever memory there is, when `ikv_read_value` reports success, it has
stored an element for each run of the line, and there are no others. -/
def Fills (strtod : Numeral F) (line : List Byte) : Prop :=
  ∀ grants, ∃ status value, readArray strtod grants line = .ok (status, value) ∧
    (status.id = 0 → ∃ v, value = some v ∧ v.size = (runs space line).length ∧ v.data.FromRuns strtod (runs space line))

/-- Each space is followed by a run, and no run of other blanks only is right
before a number. The array of strings is not too large for a `size_t`, which
`calloc` checks for the numbers. -/
def Fillable (strtod : Numeral F) (line : List Byte) : Prop :=
  match detect line with
  | .ok .strings => line.count space * 8 < word ∧ Single space line
  | .ok .integers => line.count space * 8 < word → Single space line ∧ Apart integer (runs space line)
  | .ok .floats => line.count space * 8 < word → Single space line ∧ Apart strtod (runs space line)
  | .error _ => False

theorem detect_ok {line : List Byte} (h : 2 ≤ line.length) : ∃ type, detect line = .ok type := by
  have hlt : 1 < (line ++ [0]).length := by
    rw [List.length_append]
    omega
  unfold detect
  rw [read_of_lt hlt, ok_bind]
  split <;> exact ⟨_, rfl⟩

theorem runs_eq {tokens : List (List Byte)} (hspace : ∀ token ∈ tokens, space ∉ token)
    (htokens : ∀ token ∈ tokens, token ≠ []) : runs space (separated space tokens) = tokens := by
  rw [runs_separated hspace, List.filter_eq_self]
  simpa using htokens

/-- The array of numbers is as long as there are runs, and is filled with them. -/
theorem numbers_fill_iff {V : Type} {p : Numeral V} {tokens : List (List Byte)} (hne : tokens ≠ [])
    (hspace : ∀ token ∈ tokens, space ∉ token) :
    (tokens.length = (runs space (separated space tokens)).length ∧
      loop (numberRound p (separated space tokens)) (separated space tokens).length
          ⟨0, 0, List.replicate tokens.length none⟩ =
        .ok ((runs space (separated space tokens)).map fun run => some (p.strto run).1)) ↔
      Single space (separated space tokens) ∧ Apart p (runs space (separated space tokens)) := by
  rw [eq_comm, length_runs_iff hspace, single_iff hspace]
  refine and_congr_right ?_
  intro htokens
  rw [runs_eq hspace htokens, numbers_line p hne fun token htoken => ⟨hspace token htoken, htokens token htoken⟩,
    ← filled_iff, Except.ok.injEq]

/-- Either branch for numbers. -/
theorem fills_numbers_iff {V : Type} {p : Numeral V} {strtod : Numeral F} {wrap : List (Option V) → Data F}
    {tokens : List (List Byte)} (hne : tokens ≠ []) (hspace : ∀ token ∈ tokens, space ∉ token)
    (hread : ∀ grants, readArray strtod grants (separated space tokens) =
      if !callocGrants grants tokens.length then .ok (memoryError, none)
      else do
        let slots ← loop (numberRound p (separated space tokens)) (separated space tokens).length
          ⟨0, 0, List.replicate tokens.length none⟩
        .ok (⟨0, ""⟩, some ⟨tokens.length, wrap slots⟩))
    (hwrap : ∀ slots runs, (wrap slots).FromRuns strtod runs ↔ slots = runs.map fun run => some (p.strto run).1) :
    Fills strtod (separated space tokens) ↔ (tokens.length * 8 < word →
      Single space (separated space tokens) ∧ Apart p (runs space (separated space tokens))) := by
  constructor
  · intro h hsize
    have hgrants : callocGrants (fun _ => true) tokens.length = true := by simp [callocGrants, hsize]
    obtain ⟨status, value, hok, hsuccess⟩ := h fun _ => true
    rw [hread, hgrants] at hok
    simp only [Bool.not_true, Bool.false_eq_true, if_false] at hok
    obtain ⟨slots, hloop, hok⟩ := bind_eq_ok.1 hok
    cases hok
    obtain ⟨v, hv, hlength, hdata⟩ := hsuccess rfl
    cases hv
    rw [hwrap] at hdata
    exact (numbers_fill_iff hne hspace).1 ⟨hlength, hdata ▸ hloop⟩
  · intro h grants
    rw [hread]
    cases hgrants : callocGrants grants tokens.length with
    | false => exact ⟨memoryError, none, rfl, fun h0 => absurd h0 (by decide)⟩
    | true =>
      simp only [callocGrants, decide_eq_true_eq] at hgrants
      obtain ⟨hlength, hloop⟩ := (numbers_fill_iff hne hspace).2 (h hgrants.1)
      simp only [Bool.not_true, Bool.false_eq_true, if_false, hloop, ok_bind]
      exact ⟨_, _, rfl, fun _ => ⟨_, rfl, hlength, (hwrap _ _).2 rfl⟩⟩

/-- The branch for strings. -/
theorem fills_strings_iff {strtod : Numeral F} {tokens : List (List Byte)} (hne : tokens ≠ [])
    (hspace : ∀ token ∈ tokens, space ∉ token) (hdetect : detect (separated space tokens) = .ok .strings) :
    Fills strtod (separated space tokens) ↔ tokens.length * 8 < word ∧ Single space (separated space tokens) := by
  have hcount := count_separated hspace
  constructor
  · intro h
    obtain ⟨status, value, hok, hsuccess⟩ := h fun _ => true
    rw [readArray, hdetect, ok_bind] at hok
    simp only [hcount, Bool.not_true, Bool.false_eq_true, if_false] at hok
    obtain ⟨r, hloop, hok⟩ := bind_eq_ok.1 hok
    obtain ⟨slots, rfl, hslots⟩ := strings_length (fun _ => rfl) hloop
    cases hok
    obtain ⟨v, hv, hlength, hdata⟩ := hsuccess rfl
    cases hv
    have hlength : tokens.length = (runs space (separated space tokens)).length := hlength
    have hdata : slots.map (Option.map Str.copied) = (runs space (separated space tokens)).map some := hdata
    have hlengths := congrArg List.length hdata
    rw [List.length_map, List.length_map, hslots, List.length_replicate, ← hlength] at hlengths
    have hlt : wmul tokens.length 8 < word := Nat.mod_lt _ (by decide)
    refine ⟨by omega, (single_iff hspace).2 ((length_runs_iff hspace).1 hlength.symm)⟩
  · rintro ⟨hsize, hsingle⟩ grants
    have htokens := (single_iff hspace).1 hsingle
    have hroom : wmul tokens.length 8 / 8 = tokens.length := by
      rw [wmul, Nat.mod_eq_of_lt hsize]
      omega
    rw [readArray, hdetect, ok_bind]
    simp only [hcount, hroom]
    cases hmalloc : grants [.malloc (wmul tokens.length 8)] with
    | false => exact ⟨memoryError, none, rfl, fun h0 => absurd h0 (by decide)⟩
    | true =>
      simp only [Bool.not_true, Bool.false_eq_true, if_false]
      rcases strings_line grants hne (fun token htoken => ⟨hspace token htoken, htokens token htoken⟩)
        (Nat.le_refl _) [.malloc (wmul tokens.length 8)] with ⟨-, hloop⟩ | hloop
      · rw [hloop, ok_bind]
        exact ⟨memoryError, none, rfl, fun h0 => absurd h0 (by decide)⟩
      · rw [hloop, ok_bind]
        refine ⟨_, _, rfl, fun _ => ⟨_, rfl, ?_, ?_⟩⟩
        · rw [runs_eq hspace htokens]
        · rw [runs_eq hspace htokens, Nat.sub_self]
          have hcopied := congrArg (List.map some) (stringsFrom_copied 0 tokens)
          simpa [Data.FromRuns, Function.comp_def] using hcopied

/-- `ikv_read_value` fills its array exactly if the line is fillable. -/
theorem fills_iff (strtod : Numeral F) {line : List Byte} (h : IsRest line) :
    Fills strtod line ↔ Fillable strtod line := by
  obtain ⟨tokens, rfl, hne, hspace⟩ := exists_separated h.head
  obtain ⟨type, hdetect⟩ := detect_ok h.length
  have hcount := count_separated hspace
  unfold Fillable
  rw [hdetect]
  cases type with
  | strings =>
    dsimp only
    rw [hcount]
    exact fills_strings_iff hne hspace hdetect
  | integers =>
    dsimp only
    rw [hcount]
    refine @fills_numbers_iff _ _ _ _ Data.integers _ hne hspace ?_ fun _ _ => Iff.rfl
    intro grants
    rw [readArray, hdetect, ok_bind]
    simp only [hcount]
    rfl
  | floats =>
    dsimp only
    rw [hcount]
    refine @fills_numbers_iff _ _ _ _ Data.floats _ hne hspace ?_ fun _ _ => Iff.rfl
    intro grants
    rw [readArray, hdetect, ok_bind]
    simp only [hcount]
    rfl

/-- " 1 2" -/
theorem fills_two : Fills strtol [32, 49, 32, 50] := by
  have hspace : ∀ token ∈ [[49], [50]], space ∉ token := by decide
  have htokens : ∀ token ∈ [[(49 : Byte)], [50]], token ≠ [] := by decide
  refine (fills_iff strtol ⟨rfl, by decide, by decide, by decide⟩).2 ?_
  have hline : ([32, 49, 32, 50] : List Byte) = separated space [[49], [50]] := rfl
  have hdetect : detect [32, 49, 32, 50] = .ok .integers := rfl
  unfold Fillable
  rw [hdetect, hline]
  intro _
  refine ⟨(single_iff hspace).2 htokens, ?_⟩
  rw [runs_eq hspace htokens]
  exact apart_of_not_blank _ (by decide)

/-- " a  b" has two runs, but the array has three elements. -/
theorem not_filled : IsRest [32, 97, 32, 32, 98] ∧ ¬ Fills strtol [32, 97, 32, 32, 98] := by
  refine ⟨⟨rfl, by decide, by decide, by decide⟩, ?_⟩
  intro h
  have hspace : ∀ token ∈ [[97], [], [98]], space ∉ token := by decide
  have hline : ([32, 97, 32, 32, 98] : List Byte) = separated space [[97], [], [98]] := rfl
  rw [hline] at h
  obtain ⟨-, hsingle⟩ := (fills_strings_iff (List.cons_ne_nil _ _) hspace rfl).1 h
  exact (single_iff hspace).1 hsingle [] (by decide) rfl

end SphSc.Ikv

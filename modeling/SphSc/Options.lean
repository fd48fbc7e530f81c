import Mathlib.Algebra.Group.Nat.Defs
import Mathlib.Data.List.Induction
import SphSc.Lib.CStrings
/-!
# `simple_option_parser`

The parser of `other.c` for options such as `-v` and `-o file`. What it takes
is a grammar over the arguments: options one after the other, each with the
argument after it if it requires a value.
-/
open Exec CStrings

namespace SphSc.Options

def dash : Byte := 45

/-- `simple_option_parser_option_t`, where `P` is `char*`. The null pointer is `none`. -/
structure SimpleOption (P : Type) where
  isSupported : Byte
  requiresValue : Byte
  isPresent : Byte
  value : Option P

/-- The 256 options, by `option_key`. -/
abbrev Table (P : Type) := Byte → SimpleOption P

variable {P : Type}

/-- `option->is_present = 1` -/
def Table.setPresent (options : Table P) (key : Byte) : Table P :=
  Function.update options key { options key with isPresent := 1 }

/-- `option->value = value` -/
def Table.setValue (options : Table P) (key : Byte) (value : P) : Table P :=
  Function.update options key { options key with value := some value }

/-- `index + 1` -/
def succ32 (index : Nat) : Nat := (index + 1) % 2 ^ 32

/-- What the caller gets: the value returned, `*rest_index` if it is set, and the options. -/
structure Result (P : Type) where
  code : Nat
  restIndex : Option Nat
  options : Table P

/-- `index` and the options. -/
structure State (P : Type) where
  index : Nat
  options : Table P

/-- After the loop. -/
def State.leave (s : State P) : Result P := ⟨1, some s.index, s.options⟩

/-- Whether `argument_value` is `--`, looking at a character only if the ones before are dashes. -/
def isEnd (argumentValue : List Byte) : Exec Bool := do
  if (← read argumentValue 0) ≠ dash then return false
  else if (← read argumentValue 1) ≠ dash then return false
  else return (← read argumentValue 2) = 0

section
variable (string : P → CString)

/-- A round of the loop. -/
def round (argumentCount : Nat) (argumentValues : List P) (s : State P) : Exec (State P ⊕ Result P) := do
  if s.index < argumentCount then
    let argument ← read argumentValues s.index
    let argumentValue := (string argument).block
    if ← isEnd argumentValue then return .inr { s with index := succ32 s.index }.leave
    else if (← read argumentValue 0) ≠ dash then return .inr s.leave
    else if (← read argumentValue 1) = 0 then return .inr s.leave
    else if (← read argumentValue 2) ≠ 0 then return .inr s.leave
    else
      let optionKey ← read argumentValue 1
      if (s.options optionKey).isSupported = 0 then return .inr s.leave
      else
        let options := s.options.setPresent optionKey
        if (options optionKey).requiresValue ≠ 0 then
          if argumentCount ≤ succ32 s.index then return .inr ⟨0, none, options⟩
          else
            let value ← read argumentValues (succ32 s.index)
            return .inl ⟨succ32 (succ32 s.index), options.setValue optionKey value⟩
        else return .inl ⟨succ32 s.index, options⟩
  else return .inr s.leave

/-- `simple_option_parser` -/
def simpleOptionParser (fuel argumentCount : Nat) (argumentValues : List P) (options : Table P) : Exec (Result P) :=
  loop (round string argumentCount argumentValues) fuel ⟨0, options⟩

/-! ## The grammar -/

/-- The argument is a dash and a supported character, other than a dash. -/
def IsOption (options : Table P) (argument : P) (key : Byte) : Prop :=
  (string argument).text = [dash, key] ∧ key ≠ dash ∧ (options key).isSupported ≠ 0

/-- Complete options one after the other, with their characters and values. -/
inductive Complete (options : Table P) : List P → List (Byte × Option P) → Prop
  | nil : Complete options [] []
  | flag {argument key rest occurring} : IsOption string options argument key → (options key).requiresValue = 0 →
      Complete options rest occurring → Complete options (argument :: rest) ((key, none) :: occurring)
  | valued {argument key value rest occurring} : IsOption string options argument key →
      (options key).requiresValue ≠ 0 → Complete options rest occurring →
      Complete options (argument :: value :: rest) ((key, some value) :: occurring)

/-- The last of the arguments, an option, lacks its value. -/
def LacksValue (options : Table P) (rest : List P) : Prop :=
  ∃ argument key, rest = [argument] ∧ IsOption string options argument key ∧ (options key).requiresValue ≠ 0

/-- 1 if the arguments start with `--`. -/
def endLength (rest : List P) : Nat := if (rest.head?.map fun a => (string a).text) = some [dash, dash] then 1 else 0

end

/-- The options after `occurring` have been parsed. -/
structure Parsed (options options' : Table P) (occurring : List (Byte × Option P)) : Prop where
  present : ∀ key, (options' key).isPresent ≠ 0 ↔ key ∈ occurring.map Prod.fst ∨ (options key).isPresent ≠ 0
  value : ∀ key value before after, occurring = before ++ (key, some value) :: after → key ∉ after.map Prod.fst →
    (options' key).value = some value
  supported : ∀ key, (options' key).isSupported = (options key).isSupported
  required : ∀ key, (options' key).requiresValue = (options key).requiresValue
  absent : ∀ key, key ∉ occurring.map Prod.fst → options' key = options key
  valueless : ∀ key, (∀ value, (key, some value) ∉ occurring) → (options' key).value = (options key).value

/-! ## Arguments -/

theorem isEnd_eq (s : CString) : isEnd s.block = .ok (s.text = [dash, dash]) := by
  unfold isEnd
  rw [CString.read_block (Nat.zero_le _), ok_bind]
  cases htext : s.text with
  | nil => simp [dash]
  | cons b text =>
    by_cases hb : b = dash
    · subst hb
      rw [CString.read_block (by simp [htext]), htext]
      cases text with
      | nil => simp [dash]
      | cons c text =>
        by_cases hc : c = dash
        · subst hc
          rw [CString.read_block (by simp [htext]), htext]
          cases text with
          | nil => simp
          | cons d text =>
            have hd : d ≠ 0 := CString.ne_zero (s := s) (by simp [htext])
            simpa using hd
        · simp [hc]
    · simp [hb]

/-! ## The loop -/

/-- What the loop does with an option. -/
def Table.record (options : Table P) : Byte × Option P → Table P
  | (key, none) => options.setPresent key
  | (key, some value) => (options.setPresent key).setValue key value

/-- The parser does not change which options there are. -/
def Table.Same (options options' : Table P) : Prop :=
  ∀ key, (options' key).isSupported = (options key).isSupported ∧
    (options' key).requiresValue = (options key).requiresValue

theorem same_record (options : Table P) (occurrence : Byte × Option P) :
    options.Same (options.record occurrence) := by
  intro key
  obtain ⟨key', value⟩ := occurrence
  by_cases h : key = key'
  · subst h
    cases value <;> simp [Table.record, Table.setPresent, Table.setValue]
  · cases value <;> simp [Table.record, Table.setPresent, Table.setValue, h]

theorem Table.Same.trans {options options' options'' : Table P} (h : options.Same options')
    (h' : options'.Same options'') : options.Same options'' := by
  intro key
  exact ⟨(h' key).1.trans (h key).1, (h' key).2.trans (h key).2⟩

section
variable {string : P → CString} {options : Table P} {args done rest : List P} {s : State P}

theorem succ32_lt {index : Nat} (h : index + 1 < 2 ^ 32) : succ32 index = index + 1 := Nat.mod_eq_of_lt h

/-- A round at an option, as far as the tests go. -/
theorem round_option {argument : P} {key : Byte} (hargs : args = done ++ argument :: rest)
    (hindex : s.index = done.length) (hsame : options.Same s.options) (h : IsOption string options argument key) :
    round string args.length args s =
      (let present := s.options.setPresent key
       if (options key).requiresValue ≠ 0 then
         if args.length ≤ succ32 s.index then .ok (.inr ⟨0, none, present⟩)
         else do
           let value ← read args (succ32 s.index)
           .ok (.inl ⟨succ32 (succ32 s.index), present.setValue key value⟩)
       else .ok (.inl ⟨succ32 s.index, present⟩)) := by
  obtain ⟨htext, hkey, hsupported⟩ := h
  have hlt : s.index < args.length := by simp [hargs, hindex]
  have hread : read args s.index = .ok argument := by
    rw [hindex, hargs]
    exact read_length done argument rest
  have hget : ∀ i, i ≤ 2 → read (string argument).block i = .ok ([dash, key][i]?.getD 0) := by
    intro i hi
    rw [CString.read_block (by simpa [htext] using hi), htext]
  have hfirst : read (string argument).block 0 = .ok dash := hget 0 (by decide)
  have hkeyRead : read (string argument).block 1 = .ok key := hget 1 (by decide)
  have hnul : read (string argument).block 2 = .ok 0 := hget 2 (by decide)
  have hne : key ≠ 0 := CString.ne_zero (s := string argument) (by simp [htext])
  have hnot : ¬ (string argument).text = [dash, dash] := by
    rw [htext]
    simpa using hkey
  have hs : ¬ (s.options key).isSupported = 0 := by
    rw [(hsame key).1]
    exact hsupported
  have hr : (s.options.setPresent key key).requiresValue = (options key).requiresValue := by
    rw [← (hsame key).2]
    simp [Table.setPresent]
  unfold round
  simp only [hlt, if_true, hread, ok_bind, isEnd_eq, hnot, decide_false, Bool.false_eq_true, if_false, hfirst,
    hkeyRead, hnul, ne_eq, not_true, hne, hs, hr, pure_eq_ok]

/-- The loop gets past complete options. -/
theorem loop_complete {pre : List P} {occurring : List (Byte × Option P)} (fuel : Nat)
    (h : Complete string options pre occurring) (hargs : args = done ++ (pre ++ rest))
    (hlength : args.length < 2 ^ 32) (hindex : s.index = done.length) (hsame : options.Same s.options) :
    loop (round string args.length args) (fuel + occurring.length) s =
      loop (round string args.length args) fuel
        ⟨(done ++ pre).length, occurring.foldl Table.record s.options⟩ := by
  induction h generalizing done s with
  | nil =>
    rw [List.append_nil, ← hindex]
    rfl
  | @flag argument key pre occurring hoption hvalue _ ih =>
    have hroom : s.index + 1 < 2 ^ 32 := by
      simp [hargs] at hlength
      omega
    have hround := round_option (show args = done ++ argument :: (pre ++ rest) from hargs) hindex hsame hoption
    rw [if_neg (not_not.2 hvalue), succ32_lt hroom] at hround
    rw [List.length_cons, ← Nat.add_assoc, loop, hround, ok_bind]
    have hrest := @ih (done ++ [argument]) ⟨s.index + 1, s.options.setPresent key⟩ (by simp [hargs])
      (by simp [hindex]) (hsame.trans (same_record s.options (key, none)))
    rw [List.append_assoc] at hrest
    exact hrest
  | @valued argument key value pre occurring hoption hvalue _ ih =>
    have hroom : s.index + 2 < 2 ^ 32 := by
      simp [hargs] at hlength
      omega
    have hmore : ¬ args.length ≤ s.index + 1 := by
      simp [hargs, hindex]
    have hread : read args (s.index + 1) = .ok value := by
      rw [hindex, hargs]
      exact read_append done _ 1
    have hround := round_option (show args = done ++ argument :: value :: (pre ++ rest) from hargs) hindex hsame hoption
    rw [if_pos hvalue, succ32_lt (by omega), if_neg hmore, hread, ok_bind, succ32_lt hroom] at hround
    rw [List.length_cons, ← Nat.add_assoc, loop, hround, ok_bind]
    have hrest := @ih (done ++ [argument, value]) ⟨s.index + 1 + 1, (s.options.setPresent key).setValue key value⟩
      (by simp [hargs]) (by simp [hindex]) (hsame.trans (same_record s.options (key, some value)))
    rw [List.append_assoc] at hrest
    exact hrest

/-- No more option can be taken from the arguments. -/
def Stops (string : P → CString) (options : Table P) (rest : List P) : Prop :=
  ∀ argument more key, rest = argument :: more → IsOption string options argument key →
    more = [] ∧ (options key).requiresValue ≠ 0

/-- An argument that is no option is left where it is. -/
theorem round_leaves {argument : P} (hargs : args = done ++ argument :: rest) (hindex : s.index = done.length)
    (hend : (string argument).text ≠ [dash, dash])
    (hnone : ∀ key, (string argument).text = [dash, key] → (s.options key).isSupported = 0) :
    round string args.length args s = .ok (.inr s.leave) := by
  have hlt : s.index < args.length := by simp [hargs, hindex]
  have hread : read args s.index = .ok argument := by
    rw [hindex, hargs]
    exact read_length done argument _
  have hnonzero : ∀ b ∈ (string argument).text, b ≠ 0 := fun b => CString.ne_zero
  unfold round
  simp only [hlt, if_true, hread, ok_bind, isEnd_eq, hend, decide_false, Bool.false_eq_true, if_false,
    CString.read_block (s := string argument) (Nat.zero_le _)]
  -- how far the tests get
  match htext : (string argument).text with
  | [] => rfl
  | b :: text =>
    by_cases hb : b = dash
    · subst hb
      rw [CString.read_block (by simp [htext]), htext]
      match text with
      | [] => rfl
      | key :: text =>
        have hkey : key ≠ 0 := hnonzero key (by simp [htext])
        rw [CString.read_block (by simp [htext]), htext]
        match text with
        | [] =>
          have hs := hnone key htext
          simp [hs]
        | c :: text =>
          have hc : c ≠ 0 := hnonzero c (by simp [htext])
          simp only [ne_eq, not_true, if_false, ok_bind, List.getElem?_cons_zero, List.getElem?_cons_succ,
            Option.getD_some, hkey, hc, not_false_eq_true, if_true, pure_eq_ok]
    · simp [hb]

/-- The last round, where no option is left. -/
theorem round_stops (hargs : args = done ++ rest) (hlength : args.length < 2 ^ 32) (hindex : s.index = done.length)
    (hsame : options.Same s.options) (hstops : Stops string options rest) (hvalue : ¬ LacksValue string options rest) :
    round string args.length args s =
      .ok (.inr (State.leave ⟨done.length + endLength string rest, s.options⟩)) := by
  cases rest with
  | nil =>
    have hlt : ¬ s.index < args.length := by simp [hargs, hindex]
    unfold round
    simp only [hlt, if_false, endLength, List.head?_nil, Option.map_none, reduceCtorEq, Nat.add_zero, ← hindex,
      pure_eq_ok]
  | cons argument rest =>
    by_cases hend : (string argument).text = [dash, dash]
    · have hlt : s.index < args.length := by simp [hargs, hindex]
      have hroom : s.index + 1 < 2 ^ 32 := by omega
      have hread : read args s.index = .ok argument := by
        rw [hindex, hargs]
        exact read_length done argument _
      unfold round
      simp only [hlt, if_true, hread, ok_bind, isEnd_eq]
      rw [succ32_lt hroom, hindex]
      simp only [hend, decide_true, if_true, endLength, List.head?_cons, Option.map_some, pure_eq_ok]
    · have hleave : s.leave = State.leave ⟨done.length + endLength string (argument :: rest), s.options⟩ := by
        simp only [endLength, List.head?_cons, Option.map_some, Option.some.injEq, hend, if_false, Nat.add_zero,
          ← hindex]
      rw [← hleave]
      apply round_leaves hargs hindex hend
      intro key htext
      by_contra hs
      rw [(hsame key).1] at hs
      have hdash : key ≠ dash := by
        rintro rfl
        exact hend htext
      have hoption : IsOption string options argument key := ⟨htext, hdash, hs⟩
      obtain ⟨rfl, hrequires⟩ := hstops argument rest key rfl hoption
      exact hvalue ⟨argument, key, rfl, hoption, hrequires⟩

/-- The last round, where an option lacks its value. -/
theorem round_lacksValue (hargs : args = done ++ rest) (hlength : args.length < 2 ^ 32)
    (hindex : s.index = done.length) (hsame : options.Same s.options) (hvalue : LacksValue string options rest) :
    ∃ options', round string args.length args s = .ok (.inr ⟨0, none, options'⟩) := by
  obtain ⟨argument, key, rfl, hoption, hrequires⟩ := hvalue
  have hroom : s.index + 1 < 2 ^ 32 := by
    simp [hargs] at hlength
    omega
  have hlast : args.length ≤ s.index + 1 := by simp [hargs, hindex]
  refine ⟨s.options.setPresent key, ?_⟩
  rw [round_option hargs hindex hsame hoption, if_pos hrequires, succ32_lt hroom, if_pos hlast]

/-! ## The longest run of options -/

theorem IsOption.unique {argument : P} {key key' : Byte} (h : IsOption string options argument key)
    (h' : IsOption string options argument key') : key = key' := by
  have htext := h.1.symm.trans h'.1
  simpa using htext

/-- There is nothing longer than options up to where no more can be taken. -/
theorem Complete.longest {pre pre' : List P} {occurring occurring' : List (Byte × Option P)}
    (h : Complete string options pre occurring) (hstops : Stops string options rest)
    (h' : Complete string options pre' occurring') (hpre : pre' <+: pre ++ rest) : pre' <+: pre := by
  induction h generalizing pre' occurring' with
  | nil =>
    obtain ⟨left, hrest⟩ := hpre
    cases h' with
    | nil => exact List.prefix_refl _
    | flag hoption hvalue _ => exact absurd hvalue (hstops _ _ _ hrest.symm hoption).2
    | valued hoption _ _ => exact absurd (hstops _ _ _ hrest.symm hoption).1 (by simp)
  | flag hoption hvalue _ ih =>
    cases h' with
    | nil => exact List.nil_prefix
    | flag hoption' _ hmore =>
      obtain ⟨rfl, hleft⟩ := List.cons_prefix_cons.1 hpre
      exact List.cons_prefix_cons.2 ⟨rfl, ih hmore hleft⟩
    | valued hoption' hvalue' _ =>
      obtain ⟨rfl, -⟩ := List.cons_prefix_cons.1 hpre
      rw [hoption'.unique hoption] at hvalue'
      exact absurd hvalue hvalue'
  | valued hoption hvalue _ ih =>
    cases h' with
    | nil => exact List.nil_prefix
    | flag hoption' hvalue' _ =>
      obtain ⟨rfl, -⟩ := List.cons_prefix_cons.1 hpre
      rw [hoption'.unique hoption] at hvalue'
      exact absurd hvalue' hvalue
    | valued hoption' _ hmore =>
      obtain ⟨rfl, hvalues⟩ := List.cons_prefix_cons.1 hpre
      obtain ⟨rfl, hleft⟩ := List.cons_prefix_cons.1 hvalues
      exact List.cons_prefix_cons.2 ⟨rfl, List.cons_prefix_cons.2 ⟨rfl, ih hmore hleft⟩⟩

/-- Options can be taken up to where no more can be. -/
theorem exists_complete (string : P → CString) (options : Table P) :
    ∀ args : List P, ∃ pre occurring rest, args = pre ++ rest ∧ Complete string options pre occurring ∧
      Stops string options rest
  | [] => ⟨[], [], [], rfl, .nil, fun _ _ _ h => by cases h⟩
  | argument :: rest => by
    by_cases h : ∃ key, IsOption string options argument key
    · obtain ⟨key, hoption⟩ := h
      by_cases hvalue : (options key).requiresValue = 0
      · obtain ⟨pre, occurring, rest', rfl, hcomplete, hstops⟩ := exists_complete string options rest
        exact ⟨argument :: pre, (key, none) :: occurring, rest', rfl, .flag hoption hvalue hcomplete, hstops⟩
      · match rest with
        | [] =>
          refine ⟨[], [], [argument], rfl, .nil, ?_⟩
          intro argument' more key' heq hoption'
          obtain ⟨rfl, rfl⟩ := List.cons.inj heq
          rw [hoption'.unique hoption]
          exact ⟨rfl, hvalue⟩
        | value :: rest =>
          obtain ⟨pre, occurring, rest', rfl, hcomplete, hstops⟩ := exists_complete string options rest
          exact ⟨argument :: value :: pre, (key, some value) :: occurring, rest', rfl,
            .valued hoption hvalue hcomplete, hstops⟩
    · refine ⟨[], [], argument :: rest, rfl, .nil, ?_⟩
      intro argument' more key heq hoption
      obtain ⟨rfl, rfl⟩ := List.cons.inj heq
      exact absurd ⟨key, hoption⟩ h

theorem Complete.length_le {pre : List P} {occurring : List (Byte × Option P)}
    (h : Complete string options pre occurring) : occurring.length ≤ pre.length := by
  induction h with
  | nil => exact Nat.le_refl 0
  | flag _ _ _ ih => exact Nat.succ_le_succ ih
  | valued _ _ _ ih => exact Nat.succ_le_succ (Nat.le_succ_of_le ih)

/-! ## The table -/

theorem record_ne {occurrence : Byte × Option P} {key : Byte} (h : key ≠ occurrence.1) :
    options.record occurrence key = options key := by
  obtain ⟨key', value⟩ := occurrence
  have hne : key ≠ key' := h
  cases value <;> simp [Table.record, Table.setPresent, Table.setValue, hne]

theorem record_isPresent (occurrence : Byte × Option P) :
    (options.record occurrence occurrence.1).isPresent = 1 := by
  obtain ⟨key, value⟩ := occurrence
  cases value <;> simp [Table.record, Table.setPresent, Table.setValue]

theorem Parsed.refl (options : Table P) : Parsed options options [] where
  present := by simp
  value _ _ before after h := by simp at h
  supported _ := rfl
  required _ := rfl
  absent _ _ := rfl
  valueless _ _ := rfl

theorem Parsed.record {options' : Table P} {occurring : List (Byte × Option P)} (h : Parsed options options' occurring)
    (occurrence : Byte × Option P) : Parsed options (options'.record occurrence) (occurring ++ [occurrence]) where
  present key := by
    by_cases hkey : key = occurrence.1
    · rw [hkey, record_isPresent]
      simp
    · rw [record_ne hkey, h.present]
      simp [hkey]
  value key value before after heq hafter := by
    rcases List.eq_nil_or_concat after with rfl | ⟨after, last, rfl⟩
    · have hlast := List.append_inj_right' heq rfl
      rw [List.singleton_inj] at hlast
      rw [hlast]
      simp [Table.record, Table.setValue]
    · have hsplit : occurring ++ [occurrence] = (before ++ (key, some value) :: after) ++ [last] := by
        simpa using heq
      obtain ⟨hold, hlast⟩ := List.append_inj' hsplit rfl
      rw [List.singleton_inj] at hlast
      simp only [List.concat_eq_append, List.map_append, List.mem_append, not_or, List.map_cons, List.map_nil,
        List.mem_singleton] at hafter
      rw [record_ne (hlast ▸ hafter.2)]
      exact h.value key value before after hold hafter.1
  supported key := ((same_record options' occurrence key).1).trans (h.supported key)
  required key := ((same_record options' occurrence key).2).trans (h.required key)
  absent key hkey := by
    simp only [List.map_append, List.mem_append, not_or, List.map_cons, List.map_nil, List.mem_singleton] at hkey
    rw [record_ne hkey.2, h.absent key hkey.1]
  valueless key hkey := by
    have hold := h.valueless key fun value hmem => hkey value (List.mem_append_left _ hmem)
    by_cases hne : key = occurrence.1
    · obtain ⟨key', value⟩ := occurrence
      subst hne
      cases value with
      | none => simpa [Table.record, Table.setPresent] using hold
      | some value => exact absurd (List.mem_append_right _ (List.mem_singleton.2 rfl)) (hkey value)
    · rw [record_ne hne, hold]

theorem parsed_foldl (options : Table P) (occurring : List (Byte × Option P)) :
    Parsed options (occurring.foldl Table.record options) occurring := by
  induction occurring using List.reverseRecOn with
  | nil => exact .refl options
  | append_singleton occurring occurrence ih =>
    rw [List.foldl_append]
    exact ih.record occurrence

theorem same_foldl (options : Table P) (occurring : List (Byte × Option P)) :
    options.Same (occurring.foldl Table.record options) := by
  have h := parsed_foldl options occurring
  intro key
  exact ⟨h.supported key, h.required key⟩

end

/-- The parser takes the longest run of complete options. It fails exactly if
an option without its value is left as the last argument, and otherwise has
parsed the options of the run and also gets past a `--` after it. No argument
is read from `argument_count` on. -/
theorem parses_options (string : P → CString) (args : List P) (options : Table P) (hlength : args.length < 2 ^ 32) :
    ∃ pre occurring rest, args = pre ++ rest ∧ Complete string options pre occurring ∧
      (∀ pre' occurring', Complete string options pre' occurring' → pre' <+: args → pre' <+: pre) ∧
      ∀ fuel, args.length < fuel →
        ∃ result, simpleOptionParser string fuel args.length args options = .ok result ∧
          (result.code = 0 ↔ LacksValue string options rest) ∧
          (¬ LacksValue string options rest → result.code = 1 ∧
            result.restIndex = some (pre.length + endLength string rest) ∧
            Parsed options result.options occurring) := by
  obtain ⟨pre, occurring, rest, rfl, hcomplete, hstops⟩ := exists_complete string options args
  refine ⟨pre, occurring, rest, rfl, hcomplete, fun _ _ => hcomplete.longest hstops, ?_⟩
  intro fuel hfuel
  have hle := hcomplete.length_le
  obtain ⟨fuel, rfl⟩ : ∃ n, fuel = n + 1 + occurring.length :=
    ⟨fuel - 1 - occurring.length, by simp only [List.length_append] at hfuel; omega⟩
  have hloop : loop (round string (pre ++ rest).length (pre ++ rest)) (fuel + 1 + occurring.length) ⟨0, options⟩ =
      loop (round string (pre ++ rest).length (pre ++ rest)) (fuel + 1)
        ⟨pre.length, occurring.foldl Table.record options⟩ :=
    @loop_complete _ _ _ _ [] _ ⟨0, options⟩ _ _ _ hcomplete rfl hlength rfl fun _ => ⟨rfl, rfl⟩
  have hsame := same_foldl options occurring
  unfold simpleOptionParser
  rw [hloop, loop]
  by_cases hvalue : LacksValue string options rest
  · obtain ⟨options', hround⟩ := round_lacksValue (s := ⟨pre.length, _⟩) rfl hlength rfl hsame hvalue
    refine ⟨⟨0, none, options'⟩, ?_, by simp [hvalue], fun h => absurd hvalue h⟩
    rw [hround]
    rfl
  · have hround := round_stops (s := ⟨pre.length, _⟩) rfl hlength rfl hsame hstops hvalue
    refine ⟨⟨1, some (pre.length + endLength string rest), occurring.foldl Table.record options⟩, ?_, by simp [hvalue],
      fun _ => ⟨rfl, rfl, parsed_foldl options occurring⟩⟩
    rw [hround]
    rfl

/-- `-o f --`, where `-o` requires a value. -/
theorem parses_options_three : ∃ result, simpleOptionParser id 4 3
    [⟨[45, 111, 0], by decide⟩, ⟨[102, 0], by decide⟩, ⟨[45, 45, 0], by decide⟩] (fun _ => ⟨1, 1, 0, none⟩) =
      .ok result := by
  obtain ⟨_, _, _, -, -, -, h⟩ := parses_options id
    [⟨[45, 111, 0], by decide⟩, ⟨[102, 0], by decide⟩, ⟨[45, 45, 0], by decide⟩] (fun _ => ⟨1, 1, 0, none⟩) (by decide)
  obtain ⟨result, hresult, -⟩ := h 4 (by decide)
  exact ⟨result, hresult⟩

end SphSc.Options

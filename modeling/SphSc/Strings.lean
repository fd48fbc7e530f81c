import SphSc.Lib.CStrings
import SphSc.Lib.Decimal
import SphSc.Lib.Ring
/-!
# `string.h`

`string_join` adds up the size of a block in one loop and fills it in another
one, with the first string taken out of the loop. An array of no strings has no
first one. `sph_helper_uint_to_string` counts the digits of a number in one loop
and writes them from the last one on in another.
-/
open Exec CStrings Numerals Ring

namespace SphSc.Strings

variable (strings : List CString)

/-- The loop over the lengths; `remaining` is `strings_len - i`. -/
def addLengths : (remaining i totalSize : Nat) → Exec Nat
  | 0, _, totalSize => return totalSize
  | remaining + 1, i, totalSize => do
    let string ← read strings i
    addLengths remaining (i + 1) (wadd totalSize (← strlen string.block))

/-- The loop that copies, with the cursor as an index. -/
def copyStrings (delimiter : CString) (delimiterLen : Nat) : (remaining i cursor : Nat) → List Byte → Exec (List Byte)
  | 0, _, _, result => return result
  | remaining + 1, i, cursor, result => do
    let result ← memcpyTo result cursor delimiter.block delimiterLen
    let cursor := cursor + delimiterLen
    let string ← read strings i
    let partSize ← strlen string.block
    let result ← memcpyTo result cursor string.block partSize
    copyStrings delimiter delimiterLen remaining (i + 1) (cursor + partSize) result

/-- `string_join`, with the block and `*result_len`. What is in a new block is `junk`. -/
def stringJoin (grants : Grants) (junk : Nat → Byte) (stringsLen : Nat) (delimiter : CString) :
    Exec (Option (List Byte × Nat)) := do
  let delimiterLen ← strlen delimiter.block
  let totalSize ← addLengths strings stringsLen 0 (wadd 1 (wmul delimiterLen (wsub stringsLen 1)))
  if !grants [.malloc totalSize] then return none
  else
    let result := (List.range totalSize).map junk
    let string ← read strings 0
    let partSize ← strlen string.block
    let result ← memcpyTo result 0 string.block partSize
    let result ← copyStrings strings delimiter delimiterLen (stringsLen - 1) 1 partSize result
    let result ← write result (wsub totalSize 1) 0
    return some (result, wsub totalSize 1)

/-- The strings with a delimiter between neighbours. -/
def joined (delimiter : CString) : List Byte := delimiter.text.intercalate (strings.map CString.text)

/-- What is promised: the joined strings, or nothing if there are no strings or
there is no memory. -/
def Joins (grants : Grants) (delimiter : CString) (r : Option (List Byte × Nat)) : Prop :=
  let text := joined strings delimiter
  r = if strings = [] ∨ grants [.malloc (text.length + 1)] = false then none else some (text ++ [0], text.length)

variable {strings : List CString} {done rest : List CString} {delimiter : CString}

/-- A delimiter and a string for each of the strings. -/
def delimited (delimiter : CString) (rest : List CString) : List Byte :=
  rest.flatMap fun s => delimiter.text ++ s.text

theorem delimited_cons (s : CString) (rest : List CString) :
    delimited delimiter (s :: rest) = delimiter.text ++ s.text ++ delimited delimiter rest := List.flatMap_cons

theorem joined_cons (s : CString) (rest : List CString) :
    joined (s :: rest) delimiter = s.text ++ delimited delimiter rest := by
  unfold joined
  induction rest generalizing s with
  | nil => simp [delimited]
  | cons s' rest ih =>
    rw [List.map_cons, List.map_cons, List.intercalate_cons_cons, delimited_cons, List.append_assoc, List.append_assoc]
    rw [← List.map_cons, ih s']

theorem length_delimited (rest : List CString) : (delimited delimiter rest).length =
    delimiter.text.length * rest.length + (rest.map fun s => s.text.length).sum := by
  induction rest with
  | nil => simp [delimited]
  | cons s rest ih =>
    rw [delimited_cons, List.length_append, List.length_append, ih, List.map_cons, List.sum_cons, List.length_cons,
      Nat.mul_succ]
    omega

/-! ## The loops -/

theorem addLengths_eq (done rest : List CString) {totalSize : Nat}
    (hfits : totalSize + (rest.map fun s => s.text.length).sum < word) :
    addLengths (done ++ rest) rest.length done.length totalSize =
      .ok (totalSize + (rest.map fun s => s.text.length).sum) := by
  induction rest generalizing done totalSize with
  | nil => rfl
  | cons s rest ih =>
    rw [List.map_cons, List.sum_cons] at hfits ⊢
    have hadd : wadd totalSize s.text.length = totalSize + s.text.length := Nat.mod_eq_of_lt (by omega)
    have hrest := @ih (done ++ [s]) (totalSize + s.text.length) (by omega)
    rw [List.append_assoc, List.singleton_append, List.length_append, List.length_singleton] at hrest
    rw [List.length_cons, addLengths, read_length, ok_bind, strlen_eq, ok_bind, hadd, hrest, Nat.add_assoc]

/-- The text of a string goes where the one before ended. -/
theorem memcpyTo_text (before room : List Byte) (s : CString) (h : s.text.length ≤ room.length) :
    memcpyTo (before ++ room) before.length s.block s.text.length =
      .ok (before ++ s.text ++ room.drop s.text.length) := by
  obtain ⟨after, hblock⟩ := s.block_eq
  rw [hblock]
  exact memcpyTo_append h _

theorem copyStrings_eq (done rest : List CString) (before room : List Byte)
    (hroom : (delimited delimiter rest).length ≤ room.length) :
    copyStrings (done ++ rest) delimiter delimiter.text.length rest.length done.length before.length (before ++ room) =
      .ok (before ++ delimited delimiter rest ++ room.drop (delimited delimiter rest).length) := by
  induction rest generalizing done before room with
  | nil => simp [copyStrings, delimited]
  | cons s rest ih =>
    rw [delimited_cons, List.length_append, List.length_append] at hroom
    have hdelimiter := memcpyTo_text before room delimiter (by omega)
    have hstring := memcpyTo_text (before ++ delimiter.text) (room.drop delimiter.text.length) s
      (by rw [List.length_drop]; omega)
    rw [List.length_append] at hstring
    have hrest := ih (done ++ [s]) (before ++ delimiter.text ++ s.text)
      ((room.drop delimiter.text.length).drop s.text.length) (by simp only [List.length_drop]; omega)
    rw [List.append_assoc done, List.singleton_append, List.length_append, List.length_singleton, List.length_append,
      List.length_append] at hrest
    rw [List.length_cons, copyStrings, hdelimiter, ok_bind, read_length, ok_bind, strlen_eq, ok_bind, hstring, ok_bind,
      hrest, delimited_cons]
    simp only [List.append_assoc, List.length_append, List.drop_drop, Nat.add_assoc]

/-! ## The function -/

/-- What is asked for where there are no strings: `strings_len - 1` wraps. -/
def emptySize (delimiter : CString) : Nat := wadd 1 (wmul delimiter.text.length (wsub 0 1))

/-- The first of no strings is looked at. -/
theorem stringJoin_nil (grants : Grants) (junk : Nat → Byte) (delimiter : CString) :
    stringJoin [] grants junk 0 delimiter =
      if grants [.malloc (emptySize delimiter)] = true then .error .outOfBounds else .ok none := by
  rw [stringJoin, strlen_eq, ok_bind]
  change (if (!grants [.malloc (emptySize delimiter)]) = true then _ else _) = _
  cases grants [.malloc (emptySize delimiter)] <;> rfl

/-- The block is filled to its last byte, which the NUL goes to. -/
theorem fill_joined (s : CString) {block : List Byte}
    (hblock : block.length = (joined (s :: rest) delimiter).length + 1) :
    (do
      let result ← memcpyTo block 0 s.block s.text.length
      let result ← copyStrings (s :: rest) delimiter delimiter.text.length rest.length 1 s.text.length result
      let result ← write result (joined (s :: rest) delimiter).length 0
      return some (result, (joined (s :: rest) delimiter).length)) =
      .ok (some (joined (s :: rest) delimiter ++ [0], (joined (s :: rest) delimiter).length)) := by
  have hsize : (joined (s :: rest) delimiter).length = s.text.length + (delimited delimiter rest).length := by
    rw [joined_cons, List.length_append]
  have hfirst : memcpyTo block 0 s.block s.text.length = .ok (s.text ++ block.drop s.text.length) :=
    memcpyTo_text [] block s (by omega)
  have hcopy := @copyStrings_eq delimiter [s] rest s.text (block.drop s.text.length)
    (by rw [List.length_drop]; omega)
  rw [List.drop_drop, ← hsize, ← joined_cons] at hcopy
  obtain ⟨b, hlast⟩ : ∃ b, block.drop (joined (s :: rest) delimiter).length = [b] :=
    List.length_eq_one_iff.1 (by rw [List.length_drop]; omega)
  rw [hlast] at hcopy
  rw [hfirst, ok_bind]
  refine (congrArg (· >>= _) hcopy).trans ?_
  rw [ok_bind, write_length, ok_bind]
  rfl

theorem stringJoin_cons (grants : Grants) (junk : Nat → Byte) (s : CString) (hlength : (s :: rest).length < word)
    (hfits : (joined (s :: rest) delimiter).length + 1 < word) :
    stringJoin (s :: rest) grants junk (s :: rest).length delimiter =
      .ok (if grants [.malloc ((joined (s :: rest) delimiter).length + 1)] = true then
        some (joined (s :: rest) delimiter ++ [0], (joined (s :: rest) delimiter).length) else none) := by
  have hsize : (joined (s :: rest) delimiter).length =
      s.text.length + (delimiter.text.length * rest.length + (rest.map fun s => s.text.length).sum) := by
    rw [joined_cons, List.length_append, length_delimited]
  rw [List.length_cons] at hlength
  have hcount : wsub (rest.length + 1) 1 = rest.length := wsub_of_le hlength (by omega)
  have hmul : wmul delimiter.text.length rest.length = delimiter.text.length * rest.length :=
    Nat.mod_eq_of_lt (by omega)
  have hadd : wadd 1 (delimiter.text.length * rest.length) = 1 + delimiter.text.length * rest.length :=
    Nat.mod_eq_of_lt (by omega)
  have htotal : addLengths (s :: rest) (rest.length + 1) 0 (1 + delimiter.text.length * rest.length) =
      .ok ((joined (s :: rest) delimiter).length + 1) := by
    have hlengths := @addLengths_eq [] (s :: rest) (1 + delimiter.text.length * rest.length)
      (by rw [List.map_cons, List.sum_cons]; omega)
    rw [List.map_cons, List.sum_cons] at hlengths
    refine hlengths.trans (congrArg _ ?_)
    omega
  have hlast : wsub ((joined (s :: rest) delimiter).length + 1) 1 = (joined (s :: rest) delimiter).length :=
    wsub_of_le hfits (by omega)
  have hfill := @fill_joined rest delimiter s ((List.range ((joined (s :: rest) delimiter).length + 1)).map junk)
    (by rw [List.length_map, List.length_range])
  rw [stringJoin, strlen_eq, ok_bind, List.length_cons, hcount, hmul, hadd, htotal, ok_bind]
  cases grants [.malloc ((joined (s :: rest) delimiter).length + 1)] with
  | false => rfl
  | true =>
    have hread : read (s :: rest) 0 = .ok s := rfl
    simp only [Bool.not_true, Bool.false_eq_true, if_false, if_true, hread, ok_bind, strlen_eq, Nat.add_sub_cancel, hlast]
    exact hfill

/-- The strings are joined as promised, unless there are none and memory is
found for them. -/
theorem string_join_iff (strings : List CString) (delimiter : CString) (grants : Grants) (junk : Nat → Byte)
    (hlength : strings.length < word) (hfits : (joined strings delimiter).length + 1 < word) :
    (∃ r, stringJoin strings grants junk strings.length delimiter = .ok r ∧ Joins strings grants delimiter r) ↔
      strings ≠ [] ∨ grants [.malloc (emptySize delimiter)] = false := by
  cases strings with
  | nil =>
    rw [List.length_nil, stringJoin_nil]
    cases hgrants : grants [.malloc (emptySize delimiter)] with
    | false => exact iff_of_true ⟨none, rfl, rfl⟩ (.inr rfl)
    | true =>
      refine iff_of_false ?_ (by simp)
      rintro ⟨r, hr, -⟩
      cases hr
  | cons s rest =>
    refine iff_of_true ⟨_, stringJoin_cons grants junk s hlength hfits, ?_⟩ (.inl (List.cons_ne_nil s rest))
    unfold Joins
    cases hgrants : grants [.malloc ((joined (s :: rest) delimiter).length + 1)] <;> simp [hgrants]

/-- "a", "" and "b", with ", ". -/
theorem string_join_three : ∃ r, stringJoin [⟨[97, 0], by decide⟩, ⟨[0], by decide⟩, ⟨[98, 0], by decide⟩]
    (fun _ => true) (fun _ => 0) 3 ⟨[44, 32, 0], by decide⟩ = .ok r ∧
      r = some ([97, 44, 32, 44, 32, 98, 0], 6) := by
  obtain ⟨r, hr, hjoins⟩ := (string_join_iff [⟨[97, 0], by decide⟩, ⟨[0], by decide⟩, ⟨[98, 0], by decide⟩]
    ⟨[44, 32, 0], by decide⟩ (fun _ => true) (fun _ => 0) (by decide) (by decide)).2 (.inl (List.cons_ne_nil _ _))
  exact ⟨r, hr, hjoins⟩

/-- No strings, with an empty delimiter. -/
theorem string_join_none : ¬ ∃ r, stringJoin [] (fun _ => true) (fun _ => 0) 0 ⟨[0], by decide⟩ = .ok r ∧
    Joins [] (fun _ => true) ⟨[0], by decide⟩ r := by
  rintro ⟨r, hr, -⟩
  cases hr

/-! ## Numbers -/

/-- A round of the loop that counts, on `t` and `digits`. -/
def countRound (s : Nat × Nat) : Exec ((Nat × Nat) ⊕ Nat) :=
  if s.1 ≥ 10 then return .inl (s.1 / 10, wadd s.2 1) else return .inr s.2

/-- `p`, as an index, `a` and the block. -/
structure DigitState where
  p : Nat
  a : Nat
  result : List Byte

/-- A round of the loop that writes, which looks at `a` at its end. -/
def digitRound (s : DigitState) : Exec (DigitState ⊕ List Byte) := do
  let p := wsub s.p 1
  let result ← write s.result p (BitVec.ofNat 8 (48 + s.a % 10))
  let a := s.a / 10
  if a > 0 then return .inl ⟨p, a, result⟩ else return .inr result

/-- `sph_helper_uint_to_string`, with the block and `*result_len`. -/
def helperUintToString (grants : Grants) (junk : Nat → Byte) (fuel a : Nat) : Exec (Option (List Byte × Nat)) := do
  let digits ← loop countRound fuel (a, 1)
  if !grants [.malloc (wadd digits 1)] then return none
  else
    let result := (List.range (wadd digits 1)).map junk
    let result ← write result digits 0
    let result ← loop digitRound fuel ⟨digits, a, result⟩
    return some (result, digits)

theorem count_loop {a d fuel : Nat} (hfits : d + (decimal a).length < word) (hfuel : (decimal a).length ≤ fuel) :
    loop countRound fuel (a, d + 1) = .ok (d + (decimal a).length) := by
  induction a using Nat.strong_induction_on generalizing d fuel with
  | _ a ih =>
    rcases Nat.lt_or_ge a 10 with hlt | hle
    · rw [decimal_of_lt hlt, List.length_singleton] at *
      obtain ⟨fuel, rfl⟩ : ∃ k, fuel = k + 1 := ⟨fuel - 1, by omega⟩
      exact loop_exit (by rw [countRound, if_neg (by simpa using hlt)]; rfl) fuel
    · rw [decimal_of_le hle, List.length_append, List.length_singleton] at *
      obtain ⟨fuel, rfl⟩ : ∃ k, fuel = k + 1 := ⟨fuel - 1, by omega⟩
      have hpos := List.length_pos_iff.2 (decimal_ne_nil (a / 10))
      have hadd : wadd (d + 1) 1 = d + 1 + 1 := Nat.mod_eq_of_lt (by omega)
      have hround : countRound (a, d + 1) = .ok (.inl (a / 10, d + 1 + 1)) := by
        rw [countRound, if_pos hle, hadd]
        rfl
      rw [loop_next hround, ih (a / 10) (Nat.div_lt_self (by omega) (by decide)) (by omega) (by omega)]
      congr 1
      omega

/-- The digits go to the places before `p` and to no others. -/
theorem digit_loop {a fuel : Nat} (room after : List Byte) (hroom : room.length = (decimal a).length)
    (hlength : room.length < word) (hfuel : (decimal a).length ≤ fuel) :
    loop digitRound fuel ⟨room.length, a, room ++ after⟩ = .ok (decimal a ++ after) := by
  induction a using Nat.strong_induction_on generalizing room after fuel with
  | _ a ih =>
    have hpos := List.length_pos_iff.2 (decimal_ne_nil a)
    obtain ⟨room, c, rfl⟩ : ∃ room' c, room = room' ++ [c] := by
      obtain rfl | ⟨room', c, hc⟩ := List.eq_nil_or_concat room
      · rw [← hroom] at hpos
        cases hpos
      · exact ⟨room', c, by rw [hc, List.concat_eq_append]⟩
    rw [List.length_append, List.length_singleton] at *
    obtain ⟨fuel, rfl⟩ : ∃ k, fuel = k + 1 := ⟨fuel - 1, by omega⟩
    have hp : wsub (room.length + 1) 1 = room.length := wsub_of_le hlength (by omega)
    -- the last digit goes to the last place
    have hwrite : write (room ++ [c] ++ after) room.length (digit (a % 10)) = .ok (room ++ digit (a % 10) :: after) := by
      rw [List.append_assoc]
      exact write_length room c _ after
    have hround : digitRound ⟨room.length + 1, a, room ++ [c] ++ after⟩ =
        .ok (if a / 10 > 0 then .inl ⟨room.length, a / 10, room ++ digit (a % 10) :: after⟩
          else .inr (room ++ digit (a % 10) :: after)) := by
      unfold digitRound
      simp only [hp]
      refine (congrArg (· >>= _) hwrite).trans ?_
      rw [ok_bind]
      split <;> rfl
    rcases Nat.lt_or_ge a 10 with hlt | hle
    · rw [decimal_of_lt hlt, List.length_singleton] at hroom
      obtain rfl := List.length_eq_zero_iff.1 (show room.length = 0 by omega)
      rw [if_neg (by omega)] at hround
      rw [loop_exit hround, decimal_of_lt hlt, Nat.mod_eq_of_lt hlt]
      rfl
    · rw [decimal_of_le hle, List.length_append, List.length_singleton] at *
      rw [if_pos (by omega)] at hround
      rw [loop_next hround, ih (a / 10) (Nat.div_lt_self (by omega) (by decide)) room _ (by omega) (by omega) (by omega)]
      simp

/-- A number is printed in decimal with as many bytes as it has digits. The loop
that writes fills the places before the NUL, whatever stands there, and leaves
what is after them alone. Read again, the digits give the number. -/
theorem uint_to_string (grants : Grants) (junk : Nat → Byte) (a fuel : Nat) (ha : a < word) (hfuel : 20 ≤ fuel) :
    helperUintToString grants junk fuel a = .ok (if grants [.malloc ((decimal a).length + 1)] = true then
      some (decimal a ++ [0], (decimal a).length) else none) ∧
    (∀ room after : List Byte, room.length = (decimal a).length →
      loop digitRound fuel ⟨room.length, a, room ++ after⟩ = .ok (decimal a ++ after)) ∧
    (∀ c ∈ decimal a, isDigit c) ∧ ((decimal a).head? = some (digit 0) ↔ a = 0) ∧ ofDigits (decimal a) = a := by
  have hlength : (decimal a).length ≤ 20 := by
    rw [length_decimal_le_iff (by decide)]
    exact ha.trans (by decide)
  have hloop : ∀ room after : List Byte, room.length = (decimal a).length →
      loop digitRound fuel ⟨room.length, a, room ++ after⟩ = .ok (decimal a ++ after) := by
    intro room after hroom
    exact digit_loop room after hroom (by unfold word; omega) (by omega)
  refine ⟨?_, hloop, fun c => isDigit_decimal, head_decimal_iff a, ofDigits_decimal a⟩
  have hcount : loop countRound fuel (a, 1) = .ok (decimal a).length := by
    have hcount := @count_loop a 0 fuel (by unfold word; omega) (by omega)
    rwa [Nat.zero_add, Nat.zero_add] at hcount
  have hadd : wadd (decimal a).length 1 = (decimal a).length + 1 := Nat.mod_eq_of_lt (by unfold word; omega)
  rw [helperUintToString, hcount, ok_bind, hadd]
  cases grants [.malloc ((decimal a).length + 1)] with
  | false => rfl
  | true =>
    obtain ⟨room, c, hroom, hblock⟩ : ∃ room c, room.length = (decimal a).length ∧
        (List.range ((decimal a).length + 1)).map junk = room ++ [c] :=
      ⟨(List.range (decimal a).length).map junk, junk (decimal a).length, by simp, by simp [List.range_succ]⟩
    simp only [Bool.not_true, Bool.false_eq_true, if_false, if_true, hblock]
    rw [← hroom, write_length, ok_bind, hloop room [0] hroom, ok_bind]
    rfl

/-- The largest number takes 20 digits. -/
theorem uint_to_string_max : ∃ digits, helperUintToString (fun _ => true) (fun _ => 0) 20 (word - 1) =
    .ok (some (digits ++ [0], digits.length)) ∧ ofDigits digits = word - 1 := by
  obtain ⟨hrun, -, -, -, hdigits⟩ := uint_to_string (fun _ => true) (fun _ => 0) (word - 1) 20 (by decide) (by decide)
  exact ⟨decimal (word - 1), hrun, hdigits⟩

end SphSc.Strings

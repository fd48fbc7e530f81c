import SphSc.Strings
/-!
# Copies of strings

`string_append` and `string_clone` each do what `string_join` does with two
strings and an empty delimiter, or with one string. `ensure_trailing_slash` has
the length of its string in a `uint32_t`, so that it is right for strings of
less than 4 GiB.
-/
open Exec CStrings Ring

namespace SphSc.Strings

/-- `string_append`. What is in a new block is `junk`. -/
def stringAppend (grants : Grants) (junk : Nat → Byte) (a b : CString) : Exec (Option (List Byte)) := do
  let aLength ← strlen a.block
  let bLength ← strlen b.block
  let size := wadd (wadd 1 aLength) bLength
  if !grants [.malloc size] then return none
  else
    let result := (List.range size).map junk
    let result ← memcpyTo result 0 a.block aLength
    let result ← memcpyTo result aLength b.block (wadd 1 bLength)
    let result ← write result (wadd aLength bLength) 0
    return some result

def stringClone (grants : Grants) (junk : Nat → Byte) (a : CString) : Exec (Option (List Byte)) := do
  let aSize := wadd 1 (← strlen a.block)
  if !grants [.malloc aSize] then return none
  else
    let result ← memcpy ((List.range aSize).map junk) a.block aSize
    return some result

/-- The number of `uint32_t` values. -/
def word32 : Nat := 2 ^ 32

/-- '/' -/
def slash : Byte := 47

/-- `!a_len || ('/' == *(a + (a_len - 1)))` -/
def hasSlash (a : CString) (aLen : Nat) : Exec Bool :=
  if aLen = 0 then return true
  else do
    let b ← read a.block (aLen - 1)
    return b = slash

/-- `ensure_trailing_slash`, with what it sets `*result` to, if it does. -/
def ensureTrailingSlash (grants : Grants) (junk : Nat → Byte) (a : CString) : Exec (Byte × Option (List Byte)) := do
  let aLen := (← strlen a.block) % word32
  if ← hasSlash a aLen then return (0, some a.block)
  else
    let size := (2 + aLen) % word32
    if !grants [.malloc size] then return (1, none)
    else
      let newA ← memcpyTo ((List.range size).map junk) 0 a.block aLen
      let newA ← write newA aLen slash
      let newA ← write newA ((aLen + 1) % word32) 0
      return (2, some newA)

variable {a b : CString} {grants : Grants} {junk : Nat → Byte}

/-! ## One string for two, and for one -/

/-- The empty string. -/
def nothing : CString := ⟨[0], by decide⟩

/-- A string is copied with its NUL. -/
theorem memcpyTo_string (before room : List Byte) (s : CString) (h : s.text.length + 1 ≤ room.length) :
    memcpyTo (before ++ room) before.length s.block (s.text.length + 1) =
      .ok (before ++ (s.text ++ [0]) ++ room.drop (s.text.length + 1)) := by
  obtain ⟨after, hblock⟩ := s.block_eq
  have hcopy := @memcpyTo_append _ before room (s.text ++ [0]) (by simpa using h) after
  rw [List.length_append, List.length_singleton] at hcopy
  rw [hblock, ← hcopy, List.append_assoc, List.singleton_append]

theorem stringAppend_eq (grants : Grants) (junk : Nat → Byte) (h : a.text.length + b.text.length + 1 < word) :
    stringAppend grants junk a b =
      .ok (if grants [.malloc (a.text.length + b.text.length + 1)] then some (a.text ++ b.text ++ [0]) else none) := by
  have hsize : wadd (wadd 1 a.text.length) b.text.length = a.text.length + b.text.length + 1 := by
    rw [wadd, wadd, Nat.mod_eq_of_lt (by omega : 1 + a.text.length < word), Nat.mod_eq_of_lt (by omega)]
    omega
  have hcount : wadd 1 b.text.length = b.text.length + 1 := by
    rw [wadd, Nat.mod_eq_of_lt (by omega), Nat.add_comm]
  have hend : wadd a.text.length b.text.length = (a.text ++ b.text).length := by
    rw [wadd, Nat.mod_eq_of_lt (by omega), List.length_append]
  rw [stringAppend, strlen_eq, ok_bind, strlen_eq, ok_bind, hsize]
  dsimp only
  cases grants [.malloc (a.text.length + b.text.length + 1)] with
  | false => rfl
  | true =>
    generalize hblock : (List.range (a.text.length + b.text.length + 1)).map junk = block
    have hlength : block.length = a.text.length + b.text.length + 1 := by
      rw [← hblock, List.length_map, List.length_range]
    have hfirst : memcpyTo block 0 a.block a.text.length = .ok (a.text ++ block.drop a.text.length) :=
      memcpyTo_text [] block a (by omega)
    have hsecond := memcpyTo_string a.text (block.drop a.text.length) b (by rw [List.length_drop]; omega)
    have hrest : block.drop (a.text.length + (b.text.length + 1)) = [] := List.drop_eq_nil_of_le (by omega)
    rw [List.drop_drop, hrest, List.append_nil, ← List.append_assoc] at hsecond
    simp only [Bool.not_true, Bool.false_eq_true, if_false, if_true, hfirst, hcount, hend, ok_bind, hsecond, write_length]
    rfl

theorem stringClone_eq (grants : Grants) (junk : Nat → Byte) (h : a.text.length + 1 < word) :
    stringClone grants junk a =
      .ok (if grants [.malloc (a.text.length + 1)] then some (a.text ++ [0]) else none) := by
  have hsize : wadd 1 a.text.length = a.text.length + 1 := by
    rw [wadd, Nat.mod_eq_of_lt (by omega), Nat.add_comm]
  rw [stringClone, strlen_eq, ok_bind, hsize]
  dsimp only
  cases grants [.malloc (a.text.length + 1)] with
  | false => rfl
  | true =>
    obtain ⟨after, hblock⟩ := a.block_eq
    have htake : a.block.take (a.text.length + 1) = a.text ++ [0] := by
      rw [hblock, ← List.singleton_append, ← List.append_assoc, List.take_left' (by simp)]
    have hcopy : memcpy ((List.range (a.text.length + 1)).map junk) a.block (a.text.length + 1) = .ok (a.text ++ [0]) := by
      rw [memcpy, if_pos ⟨by simp, by simp [hblock]⟩, htake, List.drop_eq_nil_of_le (by simp), List.append_nil]
    simp only [Bool.not_true, Bool.false_eq_true, if_false, if_true, hcopy, ok_bind]
    rfl

/-- Both return the block that `string_join` does, whatever new blocks hold. -/
theorem builders_join (grants : Grants) (junk junk' : Nat → Byte) (a b delimiter : CString)
    (h : a.text.length + b.text.length + 1 < word) :
    stringAppend grants junk a b = (stringJoin [a, b] grants junk' 2 nothing >>= fun r => .ok (r.map Prod.fst)) ∧
      stringClone grants junk a = (stringJoin [a] grants junk' 1 delimiter >>= fun r => .ok (r.map Prod.fst)) := by
  have htwo : joined [a, b] nothing = a.text ++ b.text := by simp [joined, nothing, CString.text]
  have hone : joined [a] delimiter = a.text := by simp [joined]
  have hjoin := @stringJoin_cons [b] nothing grants junk' a (by simp [word]) (by rw [htwo, List.length_append]; omega)
  have hjoin' := @stringJoin_cons [] delimiter grants junk' a (by simp [word]) (by rw [hone]; omega)
  rw [htwo, List.length_append] at hjoin
  rw [hone] at hjoin'
  constructor
  · rw [stringAppend_eq grants junk h]
    refine Eq.trans ?_ (congrArg (· >>= fun r => .ok (r.map Prod.fst)) hjoin).symm
    split <;> rfl
  · rw [stringClone_eq grants junk (by omega)]
    refine Eq.trans ?_ (congrArg (· >>= fun r => .ok (r.map Prod.fst)) hjoin').symm
    split <;> rfl

/-- "a" and "bc". -/
theorem builders_join_two :
    stringAppend (fun _ => true) (fun _ => 7) ⟨[97, 0], by decide⟩ ⟨[98, 99, 0], by decide⟩ =
      (stringJoin [⟨[97, 0], by decide⟩, ⟨[98, 99, 0], by decide⟩] (fun _ => true) (fun _ => 0) 2 nothing >>= fun r =>
        .ok (r.map Prod.fst)) ∧
      stringClone (fun _ => true) (fun _ => 7) ⟨[97, 0], by decide⟩ =
        (stringJoin [⟨[97, 0], by decide⟩] (fun _ => true) (fun _ => 0) 1 nothing >>= fun r => .ok (r.map Prod.fst)) :=
  builders_join (fun _ => true) (fun _ => 7) (fun _ => 0) ⟨[97, 0], by decide⟩ ⟨[98, 99, 0], by decide⟩ nothing
    (by decide)

/-! ## A trailing slash -/

/-- What the comment promises: the string itself if it has a slash at the end, and
otherwise a new one with a slash or no memory. -/
def Ensured (a : CString) (r : Byte × Option (List Byte)) : Prop :=
  if a.text.getLast? = some slash then r = (0, some a.block)
  else r = (2, some (a.text ++ [slash, 0])) ∨ r = (1, none)

/-- The length is as a `uint32_t`: `len` is what it is read as. -/
theorem hasSlash_eq (a : CString) {len : Nat} (hle : len ≤ a.text.length) :
    hasSlash a len = .ok (decide (len = 0 ∨ a.text[len - 1]? = some slash)) := by
  unfold hasSlash
  by_cases h0 : len = 0
  · simp [h0]
  · have hlt : len - 1 < a.text.length := by omega
    rw [if_neg h0, CString.read_block (by omega), ok_bind, List.getElem?_eq_getElem hlt]
    simp [h0]

/-- The string is taken for one with a slash at the end, or for an empty one. -/
def Passes (a : CString) : Prop :=
  a.text.length % word32 = 0 ∨ a.text[a.text.length % word32 - 1]? = some slash

instance instDecidablePasses (a : CString) : Decidable (Passes a) := inferInstanceAs (Decidable (_ ∨ _))

theorem hasSlash_passes (a : CString) : hasSlash a (a.text.length % word32) = .ok (decide (Passes a)) :=
  hasSlash_eq a (Nat.mod_le a.text.length word32)

theorem ensure_pass (grants : Grants) (junk : Nat → Byte) (h : Passes a) :
    ensureTrailingSlash grants junk a = .ok (0, some a.block) := by
  simp only [ensureTrailingSlash, strlen_eq, ok_bind, hasSlash_passes, decide_eq_true h, if_true, pure_eq_ok]

/-- A new string, where the size does not wrap. -/
theorem ensure_copy (grants : Grants) (junk : Nat → Byte) (h : ¬ Passes a)
    (hlt : a.text.length % word32 + 2 < word32) :
    ensureTrailingSlash grants junk a =
      .ok (if grants [.malloc (2 + a.text.length % word32)] then
        (2, some (a.text.take (a.text.length % word32) ++ [slash, 0])) else (1, none)) := by
  have hle := Nat.mod_le a.text.length word32
  simp only [ensureTrailingSlash, strlen_eq, ok_bind, hasSlash_passes, decide_eq_false h, Bool.false_eq_true, if_false]
  generalize a.text.length % word32 = len at hlt hle ⊢
  rw [Nat.mod_eq_of_lt (by omega : 2 + len < word32), Nat.mod_eq_of_lt (by omega : len + 1 < word32)]
  cases grants [.malloc (2 + len)] with
  | false => rfl
  | true =>
    generalize hblock : (List.range (2 + len)).map junk = block
    have hlength : block.length = 2 + len := by rw [← hblock, List.length_map, List.length_range]
    obtain ⟨x, y, hrest⟩ : ∃ x y, block.drop len = [x, y] :=
      ⟨_, _, List.eq_getElem_of_length_eq_two _ (by rw [List.length_drop]; omega)⟩
    obtain ⟨after, hstring⟩ := a.block_eq
    have hcopy : memcpyTo block 0 a.block len = .ok (a.text.take len ++ x :: [y]) := by
      rw [memcpyTo, if_pos ⟨by omega, by rw [hstring, List.length_append]; omega⟩, Nat.zero_add, hrest, hstring,
        List.take_append_of_le_length hle]
      rfl
    have htake : (a.text.take len).length = len := by rw [List.length_take, Nat.min_eq_left hle]
    have hfirst := write_length (a.text.take len) x slash [y]
    have hsecond := write_length (a.text.take len ++ [slash]) y 0 []
    rw [htake] at hfirst
    rw [List.length_append, List.length_singleton, htake, List.append_assoc, List.singleton_append] at hsecond
    simp only [Bool.not_true, Bool.false_eq_true, if_false, if_true, hcopy, ok_bind, hfirst, hsecond]
    simp

/-- Where it wraps there is no room for the string. -/
theorem ensure_wraps (junk : Nat → Byte) (h : ¬ Passes a) (hge : word32 ≤ a.text.length % word32 + 2) :
    ensureTrailingSlash (fun _ => true) junk a = .error .outOfBounds := by
  have htwo : 2 < word32 := by decide
  have hlt : a.text.length % word32 < word32 := Nat.mod_lt _ (by omega)
  simp only [ensureTrailingSlash, strlen_eq, ok_bind, hasSlash_passes, decide_eq_false h, Bool.false_eq_true, if_false,
    Bool.not_true]
  generalize a.text.length % word32 = len at hlt hge ⊢
  have hsize : (2 + len) % word32 < len := by
    rw [Nat.mod_eq_sub_mod (by omega), Nat.mod_eq_of_lt (by omega)]
    omega
  rw [memcpyTo, if_neg (by simp; omega)]
  rfl

theorem passes_iff (hlt : a.text.length + 2 < word32) : Passes a ↔ a.text = [] ∨ a.text.getLast? = some slash := by
  rw [Passes, Nat.mod_eq_of_lt (by omega), List.getLast?_eq_getElem?, List.length_eq_zero_iff]

/-- The function does what it promises for strings of fewer than 2^32 - 2 bytes that
are not empty, and for longer ones only if they have a slash at the end and either
another one, or nothing, where the `uint32_t` says that they end. The empty string
is returned as it is. -/
theorem ensure_trailing_slash_iff (a : CString) :
    ((∀ grants junk, ∃ r, ensureTrailingSlash grants junk a = .ok r ∧ Ensured a r) ↔
      a.text ≠ [] ∧ a.text.length + 2 < word32 ∨ a.text.getLast? = some slash ∧ Passes a) ∧
      (a.text = [] → ∀ grants junk, ensureTrailingSlash grants junk a = .ok (0, some a.block)) := by
  refine ⟨⟨fun hall => ?_, fun h grants junk => ?_⟩,
    fun hnil grants junk => ensure_pass grants junk (by simp [Passes, hnil])⟩
  · obtain ⟨r, hr, hensured⟩ := hall (fun _ => true) fun _ => 0
    by_cases hpass : Passes a
    · rw [ensure_pass _ _ hpass] at hr
      cases hr
      by_cases hend : a.text.getLast? = some slash
      · exact .inr ⟨hend, hpass⟩
      · rw [Ensured, if_neg hend] at hensured
        simp at hensured
    · rcases Nat.lt_or_ge (a.text.length % word32 + 2) word32 with hlt | hge
      · rw [ensure_copy _ _ hpass hlt] at hr
        cases hr
        have hend : ¬ a.text.getLast? = some slash := by
          intro hend
          rw [Ensured, if_pos hend] at hensured
          simp at hensured
        rw [Ensured, if_neg hend] at hensured
        -- the new string is as long as the old one only if nothing was cut off
        have htake : a.text.take (a.text.length % word32) = a.text := by simpa using hensured
        have hlength := congrArg List.length htake
        rw [List.length_take, Nat.min_eq_left (Nat.mod_le _ _)] at hlength
        exact .inl ⟨fun hnil => hpass (by simp [Passes, hnil]), hlength ▸ hlt⟩
      · rw [ensure_wraps _ hpass hge] at hr
        cases hr
  · by_cases hpass : Passes a
    · refine ⟨_, ensure_pass grants junk hpass, ?_⟩
      have hend : a.text.getLast? = some slash :=
        h.elim (fun h => ((passes_iff h.2).1 hpass).resolve_left h.1) fun h => h.1
      rw [Ensured, if_pos hend]
    · have hlt : a.text.length + 2 < word32 := (h.resolve_right fun h => hpass h.2).2
      have hmod : a.text.length % word32 = a.text.length := Nat.mod_eq_of_lt (by omega)
      refine ⟨_, ensure_copy grants junk hpass (by rwa [hmod]), ?_⟩
      rw [Ensured, if_neg fun hend => hpass ((passes_iff hlt).2 (.inr hend)), hmod, List.take_length]
      cases grants [.malloc (2 + a.text.length)] with
      | false => exact .inr rfl
      | true => exact .inl rfl

end SphSc.Strings

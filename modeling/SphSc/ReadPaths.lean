import Mathlib.Data.List.Forall2
import Mathlib.Data.Nat.Find
import SphSc.Lib.Exec
import SphSc.Lib.Ring
import SphSc.Lib.Tokens
/-!
# `read_paths`

`read_paths` of `other.c` reads standard input into a block that it doubles. It
counts the paths and then ends each of them with a NUL where its delimiter was.
What comes after the last delimiter has no place for a NUL, and is left out.
`paths_capacity` is taken for the `paths_cap` that is declared.
-/
open Exec Ring Tokens

namespace SphSc.ReadPaths

/-! ## The function -/

section
variable (grants : Nat → Bool) (junk : Nat → Byte) (sizes : Nat → Nat)

/-- What the first loop works on, with what is left of standard input and how
often it was read. -/
structure ReadState where
  rest : List Byte
  reads : Nat
  dataSize : Nat
  dataUsed : Nat
  data : List Byte

/-- `realloc(data, data_size * 2)` if the block is full. -/
def ReadState.grow (s : ReadState) : Option ReadState :=
  if s.dataUsed = s.dataSize then
    let newDataSize := wmul s.dataSize 2
    if !grants newDataSize then none
    else some { s with
      dataSize := newDataSize
      data := (List.range newDataSize).map fun i => s.data.getD i (junk i) }
  else some s

/-- What `read` returns: some of the bytes left, but no more than asked for. A
call that fails ends the input as its end does. -/
def received (reads count : Nat) (rest : List Byte) : Nat := min count (min (max 1 (sizes reads)) rest.length)

/-- A round of the first loop, which ends early with `none` where there is no memory. -/
def readRound (s : ReadState) : Exec (ReadState ⊕ Option (Nat × List Byte)) :=
  match s.grow grants junk with
  | none => return .inr none
  | some s => do
    let r := received sizes s.reads (wsub s.dataSize s.dataUsed) s.rest
    if r ≤ 0 then return .inr (some (s.dataUsed, s.data))
    else
      let data ← memcpyTo s.data s.dataUsed s.rest r
      return .inl { s with rest := s.rest.drop r, reads := s.reads + 1, dataUsed := wadd s.dataUsed r, data }

end

/-- The second loop, on `p` and `start` as indices; `remaining` is `end - p`. -/
def countPaths (data : List Byte) (delimiter : Byte) : (remaining p start pathsCount : Nat) → Exec Nat
  | 0, _, _, pathsCount => return pathsCount
  | remaining + 1, p, start, pathsCount => do
    if (← read data p) = delimiter then
      let pathsCount := if p > start then wadd pathsCount 1 else pathsCount
      countPaths data delimiter remaining (p + 1) (p + 1) pathsCount
    else countPaths data delimiter remaining (p + 1) start pathsCount

/-- The data, `*paths` as indices into it, and `*paths_used`. -/
structure Stored where
  data : List Byte
  paths : List (Option Nat)
  pathsUsed : Nat
  deriving DecidableEq

/-- The third loop. -/
def storePaths (delimiter : Byte) : (remaining p start : Nat) → Stored → Exec Stored
  | 0, _, _, s => return s
  | remaining + 1, p, start, s => do
    if (← read s.data p) = delimiter then
      if p > start then
        let data ← write s.data p 0
        let paths ← write s.paths s.pathsUsed (some start)
        storePaths delimiter remaining (p + 1) (p + 1) { data, paths, pathsUsed := wadd s.pathsUsed 1 }
      else storePaths delimiter remaining (p + 1) (p + 1) s
    else storePaths delimiter remaining (p + 1) start s

/-- What the caller gets: null with or without a message, or data with what was counted. -/
inductive Result where
  | memoryError
  | noInput
  | paths (pathsCount : Nat) (s : Stored)
  deriving DecidableEq

/-- `read_paths` -/
def readPaths (grants : Nat → Bool) (junk : Nat → Byte) (sizes : Nat → Nat) (dataSizeMin fuel : Nat) (delimiter : Byte)
    (input : List Byte) : Exec Result := do
  if !grants dataSizeMin then return .memoryError
  else
    match ← loop (readRound grants junk sizes) fuel ⟨input, 0, dataSizeMin, 0, (List.range dataSizeMin).map junk⟩ with
    | none => return .memoryError
    | some (dataUsed, data) =>
      if dataUsed = 0 then return .noInput
      else
        let pathsCount ← countPaths data delimiter dataUsed 0 0 0
        let pathsCapacity := if pathsCount = 0 then 1 else pathsCount
        if !grants (wmul pathsCapacity 8) then return .memoryError
        else
          let paths := List.replicate (wmul pathsCapacity 8 / 8) none
          return .paths pathsCount (← storePaths delimiter dataUsed 0 0 { data, paths, pathsUsed := 0 })

variable {delimiter : Byte} {before after token first : List Byte} {tokens : List (List Byte)}

/-! ## A token and its delimiter -/

/-- A loop that goes over each byte that is no delimiter goes over a token. -/
theorem pass_token {β : Type} {F : Nat → Nat → β} {data : List Byte} (hdata : data = before ++ token ++ after)
    (htoken : delimiter ∉ token)
    (hpass : ∀ remaining p c, read data p = .ok c → c ≠ delimiter → F (remaining + 1) p = F remaining (p + 1))
    (remaining : Nat) : F (token.length + remaining) before.length = F remaining (before ++ token).length := by
  induction token generalizing before with
  | nil => simp
  | cons c token ih =>
    have hread : read data before.length = .ok c := by
      rw [hdata, List.append_assoc]
      exact read_length before c _
    have hc : c ≠ delimiter := fun hc => htoken (hc ▸ List.mem_cons_self)
    have hrest := @ih (before ++ [c]) (by simp [hdata]) fun h => htoken (List.mem_cons_of_mem _ h)
    rw [List.length_append, List.length_singleton, List.append_assoc, List.singleton_append] at hrest
    rw [List.length_cons, Nat.add_right_comm, hpass _ _ c hread hc, hrest]

/-- The test for a path that is not empty. -/
theorem start_lt_iff : (before ++ token).length > before.length ↔ token ≠ [] := by
  rw [List.length_append, ← List.length_pos_iff]
  omega

/-! ## Counting -/

theorem countPaths_token {data : List Byte} (hdata : data = before ++ token ++ after) (htoken : delimiter ∉ token)
    (remaining start pathsCount : Nat) :
    countPaths data delimiter (token.length + remaining) before.length start pathsCount =
      countPaths data delimiter remaining (before ++ token).length start pathsCount := by
  refine @pass_token delimiter before after token _
    (fun remaining p => countPaths data delimiter remaining p start pathsCount) data hdata htoken ?_ remaining
  intro remaining p c hread hc
  rw [countPaths, hread, ok_bind, if_neg hc]

theorem countPaths_next {data : List Byte} (hdata : data = before ++ token ++ delimiter :: after)
    (htoken : delimiter ∉ token) (remaining pathsCount : Nat) :
    countPaths data delimiter (token.length + (remaining + 1)) before.length before.length pathsCount =
      countPaths data delimiter remaining (before ++ token ++ [delimiter]).length (before ++ token ++ [delimiter]).length
        (if token = [] then pathsCount else wadd pathsCount 1) := by
  have hread : read data (before ++ token).length = .ok delimiter := by
    rw [hdata]
    exact read_length (before ++ token) delimiter _
  rw [countPaths_token hdata htoken, countPaths, hread, ok_bind, if_pos rfl,
    @List.length_append _ (before ++ token) [delimiter]]
  simp only [start_lt_iff, ite_not]
  rfl

/-- The runs before a delimiter are counted. -/
theorem countPaths_eq {data text : List Byte} (hdata : data = before ++ text ++ after) {pathsCount : Nat}
    (hfits : pathsCount + (ended delimiter text).length < word) :
    countPaths data delimiter text.length before.length before.length pathsCount =
      .ok (pathsCount + (ended delimiter text).length) := by
  induction text using split_induction delimiter generalizing before pathsCount with
  | last piece h =>
    have htoken := countPaths_token hdata h 0 before.length pathsCount
    rw [Nat.add_zero] at htoken
    rw [htoken, ended_last h]
    rfl
  | next piece text h ih =>
    have hnext := @countPaths_next delimiter before (text ++ after) piece data (by simp [hdata]) h text.length pathsCount
    have hlength : (piece ++ delimiter :: text).length = piece.length + (text.length + 1) := List.length_append
    have hended := ended_next h text
    rw [hlength, hnext]
    by_cases hnil : piece = []
    · rw [if_pos hnil, List.nil_append] at hended
      rw [hended] at hfits ⊢
      rw [if_pos hnil]
      exact ih (by simp [hdata]) hfits
    · rw [if_neg hnil, List.singleton_append] at hended
      rw [hended, List.length_cons] at hfits ⊢
      have hadd : wadd pathsCount 1 = pathsCount + 1 := Nat.mod_eq_of_lt (by omega)
      rw [if_neg hnil, hadd, ih (by simp [hdata]) (by omega)]
      congr 1
      omega

/-! ## Storing -/

/-- The bytes of `run` with a NUL after them stand at `ptr`. As a C string it is
shorter where `run` holds a NUL. -/
def IsString (data run : List Byte) (ptr : Nat) : Prop := run ++ [0] <+: data.drop ptr

theorem storePaths_token {s : Stored} (hdata : s.data = before ++ token ++ after) (htoken : delimiter ∉ token)
    (remaining start : Nat) :
    storePaths delimiter (token.length + remaining) before.length start s =
      storePaths delimiter remaining (before ++ token).length start s := by
  refine @pass_token delimiter before after token _ (fun remaining p => storePaths delimiter remaining p start s) s.data
    hdata htoken ?_ remaining
  intro remaining p c hread hc
  rw [storePaths, hread, ok_bind, if_neg hc]

/-- The slots filled so far, and `n` more. -/
def slots (filled : List Nat) (n : Nat) : List (Option Nat) := filled.map some ++ List.replicate n none

theorem write_slots (filled : List Nat) (n ptr : Nat) :
    write (slots filled (n + 1)) filled.length (some ptr) = .ok (slots (filled ++ [ptr]) n) := by
  have hwrite := write_next (filled.map some) n ptr
  rw [List.length_map] at hwrite
  rw [slots, hwrite, slots, List.map_append, List.map_singleton]

theorem slots_getElem? {ptrs : List Nat} {j ptr : Nat} (h : ptrs[j]? = some ptr) (n : Nat) :
    (slots ptrs n)[j]? = some (some ptr) := by
  have hlt := (List.getElem?_eq_some_iff.1 h).1
  rw [slots, List.getElem?_append_left (by rwa [List.length_map]), List.getElem?_map, h]
  rfl

theorem write_full (filled : List Nat) (ptr : Nat) :
    write (slots filled 0) filled.length (some ptr) = .error .outOfBounds := by
  rw [write, if_neg]
  simp [slots]

/-- A run with a NUL after it is a string from then on. -/
theorem isString_of_append {data run : List Byte} (h : before ++ run ++ [0] <+: data) :
    IsString data run before.length := by
  obtain ⟨rest, rfl⟩ := h
  rw [IsString, List.append_assoc, List.append_assoc, List.drop_left, ← List.append_assoc]
  exact List.prefix_append _ _

/-- What a token and its delimiter come to: nothing, or an entry and a NUL. -/
def stored (before token after : List Byte) (s : Stored) : Exec Stored :=
  if token = [] then return s
  else do
    let paths ← write s.paths s.pathsUsed (some before.length)
    return ⟨before ++ token ++ 0 :: after, paths, wadd s.pathsUsed 1⟩

theorem storePaths_next {s : Stored} (hdata : s.data = before ++ token ++ delimiter :: after)
    (htoken : delimiter ∉ token) (remaining : Nat) :
    storePaths delimiter (token.length + (remaining + 1)) before.length before.length s =
      stored before token after s >>=
        storePaths delimiter remaining ((before ++ token).length + 1) ((before ++ token).length + 1) := by
  have hread : read s.data (before ++ token).length = .ok delimiter := by
    rw [hdata]
    exact read_length (before ++ token) delimiter _
  rw [storePaths_token hdata htoken, storePaths, hread, ok_bind, if_pos rfl, stored]
  simp only [start_lt_iff, ite_not]
  split
  · rfl
  · rw [hdata, write_length, ok_bind]
    cases write s.paths s.pathsUsed (some before.length) <;> rfl

theorem stored_slots {filled : List Nat} {n : Nat} (data : List Byte) (htoken : token ≠ [])
    (hfits : filled.length + 1 < word) :
    stored before token after ⟨data, slots filled (n + 1), filled.length⟩ =
      .ok ⟨before ++ token ++ 0 :: after, slots (filled ++ [before.length]) n, (filled ++ [before.length]).length⟩ := by
  have hadd : wadd filled.length 1 = (filled ++ [before.length]).length := by
    rw [List.length_append, List.length_singleton]
    exact Nat.mod_eq_of_lt hfits
  rw [stored, if_neg htoken, write_slots, ok_bind, hadd]
  rfl

theorem stored_full {filled : List Nat} (data : List Byte) (htoken : token ≠ []) :
    stored before token after ⟨data, slots filled 0, filled.length⟩ = .error .outOfBounds := by
  rw [stored, if_neg htoken, write_full]
  rfl

/-- What the loop makes of a text: the runs before a delimiter are stored, if
there are slots for them. -/
def Stores (delimiter : Byte) (before text : List Byte) (filled : List Nat) (n : Nat) (x : Exec Stored) : Prop :=
  (ended delimiter text).length ≤ n ∧ (∃ data ptrs,
    x = .ok ⟨data, slots (filled ++ ptrs) (n - (ended delimiter text).length), (filled ++ ptrs).length⟩ ∧
    before <+: data ∧ List.Forall₂ (IsString data) (ended delimiter text) ptrs) ∨
  n < (ended delimiter text).length ∧ x = .error .outOfBounds

section
variable {piece text : List Byte} {filled : List Nat} {n : Nat} {x : Exec Stored}

theorem Stores.skip (h : Stores delimiter (before ++ [delimiter]) text filled n x) :
    Stores delimiter before (delimiter :: text) filled n x := by
  have hended : ended delimiter (delimiter :: text) = ended delimiter text := ended_next List.not_mem_nil text
  unfold Stores at h ⊢
  rw [hended]
  rcases h with ⟨hle, data, ptrs, hx, hbefore, hstrings⟩ | h
  · exact .inl ⟨hle, data, ptrs, hx, (List.prefix_append _ _).trans hbefore, hstrings⟩
  · exact .inr h

theorem Stores.cons (hpiece : delimiter ∉ piece) (hne : piece ≠ [])
    (h : Stores delimiter (before ++ piece ++ [0]) text (filled ++ [before.length]) n x) :
    Stores delimiter before (piece ++ delimiter :: text) filled (n + 1) x := by
  have hended : ended delimiter (piece ++ delimiter :: text) = piece :: ended delimiter text := by
    rw [ended_next hpiece, if_neg hne, List.singleton_append]
  unfold Stores at h ⊢
  rw [hended, List.length_cons]
  rcases h with ⟨hle, data, ptrs, hx, hbefore, hstrings⟩ | ⟨hlt, hx⟩
  · left
    refine ⟨by omega, data, before.length :: ptrs, ?_, ?_, .cons (isString_of_append hbefore) hstrings⟩
    · rw [hx, Nat.succ_sub_succ, List.append_assoc, List.singleton_append]
    · rw [List.append_assoc] at hbefore
      exact (List.prefix_append _ _).trans hbefore
  · exact .inr ⟨by omega, hx⟩

end

theorem storePaths_eq (before text after : List Byte) (filled : List Nat) {n : Nat}
    (hfits : filled.length + (ended delimiter text).length < word) :
    Stores delimiter before text filled n (storePaths delimiter text.length before.length before.length
      ⟨before ++ text ++ after, slots filled n, filled.length⟩) := by
  induction text using split_induction delimiter generalizing before filled n with
  | last piece h =>
    left
    have htoken := @storePaths_token delimiter before after piece ⟨before ++ piece ++ after, slots filled n, filled.length⟩
      rfl h 0 before.length
    rw [Nat.add_zero] at htoken
    rw [htoken, ended_last h]
    refine ⟨Nat.zero_le n, before ++ piece ++ after, [], ?_, ?_, .nil⟩
    · rw [List.append_nil]
      rfl
    · rw [List.append_assoc]
      exact List.prefix_append _ _
  | next piece text h ih =>
    have hnext := @storePaths_next delimiter before (text ++ after) piece
      ⟨before ++ (piece ++ delimiter :: text) ++ after, slots filled n, filled.length⟩ (by simp) h text.length
    have hlength : (piece ++ delimiter :: text).length = piece.length + (text.length + 1) := List.length_append
    have hended := ended_next h text
    rw [hlength, hnext]
    by_cases hnil : piece = []
    · subst hnil
      rw [if_pos rfl, List.nil_append, List.nil_append] at hended
      rw [List.nil_append, hended] at hfits
      have hrest := @ih (before ++ [delimiter]) filled n hfits
      rw [List.length_append, List.length_singleton, List.append_assoc before, List.singleton_append] at hrest
      rw [stored, if_pos rfl, List.append_nil]
      exact hrest.skip
    · rw [if_neg hnil, List.singleton_append] at hended
      rw [hended, List.length_cons] at hfits
      cases n with
      | zero =>
        right
        rw [stored_full _ hnil, hended]
        exact ⟨Nat.succ_pos _, rfl⟩
      | succ n =>
        have hrest := @ih (before ++ piece ++ [0]) (filled ++ [before.length]) n
          (by rw [List.length_append, List.length_singleton]; omega)
        rw [@List.length_append _ (before ++ piece) [0], List.length_singleton, List.append_assoc (before ++ piece ++ [0]),
          List.append_assoc (before ++ piece), List.singleton_append] at hrest
        rw [stored_slots _ hnil (by omega), ok_bind]
        exact hrest.cons h hnil

/-! ## Reading -/

section
variable {junk : Nat → Byte} {sizes : Nat → Nat} {got rest input : List Byte} {n reads count : Nat}

/-- A block of `n` bytes with `got` at its start. -/
def block (junk : Nat → Byte) (got : List Byte) (n : Nat) : List Byte :=
  got ++ (List.range' got.length (n - got.length)).map junk

theorem block_nil (n : Nat) : (List.range n).map junk = block junk [] n := by
  rw [block, List.nil_append, List.length_nil, Nat.sub_zero, List.range_eq_range']

theorem getD_block (i : Nat) : (block junk got n).getD i (junk i) = got.getD i (junk i) := by
  simp only [block, List.getD_eq_getElem?_getD]
  by_cases hi : i < got.length
  · rw [List.getElem?_append_left hi]
  · have hnone : got[i]? = none := List.getElem?_eq_none (by omega)
    rw [List.getElem?_append_right (by omega), hnone, List.getElem?_map]
    by_cases hi' : i - got.length < n - got.length
    · rw [List.getElem?_range' hi', Nat.one_mul, Nat.add_sub_cancel' (by omega)]
      rfl
    · rw [List.getElem?_eq_none (by rw [List.length_range']; omega)]
      rfl

/-- A larger block has the same bytes at its start. -/
theorem block_realloc {m : Nat} (h : got.length ≤ m) :
    ((List.range m).map fun i => (block junk got n).getD i (junk i)) = block junk got m := by
  simp only [getD_block]
  have hsplit : List.range m = List.range got.length ++ List.range' got.length (m - got.length) := by
    have hrange := @List.range'_append_1 0 got.length (m - got.length)
    rw [Nat.zero_add, Nat.add_sub_cancel' h] at hrange
    rw [List.range_eq_range', List.range_eq_range', hrange]
  rw [hsplit, List.map_append, block]
  congr 1
  · apply List.ext_getElem
    · rw [List.length_map, List.length_range]
    · intro i hi _
      simp at hi
      simp [hi]
  · apply List.map_congr_left
    intro i hi
    rw [List.getD_eq_getElem?_getD, List.getElem?_eq_none (List.mem_range'_1.1 hi).1]
    rfl

theorem block_memcpy {r : Nat} (hr : got.length + r ≤ n) (hrest : r ≤ rest.length) :
    memcpyTo (block junk got n) got.length rest r = .ok (block junk (got ++ rest.take r) n) := by
  have htake : (rest.take r).length = r := List.length_take_of_le hrest
  have hcopy := @memcpyTo_append _ got ((List.range' got.length (n - got.length)).map junk) (rest.take r)
    (by rw [htake, List.length_map, List.length_range']; omega) (rest.drop r)
  rw [List.take_append_drop, htake] at hcopy
  rw [block, hcopy, block, List.length_append, htake, ← List.map_drop, List.drop_range', Nat.sub_sub, Nat.mul_one]

/-- A byte is received if there is one left and room for it. -/
theorem received_eq_zero (hcount : 0 < count) : received sizes reads count rest = 0 ↔ rest = [] := by
  rw [received, ← List.length_eq_zero_iff]
  omega

theorem received_le : received sizes reads count rest ≤ count ∧ received sizes reads count rest ≤ rest.length := by
  unfold received
  omega

/-! ## The first loop -/

/-- The size of the block after the test at the start of a round. -/
def grown (got : List Byte) (n : Nat) : Nat := if got.length = n then n * 2 else n

theorem readRound_eq (hle : got.length ≤ n) (hpos : 0 < n) (hfits : grown got n < word) :
    readRound (fun _ => true) junk sizes ⟨rest, reads, n, got.length, block junk got n⟩ =
      .ok (let r := received sizes reads (grown got n - got.length) rest
        if r ≤ 0 then .inr (some (got.length, block junk got (grown got n)))
        else .inl ⟨rest.drop r, reads + 1, grown got n, (got ++ rest.take r).length,
          block junk (got ++ rest.take r) (grown got n)⟩) := by
  have hgrow : (⟨rest, reads, n, got.length, block junk got n⟩ : ReadState).grow (fun _ => true) junk =
      some ⟨rest, reads, grown got n, got.length, block junk got (grown got n)⟩ := by
    unfold ReadState.grow grown
    unfold grown at hfits
    split
    · rename_i hfull
      rw [if_pos hfull] at hfits
      have hmul : wmul n 2 = n * 2 := Nat.mod_eq_of_lt hfits
      simp only [hmul, Bool.not_true, Bool.false_eq_true, if_false, block_realloc (show got.length ≤ n * 2 by omega)]
    · rfl
  have hroom : got.length < grown got n := by
    unfold grown
    split <;> omega
  have hsub : wsub (grown got n) got.length = grown got n - got.length := wsub_of_le hfits hroom.le
  obtain ⟨hcount, hrest⟩ := @received_le sizes rest reads (grown got n - got.length)
  rw [readRound, hgrow]
  simp only [hsub]
  split
  · rfl
  · have hadd : wadd got.length (received sizes reads (grown got n - got.length) rest) =
        (got ++ rest.take (received sizes reads (grown got n - got.length) rest)).length := by
      rw [List.length_append, List.length_take_of_le hrest]
      exact Nat.mod_eq_of_lt (by omega)
    rw [block_memcpy (by omega) hrest, ok_bind, hadd]
    rfl

/-- A block that has no double of its size gets a smaller one. -/
theorem readRound_wraps (hfull : got.length = n) (hlt : n < word) (hwraps : word ≤ n * 2) :
    (∃ data, readRound (fun _ => true) junk sizes ⟨rest, reads, n, got.length, block junk got n⟩ =
      .ok (.inr (some (got.length, data))) ∧ data.length < got.length ∧ rest = []) ∨
    readRound (fun _ => true) junk sizes ⟨rest, reads, n, got.length, block junk got n⟩ = .error .outOfBounds := by
  have hmul : wmul n 2 = n * 2 - word := by
    rw [wmul, Nat.mod_eq_sub_mod hwraps]
    exact Nat.mod_eq_of_lt (by omega)
  let data := (List.range (n * 2 - word)).map fun i => (block junk got n).getD i (junk i)
  have hdata : data.length = n * 2 - word := by rw [List.length_map, List.length_range]
  have hgrow : (⟨rest, reads, n, got.length, block junk got n⟩ : ReadState).grow (fun _ => true) junk =
      some ⟨rest, reads, n * 2 - word, got.length, data⟩ := by
    rw [ReadState.grow, if_pos hfull]
    simp only [hmul]
    rfl
  have hsub : 0 < wsub (n * 2 - word) got.length := by
    rw [wsub, Nat.mod_eq_of_lt (by omega)]
    omega
  rw [readRound, hgrow]
  simp only
  by_cases hrest : rest = []
  · left
    refine ⟨data, ?_, by omega, hrest⟩
    rw [if_pos (Nat.le_zero.2 ((received_eq_zero hsub).2 hrest))]
    rfl
  · right
    have hr : received sizes reads _ rest ≠ 0 := mt (received_eq_zero hsub).1 hrest
    rw [if_neg (by omega), memcpyTo, if_neg (by omega)]
    rfl

/-- Doubling `m` gives more than `n` before it wraps. -/
def Doubles (m n : Nat) : Prop := ∃ k, n < m * 2 ^ k ∧ m * 2 ^ k < word

/-- After `k` doublings for the first time. -/
structure Doubled (m n k : Nat) : Prop where
  lt : n < m * 2 ^ k
  fits : m * 2 ^ k < word
  first : ∀ j < k, m * 2 ^ j ≤ n

theorem exists_doubled {m : Nat} (h : Doubles m n) : ∃ k, Doubled m n k := by
  obtain ⟨k, hk, hfits⟩ := h
  have hex : ∃ k, n < m * 2 ^ k := ⟨k, hk⟩
  refine ⟨Nat.find hex, Nat.find_spec hex, ?_, fun j hj => Nat.not_lt.1 (Nat.find_min hex hj)⟩
  have hpow := Nat.mul_le_mul_left m (Nat.pow_le_pow_right (show 0 < 2 by decide) (Nat.find_min' hex hk))
  omega

theorem Doubled.unique {m k k' : Nat} (h : Doubled m n k) (h' : Doubled m n k') : k = k' := by
  rcases Nat.lt_trichotomy k k' with hlt | heq | hlt
  · exact absurd h.lt (Nat.not_lt.2 (h'.first k hlt))
  · exact heq
  · exact absurd h'.lt (Nat.not_lt.2 (h.first k' hlt))

/-- A full block that cannot be doubled has the largest size there is. -/
theorem not_doubles {m j : Nat} (hfull : m * 2 ^ j ≤ n) (hwraps : word ≤ m * 2 ^ j * 2) : ¬ Doubles m n := by
  rintro ⟨k, hk, hfits⟩
  rcases Nat.lt_or_ge j k with hjk | hkj
  · have hpow := Nat.mul_le_mul_left m (Nat.pow_le_pow_right (show 0 < 2 by decide) hjk)
    rw [Nat.pow_succ, ← Nat.mul_assoc] at hpow
    omega
  · have hpow := Nat.mul_le_mul_left m (Nat.pow_le_pow_right (show 0 < 2 by decide) hkj)
    omega

/-- A block is doubled where it is full. -/
theorem grown_eq {m j : Nat} (hfirst : ∀ i < j, m * 2 ^ i ≤ got.length) :
    ∃ k, grown got (m * 2 ^ j) = m * 2 ^ k ∧ ∀ i < k, m * 2 ^ i ≤ got.length := by
  unfold grown
  split
  · rename_i hfull
    refine ⟨j + 1, by rw [Nat.pow_succ, Nat.mul_assoc], fun i hi => ?_⟩
    rcases Nat.lt_succ_iff_lt_or_eq.1 hi with hi | rfl
    · exact hfirst i hi
    · exact hfull.ge
  · exact ⟨j, rfl, hfirst⟩

/-- What the first loop leaves: the input in a block that has room for more, or
no such block if its size wraps before. -/
def Reads (junk : Nat → Byte) (m : Nat) (input : List Byte) (x : Exec (Option (Nat × List Byte))) : Prop :=
  (∃ k, Doubled m input.length k ∧ x = .ok (some (input.length, block junk input (m * 2 ^ k)))) ∨
  ¬ Doubles m input.length ∧
    (x = .error .outOfBounds ∨ ∃ data, x = .ok (some (input.length, data)) ∧ data.length < input.length)

/-- A round finds the end of the input, or moves some of it into a block that
has room for it. -/
theorem readRound_cases {m j : Nat} (hmin : 0 < m) (hle : got.length ≤ m * 2 ^ j) (hfits : grown got (m * 2 ^ j) < word)
    (hfirst : ∀ i < j, m * 2 ^ i ≤ got.length) :
    ∃ k, (∀ i < k, m * 2 ^ i ≤ got.length) ∧ got.length < m * 2 ^ k ∧ m * 2 ^ k < word ∧
      (rest = [] ∧ readRound (fun _ => true) junk sizes ⟨rest, reads, m * 2 ^ j, got.length, block junk got (m * 2 ^ j)⟩ =
        .ok (.inr (some (got.length, block junk got (m * 2 ^ k)))) ∨
      ∃ r, 0 < r ∧ r ≤ rest.length ∧ got.length + r ≤ m * 2 ^ k ∧
        readRound (fun _ => true) junk sizes ⟨rest, reads, m * 2 ^ j, got.length, block junk got (m * 2 ^ j)⟩ =
          .ok (.inl ⟨rest.drop r, reads + 1, m * 2 ^ k, (got ++ rest.take r).length,
            block junk (got ++ rest.take r) (m * 2 ^ k)⟩)) := by
  have hpos : 0 < m * 2 ^ j := Nat.mul_pos hmin (Nat.two_pow_pos j)
  have hroom : got.length < grown got (m * 2 ^ j) := by
    unfold grown
    split <;> omega
  have hround := @readRound_eq junk sizes got rest (m * 2 ^ j) reads hle hpos hfits
  obtain ⟨k, hgrown, hk⟩ := grown_eq hfirst
  rw [hgrown] at hround hfits hroom
  have hcount : 0 < m * 2 ^ k - got.length := by omega
  refine ⟨k, hk, hroom, hfits, ?_⟩
  by_cases hrest : rest = []
  · left
    simp only [(received_eq_zero hcount).2 hrest, Nat.le_refl, if_true] at hround
    exact ⟨hrest, hround⟩
  · right
    have hr : received sizes reads (m * 2 ^ k - got.length) rest ≠ 0 := mt (received_eq_zero hcount).1 hrest
    obtain ⟨hle', hrest'⟩ := @received_le sizes rest reads (m * 2 ^ k - got.length)
    simp only [show ¬ received sizes reads (m * 2 ^ k - got.length) rest ≤ 0 by omega, if_false] at hround
    exact ⟨_, by omega, hrest', by omega, hround⟩

theorem read_loop {m j fuel : Nat} (hmin : 0 < m) (hlt : m * 2 ^ j < word) (hle : got.length ≤ m * 2 ^ j)
    (hfirst : ∀ i < j, m * 2 ^ i ≤ got.length) (hfuel : rest.length < fuel) :
    Reads junk m (got ++ rest) (loop (readRound (fun _ => true) junk sizes) fuel
      ⟨rest, reads, m * 2 ^ j, got.length, block junk got (m * 2 ^ j)⟩) := by
  induction fuel generalizing rest got reads j with
  | zero => omega
  | succ fuel ih =>
    by_cases hwraps : got.length = m * 2 ^ j ∧ word ≤ m * 2 ^ j * 2
    · right
      obtain ⟨hfull, hwraps⟩ := hwraps
      refine ⟨not_doubles (by rw [List.length_append]; omega) hwraps, ?_⟩
      rcases @readRound_wraps junk sizes got rest (m * 2 ^ j) reads hfull hlt hwraps with
        ⟨data, hround, hdata, rfl⟩ | hround
      · right
        refine ⟨data, ?_, by rwa [List.append_nil]⟩
        rw [loop_exit hround, List.append_nil]
      · left
        rw [loop, hround]
        rfl
    · have hfits : grown got (m * 2 ^ j) < word := by
        unfold grown
        split <;> omega
      obtain ⟨k, hk, hroom, hlt', ⟨rfl, hround⟩ | ⟨r, hr, hrest, hgot, hround⟩⟩ :=
        @readRound_cases junk sizes got rest reads m j hmin hle hfits hfirst
      · left
        rw [List.append_nil, loop_exit hround]
        exact ⟨k, ⟨hroom, hlt', hk⟩, rfl⟩
      · have hlength : (got ++ rest.take r).length = got.length + r := by
          rw [List.length_append, List.length_take_of_le hrest]
        have hnext := @ih (got ++ rest.take r) (rest.drop r) (reads + 1) k hlt' (by omega)
          (fun i hi => (hk i hi).trans (by omega)) (by rw [List.length_drop]; omega)
        rw [List.append_assoc, List.take_append_drop] at hnext
        rwa [loop_next hround]

/-! ## The whole function -/

/-- What is promised of data that is returned: the runs of the input, as strings. -/
def Splits (delimiter : Byte) (input : List Byte) (r : Result) : Prop := ∀ pathsCount s, r = .paths pathsCount s →
  s.pathsUsed ≤ pathsCount ∧ s.pathsUsed = (runs delimiter input).length ∧
  ∀ (j : Nat) (run : List Byte), (runs delimiter input)[j]? = some run →
    ∃ ptr, s.paths[j]? = some (some ptr) ∧ IsString s.data run ptr

/-- How many paths there is room for. -/
def room (pathsCount : Nat) : Nat := wmul (if pathsCount = 0 then 1 else pathsCount) 8 / 8

theorem le_room_iff (pathsCount : Nat) : pathsCount ≤ room pathsCount ↔ pathsCount * 8 < word := by
  unfold room wmul word
  split <;> omega

theorem room_lt_iff (pathsCount : Nat) : room pathsCount < pathsCount ↔ word ≤ pathsCount * 8 := by
  rw [← Nat.not_le, le_room_iff, Nat.not_lt]

theorem forall₂_getElem? {α β : Type} {R : α → β → Prop} {xs : List α} {ys : List β} (h : List.Forall₂ R xs ys) {j : Nat}
    {x : α} (hx : xs[j]? = some x) : ∃ y, ys[j]? = some y ∧ R x y := by
  induction h generalizing j with
  | nil => cases hx
  | cons hxy _ ih =>
    cases j with
    | zero =>
      cases hx
      exact ⟨_, rfl, hxy⟩
    | succ j => exact ih hx

theorem countPaths_outOfBounds {data : List Byte} {remaining p : Nat} (hp : p ≤ data.length)
    (h : data.length < p + remaining) (start pathsCount : Nat) :
    countPaths data delimiter remaining p start pathsCount = .error .outOfBounds := by
  induction remaining generalizing p start pathsCount with
  | zero => omega
  | succ remaining ih =>
    rw [countPaths]
    rcases Nat.lt_or_eq_of_le hp with hlt | rfl
    · rw [read_of_lt hlt, ok_bind]
      split <;> exact ih hlt (by omega) _ _
    · rw [read_of_le (Nat.le_refl _)]
      rfl

/-- The first loop has read the input. -/
def InputRead (junk : Nat → Byte) (sizes : Nat → Nat) (fuel m : Nat) (input : List Byte) (size : Nat) : Prop :=
  loop (readRound (fun _ => true) junk sizes) fuel ⟨input, 0, m, 0, (List.range m).map junk⟩ =
    .ok (some (input.length, block junk input size))

/-- How the input was delivered makes no difference from then on. -/
theorem readPaths_read {m size : Nat} (hne : input ≠ []) (hlt : input.length < size) (hfits : size < word) :
    ((ended delimiter input).length * 8 < word ∧ ∃ s, s.pathsUsed = (ended delimiter input).length ∧
      (∀ (j : Nat) (run : List Byte), (ended delimiter input)[j]? = some run →
        ∃ ptr, s.paths[j]? = some (some ptr) ∧ IsString s.data run ptr) ∧
      ∀ sizes fuel, InputRead junk sizes fuel m input size →
        readPaths (fun _ => true) junk sizes m fuel delimiter input = .ok (.paths (ended delimiter input).length s)) ∨
    word ≤ (ended delimiter input).length * 8 ∧ ∀ sizes fuel, InputRead junk sizes fuel m input size →
      readPaths (fun _ => true) junk sizes m fuel delimiter input = .error .outOfBounds := by
  let tail := (List.range' input.length (size - input.length)).map junk
  have hended := length_ended_le delimiter input
  have hcount : countPaths (block junk input size) delimiter input.length 0 0 0 = .ok (ended delimiter input).length := by
    have hcount := @countPaths_eq delimiter [] tail (block junk input size) input rfl 0 (by omega)
    rwa [Nat.zero_add] at hcount
  have hstore := @storePaths_eq delimiter [] input tail [] (room (ended delimiter input).length)
    (by rw [List.length_nil]; omega)
  have hused : ¬ input.length = 0 := fun h => hne (List.length_eq_zero_iff.1 h)
  have hrun : ∀ sizes fuel, InputRead junk sizes fuel m input size →
      readPaths (fun _ => true) junk sizes m fuel delimiter input =
        (storePaths delimiter input.length 0 0 ⟨block junk input size, slots [] (room (ended delimiter input).length), 0⟩
          >>= fun s => .ok (.paths (ended delimiter input).length s)) := by
    intro sizes fuel hloop
    rw [readPaths, hloop]
    simp only [Bool.not_true, Bool.false_eq_true, if_false, ok_bind, hused, hcount]
    rfl
  rcases hstore with ⟨hroom, data, ptrs, hstore, -, hstrings⟩ | ⟨hroom, hstore⟩
  · left
    refine ⟨(le_room_iff _).1 hroom,
      ⟨data, slots ptrs (room (ended delimiter input).length - (ended delimiter input).length),
      ptrs.length⟩, hstrings.length_eq.symm, ?_, fun sizes fuel hloop => ?_⟩
    · intro j run hj
      obtain ⟨ptr, hptr, hstring⟩ := forall₂_getElem? hstrings hj
      exact ⟨ptr, slots_getElem? hptr _, hstring⟩
    · rw [hrun sizes fuel hloop]
      exact congrArg (· >>= _) hstore
  · right
    refine ⟨(room_lt_iff _).1 hroom, fun sizes fuel hloop => ?_⟩
    rw [hrun sizes fuel hloop]
    exact congrArg (· >>= _) hstore

/-- The block has become too small for what was read. -/
theorem readPaths_wrapped {m fuel : Nat}
    (hloop : loop (readRound (fun _ => true) junk sizes) fuel ⟨input, 0, m, 0, (List.range m).map junk⟩ =
      .error .outOfBounds ∨ ∃ data, loop (readRound (fun _ => true) junk sizes) fuel
        ⟨input, 0, m, 0, (List.range m).map junk⟩ = .ok (some (input.length, data)) ∧ data.length < input.length) :
    readPaths (fun _ => true) junk sizes m fuel delimiter input = .error .outOfBounds := by
  rw [readPaths]
  rcases hloop with hloop | ⟨data, hloop, hlt⟩
  · rw [hloop]
    rfl
  · have hused : ¬ input.length = 0 := by omega
    rw [hloop]
    simp only [Bool.not_true, Bool.false_eq_true, if_false, ok_bind, hused]
    rw [countPaths_outOfBounds (Nat.zero_le _) (by omega)]
    rfl

theorem readPaths_nil {m size fuel : Nat} (h : InputRead junk sizes fuel m [] size) :
    readPaths (fun _ => true) junk sizes m fuel delimiter [] = .ok .noInput := by
  rw [readPaths, h]
  rfl

theorem reads_input {m fuel : Nat} (hmin : 0 < m) (hlt : m < word) (hfuel : input.length < fuel) :
    Reads junk m input
      (loop (readRound (fun _ => true) junk sizes) fuel ⟨input, 0, m, 0, (List.range m).map junk⟩) := by
  have hreads := @read_loop junk sizes [] input 0 m 0 fuel hmin (by simpa using hlt) (Nat.zero_le _)
    (fun i hi => absurd hi (Nat.not_lt_zero i)) hfuel
  rwa [Nat.pow_zero, Nat.mul_one, List.nil_append, List.length_nil, ← block_nil] at hreads

theorem inputRead {m k fuel : Nat} (hmin : 0 < m) (hlt : m < word) (hk : Doubled m input.length k)
    (hfuel : input.length < fuel) : InputRead junk sizes fuel m input (m * 2 ^ k) := by
  rcases @reads_input junk sizes input m fuel hmin hlt hfuel with ⟨k', hk', hloop⟩ | ⟨hnot, -⟩
  · rwa [hk.unique hk']
  · exact absurd ⟨k, hk.lt, hk.fits⟩ hnot

theorem readPaths_not_doubles {m fuel : Nat} (hmin : 0 < m) (hlt : m < word) (hnot : ¬ Doubles m input.length)
    (hfuel : input.length < fuel) :
    readPaths (fun _ => true) junk sizes m fuel delimiter input = .error .outOfBounds := by
  rcases @reads_input junk sizes input m fuel hmin hlt hfuel with ⟨k, hk, -⟩ | ⟨-, hloop⟩
  · exact absurd ⟨k, hk.lt, hk.fits⟩ hnot
  · exact readPaths_wrapped hloop

/-- However the input is delivered, its runs are what is returned exactly if a
delimiter comes after the last of them and no size wraps. -/
theorem read_paths_iff (delimiter : Byte) (input : List Byte) (junk : Nat → Byte) {dataSizeMin : Nat}
    (hmin : 0 < dataSizeMin) (hlt : dataSizeMin < word) :
    (∃ r, Splits delimiter input r ∧ ∀ sizes fuel, input.length < fuel →
      readPaths (fun _ => true) junk sizes dataSizeMin fuel delimiter input = .ok r) ↔
    (input = [] ∨ input.getLast? = some delimiter) ∧ Doubles dataSizeMin input.length ∧
      (runs delimiter input).length * 8 < word := by
  by_cases hdoubles : Doubles dataSizeMin input.length
  swap
  · refine iff_of_false ?_ fun h => hdoubles h.2.1
    rintro ⟨r, -, hrun⟩
    cases (hrun (fun _ => 1) _ (Nat.lt_succ_self _)).symm.trans
      (readPaths_not_doubles hmin hlt hdoubles (Nat.lt_succ_self _))
  obtain ⟨k, hk⟩ := exists_doubled hdoubles
  have hloop := fun sizes fuel hfuel => @inputRead junk sizes input dataSizeMin k fuel hmin hlt hk hfuel
  by_cases hne : input = []
  · subst hne
    have hzero : (runs delimiter []).length * 8 = 0 := rfl
    refine iff_of_true ⟨.noInput, fun _ _ h => (nomatch h), fun sizes fuel hfuel => ?_⟩
      ⟨.inl rfl, hdoubles, by rw [hzero]; decide⟩
    exact readPaths_nil (hloop sizes fuel hfuel)
  rcases @readPaths_read delimiter junk input dataSizeMin _ hne hk.lt hk.fits with
    ⟨hroom, s, hused, hstrings, hread⟩ | ⟨hwraps, hread⟩
  · constructor
    · rintro ⟨r, hsplits, hrun⟩
      obtain rfl := Except.ok.inj ((hrun (fun _ => 1) _ (Nat.lt_succ_self _)).symm.trans
        (hread _ _ (hloop _ _ (Nat.lt_succ_self _))))
      obtain ⟨-, hcount, -⟩ := hsplits _ s rfl
      rw [hused] at hcount
      exact ⟨(ended_iff delimiter input).1 hcount, hdoubles, by rwa [← hcount]⟩
    · rintro ⟨hlast, -, -⟩
      rw [ended_eq hlast] at hused hstrings hread
      refine ⟨_, ?_, fun sizes fuel hfuel => hread sizes fuel (hloop sizes fuel hfuel)⟩
      rintro pathsCount s' ⟨⟩
      exact ⟨hused.le, hused, hstrings⟩
  · refine iff_of_false ?_ ?_
    · rintro ⟨r, -, hrun⟩
      cases (hrun (fun _ => 1) _ (Nat.lt_succ_self _)).symm.trans (hread _ _ (hloop _ _ (Nat.lt_succ_self _)))
    · rintro ⟨hlast, -, hroom⟩
      rw [ended_eq hlast] at hwraps
      omega

/-- "a" and "bc" between newlines, two of them at the start and after "a", into
a block of one byte at first. -/
theorem read_paths_two : ∃ r, Splits 10 [10, 10, 97, 10, 10, 98, 99, 10] r ∧ ∀ sizes fuel, 8 < fuel →
    readPaths (fun _ => true) (fun _ => 0) sizes 1 fuel 10 [10, 10, 97, 10, 10, 98, 99, 10] = .ok r :=
  (read_paths_iff 10 [10, 10, 97, 10, 10, 98, 99, 10] (fun _ => 0) (by decide) (by decide)).2
    ⟨.inr rfl, ⟨4, by decide, by decide⟩, by decide⟩

/-- "a" with nothing after it is no path. -/
theorem unended_lost :
    readPaths (fun _ => true) (fun _ => 0) (fun _ => 1) 1 2 10 [97] = .ok (.paths 0 ⟨[97, 0], [none], 0⟩) ∧
    ¬ Splits 10 [97] (.paths 0 ⟨[97, 0], [none], 0⟩) := by
  refine ⟨by decide, fun h => ?_⟩
  obtain ⟨-, hused, -⟩ := h 0 _ rfl
  exact absurd hused (by decide)

end

end SphSc.ReadPaths

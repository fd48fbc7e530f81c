import SphSc.Ikv.Writing
import SphSc.Ikv.Line
/-!
# What the reader does with a line

`readLine_cases` says what a round can do to the tables. An array gets into
them only through `read_value`, from two bytes or more of one line
(`Sourced`). No round gets past a key that is indented.
-/
open Exec Ring Lines

namespace SphSc.Ikv

open Hashtable

/-- What is left of a line that `read_value` may be passed. -/
structure Passable (text : List Byte) : Prop where
  length : 2 ≤ text.length
  newline : newline ∉ text
  nul : 0 ∉ text

variable {F : Type} {r : Reader F} {s s' : State F}

/-! ## Parts of a line -/

/-- The line without the newline, as `readLine` has it. -/
def stripped (line : List Byte) : List Byte :=
  if line.getLast? = some newline then line.dropLast else line

theorem strip_eq {line : List Byte} (h : line.length ≠ 0) : ∃ c, read line (line.length - 1) = .ok c ∧
    (if c = newline then line.take (line.length - 1) else line) = stripped line := by
  have hlt : line.length - 1 < line.length := by omega
  refine ⟨_, read_of_lt hlt, ?_⟩
  rw [stripped, List.getLast?_eq_getElem?, List.getElem?_eq_getElem hlt, List.dropLast_eq_take]
  simp only [Option.some.injEq]

theorem newline_stripped {line : List Byte} (h : newline ∉ line.dropLast) : newline ∉ stripped line := by
  rw [stripped]
  split
  · exact h
  · rename_i hlast
    intro hmem
    cases hline : line.getLast? with
    | none =>
      rw [List.getLast?_eq_none_iff] at hline
      rw [hline] at hmem
      cases hmem
    | some c =>
      obtain ⟨init, rfl⟩ := List.getLast?_eq_some_iff.1 hline
      rw [List.dropLast_concat] at h
      rcases List.mem_append.1 hmem with hmem | hmem
      · exact h hmem
      · obtain rfl := List.mem_singleton.1 hmem
        exact hlast hline

theorem stripped_subset (line : List Byte) : stripped line ⊆ line := by
  rw [stripped]
  split
  · exact List.dropLast_subset line
  · exact List.Subset.refl line

theorem newline_cstring {line : List Byte} (h : newline ∉ line.dropLast) : newline ∉ (cstring line).dropLast := by
  intro hmem
  obtain ⟨rest, hrest⟩ : ∃ rest, line = cstring line ++ rest := ⟨_, (List.takeWhile_append_dropWhile).symm⟩
  rw [hrest] at h
  cases rest with
  | nil => exact h (by simpa using hmem)
  | cons c rest =>
    rw [List.dropLast_append_cons] at h
    exact h (List.mem_append_left _ (List.dropLast_subset _ hmem))

/-- The NUL of an indented key goes past the end of its block. -/
theorem copyKey_indented {junk : Nat → Byte} {line : List Byte} {nesting i : Nat} (hn : 0 < nesting)
    (hi : 2 * nesting ≤ i) (hle : i ≤ line.length) : copyKey junk line nesting i = .error .outOfBounds := by
  have hcopy : memcpy ((List.range (i - 2 * nesting + 1)).map junk) (line.drop (2 * nesting)) (i - 2 * nesting) =
      .ok ((line.drop (2 * nesting)).take (i - 2 * nesting) ++
        ((List.range (i - 2 * nesting + 1)).map junk).drop (i - 2 * nesting)) := by
    rw [memcpy, if_pos]
    simp only [List.length_map, List.length_range, List.length_drop]
    omega
  simp only [copyKey, hcopy, ok_bind]
  rw [write, if_neg]
  simp only [List.length_append, List.length_take, List.length_drop, List.length_map, List.length_range]
  omega

/-! ## Rounds -/

section
variable {line : List Byte} {nesting i : Nat} {key : Option Key} {value : Value F}

theorem setNested_cases (h : setNested r s nesting key value = .ok s') : ∃ a k t t' p, s.tables[a]? = some t ∧
    Hashtable.set r.decl t k value = .ok (t', p) ∧ s'.tables = s.tables.set a t' := by
  obtain ⟨a, -, h⟩ := bind_eq_ok.1 h
  cases a with
  | none => cases h
  | some a =>
    cases key with
    | none => cases h
    | some k =>
      obtain ⟨t, ht, h⟩ := bind_eq_ok.1 h
      obtain ⟨⟨t', p⟩, hset, h⟩ := bind_eq_ok.1 h
      obtain ⟨tables, hwrite, h⟩ := bind_eq_ok.1 h
      obtain ⟨-, rfl⟩ := write_eq_ok.1 hwrite
      cases h
      exact ⟨a, k, t, t', p, read_eq_ok.1 ht, hset, rfl⟩

/-- What `ikv_new(100)` gives. -/
theorem fresh_table {grants : Grants} {junk : Nat → Value F} {t : Table Key (Value F)} {rs : List Request}
    (h : new (decl (Value F)) grants junk 100 = (0, some t, rs)) :
    Shape t ∧ layout t = (fun _ => none) ∧ t.size = 256 ∧ t.values.length = 256 := by
  have hcapacity : calculateSize 2 100 = 256 := by decide
  have hsize : t.size = 256 := (new_eq h).1.trans hcapacity
  obtain ⟨hs, hlayout⟩ := new_shape h ⟨8, hsize⟩
  refine ⟨hs, hlayout, hsize, ?_⟩
  have hbytes : wmul 256 24 / 24 = 256 := by decide
  rw [new_values h, hsize]
  exact hbytes

theorem new_decl (r : Reader F) (grants : Grants) (junk : Nat → Value F) (n : Nat) :
    new r.decl grants junk n = new (decl (Value F)) grants junk n := by
  have hfactor : r.decl.sizeFactor = (decl (Value F)).sizeFactor := rfl
  have hsizes : r.decl.sizeofKey = (decl (Value F)).sizeofKey ∧ r.decl.sizeofValue = (decl (Value F)).sizeofValue :=
    ⟨rfl, rfl⟩
  have hzero : r.decl.zeroKey = (decl (Value F)).zeroKey := rfl
  simp only [new, hfactor, hsizes, hzero]

theorem new_hundred (r : Reader F) : ∃ t rs, new r.decl (fun _ => true) r.junkValue 100 = (0, some t, rs) ∧
    Shape t ∧ layout t = (fun _ => none) := by
  obtain ⟨t, rs, hnew⟩ := new_granted (decl (Value F)) r.junkValue 100
  obtain ⟨hs, hlayout, -⟩ := fresh_table hnew
  exact ⟨t, rs, (new_decl r _ _ 100).trans hnew, hs, hlayout⟩

theorem readEntry_cases (h : readEntry r s line nesting i = .ok s') : s'.tables = s.tables ∨
    ∃ a k t t' p value fresh, (fresh = [] ∨ ∃ f, fresh = [f] ∧ layout f = fun _ => none) ∧
      (s.tables ++ fresh)[a]? = some t ∧ Hashtable.set r.decl t k value = .ok (t', p) ∧
      s'.tables = (s.tables ++ fresh).set a t' ∧
      ((∃ b, value = .ikv b) ∨ i ≠ line.length ∧ ∃ status, r.readValue (line.drop i) = .ok (status, value) ∧
        status.id = 0) := by
  unfold readEntry at h
  split at h
  · -- a line that ends after the key makes a table
    obtain ⟨f, rs, hnew, -, hlayout⟩ := new_hundred r
    rw [hnew] at h
    obtain ⟨nestedIkvs, -, h⟩ := bind_eq_ok.1 h
    obtain ⟨a, k, t, t', p, ht, hset, htables⟩ := setNested_cases h
    exact .inr ⟨a, k, t, t', p, _, [f], .inr ⟨f, rfl, hlayout⟩, ht, hset, htables, .inl ⟨_, rfl⟩⟩
  · rename_i hi
    obtain ⟨⟨status, value⟩, hread, h⟩ := bind_eq_ok.1 h
    dsimp only at h
    split at h
    · -- `read_value` failed
      cases h
      exact .inl rfl
    · rename_i hstatus
      obtain ⟨key, -, h⟩ := bind_eq_ok.1 h
      obtain ⟨a, k, t, t', p, ht, hset, htables⟩ := setNested_cases h
      refine .inr ⟨a, k, t, t', p, value, [], .inl rfl, ?_, hset, ?_, .inr ⟨hi, status, hread, not_not.1 hstatus⟩⟩
      · rw [List.append_nil]
        exact ht
      · rw [List.append_nil]
        exact htables

/-- A round does nothing to the tables before it is at an entry of its line. -/
theorem readLine_cases (h : readLine r s line = .ok s') : s' = s ∨
    ∃ s₁ nesting i, s₁.tables = s.tables ∧ readEntry r s₁ (stripped (cstring line)) nesting i = .ok s' ∧
      (i = (stripped (cstring line)).length ∨ i + 2 ≤ (stripped (cstring line)).length) := by
  unfold readLine at h
  dsimp only at h
  split at h
  · -- an empty line
    cases h
    exact .inl rfl
  rename_i hlen
  obtain ⟨c, hc, hstrip⟩ := strip_eq hlen
  rw [hc, ok_bind, hstrip] at h
  right
  generalize stripped (cstring line) = line at h
  rw [skipIndent_line, ok_bind, findKeyEnd_line, ok_bind] at h
  by_cases hbody : body line = []
  · -- nothing but indentation
    have hend : indent line = line.length := by
      rw [← indent_add line, hbody]
      rfl
    rw [if_pos hbody] at h
    exact ⟨s, _, indent line, rfl, h, .inl hend⟩
  · rw [if_neg hbody] at h
    obtain ⟨key, -, h⟩ := bind_eq_ok.1 h
    obtain ⟨nestedKeys, -, h⟩ := bind_eq_ok.1 h
    exact ⟨{ s with key := some key, nestedKeys }, _, keyEnd line, rfl, h, keyEnd_cases line⟩

end

/-! ## What gets into the tables -/

/-- Each array in a slot was read from something passable. -/
def Sourced (r : Reader F) (ts : Tables F) : Prop :=
  ∀ t ∈ ts, ∀ i key a, layout t i = some (key, .leaf a) →
    ∃ text status, Passable text ∧ r.readValue text = .ok (status, .leaf a) ∧ status.id = 0

theorem set_layout {K V : Type} {d : Decl K V} {t t' : Table K V} {key : K} {value : V} {p : Option Nat}
    (h : Hashtable.set d t key value = .ok (t', p)) {j : Nat} {e : K × V} (he : layout t' j = some e) :
    layout t j = some e ∨ e = (key, value) := by
  unfold Hashtable.set at h
  generalize d.hash key t.size = index at h
  generalize t.size = remaining at h
  induction remaining generalizing index with
  | zero =>
    cases h
    exact .inl he
  | succ remaining ih =>
    obtain ⟨b, -, h⟩ := bind_eq_ok.1 h
    split at h
    · cases h
      exact .inl he
    obtain ⟨f, -, h⟩ := bind_eq_ok.1 h
    split at h
    · obtain ⟨t'', hput, h⟩ := bind_eq_ok.1 h
      cases h
      rw [layout_put hput] at he
      by_cases hj : j = index
      · subst hj
        rw [Function.update_self] at he
        exact .inr (Option.some.inj he).symm
      · rw [Function.update_of_ne hj] at he
        exact .inl he
    · exact ih _ h

theorem readLine_sourced {line : List Byte} (hline : newline ∉ line.dropLast) (h : readLine r s line = .ok s')
    (hs : Sourced r s.tables) : Sourced r s'.tables := by
  rcases readLine_cases h with rfl | ⟨s₁, nesting, i, htables, hentry, hi⟩
  · exact hs
  rw [← htables] at hs
  rcases readEntry_cases hentry with heq | ⟨a, k, t, t', p, value, fresh, hfresh, ht, hset, htables', hvalue⟩
  · rw [heq]
    exact hs
  have hold : Sourced r (s₁.tables ++ fresh) := by
    intro t₂ ht₂ j key x hx
    rcases List.mem_append.1 ht₂ with hmem | hmem
    · exact hs t₂ hmem j key x hx
    · rcases hfresh with rfl | ⟨f, rfl, hlayout⟩
      · cases hmem
      · -- a table that was just made
        obtain rfl := List.mem_singleton.1 hmem
        rw [hlayout] at hx
        cases hx
  rw [htables']
  intro t₂ ht₂ j key x hx
  rcases List.mem_or_eq_of_mem_set ht₂ with hmem | rfl
  · exact hold t₂ hmem j key x hx
  rcases set_layout hset hx with hx | hx
  · exact hold t (List.mem_of_getElem? ht) j key x hx
  · -- the new entry
    cases hx
    rcases hvalue with ⟨b, hb⟩ | ⟨hne, status, hread, hid⟩
    · cases hb
    · refine ⟨_, status, ⟨?_, ?_, ?_⟩, hread, hid⟩
      · rw [List.length_drop]
        omega
      · exact fun hmem => newline_stripped (newline_cstring hline) (List.drop_subset _ _ hmem)
      · exact fun hmem => nul_cstring line (stripped_subset _ (List.drop_subset _ _ hmem))

theorem stripped_indented {line : List Byte} (h : Indented line) :
    ∃ c rest, stripped (cstring line) = space :: space :: c :: rest ∧ c ≠ space := by
  obtain ⟨c, rest, rfl, hspace, hnewline, hnul⟩ := h
  have hcstring : cstring (space :: space :: c :: rest) = space :: space :: c :: cstring rest := by
    rw [cstring_cons (by decide), cstring_cons (by decide), cstring_cons hnul]
  rw [hcstring, stripped]
  cases hrest : cstring rest with
  | nil => exact ⟨c, [], by simp [hnewline], hspace⟩
  | cons d rest' =>
    split
    · exact ⟨c, (d :: rest').dropLast, rfl, hspace⟩
    · exact ⟨c, d :: rest', rfl, hspace⟩

/-- An indented key makes the reader write past the end of a block. -/
theorem readLine_indented {line : List Byte} (h : Indented line) : readLine r s line = .error .outOfBounds := by
  obtain ⟨d, rest, hstripped, hspace⟩ := stripped_indented h
  have hlen : (cstring line).length ≠ 0 := by
    intro hnil
    rw [List.length_eq_zero_iff.1 hnil] at hstripped
    cases hstripped
  obtain ⟨c, hc, hstrip⟩ := strip_eq hlen
  have hindent : indent (space :: space :: d :: rest) = 2 ∧ body (space :: space :: d :: rest) = d :: rest := by
    simp [indent, body, hspace]
  have hbody : body (space :: space :: d :: rest) ≠ [] := by
    rw [hindent.2]
    exact List.cons_ne_nil d rest
  have hle : 2 * 1 ≤ keyEnd (space :: space :: d :: rest) ∧
      keyEnd (space :: space :: d :: rest) ≤ (space :: space :: d :: rest).length := by
    rw [← indent_add (space :: space :: d :: rest), keyEnd, hindent.1]
    exact ⟨Nat.le_add_right _ _, Nat.add_le_add_left (nameLength_le _) _⟩
  unfold readLine
  dsimp only
  rw [if_neg hlen, hc, ok_bind, hstrip, hstripped, skipIndent_line, ok_bind, findKeyEnd_line, ok_bind, if_neg hbody,
    hindent.1]
  dsimp only
  rw [copyKey_indented Nat.one_pos hle.1 hle.2]
  rfl

/-! ## Runs -/

theorem readLines_ok {lines : List (List Byte)} (h : readLines r s lines = .ok s') (hid : s'.status.id = 0) :
    ∀ line ∈ lines, ∃ s₁ s₂, readLine r s₁ line = .ok s₂ := by
  induction lines generalizing s with
  | nil =>
    intro line hline
    cases hline
  | cons l rest ih =>
    obtain ⟨s₁, hl, h⟩ := bind_eq_ok.1 h
    intro line hline
    rcases List.mem_cons.1 hline with rfl | hline
    · exact ⟨s, s₁, hl⟩
    · split at h
      · cases h
        contradiction
      · exact ih h line hline

theorem readLines_sourced {lines : List (List Byte)} (hlines : ∀ line ∈ lines, newline ∉ line.dropLast)
    (h : readLines r s lines = .ok s') (hs : Sourced r s.tables) : Sourced r s'.tables := by
  induction lines generalizing s with
  | nil =>
    cases h
    exact hs
  | cons l rest ih =>
    obtain ⟨s₁, hl, h⟩ := bind_eq_ok.1 h
    have hs₁ := readLine_sourced (hlines l List.mem_cons_self) hl hs
    split at h
    · cases h
      exact hs₁
    · exact ih (fun line hline => hlines line (List.mem_cons_of_mem l hline)) h hs₁

end SphSc.Ikv

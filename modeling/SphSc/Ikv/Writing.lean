import SphSc.Ikv.Tree
/-!
# What the writer writes

A table is written entry by entry, in the order of its slots. Where a nested
table has entries, a line of the text starts with two spaces and a name.
-/
open Exec Lines

namespace SphSc.Ikv

open Hashtable

variable {F : Type} {formatFloat : F → List Byte}

/-- The texts of the entries, one after the other. -/
def writeEntries (formatFloat : F → List Byte) (nested : Nat → Exec (List Byte)) (nesting : Nat) :
    List (Key × Value F) → Exec (List Byte)
  | [] => return []
  | (key, b) :: es => do
    let text ← writeValue formatFloat nested b
    let rest ← writeEntries formatFloat nested nesting es
    return List.replicate (2 * nesting) space ++ cstring key ++ text ++ rest

section
variable {nested : Nat → Exec (List Byte)} {nesting : Nat}

theorem writeLoop_eq {t : Table Key (Value F)} (hs : Shape t) {remaining i : Nat} (hi : i + remaining = t.size) :
    writeLoop formatFloat nested t nesting remaining i =
      writeEntries formatFloat nested nesting ((List.range' i remaining).filterMap (layout t)) := by
  induction remaining generalizing i with
  | zero => rfl
  | succ remaining ih =>
    rw [writeLoop, hs.read_flag (by omega), List.range'_succ, ih (by omega)]
    cases he : layout t i with
    | none => simp [he, empty]
    | some e => simp [he, full, read_key he, read_value he, writeEntries]

theorem writeFileDirect_eq {ts : Tables F} {depth a : Nat} {t : Table Key (Value F)} (ht : ts[a]? = some t)
    (hs : Shape t) :
    writeFileDirect formatFloat ts (depth + 1) a nesting =
      writeEntries formatFloat (fun b => writeFileDirect formatFloat ts depth b ((nesting + 1) % 256)) nesting
        (entries t) := by
  rw [writeFileDirect, read_eq_ok.2 ht, ok_bind]
  dsimp only
  rw [writeLoop_eq hs (Nat.zero_add _), entries, List.range_eq_range']

theorem writeEntries_ok {es : List (Key × Value F)} (h : ∀ e ∈ es, ∃ text, writeValue formatFloat nested e.2 = .ok text) :
    ∃ text, writeEntries formatFloat nested nesting es = .ok text := by
  induction es with
  | nil => exact ⟨_, rfl⟩
  | cons e es ih =>
    obtain ⟨text, htext⟩ := h e List.mem_cons_self
    obtain ⟨rest, hrest⟩ := ih fun e' he' => h e' (List.mem_cons_of_mem e he')
    exact ⟨_, by rw [writeEntries, htext, ok_bind, hrest]; rfl⟩

/-- The text of a nested table stands at the start of a line. -/
theorem writeEntries_nested {es : List (Key × Value F)} {text : List Byte}
    (h : writeEntries formatFloat nested nesting es = .ok text) {key : Key} {b : Nat} (he : (key, .ikv b) ∈ es) :
    ∃ before sub after, nested b = .ok sub ∧ text = before ++ newline :: (sub ++ after) := by
  induction es generalizing text with
  | nil => cases he
  | cons e es ih =>
    obtain ⟨key', value⟩ := e
    obtain ⟨line, hline, h⟩ := bind_eq_ok.1 h
    obtain ⟨rest, hrest, h⟩ := bind_eq_ok.1 h
    cases h
    rcases List.mem_cons.1 he with heq | he
    · cases heq
      obtain ⟨sub, hsub, hline⟩ := bind_eq_ok.1 hline
      cases hline
      exact ⟨List.replicate (2 * nesting) space ++ cstring key, sub, rest, hsub, by simp⟩
    · obtain ⟨before, sub, after, hsub, rfl⟩ := ih hrest he
      exact ⟨List.replicate (2 * nesting) space ++ cstring key' ++ line ++ before, sub, after, hsub, by simp⟩

end

theorem writeValue_ok {ts : Tables F} {tree : Tree F} {depth : Nat} (hdepth : tree.depth ≤ depth) (nesting : Nat)
    {slots : List (Key × Value F)} (h : HoldsAll ts slots tree) : ∀ e ∈ slots, ∃ text,
      writeValue formatFloat (fun b => writeFileDirect formatFloat ts depth b nesting) e.2 = .ok text := by
  induction tree generalizing depth nesting slots with
  | nil =>
    obtain rfl : slots = [] := h
    intro e he
    cases he
  | leaf name x rest ih =>
    obtain ⟨key, slots, rfl, -, hrest⟩ := h
    intro e he
    rcases List.mem_cons.1 he with rfl | he
    · exact ⟨_, rfl⟩
    · exact ih hdepth nesting hrest e he
  | table name inner rest ihInner ihRest =>
    obtain ⟨key, b, slots, rfl, -, ⟨t, inners, ht, hs, hperm, hinner⟩, hrest⟩ := h
    rw [Tree.depth] at hdepth
    intro e he
    rcases List.mem_cons.1 he with rfl | he
    · -- a table, with one level less left
      obtain ⟨depth, rfl⟩ : ∃ d, depth = d + 1 := ⟨depth - 1, by omega⟩
      have hentries := ihInner (show inner.depth ≤ depth by omega) ((nesting + 1) % 256) hinner
      obtain ⟨text, htext⟩ : ∃ text, writeEntries formatFloat
          (fun b => writeFileDirect formatFloat ts depth b ((nesting + 1) % 256)) nesting (entries t) = .ok text :=
        writeEntries_ok fun e he => hentries e (hperm.mem_iff.1 he)
      refine ⟨newline :: text, ?_⟩
      rw [writeValue, writeFileDirect_eq ht hs, htext]
      rfl
    · exact ihRest (by omega) nesting hrest e he

/-- Writing a table that holds a tree comes to an end. -/
theorem writeFileDirect_ok {ts : Tables F} {tree : Tree F} {a : Nat} (h : Holds ts a tree) {depth : Nat}
    (hdepth : tree.depth ≤ depth) (nesting : Nat) :
    ∃ text, writeFileDirect formatFloat ts (depth + 1) a nesting = .ok text := by
  obtain ⟨t, slots, ht, hs, hperm, hslots⟩ := h
  rw [writeFileDirect_eq ht hs]
  exact writeEntries_ok fun e he => writeValue_ok hdepth _ hslots e (hperm.mem_iff.1 he)

/-! ## Nested tables with entries -/

theorem cstring_string {block name : List Byte} (h : IsString block name) (hname : IsName name) :
    cstring block = name := by
  obtain ⟨rest, rfl⟩ := h
  exact cstring_terminated (fun hnul => (hname.bytes 0 hnul).2.2 rfl) rest

/-- Two spaces and something that is not one. -/
def Indented (line : List Byte) : Prop :=
  ∃ c rest, line = space :: space :: c :: rest ∧ c ≠ space ∧ c ≠ newline ∧ c ≠ 0

theorem indented_of_table {ts : Tables F} {tree : Tree F} {a depth : Nat} (h : Holds ts a tree) (hwf : tree.WellFormed)
    (hne : tree ≠ .nil) {text : List Byte} (after : List Byte)
    (htext : writeFileDirect formatFloat ts depth a ((0 + 1) % 256) = .ok text) : Indented (text ++ after) := by
  obtain ⟨t, items, ht, hs, hitems, hperm⟩ := h.items
  cases depth with
  | zero => cases htext
  | succ depth =>
    rw [writeFileDirect_eq ht hs] at htext
    generalize entries t = es at hitems htext
    cases hitems with
    | nil =>
      have hnil := hperm.symm.eq_nil
      cases tree with
      | nil => exact absurd rfl hne
      | leaf name a rest => cases hnil
      | table name inner rest => cases hnil
    | @cons e item es items hitem _ =>
      obtain ⟨key, value⟩ := e
      obtain ⟨name, item⟩ := item
      obtain ⟨hname, -⟩ := hwf.item (hperm.mem_iff.1 List.mem_cons_self)
      obtain ⟨line, -, htext⟩ := bind_eq_ok.1 htext
      obtain ⟨rest, -, htext⟩ := bind_eq_ok.1 htext
      cases htext
      rw [cstring_string hitem.isString hname]
      obtain ⟨c, name', hcons⟩ := List.exists_cons_of_ne_nil hname.ne_nil
      subst hcons
      exact ⟨c, name' ++ line ++ rest ++ after, by simp [List.replicate], hname.bytes c List.mem_cons_self⟩

theorem indented_line {text : List Byte} (h : Indented text) :
    ∃ line ls, lines newline text = line :: ls ∧ Indented line := by
  obtain ⟨c, rest, rfl, hc⟩ := h
  obtain ⟨l, ls, hlines⟩ := lines_cons_of_ne hc.2.1 rest
  refine ⟨space :: space :: c :: l, ls, ?_, c, l, rfl, hc⟩
  rw [lines, if_neg (by decide), lines, if_neg (by decide), hlines]

/-- The text of a tree with a table in a table has an indented line. -/
theorem exists_indented {ts : Tables F} {tree : Tree F} {a depth : Nat} (h : Holds ts a tree) (hwf : tree.WellFormed)
    {text : List Byte} (htext : writeFileDirect formatFloat ts depth a 0 = .ok text) (hflat : ¬ tree.Flat) :
    ∃ line ∈ lines newline text, Indented line := by
  obtain ⟨name, inner, hitem, hne⟩ : ∃ name inner, (name, Item.table inner) ∈ tree.items ∧ inner ≠ .nil := by
    rw [Tree.flat_iff] at hflat
    push Not at hflat
    exact hflat
  have hinner : inner.WellFormed := (hwf.item hitem).2
  obtain ⟨t, -, ht, hs, -⟩ := h.items
  obtain ⟨depth, rfl⟩ : ∃ d, depth = d + 1 := by
    cases depth with
    | zero => cases htext
    | succ d => exact ⟨d, rfl⟩
  rw [writeFileDirect_eq ht hs] at htext
  obtain ⟨e, he, hholds⟩ := h.slot ht hitem
  cases hholds with
  | @table key _ b _ hkey hb =>
    obtain ⟨before, sub, after, hsub, rfl⟩ := writeEntries_nested htext he
    obtain ⟨line, ls, hlines, hline⟩ := indented_line (indented_of_table hb hinner hne after hsub)
    rw [lines_append, hlines]
    exact ⟨line, List.mem_append_right _ List.mem_cons_self, hline⟩

end SphSc.Ikv

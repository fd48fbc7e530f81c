import SphSc.Ikv.Reading
/-!
# Reading what was written

`round_trip_iff`: a tree is read back from the text of a table that holds it
exactly if its tables have no entries and the text of each of its arrays is
something `read_value` can be passed.
-/
open Exec Ring Lines

namespace SphSc.Ikv

open Hashtable

variable {F : Type}

/-! ## The text of a flat tree -/

section
variable {formatFloat : F → List Byte}

/-- The line of an item whose table is empty, without its newline. -/
def Item.line (formatFloat : F → List Byte) : List Byte × Item F → List Byte
  | (name, .leaf a) => name ++ writeLeaf formatFloat a
  | (name, .table _) => name

theorem writeEntries_flat {ts : Tables F} {nested : Nat → Exec (List Byte)} {es : List (Key × Value F)}
    {items : List (List Byte × Item F)} (h : List.Forall₂ (HoldsItem ts) es items)
    (hnested : ∀ name inner b, (name, .table inner) ∈ items → Holds ts b .nil → nested b = .ok [])
    (hnames : ∀ item ∈ items, IsName item.1) (hflat : ∀ name inner, (name, .table inner) ∈ items → inner = .nil) :
    writeEntries formatFloat nested 0 es = .ok ((items.map (Item.line formatFloat)).flatMap fun l => l ++ [newline]) := by
  induction h with
  | nil => rfl
  | @cons e item es items hitem _ ih =>
    obtain ⟨key, value⟩ := e
    obtain ⟨name, item⟩ := item
    have hrest := ih (fun name' inner b hmem => hnested name' inner b (List.mem_cons_of_mem _ hmem))
      (fun item' hmem => hnames item' (List.mem_cons_of_mem _ hmem))
      fun name' inner hmem => hflat name' inner (List.mem_cons_of_mem _ hmem)
    have hkey := cstring_string hitem.isString (hnames _ List.mem_cons_self)
    dsimp only at hkey
    cases hitem with
    | @leaf _ _ a _ =>
      rw [writeEntries, hrest, writeValue, hkey]
      simp [Item.line]
    | @table _ _ b inner _ hb =>
      obtain rfl := hflat name inner List.mem_cons_self
      rw [writeEntries, hrest, writeValue, hnested name .nil b List.mem_cons_self hb, hkey]
      simp [Item.line]

theorem writeFileDirect_nil {ts : Tables F} {depth a nesting : Nat} (h : Holds ts a .nil) :
    writeFileDirect formatFloat ts (depth + 1) a nesting = .ok [] := by
  obtain ⟨t, items, ht, hs, hitems, hperm⟩ := h.items
  obtain rfl := hperm.eq_nil
  rw [writeFileDirect_eq ht hs, List.forall₂_nil_right_iff.1 hitems]
  rfl

variable (formatFloat) in
/-- The text of a flat tree: a line for each of its items, in some order. -/
theorem write_flat {ts : Tables F} {tree : Tree F} {depth a : Nat} (h : Holds ts a tree) (hwf : tree.WellFormed)
    (hdepth : tree.depth < depth) (hflat : tree.Flat) :
    ∃ items : List (List Byte × Item F), items.Perm tree.items ∧ writeFileDirect formatFloat ts depth a 0 =
      .ok ((items.map (Item.line formatFloat)).flatMap fun l => l ++ [newline]) := by
  obtain ⟨t, items, ht, hs, hitems, hperm⟩ := h.items
  obtain ⟨depth, rfl⟩ : ∃ d, depth = d + 1 := ⟨depth - 1, by omega⟩
  refine ⟨items, hperm, ?_⟩
  rw [writeFileDirect_eq ht hs]
  apply writeEntries_flat hitems
  · intro name inner b hmem hb
    have hpos := Tree.depth_pos (hperm.mem_iff.1 hmem)
    obtain ⟨depth, rfl⟩ : ∃ d, depth = d + 1 := ⟨depth - 1, by omega⟩
    exact writeFileDirect_nil hb
  · intro item hmem
    exact (hwf.item (hperm.mem_iff.1 hmem)).1
  · intro name inner hmem
    exact Tree.flat_iff.1 hflat name inner (hperm.mem_iff.1 hmem)

variable (formatFloat) in
theorem writeLeaf_cons {a : Leaf F} (h : 0 < a.length) : ∃ text, writeLeaf formatFloat a = space :: text := by
  cases a with
  | integers data =>
    cases data with
    | nil => cases h
    | cons n data => exact ⟨_, rfl⟩
  | floats data =>
    cases data with
    | nil => cases h
    | cons x data => exact ⟨_, rfl⟩
  | strings data =>
    cases data with
    | nil => cases h
    | cons s data => exact ⟨_, rfl⟩

end

/-! ## A line with a name -/

theorem copyKey_name (junk : Nat → Byte) (name rest : List Byte) :
    copyKey junk (name ++ rest) 0 name.length = .ok (name ++ [0]) := by
  have hcopy : memcpy ((List.range (name.length + 1)).map junk) (name ++ rest) name.length =
      .ok (name ++ [junk name.length]) := by
    rw [memcpy, if_pos (by simp), List.take_left, List.range_succ, List.map_append, List.drop_left' (by simp)]
    rfl
  rw [copyKey]
  simp only [Nat.mul_zero, Nat.sub_zero, List.drop_zero, hcopy, ok_bind]
  rw [write_of_lt _ (by simp)]
  simp

variable {r : Reader F} {s : State F}

/-- A line with a name at its start is an entry of the outermost table. -/
theorem readLine_name {name rest : List Byte} (hname : IsName name) (hrest : After rest) (hnul : 0 ∉ rest)
    (hkeys : s.nestedKeys.length = maxNesting) :
    readLine r s (name ++ rest ++ [newline]) =
      readEntry r { s with key := some (name ++ [0]), nestedKeys := s.nestedKeys.set 0 (some (name ++ [0])) }
        (name ++ rest) 0 name.length := by
  have hspace : space ∉ name := fun h => (hname.bytes _ h).1 rfl
  have hcstring : cstring (name ++ rest ++ [newline]) = name ++ rest ++ [newline] := by
    apply cstring_eq
    intro h
    rcases List.mem_append.1 h with h | h
    · rcases List.mem_append.1 h with h | h
      · exact (hname.bytes _ h).2.2 rfl
      · exact hnul h
    · exact absurd (List.mem_singleton.1 h) (by decide)
  have hstripped : stripped (name ++ rest ++ [newline]) = name ++ rest := by
    rw [stripped, List.getLast?_concat, if_pos rfl, List.dropLast_concat]
  have hlen : (name ++ rest ++ [newline]).length ≠ 0 := by simp
  obtain ⟨c, hc, hstrip⟩ := strip_eq hlen
  have hindent : indent (name ++ rest) = 0 ∧ body (name ++ rest) = name ++ rest := by
    obtain ⟨c, name', rfl⟩ := List.exists_cons_of_ne_nil hname.ne_nil
    have hc : c ≠ space := (hname.bytes c List.mem_cons_self).1
    simp [indent, body, hc]
  have hend : keyEnd (name ++ rest) = name.length := by
    rw [keyEnd, hindent.1, hindent.2, nameLength_append hspace hrest, Nat.zero_add]
  have hbody : body (name ++ rest) ≠ [] := by
    rw [hindent.2]
    exact List.append_ne_nil_of_left_ne_nil hname.ne_nil rest
  unfold readLine
  simp only [hcstring, if_neg hlen, hc, ok_bind, hstrip, hstripped, skipIndent_line, findKeyEnd_line, if_neg hbody, hend]
  rw [hindent.1, Nat.zero_div, Nat.zero_mod, copyKey_name, ok_bind, write_of_lt _ (by rw [hkeys]; decide), ok_bind]

/-! ## Room for one more -/

/-- `set` stores a new key while a slot is free. -/
theorem set_new {K V : Type} {d : Decl K V} {t : Table K V} (hs : Shape t) {key : K}
    (hstart : d.hash key t.size < t.size) (hroom : t.size ≤ t.values.length) (hfree : (entries t).length < t.size)
    (hnew : ∀ e ∈ entries t, d.equal e.1 key = false) (value : V) :
    ∃ t' i, Hashtable.set d t key value = .ok (t', some i) ∧ Shape t' ∧ t'.size = t.size ∧
      t'.values.length = t.values.length ∧ (entries t').Perm ((key, value) :: entries t) := by
  obtain ⟨t', p, hset, hends⟩ := set_ends hs hstart hroom value
  rcases hends with ⟨i, e, -, hlt, he, hk, -⟩ | ⟨i, rfl, hlt, he, hput⟩ | ⟨-, -, hfull⟩
  · rw [hnew e (mem_entries.2 ⟨i, hlt, he⟩)] at hk
    cases hk
  · refine ⟨t', i, hset, shape_put hs hput, ?_, ?_, entries_put hlt he hput⟩
    · obtain ⟨-, -, -, rfl⟩ := put_eq_ok hput
      rfl
    · obtain ⟨-, -, -, rfl⟩ := put_eq_ok hput
      exact List.length_set
  · obtain ⟨i, hlt, he⟩ := exists_free hfree
    have := hfull i hlt
    rw [he] at this
    cases this

/-! ## Reading a flat tree -/

/-- How a slot of the outermost table holds an item that was read. -/
inductive Placed (ts : Tables F) : Key × Value F → List Byte × Item F → Prop
  | leaf {name a} : Placed ts (name ++ [0], .leaf a) (name, .leaf a)
  | table {name b t} : ts[b + 1]? = some t → Shape t → layout t = (fun _ => none) →
      Placed ts (name ++ [0], .ikv (b + 1)) (name, .table .nil)

/-- The state after the items `done`, the latest first. -/
structure Built (s : State F) (done : List (List Byte × Item F)) : Prop where
  root : ∃ t slots, s.tables[0]? = some t ∧ Shape t ∧ t.size = 256 ∧ t.values.length = 256 ∧ (entries t).Perm slots ∧
    List.Forall₂ (Placed s.tables) slots done
  status : s.status.id = 0
  keys : s.nestedKeys.length = maxNesting
  ikvs : s.nestedIkvs.length = maxNesting
  ikv : s.nestedIkvs[0]? = some (some 0)

/-- What `readIndent` starts with. -/
theorem built_start {grants : Grants} {junk : Nat → Value F} {t : Table Key (Value F)} {rs : List Request}
    (hnew : new (decl (Value F)) grants junk 100 = (0, some t, rs)) :
    Built ⟨[t], ⟨0, ""⟩, none, List.replicate maxNesting none, some 0 :: List.replicate (maxNesting - 1) none⟩ [] := by
  obtain ⟨hs, hlayout, hsize, hvalues⟩ := fresh_table hnew
  exact ⟨⟨t, [], rfl, hs, hsize, hvalues, by rw [entries_nil hlayout], .nil⟩, rfl, rfl, rfl, rfl⟩

theorem Placed.mono {ts ts' : Tables F} {e : Key × Value F} {item : List Byte × Item F} (h : Placed ts e item)
    (hts : ∀ b t, ts[b + 1]? = some t → ts'[b + 1]? = some t) : Placed ts' e item := by
  cases h with
  | leaf => exact .leaf
  | table ht hs hlayout => exact .table (hts _ _ ht) hs hlayout

theorem Placed.key {ts : Tables F} {e : Key × Value F} {item : List Byte × Item F} (h : Placed ts e item) :
    e.1 = item.1 ++ [0] := by
  cases h with
  | leaf => rfl
  | table => rfl

theorem Placed.holds {ts : Tables F} {e : Key × Value F} {item : List Byte × Item F} (h : Placed ts e item) :
    HoldsItem ts e item := by
  cases h with
  | leaf => exact .leaf ⟨[], rfl⟩
  | table ht hs hlayout => exact .table ⟨[], rfl⟩ ⟨_, [], ht, hs, by rw [entries_nil hlayout], rfl⟩

/-- Names differ within the 128 bytes `ikv_equal` looks at. -/
theorem equal_name {name name' : List Byte} (hname : IsName name) (hname' : IsName name') (hne : name ≠ name') :
    equal (name ++ [0]) (name' ++ [0]) = false := by
  have hstring : ∀ {name}, IsName name → (cstring (name ++ [0])).take maxKeysize = name := by
    intro name hname
    rw [cstring_string ⟨[], rfl⟩ hname, List.take_of_length_le (Nat.le_of_lt hname.short)]
  rw [← Bool.not_eq_true, equal_iff, hstring hname, hstring hname']
  exact hne

/-- Storing a new name in the outermost table. `fresh` is the table that was made for it, if any. -/
theorem setNested_built (s₁ : State F) (fresh : Tables F) {done : List (List Byte × Item F)} (hb : Built s done)
    (hrange : ∀ k n, 0 < n → r.hash k n < n) (hcount : done.length < 100) {name : List Byte} (hname : IsName name)
    (hnames : ∀ item ∈ done, IsName item.1) (hnew : name ∉ done.map Prod.fst)
    (htables : s₁.tables = s.tables ++ fresh) (hstatus : s₁.status.id = 0) (hkeys : s₁.nestedKeys.length = maxNesting)
    (hikvs : s₁.nestedIkvs.length = maxNesting) (hikv : s₁.nestedIkvs[0]? = some (some 0)) {value : Value F}
    {item : Item F} (hplaced : ∀ ts' : Tables F, (∀ b t, s₁.tables[b + 1]? = some t → ts'[b + 1]? = some t) →
      Placed ts' (name ++ [0], value) (name, item)) :
    ∃ s', setNested r s₁ 0 (some (name ++ [0])) value = .ok s' ∧ Built s' ((name, item) :: done) := by
  obtain ⟨t, slots, ht, hs, hsize, hvalues, hperm, hslots⟩ := hb.root
  have hlt : 0 < s.tables.length := (List.getElem?_eq_some_iff.1 ht).1
  have ht₁ : s₁.tables[0]? = some t := by
    rw [htables, List.getElem?_append_left hlt]
    exact ht
  have hlt₁ : 0 < s₁.tables.length := (List.getElem?_eq_some_iff.1 ht₁).1
  -- at most 99 of 256 slots are taken, and no key is the new one
  have hfree : (entries t).length < t.size := by
    rw [hperm.length_eq, hslots.length_eq, hsize]
    omega
  have habs : ∀ e ∈ entries t, r.decl.equal e.1 (name ++ [0]) = false := by
    intro e he
    obtain ⟨item', hitem', hplaced'⟩ := forall₂_mem hslots.flip (hperm.mem_iff.1 he)
    have hne : item'.1 ≠ name := by
      rintro rfl
      exact hnew (List.mem_map_of_mem hitem')
    rw [Placed.key hplaced']
    exact equal_name (hnames item' hitem') hname hne
  obtain ⟨t', i, hset, hs', hsize', hvalues', hperm'⟩ :=
    set_new hs (hrange _ _ hs.size_pos) (by omega) hfree habs value
  have hframe : ∀ b u, s₁.tables[b + 1]? = some u → (s₁.tables.set 0 t')[b + 1]? = some u := by
    intro b u hu
    rw [List.getElem?_set_ne (by omega)]
    exact hu
  refine ⟨{ s₁ with tables := s₁.tables.set 0 t' }, ?_, ?_, hstatus, hkeys, hikvs, hikv⟩
  · rw [setNested, read_eq_ok.2 hikv, ok_bind]
    dsimp only
    rw [read_eq_ok.2 ht₁, ok_bind, hset, ok_bind]
    dsimp only
    rw [write_of_lt _ hlt₁]
    rfl
  · refine ⟨t', (name ++ [0], value) :: slots, ?_, hs', hsize'.trans hsize, hvalues'.trans hvalues, ?_, ?_⟩
    · rw [List.getElem?_set_self hlt₁]
    · exact hperm'.trans (hperm.cons _)
    · refine .cons (hplaced _ hframe) (hslots.imp fun e item h => h.mono fun b u hu => hframe b u ?_)
      rw [htables, List.getElem?_append_left (List.getElem?_eq_some_iff.1 hu).1]
      exact hu

/-- An item the reader gets back: an empty table, or an array that `read_value` is passed and reads back. -/
inductive Item.Back (formatFloat : F → List Byte) (r : Reader F) : Item F → Prop
  | leaf {a status} : 0 < a.length → Passable (writeLeaf formatFloat a) →
      r.readValue (writeLeaf formatFloat a) = .ok (status, .leaf a) → status.id = 0 → Back formatFloat r (.leaf a)
  | table : Back formatFloat r (.table .nil)

section
variable {formatFloat : F → List Byte} (hrange : ∀ k n, 0 < n → r.hash k n < n)
include hrange

theorem readLine_leaf {done : List (List Byte × Item F)} (hb : Built s done) (hcount : done.length < 100)
    (hnames : ∀ item ∈ done, IsName item.1) {name : List Byte} (hname : IsName name) (hnew : name ∉ done.map Prod.fst)
    {a : Leaf F} (hpos : 0 < a.length) (hpass : Passable (writeLeaf formatFloat a)) {status : Status}
    (hread : r.readValue (writeLeaf formatFloat a) = .ok (status, .leaf a)) (hid : status.id = 0) :
    ∃ s', readLine r s (name ++ writeLeaf formatFloat a ++ [newline]) = .ok s' ∧ Built s' ((name, .leaf a) :: done) := by
  have hkeys : (s.nestedKeys.set 0 (some (name ++ [0]))).length = maxNesting := by
    rw [List.length_set]
    exact hb.keys
  obtain ⟨text, htext⟩ := writeLeaf_cons formatFloat hpos
  have hne : text ≠ [] := by
    rintro rfl
    have hlength := hpass.length
    rw [htext, List.length_singleton] at hlength
    exact Nat.lt_irrefl _ hlength
  rw [readLine_name hname (.inr ⟨text, htext, hne⟩) hpass.nul hb.keys]
  have hend : name.length ≠ (name ++ writeLeaf formatFloat a).length := by
    rw [htext, List.length_append, List.length_cons]
    omega
  have hkey : read (s.nestedKeys.set 0 (some (name ++ [0]))) 0 = .ok (some (name ++ [0])) := by
    rw [read_eq_ok, List.getElem?_set_self (by rw [hb.keys]; decide)]
  let s₁ := { s with status, key := some (name ++ [0]), nestedKeys := s.nestedKeys.set 0 (some (name ++ [0])) }
  obtain ⟨s', hset, hb'⟩ := setNested_built s₁ [] hb hrange hcount hname hnames hnew (List.append_nil _).symm hid hkeys
    hb.ikvs hb.ikv (fun _ _ => .leaf : ∀ ts' : Tables F, _ → Placed ts' (name ++ [0], .leaf a) (name, .leaf a))
  refine ⟨s', ?_, hb'⟩
  rw [readEntry, if_neg hend, List.drop_left, hread, ok_bind]
  dsimp only
  rw [if_neg (not_not.2 hid), hkey, ok_bind]
  exact hset

/-- A line that ends after the name makes an empty table. -/
theorem readLine_table {done : List (List Byte × Item F)} (hb : Built s done) (hcount : done.length < 100)
    (hnames : ∀ item ∈ done, IsName item.1) {name : List Byte} (hname : IsName name) (hnew : name ∉ done.map Prod.fst) :
    ∃ s', readLine r s (name ++ [newline]) = .ok s' ∧ Built s' ((name, .table .nil) :: done) := by
  have hkeys : (s.nestedKeys.set 0 (some (name ++ [0]))).length = maxNesting := by
    rw [List.length_set]
    exact hb.keys
  have hline : name ++ [newline] = name ++ [] ++ [newline] := by rw [List.append_nil]
  rw [hline, readLine_name hname (.inl rfl) List.not_mem_nil hb.keys]
  -- the table is made and kept as that of level 1, then stored in the outermost one
  obtain ⟨t, rs, hnewTable, hs, hlayout⟩ := new_hundred r
  obtain ⟨b, hlen⟩ : ∃ b, s.tables.length = b + 1 := by
    obtain ⟨_, _, ht, -⟩ := hb.root
    exact ⟨_, (Nat.sub_add_cancel (List.getElem?_eq_some_iff.1 ht).1).symm⟩
  let s₁ : State F :=
    { tables := s.tables ++ [t], status := { s.status with id := 0 }, key := some (name ++ [0])
      nestedKeys := s.nestedKeys.set 0 (some (name ++ [0]))
      nestedIkvs := s.nestedIkvs.set 1 (some s.tables.length) }
  have hplaced : ∀ ts' : Tables F, (∀ b u, s₁.tables[b + 1]? = some u → ts'[b + 1]? = some u) →
      Placed ts' (name ++ [0], .ikv s.tables.length) (name, .table .nil) := by
    intro ts' hts
    rw [hlen]
    refine .table (hts b t ?_) hs hlayout
    rw [← hlen, List.getElem?_append_right (Nat.le_refl _), Nat.sub_self]
    rfl
  have hikvs : s₁.nestedIkvs.length = maxNesting := by
    rw [List.length_set]
    exact hb.ikvs
  have hikv : s₁.nestedIkvs[0]? = some (some 0) := by
    rw [List.getElem?_set_ne (by decide)]
    exact hb.ikv
  obtain ⟨s', hset, hb'⟩ := setNested_built s₁ [t] hb hrange hcount hname hnames hnew rfl rfl hkeys hikvs hikv hplaced
  refine ⟨s', ?_, hb'⟩
  rw [readEntry, if_pos (by rw [List.append_nil]), hnewTable]
  dsimp only
  rw [write_of_lt _ (by rw [hb.ikvs]; decide), ok_bind]
  exact hset

theorem readLine_built {done : List (List Byte × Item F)} (hb : Built s done) (hcount : done.length < 100)
    (hnames : ∀ item ∈ done, IsName item.1) {name : List Byte} (hname : IsName name) (hnew : name ∉ done.map Prod.fst)
    {item : Item F} (hitem : item.Back formatFloat r) :
    ∃ s', readLine r s (Item.line formatFloat (name, item) ++ [newline]) = .ok s' ∧ Built s' ((name, item) :: done) := by
  cases hitem with
  | leaf hpos hpass hread hid => exact readLine_leaf hrange hb hcount hnames hname hnew hpos hpass hread hid
  | table => exact readLine_table hrange hb hcount hnames hname hnew

theorem readLines_built {todo done : List (List Byte × Item F)} (hb : Built s done)
    (hcount : todo.length + done.length ≤ 100) (hnames : ∀ item ∈ todo ++ done, IsName item.1)
    (hnodup : ((todo ++ done).map Prod.fst).Nodup) (hback : ∀ item ∈ todo, item.2.Back formatFloat r) :
    ∃ s', readLines r s (todo.map fun item => Item.line formatFloat item ++ [newline]) = .ok s' ∧
      Built s' (todo.reverse ++ done) := by
  induction todo generalizing s done with
  | nil => exact ⟨s, rfl, hb⟩
  | cons item todo ih =>
    obtain ⟨name, item⟩ := item
    rw [List.length_cons] at hcount
    rw [List.cons_append, List.map_cons, List.nodup_cons] at hnodup
    have hnew : name ∉ done.map Prod.fst := by
      intro h
      exact hnodup.1 (by rw [List.map_append]; exact List.mem_append_right _ h)
    obtain ⟨s₁, hline, hb₁⟩ := readLine_built hrange hb (by omega)
      (fun item' hmem => hnames item' (List.mem_append_right _ hmem)) (hnames _ List.mem_cons_self) hnew
      (hback _ List.mem_cons_self)
    have hperm : (todo ++ (name, item) :: done).Perm ((name, item) :: (todo ++ done)) := List.perm_middle
    obtain ⟨s', hrest, hb'⟩ := ih hb₁ (by rw [List.length_cons]; omega)
      (fun item' hmem => hnames item' (by rw [List.cons_append]; exact hperm.mem_iff.1 hmem))
      ((hperm.map Prod.fst).nodup_iff.2 (List.nodup_cons.2 hnodup))
      fun item' hmem => hback item' (List.mem_cons_of_mem _ hmem)
    refine ⟨s', ?_, ?_⟩
    · rw [List.map_cons, readLines, hline, ok_bind, if_neg (not_not.2 hb₁.status)]
      exact hrest
    · rw [List.reverse_cons, List.append_assoc]
      exact hb'

end

/-! ## The round trip -/

/-- That `read_value` gives each array of the tree from the text that was written for it. -/
def ReadsBack (formatFloat : F → List Byte) (readValue : List Byte → Exec (Status × Value F)) (tree : Tree F) : Prop :=
  ∀ a ∈ tree.leaves, ∃ status, readValue (writeLeaf formatFloat a) = .ok (status, .leaf a) ∧ status.id = 0

/-- Reading the text into the table succeeds, all writes being inside their
blocks, and the table then holds the tree. -/
def RoundTrip (r : Reader F) (text : List Byte) (t : Table Key (Value F)) (tree : Tree F) : Prop :=
  ∃ status tables, readIndent r text t = .ok (status, tables) ∧ status.id = 0 ∧ Holds tables 0 tree

theorem RoundTrip.lines {text : List Byte} {t : Table Key (Value F)} {tree : Tree F} (h : RoundTrip r text t tree) :
    ∃ s s', s.tables = [t] ∧ readLines r s (lines newline text) = .ok s' ∧ s'.status.id = 0 ∧ Holds s'.tables 0 tree := by
  obtain ⟨status, tables, hread, hid, hholds⟩ := h
  obtain ⟨s', hlines, hread⟩ := bind_eq_ok.1 hread
  cases hread
  exact ⟨_, s', rfl, hlines, hid, hholds⟩

section
variable {formatFloat : F → List Byte} {tree : Tree F} {text : List Byte} {t : Table Key (Value F)}

/-- Where a table in a table has an entry, reading does not come to an end. -/
theorem not_roundTrip {ts : Tables F} {a depth : Nat} (hts : Holds ts a tree) (hwf : tree.WellFormed)
    (htext : writeFileDirect formatFloat ts depth a 0 = .ok text) (hflat : ¬ tree.Flat) : ¬ RoundTrip r text t tree := by
  intro h
  obtain ⟨line, hline, hindented⟩ := exists_indented hts hwf htext hflat
  obtain ⟨s, s', -, hlines, hid, -⟩ := h.lines
  obtain ⟨s₁, s₂, hread⟩ := readLines_ok hlines hid line hline
  rw [readLine_indented hindented] at hread
  cases hread

/-- An array that is read back was passed to `read_value`. -/
theorem RoundTrip.passed (h : RoundTrip r text t tree) (hempty : layout t = fun _ => none) {name : List Byte} {a : Leaf F}
    (ha : (name, .leaf a) ∈ tree.items) :
    ∃ text status, Passable text ∧ r.readValue text = .ok (status, .leaf a) ∧ status.id = 0 := by
  obtain ⟨s, s', htables, hlines, -, hholds⟩ := h.lines
  have hsourced : Sourced r s'.tables := by
    refine readLines_sourced (fun line hline => not_mem_dropLast hline) hlines ?_
    intro t' ht' i key x hx
    rw [htables] at ht'
    obtain rfl := List.mem_singleton.1 ht'
    rw [hempty] at hx
    cases hx
  obtain ⟨t', -, ht', -⟩ := hholds.items
  obtain ⟨e, he, hitem⟩ := hholds.slot ht' ha
  cases hitem with
  | leaf hkey =>
    obtain ⟨i, -, hi⟩ := mem_entries.1 he
    exact hsourced t' (List.mem_of_getElem? ht') i _ a hi

/-- A flat tree whose arrays `read_value` can be passed is read back. -/
theorem roundTrip {ts : Tables F} {a depth : Nat} (hts : Holds ts a tree) (hwf : tree.WellFormed)
    (htext : writeFileDirect formatFloat ts depth a 0 = .ok text) (hdepth : tree.depth < depth) (hflat : tree.Flat)
    (hpass : ∀ a ∈ tree.leaves, Passable (writeLeaf formatFloat a)) (hback : ReadsBack formatFloat r.readValue tree)
    (hrange : ∀ k n, 0 < n → r.hash k n < n) {grants : Grants} {junk : Nat → Value F} {rs : List Request}
    (hnew : new (decl (Value F)) grants junk 100 = (0, some t, rs)) : RoundTrip r text t tree := by
  obtain ⟨items, hperm, hwritten⟩ := write_flat formatFloat hts hwf hdepth hflat
  rw [hwritten] at htext
  cases htext
  have hnames : ∀ item ∈ items, IsName item.1 := by
    intro item hmem
    exact (hwf.item (hperm.mem_iff.1 hmem)).1
  have hbacks : ∀ item ∈ items, item.2.Back formatFloat r ∧ newline ∉ Item.line formatFloat item := by
    rintro ⟨name, item⟩ hmem
    have hname : newline ∉ name := fun h => ((hnames _ hmem).bytes _ h).2.1 rfl
    cases item with
    | leaf a =>
      have hmem := hperm.mem_iff.1 hmem
      have ha := Tree.mem_leaves hmem
      obtain ⟨status, hread, hid⟩ := hback a ha
      refine ⟨.leaf ((hwf.item hmem).2) (hpass a ha) hread hid, ?_⟩
      intro h
      rcases List.mem_append.1 h with h | h
      · exact hname h
      · exact (hpass a ha).newline h
    | table inner =>
      obtain rfl := Tree.flat_iff.1 hflat name inner (hperm.mem_iff.1 hmem)
      exact ⟨.table, hname⟩
  have hlines : lines newline ((items.map (Item.line formatFloat)).flatMap fun l => l ++ [newline]) =
      items.map fun item => Item.line formatFloat item ++ [newline] := by
    rw [lines_flatten, List.map_map]
    · rfl
    · intro l hl
      obtain ⟨item, hmem, rfl⟩ := List.mem_map.1 hl
      exact (hbacks item hmem).2
  obtain ⟨hnodup, hcount⟩ := hwf.nodup
  obtain ⟨s', hread, hbuilt⟩ := readLines_built hrange (built_start hnew) (by rw [hperm.length_eq]; exact hcount)
    (by rw [List.append_nil]; exact hnames) (by rw [List.append_nil]; exact (hperm.map Prod.fst).nodup_iff.2 hnodup)
    fun item hmem => (hbacks item hmem).1
  obtain ⟨t', slots, ht', hs', -, -, hperm', hslots⟩ := hbuilt.root
  obtain ⟨items', hitems', hperm''⟩ := List.perm_comp_forall₂ hperm' (hslots.imp fun _ _ h => h.holds)
  refine ⟨s'.status, s'.tables, ?_, hbuilt.status, holds_of_items ht' hs' hitems' ?_⟩
  · rw [readIndent, hlines, hread]
    rfl
  · rw [List.append_nil] at hperm''
    exact hperm''.trans ((List.reverse_perm items).trans hperm)

/-- The tree of any table is read back into a table for 100 keys, with every
`read_value` that reads back its arrays, exactly if no table in it has entries
and the text of each array is two bytes or more without newline or NUL. -/
theorem round_trip_iff (formatFloat : F → List Byte) (hwf : tree.WellFormed) {ts : Tables F} {a depth : Nat}
    (hts : Holds ts a tree) (hdepth : tree.depth < depth) {hash : List Byte → Nat → Nat}
    (hrange : ∀ k n, 0 < n → hash k n < n) (hread : ∃ readValue, ReadsBack formatFloat readValue tree)
    {grants : Grants} {junk : Nat → Value F} {rs : List Request}
    (hnew : new (decl (Value F)) grants junk 100 = (0, some t, rs)) (junkByte : Nat → Byte) (junkValue : Nat → Value F) :
    ∃ text, writeFileDirect formatFloat ts depth a 0 = .ok text ∧
      ((∀ readValue, ReadsBack formatFloat readValue tree → RoundTrip ⟨hash, readValue, junkByte, junkValue⟩ text t tree) ↔
        tree.Flat ∧ ∀ a ∈ tree.leaves, Passable (writeLeaf formatFloat a)) := by
  obtain ⟨text, htext⟩ : ∃ text, writeFileDirect formatFloat ts depth a 0 = .ok text := by
    obtain ⟨depth, rfl⟩ : ∃ d, depth = d + 1 := ⟨depth - 1, by omega⟩
    exact writeFileDirect_ok hts (by omega) 0
  refine ⟨text, htext, ?_, ?_⟩
  · intro hall
    obtain ⟨readValue, hback⟩ := hread
    have hflat : tree.Flat := by
      by_contra hflat
      exact not_roundTrip hts hwf htext hflat (hall readValue hback)
    refine ⟨hflat, ?_⟩
    intro a ha
    -- a `read_value` that fails on what is not the text of an array
    let strict : List Byte → Exec (Status × Value F) := fun text =>
      if text ∈ tree.leaves.map (writeLeaf formatFloat) then readValue text else .ok (⟨1, ""⟩, .ikv 0)
    have hstrict : ReadsBack formatFloat strict tree := by
      intro a ha
      obtain ⟨status, hread, hid⟩ := hback a ha
      exact ⟨status, (if_pos (List.mem_map_of_mem ha)).trans hread, hid⟩
    obtain ⟨name, hitem⟩ := hflat.leaf ha
    obtain ⟨text', status, hpass, hread, hid⟩ := (hall strict hstrict).passed (fresh_table hnew).2.1 hitem
    change strict text' = .ok (status, .leaf a) at hread
    by_cases hmem : text' ∈ tree.leaves.map (writeLeaf formatFloat)
    · obtain ⟨a', ha', rfl⟩ := List.mem_map.1 hmem
      obtain ⟨status', hread', -⟩ := hstrict a' ha'
      rw [hread'] at hread
      cases hread
      exact hpass
    · have hfail : strict text' = .ok (⟨1, ""⟩, .ikv 0) := if_neg hmem
      rw [hfail] at hread
      cases hread
  · rintro ⟨hflat, hpass⟩ readValue hback
    exact roundTrip hts hwf htext hdepth hflat hpass hback hrange hnew

end

/-! ## Tables -/

theorem isName_singleton {c : Byte} (h : c ≠ space ∧ c ≠ newline ∧ c ≠ 0) : IsName [c] := by
  refine ⟨List.cons_ne_nil c [], (by decide : 1 < maxKeysize), ?_⟩
  intro c' hc'
  obtain rfl := List.mem_singleton.1 hc'
  exact h

theorem shape_small {k size mask : Nat} {flags : List Byte} {keys : List Key} {values : List (Value F)}
    (hk : k ≤ 8) (hsize : size = 2 ^ k) (hmask : mask = size - 1) (hflags : flags.length = size)
    (hflag : ∀ f ∈ flags, f = empty ∨ f = full) (hkeys : keys.length = size) (hvalues : values.length = size) :
    Shape ⟨size, mask, flags, keys, values⟩ := by
  have hword : size ≤ word := hsize ▸ Nat.pow_le_pow_right Nat.two_pos (by omega : k ≤ 64)
  refine ⟨⟨k, hsize⟩, hword, hmask, hflags, hflag, hkeys, ?_⟩
  intro i hi
  have hlt := (List.getElem?_eq_some_iff.1 hi).1
  dsimp only at hlt ⊢
  omega

/-- Arrays of each kind, and an empty table. -/
def mixed : Tree Unit :=
  .leaf [97] (.integers [1, 9223372036854775807]) (.leaf [98] (.floats [()])
    (.leaf [99] (.strings [[120, 121], [122]]) (.table [100] .nil .nil)))

def mixedTables : Tables Unit :=
  [⟨4, 3, [1, 1, 1, 1], [[97, 0], [98, 0], [99, 0], [100, 0]],
      [.leaf (.integers [1, 9223372036854775807]), .leaf (.floats [()]), .leaf (.strings [[120, 121], [122]]), .ikv 1]⟩,
    ⟨2, 1, [0, 0], [[], []], [.ikv 0, .ikv 0]⟩]

/-- "0.500000" -/
def formatHalf (_ : Unit) : List Byte := [48, 46, 53, 48, 48, 48, 48, 48]

/-- Reads back the arrays of a tree. -/
def readLeaves (tree : Tree Unit) (text : List Byte) : Exec (Status × Value Unit) :=
  match tree.leaves.find? fun a => writeLeaf formatHalf a = text with
  | some a => .ok (⟨0, ""⟩, .leaf a)
  | none => .ok (⟨1, ""⟩, .ikv 0)

theorem mixed_wellFormed : mixed.WellFormed := by
  refine ⟨isName_singleton (by decide), by decide, by decide, by decide, ?_⟩
  refine ⟨isName_singleton (by decide), by decide, by decide, by decide, ?_⟩
  refine ⟨isName_singleton (by decide), by decide, by decide, by decide, ?_⟩
  exact ⟨isName_singleton (by decide), by decide, trivial, by decide, trivial⟩

theorem mixed_holds : Holds mixedTables 0 mixed := by
  have hempty : Holds mixedTables 1 .nil :=
    ⟨_, [], rfl, shape_small (k := 1) (by decide) rfl rfl rfl (by decide) rfl rfl, .refl _, rfl⟩
  refine ⟨_, _, rfl, shape_small (k := 2) (by decide) rfl rfl rfl (by decide) rfl rfl, .refl _, ?_⟩
  exact ⟨[97, 0], _, rfl, ⟨[], rfl⟩, [98, 0], _, rfl, ⟨[], rfl⟩, [99, 0], _, rfl, ⟨[], rfl⟩, [100, 0], 1, [], rfl,
    ⟨[], rfl⟩, hempty, rfl⟩

theorem mixed_reads : ReadsBack formatHalf (readLeaves mixed) mixed := by
  intro a ha
  have hleaves : a = .integers [1, 9223372036854775807] ∨ a = .floats [()] ∨ a = .strings [[120, 121], [122]] := by
    simpa [mixed, Tree.leaves] using ha
  rcases hleaves with rfl | rfl | rfl <;> exact ⟨⟨0, ""⟩, rfl, rfl⟩

theorem round_trip_mixed : ∃ t rs, new (decl (Value Unit)) (fun _ => true) (fun _ => .ikv 0) 100 = (0, some t, rs) ∧
    ∃ text, writeFileDirect formatHalf mixedTables 2 0 0 = .ok text ∧
      ∀ readValue, ReadsBack formatHalf readValue mixed →
        RoundTrip ⟨fun _ _ => 0, readValue, fun _ => 0, fun _ => .ikv 0⟩ text t mixed := by
  obtain ⟨t, rs, hnew⟩ := new_granted (decl (Value Unit)) (fun _ => .ikv 0) 100
  obtain ⟨text, htext, hiff⟩ := round_trip_iff formatHalf mixed_wellFormed mixed_holds (by decide : mixed.depth < 2)
    (fun _ _ hn => hn) ⟨readLeaves mixed, mixed_reads⟩ hnew (fun _ => 0) fun _ => .ikv 0
  refine ⟨t, rs, hnew, text, htext, hiff.2 ⟨?_, ?_⟩⟩
  · exact Tree.flat_iff.2 (by simp [mixed, Tree.items])
  · have hpass : ∀ a ∈ mixed.leaves, 2 ≤ (writeLeaf formatHalf a).length ∧ newline ∉ writeLeaf formatHalf a ∧
        0 ∉ writeLeaf formatHalf a := by
      decide +kernel
    intro a ha
    obtain ⟨hlength, hnewline, hnul⟩ := hpass a ha
    exact ⟨hlength, hnewline, hnul⟩

/-! ## A table in a table -/

/-- The integer 1 under "b". -/
def inner : Tree Empty := .leaf [98] (.integers [1]) .nil

/-- Under "a" a table with that. -/
def nest : Tree Empty := .table [97] inner .nil

def nestTables : Tables Empty :=
  [⟨2, 1, [1, 0], [[97, 0], []], [.ikv 1, .ikv 0]⟩, ⟨2, 1, [0, 1], [[], [98, 0]], [.ikv 0, .leaf (.integers [1])]⟩]

/-- The text "a\n  b 1\n". -/
def nestText : List Byte := [97, 10, 32, 32, 98, 32, 49, 10]

/-- Reads back the integer 1. -/
def readOne (text : List Byte) : Exec (Status × Value Empty) :=
  if text = [32, 49] then .ok (⟨0, ""⟩, .leaf (.integers [1])) else .ok (⟨1, ""⟩, .ikv 0)

theorem inner_wellFormed : inner.WellFormed :=
  ⟨isName_singleton (by decide), List.not_mem_nil, by decide, by decide, trivial⟩

theorem nest_wellFormed : nest.WellFormed :=
  ⟨isName_singleton (by decide), List.not_mem_nil, inner_wellFormed, by decide, trivial⟩

theorem inner_holds : Holds nestTables 1 inner :=
  ⟨_, [([98, 0], .leaf (.integers [1]))], rfl,
    shape_small (k := 1) (by decide) rfl rfl rfl (by decide) rfl rfl, .refl _, [98, 0], [], rfl, ⟨[], rfl⟩, rfl⟩

theorem nest_holds : Holds nestTables 0 nest :=
  ⟨_, [([97, 0], .ikv 1)], rfl, shape_small (k := 1) (by decide) rfl rfl rfl (by decide) rfl rfl, .refl _, [97, 0], 1, [],
    rfl, ⟨[], rfl⟩, inner_holds, rfl⟩

theorem inner_reads : ReadsBack Empty.elim readOne inner := by
  intro a ha
  obtain rfl := List.mem_singleton.1 ha
  exact ⟨⟨0, ""⟩, rfl, rfl⟩

/-- The key "b" has a block of two bytes, and its NUL is stored at index 3. -/
theorem nest_out_of_bounds : nest.WellFormed ∧ Holds nestTables 0 nest ∧ ReadsBack Empty.elim readOne nest ∧
    writeFileDirect Empty.elim nestTables 2 0 0 = .ok nestText ∧
    ∃ t rs, new (decl (Value Empty)) (fun _ => true) (fun _ => .ikv 0) 100 = (0, some t, rs) ∧
      readIndent ⟨fun _ _ => 0, readOne, fun _ => 0, fun _ => .ikv 0⟩ nestText t = .error .outOfBounds := by
  obtain ⟨t, rs, hnew⟩ := new_granted (decl (Value Empty)) (fun _ => .ikv 0) 100
  refine ⟨nest_wellFormed, nest_holds, inner_reads, rfl, t, rs, hnew, ?_⟩
  let r : Reader Empty := ⟨fun _ _ => 0, readOne, fun _ => 0, fun _ => .ikv 0⟩
  obtain ⟨s, hfirst, hbuilt⟩ := readLine_built (r := r) (fun _ _ hn => hn) (built_start hnew) (by decide)
    (fun _ h => by cases h) (isName_singleton (c := 97) (by decide)) List.not_mem_nil
    (.table : Item.Back Empty.elim r (.table .nil))
  have hsecond : readLine r s [32, 32, 98, 32, 49, 10] = .error .outOfBounds :=
    readLine_indented ⟨98, [32, 49, 10], rfl, by decide⟩
  have hlines : lines newline nestText = [[97, 10], [32, 32, 98, 32, 49, 10]] := rfl
  have hfirst : readLine r _ [97, 10] = .ok s := hfirst
  rw [readIndent, hlines, readLines, hfirst, ok_bind, if_neg (not_not.2 hbuilt.status), readLines, hsecond]
  rfl

end SphSc.Ikv

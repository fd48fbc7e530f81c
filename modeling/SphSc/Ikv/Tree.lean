import SphSc.Ikv.Model
/-!
# Trees of tables

A `Tree` is what a table holds: arrays and trees under names. `Holds` says that
a table holds one, in whatever order its slots have.
-/
open Exec

namespace SphSc.Ikv

open Hashtable

variable {F : Type}

/-! ## Entries -/

section
variable {K V : Type}

/-- What the slots of a table store, in order. -/
def entries (t : Table K V) : List (K × V) := (List.range t.size).filterMap (layout t)

theorem mem_entries {t : Table K V} {e : K × V} : e ∈ entries t ↔ ∃ i < t.size, layout t i = some e := by
  simp [entries]

theorem entries_nil {t : Table K V} (h : layout t = fun _ => none) : entries t = [] := by
  simp [entries, h]

/-- A slot is free while there are fewer entries than slots. -/
theorem exists_free {t : Table K V} (h : (entries t).length < t.size) : ∃ i < t.size, layout t i = none := by
  by_contra hfull
  push Not at hfull
  have hall : ∀ i ∈ List.range t.size, (layout t i).isSome = true := by
    intro i hi
    exact Option.isSome_iff_ne_none.2 (hfull i (List.mem_range.1 hi))
  rw [entries, List.length_filterMap_eq_countP, List.countP_eq_length.2 hall, List.length_range] at h
  exact Nat.lt_irrefl _ h

theorem filterMap_update {f : Nat → Option V} {n i : Nat} (hi : i < n) (hf : f i = none) (v : V) :
    ((List.range n).filterMap (Function.update f i (some v))).Perm (v :: (List.range n).filterMap f) := by
  have hperm := List.perm_cons_erase (List.mem_range.2 hi)
  have hsame : ((List.range n).erase i).filterMap (Function.update f i (some v)) =
      ((List.range n).erase i).filterMap f := by
    apply List.filterMap_congr
    intro j hj
    have hne : j ≠ i := (List.nodup_range.mem_erase_iff.1 hj).1
    rw [Function.update_of_ne hne]
  have hnew := hperm.filterMap (Function.update f i (some v))
  have hold := hperm.filterMap f
  rw [List.filterMap_cons, Function.update_self] at hnew
  rw [List.filterMap_cons, hf] at hold
  dsimp only at hnew hold
  rw [hsame] at hnew
  exact hnew.trans (hold.symm.cons v)

theorem entries_put {t t' : Table K V} {i : Nat} {key : K} {value : V} (hi : i < t.size) (hfree : layout t i = none)
    (h : put t i key value = .ok t') : (entries t').Perm ((key, value) :: entries t) := by
  have hsize : t'.size = t.size := by
    obtain ⟨-, -, -, rfl⟩ := put_eq_ok h
    rfl
  rw [entries, entries, hsize, layout_put h]
  exact filterMap_update hi hfree (key, value)

end

/-! ## Trees -/

/-- Entries, each under its name. -/
inductive Tree (F : Type) where
  | nil
  | leaf (name : List Byte) (a : Leaf F) (rest : Tree F)
  | table (name : List Byte) (inner rest : Tree F)

namespace Tree

/-- The names at the top level. -/
def names : Tree F → List (List Byte)
  | nil => []
  | leaf name _ rest => name :: rest.names
  | table name _ rest => name :: rest.names

/-- The arrays at all levels. -/
def leaves : Tree F → List (Leaf F)
  | nil => []
  | leaf _ a rest => a :: rest.leaves
  | table _ inner rest => inner.leaves ++ rest.leaves

/-- How deep tables are nested in it. -/
def depth : Tree F → Nat
  | nil => 0
  | leaf _ _ rest => rest.depth
  | table _ inner rest => max (inner.depth + 1) rest.depth

end Tree

/-- What names are made of. -/
structure IsName (name : List Byte) : Prop where
  ne_nil : name ≠ []
  short : name.length < maxKeysize
  bytes : ∀ c ∈ name, c ≠ space ∧ c ≠ newline ∧ c ≠ 0

def Leaf.length : Leaf F → Nat
  | .integers data => data.length
  | .floats data => data.length
  | .strings data => data.length

/-- At each level at most 100 entries under names of their own, and no array without elements. -/
def Tree.WellFormed : Tree F → Prop
  | .nil => True
  | .leaf name a rest => IsName name ∧ name ∉ rest.names ∧ 0 < a.length ∧ rest.names.length < 100 ∧ rest.WellFormed
  | .table name inner rest =>
    IsName name ∧ name ∉ rest.names ∧ inner.WellFormed ∧ rest.names.length < 100 ∧ rest.WellFormed

/-- A block that starts with a string and its NUL. -/
def IsString (block name : List Byte) : Prop := ∃ rest, block = name ++ 0 :: rest

/-- That `slots` are the entries of a tree, in its order. -/
def HoldsAll (ts : Tables F) : List (Key × Value F) → Tree F → Prop
  | slots, .nil => slots = []
  | slots, .leaf name a rest =>
    ∃ key slots', slots = (key, .leaf a) :: slots' ∧ IsString key name ∧ HoldsAll ts slots' rest
  | slots, .table name inner rest =>
    ∃ key h slots', slots = (key, .ikv h) :: slots' ∧ IsString key name ∧
      (∃ t slots, ts[h]? = some t ∧ Shape t ∧ (entries t).Perm slots ∧ HoldsAll ts slots inner) ∧
      HoldsAll ts slots' rest

/-- That table `h` holds a tree. Its keys are NUL-terminated strings. -/
def Holds (ts : Tables F) (h : Nat) (tree : Tree F) : Prop :=
  ∃ t slots, ts[h]? = some t ∧ Shape t ∧ (entries t).Perm slots ∧ HoldsAll ts slots tree

/-! ## Items -/

/-- What stands under a name. -/
inductive Item (F : Type) where
  | leaf (a : Leaf F)
  | table (inner : Tree F)

def Tree.items : Tree F → List (List Byte × Item F)
  | .nil => []
  | .leaf name a rest => (name, .leaf a) :: rest.items
  | .table name inner rest => (name, .table inner) :: rest.items

inductive HoldsItem (ts : Tables F) : Key × Value F → List Byte × Item F → Prop
  | leaf {key name a} : IsString key name → HoldsItem ts (key, .leaf a) (name, .leaf a)
  | table {key name h inner} : IsString key name → Holds ts h inner → HoldsItem ts (key, .ikv h) (name, .table inner)

theorem names_items (tree : Tree F) : tree.items.map Prod.fst = tree.names := by
  induction tree with
  | nil => rfl
  | leaf name a rest ih => exact congrArg (name :: ·) ih
  | table name inner rest _ ih => exact congrArg (name :: ·) ih

/-- An item of a well-formed tree. -/
def Item.WellFormed : Item F → Prop
  | .leaf a => 0 < a.length
  | .table inner => inner.WellFormed

namespace Tree

theorem WellFormed.item {tree : Tree F} (h : tree.WellFormed) {item : List Byte × Item F} (hitem : item ∈ tree.items) :
    IsName item.1 ∧ item.2.WellFormed := by
  induction tree with
  | nil => cases hitem
  | leaf name a rest ih =>
    rcases List.mem_cons.1 hitem with rfl | hmem
    · exact ⟨h.1, h.2.2.1⟩
    · exact ih h.2.2.2.2 hmem
  | table name inner rest _ ih =>
    rcases List.mem_cons.1 hitem with rfl | hmem
    · exact ⟨h.1, h.2.2.1⟩
    · exact ih h.2.2.2.2 hmem

theorem WellFormed.nodup {tree : Tree F} (h : tree.WellFormed) :
    (tree.items.map Prod.fst).Nodup ∧ tree.items.length ≤ 100 := by
  rw [← List.length_map Prod.fst, names_items]
  induction tree with
  | nil => exact ⟨List.nodup_nil, Nat.zero_le _⟩
  | leaf name a rest ih => exact ⟨List.nodup_cons.2 ⟨h.2.1, (ih h.2.2.2.2).1⟩, h.2.2.2.1⟩
  | table name inner rest _ ih => exact ⟨List.nodup_cons.2 ⟨h.2.1, (ih h.2.2.2.2).1⟩, h.2.2.2.1⟩

theorem mem_leaves {tree : Tree F} {name : List Byte} {a : Leaf F} (h : (name, .leaf a) ∈ tree.items) :
    a ∈ tree.leaves := by
  induction tree with
  | nil => cases h
  | leaf name' a' rest ih =>
    rcases List.mem_cons.1 h with heq | h
    · cases heq
      exact List.mem_cons_self
    · exact List.mem_cons_of_mem _ (ih h)
  | table name' inner rest _ ih =>
    rcases List.mem_cons.1 h with heq | h
    · cases heq
    · exact List.mem_append_right _ (ih h)

theorem depth_pos {tree : Tree F} {name : List Byte} {inner : Tree F} (h : (name, .table inner) ∈ tree.items) :
    0 < tree.depth := by
  induction tree with
  | nil => cases h
  | leaf name' a rest ih =>
    rcases List.mem_cons.1 h with heq | h
    · cases heq
    · exact ih h
  | table name' inner' rest _ _ => exact Nat.lt_of_lt_of_le (Nat.succ_pos _) (Nat.le_max_left _ _)

/-- A tree without entries in its tables. -/
def Flat : Tree F → Prop
  | .nil => True
  | .leaf _ _ rest => rest.Flat
  | .table _ inner rest => inner = .nil ∧ rest.Flat

theorem flat_iff {tree : Tree F} : tree.Flat ↔ ∀ name inner, (name, .table inner) ∈ tree.items → inner = .nil := by
  induction tree with
  | nil => simp [Flat, items]
  | leaf name a rest ih => simp [Flat, items, ih]
  | table name inner rest _ ih =>
    rw [Flat, ih]
    constructor
    · rintro ⟨rfl, hrest⟩ name' inner' hmem
      rcases List.mem_cons.1 hmem with heq | hmem
      · cases heq
        rfl
      · exact hrest name' inner' hmem
    · intro h
      exact ⟨h name inner List.mem_cons_self, fun name' inner' hmem => h name' inner' (List.mem_cons_of_mem _ hmem)⟩

theorem Flat.leaf {tree : Tree F} (hflat : tree.Flat) {a : Leaf F} (h : a ∈ tree.leaves) :
    ∃ name, (name, .leaf a) ∈ tree.items := by
  induction tree with
  | nil => cases h
  | leaf name a' rest ih =>
    rcases List.mem_cons.1 h with rfl | h
    · exact ⟨name, List.mem_cons_self⟩
    · obtain ⟨name', hmem⟩ := ih hflat h
      exact ⟨name', List.mem_cons_of_mem _ hmem⟩
  | table name inner rest _ ih =>
    obtain ⟨rfl, hflat⟩ := hflat
    obtain ⟨name', hmem⟩ := ih hflat h
    exact ⟨name', List.mem_cons_of_mem _ hmem⟩

end Tree

theorem holdsAll_iff {ts : Tables F} {slots : List (Key × Value F)} {tree : Tree F} :
    HoldsAll ts slots tree ↔ List.Forall₂ (HoldsItem ts) slots tree.items := by
  induction tree generalizing slots with
  | nil => exact List.forall₂_nil_right_iff.symm
  | leaf name a rest ih =>
    constructor
    · rintro ⟨key, slots', rfl, hkey, h⟩
      exact .cons (.leaf hkey) (ih.1 h)
    · intro h
      cases h with
      | cons hitem h =>
        cases hitem with
        | leaf hkey => exact ⟨_, _, rfl, hkey, ih.2 h⟩
  | table name inner rest _ ih =>
    constructor
    · rintro ⟨key, h, slots', rfl, hkey, hinner, hrest⟩
      exact .cons (.table hkey hinner) (ih.1 hrest)
    · intro h
      cases h with
      | cons hitem h =>
        cases hitem with
        | table hkey hinner => exact ⟨_, _, _, rfl, hkey, hinner, ih.2 h⟩

/-- The items of a tree, in the order of the slots of a table that holds it. -/
theorem Holds.items {ts : Tables F} {h : Nat} {tree : Tree F} (hh : Holds ts h tree) :
    ∃ t items, ts[h]? = some t ∧ Shape t ∧ List.Forall₂ (HoldsItem ts) (entries t) items ∧ items.Perm tree.items := by
  obtain ⟨t, slots, ht, hs, hperm, hall⟩ := hh
  obtain ⟨items, hitems, hperm'⟩ := List.perm_comp_forall₂ hperm (holdsAll_iff.1 hall)
  exact ⟨t, items, ht, hs, hitems, hperm'⟩

theorem forall₂_mem {α β : Type} {R : α → β → Prop} {xs : List α} {ys : List β} (h : List.Forall₂ R xs ys) {y : β}
    (hy : y ∈ ys) : ∃ x ∈ xs, R x y := by
  induction h with
  | nil => cases hy
  | cons hR _ ih =>
    rcases List.mem_cons.1 hy with rfl | hy
    · exact ⟨_, List.mem_cons_self, hR⟩
    · obtain ⟨x, hx, hR'⟩ := ih hy
      exact ⟨x, List.mem_cons_of_mem _ hx, hR'⟩

/-- Everything in the tree is in a slot. -/
theorem Holds.slot {ts : Tables F} {h : Nat} {tree : Tree F} (hh : Holds ts h tree) {t : Table Key (Value F)}
    (ht : ts[h]? = some t) {item : List Byte × Item F} (hitem : item ∈ tree.items) :
    ∃ e ∈ entries t, HoldsItem ts e item := by
  obtain ⟨t', items, ht', -, hall, hperm⟩ := hh.items
  rw [ht] at ht'
  cases ht'
  exact forall₂_mem hall (hperm.mem_iff.2 hitem)

theorem HoldsItem.isString {ts : Tables F} {e : Key × Value F} {item : List Byte × Item F} (h : HoldsItem ts e item) :
    IsString e.1 item.1 := by
  cases h with
  | leaf hkey => exact hkey
  | table hkey _ => exact hkey

theorem holds_of_items {ts : Tables F} {h : Nat} {tree : Tree F} {t : Table Key (Value F)}
    {items : List (List Byte × Item F)} (ht : ts[h]? = some t) (hs : Shape t)
    (hall : List.Forall₂ (HoldsItem ts) (entries t) items) (hperm : items.Perm tree.items) : Holds ts h tree := by
  obtain ⟨slots, hslots, hperm'⟩ := List.perm_comp_forall₂ hperm.symm hall.flip
  exact ⟨t, slots, ht, hs, hperm'.symm, holdsAll_iff.2 hslots.flip⟩

end SphSc.Ikv

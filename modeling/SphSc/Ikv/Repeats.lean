import SphSc.Ikv.Indent
/-!
# Keys that come twice

`ikv_set` keeps the value that a key has. A key without value whose table is
not taken still gets a level of the reader for it, and the lines below go to a
table that nothing points to. `keeps_iff`: nothing else is lost.
-/
open Exec Lines

namespace SphSc.Ikv.Indent

open Hashtable

variable {F : Type}

/-! ## Texts -/

/-- The key of a line. -/
def key (line : List Byte) : Key := (body line).take (nameLength (body line)) ++ [0]

/-- A line that is not blank, indented by two spaces for each level. -/
structure IsLine (line : List Byte) : Prop where
  body : body line ≠ []
  indent : indent line = 2 * level line
  level : level line < maxNesting - 1

/-- A key without value one level above a line, with nothing in between that is further out. -/
def Above (parent : List Byte) (between : List (List Byte)) (line : List Byte) : Prop :=
  ¬ Valued (content parent) ∧ level (content parent) + 1 = level (content line) ∧
    ∀ other ∈ between, level (content parent) ≤ level (content other)

/-- The last such key. -/
def IsParent (parent : List Byte) (between : List (List Byte)) (line : List Byte) : Prop :=
  Above parent between line ∧
    ∀ other ∈ between, ¬ Valued (content other) → level (content other) ≠ level (content parent)

/-- Lines each of which is below a key, but for the outermost. -/
structure WellIndented (lines : List (List Byte)) : Prop where
  line : ∀ line ∈ lines, IsLine (content line)
  above : ∀ before line after, lines = before ++ line :: after → 0 < level (content line) →
    ∃ outer parent between, before = outer ++ parent :: between ∧ Above parent between line

/-- The keys above a line at a level, where the lines before it are given backwards. -/
def ancestors : (level : Nat) → (before : List (List Byte)) → List Key
  | 0, _ => []
  | _ + 1, [] => []
  | n + 1, line :: before =>
    if level (content line) = n ∧ ¬ Valued (content line) then ancestors n before ++ [key (content line)]
    else ancestors (n + 1) before

/-! ## Tables -/

/-- What the reader of tables calls, where a key is copied as it stands on the line. -/
def exactCalls (r : Reader F) : Calls (Tables F) Key Nat (Value F) :=
  { tableCalls r with
    copyKey := fun ts line nesting i => .ok (some ((line.drop (2 * nesting)).take (i - 2 * nesting) ++ [0]), ts) }

section
variable (r : Reader F) (ts : Tables F)

/-- The value of a key in table `a`. -/
def find (a : Nat) (key : Key) : Option (Value F) := ts[a]?.bind fun t => lookup r.decl t key

/-- The table that keys lead to from table `a`. -/
def follow : (a : Nat) → List Key → Option Nat
  | a, [] => some a
  | a, key :: keys =>
    match find r ts a key with
    | some (.ikv b) => follow b keys
    | _ => none

end

/-- The tables in memory, with pointers to each other. -/
structure Stored (ts : Tables F) : Prop where
  shape : ∀ t ∈ ts, Shape t
  pointer : ∀ t ∈ ts, ∀ i key b, layout t i = some (key, .ikv b) → b < ts.length

/-- The table at the level of a line when it is read, after the lines `before`. -/
def TableOf (r : Reader F) (ts : Tables F) (a : Nat) (before : List (List Byte)) (line : List Byte)
    (s : State (Tables F) Key Nat) (b : Nat) : Prop :=
  readLines (exactCalls r) (start ts a) before = .ok s ∧ s.nestedIkvs[level (content line)]? = some (some b)

theorem TableOf.unique {r : Reader F} {ts : Tables F} {a : Nat} {before : List (List Byte)} {line : List Byte}
    {s s' : State (Tables F) Key Nat} {b b' : Nat} (h : TableOf r ts a before line s b)
    (h' : TableOf r ts a before line s' b') : s = s' ∧ b = b' := by
  obtain rfl := Except.ok.inj (h.1.symm.trans h'.1)
  exact ⟨rfl, Option.some.inj (Option.some.inj (h.2.symm.trans h'.2))⟩

/-- A line is not lost: its key is in its table, and the keys above it lead there. -/
def Kept (r : Reader F) (ts : Tables F) (a : Nat) (ts' : Tables F) (before : List (List Byte)) (line : List Byte) : Prop :=
  ∃ s b, TableOf r ts a before line s b ∧
    follow r ts' a (ancestors (level (content line)) before.reverse) = some b ∧
    (find r ts' b (key (content line))).isSome

/-- The key of a line is not in its table yet. -/
def IsNew (r : Reader F) (ts : Tables F) (a : Nat) (before : List (List Byte)) (line : List Byte) : Prop :=
  ∃ s b, TableOf r ts a before line s b ∧ find r s.memory b (key (content line)) = none

/-! ## A line -/

/-- What a line does: it sets a value in the table at its level. `fresh` is the
table that was made for it, if any. -/
structure Entered (r : Reader F) (s : State (Tables F) Key Nat) (line : List Byte) (s' : State (Tables F) Key Nat)
    (a : Nat) (t t' : Table Key (Value F)) (i : Nat) (value : Value F) (fresh : Tables F) : Prop where
  nested : s.nestedIkvs[level line]? = some (some a)
  table : (s.memory ++ fresh)[a]? = some t
  set : Hashtable.set r.decl t (key line) value = .ok (t', some i)
  memory : s'.memory = (s.memory ++ fresh).set a t'
  valued : Valued line → fresh = [] ∧ s'.nestedIkvs = s.nestedIkvs ∧
    ∃ text status, r.readValue text = .ok (status, value)
  valueless : ¬ Valued line → (∃ f, fresh = [f] ∧ Shape f ∧ layout f = fun _ => none) ∧
    value = .ikv s.memory.length ∧ level line + 1 < s.nestedIkvs.length ∧
    s'.nestedIkvs = s.nestedIkvs.set (level line + 1) (some s.memory.length)

variable {r : Reader F} {s s' : State (Tables F) Key Nat} {line : List Byte}

theorem bind_ok {α β : Type} {x : Except Fault α} {f : α → Except Fault β} {b : β} (h : (x >>= f) = .ok b) :
    ∃ a, x = .ok a ∧ f a = .ok b := by
  cases x with
  | error e => cases h
  | ok a => exact ⟨a, rfl, h⟩

theorem own_eq_ok {α : Type} {x : Exec α} {a : α} (h : own x = .ok a) : x = .ok a := by
  cases x with
  | error e => cases h
  | ok a' => cases h; rfl

theorem called_eq_ok {α : Type} {x : Exec α} {a : α} (h : called x = .ok a) : x = .ok a := by
  cases x with
  | error e => cases h
  | ok a' => cases h; rfl

theorem setNested_ok {n : Nat} {k : Option Key} {value : Value F}
    (h : setNested (exactCalls r) s n k value = .ok s') (hid : s'.status.id = 0) :
    ∃ a k' t t' i, s.nestedIkvs[n]? = some (some a) ∧ k = some k' ∧ s.memory[a]? = some t ∧
      Hashtable.set r.decl t k' value = .ok (t', some i) ∧ s'.memory = s.memory.set a t' ∧
      s'.nestedIkvs = s.nestedIkvs := by
  obtain ⟨a, ha, h⟩ := bind_ok h
  cases a with
  | none => cases h
  | some a =>
    cases k with
    | none => cases h
    | some k =>
      obtain ⟨⟨placed, memory⟩, hset, h⟩ := bind_ok h
      obtain ⟨t, ht, hset⟩ := bind_eq_ok.1 (called_eq_ok hset)
      obtain ⟨⟨t', p⟩, hput, hset⟩ := bind_eq_ok.1 hset
      obtain ⟨ts, hwrite, hset⟩ := bind_eq_ok.1 hset
      obtain ⟨-, rfl⟩ := write_eq_ok.1 hwrite
      cases hset
      cases h
      cases p with
      | none => cases hid
      | some i => exact ⟨a, k, t, t', i, read_eq_ok.1 (own_eq_ok ha), rfl, read_eq_ok.1 ht, hput, rfl, rfl⟩

theorem drop_indent (line : List Byte) : line.drop (indent line) = body line := by
  have hsplit : (line.takeWhile fun c => c = space) ++ body line = line := List.takeWhile_append_dropWhile
  rw [← congrArg (List.drop (indent line)) hsplit]
  exact List.drop_left

theorem readEntry_entered {i : Nat} (hkey : s.key = some (key line))
    (hkeys : s.nestedKeys[level line]? = some (some (key line))) (hend : i = line.length ↔ ¬ Valued line)
    (h : readEntry (exactCalls r) s line (level line) i = .ok s') (hid : s'.status.id = 0) :
    ∃ a t t' i value fresh, Entered r s line s' a t t' i value fresh := by
  unfold readEntry at h
  split at h
  · -- a table is made
    rename_i hi
    obtain ⟨f, rs, hnew, hshape, hlayout⟩ := new_hundred r
    have hcall : (exactCalls r).new s.memory = .ok (0, s.memory.length, s.memory ++ [f]) := by
      simp only [exactCalls, tableCalls, hnew]
      rfl
    have hmalloc : (exactCalls r).malloc s.memory = (true, s.memory) := rfl
    simp only [startNesting, hmalloc, hcall, Bool.not_true, Bool.false_eq_true, if_false, called_ok, ok_bind, ne_eq,
      not_true_eq_false] at h
    obtain ⟨nestedIkvs, hwrite, h⟩ := bind_ok h
    obtain ⟨hlt, rfl⟩ := write_eq_ok.1 (own_eq_ok hwrite)
    obtain ⟨a, k, t, t', i, ha, hk, ht, hset, hmemory, hikvs⟩ := setNested_ok h hid
    obtain rfl := Option.some.inj (hkey.symm.trans hk)
    rw [List.getElem?_set_ne (Nat.succ_ne_self _)] at ha
    exact ⟨a, t, t', i, _, [f], ha, ht, hset, hmemory, fun hvalued => absurd hvalued (hend.1 hi),
      fun _ => ⟨⟨f, rfl, hshape, hlayout⟩, rfl, hlt, hikvs⟩⟩
  · rename_i hi
    obtain ⟨⟨status, value, memory⟩, hread, h⟩ := bind_ok h
    obtain ⟨⟨status', value'⟩, hvalue, hread⟩ := bind_eq_ok.1 (called_eq_ok hread)
    cases hread
    dsimp only at h
    split at h
    · -- `read_value` failed
      rename_i hstatus
      cases h
      exact absurd hid hstatus
    · obtain ⟨k, hk, h⟩ := bind_ok h
      obtain rfl := Option.some.inj (hkeys.symm.trans (read_eq_ok.1 (own_eq_ok hk)))
      obtain ⟨a, k, t, t', i, ha, hk, ht, hset, hmemory, hikvs⟩ := setNested_ok h hid
      cases hk
      refine ⟨a, t, t', i, value, [], ha, ?_, hset, ?_, fun _ => ⟨rfl, hikvs, _, _, hvalue⟩,
        fun hvalueless => absurd (hend.2 hvalueless) hi⟩
      · rw [List.append_nil]
        exact ht
      · rw [List.append_nil]
        exact hmemory

/-- A line that is read puts its key into the table at its level. -/
theorem readLine_entered (h : IsLine (content line)) (hread : readLine (exactCalls r) s line = .ok s')
    (hid : s'.status.id = 0) : ∃ a t t' i value fresh, Entered r s (content line) s' a t t' i value fresh := by
  obtain ⟨hbody, heven, hlevel⟩ := h
  have hline : cstring line ≠ [] := by
    intro hnil
    rw [content, hnil] at hbody
    exact hbody rfl
  have hmax : maxNesting = 8 := rfl
  have hmod : level (content line) % 256 = level (content line) := by omega
  rw [readLine_key _ _ hline hbody, hmod] at hread
  generalize content line = line at *
  have hkey : (line.drop (2 * level line)).take (keyEnd line - 2 * level line) ++ [0] = key line := by
    rw [← heven, drop_indent, keyEnd, Nat.add_sub_cancel_left, key]
  have hcopy : (exactCalls r).copyKey s.memory line (level line) (keyEnd line) = .ok (some (key line), s.memory) :=
    congrArg (fun k => Except.ok (some k, s.memory)) hkey
  rw [readKeyed, hcopy, called_ok, ok_bind] at hread
  obtain ⟨nestedKeys, hwrite, hread⟩ := bind_ok hread
  obtain ⟨hlt, rfl⟩ := write_eq_ok.1 (own_eq_ok hwrite)
  obtain ⟨a, t, t', i, value, fresh, hentered⟩ :=
    readEntry_entered rfl (List.getElem?_set_self hlt) (keyEnd_eq_iff line) hread hid
  exact ⟨a, t, t', i, value, fresh, ⟨hentered.nested, hentered.table, hentered.set, hentered.memory, hentered.valued,
    hentered.valueless⟩⟩

/-! ## What lines keep -/

/-- The reader's pointers are to tables, of which `count` were there before. -/
structure Sound (count : Nat) (s : State (Tables F) Key Nat) : Prop extends Stored s.memory where
  nested : ∀ (n a : Nat), s.nestedIkvs[n]? = some (some a) → a < s.memory.length
  count : count ≤ s.memory.length

/-- What was found still is. -/
def Grows (r : Reader F) (ts ts' : Tables F) : Prop := ∀ a k v, find r ts a k = some v → find r ts' a k = some v

theorem find_of_table {ts : Tables F} {a : Nat} {t : Table Key (Value F)} (h : ts[a]? = some t) (k : Key) :
    find r ts a k = lookup r.decl t k := by
  rw [find, h]
  rfl

theorem table_of_find {ts : Tables F} {a : Nat} {k : Key} {v : Value F} (h : find r ts a k = some v) :
    ∃ t, ts[a]? = some t ∧ lookup r.decl t k = some v :=
  Option.bind_eq_some_iff.1 h

/-- What is in the tables after a line. -/
theorem Entered.mem {a i : Nat} {t t' u : Table Key (Value F)} {value : Value F} {fresh : Tables F}
    (h : Entered r s line s' a t t' i value fresh) (hu : u ∈ s'.memory) :
    u ∈ s.memory ∨ u = t' ∨ Shape u ∧ layout u = fun _ => none := by
  rw [h.memory] at hu
  rcases List.mem_or_eq_of_mem_set hu with hu | rfl
  · rcases List.mem_append.1 hu with hu | hu
    · exact .inl hu
    · by_cases hvalued : Valued line
      · rw [(h.valued hvalued).1] at hu
        cases hu
      · obtain ⟨f, hf, hshape⟩ := (h.valueless hvalued).1
        rw [hf] at hu
        obtain rfl := List.mem_singleton.1 hu
        exact .inr (.inr hshape)
  · exact .inr (.inl rfl)

section
variable (hrange : ∀ k n, 0 < n → r.hash k n < n) {count : Nat}
  (hvalues : ∀ text status b, r.readValue text = .ok (status, .ikv b) → b < count)
  {a i : Nat} {t t' : Table Key (Value F)} {value : Value F} {fresh : Tables F}
include hrange

theorem decl_range (k : Key) (n : Nat) (hn : 0 < n) : r.decl.hash k n < n := hrange (cstring k) n hn

namespace Entered

theorem found (h : Entered r s line s' a t t' i value fresh) (hs : Sound count s) :
    find r s'.memory a (key line) = some ((find r s.memory a (key line)).getD value) ∧ Grows r s.memory s'.memory := by
  have hlt := hs.nested _ _ h.nested
  have ht : s.memory[a]? = some t := by
    rw [← h.table, List.getElem?_append_left hlt]
  have hlt' : a < (s.memory ++ fresh).length := by
    rw [List.length_append]
    omega
  have ht' : s'.memory[a]? = some t' := by
    rw [h.memory, List.getElem?_set_self hlt']
  have hshape := hs.shape t (List.mem_of_getElem? ht)
  obtain ⟨hfound, hkept⟩ := lookup_set (decl_range hrange) hshape (equal_iff.2 rfl) h.set
  constructor
  · rw [find_of_table ht', find_of_table ht, hfound]
  · intro b k v hv
    obtain ⟨u, hu, hlookup⟩ := table_of_find hv
    by_cases hb : a = b
    · subst hb
      obtain rfl := Option.some.inj (ht.symm.trans hu)
      rw [find_of_table ht']
      exact hkept k v hlookup
    · have hu' : s'.memory[b]? = some u := by
        rw [h.memory, List.getElem?_set_ne hb, List.getElem?_append_left (List.getElem?_eq_some_iff.1 hu).1, hu]
      rw [find_of_table hu', hlookup]

include hvalues

theorem sound (h : Entered r s line s' a t t' i value fresh) (hs : Sound count s) : Sound count s' := by
  have hlt := hs.nested _ _ h.nested
  have ht : s.memory[a]? = some t := by
    rw [← h.table, List.getElem?_append_left hlt]
  have hmem := List.mem_of_getElem? ht
  have hlength : s'.memory.length = s.memory.length + fresh.length := by
    rw [h.memory, List.length_set, List.length_append]
  have hcount := hs.count
  refine ⟨⟨?_, ?_⟩, ?_, by omega⟩
  · intro u hu
    rcases h.mem hu with hu | rfl | ⟨hshape, -⟩
    · exact hs.shape u hu
    · exact (set_shape (decl_range hrange) (hs.shape t hmem) h.set).1
    · exact hshape
  · intro u hu j k b hb
    rcases h.mem hu with hu | rfl | ⟨-, hlayout⟩
    · have := hs.pointer u hu j k b hb
      omega
    · rcases set_layout h.set hb with hb | hb
      · have := hs.pointer t hmem j k b hb
        omega
      · obtain rfl : Value.ikv b = value := congrArg Prod.snd hb
        by_cases hvalued : Valued line
        · obtain ⟨-, -, text, status, hread⟩ := h.valued hvalued
          have := hvalues text status b hread
          omega
        · obtain ⟨⟨f, rfl, -⟩, hvalue, -⟩ := h.valueless hvalued
          cases hvalue
          rw [hlength]
          exact Nat.lt_succ_self _
    · rw [hlayout] at hb
      cases hb
  · intro n b hb
    by_cases hvalued : Valued line
    · rw [(h.valued hvalued).2.1] at hb
      have := hs.nested n b hb
      omega
    · obtain ⟨⟨f, rfl, -⟩, -, -, hnested⟩ := h.valueless hvalued
      rw [hnested] at hb
      rcases getElem?_set_cases hb with hb | hb
      · cases hb
        rw [hlength]
        exact Nat.lt_succ_self _
      · have := hs.nested n b hb
        omega

end Entered

end

/-! ## Runs -/

theorem Grows.trans {ts₁ ts₂ ts₃ : Tables F} (h : Grows r ts₁ ts₂) (h' : Grows r ts₂ ts₃) : Grows r ts₁ ts₃ :=
  fun a k v hv => h' a k v (h a k v hv)

theorem readLines_cons {rest : List (List Byte)} (h : readLines (exactCalls r) s (line :: rest) = .ok s')
    (hid : s'.status.id = 0) : ∃ s₁, readLine (exactCalls r) s line = .ok s₁ ∧ s₁.status.id = 0 ∧
      readLines (exactCalls r) s₁ rest = .ok s' := by
  obtain ⟨s₁, hline, h⟩ := bind_ok h
  split at h
  · rename_i hne
    cases h
    exact absurd hid hne
  · rename_i hid₁
    exact ⟨s₁, hline, not_not.1 hid₁, h⟩

theorem readLines_append {before after : List (List Byte)}
    (h : readLines (exactCalls r) s (before ++ after) = .ok s') (hs : s.status.id = 0) (hid : s'.status.id = 0) :
    ∃ s₁, readLines (exactCalls r) s before = .ok s₁ ∧ s₁.status.id = 0 ∧
      readLines (exactCalls r) s₁ after = .ok s' := by
  induction before generalizing s with
  | nil => exact ⟨s, rfl, hs, h⟩
  | cons line rest ih =>
    obtain ⟨s₁, hline, hid₁, h⟩ := readLines_cons h hid
    obtain ⟨s₂, hrest, hid₂, hafter⟩ := ih h hid₁
    refine ⟨s₂, ?_, hid₂, hafter⟩
    rw [readLines, hline, ok_bind, if_neg (not_not.2 hid₁), hrest]

section
variable (hrange : ∀ k n, 0 < n → r.hash k n < n) {count : Nat}
  (hvalues : ∀ text status b, r.readValue text = .ok (status, .ikv b) → b < count)
include hrange hvalues

/-- Lines only add to the tables, and a level changes only at a key without value above it. -/
theorem readLines_sound {lines : List (List Byte)} (hlines : ∀ line ∈ lines, IsLine (content line))
    (hs : Sound count s) (h : readLines (exactCalls r) s lines = .ok s') (hid : s'.status.id = 0) :
    Sound count s' ∧ Grows r s.memory s'.memory ∧ ∀ n : Nat,
      (∀ line ∈ lines, ¬ Valued (content line) → level (content line) + 1 ≠ n) →
        s'.nestedIkvs[n]? = s.nestedIkvs[n]? := by
  induction lines generalizing s with
  | nil =>
    cases h
    exact ⟨hs, fun _ _ _ hv => hv, fun _ _ => rfl⟩
  | cons line rest ih =>
    obtain ⟨s₁, hline, hid₁, h⟩ := readLines_cons h hid
    obtain ⟨a, t, t', i, value, fresh, hentered⟩ := readLine_entered (hlines line List.mem_cons_self) hline hid₁
    obtain ⟨hsound, hgrows, hnested⟩ :=
      ih (fun l hl => hlines l (List.mem_cons_of_mem _ hl)) (hentered.sound hrange hvalues hs) h
    refine ⟨hsound, (hentered.found hrange hs).2.trans hgrows, ?_⟩
    intro n hn
    rw [hnested n fun l hl => hn l (List.mem_cons_of_mem _ hl)]
    by_cases hvalued : Valued (content line)
    · rw [(hentered.valued hvalued).2.1]
    · obtain ⟨-, -, -, hset⟩ := hentered.valueless hvalued
      rw [hset, List.getElem?_set_ne (hn line List.mem_cons_self hvalued)]

end

theorem sound_start {ts : Tables F} {a : Nat} (hts : Stored ts) (ha : a < ts.length) :
    Sound ts.length (start ts a : State (Tables F) Key Nat) := by
  refine ⟨hts, ?_, Nat.le_refl _⟩
  intro n b hb
  cases n with
  | zero =>
    cases hb
    exact ha
  | succ n => simp [start, List.getElem?_replicate] at hb

/-! ## The keys above a line -/

theorem exists_isParent {before : List (List Byte)} (h : ∃ outer parent between, before = outer ++ parent :: between ∧
    Above parent between line) : ∃ outer parent between, before = outer ++ parent :: between ∧
      IsParent parent between line := by
  obtain ⟨outer, parent, between, hbefore, habove⟩ := h
  induction hn : between.length using Nat.strong_induction_on generalizing outer parent between with
  | _ n ih =>
    by_cases hlast : ∀ other ∈ between, ¬ Valued (content other) → level (content other) ≠ level (content parent)
    · exact ⟨outer, parent, between, hbefore, habove, hlast⟩
    · -- another key at that level is nearer
      push Not at hlast
      obtain ⟨other, hmem, hvalued, hlevel⟩ := hlast
      obtain ⟨front, back, rfl⟩ := List.append_of_mem hmem
      refine ih back.length ?_ (outer ++ parent :: front) other back ?_ ⟨hvalued, ?_, ?_⟩ rfl
      · rw [← hn, List.length_append, List.length_cons]
        omega
      · rw [hbefore, List.append_assoc, List.cons_append]
      · rw [hlevel]
        exact habove.2.1
      · intro l hl
        rw [hlevel]
        exact habove.2.2 l (List.mem_append_right _ (List.mem_cons_of_mem _ hl))

theorem ancestors_skip {n : Nat} {between : List (List Byte)} (before : List (List Byte))
    (h : ∀ other ∈ between, ¬ (level (content other) = n ∧ ¬ Valued (content other))) :
    ancestors (n + 1) (between ++ before) = ancestors (n + 1) before := by
  induction between with
  | nil => rfl
  | cons line rest ih =>
    rw [List.cons_append, ancestors, if_neg (h line List.mem_cons_self)]
    exact ih fun l hl => h l (List.mem_cons_of_mem _ hl)

theorem ancestors_parent {outer between : List (List Byte)} {parent : List Byte} (h : IsParent parent between line) :
    ancestors (level (content line)) (outer ++ parent :: between).reverse =
      ancestors (level (content parent)) outer.reverse ++ [key (content parent)] := by
  obtain ⟨⟨hvalued, hlevel, -⟩, hlast⟩ := h
  have hskip : ∀ other ∈ between.reverse,
      ¬ (level (content other) = level (content parent) ∧ ¬ Valued (content other)) := by
    rintro other hother ⟨heq, hother'⟩
    exact hlast other (List.mem_reverse.1 hother) hother' heq
  rw [← hlevel, List.reverse_append, List.reverse_cons, List.append_assoc, ancestors_skip _ hskip,
    List.singleton_append, ancestors, if_pos ⟨rfl, hvalued⟩]

theorem follow_append {ts : Tables F} {a b : Nat} {keys : List Key} {k : Key} :
    follow r ts a (keys ++ [k]) = some b ↔ ∃ c, follow r ts a keys = some c ∧ find r ts c k = some (.ikv b) := by
  induction keys generalizing a with
  | nil =>
    simp only [List.nil_append, follow, Option.some.injEq, exists_eq_left']
    cases find r ts a k with
    | none => simp
    | some v => cases v <;> simp
  | cons k' keys ih =>
    simp only [List.cons_append, follow]
    cases find r ts a k' with
    | none => simp
    | some v =>
      cases v with
      | leaf => simp
      | ikv c => exact ih

/-! ## What is lost -/

section
variable (hrange : ∀ k n, 0 < n → r.hash k n < n) {ts : Tables F} {a : Nat} (hts : Stored ts) (ha : a < ts.length)
  (hvalues : ∀ text status b, r.readValue text = .ok (status, .ikv b) → b < ts.length)
  {lines : List (List Byte)} (hwell : WellIndented lines)
  (hrun : readLines (exactCalls r) (start ts a) lines = .ok s') (hid : s'.status.id = 0)
include hrange hts ha hvalues hwell hrun hid

/-- The states before and after a line. -/
theorem at_line {before after : List (List Byte)} (hlines : lines = before ++ line :: after) :
    ∃ s₁ s₂, readLines (exactCalls r) (start ts a) before = .ok s₁ ∧ s₁.status.id = 0 ∧ Sound ts.length s₁ ∧
      (∃ b t t' i value fresh, Entered r s₁ (content line) s₂ b t t' i value fresh) ∧
      readLines (exactCalls r) s₂ after = .ok s' ∧ Grows r s₂.memory s'.memory := by
  subst hlines
  obtain ⟨s₁, hbefore, hid₁, h⟩ := readLines_append hrun rfl hid
  obtain ⟨s₂, hline, hid₂, hafter⟩ := readLines_cons h hid
  have hs₁ := (readLines_sound hrange hvalues (fun l hl => hwell.line l (List.mem_append_left _ hl))
    (sound_start hts ha) hbefore hid₁).1
  obtain ⟨b, t, t', i, value, fresh, hentered⟩ := readLine_entered (hwell.line line (by simp)) hline hid₂
  have hgrows := (readLines_sound hrange hvalues (fun l hl => hwell.line l (by simp [hl]))
    (hentered.sound hrange hvalues hs₁) hafter hid).2.1
  exact ⟨s₁, s₂, hbefore, hid₁, hs₁, ⟨b, t, t', i, value, fresh, hentered⟩, hafter, hgrows⟩

/-- The table of an outermost line is the one that was passed in. -/
theorem table_of_outermost {before after : List (List Byte)} (hlines : lines = before ++ line :: after)
    (hlevel : level (content line) = 0) : ∃ s, TableOf r ts a before line s a := by
  obtain ⟨s₁, -, hbefore, hid₁, -⟩ := at_line hrange hts ha hvalues hwell hrun hid hlines
  refine ⟨s₁, hbefore, ?_⟩
  subst hlines
  obtain ⟨-, -, hnested⟩ := readLines_sound hrange hvalues (fun l hl => hwell.line l (List.mem_append_left _ hl))
    (sound_start hts ha) hbefore hid₁
  rw [hlevel, hnested 0 fun _ _ _ => Nat.succ_ne_zero _]
  rfl

/-- The table of a line below a key is the one that was made for that key. -/
theorem table_of_child {outer between after : List (List Byte)} {parent : List Byte}
    (hlines : lines = outer ++ parent :: (between ++ line :: after)) (hparent : IsParent parent between line)
    {s₁ : State (Tables F) Key Nat} (h₁ : readLines (exactCalls r) (start ts a) outer = .ok s₁) :
    ∃ s, TableOf r ts a (outer ++ parent :: between) line s s₁.memory.length := by
  have hlines' : lines = (outer ++ parent :: between) ++ line :: after := by
    rw [hlines, List.append_assoc, List.cons_append]
  obtain ⟨s₃, -, hbefore, hid₃, -⟩ := at_line hrange hts ha hvalues hwell hrun hid hlines'
  refine ⟨s₃, hbefore, ?_⟩
  obtain ⟨s₁', h₁', hid₁, h⟩ := readLines_append hbefore rfl hid₃
  obtain rfl := Except.ok.inj (h₁.symm.trans h₁')
  obtain ⟨s₂, hline, hid₂, hbetween⟩ := readLines_cons h hid₃
  have hs₁ := (readLines_sound hrange hvalues (fun l hl => hwell.line l (by rw [hlines]; simp [hl]))
    (sound_start hts ha) h₁ hid₁).1
  obtain ⟨b, t, t', i, value, fresh, hentered⟩ := readLine_entered (hwell.line parent (by rw [hlines]; simp)) hline hid₂
  obtain ⟨-, -, hlt, hset⟩ := hentered.valueless hparent.1.1
  obtain ⟨-, -, hnested⟩ := readLines_sound hrange hvalues (fun l hl => hwell.line l (by rw [hlines]; simp [hl]))
    (hentered.sound hrange hvalues hs₁) hbetween hid₃
  rw [← hparent.1.2.1, hnested _ fun other hother hvalued heq => hparent.2 other hother hvalued (Nat.succ.inj heq), hset,
    List.getElem?_set_self hlt]

/-- Lines below keys that are new are not lost. -/
theorem kept_of_new (hnew : ∀ outer parent between line after, lines = outer ++ parent :: (between ++ line :: after) →
    IsParent parent between line → IsNew r ts a outer parent) {before after : List (List Byte)}
    (hlines : lines = before ++ line :: after) : Kept r ts a s'.memory before line := by
  induction hn : before.length using Nat.strong_induction_on generalizing before line after with
  | _ n ih =>
    obtain ⟨s₁, s₂, hbefore, -, hs₁, ⟨b, t, t', i, value, fresh, hentered⟩, -, hgrows⟩ :=
      at_line hrange hts ha hvalues hwell hrun hid hlines
    have hkey : (find r s'.memory b (key (content line))).isSome := by
      rw [hgrows _ _ _ (hentered.found hrange hs₁).1]
      rfl
    refine ⟨s₁, b, ⟨hbefore, hentered.nested⟩, ?_, hkey⟩
    by_cases hlevel : level (content line) = 0
    · obtain ⟨s, htable⟩ := table_of_outermost hrange hts ha hvalues hwell hrun hid hlines hlevel
      obtain ⟨-, rfl⟩ := htable.unique ⟨hbefore, hentered.nested⟩
      rw [hlevel, ancestors, follow]
    · obtain ⟨outer, parent, between, rfl, hparent⟩ :=
        exists_isParent (hwell.above _ _ _ hlines (Nat.pos_of_ne_zero hlevel))
      have hlines' : lines = outer ++ parent :: (between ++ line :: after) := by
        rw [hlines, List.append_assoc, List.cons_append]
      -- the key above is not lost, and it was new
      obtain ⟨sp, bp, htable, hfollow, -⟩ := ih outer.length (by rw [← hn, List.length_append, List.length_cons]; omega)
        hlines' rfl
      obtain ⟨sp', bp', htable', hfind⟩ := hnew outer parent between line after hlines' hparent
      obtain ⟨rfl, rfl⟩ := htable.unique htable'
      obtain ⟨s₃, s₄, h₃, -, hs₃, ⟨c, u, u', j, value', fresh', hentered'⟩, -, hgrows'⟩ :=
        at_line hrange hts ha hvalues hwell hrun hid hlines'
      obtain ⟨rfl, rfl⟩ := htable.unique ⟨h₃, hentered'.nested⟩
      have hfound := (hentered'.found hrange hs₃).1
      rw [hfind, (hentered'.valueless hparent.1.1).2.1] at hfound
      obtain ⟨s₅, htable₅⟩ := table_of_child hrange hts ha hvalues hwell hrun hid hlines' hparent h₃
      obtain ⟨-, rfl⟩ := htable₅.unique ⟨hbefore, hentered.nested⟩
      rw [ancestors_parent hparent]
      exact follow_append.2 ⟨bp, hfollow, hgrows' _ _ _ hfound⟩

/-- A line below a key that was there already is lost. -/
theorem new_of_kept (hkept : ∀ before line after, lines = before ++ line :: after → Kept r ts a s'.memory before line)
    {outer between after : List (List Byte)} {parent : List Byte}
    (hlines : lines = outer ++ parent :: (between ++ line :: after)) (hparent : IsParent parent between line) :
    IsNew r ts a outer parent := by
  have hlines' : lines = (outer ++ parent :: between) ++ line :: after := by
    rw [hlines, List.append_assoc, List.cons_append]
  obtain ⟨sp, bp, htable, hfollow, -⟩ := hkept _ _ _ hlines
  obtain ⟨s₁, b, htable₁, hfollow₁, -⟩ := hkept _ _ _ hlines'
  refine ⟨sp, bp, htable, ?_⟩
  -- its pointer leads to the table that was made for it
  obtain ⟨s₅, htable₅⟩ := table_of_child hrange hts ha hvalues hwell hrun hid hlines hparent htable.1
  obtain ⟨-, rfl⟩ := htable₁.unique htable₅
  rw [ancestors_parent hparent] at hfollow₁
  obtain ⟨c, hfollow', hpointer⟩ := follow_append.1 hfollow₁
  obtain rfl := Option.some.inj (hfollow.symm.trans hfollow')
  obtain ⟨s₃, s₄, h₃, -, hs₃, ⟨c, u, u', j, value', fresh', hentered'⟩, -, hgrows'⟩ :=
    at_line hrange hts ha hvalues hwell hrun hid hlines
  obtain ⟨rfl, rfl⟩ := htable.unique ⟨h₃, hentered'.nested⟩
  cases hfind : find r sp.memory bp (key (content parent)) with
  | none => rfl
  | some v =>
    -- no table points to one that is not made yet
    have hlater := hgrows' _ _ _ ((hentered'.found hrange hs₃).2 _ _ _ hfind)
    obtain rfl := Option.some.inj (hlater.symm.trans hpointer)
    obtain ⟨t, ht, hlookup⟩ := table_of_find hfind
    have hmem := List.mem_of_getElem? ht
    obtain ⟨i, k, hlayout⟩ := lookup_layout (decl_range hrange) (hs₃.shape t hmem) hlookup
    exact absurd (hs₃.pointer t hmem i k _ hlayout) (Nat.lt_irrefl _)

end

/-- When a text was read, no line of it is lost exactly if each key with lines
below it was new in its table. -/
theorem keeps_iff (hrange : ∀ k n, 0 < n → r.hash k n < n) {ts : Tables F} {a : Nat} (hts : Stored ts)
    (ha : a < ts.length) (hvalues : ∀ text status b, r.readValue text = .ok (status, .ikv b) → b < ts.length)
    {text : List Byte} (hwell : WellIndented (lines newline text)) {status : Status} {ts' : Tables F}
    (hrun : readIndent (exactCalls r) ts a text = .ok (status, ts')) (hid : status.id = 0) :
    (∀ before line after, lines newline text = before ++ line :: after → Kept r ts a ts' before line) ↔
      ∀ outer parent between line after, lines newline text = outer ++ parent :: (between ++ line :: after) →
        IsParent parent between line → IsNew r ts a outer parent := by
  obtain ⟨s', hlines, h⟩ := bind_ok hrun
  cases h
  constructor
  · intro hkept outer parent between line after hsplit hparent
    exact new_of_kept hrange hts ha hvalues hwell hlines hid hkept hsplit hparent
  · intro hnew before line after hsplit
    exact kept_of_new hrange hts ha hvalues hwell hlines hid hnew hsplit

/-! ## Short texts -/

theorem wellIndented_nil : WellIndented [] := by
  constructor
  · intro line hline
    cases hline
  · intro before line after h
    simp at h

theorem WellIndented.concat {lines : List (List Byte)} (h : WellIndented lines) (hline : IsLine (content line))
    (habove : 0 < level (content line) →
      ∃ outer parent between, lines = outer ++ parent :: between ∧ Above parent between line) :
    WellIndented (lines ++ [line]) := by
  constructor
  · intro l hl
    rcases List.mem_append.1 hl with hl | hl
    · exact h.line l hl
    · obtain rfl := List.mem_singleton.1 hl
      exact hline
  · intro before l after hsplit hpos
    rcases List.eq_nil_or_concat after with rfl | ⟨after, last, rfl⟩
    · obtain ⟨rfl, hl⟩ := List.append_inj' hsplit rfl
      cases hl
      exact habove hpos
    · rw [List.concat_eq_append, ← List.cons_append, ← List.append_assoc] at hsplit
      exact h.above before l after (List.append_inj' hsplit rfl).1 hpos

/-- Every value is taken for an array of one number. -/
def oneReader : Reader Empty :=
  ⟨fun _ _ => 0, fun _ => .ok (⟨0, ""⟩, .leaf (.integers [1])), fun _ => 0, fun _ => .leaf (.integers [])⟩

/-- A table with two free slots. -/
def twoSlots : Table Key (Value Empty) := ⟨2, 1, [0, 0], [[], []], [.leaf (.integers []), .leaf (.integers [])]⟩

/-- "a" and "  b 1" -/
def nested : List (List Byte) := [[97, 10], [32, 32, 98, 32, 49, 10]]

/-- "a", "  b 1", "a" and "  c 2" -/
def repeated : List (List Byte) := nested ++ [[97, 10]] ++ [[32, 32, 99, 32, 50, 10]]

theorem twoSlots_stored : Stored [twoSlots] := by
  have hlayout : ∀ i, layout twoSlots i = none := by
    intro i
    rw [layout, if_neg]
    rcases i with _ | _ | i
    all_goals simp [twoSlots, full]
  constructor
  · intro t ht
    obtain rfl := List.mem_singleton.1 ht
    refine ⟨⟨1, rfl⟩, by decide, rfl, rfl, by decide, rfl, ?_⟩
    intro i hi
    exact (List.getElem?_eq_some_iff.1 hi).1
  · intro t ht i k b hb
    obtain rfl := List.mem_singleton.1 ht
    rw [hlayout] at hb
    cases hb

theorem nested_wellIndented : WellIndented nested := by
  change WellIndented ([] ++ [[97, 10]] ++ [[32, 32, 98, 32, 49, 10]])
  refine (wellIndented_nil.concat ⟨by decide, by decide, by decide⟩ fun h => ?_).concat
    ⟨by decide, by decide, by decide⟩ fun _ => ?_
  · exact absurd h (by decide)
  · exact ⟨[], [97, 10], [], rfl, by decide, by decide, fun _ h => by cases h⟩

theorem repeated_wellIndented : WellIndented repeated := by
  refine (nested_wellIndented.concat ⟨by decide, by decide, by decide⟩ fun h => ?_).concat
    ⟨by decide, by decide, by decide⟩ fun _ => ?_
  · exact absurd h (by decide)
  · exact ⟨nested, [97, 10], [], rfl, by decide, by decide, fun _ h => by cases h⟩

/-- A run that a test can be evaluated on. -/
theorem exists_run {x : Except Fault (Status × Tables F)} (p : Status → Tables F → Bool)
    (h : (match x with
      | .ok (status, ts) => p status ts
      | .error _ => false) = true) : ∃ status ts, x = .ok (status, ts) ∧ p status ts = true := by
  cases x with
  | error e => cases h
  | ok x => exact ⟨x.1, x.2, rfl, h⟩

theorem keeps_iff_nested : ∃ status ts', readIndent (exactCalls oneReader) [twoSlots] 0 nested.flatten = .ok (status, ts') ∧
    ((∀ before line after, lines newline nested.flatten = before ++ line :: after →
        Kept oneReader [twoSlots] 0 ts' before line) ↔
      ∀ outer parent between line after, lines newline nested.flatten = outer ++ parent :: (between ++ line :: after) →
        IsParent parent between line → IsNew oneReader [twoSlots] 0 outer parent) := by
  obtain ⟨status, ts', hrun, hid⟩ :=
    @exists_run Empty (readIndent (exactCalls oneReader) [twoSlots] 0 nested.flatten) (fun status _ => status.id = 0)
      (by decide +kernel)
  exact ⟨status, ts', hrun, keeps_iff (fun _ _ hn => hn) twoSlots_stored (by decide) (fun _ _ _ h => by cases h)
    (show WellIndented (lines newline nested.flatten) from nested_wellIndented) hrun (of_decide_eq_true hid)⟩

/-- The second "a" gets a table that nothing points to, and "c" is in it. -/
theorem repeated_lost : WellIndented (lines newline repeated.flatten) ∧
    ∃ status ts', readIndent (exactCalls oneReader) [twoSlots] 0 repeated.flatten = .ok (status, ts') ∧ status.id = 0 ∧
      ¬ ∀ before line after, lines newline repeated.flatten = before ++ line :: after →
        Kept oneReader [twoSlots] 0 ts' before line := by
  obtain ⟨status, ts', hrun, htest⟩ :=
    @exists_run Empty (readIndent (exactCalls oneReader) [twoSlots] 0 repeated.flatten)
      (fun status ts => status.id = 0 ∧ follow oneReader ts 0 [[97, 0]] = some 1 ∧ find oneReader ts 1 [99, 0] = none)
      (by decide +kernel)
  obtain ⟨hid, hfollow, hfind⟩ := of_decide_eq_true htest
  refine ⟨repeated_wellIndented, status, ts', hrun, hid, ?_⟩
  intro hkept
  obtain ⟨s, b, -, hb, hkey⟩ := hkept (nested ++ [[97, 10]]) [32, 32, 99, 32, 50, 10] [] rfl
  obtain rfl : 1 = b := Option.some.inj (hfollow.symm.trans hb)
  have hnone : (find oneReader ts' 1 [99, 0]).isSome := hkey
  rw [hfind] at hnone
  cases hnone

end SphSc.Ikv.Indent

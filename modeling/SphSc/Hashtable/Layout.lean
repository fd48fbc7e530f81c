import SphSc.Lib.ProbingLoops
import SphSc.Hashtable.Model
/-!
# The slots of a hashtable

`layout` reads a table as a ring of slots. On tables of the right `Shape`
every loop of the source is a scan or a shift of that ring, and every store is
an update of one slot.
-/
open Exec Ring Probing

namespace SphSc.Hashtable

variable {K V : Type}

/-! ## The slots of a table -/

/-- What slot `i` stores. -/
def layout (a : Table K V) (i : Nat) : Option (K × V) :=
  if a.flags[i]? = some full then a.keys[i]?.bind fun k => a.values[i]?.map fun v => (k, v) else none

/-- What no call changes, not even between the rounds of a shift. -/
structure Shape (a : Table K V) : Prop where
  size_pow : ∃ k, a.size = 2 ^ k
  size_le : a.size ≤ word
  mask : a.mask = a.size - 1
  flags : a.flags.length = a.size
  flag : ∀ f ∈ a.flags, f = empty ∨ f = full
  keys : a.keys.length = a.size
  values : ∀ i, a.flags[i]? = some full → i < a.values.length

theorem layout_eq_some {a : Table K V} {i : Nat} {e : K × V} : layout a i = some e ↔
    a.flags[i]? = some full ∧ a.keys[i]? = some e.1 ∧ a.values[i]? = some e.2 := by
  unfold layout
  split
  · simp [*, Option.bind_eq_some_iff, Prod.ext_iff]
  · simp [*]

namespace Shape

variable {a : Table K V}

theorem size_pos (hs : Shape a) : 0 < a.size := by
  obtain ⟨k, hk⟩ := hs.size_pow
  rw [hk]; exact Nat.two_pow_pos k

theorem next (hs : Shape a) {i : Nat} (hi : i < a.size) : wadd i 1 &&& a.mask = next a.size i := by
  obtain ⟨k, hk⟩ := hs.size_pow
  rw [hs.mask, wadd_one_mask hk hs.size_le hi]

theorem dist (hs : Shape a) {h i : Nat} (hh : h < a.size) (hi : i < a.size) :
    wsub i h &&& a.mask = dist a.size h i := by
  obtain ⟨k, hk⟩ := hs.size_pow
  rw [hs.mask, wsub_mask hk hs.size_le hh hi]

theorem layout_isSome (hs : Shape a) {i : Nat} : (layout a i).isSome ↔ a.flags[i]? = some full := by
  constructor
  · intro h
    obtain ⟨e, he⟩ := Option.isSome_iff_exists.1 h
    exact (layout_eq_some.1 he).1
  · intro h
    have hf := (List.getElem?_eq_some_iff.1 h).1
    have hk : i < a.keys.length := by rw [hs.keys, ← hs.flags]; exact hf
    have hv := hs.values i h
    rw [layout, if_pos h]
    simp [List.getElem?_eq_getElem hk, List.getElem?_eq_getElem hv]

theorem read_flag (hs : Shape a) {i : Nat} (hi : i < a.size) :
    read a.flags i = .ok (if (layout a i).isSome then full else empty) := by
  have hf : i < a.flags.length := by rw [hs.flags]; exact hi
  rw [read_of_lt hf]
  split
  · rename_i h
    have := hs.layout_isSome.1 h
    rw [List.getElem?_eq_getElem hf] at this
    simpa using this
  · rename_i h
    rcases hs.flag _ (List.getElem_mem hf) with h' | h'
    · rw [h']
    · exact absurd (hs.layout_isSome.2 (by rw [List.getElem?_eq_getElem hf, h'])) h

end Shape

/-! ## The functions, read off the layout -/

section
variable (d : Decl K V) {a : Table K V}

theorem read_key {i : Nat} {e : K × V} (he : layout a i = some e) : read a.keys i = .ok e.1 :=
  read_eq_ok.2 (layout_eq_some.1 he).2.1

theorem read_value {i : Nat} {e : K × V} (he : layout a i = some e) : read a.values i = .ok e.2 :=
  read_eq_ok.2 (layout_eq_some.1 he).2.2

theorem holdsKey_eq (hs : Shape a) (key : K) {i : Nat} (hi : i < a.size) :
    holdsKey d a key i = .ok ((layout a i).any fun e => d.equal e.1 key) := by
  unfold holdsKey
  rw [hs.read_flag hi]
  cases he : layout a i with
  | none => simp [empty, full]
  | some e => simp [read_key he]

theorem getLoop_eq (hs : Shape a) (key : K) (remaining : Nat) {i : Nat} (hi : i < a.size) :
    getLoop d a key remaining i =
      match scan a.size (fun e => d.equal e.1 key) (layout a) remaining i with
      | .hit j => .ok (some j)
      | _ => .ok none := by
  induction remaining generalizing i with
  | zero => rfl
  | succ remaining ih =>
    rw [getLoop, hs.read_flag hi, holdsKey_eq d hs key hi, scan]
    cases he : layout a i with
    | none => simp
    | some e =>
      cases hk : d.equal e.1 key with
      | true => simp [hk, empty, full]
      | false => simp [hk, empty, full, hs.next hi, ih (next_lt hi)]

theorem setLoop_eq (hs : Shape a) (key : K) (value : V) (remaining : Nat) {i : Nat} (hi : i < a.size) :
    setLoop d a key value remaining i =
      match scan a.size (fun e => d.equal e.1 key) (layout a) remaining i with
      | .hit j => .ok (a, some j)
      | .gap j => do
        let a ← put a j key value
        return (a, some j)
      | .round => .ok (a, none) := by
  induction remaining generalizing i with
  | zero => rfl
  | succ remaining ih =>
    rw [setLoop, hs.read_flag hi, holdsKey_eq d hs key hi, scan]
    cases he : layout a i with
    | none => simp [empty, full]
    | some e =>
      cases hk : d.equal e.1 key with
      | true => simp [hk]
      | false => simp [hk, hs.next hi, ih (next_lt hi)]

end

/-! ## Stores, seen on the layout -/

section
variable {a a' : Table K V} {i : Nat}

theorem put_eq_ok {key : K} {value : V} (h : put a i key value = .ok a') :
    i < a.flags.length ∧ i < a.keys.length ∧ i < a.values.length ∧
      a' = { a with flags := a.flags.set i full, keys := a.keys.set i key, values := a.values.set i value } := by
  unfold put at h
  obtain ⟨flags, h1, h⟩ := bind_eq_ok.1 h
  obtain ⟨keys, h2, h⟩ := bind_eq_ok.1 h
  obtain ⟨values, h3, h⟩ := bind_eq_ok.1 h
  obtain ⟨hf, rfl⟩ := write_eq_ok.1 h1
  obtain ⟨hk, rfl⟩ := write_eq_ok.1 h2
  obtain ⟨hv, rfl⟩ := write_eq_ok.1 h3
  cases h
  exact ⟨hf, hk, hv, rfl⟩

theorem shape_put {key : K} {value : V} (hs : Shape a) (h : put a i key value = .ok a') : Shape a' := by
  obtain ⟨hf, hk, hv, rfl⟩ := put_eq_ok h
  refine { hs with flags := by simpa using hs.flags, keys := by simpa using hs.keys, flag := ?_, values := ?_ }
  · intro f hf
    rcases List.mem_or_eq_of_mem_set hf with h | rfl
    · exact hs.flag f h
    · exact .inr rfl
  · intro j hj
    rw [List.length_set]
    by_cases hji : j = i
    · rw [hji]; exact hv
    · rw [List.getElem?_set_ne (Ne.symm hji)] at hj; exact hs.values j hj

theorem layout_put {key : K} {value : V} (h : put a i key value = .ok a') :
    layout a' = Function.update (layout a) i (some (key, value)) := by
  obtain ⟨hf, hk, hv, rfl⟩ := put_eq_ok h
  funext j
  by_cases hji : j = i
  · subst hji; simp [layout, hf, hk, hv]
  · rw [Function.update_of_ne hji]
    simp [layout, List.getElem?_set_ne (Ne.symm hji)]

/-- The stores succeed where each slot has room for a value. -/
theorem put_ok (hs : Shape a) (hi : i < a.size) (hroom : a.size ≤ a.values.length) (key : K) (value : V) :
    put a i key value = .ok { a with
      flags := a.flags.set i full, keys := a.keys.set i key, values := a.values.set i value } := by
  have hf : i < a.flags.length := hs.flags.symm ▸ hi
  have hk : i < a.keys.length := hs.keys.symm ▸ hi
  have hv : i < a.values.length := Nat.lt_of_lt_of_le hi hroom
  simp only [put, write_of_lt _ hf, write_of_lt _ hk, write_of_lt _ hv, ok_bind, pure_eq_ok]

/-- `set` ends at an entry with the key, at a free slot, or after all the slots. -/
theorem set_ends {d : Decl K V} (hs : Shape a) {key : K} (hstart : d.hash key a.size < a.size)
    (hroom : a.size ≤ a.values.length) (value : V) : ∃ a' p, set d a key value = .ok (a', p) ∧
      ((∃ i e, p = some i ∧ i < a.size ∧ layout a i = some e ∧ d.equal e.1 key = true ∧ a' = a) ∨
        (∃ i, p = some i ∧ i < a.size ∧ layout a i = none ∧ put a i key value = .ok a') ∨
        (p = none ∧ a' = a ∧ ∀ i < a.size, (layout a i).isSome)) := by
  have hends : (scan a.size (fun e => d.equal e.1 key) (layout a) a.size (d.hash key a.size)).Ends a.size _ _ :=
    scan_ends hstart
  rw [set, setLoop_eq d hs key value _ hstart]
  cases hscan : scan a.size (fun e => d.equal e.1 key) (layout a) a.size (d.hash key a.size) with
  | hit i =>
    rw [hscan] at hends
    obtain ⟨hlt, e, he, hk⟩ := hends
    exact ⟨a, some i, rfl, .inl ⟨i, e, rfl, hlt, he, hk, rfl⟩⟩
  | gap i =>
    rw [hscan] at hends
    obtain ⟨hlt, he⟩ := hends
    have hput := put_ok hs hlt hroom key value
    refine ⟨_, some i, ?_, .inr (.inl ⟨i, rfl, hlt, he, hput⟩)⟩
    simp only [hput, ok_bind, pure_eq_ok]
  | round =>
    rw [hscan] at hends
    exact ⟨a, none, rfl, .inr (.inr ⟨rfl, rfl, hends⟩)⟩

/-- `a` with the entry `e` copied into `hole`. -/
def move (a : Table K V) (hole : Nat) (e : K × V) : Table K V :=
  { a with keys := a.keys.set hole e.1, values := a.values.set hole e.2 }

/-- `a` with `hole` emptied. -/
def vacate (a : Table K V) (hole : Nat) : Table K V := { a with flags := a.flags.set hole empty }

theorem shape_move (hs : Shape a) (hole : Nat) (e : K × V) : Shape (move a hole e) :=
  { hs with
    keys := by simpa [move] using hs.keys
    values := fun j hj => by simpa [move] using hs.values j hj }

theorem layout_move (hs : Shape a) {hole : Nat} (hf : (layout a hole).isSome) (e : K × V) :
    layout (move a hole e) = Function.update (layout a) hole (some e) := by
  have hflag := hs.layout_isSome.1 hf
  have hk : hole < a.keys.length := by
    rw [hs.keys, ← hs.flags]; exact (List.getElem?_eq_some_iff.1 hflag).1
  funext j
  by_cases hj : j = hole
  · subst hj; simp [layout, move, hflag, hk, hs.values j hflag]
  · rw [Function.update_of_ne hj]
    simp [layout, move, List.getElem?_set_ne (Ne.symm hj)]

theorem shape_vacate (hs : Shape a) (hole : Nat) : Shape (vacate a hole) := by
  refine { hs with flags := by simpa [vacate] using hs.flags, flag := ?_, values := ?_ }
  · intro f hf
    rcases List.mem_or_eq_of_mem_set hf with h | rfl
    · exact hs.flag f h
    · exact .inl rfl
  · intro j hj
    refine hs.values j ?_
    by_cases hjh : hole = j
    · subst hjh
      simp only [vacate, List.getElem?_set_self'] at hj
      cases hc : a.flags[hole]? <;> simp [hc, empty, full] at hj
    · simpa [vacate, List.getElem?_set_ne hjh] using hj

theorem layout_vacate (hole : Nat) : layout (vacate a hole) = Function.update (layout a) hole none := by
  funext j
  by_cases hj : j = hole
  · subst hj
    rw [Function.update_self, layout, if_neg]
    simp only [vacate, List.getElem?_set_self']
    cases a.flags[j]? <;> simp [empty, full]
  · rw [Function.update_of_ne hj]
    simp [layout, vacate, List.getElem?_set_ne (Ne.symm hj)]

theorem clear_eq_ok (hs : Shape a) (h : clear a = .ok a') :
    a' = { a with flags := List.replicate a.size empty } := by
  unfold clear at h
  obtain ⟨flags, hf, h⟩ := bind_eq_ok.1 h
  obtain ⟨-, rfl⟩ := fill_eq_ok.1 hf
  cases h
  simp [← hs.flags]

theorem layout_cleared (a : Table K V) (n : Nat) : layout { a with flags := List.replicate n empty } = fun _ => none := by
  funext j
  rw [layout, if_neg]
  simp [List.getElem?_replicate, empty, full]

theorem shape_cleared (hs : Shape a) : Shape { a with flags := List.replicate a.size empty } :=
  { hs with
    flags := by simp
    flag := fun f hf => .inl (List.eq_of_mem_replicate hf)
    values := fun j hj => by simp [List.getElem?_replicate, empty, full] at hj }

end

theorem new_eq {d : Decl K V} {grants : Grants} {junk : Nat → V} {minimumSize : Nat} {t : Table K V}
    {rs : List Request} (h : new d grants junk minimumSize = (0, some t, rs)) :
    t.size = calculateSize d.sizeFactor minimumSize ∧ t.mask = wsub t.size 1 ∧ t.flags = List.replicate t.size 0 ∧
      t.keys.length = t.size := by
  simp only [new] at h
  split at h
  · cases h
  split at h
  · cases h
  split at h
  · cases h
  cases h
  exact ⟨rfl, rfl, rfl, List.length_replicate⟩

theorem new_granted (d : Decl K V) (junk : Nat → V) (minimumSize : Nat) :
    ∃ t rs, new d (fun _ => true) junk minimumSize = (0, some t, rs) := ⟨_, _, rfl⟩

theorem new_values {d : Decl K V} {grants : Grants} {junk : Nat → V} {minimumSize : Nat} {t : Table K V}
    {rs : List Request} (h : new d grants junk minimumSize = (0, some t, rs)) :
    t.values.length = wmul t.size d.sizeofValue / d.sizeofValue := by
  simp only [new] at h
  split at h
  · cases h
  split at h
  · cases h
  split at h
  · cases h
  cases h
  simp only [List.length_map, List.length_range]

theorem new_shape {d : Decl K V} {grants : Grants} {junk : Nat → V} {minimumSize : Nat} {t : Table K V}
    {rs : List Request} (h : new d grants junk minimumSize = (0, some t, rs)) (hp : ∃ k, t.size = 2 ^ k) :
    Shape t ∧ layout t = fun _ => none := by
  obtain ⟨hsize, hmask, hflags, hkeys⟩ := new_eq h
  have hlt : t.size < word := hsize ▸ calculateSize_lt d.sizeFactor minimumSize
  have hpos : 0 < t.size := by
    obtain ⟨k, hk⟩ := hp
    rw [hk]; exact Nat.two_pow_pos k
  refine ⟨⟨hp, Nat.le_of_lt hlt, hmask.trans (wsub_of_le hlt hpos), ?_, ?_, hkeys, ?_⟩, ?_⟩
  · rw [hflags, List.length_replicate]
  · intro f hf
    rw [hflags] at hf
    exact .inl (List.eq_of_mem_replicate hf)
  · intro i hi
    rw [hflags] at hi
    simp [List.getElem?_replicate, full] at hi
  · rw [← layout_cleared t t.size]
    rw [show List.replicate t.size empty = t.flags from hflags.symm]

/-! ## The rounds of `remove` -/

section
variable (d : Decl K V) {a : Table K V}

theorem findRound_seeks (hs : Shape a) (key : K) :
    SeekRound a.size (fun e => d.equal e.1 key) (layout a) (findRound d a key) := by
  intro i hi
  unfold findRound
  rw [hs.read_flag hi]
  cases he : layout a i with
  | none => simp [empty, full]
  | some e => cases hk : d.equal e.1 key <;> simp [read_key he, hk, hs.next hi]

theorem shiftRound_shifts (hhash : ∀ k n, 0 < n → d.hash k n < n) (n : Nat) :
    ShiftRound n (fun k => d.hash k n) Prod.fst (fun a : Table K V => Shape a ∧ a.size = n) layout (shiftRound d) := by
  rintro a index hole ⟨hs, rfl⟩ hi hh hf
  have hi' := next_lt hi
  have hflag := hs.layout_isSome.1 hf
  unfold shiftRound
  simp only [hs.next hi]
  rw [hs.read_flag hi']
  cases he : layout a (next a.size index) with
  | none =>
    have hw : hole < a.flags.length := by rw [hs.flags]; exact hh
    exact ⟨vacate a hole, by simp [empty, full, vacate, write_of_lt _ hw], ⟨shape_vacate hs hole, rfl⟩,
      layout_vacate hole⟩
  | some e =>
    have hhome := hhash e.1 a.size hs.size_pos
    have hk : hole < a.keys.length := by rw [hs.keys]; exact hh
    simp only [Option.isSome_some, if_true, ne_eq, not_true, if_false, ok_bind, read_key he, read_value he]
    rw [hs.dist hhome hh, hs.dist hhome hi', write_of_lt _ hk, write_of_lt _ (hs.values hole hflag)]
    split
    · exact ⟨move a hole e, rfl, ⟨shape_move hs hole e, rfl⟩, layout_move hs hf e⟩
    · rfl

end

/-! ## Calls keep the shape -/

section
variable {d : Decl K V} {a a' : Table K V} (hhash : ∀ k n, 0 < n → d.hash k n < n)
include hhash

theorem set_shape (hs : Shape a) {key : K} {value : V} {p : Option Nat} (h : set d a key value = .ok (a', p)) :
    Shape a' ∧ a'.size = a.size := by
  have hstart := hhash key a.size hs.size_pos
  rw [set, setLoop_eq d hs key value _ hstart] at h
  split at h
  · cases h
    exact ⟨hs, rfl⟩
  · obtain ⟨b, hput, h⟩ := bind_eq_ok.1 h
    cases h
    refine ⟨shape_put hs hput, ?_⟩
    obtain ⟨-, -, -, rfl⟩ := put_eq_ok hput
    rfl
  · cases h
    exact ⟨hs, rfl⟩

theorem remove_shape (hs : Shape a) {fuel : Nat} {key : K} {s : Byte} (h : remove d fuel a key = .ok (s, a')) :
    Shape a' ∧ a'.size = a.size := by
  obtain ⟨p, hp, h⟩ := bind_eq_ok.1 h
  cases p with
  | none =>
    cases h
    exact ⟨hs, rfl⟩
  | some j =>
    obtain ⟨hj, hfull⟩ := seek_ends (findRound_seeks d hs key) (hhash key a.size hs.size_pos) hp
    obtain ⟨b, hb, h⟩ := bind_eq_ok.1 h
    cases h
    exact shift_keeps (shiftRound_shifts d hhash a.size) ⟨hs, rfl⟩ hj hj hfull hb

theorem call_shape (hs : Shape a) {fuel : Nat} {c : Call K V} {r : Reply V} (h : call d fuel a c = .ok (a', r)) :
    Shape a' ∧ a'.size = a.size := by
  cases c with
  | get key =>
    obtain ⟨p, -, h⟩ := bind_eq_ok.1 h
    obtain ⟨v, -, h⟩ := bind_eq_ok.1 h
    cases h
    exact ⟨hs, rfl⟩
  | set key value =>
    obtain ⟨⟨b, p⟩, hset, h⟩ := bind_eq_ok.1 h
    obtain ⟨v, -, h⟩ := bind_eq_ok.1 h
    cases h
    exact set_shape hhash hs hset
  | remove key =>
    obtain ⟨⟨s, b⟩, hrem, h⟩ := bind_eq_ok.1 h
    cases h
    exact remove_shape hhash hs hrem
  | clear =>
    obtain ⟨b, hclear, h⟩ := bind_eq_ok.1 h
    cases h
    obtain rfl := clear_eq_ok hs hclear
    exact ⟨shape_cleared hs, rfl⟩

theorem run_shape {t : Table K V} {es : List (Call K V × Reply V)} (hs : Shape t) (h : Run d t es a) : Shape a := by
  induction h with
  | nil => exact hs
  | call fuel _ hcall ih => exact (call_shape hhash ih hcall).1

end

/-! ## What is found -/

section
variable (d : Decl K V)

/-- The value `get` points to. -/
def lookup (a : Table K V) (key : K) : Option V :=
  match get d a key with
  | .ok (some i) => a.values[i]?
  | _ => none

variable {d} {a a' : Table K V} (hhash : ∀ k n, 0 < n → d.hash k n < n)
include hhash

theorem lookup_eq (hs : Shape a) (key : K) : lookup d a key =
    match scan a.size (fun e => d.equal e.1 key) (layout a) a.size (d.hash key a.size) with
    | .hit i => (layout a i).map Prod.snd
    | _ => none := by
  have hstart := hhash key a.size hs.size_pos
  have hends : (scan a.size (fun e => d.equal e.1 key) (layout a) a.size (d.hash key a.size)).Ends a.size _ _ :=
    scan_ends hstart
  rw [lookup, get, getLoop_eq d hs key _ hstart]
  cases hscan : scan a.size (fun e => d.equal e.1 key) (layout a) a.size (d.hash key a.size) with
  | hit i =>
    rw [hscan] at hends
    obtain ⟨-, e, he, -⟩ := hends
    dsimp only
    rw [he, (layout_eq_some.1 he).2.2]
    rfl
  | gap i => rfl
  | round => rfl

theorem lookup_layout (hs : Shape a) {key : K} {value : V} (h : lookup d a key = some value) :
    ∃ i k, layout a i = some (k, value) := by
  rw [lookup_eq hhash hs] at h
  split at h
  · rename_i i _
    obtain ⟨⟨k, v⟩, he, rfl⟩ := Option.map_eq_some_iff.1 h
    exact ⟨i, k, he⟩
  · cases h

/-- A store to a free slot leaves what is found. -/
theorem lookup_put (hs : Shape a) {i : Nat} {key : K} {value : V} (hput : put a i key value = .ok a')
    (hfree : layout a i = none) {k : K} {v : V} (h : lookup d a k = some v) : lookup d a' k = some v := by
  obtain ⟨-, -, -, rfl⟩ := put_eq_ok hput
  rw [lookup_eq hhash hs] at h
  cases hk : scan a.size (fun e => d.equal e.1 k) (layout a) a.size (d.hash k a.size) with
  | hit j =>
    rw [hk] at h
    have hne : j ≠ i := by
      rintro rfl
      dsimp only at h
      rw [hfree] at h
      cases h
    rw [lookup_eq hhash (shape_put hs hput), layout_put hput, scan_update hfree _ hk]
    dsimp only
    rw [Function.update_of_ne hne]
    exact h
  | gap j => rw [hk] at h; cases h
  | round => rw [hk] at h; cases h

/-- What is stored to the slot where the search for it ends is found. -/
theorem lookup_filled (hs : Shape a) {i : Nat} {key : K} {value : V} (hrefl : d.equal key key = true)
    (hscan : scan a.size (fun e => d.equal e.1 key) (layout a) a.size (d.hash key a.size) = .gap i)
    (hput : put a i key value = .ok a') : lookup d a' key = some value := by
  have hfilled := @scan_filled _ _ _ (fun e : K × V => d.equal e.1 key) _ _ _ (key, value) hrefl hscan
  obtain ⟨-, -, -, rfl⟩ := put_eq_ok hput
  rw [lookup_eq hhash (shape_put hs hput), layout_put hput, hfilled]
  dsimp only
  rw [Function.update_self]
  rfl

/-- `set` keeps the value that its key has, and `get` finds what it found. -/
theorem lookup_set (hs : Shape a) {key : K} {value : V} {i : Nat} (hrefl : d.equal key key = true)
    (h : set d a key value = .ok (a', some i)) : lookup d a' key = some ((lookup d a key).getD value) ∧
      ∀ k v, lookup d a k = some v → lookup d a' k = some v := by
  have hstart := hhash key a.size hs.size_pos
  have hends : (scan a.size (fun e => d.equal e.1 key) (layout a) a.size (d.hash key a.size)).Ends a.size _ _ :=
    scan_ends hstart
  rw [set, setLoop_eq d hs key value _ hstart] at h
  cases hscan : scan a.size (fun e => d.equal e.1 key) (layout a) a.size (d.hash key a.size) with
  | hit j =>
    -- the key is there already
    rw [hscan] at h hends
    cases h
    obtain ⟨-, e, he, -⟩ := hends
    refine ⟨?_, fun _ _ hv => hv⟩
    rw [lookup_eq hhash hs, hscan]
    dsimp only
    rw [he]
    rfl
  | gap j =>
    rw [hscan] at h hends
    obtain ⟨b, hput, h⟩ := bind_eq_ok.1 h
    cases h
    have hnone : lookup d a key = none := by
      rw [lookup_eq hhash hs, hscan]
    rw [hnone]
    exact ⟨lookup_filled hhash hs hrefl hscan hput, fun k v => lookup_put hhash hs hput hends.2⟩
  | round =>
    rw [hscan] at h
    cases h

end

section
variable {d : Decl K V} {a a' : Table K V}

/-- In a table without slots nothing can be looked for. -/
theorem remove_nil (hf : a.flags = []) (key : K) (fuel : Nat) : ∀ r, remove d fuel a key ≠ .ok r := by
  intro r h
  obtain ⟨p, hp, -⟩ := bind_eq_ok.1 h
  cases fuel with
  | zero => cases hp
  | succ fuel =>
    obtain ⟨x, hx, -⟩ := bind_eq_ok.1 hp
    obtain ⟨f, hread, -⟩ := bind_eq_ok.1 hx
    rw [hf] at hread
    cases hread

/-- A size that does not fit into a `size_t` is 0. No call gets anywhere in such a table. -/
theorem call_nil (h0 : a.size = 0) (hf : a.flags = []) {fuel : Nat} {c : Call K V} {r : Reply V}
    (h : call d fuel a c = .ok (a', r)) : a'.size = 0 ∧ a'.flags = [] := by
  cases c with
  | get key =>
    obtain ⟨p, -, h⟩ := bind_eq_ok.1 h
    obtain ⟨v, -, h⟩ := bind_eq_ok.1 h
    cases h
    exact ⟨h0, hf⟩
  | set key value =>
    obtain ⟨⟨b, p⟩, hset, h⟩ := bind_eq_ok.1 h
    obtain ⟨v, -, h⟩ := bind_eq_ok.1 h
    rw [set, h0] at hset
    cases h
    cases hset
    exact ⟨h0, hf⟩
  | remove key =>
    obtain ⟨⟨s, b⟩, hrem, h⟩ := bind_eq_ok.1 h
    exact absurd hrem (remove_nil hf key fuel _)
  | clear =>
    obtain ⟨b, hclear, h⟩ := bind_eq_ok.1 h
    obtain ⟨flags, hfill, hb⟩ := bind_eq_ok.1 hclear
    cases h
    cases hb
    rw [h0, hf] at hfill
    cases hfill
    exact ⟨h0, rfl⟩

theorem run_nil {t : Table K V} {es : List (Call K V × Reply V)} (h0 : t.size = 0) (hf : t.flags = [])
    (h : Run d t es a) : a.size = 0 ∧ a.flags = [] := by
  induction h with
  | nil => exact ⟨h0, hf⟩
  | call fuel _ hcall ih => exact call_nil ih.1 ih.2 hcall

end

end SphSc.Hashtable

import SphSc.Hashtable.Refinement
/-!
# Only the keys passed to a table matter

A hash need not be good for every key: the table asks for the hash of the keys
it is passed, and hashes stored keys again only when `remove` shifts them. So
where the hash is in range and the same for equal keys among those passed, a
table does what it does with a hash that is so everywhere (`tamed`).
-/
open Exec Ring Probing

namespace SphSc.Hashtable

variable {K V : Type}

/-- The key of a call. -/
def Call.key : Call K V → Option K
  | .get key | .set key _ | .remove key => some key
  | .clear => none

/-- The keys passed in a run. -/
def passed (es : List (Call K V × Reply V)) : List K := es.filterMap fun e => e.1.key

/-- That `equal` is an equality. -/
structure Decl.Equality (d : Decl K V) : Prop where
  refl : ∀ a, d.equal a a = true
  symm : ∀ a b, d.equal a b = true → d.equal b a = true
  trans : ∀ a b c, d.equal a b = true → d.equal b c = true → d.equal a c = true

/-- `d` with the hash that a key of `ks` has, on all keys equal to it. -/
def tamed (d : Decl K V) (ks : List K) : Decl K V :=
  { d with hash := fun k n => ((ks.find? fun k' => d.equal k' k).elim 0 fun k' => d.hash k' n) % n }

/-- What a table of `size` slots needs of the hash of the keys `ks`. -/
structure HashedOn (d : Decl K V) (ks : List K) (size : Nat) : Prop where
  lt : ∀ k ∈ ks, d.hash k size < size
  eq : ∀ k ∈ ks, ∀ k' ∈ ks, d.equal k k' = true → d.hash k size = d.hash k' size

variable {d : Decl K V} {ks : List K}

theorem tamed_lawful (he : d.Equality) (ks : List K) : (tamed d ks).Lawful where
  hash_lt k n hn := Nat.mod_lt _ hn
  refl := he.refl
  symm := he.symm
  trans := he.trans
  hash_eq a b hab n := by
    have hfind : (fun k' => d.equal k' a) = fun k' => d.equal k' b := by
      funext k'
      apply Bool.eq_iff_iff.2
      constructor
      · intro h
        exact he.trans k' a b h hab
      · intro h
        exact he.trans k' b a h (he.symm a b hab)
    simp only [tamed, hfind]

theorem tamed_hash (he : d.Equality) {size : Nat} (hk : HashedOn d ks size) {k : K} (hmem : k ∈ ks) :
    (tamed d ks).hash k size = d.hash k size := by
  cases hfind : ks.find? fun k' => d.equal k' k with
  | none =>
    have := List.find?_eq_none.1 hfind k hmem
    simp [he.refl] at this
  | some k' =>
    have hk' := List.mem_of_find?_eq_some hfind
    have heq : d.equal k' k = true := by simpa using List.find?_some hfind
    simp only [tamed, hfind, Option.elim_some]
    rw [hk.eq k' hk' k hmem heq, Nat.mod_eq_of_lt (hk.lt k hmem)]

/-! ## The functions with another hash -/

theorem getElem?_set_cases {α : Type} {xs : List α} {i j : Nat} {x y : α} (h : (xs.set i x)[j]? = some y) :
    y = x ∨ xs[j]? = some y := by
  by_cases hji : i = j
  · subst hji
    rw [List.getElem?_set_self'] at h
    cases hx : xs[i]? with
    | none => simp [hx] at h
    | some z =>
      simp only [hx, Option.map_eq_map, Option.map_some, Function.const_apply, Option.some.injEq] at h
      exact .inl h.symm
  · rw [List.getElem?_set_ne hji] at h
    exact .inr h

section
variable (d : Decl K V) (hash : K → Nat → Nat)

/-- `d` with another hash. -/
def rehash : Decl K V := { d with hash }

/-- A table of `n` slots whose stored keys have the same hash with either. -/
structure Agree (n : Nat) (a : Table K V) : Prop where
  size : a.size = n
  hash : ∀ (i : Nat) k, a.flags[i]? = some full → a.keys[i]? = some k → hash k n = d.hash k n

variable {d hash} {n : Nat} {a a' : Table K V} {key : K}

theorem getLoop_rehash (remaining index : Nat) :
    getLoop (rehash d hash) a key remaining index = getLoop d a key remaining index := by
  induction remaining generalizing index with
  | zero => rfl
  | succ remaining ih =>
    simp only [getLoop, ih]
    rfl

theorem setLoop_rehash (value : V) (remaining index : Nat) :
    setLoop (rehash d hash) a key value remaining index = setLoop d a key value remaining index := by
  induction remaining generalizing index with
  | zero => rfl
  | succ remaining ih =>
    simp only [setLoop, ih]
    rfl

theorem shiftRound_rehash (ha : Agree d hash n a) (index hole : Nat) :
    shiftRound (rehash d hash) (a, index, hole) = shiftRound d (a, index, hole) := by
  simp only [shiftRound]
  cases hflag : read a.flags (wadd index 1 &&& a.mask) with
  | error e => rfl
  | ok f =>
    simp only [ok_bind]
    split
    · rfl
    · rename_i hfull
      cases hkey : read a.keys (wadd index 1 &&& a.mask) with
      | error e => rfl
      | ok k =>
        have hfull : f = full := not_not.1 hfull
        have hk := ha.hash _ k (hfull ▸ read_eq_ok.1 hflag) (read_eq_ok.1 hkey)
        simp only [ok_bind, rehash, ha.size, hk]

theorem agree_shiftRound (ha : Agree d hash n a) {index hole index' hole' : Nat}
    (h : shiftRound d (a, index, hole) = .ok (.inl (a', index', hole'))) : Agree d hash n a' := by
  obtain ⟨f, hflag, h⟩ := bind_eq_ok.1 h
  split at h
  · obtain ⟨flags, -, h⟩ := bind_eq_ok.1 h
    cases h
  · rename_i hfull
    obtain ⟨k, hkey, h⟩ := bind_eq_ok.1 h
    have hfull : f = full := not_not.1 hfull
    have hk := ha.hash _ k (hfull ▸ read_eq_ok.1 hflag) (read_eq_ok.1 hkey)
    simp only at h
    split at h
    · -- the key that moves into the hole was in a full slot before
      obtain ⟨keys, hkeys, h⟩ := bind_eq_ok.1 h
      obtain ⟨v, -, h⟩ := bind_eq_ok.1 h
      obtain ⟨values, -, h⟩ := bind_eq_ok.1 h
      obtain ⟨-, rfl⟩ := write_eq_ok.1 hkeys
      cases h
      refine ⟨ha.size, ?_⟩
      intro i k' hi hk'
      rcases getElem?_set_cases hk' with rfl | hk'
      · exact hk
      · exact ha.hash i k' hi hk'
    · cases h
      exact ha

theorem agree_exit (ha : Agree d hash n a) {index hole : Nat}
    (h : shiftRound d (a, index, hole) = .ok (.inr a')) : Agree d hash n a' := by
  obtain ⟨f, -, h⟩ := bind_eq_ok.1 h
  split at h
  · obtain ⟨flags, hflags, h⟩ := bind_eq_ok.1 h
    obtain ⟨-, rfl⟩ := write_eq_ok.1 hflags
    cases h
    refine ⟨ha.size, ?_⟩
    intro i k hi hk
    rcases getElem?_set_cases hi with hi | hi
    · exact absurd hi (by decide)
    · exact ha.hash i k hi hk
  · obtain ⟨k, -, h⟩ := bind_eq_ok.1 h
    simp only at h
    split at h
    · obtain ⟨keys, -, h⟩ := bind_eq_ok.1 h
      obtain ⟨v, -, h⟩ := bind_eq_ok.1 h
      obtain ⟨values, -, h⟩ := bind_eq_ok.1 h
      cases h
    · cases h

theorem agree_put (ha : Agree d hash n a) {index : Nat} {value : V} (hkey : hash key n = d.hash key n)
    (h : put a index key value = .ok a') : Agree d hash n a' := by
  obtain ⟨-, hlt, -, rfl⟩ := put_eq_ok h
  refine ⟨ha.size, ?_⟩
  intro i k hi hk
  by_cases hii : index = i
  · subst hii
    rw [List.getElem?_set_self hlt] at hk
    cases hk
    exact hkey
  · rw [List.getElem?_set_ne hii] at hi hk
    exact ha.hash i k hi hk

theorem agree_set (ha : Agree d hash n a) {value : V} (hkey : hash key n = d.hash key n) {p : Option Nat}
    {remaining index : Nat} (h : setLoop d a key value remaining index = .ok (a', p)) : Agree d hash n a' := by
  induction remaining generalizing index with
  | zero =>
    cases h
    exact ha
  | succ remaining ih =>
    obtain ⟨b, -, h⟩ := bind_eq_ok.1 h
    split at h
    · cases h
      exact ha
    · obtain ⟨f, -, h⟩ := bind_eq_ok.1 h
      split at h
      · obtain ⟨c, hput, h⟩ := bind_eq_ok.1 h
        cases h
        exact agree_put ha hkey hput
      · exact ih h

theorem remove_rehash (ha : Agree d hash n a) (hkey : hash key n = d.hash key n) (fuel : Nat) :
    remove (rehash d hash) fuel a key = remove d fuel a key := by
  have hstart : (rehash d hash).hash key a.size = d.hash key a.size := by
    rw [ha.size]
    exact hkey
  have hshift : ∀ j, loop (shiftRound (rehash d hash)) fuel (a, j, j) = loop (shiftRound d) fuel (a, j, j) := by
    intro j
    refine loop_congr (fun s => Agree d hash n s.1) ?_ ?_ fuel ha
    · rintro ⟨b, index, hole⟩ ⟨b', index', hole'⟩ hb h
      exact agree_shiftRound hb h
    · rintro ⟨b, index, hole⟩ hb
      exact shiftRound_rehash hb index hole
  have hfind : findRound (rehash d hash) a key = findRound d a key := rfl
  simp only [remove, hstart, hfind, hshift]

theorem agree_remove (ha : Agree d hash n a) {fuel : Nat} {s : Byte} (h : remove d fuel a key = .ok (s, a')) :
    Agree d hash n a' := by
  obtain ⟨p, -, h⟩ := bind_eq_ok.1 h
  cases p with
  | none =>
    cases h
    exact ha
  | some j =>
    obtain ⟨b, hb, h⟩ := bind_eq_ok.1 h
    cases h
    refine loop_inv (fun s => Agree d hash n s.1) (Agree d hash n) ?_ ?_ ha hb
    · rintro ⟨b, index, hole⟩ ⟨b', index', hole'⟩ hb h
      exact agree_shiftRound hb h
    · rintro ⟨b, index, hole⟩ b' hb h
      exact agree_exit hb h

theorem call_rehash (ha : Agree d hash n a) {c : Call K V} (hc : ∀ k ∈ c.key, hash k n = d.hash k n) (fuel : Nat) :
    call (rehash d hash) fuel a c = call d fuel a c := by
  have hstart : ∀ k ∈ c.key, (rehash d hash).hash k a.size = d.hash k a.size := by
    rw [ha.size]
    exact hc
  cases c with
  | get key => simp only [call, get, hstart key rfl, getLoop_rehash]
  | set key value => simp only [call, set, hstart key rfl, setLoop_rehash]
  | remove key => simp only [call, remove_rehash ha (hc key rfl)]
  | clear => rfl

theorem agree_call (ha : Agree d hash n a) {fuel : Nat} {c : Call K V} {r : Reply V}
    (hc : ∀ k ∈ c.key, hash k n = d.hash k n) (h : call d fuel a c = .ok (a', r)) : Agree d hash n a' := by
  cases c with
  | get key =>
    obtain ⟨p, -, h⟩ := bind_eq_ok.1 h
    obtain ⟨v, -, h⟩ := bind_eq_ok.1 h
    cases h
    exact ha
  | set key value =>
    obtain ⟨⟨b, p⟩, hset, h⟩ := bind_eq_ok.1 h
    obtain ⟨v, -, h⟩ := bind_eq_ok.1 h
    cases h
    exact agree_set ha (hc key rfl) hset
  | remove key =>
    obtain ⟨⟨s, b⟩, hrem, h⟩ := bind_eq_ok.1 h
    cases h
    exact agree_remove ha hrem
  | clear =>
    obtain ⟨b, hclear, h⟩ := bind_eq_ok.1 h
    obtain ⟨flags, hfill, hb⟩ := bind_eq_ok.1 hclear
    obtain ⟨-, rfl⟩ := fill_eq_ok.1 hfill
    cases h
    cases hb
    refine ⟨ha.size, ?_⟩
    intro i k hi hk
    rw [List.take_zero, List.nil_append, Nat.zero_add] at hi
    by_cases hlt : i < a.size
    · rw [List.getElem?_append_left (by simpa using hlt), List.getElem?_replicate, if_pos hlt] at hi
      exact absurd hi (by decide)
    · rw [List.getElem?_append_right (by simpa using hlt), List.length_replicate, List.getElem?_drop,
        Nat.add_sub_of_le (by omega)] at hi
      exact ha.hash i k hi hk

theorem run_rehash {t : Table K V} {es : List (Call K V × Reply V)} (ht : Agree d hash n t)
    (hes : ∀ k ∈ passed es, hash k n = d.hash k n) (h : Run d t es a) : Agree d hash n a ∧ Run (rehash d hash) t es a := by
  induction h with
  | nil => exact ⟨ht, .nil⟩
  | @call es a' a'' c r fuel _ hcall ih =>
    simp only [passed, List.filterMap_append, List.mem_append] at hes
    obtain ⟨ha', hrun⟩ := ih fun k hk => hes k (.inl hk)
    have hc : ∀ k ∈ c.key, hash k n = d.hash k n := by
      intro k hk
      refine hes k (.inr ?_)
      simp [Option.mem_def.1 hk]
    exact ⟨agree_call ha' hc hcall, .call fuel hrun ((call_rehash ha' hc fuel).trans hcall)⟩

end

/-! ## Indices in range -/

theorem deref_in_range {a : Table K V} {p : Option Nat} (h : ∀ i, p = some i → i < a.values.length) :
    ∃ v, deref a p = .ok v := by
  cases p with
  | none => exact ⟨none, rfl⟩
  | some i => exact ⟨_, by simp only [deref, read_of_lt (h i rfl), ok_bind]; rfl⟩

section
variable {d : Decl K V} (hhash : ∀ k n, 0 < n → d.hash k n < n) {a : Table K V}
include hhash

theorem get_in_range (hs : Shape a) (hroom : a.size ≤ a.values.length) (key : K) :
    ∃ p, get d a key = .ok p ∧ ∀ i, p = some i → i < a.values.length := by
  have hstart := hhash key a.size hs.size_pos
  have hends : (scan a.size (fun e => d.equal e.1 key) (layout a) a.size (d.hash key a.size)).Ends a.size _ _ :=
    scan_ends hstart
  rw [get, getLoop_eq d hs key _ hstart]
  cases hr : scan a.size (fun e => d.equal e.1 key) (layout a) a.size (d.hash key a.size) with
  | hit i =>
    rw [hr] at hends
    refine ⟨some i, rfl, ?_⟩
    rintro _ ⟨⟩
    exact Nat.lt_of_lt_of_le hends.1 hroom
  | gap i => exact ⟨none, rfl, by rintro _ ⟨⟩⟩
  | round => exact ⟨none, rfl, by rintro _ ⟨⟩⟩

theorem set_in_range (hs : Shape a) (hroom : a.size ≤ a.values.length) (key : K) (value : V) :
    ∃ a' p, set d a key value = .ok (a', p) ∧ ∀ i, p = some i → i < a'.values.length := by
  obtain ⟨a', p, hset, hends⟩ := set_ends hs (hhash key a.size hs.size_pos) hroom value
  refine ⟨a', p, hset, ?_⟩
  rintro i rfl
  rcases hends with ⟨j, e, hj, hlt, -, -, rfl⟩ | ⟨j, hj, -, -, hput⟩ | ⟨hj, -⟩
  · cases hj
    exact Nat.lt_of_lt_of_le hlt hroom
  · cases hj
    obtain ⟨-, -, hv, rfl⟩ := put_eq_ok hput
    rw [List.length_set]
    exact hv
  · cases hj

theorem remove_in_range (hs : Shape a) (fuel : Nat) (key : K) : remove d fuel a key ≠ .error .outOfBounds := by
  have hstart := hhash key a.size hs.size_pos
  have hseeks := findRound_seeks d hs key
  intro h
  unfold remove at h
  cases hfind : loop (findRound d a key) fuel (d.hash key a.size) with
  | error e =>
    rw [hfind] at h
    cases h
    -- the search ended with an error
    exact seek_in_bounds hseeks fuel hstart hfind
  | ok p =>
    rw [hfind, ok_bind] at h
    cases p with
    | none => cases h
    | some j =>
      obtain ⟨hj, hfull⟩ := seek_ends hseeks hstart hfind
      cases hshift : loop (shiftRound d) fuel (a, j, j) with
      | error e =>
        simp only [hshift] at h
        cases h
        -- the shift did
        exact shift_in_bounds (shiftRound_shifts d hhash a.size) fuel ⟨hs, rfl⟩ hj hj hfull hshift
      | ok b =>
        simp only [hshift] at h
        cases h

/-- With a hash in range no call goes past the end of a block. -/
theorem call_in_range (hs : Shape a) (hroom : a.size ≤ a.values.length) (fuel : Nat) (c : Call K V) :
    call d fuel a c ≠ .error .outOfBounds := by
  cases c with
  | get key =>
    obtain ⟨p, hp, hlt⟩ := get_in_range hhash hs hroom key
    obtain ⟨v, hv⟩ := deref_in_range hlt
    simp [call, hp, hv]
  | set key value =>
    obtain ⟨a', p, hp, hlt⟩ := set_in_range hhash hs hroom key value
    obtain ⟨v, hv⟩ := deref_in_range hlt
    simp [call, hp, hv]
  | remove key =>
    intro h
    cases hrem : remove d fuel a key with
    | error e =>
      rw [call, hrem] at h
      cases h
      exact remove_in_range hhash hs fuel key hrem
    | ok r =>
      rw [call, hrem] at h
      cases h
  | clear =>
    have hfill : fill a.flags 0 a.size empty = .ok _ := fill_eq_ok.2 ⟨by rw [hs.flags]; omega, rfl⟩
    simp [call, clear, hfill]

end

/-- With a key whose hash is too large every call does, at once. -/
theorem call_out_of_range {d : Decl K V} {a : Table K V} (hlen : a.flags.length = a.size) (hpos : 0 < a.size)
    {c : Call K V} {k : K} (hk : k ∈ c.key) (hle : a.size ≤ d.hash k a.size) :
    call d 1 a c = .error .outOfBounds := by
  have hread : read a.flags (d.hash k a.size) = .error .outOfBounds := by
    rw [Exec.read, List.getElem?_eq_none (by rw [hlen]; exact hle)]
  obtain ⟨remaining, hsize⟩ : ∃ remaining, a.size = remaining + 1 := ⟨a.size - 1, by omega⟩
  cases c with
  | get key =>
    cases hk
    rw [call, get]
    generalize d.hash k a.size = index at hread
    rw [hsize, getLoop, hread]
    rfl
  | set key value =>
    cases hk
    rw [call, set]
    generalize d.hash k a.size = index at hread
    rw [hsize, setLoop, holdsKey, hread]
    rfl
  | remove key =>
    cases hk
    rw [call, remove, loop, findRound, hread]
    rfl
  | clear => cases hk

/-! ## Runs -/

section
variable {d : Decl K V} {grants : Grants} {junk : Nat → V} {minimumSize : Nat} {t t' : Table K V} {rs : List Request}
  {es : List (Call K V × Reply V)}

theorem agree_new (hnew : new d grants junk minimumSize = (0, some t, rs)) (hash : K → Nat → Nat) :
    Agree d hash t.size t := by
  obtain ⟨-, -, hflags, -⟩ := new_eq hnew
  refine ⟨rfl, ?_⟩
  intro i k hi
  rw [hflags, List.getElem?_replicate] at hi
  split at hi
  · exact absurd hi (by decide)
  · cases hi

/-- While the hashes of the keys passed are in range, the next call stays inside
the slots exactly if that of its key is, whatever the values are. -/
theorem in_range_iff (hnew : new d grants junk minimumSize = (0, some t, rs)) (hrun : Run d t es t')
    (hlt : ∀ k ∈ passed es, d.hash k t.size < t.size) (hpos : 0 < t.size) {values : List V}
    (hroom : t.size ≤ values.length) (c : Call K V) :
    (∀ fuel, call d fuel { t' with values } c ≠ .error .outOfBounds) ↔ ∀ k ∈ c.key, d.hash k t.size < t.size := by
  obtain ⟨hsize, -⟩ := new_eq hnew
  have hpow : ∃ k, t.size = 2 ^ k := by
    rcases calculateSize_pow d.sizeFactor minimumSize with h0 | hp
    · omega
    · exact hsize ▸ hp
  -- the same run with the hash reduced to the range
  have hmod : ∀ k, d.hash k t.size < t.size → d.hash k t.size % t.size = d.hash k t.size := fun k => Nat.mod_eq_of_lt
  obtain ⟨hagree, hrun'⟩ := run_rehash (agree_new hnew fun k n => d.hash k n % n) (fun k hk => hmod k (hlt k hk)) hrun
  have hs := run_shape (fun k n hn => Nat.mod_lt _ hn) (new_shape hnew hpow).1 hrun'
  have hflags : ∀ i, t'.flags[i]? = some full → i < values.length := by
    intro i hi
    have hi := (List.getElem?_eq_some_iff.1 hi).1
    rw [hs.flags, hagree.size] at hi
    omega
  have hs' : Shape { t' with values } := { hs with values := hflags }
  constructor
  · intro h k hk
    by_contra hle
    refine h 1 (call_out_of_range hs'.flags hs'.size_pos hk ?_)
    simp only [hagree.size]
    omega
  · intro hc fuel
    have hagree' : Agree d (fun k n => d.hash k n % n) t.size { t' with values } := ⟨hagree.size, hagree.hash⟩
    rw [← call_rehash hagree' (fun k hk => hmod k (hc k hk)) fuel]
    refine call_in_range (fun k n hn => Nat.mod_lt _ hn) hs' ?_ fuel c
    simp only [hagree.size]
    exact hroom

/-- A table without slots holds nothing, whatever is passed. -/
theorem call_nil_refines {κ : Type} [DecidableEq κ] (f : K → κ) {a a' : Table K V} (h0 : a.size = 0) (hf : a.flags = [])
    {fuel : Nat} {c : Call K V} {r : Reply V} (h : call d fuel a c = .ok (a', r)) :
    BoundedMap.step 0 ∅ (c.map f) = (∅, r) := by
  cases c with
  | get key =>
    obtain ⟨p, hp, h⟩ := bind_eq_ok.1 h
    obtain ⟨v, hv, h⟩ := bind_eq_ok.1 h
    rw [get, h0] at hp
    cases hp
    cases hv
    cases h
    simp [BoundedMap.step, Call.map]
  | set key value =>
    obtain ⟨⟨b, p⟩, hset, h⟩ := bind_eq_ok.1 h
    obtain ⟨v, hv, h⟩ := bind_eq_ok.1 h
    rw [set, h0] at hset
    cases hset
    cases hv
    cases h
    simp [BoundedMap.step, Call.map]
  | remove key =>
    obtain ⟨⟨s, b⟩, hrem, h⟩ := bind_eq_ok.1 h
    exact absurd hrem (remove_nil hf key fuel _)
  | clear =>
    obtain ⟨b, -, h⟩ := bind_eq_ok.1 h
    cases h
    rfl

theorem run_nil_refines {κ : Type} [DecidableEq κ] (f : K → κ) (h0 : t.size = 0) (hf : t.flags = [])
    (hrun : Run d t es t') : BoundedMap.run 0 ∅ (es.map fun e => e.1.map f) = (∅, es.map Prod.snd) := by
  induction hrun with
  | nil => rfl
  | call fuel hrun hcall ih =>
    obtain ⟨h0', hf'⟩ := run_nil h0 hf hrun
    have hstep := call_nil_refines f h0' hf' hcall
    simp only [List.map_append, List.map_cons, List.map_nil, BoundedMap.run_snoc, ih, hstep]

/-- The classes of equal keys. -/
theorem Decl.Equality.lawful (he : d.Equality) : (rehash d fun _ _ => 0).Lawful where
  hash_lt _ _ hn := hn
  refl := he.refl
  symm := he.symm
  trans := he.trans
  hash_eq _ _ _ _ := rfl

/-- While the hashes of the keys passed are in range and the same for equal
keys, a table is the finite map it is with a hash that is so for all keys. -/
theorem refines_map_of_passed (he : d.Equality) (hnew : new d grants junk minimumSize = (0, some t, rs))
    (hrun : Run d t es t') (hk : HashedOn d (passed es) t.size) :
    BoundedMap.run t.size ∅ (es.map fun e => e.1.map he.lawful.key) = (contents he.lawful t', es.map Prod.snd) := by
  obtain ⟨hsize, -, hflags, -⟩ := new_eq hnew
  rcases calculateSize_pow d.sizeFactor minimumSize with h0 | hp
  · have h0 := hsize.trans h0
    have hf : t.flags = [] := by
      rw [hflags, h0]
      rfl
    rw [h0, run_nil_refines he.lawful.key h0 hf hrun]
    have hcontents : contents he.lawful t' = ∅ := by
      simp [contents, Probing.contents, (run_nil h0 hf hrun).1]
    rw [hcontents]
  · obtain ⟨hi, hempty⟩ := new_spec (tamed_lawful he (passed es)) hnew (hsize ▸ hp)
    obtain ⟨-, hrun'⟩ := run_rehash (agree_new hnew _) (fun k hmem => tamed_hash he hk hmem) hrun
    have hfinal := (run_inv hi hrun').2.2
    rw [hempty] at hfinal
    exact hfinal

end

end SphSc.Hashtable

import SphSc.Hashtable.Passed
import SphSc.Ikv.Murmur3
import Mathlib.Data.List.TakeWhile
/-!
# `ikv.h`: tables keyed by strings

`ikv` is the hashtable of `hashtable.h` with strings for keys. Two things about
its keys are not what that table asks for. `ikv_hash_64` gives a whole 64-bit
word where the table wants an index of a slot, and it looks at the whole string
where `ikv_equal` looks at 128 bytes of it.
-/
open Exec Ring

namespace SphSc.Ikv

open Hashtable

def maxKeysize : Nat := 128

/-- `ikv_key_t*`, as the block it points to. -/
abbrev Key := List Byte

/-- The string in a block: what stands before the first NUL. -/
def cstring (block : List Byte) : List Byte := block.takeWhile fun b => b ≠ 0

/-- `strncmp(a, b, n) == 0` -/
def strncmpEqual (a b : List Byte) (n : Nat) : Bool := (cstring a).take n = (cstring b).take n

def equal (a b : Key) : Bool := strncmpEqual a b maxKeysize

def hash64 (key : Key) (_size : Nat) : Nat := (Murmur3.murmurHash3 (cstring key) 0).1.toNat

/-- `sph_hashtable_declare_type(ikv, ikv_key_t*, ikv_value_t, ikv_hash_64, ikv_equal, 2)`,
for any values of the size of `ikv_value_t`. -/
def decl (V : Type) : Decl Key V where
  hash := hash64
  equal := equal
  sizeFactor := 2
  sizeofKey := 8
  sizeofValue := 24
  zeroKey := []

theorem cstring_eq {block : List Byte} (h : 0 ∉ block) : cstring block = block := by
  apply List.takeWhile_eq_self_iff.2
  intro c hc
  apply decide_eq_true
  rintro rfl
  exact h hc

theorem cstring_cons {c : Byte} (h : c ≠ 0) (rest : List Byte) : cstring (c :: rest) = c :: cstring rest :=
  List.takeWhile_cons_of_pos (decide_eq_true h)

theorem cstring_terminated {string : List Byte} (h : 0 ∉ string) (rest : List Byte) :
    cstring (string ++ 0 :: rest) = string := by
  have hall : ∀ c ∈ string, decide (c ≠ 0) = true := by
    intro c hc
    apply decide_eq_true
    rintro rfl
    exact h hc
  rw [cstring, List.takeWhile_append_of_pos hall, List.takeWhile_cons_of_neg (by simp), List.append_nil]

theorem nul_cstring (block : List Byte) : 0 ∉ cstring block := by
  intro h
  have hne := List.mem_takeWhile_imp h
  simp at hne

theorem equal_iff {a b : Key} : equal a b = true ↔ (cstring a).take maxKeysize = (cstring b).take maxKeysize :=
  decide_eq_true_iff

theorem equality (V : Type) : (decl V).Equality where
  refl _ := equal_iff.2 rfl
  symm _ _ h := equal_iff.2 (equal_iff.1 h).symm
  trans _ _ _ h h' := equal_iff.2 ((equal_iff.1 h).trans (equal_iff.1 h'))

/-- While the hash of every key passed is below the size of the table, and the
same for keys that `ikv_equal` does not tell apart, a table is a finite map
keyed by `ikv_equal`. The next call then stays inside the slots, whatever the
values, exactly if the hash of its key is below the size too. -/
theorem string_map {V : Type} {grants : Grants} {junk : Nat → V} {n : Nat} {t t' : Table Key V} {rs : List Request}
    {es : List (Call Key V × Reply V)} (hnew : new (decl V) grants junk n = (0, some t, rs))
    (hrun : Run (decl V) t es t') (hrange : ∀ k ∈ passed es, hash64 k t.size < t.size)
    (hsame : ∀ k ∈ passed es, ∀ k' ∈ passed es, equal k k' = true → hash64 k t.size = hash64 k' t.size) :
    BoundedMap.run t.size ∅ (es.map fun e => e.1.map (equality V).lawful.key) =
      (contents (equality V).lawful t', es.map Prod.snd) ∧
    (0 < t.size → ∀ values, t.size ≤ values.length → ∀ c,
      (∀ fuel, call (decl V) fuel { t' with values } c ≠ .error .outOfBounds) ↔
        ∀ k ∈ c.key, hash64 k t.size < t.size) := by
  refine ⟨refines_map_of_passed (equality V) hnew hrun ⟨hrange, hsame⟩, ?_⟩
  intro hpos values hroom c
  exact in_range_iff hnew hrun hrange hpos hroom c

/-- The hash of the empty string is 0: the table holds it, but has no slot for "a". -/
theorem string_map_empty : ∃ t' : Table Key Nat,
    BoundedMap.run 2 ∅ ([.set [0] 5, .get [0]].map (Call.map (equality Nat).lawful.key)) =
      (contents (equality Nat).lawful t', [.value (some 5), .value (some 5)]) ∧
    ¬ ∀ fuel, call (decl Nat) fuel { t' with values := [5, 5] } (.get [97, 0]) ≠ .error .outOfBounds := by
  have hnew : new (decl Nat) (fun _ => true) (fun _ => 0) 0 =
      (0, some ⟨2, 1, [0, 0], [[], []], [0, 0]⟩, [.malloc 48, .calloc 2 8, .calloc 2 1]) := rfl
  have hset : Run (decl Nat) ⟨2, 1, [0, 0], [[], []], [0, 0]⟩ ([] ++ [(.set [0] 5, .value (some 5))])
      ⟨2, 1, [1, 0], [[0], []], [5, 0]⟩ := .call 0 .nil (by rfl)
  have hget : Run (decl Nat) _ (_ ++ [(.get [0], .value (some 5))]) ⟨2, 1, [1, 0], [[0], []], [5, 0]⟩ :=
    .call 0 hset (by rfl)
  have hkeys : ∀ k ∈ passed ([] ++ [(.set [0] 5, .value (some 5))] ++ [(.get [0], .value (some 5))] :
      List (Call Key Nat × Reply Nat)), k = [0] := by simp [passed, Call.key]
  obtain ⟨hmap, hrange⟩ := string_map hnew hget
    (fun k hk => by rw [hkeys k hk]; decide) (fun k hk k' hk' _ => by rw [hkeys k hk, hkeys k' hk'])
  refine ⟨_, hmap, ?_⟩
  rw [hrange (by decide) [5, 5] (by decide)]
  intro h
  exact absurd (h [97, 0] rfl) (by decide)

/-- The hash of "a" is 9607679276477937801, far past the 256 slots of a table for 100 keys. -/
theorem get_out_of_bounds : ∃ t rs, new (decl Nat) (fun _ => true) (fun _ => 0) 100 = (0, some t, rs) ∧
    ∀ fuel, call (decl Nat) fuel t (.get [97, 0]) = .error .outOfBounds := by
  obtain ⟨t, rs, hnew⟩ : ∃ t rs, new (decl Nat) (fun _ => true) (fun _ => 0) 100 = (0, some t, rs) := ⟨_, _, rfl⟩
  refine ⟨t, rs, hnew, ?_⟩
  intro fuel
  obtain ⟨hsize, -, hflags, -⟩ := new_eq hnew
  have hsize : t.size = 256 := hsize
  have hcall : call (decl Nat) 1 t (.get [97, 0]) = .error .outOfBounds := by
    refine call_out_of_range (k := [97, 0]) ?_ (by omega) rfl ?_
    · rw [hflags, List.length_replicate]
    · rw [hsize]
      decide
  exact hcall

end SphSc.Ikv

import SphSc.Ikv.Keys
import SphSc.Lib.Words
import Mathlib.Data.Fintype.BigOperators
/-!
# Equal keys with different hashes

`ikv_equal` looks at 128 bytes of a string and `ikv_hash_64` at all of them.
Shorter strings are equal only if they are the same. Each longer one is equal
to some string with another hash: one more block of 16 bytes after the first
128 gives more states than there are hashes, and the hash and one word of the
state determine the other.
-/
open Exec Words

namespace SphSc.Ikv

namespace Murmur3

/-! ## Steps that lose nothing -/

theorem rotl64_injective {k : Nat} (hk : k < 64) : Function.Injective fun x : Word64 => rotl64 x k :=
  rotl_injective hk

theorem mix1_injective : Function.Injective mix1 := by
  intro x y h
  have h₁ := mul_injective c2 0xa81e14edd9de2c7f (by decide) h
  have h₂ := rotl64_injective (show 31 < 64 by omega) h₁
  exact mul_injective c1 0xa98409e882ce4d7d (by decide) h₂

theorem mix2_injective : Function.Injective mix2 := by
  intro x y h
  have h₁ := mul_injective c1 0xa98409e882ce4d7d (by decide) h
  have h₂ := rotl64_injective (show 33 < 64 by omega) h₁
  exact mul_injective c2 0xa81e14edd9de2c7f (by decide) h₂

theorem fmix64_injective : Function.Injective fmix64 := by
  intro x y h
  have h₁ := xor_ushiftRight_injective (show 0 < 33 by omega) h
  have h₂ := mul_injective 0xc4ceb9fe1a85ec53 0x9cb4b2f8129337db (by decide) h₁
  have h₃ := xor_ushiftRight_injective (show 0 < 33 by omega) h₂
  have h₄ := mul_injective 0xff51afd7ed558ccd 0x4f74430c22a54005 (by decide) h₃
  exact xor_ushiftRight_injective (show 0 < 33 by omega) h₄

/-- A round on the two words of a block. -/
def absorb (h : Word64 × Word64) (k : Word64 × Word64) : Word64 × Word64 :=
  let h1 := (rotl64 (h.1 ^^^ mix1 k.1) 27 + h.2) * 5 + 0x52dce729
  (h1, (rotl64 (h.2 ^^^ mix2 k.2) 31 + h1) * 5 + 0x38495ab5)

theorem round_eq (data : List Byte) (h : Word64 × Word64) (i : Nat) :
    round data h i = absorb h (getblock data (i * 2 + 0), getblock data (i * 2 + 1)) := rfl

theorem absorb_injective (h : Word64 × Word64) : Function.Injective (absorb h) := by
  have hfive : ∀ {x y c d : Word64}, (x + c) * 5 + d = (y + c) * 5 + d → x = y := fun {x y c d} hxy =>
    add_right_cancel (mul_injective 5 0xcccccccccccccccd (by decide) (add_right_cancel hxy))
  have hxor : ∀ {x y z : Word64}, z ^^^ x = z ^^^ y → x = y := fun {x y z} hxy => (BitVec.xor_right_inj z).1 hxy
  rintro ⟨k₁, k₂⟩ ⟨l₁, l₂⟩ heq
  obtain ⟨hfst, hsnd⟩ := Prod.mk.inj heq
  have h₁ : k₁ = l₁ := mix1_injective (hxor (rotl64_injective (show 27 < 64 by omega) (hfive hfst)))
  subst h₁
  have h₂ : k₂ = l₂ := mix2_injective (hxor (rotl64_injective (show 31 < 64 by omega) (hfive hsnd)))
  rw [h₂]

/-- What is done with the length at the end, up to the last mixing. -/
def stir (len : Word64) (h : Word64 × Word64) : Word64 × Word64 :=
  let h1 := (h.1 ^^^ len) + (h.2 ^^^ len)
  (h1, (h.2 ^^^ len) + h1)

theorem stir_injective (len : Word64) : Function.Injective (stir len) := by
  rintro ⟨a₁, a₂⟩ ⟨b₁, b₂⟩ heq
  obtain ⟨hfst, hsnd⟩ := Prod.mk.inj heq
  rw [hfst] at hsnd
  have h₂ : a₂ = b₂ := (BitVec.xor_left_inj len).1 (add_right_cancel hsnd)
  subst h₂
  have h₁ : a₁ = b₁ := (BitVec.xor_left_inj len).1 (add_right_cancel hfst)
  rw [h₁]

theorem word_bit (b : Byte) (bytes : List Byte) (i : Nat) : (word (b :: bytes)).getLsbD i =
    ((decide (i < 64) && !decide (i < 8) && (word bytes).getLsbD (i - 8)) ^^ (decide (i < 64) && b.getLsbD i)) := by
  have hword : word (b :: bytes) = (word bytes <<< 8) ^^^ b.setWidth 64 := rfl
  rw [hword, BitVec.getLsbD_xor, BitVec.getLsbD_shiftLeft, BitVec.getLsbD_setWidth]

theorem word_high {bytes : List Byte} {i : Nat} (hi : 8 * bytes.length ≤ i) : (word bytes).getLsbD i = false := by
  induction bytes generalizing i with
  | nil => exact BitVec.getLsbD_zero
  | cons b bytes ih =>
    rw [List.length_cons] at hi
    rw [word_bit, ih (by omega), BitVec.getLsbD_of_ge b i (by omega), Bool.and_false, Bool.and_false]
    rfl

/-- Bytes of the same number, at most eight, are recovered from their word. -/
theorem word_injective {xs ys : List Byte} (hlength : xs.length = ys.length) (hle : xs.length ≤ 8)
    (h : word xs = word ys) : xs = ys := by
  induction xs generalizing ys with
  | nil => exact (List.length_eq_zero_iff.1 hlength.symm).symm
  | cons x xs ih =>
    obtain ⟨y, ys, rfl⟩ := List.exists_cons_of_length_eq_add_one hlength.symm
    rw [List.length_cons] at hle
    rw [List.length_cons, List.length_cons, Nat.succ_inj] at hlength
    have hbit : ∀ i, (word (x :: xs)).getLsbD i = (word (y :: ys)).getLsbD i := fun i => by rw [h]
    simp only [word_bit] at hbit
    -- the first byte is in the low bits, the others are in those above
    have hfirst : x = y := by
      refine BitVec.eq_of_getLsbD_eq fun i hi => ?_
      simpa only [show i < 64 by omega, hi, decide_true, Bool.not_true, Bool.and_false, Bool.false_and, Bool.true_and,
        Bool.false_xor] using hbit i
    have hrest : word xs = word ys := by
      refine BitVec.eq_of_getLsbD_eq fun i hi => ?_
      by_cases hlt : i + 8 < 64
      · have hi' := hbit (i + 8)
        rw [BitVec.getLsbD_of_ge x _ (by omega), BitVec.getLsbD_of_ge y _ (by omega)] at hi'
        simpa only [hlt, show ¬ i + 8 < 8 by omega, Nat.add_sub_cancel, decide_true, decide_false, Bool.not_false,
          Bool.true_and, Bool.and_false, Bool.xor_false] using hi'
      · rw [word_high (by omega), word_high (by omega)]
    rw [hfirst, ih hlength (by omega) hrest]

/-! ## One more block -/

theorem getblock_append {data rest : List Byte} {i : Nat} (h : 8 * i + 8 ≤ data.length) :
    getblock (data ++ rest) i = getblock data i := by
  rw [getblock, getblock, List.drop_append_of_le_length (by omega),
    List.take_append_of_le_length (by rw [List.length_drop]; omega)]

/-- The rounds over the blocks of some data. -/
def rounds (data : List Byte) (seed : BitVec 32) : Word64 × Word64 :=
  (List.range (data.length / 16)).foldl (round data) (seed.setWidth 64, seed.setWidth 64)

theorem rounds_block {data left right : List Byte} {n : Nat} (hdata : data.length = 16 * n) (hleft : left.length = 8)
    (hright : right.length = 8) (seed : BitVec 32) :
    rounds (data ++ (left ++ right)) seed = absorb (rounds data seed) (word left, word right) := by
  have hblocks : data.length / 16 = n := by omega
  have hblocks' : (data ++ (left ++ right)).length / 16 = n + 1 := by
    simp only [List.length_append]
    omega
  have hfirst : getblock (data ++ (left ++ right)) (n * 2 + 0) = word left := by
    rw [getblock, show 8 * (n * 2 + 0) = data.length by omega, List.drop_left, ← hleft, List.take_left]
  have hsecond : getblock (data ++ (left ++ right)) (n * 2 + 1) = word right := by
    have hlength : 8 * (n * 2 + 1) = (data ++ left).length := by
      rw [List.length_append]
      omega
    rw [getblock, ← List.append_assoc, hlength, List.drop_left, ← hright, List.take_length]
  have hsame : (List.range n).foldl (round (data ++ (left ++ right))) (seed.setWidth 64, seed.setWidth 64) =
      (List.range n).foldl (round data) (seed.setWidth 64, seed.setWidth 64) := by
    refine List.foldl_ext _ _ _ fun h i hi => ?_
    have hlt := List.mem_range.1 hi
    rw [round_eq, round_eq, getblock_append (by omega), getblock_append (by omega)]
  rw [rounds, rounds, hblocks, hblocks', List.range_succ, List.foldl_append, hsame, List.foldl_cons, List.foldl_nil,
    round_eq, hfirst, hsecond]

/-- The first word of the hash of whole blocks. -/
theorem murmurHash3_blocks {data : List Byte} {n : Nat} (hdata : data.length = 16 * n) (seed : BitVec 32) :
    (murmurHash3 data seed).1 =
      fmix64 (stir (BitVec.ofNat 64 data.length) (rounds data seed)).1 +
        fmix64 (stir (BitVec.ofNat 64 data.length) (rounds data seed)).2 := by
  have hdrop : data.drop (data.length / 16 * 16) = [] := List.drop_eq_nil_of_le (by omega)
  unfold murmurHash3
  dsimp only
  rw [hdrop]
  rfl

/-- A byte that is not NUL. -/
def nonzero (c : Fin 255) : Byte := BitVec.ofNat 8 (c + 1)

theorem nonzero_toNat (c : Fin 255) : (nonzero c).toNat = c + 1 := by
  rw [nonzero, BitVec.toNat_ofNat, Nat.mod_eq_of_lt (by omega)]

theorem nonzero_injective : Function.Injective nonzero := by
  intro c d h
  have hto := congrArg BitVec.toNat h
  rw [nonzero_toNat, nonzero_toNat] at hto
  exact Fin.ext (by omega)

/-- Eight bytes that are not NUL. -/
def eight (e : Fin 8 → Fin 255) : List Byte := List.ofFn fun i => nonzero (e i)

theorem eight_length (e : Fin 8 → Fin 255) : (eight e).length = 8 := List.length_ofFn

theorem nul_eight (e : Fin 8 → Fin 255) : 0 ∉ eight e := by
  intro h
  obtain ⟨i, hi⟩ := List.mem_ofFn.1 h
  have hto := congrArg BitVec.toNat hi
  rw [nonzero_toNat] at hto
  exact absurd hto (Nat.succ_ne_zero _)

theorem word_eight_injective : Function.Injective fun e => word (eight e) := by
  intro e f h
  have heq := word_injective (by rw [eight_length, eight_length]) (by rw [eight_length]) h
  funext i
  exact nonzero_injective (congrFun (List.ofFn_injective heq) i)

/-- No hash is that of all the ways to go on with a block. -/
theorem exists_hash_ne {data : List Byte} {n : Nat} (hdata : data.length = 16 * n) (seed : BitVec 32) (hash : Word64) :
    ∃ e f, (murmurHash3 (data ++ (eight e ++ eight f)) seed).1 ≠ hash := by
  by_contra hall
  push Not at hall
  let state : (Fin 8 → Fin 255) × (Fin 8 → Fin 255) → Word64 × Word64 := fun p =>
    stir (BitVec.ofNat 64 (16 * (n + 1))) (absorb (rounds data seed) (word (eight p.1), word (eight p.2)))
  have hstate : Function.Injective state := by
    rintro ⟨e, f⟩ ⟨e', f'⟩ heq
    obtain ⟨he, hf⟩ := Prod.mk.inj (absorb_injective _ (stir_injective _ heq))
    have he' : e = e' := word_eight_injective he
    have hf' : f = f' := word_eight_injective hf
    rw [he', hf']
  have hhash : ∀ p, fmix64 (state p).1 + fmix64 (state p).2 = hash := by
    intro p
    have hlength : (data ++ (eight p.1 ++ eight p.2)).length = 16 * (n + 1) := by
      simp only [List.length_append, eight_length]
      omega
    rw [← hall p.1 p.2, murmurHash3_blocks hlength, hlength, rounds_block hdata (eight_length _) (eight_length _)]
  -- the hash and the first word give the second
  have hfirst : Function.Injective fun p => (state p).1.toFin := by
    intro p q hpq
    have h₁ : (state p).1 = (state q).1 := BitVec.toFin_inj.1 hpq
    have h₂ : (state p).2 = (state q).2 := by
      have hsum := (hhash p).trans (hhash q).symm
      rw [h₁] at hsum
      exact fmix64_injective (add_left_cancel hsum)
    exact hstate (Prod.ext h₁ h₂)
  have hcard := Fintype.card_le_of_injective _ hfirst
  simp only [Fintype.card_prod, Fintype.card_fun, Fintype.card_fin] at hcard
  exact absurd hcard (by decide)

end Murmur3

/-! ## Keys -/

/-- A key hashes like all keys that are equal to it exactly if it is shorter
than what `ikv_equal` looks at. -/
theorem equal_hash_iff (a : Key) : (∀ b, 0 ∈ b → ∀ size, equal a b = true → hash64 a size = hash64 b size) ↔
    (cstring a).length < maxKeysize := by
  constructor
  · intro h
    by_contra hlong
    have hstart : ((cstring a).take maxKeysize).length = 16 * 8 := by
      rw [List.length_take, Nat.min_eq_left (Nat.not_lt.1 hlong)]
      rfl
    obtain ⟨e, f, hne⟩ := Murmur3.exists_hash_ne hstart 0 (Murmur3.murmurHash3 (cstring a) 0).1
    have hnul : 0 ∉ (cstring a).take maxKeysize ++ (Murmur3.eight e ++ Murmur3.eight f) := by
      intro hmem
      rcases List.mem_append.1 hmem with hmem | hmem
      · exact nul_cstring a (List.mem_of_mem_take hmem)
      · rcases List.mem_append.1 hmem with hmem | hmem
        · exact Murmur3.nul_eight e hmem
        · exact Murmur3.nul_eight f hmem
    have hstring := cstring_terminated hnul []
    have hequal : equal a ((cstring a).take maxKeysize ++ (Murmur3.eight e ++ Murmur3.eight f) ++ [0]) = true := by
      rw [equal_iff, hstring, List.take_append_of_le_length (by rw [hstart]; decide), List.take_take, Nat.min_self]
    have hhash := h _ (List.mem_append_right _ (List.mem_singleton_self 0)) 0 hequal
    rw [hash64, hash64, hstring] at hhash
    exact hne (BitVec.eq_of_toNat_eq hhash).symm
  · intro hshort b _ size heq
    have htake := equal_iff.1 heq
    rw [List.take_of_length_le (Nat.le_of_lt hshort)] at htake
    -- what is taken of the other key is all of it
    have hle : (cstring b).length ≤ maxKeysize := by
      have hlength := congrArg List.length htake
      rw [List.length_take] at hlength
      omega
    rw [List.take_of_length_le hle] at htake
    rw [hash64, hash64, htake]

/-- 128 times "a", then "b" or "c". -/
theorem equal_not_hash : ¬ ∀ a b : Key, 0 ∈ a → 0 ∈ b → ∀ size, equal a b = true → hash64 a size = hash64 b size := by
  intro h
  have hhash := h (List.replicate 128 97 ++ [98, 0]) (List.replicate 128 97 ++ [99, 0]) (by simp) (by simp) 0
    (by decide +kernel)
  exact absurd hhash (by decide +kernel)

end SphSc.Ikv

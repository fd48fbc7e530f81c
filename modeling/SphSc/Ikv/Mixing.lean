import SphSc.Ikv.Collisions
import Mathlib.SetTheory.Cardinal.Finite
/-!
# One block of a key decides its hash

The rounds of `MurmurHash3_x64_128` lose nothing, neither of the words of a block
nor of the state. Keys that differ in one block only have different hashes of
128 bits, and a block of 16 bytes can be chosen to give any hash.
-/
open Exec Words

namespace SphSc.Ikv.Murmur3

/-- The bytes of block `i`; the last one may be shorter. -/
def chunk (data : List Byte) (i : Nat) : List Byte := (data.drop (16 * i)).take 16

/-- The two words of a block. -/
def pair (block : List Byte) : Word64 × Word64 := (word (block.take 8), word (block.drop 8))

/-- What is done with the state after the length has gone in. -/
def settle (h : Word64 × Word64) : Word64 × Word64 :=
  let h1 := fmix64 h.1 + fmix64 h.2
  (h1, fmix64 h.2 + h1)

variable {x y : List Byte} {i n : Nat}

theorem getblocks_eq (data : List Byte) (i : Nat) :
    (getblock data (i * 2 + 0), getblock data (i * 2 + 1)) = pair (chunk data i) := by
  have hfirst : getblock data (i * 2 + 0) = word ((chunk data i).take 8) := by
    rw [getblock, chunk, List.take_take, show 8 * (i * 2 + 0) = 16 * i by omega]
    rfl
  have hsecond : getblock data (i * 2 + 1) = word ((chunk data i).drop 8) := by
    rw [getblock, chunk, List.drop_take, List.drop_drop, show 8 * (i * 2 + 1) = 16 * i + 8 by omega]
  rw [hfirst, hsecond, pair]

theorem length_chunk (data : List Byte) (i : Nat) : (chunk data i).length = min 16 (data.length - 16 * i) := by
  rw [chunk, List.length_take, List.length_drop]

theorem murmurHash3_eq (data : List Byte) (seed : BitVec 32) :
    murmurHash3 data seed =
      settle (stir (BitVec.ofNat 64 data.length) (tail (chunk data (data.length / 16)) (rounds data seed))) := by
  have hlast : data.drop (data.length / 16 * 16) = chunk data (data.length / 16) := by
    have hmod := Nat.div_add_mod data.length 16
    have hlt := Nat.mod_lt data.length (show 0 < 16 by omega)
    rw [chunk, Nat.mul_comm, List.take_of_length_le]
    rw [List.length_drop]
    omega
  rw [← hlast]
  rfl

/-! ## Nothing is lost -/

theorem settle_injective : Function.Injective settle := by
  rintro ⟨a₁, a₂⟩ ⟨b₁, b₂⟩ heq
  obtain ⟨hfst, hsnd⟩ := Prod.mk.inj heq
  rw [hfst] at hsnd
  have h₂ : a₂ = b₂ := fmix64_injective (add_right_cancel hsnd)
  subst h₂
  have h₁ : a₁ = b₁ := fmix64_injective (add_right_cancel hfst)
  rw [h₁]

theorem pair_injective (hlength : x.length = y.length) (hle : x.length ≤ 16) (h : pair x = pair y) : x = y := by
  obtain ⟨hfst, hsnd⟩ := Prod.mk.inj h
  have htake : x.take 8 = y.take 8 :=
    word_injective (by rw [List.length_take, List.length_take, hlength]) (by rw [List.length_take]; omega) hfst
  have hdrop : x.drop 8 = y.drop 8 :=
    word_injective (by rw [List.length_drop, List.length_drop, hlength]) (by rw [List.length_drop]; omega) hsnd
  rw [← List.take_append_drop 8 x, htake, hdrop, List.take_append_drop]

/-- A round loses nothing of the state. -/
theorem absorb_state_injective (k : Word64 × Word64) : Function.Injective fun h => absorb h k := by
  have hfive : ∀ {x y d : Word64}, x * 5 + d = y * 5 + d → x = y := fun {x y d} hxy =>
    mul_injective 5 0xcccccccccccccccd (by decide) (add_right_cancel hxy)
  rintro ⟨a₁, a₂⟩ ⟨b₁, b₂⟩ heq
  obtain ⟨hfst, hsnd⟩ := Prod.mk.inj heq
  rw [hfst] at hsnd
  have h₂ : a₂ = b₂ :=
    (BitVec.xor_left_inj _).1 (rotl64_injective (show 31 < 64 by omega) (add_right_cancel (hfive hsnd)))
  subst h₂
  have h₁ : a₁ = b₁ :=
    (BitVec.xor_left_inj _).1 (rotl64_injective (show 27 < 64 by omega) (add_right_cancel (hfive hfst)))
  rw [h₁]

theorem tail_state_injective (left : List Byte) : Function.Injective (tail left) := by
  rintro ⟨a₁, a₂⟩ ⟨b₁, b₂⟩ heq
  obtain ⟨hfst, hsnd⟩ := Prod.mk.inj heq
  have h₁ : a₁ = b₁ := by
    split at hfst
    · exact (BitVec.xor_left_inj _).1 hfst
    · exact hfst
  have h₂ : a₂ = b₂ := by
    split at hsnd
    · exact (BitVec.xor_left_inj _).1 hsnd
    · exact hsnd
  rw [h₁, h₂]

/-- Nor does the tail lose anything of the bytes that are left. -/
theorem tail_injective (hlength : x.length = y.length) (hle : x.length ≤ 16) {h : Word64 × Word64}
    (htail : tail x h = tail y h) : x = y := by
  obtain ⟨hfst, hsnd⟩ := Prod.mk.inj htail
  rw [← hlength] at hfst hsnd
  refine pair_injective hlength hle (Prod.ext ?_ ?_)
  · by_cases hpos : 1 ≤ x.length
    · rw [if_pos hpos, if_pos hpos] at hfst
      exact mix1_injective ((BitVec.xor_right_inj _).1 hfst)
    · have hx : x = [] := List.eq_nil_of_length_eq_zero (by omega)
      have hy : y = [] := List.eq_nil_of_length_eq_zero (by omega)
      rw [hx, hy]
  · by_cases hlong : 9 ≤ x.length
    · rw [if_pos hlong, if_pos hlong] at hsnd
      exact mix2_injective ((BitVec.xor_right_inj _).1 hsnd)
    · have hx : x.drop 8 = [] := List.drop_eq_nil_of_le (by omega)
      have hy : y.drop 8 = [] := List.drop_eq_nil_of_le (by omega)
      simp only [pair, hx, hy]

/-! ## Blocks that differ -/

/-- The state after the first `n` blocks. -/
def after (data : List Byte) (seed : BitVec 32) (n : Nat) : Word64 × Word64 :=
  (List.range n).foldl (round data) (seed.setWidth 64, seed.setWidth 64)

theorem after_succ (data : List Byte) (seed : BitVec 32) (n : Nat) :
    after data seed (n + 1) = absorb (after data seed n) (pair (chunk data n)) := by
  have hround : after data seed (n + 1) = round data (after data seed n) n := by
    unfold after
    rw [List.range_succ, List.foldl_append, List.foldl_cons, List.foldl_nil]
  rw [hround, round_eq, getblocks_eq]

/-- Blocks that are the same before `n` give the same state. -/
theorem after_congr (hsame : ∀ j < n, chunk x j = chunk y j) (seed : BitVec 32) : after x seed n = after y seed n := by
  induction n with
  | zero => simp only [after, List.range_zero, List.foldl_nil]
  | succ n ih => rw [after_succ, after_succ, ih fun j hj => hsame j (by omega), hsame n (by omega)]

/-- States that differ after block `i` differ after all that follow. -/
theorem after_ne (hlength : x.length = y.length) (hne : chunk x i ≠ chunk y i) (hsame : ∀ j ≠ i, chunk x j = chunk y j)
    (seed : BitVec 32) (hn : i < n) : after x seed n ≠ after y seed n := by
  induction n with
  | zero => omega
  | succ n ih =>
    rw [after_succ, after_succ]
    rcases Nat.lt_or_eq_of_le (Nat.le_of_lt_succ hn) with hlt | rfl
    · rw [hsame n (by omega)]
      exact fun heq => ih hlt (absorb_state_injective _ heq)
    · rw [after_congr (fun j hj => hsame j (by omega)) seed]
      intro heq
      have hchunks : (chunk x i).length = (chunk y i).length := by rw [length_chunk, length_chunk, hlength]
      exact hne (pair_injective hchunks (by rw [length_chunk]; omega) (absorb_injective _ heq))

/-- Data of one length that differs in one block only. -/
theorem hash_ne (hlength : x.length = y.length) (hne : chunk x i ≠ chunk y i) (hsame : ∀ j ≠ i, chunk x j = chunk y j)
    (seed : BitVec 32) : murmurHash3 x seed ≠ murmurHash3 y seed := by
  intro heq
  rw [murmurHash3_eq, murmurHash3_eq, ← hlength] at heq
  have htail := stir_injective _ (settle_injective heq)
  have hafter : ∀ data : List Byte, rounds data seed = after data seed (data.length / 16) := fun _ => rfl
  rw [hafter, hafter, ← hlength] at htail
  have hchunks : (chunk x i).length = (chunk y i).length := by rw [length_chunk, length_chunk, hlength]
  rcases Nat.lt_trichotomy i (x.length / 16) with hlt | rfl | hgt
  · -- the tail is the same, on states that differ
    rw [hsame _ (by omega)] at htail
    exact after_ne hlength hne hsame seed hlt (tail_state_injective _ htail)
  · -- the tail differs, on the same state
    rw [after_congr (fun j hj => hsame j (by omega)) seed] at htail
    exact hne (tail_injective hchunks (by rw [length_chunk]; omega) htail)
  · -- there is no such block
    have hx : (chunk x i).length = 0 := by
      rw [length_chunk]
      omega
    have hy : (chunk y i).length = 0 := hchunks ▸ hx
    exact hne (by rw [List.eq_nil_of_length_eq_zero hx, List.eq_nil_of_length_eq_zero hy])

/-! ## Choosing a block -/

theorem chunk_append_left {before : List Byte} (hbefore : before.length = 16 * n) (rest : List Byte) {j : Nat}
    (hj : j < n) : chunk (before ++ rest) j = chunk before j := by
  rw [chunk, chunk, List.drop_append_of_le_length (by omega),
    List.take_append_of_le_length (by rw [List.length_drop]; omega)]

theorem chunk_append_right {before : List Byte} (hbefore : before.length = 16 * n) (rest : List Byte) {j : Nat}
    (hj : n ≤ j) : chunk (before ++ rest) j = chunk rest (j - n) := by
  rw [chunk, chunk, List.drop_append, List.drop_eq_nil_of_le (by omega), List.nil_append, hbefore, ← Nat.mul_sub]

/-- Data that differs only in a block. -/
theorem block_ne {before u v rest : List Byte} (hbefore : before.length = 16 * n) (hlength : u.length = v.length)
    (hu : u.length = 16 ∨ u.length ≤ 16 ∧ rest = []) (hne : u ≠ v) (seed : BitVec 32) :
    murmurHash3 (before ++ (u ++ rest)) seed ≠ murmurHash3 (before ++ (v ++ rest)) seed := by
  have hfirst : ∀ w : List Byte, w.length = u.length → chunk (w ++ rest) 0 = w := by
    intro w hw
    rcases hu with hu | ⟨hle, rfl⟩
    · rw [chunk, List.drop_zero, ← hu, ← hw, List.take_left]
    · rw [chunk, List.drop_zero, List.append_nil, List.take_of_length_le (by omega)]
  have hlater : ∀ w : List Byte, w.length = u.length → ∀ k ≠ 0, chunk (w ++ rest) k = chunk rest (k - 1) := by
    intro w hw k hk
    rcases hu with hu | ⟨hle, rfl⟩
    · exact chunk_append_right (by omega) rest (by omega)
    · rw [List.append_nil, chunk, chunk, List.drop_eq_nil_of_le (by omega), List.drop_nil]
  refine @hash_ne _ _ n ?_ ?_ ?_ seed
  · simp only [List.length_append, hlength]
  · rw [chunk_append_right hbefore _ (Nat.le_refl n), chunk_append_right hbefore _ (Nat.le_refl n), Nat.sub_self,
      hfirst u rfl, hfirst v hlength.symm]
    exact hne
  · intro j hj
    rcases Nat.lt_or_ge j n with hlt | hge
    · rw [chunk_append_left hbefore _ hlt, chunk_append_left hbefore _ hlt]
    · rw [chunk_append_right hbefore _ hge, chunk_append_right hbefore _ hge, hlater u rfl _ (by omega),
        hlater v hlength.symm _ (by omega)]

theorem card_block : Nat.card (Fin 16 → Byte) = Nat.card (Word64 × Word64) := by
  have hcard : ∀ w, Nat.card (BitVec w) = 2 ^ w := fun w => by
    rw [Nat.card_congr BitVec.equivFin.toEquiv, Nat.card_fin]
  rw [Nat.card_fun, Nat.card_prod, hcard, hcard, Nat.card_fin]
  rfl

/-- With the bytes before and after it given, a block of 16 bytes gives every hash of
128 bits in exactly one way. The bytes of a last block that is shorter give no
hash in two ways. -/
theorem murmurHash3_block {before : List Byte} (hbefore : 16 ∣ before.length) (seed : BitVec 32) :
    (∀ rest, Function.Bijective fun u : Fin 16 → Byte => murmurHash3 (before ++ (List.ofFn u ++ rest)) seed) ∧
      ∀ n < 16, Function.Injective fun u : Fin n → Byte => murmurHash3 (before ++ List.ofFn u) seed := by
  obtain ⟨m, hm⟩ := hbefore
  have hinjective : ∀ n rest, n = 16 ∨ n ≤ 16 ∧ rest = [] →
      Function.Injective fun u : Fin n → Byte => murmurHash3 (before ++ (List.ofFn u ++ rest)) seed := by
    intro n rest hn u v huv
    by_contra hne
    refine block_ne hm ?_ ?_ ?_ seed huv
    · rw [List.length_ofFn, List.length_ofFn]
    · rwa [List.length_ofFn]
    · exact fun h => hne (List.ofFn_injective h)
  refine ⟨fun rest => ?_, fun n hn => ?_⟩
  · exact (hinjective 16 rest (.inl rfl)).bijective_of_nat_card_le card_block.ge
  · simpa only [List.append_nil] using hinjective n [] (.inr ⟨by omega, rfl⟩)

/-- The second block of a key of `ikv`, which hashes with the seed 0. -/
theorem murmurHash3_block_second :
    (∀ rest, Function.Bijective fun u : Fin 16 → Byte =>
      murmurHash3 (List.replicate 16 97 ++ (List.ofFn u ++ rest)) 0) ∧
      ∀ n < 16, Function.Injective fun u : Fin n → Byte => murmurHash3 (List.replicate 16 97 ++ List.ofFn u) 0 :=
  murmurHash3_block ⟨1, List.length_replicate⟩ 0

end SphSc.Ikv.Murmur3

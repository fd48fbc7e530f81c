import Mathlib.Data.Rat.Cast.Order
import Mathlib.Dynamics.PeriodicPts.Lemmas
import Mathlib.Tactic.NormNum
import Mathlib.Tactic.Ring
import SphSc.Random.Bounded
import SphSc.Random.State
/-!
# Equidistribution

Four draws in a row determine the state, and can be any four words. So every
word is drawn from equally many states, at every place of the series, and so is
every rational that a word is cut to.
-/
open Exec Words

namespace SphSc.Random

/-! ## Four draws determine the state -/

/-- What a draw makes of the second word. -/
theorem scrambled_injective : Function.Injective fun x : Word => 9 * rotl (5 * x) 7 := by
  intro x y h
  simp only [BitVec.mul_comm (9 : Word), BitVec.mul_comm (5 : Word)] at h
  have h₁ := mul_injective (9 : Word) 10248191152060862009 (by decide) h
  have h₂ := rotl_injective (show 7 < 64 by omega) h₁
  exact mul_injective (5 : Word) 14757395258967641293 (by decide) h₂

theorem s1_eq_of_drawn {s t : State} {n : Nat} (h : drawn s n = drawn t n) : (after s n).s1 = (after t n).s1 :=
  scrambled_injective h

/-- Two seconds words in a row give this sum, and with it the third word. -/
theorem sum_eq_of_s1 {s t : State} (h₀ : s.s1 = t.s1) (h₁ : (step s).s1 = (step t).s1) :
    s.s2 ^^^ s.s0 = t.s2 ^^^ t.s0 ∧ (step s).s2 = (step t).s2 := by
  have hsum : s.s2 ^^^ s.s0 = t.s2 ^^^ t.s0 := by
    have h : s.s1 ^^^ (s.s2 ^^^ s.s0) = t.s1 ^^^ (t.s2 ^^^ t.s0) := h₁
    rwa [h₀, BitVec.xor_right_inj] at h
  refine ⟨hsum, ?_⟩
  show (s.s2 ^^^ s.s0) ^^^ s.s1 <<< 17 = (t.s2 ^^^ t.s0) ^^^ t.s1 <<< 17
  rw [hsum, h₀]

/-- From three draws after a third word that is known. -/
theorem eq_of_s1 {s t : State} (h₀ : s.s1 = t.s1) (h₁ : (step s).s1 = (step t).s1)
    (h₂ : (step (step s)).s1 = (step (step t)).s1) (hs2 : s.s2 = t.s2) : s = t := by
  obtain ⟨hsum₀, hs2'⟩ := sum_eq_of_s1 h₀ h₁
  obtain ⟨hsum₁, -⟩ := sum_eq_of_s1 h₁ h₂
  have hs0 : s.s0 = t.s0 := by
    rwa [hs2, BitVec.xor_right_inj] at hsum₀
  have hs0' : s.s0 ^^^ (s.s3 ^^^ s.s1) = t.s0 ^^^ (t.s3 ^^^ t.s1) := by
    rwa [hs2', BitVec.xor_right_inj] at hsum₁
  have hs3 : s.s3 = t.s3 := by
    rwa [hs0, h₀, BitVec.xor_right_inj, BitVec.xor_left_inj] at hs0'
  cases s
  cases t
  simp_all

/-- Four draws in a row. -/
def four (s : State) : Word × Word × Word × Word := (drawn s 0, drawn s 1, drawn s 2, drawn s 3)

theorem four_injective : Function.Injective four := by
  intro s t h
  simp only [four, Prod.mk.injEq] at h
  obtain ⟨h₀, h₁, h₂, h₃⟩ := h
  have hs1 := s1_eq_of_drawn h₁
  have hsum := sum_eq_of_s1 (s1_eq_of_drawn h₀) hs1
  exact step_injective (eq_of_s1 (s := step s) (t := step t) hs1 (s1_eq_of_drawn h₂) (s1_eq_of_drawn h₃) hsum.2)

/-- A state is its four words. -/
def wordsEquiv : State ≃ Word × Word × Word × Word where
  toFun s := (s.s0, s.s1, s.s2, s.s3)
  invFun q := ⟨q.1, q.2.1, q.2.2.1, q.2.2.2⟩
  left_inv _ := rfl
  right_inv _ := rfl

theorem bijective_of_injective {f : State → Word × Word × Word × Word} (h : Function.Injective f) : Function.Bijective f :=
  ⟨h, (Finite.injective_iff_surjective_of_equiv wordsEquiv).1 h⟩

theorem after_bijective (n : Nat) : Function.Bijective fun s => after s n := step_bijective.iterate n

theorem after_add (s : State) (n k : Nat) : after s (n + k) = after (after s n) k := by
  unfold after
  rw [Nat.add_comm, Function.iterate_add_apply]

/-- Four draws in a row, from any place of the series on. -/
theorem four_after_bijective (n : Nat) : Function.Bijective fun s => four (after s n) :=
  (bijective_of_injective four_injective).comp (after_bijective n)

/-! ## Arrays of draws -/

theorem u64Array_eq (size : Nat) (s : State) : u64Array size s = .ok ((List.range size).map (drawn s), after s size) := by
  induction size generalizing s with
  | zero => rfl
  | succ size ih =>
    have hrest := ih (u64 s).2
    unfold u64Array at hrest ⊢
    rw [array, ok_bind]
    dsimp only
    rw [hrest, List.range_succ_eq_map, List.map_cons, List.map_map, after_succ]
    refine congrArg (fun out => Except.ok (drawn s 0 :: out, after (u64 s).2 size)) (List.map_congr_left fun i _ => ?_)
    exact (drawn_succ s i).symm

theorem four_after (s : State) (n : Nat) :
    four (after s n) = (drawn s n, drawn s (n + 1), drawn s (n + 2), drawn s (n + 3)) := by
  simp only [four, drawn, after_add]
  rfl

/-- The last four words of an array can be any four, from exactly one state. -/
theorem u64Array_equidistributed (n : Nat) (w₀ w₁ w₂ w₃ : Word) :
    ∃! s, ∃ out s', u64Array (n + 4) s = .ok (out, s') ∧ out.drop n = [w₀, w₁, w₂, w₃] := by
  have hlast : ∀ s, (∃ out s', u64Array (n + 4) s = .ok (out, s') ∧ out.drop n = [w₀, w₁, w₂, w₃]) ↔
      four (after s n) = (w₀, w₁, w₂, w₃) := by
    intro s
    have hdrop : ((List.range (n + 4)).map (drawn s)).drop n =
        [drawn s n, drawn s (n + 1), drawn s (n + 2), drawn s (n + 3)] := by
      rw [← List.map_drop, List.range_eq_range', List.drop_range']
      simp [List.range']
    simp only [u64Array_eq, four_after, Except.ok.injEq, Prod.mk.injEq]
    constructor
    · rintro ⟨out, s', ⟨rfl, -⟩, hout⟩
      simpa [hdrop] using hout
    · intro h
      exact ⟨_, _, ⟨rfl, rfl⟩, by simpa [hdrop] using h⟩
  obtain ⟨s, hs, honly⟩ := (four_after_bijective n).existsUnique (w₀, w₁, w₂, w₃)
  exact ⟨s, (hlast s).2 hs, fun t ht => honly t ((hlast t).1 ht)⟩

/-! ## Counting states -/

/-- The states that give one of some words, where each word comes from a state
with any three others. -/
theorem card_states {f : State → Word × Word × Word × Word} (hf : Function.Bijective f) (p : Word → Prop) :
    Nat.card {s // p (f s).1} = Nat.card {w // p w} * 2 ^ 192 := by
  have hcongr : Nat.card {s // p (f s).1} = Nat.card {q : Word × Word × Word × Word // p q.1} :=
    Nat.card_congr (Equiv.subtypeEquiv (Equiv.ofBijective f hf) fun _ => Iff.rfl)
  have hword : Nat.card Word = 2 ^ 64 := by rw [Nat.card_congr BitVec.equivFin.toEquiv, Nat.card_fin]
  have hsplit := Nat.card_congr (Equiv.prodSubtypeFstEquivSubtypeProd (β := Word × Word × Word) (p := p))
  rw [hcongr, hsplit, Nat.card_prod, Nat.card_prod, Nat.card_prod, hword]
  norm_num

/-- Each value of the upper 53 bits is that of as many words. -/
theorem card_upper {k : Nat} (hk : k < 2 ^ 53) : Nat.card {w : Word // (w >>> 11).toNat = k} = 2 ^ 11 := by
  have hscaled := card_scaled (w := 64) (show 0 < 2 ^ 53 by norm_num) hk
  have hfree : (2 : Nat) ^ 64 % 2 ^ 53 = 0 := by norm_num
  have hquot : (2 : Nat) ^ 64 / 2 ^ 53 = 2 ^ 11 := by norm_num
  rw [hfree, hquot] at hscaled
  rw [← hscaled]
  refine Nat.card_congr (Equiv.subtypeEquivRight fun w => ?_)
  rw [BitVec.toNat_ushiftRight, Nat.shiftRight_eq_div_pow, show (2 : Nat) ^ 64 = 2 ^ 11 * 2 ^ 53 by norm_num,
    Nat.mul_div_mul_right _ _ (by norm_num)]
  simp

/-! ## Rationals -/

/-- `sph_random_f64_from_u64`, without rounding. -/
def f64FromU64 (a : Word) : ℚ := (a >>> 11).toNat * (1 / 2 ^ 53)

/-- A draw is one of 2 ^ 53 values, and each comes from as many states. -/
def EquallyLikely (draw : State → ℚ) (value : Nat → ℚ) : Prop :=
  (∀ s, ∃ k < 2 ^ 53, draw s = value k) ∧ ∀ k < 2 ^ 53, Nat.card {s // draw s = value k} = 2 ^ 203

theorem equallyLikely_of {f : State → Word × Word × Word × Word} (hf : Function.Bijective f) {draw : State → ℚ}
    {value : Nat → ℚ} (hvalue : Function.Injective value) (h : ∀ s, draw s = value ((f s).1 >>> 11).toNat) :
    EquallyLikely draw value := by
  constructor
  · intro s
    refine ⟨_, ?_, h s⟩
    rw [BitVec.toNat_ushiftRight, Nat.shiftRight_eq_div_pow, Nat.div_lt_iff_lt_mul (by norm_num)]
    exact Nat.lt_of_lt_of_le (f s).1.isLt (by norm_num)
  · intro k hk
    have hcongr : Nat.card {s // draw s = value k} = Nat.card {s // ((f s).1 >>> 11).toNat = k} :=
      Nat.card_congr (Equiv.subtypeEquivRight fun s => by rw [h, hvalue.eq_iff])
    rw [hcongr, card_states hf fun w => (w >>> 11).toNat = k, card_upper hk]
    norm_num

/-- What `sph_random_f64_bounded` scales, with the words it leaves out of the sum. -/
def sums (s : State) : Word × Word × Word × Word := (s.s0 + s.s3, s.s1, s.s2, s.s3)

theorem sums_injective : Function.Injective sums := by
  rintro ⟨a₀, a₁, a₂, a₃⟩ ⟨b₀, b₁, b₂, b₃⟩ h
  simp only [sums, Prod.mk.injEq] at h
  obtain ⟨h₀, rfl, rfl, rfl⟩ := h
  rw [BitVec.add_left_inj] at h₀
  rw [h₀]

/-- Without rounding, all dyadic rationals k / 2 ^ 53 are equally likely, in any
draw of a series. So are those from -1 to 1, 1 left out. -/
theorem rationals_equally_likely (n : Nat) :
    EquallyLikely (fun s => (f64 f64FromU64 (after s n)).1) (fun k => k / 2 ^ 53) ∧
    EquallyLikely (fun s => (f640to1 f64FromU64 (after s n)).1) (fun k => k / 2 ^ 53) ∧
    EquallyLikely (fun s => (f641to1 f64FromU64 (after s n)).1) (fun k => k / 2 ^ 52 - 1) := by
  have hsums : Function.Bijective fun s => sums (after s n) :=
    (bijective_of_injective sums_injective).comp (after_bijective n)
  have hdyadic : Function.Injective fun k : Nat => (k : ℚ) / 2 ^ 53 := by
    intro j k h
    have h53 : (2 : ℚ) ^ 53 ≠ 0 := by norm_num
    exact_mod_cast (div_left_inj' h53).1 h
  refine ⟨equallyLikely_of (four_after_bijective n) hdyadic fun s => ?_, equallyLikely_of hsums hdyadic fun s => ?_,
    equallyLikely_of hsums (fun j k h => ?_) fun s => ?_⟩
  · show f64FromU64 (drawn s n) = _
    rw [f64FromU64, mul_one_div]
    rfl
  · show 1 * f64FromU64 (sums (after s n)).1 = _
    rw [f64FromU64, mul_one_div, one_mul]
  · have h52 : (2 : ℚ) ^ 52 ≠ 0 := by norm_num
    exact_mod_cast (div_left_inj' h52).1 (sub_left_inj.1 h)
  · show 2 * f64FromU64 (sums (after s n)).1 - 1 = _
    rw [f64FromU64]
    ring

/-! ## Seeds -/

/-- The sums with the constant that the words are made from. -/
theorem nodup_seeds (z : Word) :
    [z, z + 11400714819323198485, z + 11400714819323198485 + 11400714819323198485,
      z + 11400714819323198485 + 11400714819323198485 + 11400714819323198485].Nodup := by
  simp only [List.nodup_cons, List.mem_cons, List.not_mem_nil, or_false, not_or, List.nodup_nil, not_false_eq_true,
    and_true]
  refine ⟨⟨?_, ?_, ?_⟩, ⟨?_, ?_⟩, ?_⟩ <;> bv_omega

theorem nodup_stateNew (seed : Word) :
    [(stateNew seed).s0, (stateNew seed).s1, (stateNew seed).s2, (stateNew seed).s3].Nodup :=
  (nodup_seeds (seed + 11400714819323198485)).map mix_injective

theorem first_draw_bijective : Function.Bijective fun seed => drawn (stateNew seed) 0 := by
  refine Finite.injective_iff_bijective.1 fun x y h => ?_
  have hs1 : (stateNew x).s1 = (stateNew y).s1 := s1_eq_of_drawn h
  have hseed := mix_injective hs1
  rwa [BitVec.add_left_inj, BitVec.add_left_inj] at hseed

/-- The series begins again, and has no part before that. -/
theorem series_repeats (s : State) : ∃ n, 0 < n ∧ ∀ i, drawn s (i + n) = drawn s i := by
  obtain ⟨n, hpos, hn⟩ := Function.Injective.mem_periodicPts step_injective s
  refine ⟨n, hpos, fun i => ?_⟩
  have hafter : after s n = s := hn
  rw [drawn, Nat.add_comm, after_add, hafter, drawn]

/-- What a seed gives: four different words, a first draw of its own among all
words, and a series that begins again from the start. -/
theorem seeded_series :
    (∀ seed, [(stateNew seed).s0, (stateNew seed).s1, (stateNew seed).s2, (stateNew seed).s3].Nodup) ∧
    (∀ w : Word, ∃! seed, drawn (stateNew seed) 0 = w) ∧
    ∀ seed, ∃ n, 0 < n ∧ ∀ i, drawn (stateNew seed) (i + n) = drawn (stateNew seed) i :=
  ⟨nodup_stateNew, first_draw_bijective.existsUnique, fun seed => series_repeats (stateNew seed)⟩

end SphSc.Random

import SphSc.Random.Model
/-!
# Bounded draws

`u64Bounded` turns down the draws whose product with the range has a low half
below `2^64 % range`. Those left give every value equally often.
-/
open Exec Words

namespace SphSc.Random

/-- The state after `n` draws. -/
def after (s : State) (n : Nat) : State := (fun s => (u64 s).2)^[n] s

theorem after_succ (s : State) (n : Nat) : after s (n + 1) = after (u64 s).2 n := Function.iterate_succ_apply _ _ _

/-- Draw `n` from now. -/
def drawn (s : State) (n : Nat) : Word := (u64 (after s n)).1

theorem drawn_succ (s : State) (n : Nat) : drawn s (n + 1) = drawn (u64 s).2 n := by
  unfold drawn
  rw [after_succ]

/-- The draw is not turned down. -/
def Accepted (range x : Word) : Prop := 2 ^ 64 % range.toNat ≤ x.toNat * range.toNat % 2 ^ 64

/-- The high half of the product. -/
def scaled (range x : Word) : Word := (product x range >>> 64).setWidth 64

/-! ## The arithmetic -/

theorem product_toNat (x range : Word) : (product x range).toNat = x.toNat * range.toNat := by
  have hx := x.isLt
  have hrange := range.isLt
  have hlt : x.toNat * range.toNat < 2 ^ 128 := by
    calc x.toNat * range.toNat ≤ 2 ^ 64 * range.toNat := Nat.mul_le_mul_right _ hx.le
      _ < 2 ^ 64 * 2 ^ 64 := Nat.mul_lt_mul_of_pos_left hrange (Nat.two_pow_pos 64)
      _ = 2 ^ 128 := by rw [← Nat.pow_add]
  rw [product, BitVec.toNat_mul, BitVec.toNat_setWidth, BitVec.toNat_setWidth,
    Nat.mod_eq_of_lt (show x.toNat < 2 ^ 128 by omega), Nat.mod_eq_of_lt (show range.toNat < 2 ^ 128 by omega),
    Nat.mod_eq_of_lt hlt]

theorem low_toNat (x range : Word) :
    ((product x range).setWidth 64).toNat = x.toNat * range.toNat % 2 ^ 64 := by
  rw [BitVec.toNat_setWidth, product_toNat]

theorem scaled_toNat (range x : Word) : (scaled range x).toNat = x.toNat * range.toNat / 2 ^ 64 := by
  have hlt : x.toNat * range.toNat / 2 ^ 64 < 2 ^ 64 := by
    rw [Nat.div_lt_iff_lt_mul (Nat.two_pow_pos 64), ← product_toNat]
    exact (product x range).isLt
  rw [scaled, BitVec.toNat_setWidth, BitVec.toNat_ushiftRight, product_toNat, Nat.shiftRight_eq_div_pow,
    Nat.mod_eq_of_lt hlt]

theorem scaled_lt {range : Word} (hrange : 0 < range) (x : Word) : scaled range x < range := by
  have hx := x.isLt
  have hpos : 0 < range.toNat := hrange
  rw [BitVec.lt_def, scaled_toNat, Nat.div_lt_iff_lt_mul (Nat.two_pow_pos 64), Nat.mul_comm]
  exact Nat.mul_lt_mul_of_pos_left hx hpos

/-- Each of the three ways leaves the remainder of the division. -/
theorem threshold_toNat {range : Word} (hrange : 0 < range) : (threshold range).toNat = 2 ^ 64 % range.toNat := by
  have hpos : 0 < range.toNat := hrange
  have hlt := range.isLt
  have hneg : (-range).toNat = 2 ^ 64 - range.toNat := by
    rw [BitVec.toNat_neg, Nat.mod_eq_of_lt (by omega)]
  have honce : 2 ^ 64 % range.toNat = (2 ^ 64 - range.toNat) % range.toNat := Nat.mod_eq_sub_mod hlt.le
  simp only [threshold]
  split_ifs with h₁ h₂
  · rw [BitVec.toNat_umod, BitVec.toNat_sub_of_le h₁, hneg, honce]
    exact (Nat.mod_eq_sub_mod (by rw [BitVec.le_def, hneg] at h₁; exact h₁)).symm
  · rw [BitVec.le_def, hneg] at h₁
    rw [BitVec.le_def, BitVec.toNat_sub_of_le (by rw [BitVec.le_def, hneg]; exact h₁), hneg] at h₂
    rw [BitVec.toNat_sub_of_le (by rw [BitVec.le_def, hneg]; exact h₁), hneg, honce, Nat.mod_eq_sub_mod h₁,
      Nat.mod_eq_of_lt (by omega)]
  · rw [BitVec.le_def, hneg] at h₁
    rw [hneg, honce, Nat.mod_eq_of_lt (by omega)]

theorem low_lt_threshold {range : Word} (hrange : 0 < range) (x : Word) :
    (product x range).setWidth 64 < threshold range ↔ ¬ Accepted range x := by
  rw [BitVec.lt_def, low_toNat, threshold_toNat hrange, Accepted, not_le]

/-- The draws for which the threshold is not computed are accepted. -/
theorem accepted_of_le {range : Word} (hrange : 0 < range) {x : Word} (h : ¬ (product x range).setWidth 64 < range) :
    Accepted range x := by
  have hmod := Nat.mod_lt (2 ^ 64) (show 0 < range.toNat from hrange)
  rw [BitVec.lt_def, low_toNat] at h
  unfold Accepted
  omega

/-! ## The draws -/

/-- The loop runs up to the first draw that is accepted. -/
theorem bounded_loop {range : Word} (hrange : 0 < range) (fuel : Nat) (s : State) (m : BitVec 128) (s' : State) :
    loop (boundedRound range (threshold range)) fuel (product (drawn s 0) range, after s 1) = .ok (m, s') ↔
      ∃ n < fuel, (∀ i < n, ¬ Accepted range (drawn s i)) ∧ Accepted range (drawn s n) ∧
        m = product (drawn s n) range ∧ s' = after s (n + 1) := by
  induction fuel generalizing s with
  | zero => simp [loop]
  | succ fuel ih =>
    by_cases hacc : Accepted range (drawn s 0)
    · have hround : boundedRound range (threshold range) (product (drawn s 0) range, after s 1) =
          .ok (.inr (product (drawn s 0) range, after s 1)) := by
        rw [boundedRound, if_neg (by rw [low_lt_threshold hrange]; exact not_not_intro hacc)]
        rfl
      simp only [loop, hround, ok_bind, Except.ok.injEq, Prod.mk.injEq]
      constructor
      · rintro ⟨rfl, rfl⟩
        exact ⟨0, by omega, by simp, hacc, rfl, rfl⟩
      · rintro ⟨n, -, hno, -, rfl, rfl⟩
        cases n with
        | zero => exact ⟨rfl, rfl⟩
        | succ n => exact absurd hacc (hno 0 (by omega))
    · have hround : boundedRound range (threshold range) (product (drawn s 0) range, after s 1) =
          .ok (.inl (product (drawn (u64 s).2 0) range, after (u64 s).2 1)) := by
        rw [boundedRound, if_pos ((low_lt_threshold hrange _).2 hacc)]
        rfl
      simp only [loop, hround, ok_bind]
      rw [ih]
      constructor
      · rintro ⟨n, hn, hno, hyes, hm, hs⟩
        refine ⟨n + 1, by omega, ?_, by rwa [drawn_succ], by rwa [drawn_succ], by rwa [after_succ]⟩
        intro i hi
        cases i with
        | zero => exact hacc
        | succ i =>
          rw [drawn_succ]
          exact hno i (by omega)
      · rintro ⟨n, hn, hno, hyes, hm, hs⟩
        cases n with
        | zero => exact absurd hyes hacc
        | succ n =>
          rw [drawn_succ] at hyes hm
          rw [after_succ] at hs
          refine ⟨n, by omega, ?_, hyes, hm, hs⟩
          intro i hi
          rw [← drawn_succ]
          exact hno (i + 1) (by omega)

/-- What is returned comes from the first draw that is accepted. -/
theorem u64Bounded_eq_ok {range : Word} (hrange : 0 < range) (s : State) (v : Word) (s' : State) :
    (∃ fuel, u64Bounded fuel range s = .ok (v, s')) ↔
      ∃ n, (∀ i < n, ¬ Accepted range (drawn s i)) ∧ Accepted range (drawn s n) ∧
        v = scaled range (drawn s n) ∧ s' = after s (n + 1) := by
  by_cases hl : (product (drawn s 0) range).setWidth 64 < range
  · have hcall : ∀ fuel, u64Bounded fuel range s = (loop (boundedRound range (threshold range)) fuel
        (product (drawn s 0) range, after s 1) >>= fun r => .ok ((r.1 >>> 64).setWidth 64, r.2)) := by
      intro fuel
      exact if_pos hl
    constructor
    · rintro ⟨fuel, hfuel⟩
      rw [hcall] at hfuel
      obtain ⟨⟨m, s₁⟩, hloop, hout⟩ := bind_eq_ok.1 hfuel
      obtain ⟨n, -, hno, hyes, rfl, rfl⟩ := (bounded_loop hrange fuel s m s₁).1 hloop
      cases hout
      exact ⟨n, hno, hyes, rfl, rfl⟩
    · rintro ⟨n, hno, hyes, rfl, rfl⟩
      have hloop := (bounded_loop hrange (n + 1) s _ _).2 ⟨n, by omega, hno, hyes, rfl, rfl⟩
      exact ⟨n + 1, by rw [hcall, hloop]; rfl⟩
  · have hacc := accepted_of_le hrange hl
    have hcall : ∀ fuel, u64Bounded fuel range s = .ok (scaled range (drawn s 0), after s 1) := by
      intro fuel
      exact if_neg hl
    simp only [hcall, exists_const, Except.ok.injEq, Prod.mk.injEq]
    constructor
    · rintro ⟨rfl, rfl⟩
      exact ⟨0, by simp, hacc, rfl, rfl⟩
    · rintro ⟨n, hno, -, rfl, rfl⟩
      cases n with
      | zero => exact ⟨rfl, rfl⟩
      | succ n => exact absurd hacc (hno 0 (by omega))

theorem card_accepted {range k : Word} (hk : k < range) :
    Nat.card {x : Word // Accepted range x ∧ scaled range x = k} = 2 ^ 64 / range.toNat := by
  have hlt : k.toNat < range.toNat := hk
  rw [← card_scaled (show 0 < range.toNat by omega) hlt]
  refine Nat.card_congr (Equiv.subtypeEquivRight fun x => ?_)
  rw [← BitVec.toNat_inj, scaled_toNat]
  exact and_comm

/-- The tests a draw has to pass, of which the first spares the second. -/
theorem accepts_iff {range : Word} (hrange : 0 < range) (x : Word) :
    ¬ ((product x range).setWidth 64 < range ∧ (product x range).setWidth 64 < threshold range) ↔
      Accepted range x := by
  rw [low_lt_threshold hrange, not_and, not_not]
  constructor
  · intro h
    by_cases hl : (product x range).setWidth 64 < range
    · exact h hl
    · exact accepted_of_le hrange hl
  · intro h _
    exact h

/-- Bounded draws are unbiased: what is returned is the scaled value of the first
draw that is accepted, it is in the range, and each value comes from
`2^64 / range` of the accepted draws. -/
theorem u64Bounded_unbiased (range : Word) (hrange : 0 < range) :
    (∀ x, ¬ ((product x range).setWidth 64 < range ∧ (product x range).setWidth 64 < threshold range) ↔
      Accepted range x) ∧
    (∀ s v s', (∃ fuel, u64Bounded fuel range s = .ok (v, s')) ↔
      ∃ n, (∀ i < n, ¬ Accepted range (drawn s i)) ∧ Accepted range (drawn s n) ∧
        v = scaled range (drawn s n) ∧ s' = after s (n + 1)) ∧
    (∀ fuel s v s', u64Bounded fuel range s = .ok (v, s') → v < range) ∧
    ∀ k < range, Nat.card {x : Word // Accepted range x ∧ scaled range x = k} = 2 ^ 64 / range.toNat := by
  refine ⟨accepts_iff hrange, u64Bounded_eq_ok hrange, ?_, fun k hk => card_accepted hk⟩
  intro fuel s v s' h
  obtain ⟨n, -, -, rfl, -⟩ := (u64Bounded_eq_ok hrange s v s').1 ⟨fuel, h⟩
  exact scaled_lt hrange _

/-- `u64Bounded_unbiased` at a range of ten. -/
theorem u64Bounded_unbiased_ten :
    (∀ x, ¬ ((product x 10).setWidth 64 < (10 : Word) ∧ (product x 10).setWidth 64 < threshold 10) ↔ Accepted 10 x) ∧
    (∀ s v s', (∃ fuel, u64Bounded fuel 10 s = .ok (v, s')) ↔
      ∃ n, (∀ i < n, ¬ Accepted 10 (drawn s i)) ∧ Accepted 10 (drawn s n) ∧ v = scaled 10 (drawn s n) ∧
        s' = after s (n + 1)) ∧
    (∀ fuel s v s', u64Bounded fuel 10 s = .ok (v, s') → v < 10) ∧
    ∀ k < (10 : Word), Nat.card {x : Word // Accepted 10 x ∧ scaled 10 x = k} = 2 ^ 64 / (10 : Word).toNat :=
  u64Bounded_unbiased 10 (by decide)

end SphSc.Random

import SphSc.Random.Model
import Mathlib.Logic.Function.Iterate
/-!
# The dead state

From four zero words every draw is the same. No seed gives them, and since a
draw changes the state in a way that can be undone and leaves the zero state
alone, no draws lead there.
-/
open Exec Words

namespace SphSc.Random

/-- Four zero words. -/
def dead : State := ⟨0, 0, 0, 0⟩

/-! ## The seed -/

theorem mix_injective : Function.Injective mix := by
  intro x y h
  have h₁ := xor_ushiftRight_injective (show 0 < 31 by omega) h
  have h₂ := mul_injective 10723151780598845931 3573116690164977347 (by decide) h₁
  have h₃ := xor_ushiftRight_injective (show 0 < 27 by omega) h₂
  have h₄ := mul_injective 13787848793156543929 10871156337175269513 (by decide) h₃
  exact xor_ushiftRight_injective (show 0 < 30 by omega) h₄

theorem mix_zero : mix 0 = 0 := by decide

/-- The seeds of two words cannot both be zero. -/
theorem stateNew_ne_dead (seed : Word) : stateNew seed ≠ dead := by
  intro h
  injection h with h₀ h₁
  have hseed₀ := mix_injective (h₀.trans mix_zero.symm)
  have hseed₁ := mix_injective (h₁.trans mix_zero.symm)
  rw [hseed₀] at hseed₁
  exact absurd hseed₁ (by decide)

/-! ## The step -/

/-- What every draw does to the state. -/
def step (s : State) : State := (u64 s).2

theorem f64Bounded_step {F : Type} [Mul F] (f64FromU64 : Word → F) (range : F) (s : State) :
    (f64Bounded f64FromU64 range s).2 = step s := rfl

theorem step_dead : step dead = dead := by decide

/-- The words before are recovered in the order `s1`, `s3 ^ s1`, `s0`, `s2`. -/
theorem step_injective : Function.Injective step := by
  rintro ⟨a₀, a₁, a₂, a₃⟩ ⟨b₀, b₁, b₂, b₃⟩ h
  injection h with h₀ h₁ h₂ h₃
  simp only at h₀ h₁ h₂ h₃
  have hcancel : ∀ x y z : Word, (x ^^^ y) ^^^ (y ^^^ z) = x ^^^ z := by
    intro x y z
    rw [BitVec.xor_assoc, ← BitVec.xor_assoc y y z, BitVec.xor_self, BitVec.zero_xor]
  have hs1 : a₁ = b₁ := by
    have hxor := congrArg₂ (· ^^^ ·) h₁ h₂
    simp only [hcancel] at hxor
    exact xor_shiftLeft_injective (show 0 < 17 by omega) hxor
  subst hs1
  have hs31 := rotl_injective (show 45 < 64 by omega) h₃
  rw [BitVec.xor_left_inj] at hs31
  subst hs31
  rw [BitVec.xor_left_inj] at h₀
  subst h₀
  rw [BitVec.xor_right_inj, BitVec.xor_left_inj] at h₁
  subst h₁
  rfl

instance : Finite State :=
  Finite.of_injective (fun s : State => (s.s0, s.s1, s.s2, s.s3)) fun a b h => by
    cases a
    cases b
    simp only [Prod.mk.injEq] at h
    obtain ⟨rfl, rfl, rfl, rfl⟩ := h
    rfl

theorem step_bijective : Function.Bijective step := Finite.injective_iff_bijective.1 step_injective

/-! ## The calls -/

/-- From a live state the call leaves a live one, if it returns. -/
def KeepsAlive {α : Type} (draw : State → Exec (α × State)) : Prop :=
  ∀ s a s', s ≠ dead → draw s = .ok (a, s') → s' ≠ dead

theorem step_alive {s : State} (h : s ≠ dead) : step s ≠ dead := by
  intro hdead
  exact h (step_injective (hdead.trans step_dead.symm))

theorem keepsAlive_step {α : Type} (f : State → α × State) (h : ∀ s, (f s).2 = step s) :
    KeepsAlive fun s => .ok (f s) := by
  intro s a s' hs hf
  have hs' : (f s).2 = s' := congrArg Prod.snd (Except.ok.inj hf)
  rw [← hs', h]
  exact step_alive hs

theorem keepsAlive_u64Bounded (fuel : Nat) (range : Word) : KeepsAlive (u64Bounded fuel range) := by
  intro s v s' hs h
  have hfirst : (u64 s).2 ≠ dead := step_alive hs
  by_cases hl : (product (u64 s).1 range).setWidth 64 < range
  · have hcall : u64Bounded fuel range s = (loop (boundedRound range (threshold range)) fuel
        (product (u64 s).1 range, (u64 s).2) >>= fun r => .ok ((r.1 >>> 64).setWidth 64, r.2)) := if_pos hl
    rw [hcall] at h
    obtain ⟨r, hloop, hout⟩ := bind_eq_ok.1 h
    cases hout
    refine loop_inv (fun p => p.2 ≠ dead) (fun r => r.2 ≠ dead) ?_ ?_ hfirst hloop
    · intro p p' hp hround
      unfold boundedRound at hround
      split at hround
      · cases hround
        exact step_alive hp
      · cases hround
    · intro p r hp hround
      unfold boundedRound at hround
      split at hround
      · cases hround
      · cases hround
        exact hp
  · have hcall : u64Bounded fuel range s = .ok (((product (u64 s).1 range >>> 64).setWidth 64), (u64 s).2) := if_neg hl
    rw [hcall] at h
    cases h
    exact hfirst

theorem KeepsAlive.map {α β : Type} {draw : State → Exec (α × State)} (h : KeepsAlive draw) (f : α → β) :
    KeepsAlive fun s => do
      let (a, s) ← draw s
      return (f a, s) := by
  intro s b s' hs hf
  obtain ⟨⟨a, s₁⟩, hdraw, hout⟩ := bind_eq_ok.1 hf
  cases hout
  exact h s a s' hs hdraw

theorem KeepsAlive.array {α : Type} {draw : State → Exec (α × State)} (h : KeepsAlive draw) (size : Nat) :
    KeepsAlive (Random.array draw size) := by
  induction size with
  | zero =>
    intro s out s' hs hf
    cases hf
    exact hs
  | succ size ih =>
    intro s out s' hs hf
    obtain ⟨⟨a, s₁⟩, hdraw, hrest⟩ := bind_eq_ok.1 hf
    obtain ⟨⟨out₁, s₂⟩, harray, hout⟩ := bind_eq_ok.1 hrest
    cases hout
    exact ih s₁ out₁ s' (h s a s₁ hs hdraw) harray

/-- What is left of a call that keeps the state alive. -/
theorem KeepsAlive.run {α : Type} {draw : State → Exec (α × State)} (h : KeepsAlive draw) {s s' : State}
    (hs : s ≠ dead) (hrun : Prod.snd <$> draw s = .ok s') : s' ≠ dead := by
  cases hdraw : draw s with
  | error e =>
    rw [hdraw] at hrun
    cases hrun
  | ok r =>
    rw [hdraw] at hrun
    cases hrun
    exact h s r.1 r.2 hs hdraw

section
variable {F : Type} [Mul F] [Sub F] [OfNat F 1] [OfNat F 2] (f64FromU64 : Word → F)

/-- No call kills the generator. -/
theorem Call.run_alive (fuel : Nat) (call : Call F) {s s' : State} (hs : s ≠ dead)
    (h : call.run f64FromU64 fuel s = .ok s') : s' ≠ dead := by
  have hone : ∀ {α : Type} (f : State → α × State), (∀ s, (f s).2 = step s) → (.ok (f s).2 : Exec State) = .ok s' →
      s' ≠ dead := by
    intro α f hf h
    exact (keepsAlive_step f hf).run hs h
  have hmany : ∀ {α : Type} (f : State → α × State) (size : Nat), (∀ s, (f s).2 = step s) →
      Prod.snd <$> array (fun s => .ok (f s)) size s = .ok s' → s' ≠ dead := by
    intro α f size hf h
    exact ((keepsAlive_step f hf).array size).run hs h
  cases call with
  | u64 => exact hone Random.u64 (fun _ => rfl) h
  | u64Bounded range => exact (keepsAlive_u64Bounded fuel range).run hs h
  | f64Bounded range => exact hone (Random.f64Bounded f64FromU64 range) (fun _ => rfl) h
  | f64 => exact hone (Random.f64 f64FromU64) (fun _ => rfl) h
  | u64Array size => exact hmany Random.u64 size (fun _ => rfl) h
  | u64BoundedArray range size => exact ((keepsAlive_u64Bounded fuel range).array size).run hs h
  | f64Array size => exact hmany (Random.f64 f64FromU64) size (fun _ => rfl) h
  | f64BoundedArray range size => exact hmany (Random.f64Bounded f64FromU64 range) size (fun _ => rfl) h
  | u32 => exact hone Random.u32 (fun _ => rfl) h
  | u32Bounded range => exact ((keepsAlive_u64Bounded fuel _).map _).run hs h
  | u32Array size => exact hmany Random.u32 size (fun _ => rfl) h
  | u32BoundedArray range size => exact (((keepsAlive_u64Bounded fuel _).map _).array size).run hs h
  | f641to1 => exact hone (Random.f641to1 f64FromU64) (fun _ => rfl) h
  | f64Array1to1 size => exact hmany (Random.f641to1 f64FromU64) size (fun _ => rfl) h
  | f640to1 => exact hone (Random.f640to1 f64FromU64) (fun _ => rfl) h
  | f64Array0to1 size => exact hmany (Random.f640to1 f64FromU64) size (fun _ => rfl) h

theorem runCalls_alive (fuel : Nat) (calls : List (Call F)) {s s' : State} (hs : s ≠ dead)
    (h : runCalls f64FromU64 fuel calls s = .ok s') : s' ≠ dead := by
  induction calls generalizing s with
  | nil =>
    cases h
    exact hs
  | cons call calls ih =>
    obtain ⟨s₁, hcall, hrest⟩ := bind_eq_ok.1 h
    exact ih (call.run_alive f64FromU64 fuel hs hcall) hrest

/-- The generator never reaches the dead state. -/
theorem never_dead :
    (∀ seed, stateNew seed ≠ dead) ∧
    (Function.Bijective fun s => (u64 s).2) ∧ (∀ range s, (f64Bounded f64FromU64 range s).2 = (u64 s).2) ∧
    (u64 dead).2 = dead ∧
    ∀ seed fuel calls s, runCalls f64FromU64 fuel calls (stateNew seed) = .ok s → s ≠ dead := by
  refine ⟨stateNew_ne_dead, step_bijective, f64Bounded_step f64FromU64, step_dead, ?_⟩
  intro seed fuel calls s h
  exact runCalls_alive f64FromU64 fuel calls (stateNew_ne_dead seed) h

end

end SphSc.Random

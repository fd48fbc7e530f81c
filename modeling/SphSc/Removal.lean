import SphSc.Hashtable.Refinement
import SphSc.SphSet.Refinement
/-!
# `remove` returns while a slot is free

Both loops of `remove` end at a free slot only, and `set` and `add` fill every
slot before they report a full table. `remove_returns_iff` says, for the tables
and the sets that any calls lead to, that this is all that can go wrong. Of the
operations only that the hash is in range matters.
-/
open Exec Ring Probing

namespace SphSc

namespace Hashtable

variable {K V : Type} {d : Decl K V} {a a' : Table K V}

theorem free_iff (hs : Shape a) : (∃ i < a.size, layout a i = none) ↔ ∃ i < a.size, a.flags[i]? = some empty := by
  refine exists_congr fun i => and_congr_right fun hi => ?_
  have hf : i < a.flags.length := by rw [hs.flags]; exact hi
  have hread := read_eq_ok.1 (hs.read_flag hi)
  rw [hread]
  cases layout a i <;> simp [empty, full]

section
variable (hhash : ∀ k n, 0 < n → d.hash k n < n)
include hhash

/-- Without a free slot the first loop runs forever, or finds the key and the second does. -/
theorem remove_diverges (hs : Shape a) (hfull : ∀ i < a.size, (layout a i).isSome) (fuel : Nat) (key : K) :
    remove d fuel a key = .error .outOfFuel := by
  have hstart := hhash key a.size hs.size_pos
  have hseeks := findRound_seeks d hs key
  unfold remove
  rcases seek_full hseeks hfull fuel hstart with h | ⟨j, h⟩
  · rw [h]; rfl
  · obtain ⟨hj, -⟩ := seek_ends hseeks hstart h
    rw [h, ok_bind]
    simp only [shift_loop_diverges (shiftRound_shifts d hhash a.size) fuel ⟨hs, rfl⟩ hj hj hfull]
    rfl

/-- With a free slot both loops end within a round of the ring. -/
theorem remove_returns (hs : Shape a) {z : Nat} (hz : z < a.size) (hzn : layout a z = none) (key : K) :
    ∃ r, remove d a.size a key = .ok r := by
  have hstart := hhash key a.size hs.size_pos
  have hseeks := findRound_seeks d hs key
  obtain ⟨p, hp⟩ := seek_returns hseeks hz hzn hstart (Nat.le_refl _)
  unfold remove
  rw [hp, ok_bind]
  cases p with
  | none => exact ⟨_, rfl⟩
  | some j =>
    obtain ⟨hj, hfull⟩ := seek_ends hseeks hstart hp
    obtain ⟨b, hb⟩ := shift_returns (shiftRound_shifts d hhash a.size) ⟨hs, rfl⟩ hj hj hfull hz hzn (Nat.le_refl _)
    exact ⟨(0, b), by simp only [hb]; rfl⟩

end

theorem returns_iff (hhash : ∀ k n, 0 < n → d.hash k n < n) {grants : Grants} {junk : Nat → V} {minimumSize : Nat}
    {t t' : Table K V} {rs : List Request} {es : List (Call K V × Reply V)}
    (hnew : new d grants junk minimumSize = (0, some t, rs)) (hrun : Run d t es t') (key : K) :
    (∃ fuel r, remove d fuel t' key = .ok r) ↔ ∃ i < t'.size, t'.flags[i]? = some empty := by
  obtain ⟨hsize, -, hflags, -⟩ := new_eq hnew
  rcases calculateSize_pow d.sizeFactor minimumSize with h0 | hp
  · obtain ⟨h0', hf⟩ := run_nil (hsize.trans h0) (by rw [hflags, hsize, h0]; rfl) hrun
    constructor
    · rintro ⟨fuel, r, h⟩
      exact absurd h (remove_nil hf key fuel r)
    · rintro ⟨i, hi, -⟩
      omega
  · have hs := run_shape hhash (new_shape hnew (hsize ▸ hp)).1 hrun
    rw [← free_iff hs]
    constructor
    · rintro ⟨fuel, r, h⟩
      by_contra hfull
      have hfull : ∀ i < t'.size, (layout t' i).isSome := by simpa [Option.isSome_iff_ne_none] using hfull
      rw [remove_diverges hhash hs hfull] at h
      cases h
    · rintro ⟨z, hz, hzn⟩
      exact ⟨_, remove_returns hhash hs hz hzn key⟩

end Hashtable

namespace SphSet

variable {E : Type} {d : Decl E} {a a' : Table E} {value : E}

theorem free_iff (hs : Shape a) : (∃ i < a.size, layout a i = none) ↔ ∃ i < a.size, bit a.occupied i = false := by
  refine exists_congr fun i => and_congr_right fun hi => ?_
  rw [← Bool.not_eq_true, ← hs.layout_isSome hi]
  cases layout a i <;> simp

section
variable (hhash : ∀ v n, 0 < n → d.hash v n < n)
include hhash

theorem remove_diverges (hs : Shape a) (hfull : ∀ i < a.size, (layout a i).isSome) (hv : d.equal value d.null = false)
    (fuel : Nat) : remove d fuel a value = .error .outOfFuel := by
  have hstart := hhash value a.size hs.size_pos
  have hseeks := findRound_seeks d hs value
  rw [remove, if_neg (by simp [hv])]
  rcases seek_full hseeks hfull fuel hstart with h | ⟨j, h⟩
  · rw [h]; rfl
  · obtain ⟨hj, -⟩ := seek_ends hseeks hstart h
    rw [h, ok_bind]
    simp only [shift_loop_diverges (shiftRound_shifts d hhash a) fuel ⟨hs, rfl, rfl⟩ hj hj hfull]
    rfl

theorem remove_returns (hs : Shape a) {z : Nat} (hz : z < a.size) (hzn : layout a z = none)
    (hv : d.equal value d.null = false) : ∃ r, remove d a.size a value = .ok r := by
  have hstart := hhash value a.size hs.size_pos
  have hseeks := findRound_seeks d hs value
  obtain ⟨p, hp⟩ := seek_returns hseeks hz hzn hstart (Nat.le_refl _)
  rw [remove, if_neg (by simp [hv]), hp, ok_bind]
  cases p with
  | none => exact ⟨_, rfl⟩
  | some j =>
    obtain ⟨hj, hfull⟩ := seek_ends hseeks hstart hp
    obtain ⟨b, hb⟩ := shift_returns (shiftRound_shifts d hhash a) ⟨hs, rfl, rfl⟩ hj hj hfull hz hzn (Nat.le_refl _)
    exact ⟨(0, b), by simp only [hb]; rfl⟩

end

theorem returns_iff (hhash : ∀ v n, 0 < n → d.hash v n < n) {grants : Grants} {junk : Nat → E} {minSize : Nat}
    {t t' : Table E} {rs : List Request} {es : List (Call E × Reply)}
    (hnew : new d grants junk minSize = (0, some t, rs)) (hrun : Run d t es t') (value : E) :
    (∃ fuel r, remove d fuel t' value = .ok r) ↔
      d.equal value d.null = true ∨ ∃ i < t'.size, bit t'.occupied i = false := by
  cases hv : d.equal value d.null with
  | true =>
    refine ⟨fun _ => .inl rfl, fun _ => ⟨0, ?_⟩⟩
    rw [remove, if_pos hv]
    split <;> exact ⟨_, rfl⟩
  | false =>
    simp only [Bool.false_eq_true, false_or]
    obtain ⟨hsize, -, hoccupied, -⟩ := new_eq hnew
    rcases calculateSize_pow d.sizeFactor minSize with h0 | hp
    · obtain ⟨h0', ho⟩ := run_nil (hsize.trans h0) (by rw [hoccupied, hsize, h0]; rfl) hrun
      constructor
      · rintro ⟨fuel, r, h⟩
        exact absurd h (remove_nil ho hv fuel r)
      · rintro ⟨i, hi, -⟩
        omega
    · have hs := run_shape hhash (new_shape hnew (hsize ▸ hp)).1 hrun
      rw [← free_iff hs]
      constructor
      · rintro ⟨fuel, r, h⟩
        by_contra hfull
        have hfull : ∀ i < t'.size, (layout t' i).isSome := by simpa [Option.isSome_iff_ne_none] using hfull
        rw [remove_diverges hhash hs hfull hv] at h
        cases h
      · rintro ⟨z, hz, hzn⟩
        exact ⟨_, remove_returns hhash hs hz hzn hv⟩

end SphSet

/-- `remove` returns, on a table and on a set that any calls led to, exactly if
some slot is free; of a set's `null` it always does. -/
theorem remove_returns_iff {K V E : Type} {h : Hashtable.Decl K V} {s : SphSet.Decl E}
    (hh : ∀ k n, 0 < n → h.hash k n < n) (hs : ∀ v n, 0 < n → s.hash v n < n) :
    (∀ grants junk minimumSize t rs es t' key, Hashtable.new h grants junk minimumSize = (0, some t, rs) →
      Hashtable.Run h t es t' →
        ((∃ fuel r, Hashtable.remove h fuel t' key = .ok r) ↔ ∃ i < t'.size, t'.flags[i]? = some Hashtable.empty)) ∧
    (∀ grants junk minSize t rs es t' value, SphSet.new s grants junk minSize = (0, some t, rs) →
      SphSet.Run s t es t' →
        ((∃ fuel r, SphSet.remove s fuel t' value = .ok r) ↔
          s.equal value s.null = true ∨ ∃ i < t'.size, SphSet.bit t'.occupied i = false)) :=
  ⟨fun _ _ _ _ _ _ _ key hnew hrun => Hashtable.returns_iff hh hnew hrun key,
    fun _ _ _ _ _ _ _ value hnew hrun => SphSet.returns_iff hs hnew hrun value⟩

/-- Of the table with the keys 0 and 1 in its two slots nothing is removed, of
that with key 1 only something is; so it is with sets of the values 2 and 1. -/
theorem remove_returns_two :
    (¬ ∃ fuel r, Hashtable.remove Hashtable.integerDecl fuel ⟨2, 1, [1, 1], [0, 1], [5, 6]⟩ 0 = .ok r) ∧
    (∃ fuel r, Hashtable.remove Hashtable.integerDecl fuel ⟨2, 1, [0, 1], [0, 1], [0, 6]⟩ 0 = .ok r) ∧
    (¬ ∃ fuel r, SphSet.remove SphSet.integerDecl fuel ⟨2, 1, [2, 1], [3], 0⟩ 4 = .ok r) ∧
    ∃ fuel r, SphSet.remove SphSet.integerDecl fuel ⟨2, 1, [0, 1], [2], 0⟩ 4 = .ok r := by
  obtain ⟨htable, hset⟩ := remove_returns_iff Hashtable.integerDecl_lawful.hash_lt SphSet.integerDecl_lawful.hash_lt
  have hnew : Hashtable.new Hashtable.integerDecl (fun _ => true) (fun _ => 0) 1 =
      (0, some ⟨2, 1, [0, 0], [0, 0], [0, 0]⟩, [.malloc 16, .calloc 2 8, .calloc 2 1]) := rfl
  have h₁ : Hashtable.Run Hashtable.integerDecl ⟨2, 1, [0, 0], [0, 0], [0, 0]⟩ ([] ++ [(.set 1 6, .value (some 6))])
      ⟨2, 1, [0, 1], [0, 1], [0, 6]⟩ := .call 0 .nil rfl
  have h₂ : Hashtable.Run Hashtable.integerDecl _ (_ ++ [(.set 0 5, .value (some 5))])
      ⟨2, 1, [1, 1], [0, 1], [5, 6]⟩ := .call 0 h₁ rfl
  have hnew' : SphSet.new SphSet.integerDecl (fun _ => true) (fun _ => 0) 1 =
      (0, some ⟨2, 1, [0, 0], [0], 0⟩, [.calloc 1 1, .malloc 16]) := rfl
  have h₃ : SphSet.Run SphSet.integerDecl ⟨2, 1, [0, 0], [0], 0⟩ ([] ++ [(.add 1, .pointer (some 1))])
      ⟨2, 1, [0, 1], [2], 0⟩ := .call 0 .nil rfl
  have h₄ : SphSet.Run SphSet.integerDecl _ (_ ++ [(.add 2, .pointer (some 0))]) ⟨2, 1, [2, 1], [3], 0⟩ :=
    .call 0 h₃ rfl
  refine ⟨?_, (htable _ _ _ _ _ _ _ 0 hnew h₁).2 ⟨0, by decide, rfl⟩, ?_,
    (hset _ _ _ _ _ _ _ 4 hnew' h₃).2 (.inr ⟨0, by decide, rfl⟩)⟩
  · rw [htable _ _ _ _ _ _ _ 0 hnew h₂]
    decide
  · rw [hset _ _ _ _ _ _ _ 4 hnew' h₄]
    decide

/-- Two keys fill a table of two slots, two values a set. Neither removing one of them
nor removing another ever returns. -/
theorem remove_runs_forever :
    (∃ t es t', (∃ rs, Hashtable.new Hashtable.integerDecl (fun _ => true) (fun _ => 0) 1 = (0, some t, rs)) ∧
      Hashtable.Run Hashtable.integerDecl t es t' ∧
      (∀ fuel, Hashtable.remove Hashtable.integerDecl fuel t' 0 = .error .outOfFuel) ∧
      ∀ fuel, Hashtable.remove Hashtable.integerDecl fuel t' 7 = .error .outOfFuel) ∧
    ∃ t es t', (∃ rs, SphSet.new SphSet.integerDecl (fun _ => true) (fun _ => 0) 1 = (0, some t, rs)) ∧
      SphSet.Run SphSet.integerDecl t es t' ∧
      (∀ fuel, SphSet.remove SphSet.integerDecl fuel t' 2 = .error .outOfFuel) ∧
      ∀ fuel, SphSet.remove SphSet.integerDecl fuel t' 7 = .error .outOfFuel := by
  constructor
  · -- 1 and 0 are set, each in its home slot
    have hnew : Hashtable.new Hashtable.integerDecl (fun _ => true) (fun _ => 0) 1 =
        (0, some ⟨2, 1, [0, 0], [0, 0], [0, 0]⟩, [.malloc 16, .calloc 2 8, .calloc 2 1]) := rfl
    have hone : Hashtable.Run Hashtable.integerDecl ⟨2, 1, [0, 0], [0, 0], [0, 0]⟩
        ([] ++ [(.set 1 6, .value (some 6))]) ⟨2, 1, [0, 1], [0, 1], [0, 6]⟩ := .call 0 .nil rfl
    have htwo : Hashtable.Run Hashtable.integerDecl _ (_ ++ [(.set 0 5, .value (some 5))])
        ⟨2, 1, [1, 1], [0, 1], [5, 6]⟩ := .call 0 hone rfl
    have hhash := Hashtable.integerDecl_lawful.hash_lt
    have hs := Hashtable.run_shape hhash (Hashtable.new_shape hnew ⟨1, rfl⟩).1 htwo
    have hfull : ∀ i < 2, (Hashtable.layout (⟨2, 1, [1, 1], [0, 1], [5, 6]⟩ : Hashtable.Table Nat Nat) i).isSome := by
      decide
    exact ⟨_, _, _, ⟨_, hnew⟩, htwo, fun fuel => Hashtable.remove_diverges hhash hs hfull fuel 0,
      fun fuel => Hashtable.remove_diverges hhash hs hfull fuel 7⟩
  · have hnew : SphSet.new SphSet.integerDecl (fun _ => true) (fun _ => 0) 1 =
        (0, some ⟨2, 1, [0, 0], [0], 0⟩, [.calloc 1 1, .malloc 16]) := rfl
    have hone : SphSet.Run SphSet.integerDecl ⟨2, 1, [0, 0], [0], 0⟩ ([] ++ [(.add 1, .pointer (some 1))])
        ⟨2, 1, [0, 1], [2], 0⟩ := .call 0 .nil rfl
    have htwo : SphSet.Run SphSet.integerDecl _ (_ ++ [(.add 2, .pointer (some 0))]) ⟨2, 1, [2, 1], [3], 0⟩ :=
      .call 0 hone rfl
    have hhash := SphSet.integerDecl_lawful.hash_lt
    have hs := SphSet.run_shape hhash (SphSet.new_shape hnew ⟨1, rfl⟩).1 htwo
    have hfull : ∀ i < 2, (SphSet.layout (⟨2, 1, [2, 1], [3], 0⟩ : SphSet.Table Nat) i).isSome := by decide
    exact ⟨_, _, _, ⟨_, hnew⟩, htwo, fun fuel => SphSet.remove_diverges hhash hs hfull rfl fuel,
      fun fuel => SphSet.remove_diverges hhash hs hfull rfl fuel⟩

end SphSc

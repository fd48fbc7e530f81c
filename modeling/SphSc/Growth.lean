import SphSc.SphArray
/-!
# What `ensure` ensures

`ensure` asks for `needed` elements and twice the size, and the allocators for
so many times the size of an element, and neither is checked. It does what its
status says while the part that wraps off the one is no more than what twice
the size leaves unused, and nothing wraps off the other.
-/
open Exec Ring

namespace SphSc.SphArray

variable {E : Type} {d : Decl E} {a : SphArray E} {needed sizeofElement : Nat}

/-- Whatever the heap answers, `ensure` reports what it did: room for `needed`
elements after those in use, in a block of the size of the array, or nothing. -/
def Ensures (d : Decl E) (a : SphArray E) (needed : Nat) : Prop :=
  ∀ g, ∃ status a', ensure d g needed a = .ok (status, a') ∧
    (status = 0 → a'.used + needed ≤ a'.size ∧ a'.size ≤ a'.block.length ∧ a'.used = a.used ∧
      a'.contents = a.contents) ∧
    (status ≠ 0 → a' = a)

/-- The number of elements `ensure` asks for. -/
def grown (a : SphArray E) (needed : Nat) : Nat := (needed + growthFactor * a.size) % word

/-- What wraps off the number of elements was not going to be used, and nothing
wraps off the number of bytes. -/
def Grows (sizeofElement : Nat) (a : SphArray E) (needed : Nat) : Prop :=
  (needed + growthFactor * a.size) / word * word + a.used ≤ growthFactor * a.size ∧
    a.grown needed * sizeofElement < word

theorem wadd_wmul (needed size : Nat) : wadd needed (wmul growthFactor size) = (needed + growthFactor * size) % word := by
  rw [wadd, wmul, Nat.add_mod_mod]

theorem wmul_div (n : Nat) (hpos : 0 < sizeofElement) :
    n ≤ wmul n sizeofElement / sizeofElement ↔ n * sizeofElement < word := by
  rw [Nat.le_div_iff_mul_le hpos, wmul]
  constructor
  · intro h
    by_contra hge
    have hlt := Nat.mod_lt (n * sizeofElement) (show 0 < word by decide)
    omega
  · intro h
    rw [Nat.mod_eq_of_lt h]

theorem grown_room : a.used + needed ≤ a.grown needed ↔
    (needed + growthFactor * a.size) / word * word + a.used ≤ growthFactor * a.size := by
  have hsplit := Nat.div_add_mod (needed + growthFactor * a.size) word
  rw [Nat.mul_comm] at hsplit
  rw [grown]
  omega

/-! ## Which branch is taken -/

theorem ensure_room (hs : Sound a) (g : Answer E) (hdata : a.data.isSome) (hroom : a.used + needed ≤ a.size) :
    ensure d g needed a = .ok (0, a) := by
  have hused := hs.used
  unfold ensure
  rw [if_pos hdata, wsub_of_le hs.size_lt hused, if_neg (by omega)]
  rfl

theorem ensure_grow (hs : Sound a) (g : Answer E) (hdata : a.data.isSome) (hroom : a.size < a.used + needed) :
    ensure d g needed a = resize d g a (a.grown needed) := by
  have hused := hs.used
  unfold ensure
  rw [if_pos hdata, wsub_of_le hs.size_lt hused, if_pos (by omega), wadd_wmul]
  rfl

theorem ensure_new (g : Answer E) (hdata : a.data = none) : ensure d g needed a = .ok (new d g needed a) := by
  unfold ensure
  rw [hdata]
  rfl

theorem ensures_room (hs : Sound a) (hdata : a.data.isSome) (hroom : a.used + needed ≤ a.size) :
    Ensures d a needed := by
  intro g
  refine ⟨0, a, ensure_room hs g hdata hroom, fun _ => ⟨hroom, hs.block.ge, rfl, rfl⟩, fun h => absurd rfl h⟩

/-- Where nothing wraps the block grows as it should, with any allocator. -/
theorem ensures_grow (hs : Sound a) (hdata : a.data.isSome) (hroom : a.size < a.used + needed)
    (h : Grows d.sizeofElement a needed) : Ensures d a needed := by
  intro g
  have hgrown := grown_room.2 h.1
  rw [ensure_grow hs g hdata hroom]
  rcases resize_spec (g := g) hs h.2 with hr | ⟨a', hr, hs', hsize, -, hused, hcontents⟩
  · exact ⟨_, a, hr, fun h0 => absurd h0 (by decide), fun _ => rfl⟩
  · rw [Nat.min_eq_left (by omega)] at hused
    refine ⟨0, a', hr, fun _ => ⟨by omega, hs'.block.ge, hused, ?_⟩, fun h0 => absurd rfl h0⟩
    rw [hcontents, List.take_of_length_le (by rw [hs.length]; omega)]

/-- Likewise a first block, where there is none. -/
theorem ensures_new (hs : Sound a) (hdata : a.data = none) (h : needed * d.sizeofElement < word) :
    Ensures d a needed := by
  intro g
  obtain ⟨-, hused, hcontents⟩ := hs.of_none hdata
  rw [ensure_new g hdata]
  rcases new_spec (g := g) h a with hn | ⟨data, hn, hs'⟩
  · exact ⟨_, a, by rw [hn], fun h0 => absurd h0 (by decide), fun _ => rfl⟩
  · refine ⟨0, _, by rw [hn], fun _ => ⟨?_, hs'.block.ge, hused.symm, ?_⟩, fun h0 => absurd rfl h0⟩
    · simp
    · rw [hcontents]
      rfl

/-! ## The default allocators -/

section
variable [Inhabited E] (hpos : 0 < sizeofElement)

theorem grows_of_ensures (hs : Sound a) (hdata : a.data.isSome) (hroom : a.size < a.used + needed)
    (h : Ensures (declareType E sizeofElement hpos) a needed) : Grows sizeofElement a needed := by
  obtain ⟨status, a', ha', hreports, -⟩ := h (some fun _ => default)
  rw [ensure_grow hs _ hdata hroom] at ha'
  cases ha'
  obtain ⟨hneed, hblock, hused, -⟩ := hreports rfl
  rw [hused] at hneed
  simp only [block, Option.getD_some, List.length_map, List.length_range] at hblock
  exact ⟨grown_room.1 hneed, (wmul_div _ hpos).1 hblock⟩

theorem grows_of_ensures_zeroed (zero : E) (hs : Sound a) (hdata : a.data.isSome) (hroom : a.size < a.used + needed)
    (h : Ensures (declareTypeZeroed sizeofElement hpos zero) a needed) : Grows sizeofElement a needed := by
  obtain ⟨status, a', ha', hreports, -⟩ := h (some fun _ => default)
  rw [ensure_grow hs _ hdata hroom] at ha'
  obtain ⟨data, hdata', ha'⟩ := bind_eq_ok.1 ha'
  simp only [declareTypeZeroed, defaultReallocZero, defaultRealloc, Option.map_some] at hdata'
  split at hdata'
  · -- the zeros after the old elements are stored in the block only if it is long enough
    rename_i hgrown
    obtain ⟨nd, hnd, hsome⟩ := bind_eq_ok.1 hdata'
    cases hsome
    cases ha'
    obtain ⟨hneed, -, hused, -⟩ := hreports rfl
    rw [hused] at hneed
    obtain ⟨hblock, -⟩ := fill_eq_ok.1 hnd
    rw [List.length_map, List.length_range, Nat.add_sub_cancel' hgrown.le] at hblock
    exact ⟨grown_room.1 hneed, (wmul_div _ hpos).1 hblock⟩
  · cases hdata'
    cases ha'
    obtain ⟨hneed, -, hused, -⟩ := hreports rfl
    rw [hused] at hneed
    simp only at hneed
    omega

theorem bytes_of_ensures (hdata : a.data = none) (h : Ensures (declareType E sizeofElement hpos) a needed) :
    needed * sizeofElement < word := by
  obtain ⟨status, a', ha', hreports, -⟩ := h (some fun _ => default)
  rw [ensure_new _ hdata] at ha'
  cases ha'
  obtain ⟨-, hblock, -⟩ := hreports rfl
  simp only [block, Option.getD_some, List.length_map, List.length_range] at hblock
  exact (wmul_div _ hpos).1 hblock

omit [Inhabited E] in
/-- A first block from `calloc` is one of as many elements as were asked for. -/
theorem ensures_new_zeroed (zero : E) (hs : Sound a) (hdata : a.data = none) :
    Ensures (declareTypeZeroed sizeofElement hpos zero) a needed := by
  by_cases h : needed * sizeofElement < word
  · exact ensures_new hs hdata h
  · intro g
    have hrefused : defaultAllocZero sizeofElement zero g needed = none := if_neg h
    refine ⟨statusIdMemory, a, ?_, fun h0 => absurd h0 (by decide), fun _ => rfl⟩
    rw [ensure_new g hdata, new, declareTypeZeroed]
    simp only [hrefused]

end

/-- There is room, or what is asked for can be had in 64 bits: of a first block
with `firstFits`. -/
def CanEnsure (firstFits : Prop) (sizeofElement : Nat) (a : SphArray E) (needed : Nat) : Prop :=
  a.data.isSome = true ∧ (a.used + needed ≤ a.size ∨ Grows sizeofElement a needed) ∨ a.data = none ∧ firstFits

theorem ensures_cases (hs : Sound a) {firstFits : Prop} (hfirst : a.data = none → (Ensures d a needed ↔ firstFits))
    (hgrow : a.data.isSome → a.size < a.used + needed → Ensures d a needed → Grows d.sizeofElement a needed) :
    Ensures d a needed ↔ CanEnsure firstFits d.sizeofElement a needed := by
  unfold CanEnsure
  by_cases hdata : a.data = none
  · rw [hfirst hdata, hdata]
    simp
  · have hsome : a.data.isSome = true := Option.isSome_iff_ne_none.2 hdata
    simp only [hsome, hdata, true_and, false_and, or_false]
    constructor
    · intro h
      by_cases hroom : a.used + needed ≤ a.size
      · exact .inl hroom
      · exact .inr (hgrow hsome (by omega) h)
    · intro h
      by_cases hroom : a.used + needed ≤ a.size
      · exact ensures_room hs hsome hroom
      · exact ensures_grow hs hsome (by omega) (h.resolve_left hroom)

/-- `ensure` reports what it did exactly if there is room or nothing that
matters wraps. `calloc` looks after the first block itself. -/
theorem ensure_reports [Inhabited E] (hs : Sound a) (hpos : 0 < sizeofElement) (zero : E) :
    (Ensures (declareType E sizeofElement hpos) a needed ↔
      CanEnsure (needed * sizeofElement < word) sizeofElement a needed) ∧
    (Ensures (declareTypeZeroed sizeofElement hpos zero) a needed ↔ CanEnsure True sizeofElement a needed) := by
  constructor
  · refine ensures_cases hs (fun hdata => ⟨bytes_of_ensures hpos hdata, fun h => ?_⟩) (grows_of_ensures hpos hs)
    exact ensures_new hs hdata h
  · exact ensures_cases hs (fun hdata => iff_true_intro (ensures_new_zeroed hpos zero hs hdata))
      (grows_of_ensures_zeroed hpos zero hs)

/-- `ensure_reports` at an array with one of two elements in use. -/
theorem ensure_reports_one :
    (Ensures (declareType Nat 8 (by decide)) ⟨2, 1, some [7, 0]⟩ 2 ↔ CanEnsure (2 * 8 < word) 8 ⟨2, 1, some [7, 0]⟩ 2) ∧
    (Ensures (declareTypeZeroed 8 (by decide) 0) ⟨2, 1, some [7, 0]⟩ 2 ↔ CanEnsure True 8 ⟨2, 1, some [7, 0]⟩ 2) :=
  ensure_reports ⟨rfl, by decide, by decide⟩ (by decide) 0

/-- Room for `2^61` numbers of 8 bytes in an array without a block: no bytes are asked for. -/
theorem ensure_wrapped : Sound (⟨0, 0, none⟩ : SphArray Nat) ∧
    ¬ Ensures (declareType Nat 8 (by decide)) ⟨0, 0, none⟩ (2 ^ 61) := by
  have hs : Sound (⟨0, 0, none⟩ : SphArray Nat) := ⟨rfl, Nat.le_refl _, by decide⟩
  refine ⟨hs, fun h => ?_⟩
  exact absurd (bytes_of_ensures (by decide) rfl h) (by decide)

end SphSc.SphArray

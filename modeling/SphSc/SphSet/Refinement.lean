import SphSc.SphSet.Layout
/-!
# A set is a finite set

`BoundedSet` is what a set is for: a finite set of classes of equal values, with
room for `capacity` of them besides the class of `null`. `call_refines` shows
that a call that returns does and answers what `BoundedSet.step` says, and
`refines_set` extends it to runs.
-/
open Exec Ring Probing

namespace SphSc.SphSet

variable {E κ : Type}

/-! ## The set -/

inductive Answer where
  /-- Whether the pointer is not 0. -/
  | found (b : Bool)
  | status (s : Byte)
  | done
  deriving DecidableEq

def Reply.answer : Reply → Answer
  | .pointer p => .found p.isSome
  | .status s => .status s
  | .done => .done

def Call.map (f : E → κ) : Call E → Call κ
  | .get value => .get (f value)
  | .add value => .add (f value)
  | .remove value => .remove (f value)
  | .clear => .clear

namespace BoundedSet

variable [DecidableEq κ]

def step (null : κ) (capacity : Nat) (m : Finset κ) : Call κ → Finset κ × Answer
  | .get k => (m, .found (k ∈ m))
  | .add k =>
    if k = null ∨ k ∈ m ∨ (m.erase null).card < capacity then (insert k m, .found true) else (m, .found false)
  | .remove k => if k ∈ m then (m.erase k, .status 0) else (m, .status 1)
  | .clear => (∅, .done)

/-- The set after the calls, and their answers. -/
def run (null : κ) (capacity : Nat) (m : Finset κ) (cs : List (Call κ)) : Finset κ × List Answer :=
  cs.foldl (fun s c => let (m, r) := step null capacity s.1 c; (m, s.2 ++ [r])) (m, [])

theorem run_snoc (null : κ) (capacity : Nat) (m : Finset κ) (cs : List (Call κ)) (c : Call κ) :
    run null capacity m (cs ++ [c]) =
      ((step null capacity (run null capacity m cs).1 c).1,
        (run null capacity m cs).2 ++ [(step null capacity (run null capacity m cs).1 c).2]) := by
  simp [run]

end BoundedSet

/-! ## The invariant -/

section
variable {d : Decl E} (hd : d.Lawful)

structure Inv (a : Table E) : Prop extends Shape a where
  probed : WellProbed a.size (hd.home a.size) hd.key (layout a)
  null : ∀ e, Stores a.size (layout a) e → hd.key e ≠ hd.key d.null

/-- The classes a set holds. -/
def members (a : Table E) : Finset hd.Key :=
  if a.nullable = 0 then keySet a.size hd.key (layout a) else insert (hd.key d.null) (keySet a.size hd.key (layout a))

variable {hd} {a a' : Table E} {value : E}

theorem null_not_mem (hi : Inv hd a) : hd.key d.null ∉ keySet a.size hd.key (layout a) := by
  rw [mem_keySet]
  rintro ⟨e, he, hk⟩
  exact hi.null e he hk

theorem null_mem (hi : Inv hd a) : hd.key d.null ∈ members hd a ↔ a.nullable ≠ 0 := by
  have := null_not_mem hi
  unfold members
  split <;> simp_all

theorem mem_members {k : hd.Key} (hk : k ≠ hd.key d.null) :
    k ∈ members hd a ↔ ∃ e, Stores a.size (layout a) e ∧ hd.key e = k := by
  unfold members
  split <;> simp [mem_keySet, hk]

/-- Only values other than `null` take up room. -/
theorem erase_null (hi : Inv hd a) : (members hd a).erase (hd.key d.null) = keySet a.size hd.key (layout a) := by
  unfold members
  split
  · exact Finset.erase_eq_of_notMem (null_not_mem hi)
  · exact Finset.erase_insert (null_not_mem hi)

theorem not_full_iff (hi : Inv hd a) :
    ((members hd a).erase (hd.key d.null)).card < a.size ↔ ∃ i < a.size, layout a i = none := by
  rw [erase_null hi, card_keySet_lt hi.probed]

/-- The members after the occupied slots changed and `nullable` did not. -/
theorem members_insert (hn : a'.nullable = a.nullable) (hs : a'.size = a.size) {e : E}
    (h : ∀ e', Stores a.size (layout a') e' ↔ e' = e ∨ Stores a.size (layout a) e') :
    members hd a' = insert (hd.key e) (members hd a) := by
  unfold members
  rw [hn, hs, keySet_insert h]
  split
  · rfl
  · rw [Finset.insert_comm]

theorem members_erase (hn : a'.nullable = a.nullable) (hs : a'.size = a.size) {k : hd.Key} (hk : k ≠ hd.key d.null)
    (h : ∀ e, Stores a.size (layout a') e ↔ Stores a.size (layout a) e ∧ hd.key e ≠ k) :
    members hd a' = (members hd a).erase k := by
  unfold members
  rw [hn, hs, keySet_erase h]
  split
  · rfl
  · rw [Finset.erase_insert_of_ne (Ne.symm hk)]

/-! ## What each function does -/

theorem test_iff (value : E) (e : E) : d.equal e value = true ↔ hd.key e = hd.key value := hd.key_eq.symm

variable (hd) in
/-- How the scan for `value` ends. -/
theorem found (hs : Shape a) (value : E) :
    (scan a.size (fun e => d.equal e value) (layout a) a.size (d.hash value a.size)).Sound a.size hd.key
      (layout a) (d.hash value a.size) (hd.key value) :=
  scan_sound (hd.hash_lt value _ hs.size_pos) (test_iff value)

theorem mem_of_slot (hne : hd.key value ≠ hd.key d.null) {i : Nat} {e : E} (hlt : i < a.size)
    (he : layout a i = some e) (hk : hd.key e = hd.key value) : hd.key value ∈ members hd a :=
  (mem_members hne).2 ⟨e, ⟨i, hlt, he⟩, hk⟩

theorem not_mem (hne : hd.key value ≠ hd.key d.null)
    (habs : ∀ e, Stores a.size (layout a) e → hd.key e ≠ hd.key value) : hd.key value ∉ members hd a := by
  rw [mem_members hne]
  rintro ⟨e, he, hk⟩
  exact habs e he hk

theorem not_mem_of_gap (hi : Inv hd a) (hne : hd.key value ≠ hd.key d.null) {i : Nat} (hlt : i < a.size)
    (he : layout a i = none)
    (hs : Scanned a.size hd.key (layout a) (d.hash value a.size) (hd.key value) (dist a.size (d.hash value a.size) i)) :
    hd.key value ∉ members hd a :=
  not_mem hne (absent_of_empty (k := hd.key value) hi.probed (hd.home_lt hi.size_pos) hlt he hs)

theorem not_mem_of_round (hi : Inv hd a) (hne : hd.key value ≠ hd.key d.null)
    (hs : Scanned a.size hd.key (layout a) (d.hash value a.size) (hd.key value) a.size) :
    hd.key value ∉ members hd a :=
  not_mem hne (absent_of_round (k := hd.key value) (hd.home_lt hi.size_pos) hs)

theorem get_null (hi : Inv hd a) (hv : d.equal value d.null = true) :
    ∃ p, get d a value = .ok p ∧ (p.isSome ↔ hd.key value ∈ members hd a) := by
  rw [get, if_pos hv, hd.key_eq.2 hv, null_mem hi]
  refine ⟨_, rfl, ?_⟩
  split <;> simp_all

theorem get_spec (hi : Inv hd a) (hv : d.equal value d.null = false) :
    ∃ p, get d a value = .ok p ∧ (p.isSome ↔ hd.key value ∈ members hd a) ∧
      ∀ i, p = some i → ∃ e, a.values[i]? = some e ∧ d.equal e value = true := by
  have hne := hd.key_ne hv
  have hf := found hd hi.toShape value
  rw [get, if_neg (by simp [hv]), getLoop_eq d hi.toShape value _ (hd.hash_lt value _ hi.size_pos)]
  cases hr : scan a.size (fun e => d.equal e value) (layout a) a.size (d.hash value a.size) with
  | hit i =>
    rw [hr] at hf
    obtain ⟨hlt, e, he, hk⟩ := hf
    refine ⟨some i, rfl, by simp [mem_of_slot hne hlt he hk], ?_⟩
    rintro _ ⟨⟩
    exact ⟨e, (layout_eq_some.1 he).2, (test_iff value e).2 hk⟩
  | gap i =>
    rw [hr] at hf
    exact ⟨none, rfl, by simp [not_mem_of_gap hi hne hf.1 hf.2.1 hf.2.2], by simp⟩
  | round =>
    rw [hr] at hf
    exact ⟨none, rfl, by simp [not_mem_of_round hi hne hf], by simp⟩

/-- `add` finds the value, fills a free slot, or finds neither. -/
theorem add_cases (hi : Inv hd a) (hv : d.equal value d.null = false) {p : Option Nat}
    (h : add d a value = .ok (a', p)) :
    (a' = a ∧ ∃ i e, p = some i ∧ i < a.size ∧ layout a i = some e ∧ hd.key e = hd.key value) ∨
    (∃ i, p = some i ∧ i < a.size ∧ layout a i = none ∧ put a i value = .ok a' ∧
      Scanned a.size hd.key (layout a) (d.hash value a.size) (hd.key value) (dist a.size (d.hash value a.size) i)) ∨
    (hd.key value ∉ members hd a ∧ p = none ∧ a' = a ∧ ∀ i < a.size, (layout a i).isSome) := by
  have hhome := hd.hash_lt value _ hi.size_pos
  have hf := found hd hi.toShape value
  rw [add, if_neg (by simp [hv]), addLoop_eq d hi.toShape value _ hhome] at h
  cases hr : scan a.size (fun e => d.equal e value) (layout a) a.size (d.hash value a.size) with
  | hit i =>
    rw [hr] at hf h
    cases h
    obtain ⟨hlt, e, he, hk⟩ := hf
    exact .inl ⟨rfl, i, e, rfl, hlt, he, hk⟩
  | gap i =>
    rw [hr] at hf h
    obtain ⟨b, hput, h⟩ := bind_eq_ok.1 h
    cases h
    exact .inr (.inl ⟨i, rfl, hf.1, hf.2.1, hput, hf.2.2⟩)
  | round =>
    rw [hr] at hf h
    cases h
    refine .inr (.inr ⟨not_mem_of_round hi (hd.key_ne hv) hf, rfl, rfl, fun i hlt => ?_⟩)
    obtain ⟨e, he, -⟩ := hf i hlt (dist_lt hhome hlt)
    simp [he]

/-- `remove` misses the value, or deletes it. -/
theorem remove_cases (hi : Inv hd a) (hv : d.equal value d.null = false) {fuel : Nat} {s : Byte}
    (h : remove d fuel a value = .ok (s, a')) :
    (s = 1 ∧ a' = a ∧ hd.key value ∉ members hd a) ∨
    (s = 0 ∧ Shape a' ∧ a'.size = a.size ∧ a'.nullable = a.nullable ∧ ∃ i e, i < a.size ∧ layout a i = some e ∧
      hd.key e = hd.key value ∧ Deleted a.size (hd.home a.size) hd.key (layout a) e (layout a')) := by
  have hhome := hd.home_lt hi.size_pos
  have hshifts : ShiftRound a.size (hd.home a.size) hd.key _ layout (shiftRound d) := shiftRound_shifts d hd.hash_lt a
  rw [remove, if_neg (by simp [hv])] at h
  obtain ⟨p, hseek, h⟩ := bind_eq_ok.1 h
  rcases seek_loop (k := hd.key value) (findRound_seeks d hi.toShape value) hi.probed hhome (test_iff value) hseek with
    ⟨rfl, habs⟩ | ⟨i, e, rfl, hlt, he, hk⟩
  · cases h
    exact .inl ⟨rfl, rfl, not_mem (hd.key_ne hv) habs⟩
  · obtain ⟨b, hshift, h⟩ := bind_eq_ok.1 h
    cases h
    obtain ⟨⟨hs, hsize, hnull⟩, hdel⟩ := shift_loop hshifts hhome ⟨hi.toShape, rfl, rfl⟩ hi.probed hlt he hshift
    exact .inr ⟨rfl, hs, hsize, hnull, i, e, hlt, he, hk, hdel⟩

/-! ## Refinement -/

/-- What a call does to the memory of the set: a pointer to a value other than
`null` designates an equal value, `null` moves no value, and a pointer reply of
0 and a status of 1 leave the set as it was. -/
structure Touches (d : Decl E) (a : Table E) (c : Call E) (a' : Table E) (r : Reply) : Prop where
  designates : ∀ v, c = .get v ∨ c = .add v → d.equal v d.null = false → ∀ i, r = .pointer (some i) →
    ∃ e, a'.values[i]? = some e ∧ d.equal e v = true
  null : ∀ v, c = .add v ∨ c = .remove v → d.equal v d.null = true →
    a'.values = a.values ∧ a'.occupied = a.occupied
  unchanged : r = .pointer none ∨ r = .status 1 → a' = a

theorem get_refines (hi : Inv hd a) {p : Option Nat} (h : get d a value = .ok p) :
    BoundedSet.step (hd.key d.null) a.size (members hd a) (.get (hd.key value)) = (members hd a, .found p.isSome) ∧
      Touches d a (.get value) a (.pointer p) := by
  have hstep : ∀ p : Option Nat, (p.isSome ↔ hd.key value ∈ members hd a) →
      BoundedSet.step (hd.key d.null) a.size (members hd a) (.get (hd.key value)) =
        (members hd a, .found p.isSome) := by
    intro p hp
    simp [BoundedSet.step, ← hp]
  cases hv : d.equal value d.null with
  | true =>
    obtain ⟨p', hp', hiff⟩ := get_null hi hv
    rw [h] at hp'; cases hp'
    refine ⟨hstep p hiff, fun v hc hv' => ?_, fun v hc => ?_, fun _ => rfl⟩
    · obtain ⟨⟨⟩⟩ | ⟨⟨⟩⟩ := hc
      simp [hv] at hv'
    · obtain ⟨⟨⟩⟩ | ⟨⟨⟩⟩ := hc
  | false =>
    obtain ⟨p', hp', hiff, hdes⟩ := get_spec hi hv
    rw [h] at hp'; cases hp'
    refine ⟨hstep p hiff, fun v hc _ i hr => ?_, fun v hc => ?_, fun _ => rfl⟩
    · obtain ⟨⟨⟩⟩ | ⟨⟨⟩⟩ := hc
      cases hr
      exact hdes i rfl
    · obtain ⟨⟨⟩⟩ | ⟨⟨⟩⟩ := hc

theorem add_null_refines (hi : Inv hd a) (hv : d.equal value d.null = true) {p : Option Nat}
    (h : add d a value = .ok (a', p)) : Inv hd a' ∧ a'.size = a.size ∧
      BoundedSet.step (hd.key d.null) a.size (members hd a) (.add (hd.key value)) = (members hd a', .found p.isSome) ∧
      Touches d a (.add value) a' (.pointer p) := by
  rw [add, if_pos hv] at h
  cases h
  refine ⟨⟨{ hi.toShape with }, hi.probed, hi.null⟩, rfl, ?_, fun v hc hv' => ?_, fun v hc _ => ⟨rfl, rfl⟩,
    by rintro (⟨⟨⟩⟩ | ⟨⟨⟩⟩)⟩
  · rw [BoundedSet.step, hd.key_eq.2 hv, if_pos (.inl rfl)]
    have hset : members hd { a with nullable := 1 } = Insert.insert (hd.key d.null) (members hd a) := by
      unfold members
      rw [if_neg (show (1 : Byte) ≠ 0 by decide)]
      split
      · rfl
      · rw [Finset.insert_idem]; rfl
    rw [hset]; rfl
  · obtain ⟨⟨⟩⟩ | ⟨⟨⟩⟩ := hc
    simp [hv] at hv'

theorem add_value_refines (hi : Inv hd a) (hv : d.equal value d.null = false) {p : Option Nat}
    (h : add d a value = .ok (a', p)) : Inv hd a' ∧ a'.size = a.size ∧
      BoundedSet.step (hd.key d.null) a.size (members hd a) (.add (hd.key value)) = (members hd a', .found p.isSome) ∧
      Touches d a (.add value) a' (.pointer p) := by
  have hne := hd.key_ne hv
  have hnull : ∀ v, Call.add value = .add v ∨ Call.add value = .remove v → d.equal v d.null = true →
      a'.values = a.values ∧ a'.occupied = a.occupied := by
    rintro v (⟨⟨⟩⟩ | ⟨⟨⟩⟩) hv'
    simp [hv] at hv'
  rcases add_cases hi hv h with ⟨rfl, i, e, rfl, hlt, he, hk⟩ | ⟨i, rfl, hlt, he, hput, hs⟩ | ⟨hm, rfl, rfl, hfull⟩
  · have hm := mem_of_slot hne hlt he hk
    refine ⟨hi, rfl, ?_, ?_, hnull, fun _ => rfl⟩
    · rw [BoundedSet.step, if_pos (.inr (.inl hm)), Finset.insert_eq_of_mem hm]; rfl
    · rintro v (⟨⟨⟩⟩ | ⟨⟨⟩⟩) - _ ⟨⟩
      exact ⟨e, (layout_eq_some.1 he).2, (test_iff value e).2 hk⟩
  · obtain ⟨hvlen, occupied, rfl, -, -⟩ := put_eq_ok hput (by rw [hi.occupied]; omega)
    have hlay := layout_put hi.toShape hlt hput
    have hst := fun e' => stores_insert (e := value) hlt he e'
    refine ⟨⟨shape_put hi.toShape hlt hput, ?_, ?_⟩, rfl, ?_, ?_, hnull, by rintro (⟨⟨⟩⟩ | ⟨⟨⟩⟩)⟩
    · rw [hlay]
      exact insert hi.probed (hd.home_lt hi.size_pos) hlt he hs
    · intro e' he'
      rw [hlay] at he'
      rcases (hst e').1 he' with rfl | he'
      · exact hne
      · exact hi.null e' he'
    · rw [BoundedSet.step, if_pos (.inr (.inr ((not_full_iff hi).2 ⟨i, hlt, he⟩)))]
      rw [← hlay] at hst
      refine Prod.ext (Eq.symm ?_) rfl
      exact members_insert (by rfl) (by rfl) hst
    · rintro v (⟨⟨⟩⟩ | ⟨⟨⟩⟩) - _ ⟨⟩
      exact ⟨value, by simp [hvlen], hd.refl value⟩
  · refine ⟨hi, rfl, ?_, by rintro v - - _ ⟨⟩, hnull, fun _ => rfl⟩
    have hno : ¬ ((members hd a').erase (hd.key d.null)).card < a'.size := by
      rw [not_full_iff hi]
      rintro ⟨i, hlt, hn⟩
      simpa [hn] using hfull i hlt
    rw [BoundedSet.step, if_neg (by rintro (h | h | h) <;> contradiction)]; rfl

theorem remove_null_refines (hi : Inv hd a) (hv : d.equal value d.null = true) {fuel : Nat} {s : Byte}
    (h : remove d fuel a value = .ok (s, a')) : Inv hd a' ∧ a'.size = a.size ∧
      BoundedSet.step (hd.key d.null) a.size (members hd a) (.remove (hd.key value)) = (members hd a', .status s) ∧
      Touches d a (.remove value) a' (.status s) := by
  have hm := null_mem hi
  rw [remove, if_pos hv] at h
  rw [BoundedSet.step, hd.key_eq.2 hv]
  split at h
  · rename_i h0
    cases h
    refine ⟨hi, rfl, by rw [if_neg (by simp [hm, h0])], ?_, fun v _ _ => ⟨rfl, rfl⟩, fun _ => rfl⟩
    rintro v (⟨⟨⟩⟩ | ⟨⟨⟩⟩)
  · rename_i h0
    cases h
    refine ⟨⟨{ hi.toShape with }, hi.probed, hi.null⟩, rfl, ?_, ?_, fun v _ _ => ⟨rfl, rfl⟩, by rintro (⟨⟨⟩⟩ | ⟨⟨⟩⟩)⟩
    · rw [if_pos (hm.2 h0), erase_null hi]; rfl
    · rintro v (⟨⟨⟩⟩ | ⟨⟨⟩⟩)

theorem remove_value_refines (hi : Inv hd a) (hv : d.equal value d.null = false) {fuel : Nat} {s : Byte}
    (h : remove d fuel a value = .ok (s, a')) : Inv hd a' ∧ a'.size = a.size ∧
      BoundedSet.step (hd.key d.null) a.size (members hd a) (.remove (hd.key value)) = (members hd a', .status s) ∧
      Touches d a (.remove value) a' (.status s) := by
  have hne := hd.key_ne hv
  have hnull : ∀ v, Call.remove value = .add v ∨ Call.remove value = .remove v → d.equal v d.null = true →
      a'.values = a.values ∧ a'.occupied = a.occupied := by
    rintro v (⟨⟨⟩⟩ | ⟨⟨⟩⟩) hv'
    simp [hv] at hv'
  have hdes : ∀ v, Call.remove value = .get v ∨ Call.remove value = .add v → d.equal v d.null = false →
      ∀ i, Reply.status s = .pointer (some i) → ∃ e, a'.values[i]? = some e ∧ d.equal e v = true := by
    rintro v (⟨⟨⟩⟩ | ⟨⟨⟩⟩)
  rw [BoundedSet.step]
  rcases remove_cases hi hv h with ⟨rfl, rfl, hm⟩ | ⟨rfl, hs, hsize, hn, i, e, hlt, he, hk, hdel⟩
  · exact ⟨hi, rfl, by rw [if_neg hm], hdes, hnull, fun _ => rfl⟩
  · refine ⟨⟨hs, by rw [hsize]; exact hdel.probed, fun e' he' => ?_⟩, hsize, ?_, hdes, hnull, by rintro (⟨⟨⟩⟩ | ⟨⟨⟩⟩)⟩
    · rw [hsize] at he'
      exact hi.null e' ((hdel.stores e').1 he').1
    · rw [if_pos (mem_of_slot hne hlt he hk), members_erase hn hsize hne (by rw [← hk]; exact hdel.stores)]

theorem clear_refines (hi : Inv hd a) (h : clear a = .ok a') :
    Inv hd a' ∧ a'.size = a.size ∧ members hd a' = ∅ := by
  obtain rfl := clear_eq_ok hi.toShape h
  refine ⟨⟨shape_cleared hi.toShape, ?_, ?_⟩, rfl, ?_⟩
  · rw [layout_empty]; exact wellProbed_empty fun _ _ => rfl
  · rw [layout_empty]; rintro e ⟨i, -, ⟨⟩⟩
  · rw [members, if_pos rfl, layout_empty]; simp [keySet]

theorem call_refines (hi : Inv hd a) {fuel : Nat} {c : Call E} {r : Reply} (h : call d fuel a c = .ok (a', r)) :
    Inv hd a' ∧ a'.size = a.size ∧
      BoundedSet.step (hd.key d.null) a.size (members hd a) (c.map hd.key) = (members hd a', r.answer) ∧
      Touches d a c a' r := by
  cases c with
  | get value =>
    obtain ⟨p, hp, h⟩ := bind_eq_ok.1 h
    cases h
    exact ⟨hi, rfl, get_refines hi hp⟩
  | add value =>
    obtain ⟨⟨b, p⟩, hp, h⟩ := bind_eq_ok.1 h
    cases h
    cases hv : d.equal value d.null with
    | true => exact add_null_refines hi hv hp
    | false => exact add_value_refines hi hv hp
  | remove value =>
    obtain ⟨⟨s, b⟩, hp, h⟩ := bind_eq_ok.1 h
    cases h
    cases hv : d.equal value d.null with
    | true => exact remove_null_refines hi hv hp
    | false => exact remove_value_refines hi hv hp
  | clear =>
    obtain ⟨b, hp, h⟩ := bind_eq_ok.1 h
    cases h
    obtain ⟨hi', hsize, hm⟩ := clear_refines hi hp
    refine ⟨hi', hsize, by rw [hm]; rfl, ?_, ?_, by rintro (⟨⟨⟩⟩ | ⟨⟨⟩⟩)⟩
    · rintro v (⟨⟨⟩⟩ | ⟨⟨⟩⟩)
    · rintro v (⟨⟨⟩⟩ | ⟨⟨⟩⟩)

theorem new_spec (hd : d.Lawful) {grants : Grants} {junk : Nat → E} {minSize : Nat} {t : Table E} {rs : List Request}
    (h : new d grants junk minSize = (0, some t, rs)) (hp : ∃ k, t.size = 2 ^ k) : Inv hd t ∧ members hd t = ∅ := by
  obtain ⟨hs, hnull, hlay⟩ := new_shape h hp
  refine ⟨⟨hs, ?_, ?_⟩, ?_⟩
  · rw [hlay]
    exact wellProbed_empty fun _ _ => rfl
  · rw [hlay]
    rintro e ⟨i, -, ⟨⟩⟩
  · rw [members, if_pos hnull, hlay]
    simp [keySet]

theorem run_inv {t : Table E} {es : List (Call E × Reply)} (hi : Inv hd t) (h : Run d t es a) :
    Inv hd a ∧ a.size = t.size ∧ BoundedSet.run (hd.key d.null) t.size (members hd t) (es.map fun e => e.1.map hd.key) =
      (members hd a, es.map fun e => e.2.answer) := by
  induction h with
  | nil => exact ⟨hi, rfl, rfl⟩
  | call fuel _ hcall ih =>
    obtain ⟨hi', hsize, hrun⟩ := ih
    obtain ⟨hi'', hsize', hstep, -⟩ := call_refines hi' hcall
    rw [hsize] at hstep
    refine ⟨hi'', hsize'.trans hsize, ?_⟩
    simp only [List.map_append, List.map_cons, List.map_nil, BoundedSet.run_snoc, hrun, hstep]

/-- A set from `name##_new` and any calls on it that return answer like the
finite set with room for `size` values besides `null`, and hold what it holds.
What a next call does to the memory is as `Touches` says. -/
theorem refines_set (hd : d.Lawful) {grants : Grants} {junk : Nat → E} {minSize : Nat} {t t' : Table E}
    {rs : List Request} {es : List (Call E × Reply)} (hnew : new d grants junk minSize = (0, some t, rs))
    (hsize : ∃ k, t.size = 2 ^ k) (hrun : Run d t es t') :
    BoundedSet.run (hd.key d.null) t.size ∅ (es.map fun e => e.1.map hd.key) =
      (members hd t', es.map fun e => e.2.answer) ∧
    ∀ fuel c t'' r, call d fuel t' c = .ok (t'', r) → Touches d t' c t'' r := by
  obtain ⟨hi, h0⟩ := new_spec hd hnew hsize
  obtain ⟨hi', -, h⟩ := run_inv hi hrun
  exact ⟨h0 ▸ h, fun _ _ _ _ hcall => (call_refines hi' hcall).2.2.2⟩

end

/-- `sph_set_hash_integer` and `sph_set_equal_integer` on 64-bit values, with 0 for `null`. -/
def integerDecl : Decl Nat where
  hash value size := value % size
  equal a b := a == b
  null := 0
  sizeFactor := 2
  sizeofValue := 8

theorem integerDecl_lawful : integerDecl.Lawful where
  hash_lt v n hn := Nat.mod_lt v hn
  refl a := beq_self_eq_true a
  symm a b h := by simp_all [integerDecl]
  trans a b c h h' := by simp_all [integerDecl]
  hash_eq a b h n := by simp_all [integerDecl]

/-- The value 4 has slot 0, which is also where a pointer to `null` points;
deleting `null` leaves it there. -/
theorem refines_set_null :
    BoundedSet.run (integerDecl_lawful.key 0) 4 ∅ ([.add 4, .add 0, .remove 0].map (Call.map integerDecl_lawful.key)) =
      (members integerDecl_lawful ⟨4, 3, [4, 0, 0, 0], [1], 0⟩, [.found true, .found true, .status 0]) := by
  have hnew : new integerDecl (fun _ => true) (fun _ => 0) 2 =
      (0, some ⟨4, 3, [0, 0, 0, 0], [0], 0⟩, [.calloc 1 1, .malloc 32]) := rfl
  have h₁ : Run integerDecl ⟨4, 3, [0, 0, 0, 0], [0], 0⟩ ([] ++ [(.add 4, .pointer (some 0))])
      ⟨4, 3, [4, 0, 0, 0], [1], 0⟩ := .call 0 .nil rfl
  have h₂ : Run integerDecl _ (_ ++ [(.add 0, .pointer (some 0))]) ⟨4, 3, [4, 0, 0, 0], [1], 1⟩ := .call 0 h₁ rfl
  have h₃ : Run integerDecl _ (_ ++ [(.remove 0, .status 0)]) ⟨4, 3, [4, 0, 0, 0], [1], 0⟩ := .call 0 h₂ rfl
  exact (refines_set integerDecl_lawful hnew ⟨2, rfl⟩ h₃).1

end SphSc.SphSet

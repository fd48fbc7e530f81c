import SphSc.Lib.Parking
import SphSc.SphSet.Refinement
/-!
# The slots of a set depend on its members only

Whatever was added and removed before, a set occupies the slots that its
members occupy when they are added to a new set, in any order.
-/
open Exec Probing

namespace SphSc.SphSet

namespace BoundedSet

variable {κ : Type} [DecidableEq κ]

theorem run_cons (null : κ) (capacity : Nat) (m : Finset κ) (c : Call κ) (cs : List (Call κ)) :
    (run null capacity m (c :: cs)).1 = (run null capacity (step null capacity m c).1 cs).1 := by
  induction cs using List.reverseRecOn with
  | nil => rfl
  | append_singleton cs c' ih => rw [← List.cons_append, run_snoc, run_snoc, ih]

/-- Values for which there is room are all added. -/
theorem run_add {null : κ} {capacity : Nat} {m : Finset κ} {ks : List κ} (hcard : (m ∪ ks.toFinset).card ≤ capacity) :
    (run null capacity m (ks.map .add)).1 = m ∪ ks.toFinset := by
  induction ks generalizing m with
  | nil => simp [run]
  | cons k ks ih =>
    have hunion : insert k m ∪ ks.toFinset = m ∪ (k :: ks).toFinset := by
      rw [List.toFinset_cons, Finset.insert_union, Finset.union_insert]
    have hstep : (step null capacity m (.add k)).1 = insert k m := by
      rw [step]
      split
      · rfl
      · rename_i hno
        simp only [not_or, Nat.not_lt] at hno
        have hlt : m.card < (m ∪ (k :: ks).toFinset).card := by
          refine Finset.card_lt_card ⟨Finset.subset_union_left, fun hsub => hno.2.1 (hsub ?_)⟩
          simp
        have hle := Finset.card_erase_le (s := m) (a := null)
        omega
    rw [List.map_cons, run_cons, hstep, ih (by rwa [hunion]), hunion]

end BoundedSet

variable {E : Type} {d : Decl E}

theorem bit_eq {a : Table E} (hs : Shape a) {i : Nat} (hi : i < a.size) : bit a.occupied i = (layout a i).isSome :=
  Bool.eq_iff_iff.2 (hs.layout_isSome hi).symm

variable {hd : d.Lawful}

/-- `add` returns while the block of values has room for every slot. -/
theorem add_returns {a : Table E} (hi : Inv hd a) (hroom : a.size ≤ a.values.length) (value : E) :
    ∃ a' p, add d a value = .ok (a', p) ∧ a'.values.length = a.values.length := by
  cases hv : d.equal value d.null with
  | true =>
    rw [add, if_pos hv]
    exact ⟨_, _, rfl, rfl⟩
  | false =>
    have hf := found hd hi.toShape value
    rw [add, if_neg (by simp [hv]), addLoop_eq d hi.toShape value _ (hd.hash_lt value _ hi.size_pos)]
    cases hr : scan a.size (fun e => d.equal e value) (layout a) a.size (d.hash value a.size) with
    | hit i => exact ⟨a, some i, rfl, rfl⟩
    | round => exact ⟨a, none, rfl, rfl⟩
    | gap i =>
      rw [hr] at hf
      have hlt : i < a.size := hf.1
      have hbyte : i / 8 < a.occupied.length := by rw [hi.occupied]; omega
      obtain ⟨occupied, hset, -⟩ := occupiedSet_eq hbyte
      refine ⟨{ a with values := a.values.set i value, occupied }, some i, ?_, by simp⟩
      simp [put, write_of_lt _ (Nat.lt_of_lt_of_le hlt hroom), hset]

theorem adds_return {f : Table E} (hf : Inv hd f) (hroom : f.size ≤ f.values.length) (vs : List E) :
    ∃ es f', es.map Prod.fst = vs.map .add ∧ Run d f es f' ∧ f'.values.length = f.values.length := by
  induction vs using List.reverseRecOn with
  | nil => exact ⟨[], f, rfl, .nil, rfl⟩
  | append_singleton vs v ih =>
    obtain ⟨es, f', hes, hrun, hlen⟩ := ih
    obtain ⟨hf', hsize, -⟩ := run_inv hf hrun
    obtain ⟨f'', p, hadd, hlen'⟩ := add_returns hf' (by rw [hsize, hlen]; exact hroom) v
    refine ⟨es ++ [(.add v, .pointer p)], f'', by simp [hes], .call 0 hrun ?_, hlen'.trans hlen⟩
    simp [call, hadd]

/-- Adding values that are the members of `a` other than `null` to an empty set
gives a set with the same slots. -/
theorem slots_of_adds {a f f' : Table E} {es : List (Call E × Reply)} {vs : List E} (ha : Inv hd a) (hf : Inv hd f)
    (hempty : members hd f = ∅) (hsize : f.size = a.size)
    (hvs : ∀ k, k ∈ vs.map hd.key ↔ k ∈ members hd a ∧ k ≠ hd.key d.null) (hadds : es.map Prod.fst = vs.map .add)
    (hrun : Run d f es f') : ∀ i < a.size, bit a.occupied i = bit f'.occupied i := by
  obtain ⟨hf', hfsize', hfrun⟩ := run_inv hf hrun
  -- both sets have the same values
  have hset : (vs.map hd.key).toFinset = (members hd a).erase (hd.key d.null) := by
    ext k
    rw [List.mem_toFinset, hvs, Finset.mem_erase, and_comm]
  rw [erase_null ha] at hset
  have hcalls : (es.map fun e => e.1.map hd.key) = (vs.map hd.key).map .add := by
    have := congrArg (List.map (Call.map hd.key)) hadds
    simpa [List.map_map, Function.comp_def, Call.map] using this
  have hcard : (∅ ∪ (vs.map hd.key).toFinset).card ≤ f.size := by
    rw [Finset.empty_union, hset, hsize]
    exact card_keySet_le
  have hmembers : members hd f' = keySet a.size hd.key (layout a) := by
    have hfinal := congrArg Prod.fst hfrun
    rw [hcalls, hempty, BoundedSet.run_add hcard, Finset.empty_union, hset] at hfinal
    exact hfinal.symm
  have hkeys : keySet f'.size hd.key (layout f') = keySet a.size hd.key (layout a) := by
    rw [← erase_null hf', hmembers]
    exact Finset.erase_eq_of_notMem (null_not_mem ha)
  have hsizes : f'.size = a.size := hfsize'.trans hsize
  intro i hlt
  rw [bit_eq ha.toShape hlt, bit_eq hf'.toShape (by omega)]
  refine (same_slots hf'.probed ?_ (hd.home_lt hf'.size_pos) ?_ (by omega)).symm
  · rw [hsizes]
    exact ha.probed
  · rw [hkeys, hsizes]

/-- After any calls that return, the occupied slots are those that the values other
than `null` that the calls leave in a bounded set occupy once they are added, in any
order, to a new set of the same size. These adds return if the new set has its
block for the values. -/
theorem slots_of_members (hd : d.Lawful) {grants grants' : Grants} {junk junk' : Nat → E} {minSize minSize' : Nat}
    {t t' f : Table E} {rs rs' : List Request} {es : List (Call E × Reply)} {vs : List E}
    (hnew : new d grants junk minSize = (0, some t, rs)) (hsize : ∃ k, t.size = 2 ^ k) (hrun : Run d t es t')
    (hfresh : new d grants' junk' minSize' = (0, some f, rs')) (hsame : f.size = t.size)
    (hvs : ∀ k, k ∈ vs.map hd.key ↔
      k ∈ (BoundedSet.run (hd.key d.null) t.size ∅ (es.map fun e => e.1.map hd.key)).1 ∧ k ≠ hd.key d.null) :
    (f.size ≤ f.values.length → ∃ es' f', es'.map Prod.fst = vs.map .add ∧ Run d f es' f') ∧
      ∀ es' f', es'.map Prod.fst = vs.map .add → Run d f es' f' →
        ∀ i < t.size, bit t'.occupied i = bit f'.occupied i := by
  obtain ⟨hi, hnone⟩ := new_spec hd hnew hsize
  obtain ⟨hf, hempty⟩ := new_spec hd hfresh (hsame ▸ hsize)
  obtain ⟨hi', hsize', hmembers⟩ := run_inv hi hrun
  rw [hnone] at hmembers
  rw [hmembers] at hvs
  refine ⟨fun hroom => ?_, fun es' f' hadds hrun' => ?_⟩
  · obtain ⟨es', f', hes, hrun', -⟩ := adds_return hf hroom vs
    exact ⟨es', f', hes, hrun'⟩
  · rw [← hsize']
    exact slots_of_adds hi' hf hempty (hsame.trans hsize'.symm) hvs hadds hrun'

/-- The values 1 and 9 are in slots 1 and 2, whichever is where, whether 5 was there before or not. -/
theorem slots_of_members_two : ∃ t' f' es es', Run integerDecl ⟨4, 3, [0, 0, 0, 0], [0], 0⟩ es t' ∧
    Run integerDecl ⟨4, 3, [0, 0, 0, 0], [0], 0⟩ es' f' ∧ t'.values ≠ f'.values ∧
      bit t'.occupied 2 = bit f'.occupied 2 := by
  have hnew : new integerDecl (fun _ => true) (fun _ => 0) 2 =
      (0, some ⟨4, 3, [0, 0, 0, 0], [0], 0⟩, [.calloc 1 1, .malloc 32]) := rfl
  have h₁ : Run integerDecl ⟨4, 3, [0, 0, 0, 0], [0], 0⟩ ([] ++ [(.add 5, .pointer (some 1))])
      ⟨4, 3, [0, 5, 0, 0], [2], 0⟩ := .call 0 .nil rfl
  have h₂ : Run integerDecl _ (_ ++ [(.add 1, .pointer (some 2))]) ⟨4, 3, [0, 5, 1, 0], [6], 0⟩ := .call 0 h₁ rfl
  have h₃ : Run integerDecl _ (_ ++ [(.add 9, .pointer (some 3))]) ⟨4, 3, [0, 5, 1, 9], [14], 0⟩ := .call 0 h₂ rfl
  have h₄ : Run integerDecl _ (_ ++ [(.remove 5, .status 0)]) ⟨4, 3, [0, 1, 9, 9], [6], 0⟩ := .call 3 h₃ rfl
  have h₅ : Run integerDecl ⟨4, 3, [0, 0, 0, 0], [0], 0⟩ ([] ++ [(.add 9, .pointer (some 1))])
      ⟨4, 3, [0, 9, 0, 0], [2], 0⟩ := .call 0 .nil rfl
  have h₆ : Run integerDecl _ (_ ++ [(.add 1, .pointer (some 2))]) ⟨4, 3, [0, 9, 1, 0], [6], 0⟩ := .call 0 h₅ rfl
  refine ⟨_, _, _, _, h₄, h₆, by decide, ?_⟩
  have hm : (BoundedSet.run (integerDecl_lawful.key 0) 4 ∅
      ([.add 5, .add 1, .add 9, .remove 5].map (Call.map integerDecl_lawful.key))).1 =
      {integerDecl_lawful.key 1, integerDecl_lawful.key 9} := by decide
  have h1 : integerDecl_lawful.key 1 ≠ integerDecl_lawful.key integerDecl.null := by decide
  have h9 : integerDecl_lawful.key 9 ≠ integerDecl_lawful.key integerDecl.null := by decide
  have hvs : ∀ k, k ∈ [9, 1].map integerDecl_lawful.key ↔
      k ∈ (BoundedSet.run (integerDecl_lawful.key 0) 4 ∅
        ([.add 5, .add 1, .add 9, .remove 5].map (Call.map integerDecl_lawful.key))).1 ∧
          k ≠ integerDecl_lawful.key integerDecl.null := by
    intro k
    rw [hm, List.map_cons, List.map_singleton, Finset.mem_insert, Finset.mem_singleton, List.mem_pair]
    constructor
    · rintro (rfl | rfl)
      · exact ⟨.inr rfl, h9⟩
      · exact ⟨.inl rfl, h1⟩
    · exact fun h => h.1.symm
  exact (slots_of_members integerDecl_lawful hnew ⟨2, rfl⟩ h₄ hnew rfl hvs).2 _ _ rfl h₆ 2 (by decide)

end SphSc.SphSet

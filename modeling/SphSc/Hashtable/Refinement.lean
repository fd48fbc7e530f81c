import SphSc.Hashtable.Layout
/-!
# A hashtable is a finite map

`BoundedMap` is what a table is for: a finite map over classes of equal keys
that takes new keys while fewer than `capacity` are stored. `call_refines`
shows that every call that returns does to the map a table holds, and replies,
what `BoundedMap.step` says. `run_refines` is the same for runs of calls.
-/
open Exec Ring Probing

namespace SphSc.Hashtable

variable {K V κ : Type}

/-! ## The map -/

namespace BoundedMap

variable [DecidableEq κ]

def step (capacity : Nat) (m : Finmap fun _ : κ => V) : Call κ V → (Finmap fun _ : κ => V) × Reply V
  | .get k => (m, .value (m.lookup k))
  | .set k v =>
    if k ∈ m then (m, .value (m.lookup k))
    else if m.keys.card < capacity then (m.insert k v, .value (some v))
    else (m, .value none)
  | .remove k => if k ∈ m then (m.erase k, .status 0) else (m, .status 1)
  | .clear => (∅, .done)

/-- The map after the calls, and their replies. -/
def run (capacity : Nat) (m : Finmap fun _ : κ => V) (cs : List (Call κ V)) :
    (Finmap fun _ : κ => V) × List (Reply V) :=
  cs.foldl (fun s c => let (m, r) := step capacity s.1 c; (m, s.2 ++ [r])) (m, [])

theorem run_snoc (capacity : Nat) (m : Finmap fun _ : κ => V) (cs : List (Call κ V)) (c : Call κ V) :
    run capacity m (cs ++ [c]) =
      ((step capacity (run capacity m cs).1 c).1,
        (run capacity m cs).2 ++ [(step capacity (run capacity m cs).1 c).2]) := by
  simp [run]

end BoundedMap

def Call.map (f : K → κ) : Call K V → Call κ V
  | .get key => .get (f key)
  | .set key value => .set (f key) value
  | .remove key => .remove (f key)
  | .clear => .clear

/-! ## The invariant and what each function does -/

section
variable {d : Decl K V} (hd : d.Lawful)

/-- The class of an entry's key. -/
def keyOf (e : K × V) : hd.Key := hd.key e.1

structure Inv (a : Table K V) : Prop extends Shape a where
  probed : WellProbed a.size (hd.home a.size) (keyOf hd) (layout a)

/-- The finite map a table holds. -/
def contents (a : Table K V) : Finmap fun _ : hd.Key => V :=
  Probing.contents a.size (keyOf hd) Prod.snd (layout a)

variable {hd} {a a' : Table K V} {key : K}

theorem test_iff (key : K) (e : K × V) : d.equal e.1 key = true ↔ keyOf hd e = hd.key key := hd.key_eq.symm

variable (hd) in
/-- How the scan for `key` ends. -/
theorem found (hs : Shape a) (key : K) :
    (scan a.size (fun e => d.equal e.1 key) (layout a) a.size (d.hash key a.size)).Sound a.size (keyOf hd)
      (layout a) (d.hash key a.size) (hd.key key) :=
  scan_sound (hd.hash_lt key _ hs.size_pos) (test_iff key)

theorem lookup_hit (hi : Inv hd a) {i : Nat} {e : K × V} (hlt : i < a.size) (he : layout a i = some e)
    (hk : keyOf hd e = hd.key key) : (contents hd a).lookup (hd.key key) = some e.2 :=
  (lookup_contents hi.probed).2 ⟨e, ⟨i, hlt, he⟩, hk, rfl⟩

theorem not_mem (hi : Inv hd a) (habs : ∀ e, Stores a.size (layout a) e → keyOf hd e ≠ hd.key key) :
    hd.key key ∉ contents hd a := by
  rw [contents, mem_contents hi.probed]
  rintro ⟨e, he, hk⟩
  exact habs e he hk

theorem not_mem_of_gap (hi : Inv hd a) {i : Nat} (hlt : i < a.size) (he : layout a i = none)
    (hs : Scanned a.size (keyOf hd) (layout a) (d.hash key a.size) (hd.key key)
      (dist a.size (d.hash key a.size) i)) : hd.key key ∉ contents hd a :=
  not_mem hi (absent_of_empty (k := hd.key key) hi.probed (hd.home_lt hi.size_pos) hlt he hs)

theorem not_mem_of_round (hi : Inv hd a)
    (hs : Scanned a.size (keyOf hd) (layout a) (d.hash key a.size) (hd.key key) a.size) :
    hd.key key ∉ contents hd a :=
  not_mem hi (absent_of_round (k := hd.key key) (hd.home_lt hi.size_pos) hs)

theorem get_spec (hi : Inv hd a) (key : K) : ∃ p, get d a key = .ok p ∧
    deref a p = .ok ((contents hd a).lookup (hd.key key)) := by
  have hhome := hd.hash_lt key _ hi.size_pos
  have hf := found hd hi.toShape key
  rw [get, getLoop_eq d hi.toShape key _ hhome]
  cases hr : scan a.size (fun e => d.equal e.1 key) (layout a) a.size (d.hash key a.size) with
  | hit i =>
    rw [hr] at hf
    obtain ⟨hlt, e, he, hk⟩ := hf
    exact ⟨some i, rfl, by simp [deref, read_value he, lookup_hit hi hlt he hk]⟩
  | gap i =>
    rw [hr] at hf
    have habs := not_mem_of_gap hi hf.1 hf.2.1 hf.2.2
    exact ⟨none, rfl, by simp [deref, Finmap.lookup_eq_none.2 habs]⟩
  | round =>
    rw [hr] at hf
    exact ⟨none, rfl, by simp [deref, Finmap.lookup_eq_none.2 (not_mem_of_round hi hf)]⟩

/-- `set` finds the key, fills a free slot, or finds neither. -/
theorem set_cases (hi : Inv hd a) {value : V} {p : Option Nat} (h : set d a key value = .ok (a', p)) :
    (a' = a ∧ ∃ i e, p = some i ∧ i < a.size ∧ layout a i = some e ∧ keyOf hd e = hd.key key) ∨
    (hd.key key ∉ contents hd a ∧ ∃ i, p = some i ∧ i < a.size ∧ layout a i = none ∧
      put a i key value = .ok a' ∧ Scanned a.size (keyOf hd) (layout a) (d.hash key a.size) (hd.key key)
        (dist a.size (d.hash key a.size) i)) ∨
    (hd.key key ∉ contents hd a ∧ p = none ∧ a' = a ∧ ∀ i < a.size, (layout a i).isSome) := by
  have hhome := hd.hash_lt key _ hi.size_pos
  have hf := found hd hi.toShape key
  rw [set, setLoop_eq d hi.toShape key value _ hhome] at h
  cases hr : scan a.size (fun e => d.equal e.1 key) (layout a) a.size (d.hash key a.size) with
  | hit i =>
    rw [hr] at hf h
    cases h
    obtain ⟨hlt, e, he, hk⟩ := hf
    exact .inl ⟨rfl, i, e, rfl, hlt, he, hk⟩
  | gap i =>
    rw [hr] at hf h
    obtain ⟨a'', hput, h⟩ := bind_eq_ok.1 h
    cases h
    exact .inr (.inl ⟨not_mem_of_gap hi hf.1 hf.2.1 hf.2.2, i, rfl, hf.1, hf.2.1, hput, hf.2.2⟩)
  | round =>
    rw [hr] at hf h
    cases h
    refine .inr (.inr ⟨not_mem_of_round hi hf, rfl, rfl, fun i hlt => ?_⟩)
    obtain ⟨e, he, -⟩ := hf i hlt (dist_lt hhome hlt)
    simp [he]

/-- `remove` misses the key, or deletes it. -/
theorem remove_cases (hi : Inv hd a) {fuel : Nat} {s : Byte} (h : remove d fuel a key = .ok (s, a')) :
    (s = 1 ∧ a' = a ∧ hd.key key ∉ contents hd a) ∨
    (s = 0 ∧ Shape a' ∧ a'.size = a.size ∧ ∃ i e, i < a.size ∧ layout a i = some e ∧ keyOf hd e = hd.key key ∧
      Deleted a.size (hd.home a.size) (keyOf hd) (layout a) e (layout a')) := by
  have hhome := hd.home_lt hi.size_pos
  have hshifts : ShiftRound a.size (hd.home a.size) (keyOf hd) _ layout (shiftRound d) :=
    shiftRound_shifts d hd.hash_lt a.size
  obtain ⟨p, hseek, h⟩ := bind_eq_ok.1 h
  rcases seek_loop (k := hd.key key) (findRound_seeks d hi.toShape key) hi.probed hhome (test_iff key) hseek with
    ⟨rfl, habs⟩ | ⟨i, e, rfl, hlt, he, hk⟩
  · cases h
    exact .inl ⟨rfl, rfl, not_mem hi habs⟩
  · obtain ⟨b, hshift, h⟩ := bind_eq_ok.1 h
    cases h
    obtain ⟨⟨hs, hsize⟩, hdel⟩ := shift_loop hshifts hhome ⟨hi.toShape, rfl⟩ hi.probed hlt he hshift
    exact .inr ⟨rfl, hs, hsize, i, e, hlt, he, hk, hdel⟩

/-! ## Refinement -/

/-- A new entry is a new key of the map. -/
theorem insert_refines (hi : Inv hd a) {value : V} {i : Nat} (hlt : i < a.size) (he : layout a i = none)
    (hput : put a i key value = .ok a') (hm : hd.key key ∉ contents hd a)
    (hs : Scanned a.size (keyOf hd) (layout a) (d.hash key a.size) (hd.key key)
      (dist a.size (d.hash key a.size) i)) :
    Inv hd a' ∧ a'.size = a.size ∧ contents hd a' = (contents hd a).insert (hd.key key) value := by
  have hsize : a'.size = a.size := by obtain ⟨-, -, -, rfl⟩ := put_eq_ok hput; rfl
  have hlay := layout_put hput
  have hprobed := insert (e := (key, value)) hi.probed (hd.home_lt hi.size_pos) hlt he hs
  refine ⟨⟨shape_put hi.toShape hput, by rw [hsize, hlay]; exact hprobed⟩, hsize, ?_⟩
  rw [contents, contents, hsize, hlay]
  refine contents_insert hi.probed hprobed (fun e' he' hk => hm ?_) fun e' => stores_insert (e := (key, value)) hlt he e'
  exact (mem_contents hi.probed).2 ⟨e', he', hk⟩

/-- The map has room while a slot is empty. -/
theorem room_iff (hi : Inv hd a) : (contents hd a).keys.card < a.size ↔ ∃ i < a.size, layout a i = none := by
  rw [contents, keys_contents hi.probed, card_keySet_lt hi.probed]

theorem set_refines (hi : Inv hd a) {value : V} {p : Option Nat} {v : Option V} (h : set d a key value = .ok (a', p))
    (hv : deref a' p = .ok v) : Inv hd a' ∧ a'.size = a.size ∧
      BoundedMap.step a.size (contents hd a) (.set (hd.key key) value) = (contents hd a', .value v) ∧
      (v = none → a' = a) := by
  rw [BoundedMap.step]
  rcases set_cases hi h with ⟨rfl, i, e, rfl, hlt, he, hk⟩ | ⟨hm, i, rfl, hlt, he, hput, hs⟩ | ⟨hm, rfl, rfl, hfull⟩
  · have hl := lookup_hit hi hlt he hk
    rw [if_pos (Finmap.mem_of_lookup_eq_some hl), hl]
    simp only [deref, read_value he, ok_bind, pure_eq_ok, Except.ok.injEq] at hv
    subst hv
    exact ⟨hi, rfl, rfl, fun _ => rfl⟩
  · obtain ⟨hi', hsize, hcontents⟩ := insert_refines hi hlt he hput hm hs
    rw [if_neg hm, if_pos ((room_iff hi).2 ⟨i, hlt, he⟩), hcontents]
    rw [deref, read_value (e := (key, value)) (by simp [layout_put hput])] at hv
    cases hv
    exact ⟨hi', hsize, rfl, by rintro ⟨⟩⟩
  · have hfull' : ¬ (contents hd a').keys.card < a'.size := by
      rw [room_iff hi]
      rintro ⟨i, hlt, hn⟩
      simpa [hn] using hfull i hlt
    rw [if_neg hm, if_neg hfull']
    cases hv
    exact ⟨hi, rfl, rfl, fun _ => rfl⟩

theorem remove_refines (hi : Inv hd a) {fuel : Nat} {s : Byte} (h : remove d fuel a key = .ok (s, a')) :
    Inv hd a' ∧ a'.size = a.size ∧
      BoundedMap.step a.size (contents hd a) (.remove (hd.key key)) = (contents hd a', .status s) ∧
      (s = 1 → a' = a) := by
  rw [BoundedMap.step]
  rcases remove_cases hi h with ⟨rfl, rfl, hm⟩ | ⟨rfl, hs, hsize, i, e, hlt, he, hk, hdel⟩
  · rw [if_neg hm]
    exact ⟨hi, rfl, rfl, fun _ => rfl⟩
  · rw [if_pos (Finmap.mem_of_lookup_eq_some (lookup_hit hi hlt he hk))]
    refine ⟨⟨hs, by rw [hsize]; exact hdel.probed⟩, hsize, ?_, by rintro ⟨⟩⟩
    rw [contents, contents, hsize]
    congr 1
    exact (contents_erase hi.probed hdel.probed (by simpa only [hk] using hdel.stores)).symm

theorem clear_refines (hi : Inv hd a) (h : clear a = .ok a') : Inv hd a' ∧ a'.size = a.size ∧ contents hd a' = ∅ := by
  obtain rfl := clear_eq_ok hi.toShape h
  refine ⟨⟨shape_cleared hi.toShape, ?_⟩, rfl, ?_⟩
  · rw [layout_cleared]
    exact wellProbed_empty fun _ _ => rfl
  · rw [contents, layout_cleared, contents_empty]

/-- What a call that returns does. A pointer reply of 0 and a status of 1 leave
the table as it was. -/
theorem call_refines (hi : Inv hd a) {fuel : Nat} {c : Call K V} {r : Reply V} (h : call d fuel a c = .ok (a', r)) :
    Inv hd a' ∧ a'.size = a.size ∧
      BoundedMap.step a.size (contents hd a) (c.map hd.key) = (contents hd a', r) ∧
      (r = .value none ∨ r = .status 1 → a' = a) := by
  cases c with
  | get key =>
    obtain ⟨p, hp, hv⟩ := get_spec hi key
    rw [call, hp, ok_bind, hv] at h
    cases h
    exact ⟨hi, rfl, rfl, fun _ => rfl⟩
  | set key value =>
    obtain ⟨⟨b, p⟩, hset, h⟩ := bind_eq_ok.1 h
    obtain ⟨v, hv, h⟩ := bind_eq_ok.1 h
    cases h
    obtain ⟨hi', hsize, hstep, hsame⟩ := set_refines hi hset hv
    exact ⟨hi', hsize, hstep, by simpa using hsame⟩
  | remove key =>
    obtain ⟨⟨s, b⟩, hrem, h⟩ := bind_eq_ok.1 h
    cases h
    obtain ⟨hi', hsize, hstep, hsame⟩ := remove_refines hi hrem
    exact ⟨hi', hsize, hstep, by simpa using hsame⟩
  | clear =>
    obtain ⟨b, hclear, h⟩ := bind_eq_ok.1 h
    cases h
    obtain ⟨hi', hsize, hcontents⟩ := clear_refines hi hclear
    exact ⟨hi', hsize, by rw [hcontents]; rfl, by rintro (⟨⟨⟩⟩ | ⟨⟨⟩⟩)⟩

theorem new_spec {grants : Grants} {junk : Nat → V} {minimumSize : Nat} {t : Table K V} {rs : List Request}
    (hd : d.Lawful) (h : new d grants junk minimumSize = (0, some t, rs)) (hp : ∃ k, t.size = 2 ^ k) :
    Inv hd t ∧ contents hd t = ∅ := by
  obtain ⟨hs, hlay⟩ := new_shape h hp
  refine ⟨⟨hs, ?_⟩, ?_⟩
  · rw [hlay]
    exact wellProbed_empty fun _ _ => rfl
  · rw [contents, hlay, contents_empty]

theorem run_inv {es : List (Call K V × Reply V)} (hi : Inv hd a) (h : Run d a es a') : Inv hd a' ∧ a'.size = a.size ∧
    BoundedMap.run a.size (contents hd a) (es.map fun e => e.1.map hd.key) = (contents hd a', es.map Prod.snd) := by
  induction h with
  | nil => exact ⟨hi, rfl, rfl⟩
  | call fuel _ hcall ih =>
    obtain ⟨hi', hsize, hrun⟩ := ih
    obtain ⟨hi'', hsize', hstep, -⟩ := call_refines hi' hcall
    rw [hsize] at hstep
    refine ⟨hi'', hsize'.trans hsize, ?_⟩
    simp only [List.map_append, List.map_cons, List.map_nil, BoundedMap.run_snoc, hrun, hstep]

/-- A table from `name##_new` and any calls on it that return reply like the
finite map of at most `size` keys, and hold what that map holds. A `set` that
finds no room and a `remove` that finds no key leave the table as it was. -/
theorem refines_map (hd : d.Lawful) {grants : Grants} {junk : Nat → V} {minimumSize : Nat} {t t' : Table K V}
    {rs : List Request} {es : List (Call K V × Reply V)} (hnew : new d grants junk minimumSize = (0, some t, rs))
    (hsize : ∃ k, t.size = 2 ^ k) (hrun : Run d t es t') :
    BoundedMap.run t.size ∅ (es.map fun e => e.1.map hd.key) = (contents hd t', es.map Prod.snd) ∧
    ∀ fuel c t'' r, call d fuel t' c = .ok (t'', r) → r = .value none ∨ r = .status 1 → t'' = t' := by
  obtain ⟨hi, h0⟩ := new_spec hd hnew hsize
  obtain ⟨hi', -, h⟩ := run_inv hi hrun
  exact ⟨h0 ▸ h, fun _ _ _ _ hcall => (call_refines hi' hcall).2.2.2⟩

end

/-- `sph_hashtable_hash_integer` and `sph_hashtable_equal_integer` on 64-bit keys and values. -/
def integerDecl : Decl Nat Nat where
  hash key size := key % size
  equal a b := a == b
  sizeFactor := 2
  sizeofKey := 8
  sizeofValue := 8
  zeroKey := 0

theorem integerDecl_lawful : integerDecl.Lawful where
  hash_lt k n hn := Nat.mod_lt k hn
  refl a := beq_self_eq_true a
  symm a b h := by simp_all [integerDecl]
  trans a b c h h' := by simp_all [integerDecl]
  hash_eq a b h n := by simp_all [integerDecl]

/-- Keys 3 and 7 share the last of four slots as their home. Deleting 3 shifts
7 back over the wrap-around. -/
theorem refines_map_shift :
    BoundedMap.run 4 ∅ ([.set 3 30, .set 7 70, .remove 3].map (Call.map integerDecl_lawful.key)) =
      (contents integerDecl_lawful ⟨4, 3, [0, 0, 0, 1], [7, 0, 0, 7], [70, 0, 0, 70]⟩,
        [.value (some 30), .value (some 70), .status 0]) := by
  have hnew : new integerDecl (fun _ => true) (fun _ => 0) 2 =
      (0, some ⟨4, 3, [0, 0, 0, 0], [0, 0, 0, 0], [0, 0, 0, 0]⟩, [.malloc 32, .calloc 4 8, .calloc 4 1]) := rfl
  have h₁ : Run integerDecl ⟨4, 3, [0, 0, 0, 0], [0, 0, 0, 0], [0, 0, 0, 0]⟩ ([] ++ [(.set 3 30, .value (some 30))])
      ⟨4, 3, [0, 0, 0, 1], [0, 0, 0, 3], [0, 0, 0, 30]⟩ := .call 0 .nil rfl
  have h₂ : Run integerDecl _ (_ ++ [(.set 7 70, .value (some 70))])
      ⟨4, 3, [1, 0, 0, 1], [7, 0, 0, 3], [70, 0, 0, 30]⟩ := .call 0 h₁ rfl
  have h₃ : Run integerDecl _ (_ ++ [(.remove 3, .status 0)])
      ⟨4, 3, [0, 0, 0, 1], [7, 0, 0, 7], [70, 0, 0, 70]⟩ := .call 2 h₂ rfl
  exact (refines_map integerDecl_lawful hnew ⟨2, rfl⟩ h₃).1

end SphSc.Hashtable

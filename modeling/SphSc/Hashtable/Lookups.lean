import SphSc.Hashtable.Refinement
import SphSc.Lib.Displacement
/-!
# What lookups cost

`name##_get` reads the flag of one slot after another. Which slots are full, how
many slots it reads until it gives up on a key, and how many it reads for all the
keys of the table depend on the keys only, not on the calls that put them there.
-/
open Exec Ring Probing

namespace SphSc.Hashtable

variable {K V : Type} (d : Decl K V)

/-- The loop of `get`, with the number of slots that it reads. -/
def getLoopCounted (a : Table K V) (key : K) : (remaining index : Nat) → Exec (Option Nat × Nat)
  | 0, _ => return (none, 0)
  | remaining + 1, index => do
    if (← read a.flags index) = empty then return (none, 1)
    else if ← holdsKey d a key index then return (some index, 1)
    else
      let (p, reads) ← getLoopCounted a key remaining (wadd index 1 &&& a.mask)
      return (p, reads + 1)

def getCounted (a : Table K V) (key : K) : Exec (Option Nat × Nat) :=
  getLoopCounted d a key a.size (d.hash key a.size)

/-- The slots that are read to look up each of the keys once. -/
def lookUp (a : Table K V) : List K → Exec Nat
  | [] => return 0
  | key :: keys => do
    let (_, reads) ← getCounted d a key
    let rest ← lookUp a keys
    return reads + rest

variable {a b t : Table K V} {key : K}

/-- It is `get` that reads them. -/
theorem getLoopCounted_get (a : Table K V) (key : K) (remaining index : Nat) :
    (getLoopCounted d a key remaining index >>= fun r => .ok r.1) = getLoop d a key remaining index := by
  induction remaining generalizing index with
  | zero => rfl
  | succ remaining ih =>
    rw [getLoopCounted, getLoop, ← ih]
    cases read a.flags index with
    | error e => rfl
    | ok flag =>
      simp only [ok_bind]
      split
      · rfl
      · cases holdsKey d a key index with
        | error e => rfl
        | ok holds =>
          cases holds with
          | true => rfl
          | false =>
            simp only [ok_bind, Bool.false_eq_true, if_false, bind_assoc]
            rfl

theorem getLoopCounted_eq (hs : Shape a) (key : K) (remaining : Nat) {i : Nat} (hi : i < a.size) :
    ∃ p, getLoopCounted d a key remaining i =
      .ok (p, steps a.size (fun e => d.equal e.1 key) (layout a) remaining i) := by
  induction remaining generalizing i with
  | zero => exact ⟨none, rfl⟩
  | succ remaining ih =>
    rw [getLoopCounted, hs.read_flag hi, holdsKey_eq d hs key hi, steps]
    cases he : layout a i with
    | none => exact ⟨none, rfl⟩
    | some e =>
      cases hk : d.equal e.1 key with
      | true => exact ⟨some i, by simp [hk, empty, full]⟩
      | false =>
        obtain ⟨p, hp⟩ := ih (next_lt hi)
        exact ⟨p, by simp [hk, empty, full, hs.next hi, hp]⟩

variable {d} {hd : d.Lawful}

/-- The slots that a lookup reads, as the layout has them. -/
theorem getCounted_eq (hi : Inv hd a) (key : K) :
    ∃ p, get d a key = .ok p ∧
      getCounted d a key = .ok (p, reads a.size (hd.home a.size) (keyOf hd) (layout a) (hd.key key)) := by
  obtain ⟨p, hp⟩ := getLoopCounted_eq d hi.toShape key a.size (hd.hash_lt key _ hi.size_pos)
  have htest : (fun e : K × V => d.equal e.1 key) = fun e => decide (keyOf hd e = hd.key key) := by
    funext e
    exact Bool.eq_iff_iff.2 ((test_iff key e).trans decide_eq_true_iff.symm)
  have hget := getLoopCounted_get d a key a.size (d.hash key a.size)
  rw [hp, ok_bind] at hget
  refine ⟨p, hget.symm, ?_⟩
  rw [getCounted, hp, htest]
  rfl

theorem lookUp_eq (hi : Inv hd a) (keys : List K) : lookUp d a keys =
    .ok ((keys.map hd.key).map (reads a.size (hd.home a.size) (keyOf hd) (layout a))).sum := by
  induction keys with
  | nil => rfl
  | cons key keys ih =>
    obtain ⟨p, -, hcounted⟩ := getCounted_eq hi key
    rw [lookUp, hcounted, ih, List.map_cons, List.map_cons, List.sum_cons]
    rfl

theorem get_absent (hi : Inv hd a) (hkey : hd.key key ∉ contents hd a) : get d a key = .ok none := by
  obtain ⟨p, hget, hderef⟩ := get_spec hi key
  rw [Finmap.lookup_eq_none.2 hkey] at hderef
  cases p with
  | none => exact hget
  | some i =>
    obtain ⟨v, -, hok⟩ := bind_eq_ok.1 hderef
    cases hok

/-- Tables of the same size with the same keys. -/
theorem lookups_of_layouts (ha : Inv hd a) (hb : Inv hd b) (hsize : b.size = a.size)
    (hkeys : (contents hd a).keys = (contents hd b).keys) :
    (∀ i < a.size, a.flags[i]? = some full ↔ b.flags[i]? = some full) ∧
      (∀ key, hd.key key ∉ contents hd a → getCounted d a key = getCounted d b key) ∧
      ∀ ks, (ks.map hd.key).Nodup → (∀ k, k ∈ ks.map hd.key ↔ k ∈ contents hd a) →
        (contents hd a).keys.card < a.size → lookUp d a ks = lookUp d b ks := by
  have hwa := ha.probed
  have hwb : WellProbed a.size (hd.home a.size) (keyOf hd) (layout b) := hsize ▸ hb.probed
  have hhome : ∀ k, hd.home a.size k < a.size := hd.home_lt ha.size_pos
  have hset : keySet a.size (keyOf hd) (layout a) = keySet a.size (keyOf hd) (layout b) := by
    have h : (contents hd b).keys = keySet a.size (keyOf hd) (layout b) := by
      rw [contents, keys_contents hb.probed, hsize]
    rw [← h, ← hkeys, contents, keys_contents hwa]
  refine ⟨fun i hi => ?_, fun key hkey => ?_, fun ks hnodup hks hroom => ?_⟩
  · rw [← ha.layout_isSome, ← hb.layout_isSome, same_slots hwa hwb hhome hset hi]
  · have hkey' : hd.key key ∉ contents hd b := by
      rwa [← Finmap.mem_keys, ← hkeys, Finmap.mem_keys]
    have hnot : hd.key key ∉ keySet a.size (keyOf hd) (layout a) := by
      rwa [contents, mem_contents hwa, ← mem_keySet] at hkey
    obtain ⟨p, hget, hcounted⟩ := getCounted_eq ha key
    obtain ⟨q, hget', hcounted'⟩ := getCounted_eq hb key
    rw [get_absent ha hkey] at hget
    rw [get_absent hb hkey'] at hget'
    cases hget
    cases hget'
    rw [hcounted, hcounted', hsize, reads_absent hwa hwb hhome hset hnot]
  · rw [room_iff ha] at hroom
    obtain ⟨z, hz, hzn⟩ := hroom
    have htotal := sum_reads hwa hwb hhome hset hz hzn
    have hlist : (ks.map hd.key).toFinset = keySet a.size (keyOf hd) (layout a) := by
      ext k
      rw [List.mem_toFinset, hks, contents, mem_contents hwa, mem_keySet]
    rw [← hlist, List.sum_toFinset _ hnodup, List.sum_toFinset _ hnodup] at htotal
    rw [lookUp_eq ha, lookUp_eq hb, hsize, htotal]

/-- Two new tables of one size and any calls on them that return and leave the same
keys: the same slots are full, it takes as many reads to find that a key is not
there, and, while there is room, as many to look up all the keys. -/
theorem lookups_of_keys (hd : d.Lawful) {grants grants' : Grants} {junk junk' : Nat → V}
    {minimumSize minimumSize' : Nat} {t u t' u' : Table K V} {rs rs' : List Request}
    {es es' : List (Call K V × Reply V)} (hnew : new d grants junk minimumSize = (0, some t, rs))
    (hnew' : new d grants' junk' minimumSize' = (0, some u, rs')) (hpow : ∃ k, t.size = 2 ^ k)
    (hsize : u.size = t.size) (hrun : Run d t es t') (hrun' : Run d u es' u')
    (hkeys : (contents hd t').keys = (contents hd u').keys) :
    (∀ i < t.size, t'.flags[i]? = some full ↔ u'.flags[i]? = some full) ∧
      (∀ key, hd.key key ∉ contents hd t' → getCounted d t' key = getCounted d u' key) ∧
      ∀ ks, (ks.map hd.key).Nodup → (∀ k, k ∈ ks.map hd.key ↔ k ∈ contents hd t') →
        (contents hd t').keys.card < t.size → lookUp d t' ks = lookUp d u' ks := by
  obtain ⟨hi, -⟩ := new_spec hd hnew hpow
  obtain ⟨hj, -⟩ := new_spec hd hnew' (hsize ▸ hpow)
  obtain ⟨hi', ht, -⟩ := run_inv hi hrun
  obtain ⟨hj', hu, -⟩ := run_inv hj hrun'
  rw [← ht]
  exact lookups_of_layouts hi' hj' (hu.trans (hsize.trans ht.symm)) hkeys

/-- The keys 1 and 9 have the same home. Whichever came first, and whether or not 5 was there
before them, two lookups read three slots. -/
theorem lookups_of_keys_two : ∃ t u es es', Run integerDecl ⟨4, 3, [0, 0, 0, 0], [0, 0, 0, 0], [0, 0, 0, 0]⟩ es t ∧
    Run integerDecl ⟨4, 3, [0, 0, 0, 0], [0, 0, 0, 0], [0, 0, 0, 0]⟩ es' u ∧ t.keys ≠ u.keys ∧
      lookUp integerDecl t [1, 9] = .ok 3 ∧ lookUp integerDecl t [1, 9] = lookUp integerDecl u [1, 9] := by
  have hnew : new integerDecl (fun _ => true) (fun _ => 0) 2 =
      (0, some ⟨4, 3, [0, 0, 0, 0], [0, 0, 0, 0], [0, 0, 0, 0]⟩, [.malloc 32, .calloc 4 8, .calloc 4 1]) := rfl
  have h₁ : Run integerDecl ⟨4, 3, [0, 0, 0, 0], [0, 0, 0, 0], [0, 0, 0, 0]⟩ ([] ++ [(.set 5 50, .value (some 50))])
      ⟨4, 3, [0, 1, 0, 0], [0, 5, 0, 0], [0, 50, 0, 0]⟩ := .call 0 .nil rfl
  have h₂ : Run integerDecl _ (_ ++ [(.set 1 10, .value (some 10))])
      ⟨4, 3, [0, 1, 1, 0], [0, 5, 1, 0], [0, 50, 10, 0]⟩ := .call 0 h₁ rfl
  have h₃ : Run integerDecl _ (_ ++ [(.set 9 90, .value (some 90))])
      ⟨4, 3, [0, 1, 1, 1], [0, 5, 1, 9], [0, 50, 10, 90]⟩ := .call 0 h₂ rfl
  have h₄ : Run integerDecl _ (_ ++ [(.remove 5, .status 0)])
      ⟨4, 3, [0, 1, 1, 0], [0, 1, 9, 9], [0, 10, 90, 90]⟩ := .call 3 h₃ rfl
  have h₅ : Run integerDecl ⟨4, 3, [0, 0, 0, 0], [0, 0, 0, 0], [0, 0, 0, 0]⟩ ([] ++ [(.set 9 90, .value (some 90))])
      ⟨4, 3, [0, 1, 0, 0], [0, 9, 0, 0], [0, 90, 0, 0]⟩ := .call 0 .nil rfl
  have h₆ : Run integerDecl _ (_ ++ [(.set 1 10, .value (some 10))])
      ⟨4, 3, [0, 1, 1, 0], [0, 9, 1, 0], [0, 90, 10, 0]⟩ := .call 0 h₅ rfl
  refine ⟨_, _, _, _, h₄, h₆, by decide, rfl, ?_⟩
  have hkeys : (contents integerDecl_lawful (⟨4, 3, [0, 1, 1, 0], [0, 1, 9, 9], [0, 10, 90, 90]⟩ : Table Nat Nat)).keys =
      {integerDecl_lawful.key 1, integerDecl_lawful.key 9} := by decide
  have hkeys' : (contents integerDecl_lawful (⟨4, 3, [0, 1, 1, 0], [0, 9, 1, 0], [0, 90, 10, 0]⟩ : Table Nat Nat)).keys =
      {integerDecl_lawful.key 1, integerDecl_lawful.key 9} := by decide
  refine (lookups_of_keys integerDecl_lawful hnew hnew ⟨2, rfl⟩ rfl h₄ h₆ (hkeys.trans hkeys'.symm)).2.2 [1, 9]
    (by decide) (fun k => ?_) ?_
  · rw [← Finmap.mem_keys, hkeys, Finset.mem_insert, Finset.mem_singleton, List.map_cons, List.map_singleton,
      List.mem_pair]
  · rw [hkeys]
    decide

end SphSc.Hashtable

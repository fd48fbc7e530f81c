import SphSc.Lib.Agree
import SphSc.Hashtable.Refinement
import SphSc.SphSet.Refinement
/-!
# Tables and sets in step

`hashtable.h` and `set.h` have code of their own for the same probing. With one
hash and one equality, the keys of a table and the values of a set are in the
same slots after the same calls, whatever the hash and the equality are.
-/
open Exec Ring Probing

namespace SphSc.Lockstep

variable {E V : Type}

/-! ## Layouts with the same keys -/

section
variable {ε κ : Type} {n : Nat} {L : Nat → Option ε} {L' : Nat → Option κ} {f : ε → κ}

/-- What the slots of `L` store, seen through `f`. -/
def Slots (n : Nat) (f : ε → κ) (L : Nat → Option ε) (L' : Nat → Option κ) : Prop := ∀ i < n, L' i = (L i).map f

theorem Slots.update (h : Slots n f L L') (i : Nat) (e : Option ε) :
    Slots n f (Function.update L i e) (Function.update L' i (e.map f)) := by
  intro j hj
  rcases eq_or_ne j i with rfl | hji
  · simp only [Function.update_self]
  · simp only [Function.update_of_ne hji, h j hj]

theorem Slots.scan (h : Slots n f L L') (test : κ → Bool) (remaining : Nat) {i : Nat} (hi : i < n) :
    scan n test L' remaining i = scan n (fun e => test (f e)) L remaining i := by
  induction remaining generalizing i with
  | zero => rfl
  | succ remaining ih =>
    simp only [Probing.scan, h i hi]
    cases L i with
    | none => rfl
    | some e => simp only [Option.map_some, ih (next_lt hi)]

/-- The searches make the same rounds. -/
theorem Slots.seek (h : Slots n f L L') {test : κ → Bool} {seek seek' : Nat → Exec (Nat ⊕ Option Nat)}
    (hseek : SeekRound n (fun e => test (f e)) L seek) (hseek' : SeekRound n test L' seek') (fuel : Nat) {i : Nat}
    (hi : i < n) : loop seek' fuel i = loop seek fuel i := by
  refine loop_congr (fun i => i < n) ?_ ?_ fuel hi
  · intro i i' hi hr
    rcases hseek.cases hi with ⟨-, hr'⟩ | ⟨e, -, ⟨-, hr'⟩ | ⟨-, hr'⟩⟩ <;> rw [hr] at hr' <;> cases hr'
    exact next_lt hi
  · intro i hi
    rw [hseek i hi, hseek' i hi, h i hi]
    cases L i with
    | none => rfl
    | some e => rfl

section
variable {κ' σ τ : Type} {home : κ' → Nat} {key : κ → κ'} {ok : σ → Prop} {ok' : τ → Prop} {view : σ → Nat → Option ε}
  {view' : τ → Nat → Option κ} {shift : σ × Nat × Nat → Exec ((σ × Nat × Nat) ⊕ σ)}
  {shift' : τ × Nat × Nat → Exec ((τ × Nat × Nat) ⊕ τ)}

/-- States of the two shifts between rounds. -/
structure Shifts (n : Nat) (f : ε → κ) (ok : σ → Prop) (ok' : τ → Prop) (view : σ → Nat → Option ε)
    (view' : τ → Nat → Option κ) (s : σ × Nat × Nat) (t : τ × Nat × Nat) : Prop where
  ok : ok s.1
  ok' : ok' t.1
  slots : Slots n f (view s.1) (view' t.1)
  same : t.2 = s.2
  index : s.2.1 < n
  hole : s.2.2 < n
  full : (view s.1 s.2.2).isSome

/-- The shifts make the same rounds. -/
theorem agree_shift (hshift : ShiftRound n home (fun e => key (f e)) ok view shift)
    (hshift' : ShiftRound n home key ok' view' shift') (fuel : Nat) {s : σ} {t : τ} {hole : Nat} (hs : ok s)
    (ht : ok' t) (hslots : Slots n f (view s) (view' t)) (hhole : hole < n) (hfull : (view s hole).isSome) :
    Agree (fun s t => ok s ∧ ok' t ∧ Slots n f (view s) (view' t)) (loop shift fuel (s, hole, hole))
      (loop shift' fuel (t, hole, hole)) := by
  refine agree_loop (Shifts n f ok ok' view view') ?_ fuel ⟨hs, ht, hslots, rfl, hhole, hhole, hfull⟩
  rintro ⟨s, index, hole⟩ ⟨t, _⟩ ⟨hs, ht, hslots, rfl, hindex, hhole, hfull⟩
  simp only at hs ht hslots hindex hhole hfull
  have hfull' : (view' t hole).isSome := by
    rw [hslots hole hhole, Option.isSome_map]
    exact hfull
  have hr := hshift s index hole hs hindex hhole hfull
  have hr' := hshift' t index hole ht hindex hhole hfull'
  have hnext := hslots _ (next_lt hindex)
  cases he : view s (next n index) with
  | none =>
    simp only [he, Option.map_none] at hr hr' hnext
    simp only [hnext] at hr'
    obtain ⟨s', hr, hs', hv⟩ := hr
    obtain ⟨t', hr', ht', hv'⟩ := hr'
    rw [hr, hr']
    exact .ok (.inr ⟨hs', ht', by rw [hv, hv']; exact hslots.update hole none⟩)
  | some e =>
    simp only [he, Option.map_some] at hr hr' hnext
    simp only [hnext] at hr'
    split at hr
    · -- both move the entry into the hole
      rename_i hd
      rw [if_pos hd] at hr'
      obtain ⟨s', hr, hs', hv⟩ := hr
      obtain ⟨t', hr', ht', hv'⟩ := hr'
      rw [hr, hr']
      have hslots' : Slots n f (view s') (view' t') := by
        rw [hv, hv']
        exact hslots.update hole (some e)
      refine .ok (.inl ⟨hs', ht', hslots', rfl, next_lt hindex, next_lt hindex, ?_⟩)
      simp only [hv]
      rcases eq_or_ne (next n index) hole with heq | hne
      · rw [heq, Function.update_self]
        rfl
      · rw [Function.update_of_ne hne, he]
        rfl
    · rename_i hd
      rw [if_neg hd] at hr'
      rw [hr, hr']
      exact .ok (.inl ⟨hs, ht, hslots, rfl, next_lt hindex, hhole, hfull⟩)

end

end

/-! ## Calls -/

inductive Call (E V : Type) where
  | get (key : E)
  | put (key : E) (value : V)
  | remove (key : E)
  | clear

/-- The key of a call. -/
def Call.key : Call E V → Option E
  | .get key | .put key _ | .remove key => some key
  | .clear => none

/-- A call on a table. Pointers into `values` are slots. -/
def onTable (d : Hashtable.Decl E V) (fuel : Nat) (a : Hashtable.Table E V) :
    Call E V → Exec (Hashtable.Table E V × SphSet.Reply)
  | .get key => do
    let p ← Hashtable.get d a key
    return (a, .pointer p)
  | .put key value => do
    let (a, p) ← Hashtable.set d a key value
    return (a, .pointer p)
  | .remove key => do
    let (s, a) ← Hashtable.remove d fuel a key
    return (a, .status s)
  | .clear => do
    let a ← Hashtable.clear a
    return (a, .done)

/-- The same call on a set, which has no values. -/
def onSet (d : SphSet.Decl E) (fuel : Nat) (a : SphSet.Table E) : Call E V → Exec (SphSet.Table E × SphSet.Reply)
  | .get key => SphSet.call d fuel a (.get key)
  | .put key _ => SphSet.call d fuel a (.add key)
  | .remove key => SphSet.call d fuel a (.remove key)
  | .clear => SphSet.call d fuel a .clear

/-- Calls one after the other. -/
def calls {σ ρ : Type} (call : σ → Call E V → Exec (σ × ρ)) (s : σ) : List (Call E V) → Exec (σ × List ρ)
  | [] => return (s, [])
  | c :: cs => do
    let (s, r) ← call s c
    let (s, rs) ← calls call s cs
    return (s, r :: rs)

/-! ## In step -/

/-- The table and the set are of one size, with room for every slot, and the keys
of the one are where the values of the other are. -/
structure Same (a : Hashtable.Table E V) (b : SphSet.Table E) : Prop where
  table : Hashtable.Shape a
  set : SphSet.Shape b
  size : b.size = a.size
  tableRoom : a.size ≤ a.values.length
  setRoom : b.size ≤ b.values.length
  slots : Slots a.size Prod.fst (Hashtable.layout a) (SphSet.layout b)

variable {dt : Hashtable.Decl E V} {ds : SphSet.Decl E} {a : Hashtable.Table E V} {b : SphSet.Table E} {key : E}

/-- Both store into the slot. -/
theorem Same.store (h : Same a b) (key : E) (value : V) {i : Nat} (hi : i < a.size) :
    ∃ a' b', Hashtable.put a i key value = .ok a' ∧ SphSet.put b i key = .ok b' ∧ Same a' b' := by
  have hi' : i < b.size := h.size ▸ hi
  have hput := Hashtable.put_ok h.table hi h.tableRoom key value
  have hbyte : i / 8 < b.occupied.length := by
    rw [h.set.occupied]
    omega
  obtain ⟨occupied, hset, -⟩ := SphSet.occupiedSet_eq hbyte
  have hput' : SphSet.put b i key = .ok { b with values := b.values.set i key, occupied } := by
    simp [SphSet.put, write_of_lt _ (Nat.lt_of_lt_of_le hi' h.setRoom), hset]
  refine ⟨_, _, hput, hput', Hashtable.shape_put h.table hput, SphSet.shape_put h.set hi' hput', h.size, ?_, ?_, ?_⟩
  · simpa using h.tableRoom
  · simpa using h.setRoom
  · rw [Hashtable.layout_put hput, SphSet.layout_put h.set hi' hput']
    exact h.slots.update i (some (key, value))

/-- The shift of a table keeps its block of values. -/
theorem table_values {fuel index hole : Nat} {a' : Hashtable.Table E V}
    (h : loop (Hashtable.shiftRound dt) fuel (a, index, hole) = .ok a') : a'.values.length = a.values.length := by
  have hround : ∀ s x, Hashtable.shiftRound dt s = .ok x → (x.elim Prod.fst id).values.length = s.1.values.length := by
    rintro ⟨a, index, hole⟩ x h
    obtain ⟨f, -, h⟩ := bind_eq_ok.1 h
    split at h
    · obtain ⟨flags, -, h⟩ := bind_eq_ok.1 h
      cases h
      rfl
    · obtain ⟨k, -, h⟩ := bind_eq_ok.1 h
      simp only at h
      split at h
      · obtain ⟨keys, -, h⟩ := bind_eq_ok.1 h
        obtain ⟨v, -, h⟩ := bind_eq_ok.1 h
        obtain ⟨values, hvalues, h⟩ := bind_eq_ok.1 h
        obtain ⟨-, rfl⟩ := write_eq_ok.1 hvalues
        cases h
        exact List.length_set
      · cases h
        rfl
  exact loop_inv (fun s => s.1.values.length = a.values.length) (fun b => b.values.length = a.values.length)
    (fun s s' hs hnext => (hround s _ hnext).trans hs) (fun s b hs hexit => (hround s _ hexit).trans hs) rfl h

theorem set_values {fuel i j : Nat} {b' : SphSet.Table E} (h : loop (SphSet.shiftRound ds) fuel (b, i, j) = .ok b') :
    b'.values.length = b.values.length := by
  have hround : ∀ s x, SphSet.shiftRound ds s = .ok x → (x.elim Prod.fst id).values.length = s.1.values.length := by
    rintro ⟨b, i, j⟩ x h
    obtain ⟨f, -, h⟩ := bind_eq_ok.1 h
    split at h
    · obtain ⟨occupied, -, h⟩ := bind_eq_ok.1 h
      cases h
      rfl
    · obtain ⟨v, -, h⟩ := bind_eq_ok.1 h
      simp only at h
      split at h
      · obtain ⟨values, hvalues, h⟩ := bind_eq_ok.1 h
        obtain ⟨-, rfl⟩ := write_eq_ok.1 hvalues
        cases h
        exact List.length_set
      · cases h
        rfl
  exact loop_inv (fun s => s.1.values.length = b.values.length) (fun c => c.values.length = b.values.length)
    (fun s s' hs hnext => (hround s _ hnext).trans hs) (fun s c hs hexit => (hround s _ hexit).trans hs) rfl h

section
variable (hops : dt.toHashOps = ds.toHashOps) (hhash : ∀ k n, 0 < n → ds.hash k n < n)
include hops hhash

theorem Same.scan (h : Same a b) (key : E) :
    Probing.scan b.size (fun e => ds.equal e key) (SphSet.layout b) b.size (ds.hash key b.size) =
      Probing.scan a.size (fun e => dt.equal e.1 key) (Hashtable.layout a) a.size (dt.hash key a.size) := by
  rw [h.size, hops]
  exact h.slots.scan _ _ (hhash key _ h.table.size_pos)

theorem Same.get (h : Same a b) (hnull : ds.equal key ds.null = false) :
    SphSet.get ds b key = Hashtable.get dt a key := by
  have hstart : dt.hash key a.size < a.size := hops ▸ hhash key _ h.table.size_pos
  have hset := SphSet.getLoop_eq ds h.set key b.size (hhash key _ h.set.size_pos)
  have htable := Hashtable.getLoop_eq dt h.table key a.size hstart
  rw [h.scan hops hhash] at hset
  rw [SphSet.get, if_neg (by simp [hnull]), Hashtable.get]
  exact hset.trans htable.symm

theorem Same.put (h : Same a b) (hnull : ds.equal key ds.null = false) (value : V) :
    Agree (fun x y => Same x.1 y.1 ∧ x.1.size = a.size ∧ x.2 = y.2) (Hashtable.set dt a key value)
      (SphSet.add ds b key) := by
  have hstart : dt.hash key a.size < a.size := hops ▸ hhash key _ h.table.size_pos
  rw [SphSet.add, if_neg (by simp [hnull]), SphSet.addLoop_eq ds h.set key _ (hhash key _ h.set.size_pos),
    Hashtable.set, Hashtable.setLoop_eq dt h.table key value _ hstart, h.scan hops hhash]
  have hends : (Probing.scan a.size (fun e => dt.equal e.1 key) (Hashtable.layout a) a.size
      (dt.hash key a.size)).Ends a.size _ _ := scan_ends hstart
  cases hscan : Probing.scan a.size (fun e => dt.equal e.1 key) (Hashtable.layout a) a.size (dt.hash key a.size) with
  | hit i => exact .ok ⟨h, rfl, rfl⟩
  | round => exact .ok ⟨h, rfl, rfl⟩
  | gap i =>
    rw [hscan] at hends
    obtain ⟨a', b', hput, hput', hsame⟩ := h.store key value hends.1
    simp only [hput, hput', ok_bind, pure_eq_ok]
    refine .ok ⟨hsame, ?_, rfl⟩
    obtain ⟨-, -, -, rfl⟩ := Hashtable.put_eq_ok hput
    rfl

theorem Same.remove (h : Same a b) (hnull : ds.equal key ds.null = false) (fuel : Nat) :
    Agree (fun x y => x.1 = y.1 ∧ Same x.2 y.2 ∧ x.2.size = a.size) (Hashtable.remove dt fuel a key)
      (SphSet.remove ds fuel b key) := by
  have hhash' : ∀ k n, 0 < n → dt.hash k n < n := hops ▸ hhash
  have hstart : dt.hash key a.size < a.size := hhash' key _ h.table.size_pos
  have hfind := Hashtable.findRound_seeks dt h.table key
  have hfind' : SeekRound a.size (fun e => ds.equal e key) (SphSet.layout b) (SphSet.findRound ds b key) :=
    h.size ▸ SphSet.findRound_seeks ds h.set key
  have hseek : loop (SphSet.findRound ds b key) fuel (ds.hash key b.size) =
      loop (Hashtable.findRound dt a key) fuel (dt.hash key a.size) := by
    rw [h.size, ← hops]
    exact h.slots.seek (hops ▸ hfind) hfind' fuel hstart
  rw [SphSet.remove, if_neg (by simp [hnull]), Hashtable.remove, hseek]
  apply (agree_refl _).returns.bind
  rintro p _ ⟨rfl, hfound, -⟩
  cases p with
  | none => exact .ok ⟨rfl, h, rfl⟩
  | some i =>
    obtain ⟨hi, hfull⟩ := seek_ends hfind hstart hfound
    have hshift := Hashtable.shiftRound_shifts dt hhash' a.size
    have hshift' := SphSet.shiftRound_shifts ds hhash b
    rw [h.size] at hshift'
    have hagree : Agree _ _ _ :=
      agree_shift (hops ▸ hshift) hshift' fuel ⟨h.table, rfl⟩ ⟨h.set, h.size, rfl⟩ h.slots hi hfull
    apply hagree.returns.bind
    rintro a' b' ⟨⟨⟨hs, hsize⟩, ⟨hs', hsize', -⟩, hslots⟩, ha', hb'⟩
    refine .ok ⟨rfl, ⟨hs, hs', hsize'.trans hsize.symm, ?_, ?_, hsize.symm ▸ hslots⟩, hsize⟩
    · rw [table_values ha', hsize]
      exact h.tableRoom
    · rw [set_values hb', hsize', ← h.size]
      exact h.setRoom

omit hops hhash in
theorem Same.clear (h : Same a b) :
    ∃ a' b', Hashtable.clear a = .ok a' ∧ SphSet.clear b = .ok b' ∧ Same a' b' ∧ a'.size = a.size := by
  have hclear : ∃ a', Hashtable.clear a = .ok a' := by
    have hfill : fill a.flags 0 a.size Hashtable.empty = .ok _ := fill_eq_ok.2 ⟨by rw [h.table.flags]; omega, rfl⟩
    exact ⟨_, by rw [Hashtable.clear, hfill]; rfl⟩
  have hclear' : ∃ b', SphSet.clear b = .ok b' := by
    have hbytes : wadd 7 b.size >>> 3 = b.occupied.length := by
      rw [wadd, Nat.add_comm 7, ← wadd, SphSet.bytes_eq h.set.size_pow h.set.size_lt, ← h.set.occupied]
    have hfill : fill b.occupied 0 (wadd 7 b.size >>> 3) 0 = .ok _ := fill_eq_ok.2 ⟨by omega, rfl⟩
    exact ⟨_, by rw [SphSet.clear, hfill]; rfl⟩
  obtain ⟨a', ha'⟩ := hclear
  obtain ⟨b', hb'⟩ := hclear'
  refine ⟨a', b', ha', hb', ?_⟩
  obtain rfl := Hashtable.clear_eq_ok h.table ha'
  obtain rfl := SphSet.clear_eq_ok h.set hb'
  refine ⟨⟨Hashtable.shape_cleared h.table, SphSet.shape_cleared h.set, h.size, h.tableRoom, h.setRoom, ?_⟩, rfl⟩
  intro i _
  rw [Hashtable.layout_cleared, SphSet.layout_empty]
  rfl

theorem Same.call (h : Same a b) (c : Call E V) (hnull : ∀ key, c.key = some key → ds.equal key ds.null = false)
    (fuel : Nat) :
    Agree (fun x y => (Same x.1 y.1 ∧ x.1.size = a.size) ∧ x.2 = y.2) (onTable dt fuel a c) (onSet ds fuel b c) := by
  cases c with
  | get key =>
    simp only [onTable, onSet, SphSet.call, h.get hops hhash (hnull key rfl)]
    apply (agree_refl _).bind
    rintro p _ rfl
    exact .ok ⟨⟨h, rfl⟩, rfl⟩
  | put key value =>
    apply (h.put hops hhash (hnull key rfl) value).bind
    rintro ⟨a', p⟩ ⟨b', _⟩ ⟨hsame, hsize, rfl⟩
    exact .ok ⟨⟨hsame, hsize⟩, rfl⟩
  | remove key =>
    apply (h.remove hops hhash (hnull key rfl) fuel).bind
    rintro ⟨s, a'⟩ ⟨_, b'⟩ ⟨rfl, hsame, hsize⟩
    exact .ok ⟨⟨hsame, hsize⟩, rfl⟩
  | clear =>
    obtain ⟨a', b', ha', hb', hsame, hsize⟩ := h.clear
    simp only [onTable, onSet, SphSet.call, ha', hb', ok_bind, pure_eq_ok]
    exact .ok ⟨⟨hsame, hsize⟩, rfl⟩

theorem Same.calls (h : Same a b) (cs : List (Call E V))
    (hnull : ∀ c ∈ cs, ∀ key, c.key = some key → ds.equal key ds.null = false) (fuel : Nat) :
    Agree (fun x y => (Same x.1 y.1 ∧ x.1.size = a.size) ∧ x.2 = y.2) (Lockstep.calls (onTable dt fuel) a cs)
      (Lockstep.calls (onSet ds fuel) b cs) := by
  induction cs generalizing a b with
  | nil => exact .ok ⟨⟨h, rfl⟩, rfl⟩
  | cons c cs ih =>
    apply (h.call hops hhash c (hnull c (by simp)) fuel).bind
    rintro ⟨a', r⟩ ⟨b', _⟩ ⟨⟨hsame, hsize⟩, rfl⟩
    apply (ih hsame fun c hc => hnull c (by simp [hc])).bind
    rintro ⟨a'', rs⟩ ⟨b'', _⟩ ⟨⟨hsame', hsize'⟩, rfl⟩
    exact .ok ⟨⟨hsame', hsize'.trans hsize⟩, rfl⟩

end

/-- A table and a set of one size, new, with one hash and one equality, and calls
with keys that are not the value the set keeps apart: either both sequences of
calls return, with the same replies and slots, and the keys of the table in the
slots of the values of the set, or both stop for the same reason. -/
theorem in_step (hops : dt.toHashOps = ds.toHashOps) (hhash : ∀ k n, 0 < n → ds.hash k n < n)
    {grants grants' : Grants} {junk : Nat → V} {junk' : Nat → E} {minimumSize minSize : Nat} {rs rs' : List Request}
    (htable : Hashtable.new dt grants junk minimumSize = (0, some a, rs))
    (hset : SphSet.new ds grants' junk' minSize = (0, some b, rs')) (hpow : ∃ k, a.size = 2 ^ k) (hsize : b.size = a.size)
    (hroom : a.size ≤ a.values.length ∧ b.size ≤ b.values.length) (cs : List (Call E V))
    (hnull : ∀ c ∈ cs, ∀ key, c.key = some key → ds.equal key ds.null = false) (fuel : Nat) :
    Agree (fun x y => x.2 = y.2 ∧ ∀ i < a.size, SphSet.layout y.1 i = (Hashtable.layout x.1 i).map Prod.fst)
      (calls (onTable dt fuel) a cs) (calls (onSet ds fuel) b cs) := by
  obtain ⟨hs, hlayout⟩ := Hashtable.new_shape htable hpow
  obtain ⟨hs', -, hlayout'⟩ := SphSet.new_shape hset (hsize ▸ hpow)
  have hsame : Same a b := by
    refine ⟨hs, hs', hsize, hroom.1, hroom.2, fun i _ => ?_⟩
    rw [hlayout, hlayout']
    rfl
  apply (hsame.calls hops hhash cs hnull fuel).mono
  rintro ⟨a', rs⟩ ⟨b', _⟩ ⟨⟨h, hsize'⟩, rfl⟩
  exact ⟨rfl, fun i hi => h.slots i (hsize'.symm ▸ hi)⟩

/-- `in_step` where 7 is shifted back over the wrap-around. -/
theorem in_step_shift : Agree
    (fun x y => x.2 = y.2 ∧ ∀ i < 4, SphSet.layout y.1 i = (Hashtable.layout x.1 i).map Prod.fst)
    (calls (onTable Hashtable.integerDecl 4) ⟨4, 3, [0, 0, 0, 0], [0, 0, 0, 0], [0, 0, 0, 0]⟩
      [.put 3 30, .put 7 70, .remove 3, .get 7])
    (calls (onSet SphSet.integerDecl 4) ⟨4, 3, [0, 0, 0, 0], [0], 0⟩ [.put 3 30, .put 7 70, .remove 3, .get 7]) := by
  have htable : Hashtable.new Hashtable.integerDecl (fun _ => true) (fun _ => 0) 2 =
      (0, some ⟨4, 3, [0, 0, 0, 0], [0, 0, 0, 0], [0, 0, 0, 0]⟩, [.malloc 32, .calloc 4 8, .calloc 4 1]) := rfl
  have hset : SphSet.new SphSet.integerDecl (fun _ => true) (fun _ => 0) 2 =
      (0, some ⟨4, 3, [0, 0, 0, 0], [0], 0⟩, [.calloc 1 1, .malloc 32]) := rfl
  exact in_step rfl SphSet.integerDecl_lawful.hash_lt htable hset ⟨2, rfl⟩ rfl (by decide) _
    (by simp [Call.key, SphSet.integerDecl]) 4

end SphSc.Lockstep

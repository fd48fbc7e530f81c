import SphSc.Hashtable.Passed
/-!
# Tables with any hash

What every run keeps of a table, whatever the hash: a flag for each slot, and
for each occupied slot a value that has been stored.
-/
open Exec

namespace SphSc.Hashtable

variable {K V : Type}

structure Slotted (a : Table K V) : Prop where
  flags : a.flags.length = a.size
  flag : ∀ f ∈ a.flags, f = empty ∨ f = full
  value : ∀ i : Nat, a.flags[i]? = some full → i < a.values.length

variable {d : Decl K V} {a a' t : Table K V} {key : K}

namespace Slotted

theorem of_new {grants : Grants} {junk : Nat → V} {minimumSize : Nat} {rs : List Request}
    (h : new d grants junk minimumSize = (0, some t, rs)) : Slotted t := by
  obtain ⟨-, -, hflags, -⟩ := new_eq h
  refine ⟨by rw [hflags, List.length_replicate], ?_, ?_⟩
  · intro f hf
    rw [hflags] at hf
    exact .inl (List.eq_of_mem_replicate hf)
  · intro i hi
    rw [hflags] at hi
    simp [List.getElem?_replicate, full] at hi

/-- Emptying a slot. -/
theorem vacate (ha : Slotted a) (index : Nat) : Slotted { a with flags := a.flags.set index empty } := by
  refine ⟨by simpa using ha.flags, ?_, ?_⟩
  · intro f hf
    rcases List.mem_or_eq_of_mem_set hf with hf | rfl
    · exact ha.flag f hf
    · exact .inl rfl
  · intro i hi
    rcases getElem?_set_cases hi with hi | hi
    · exact absurd hi (by decide)
    · exact ha.value i hi

theorem put (ha : Slotted a) {index : Nat} {value : V} (h : Hashtable.put a index key value = .ok a') :
    Slotted a' := by
  obtain ⟨hf, -, hv, rfl⟩ := put_eq_ok h
  refine ⟨by simpa using ha.flags, ?_, ?_⟩
  · intro f hf
    rcases List.mem_or_eq_of_mem_set hf with hf | rfl
    · exact ha.flag f hf
    · exact .inr rfl
  · intro i hi
    rw [List.length_set]
    by_cases hii : index = i
    · exact hii ▸ hv
    · rw [List.getElem?_set_ne hii] at hi
      exact ha.value i hi

theorem set (ha : Slotted a) {value : V} {p : Option Nat} {remaining index : Nat}
    (h : setLoop d a key value remaining index = .ok (a', p)) : Slotted a' := by
  induction remaining generalizing index with
  | zero =>
    cases h
    exact ha
  | succ remaining ih =>
    obtain ⟨b, -, h⟩ := bind_eq_ok.1 h
    split at h
    · cases h
      exact ha
    · obtain ⟨f, -, h⟩ := bind_eq_ok.1 h
      split at h
      · obtain ⟨c, hput, h⟩ := bind_eq_ok.1 h
        cases h
        exact ha.put hput
      · exact ih h

theorem shiftRound (ha : Slotted a) {index hole : Nat} {x : (Table K V × Nat × Nat) ⊕ Table K V}
    (h : Hashtable.shiftRound d (a, index, hole) = .ok x) : Slotted (x.elim Prod.fst id) := by
  obtain ⟨f, -, h⟩ := bind_eq_ok.1 h
  split at h
  · obtain ⟨flags, hflags, h⟩ := bind_eq_ok.1 h
    obtain ⟨-, rfl⟩ := write_eq_ok.1 hflags
    cases h
    exact ha.vacate hole
  · obtain ⟨k, -, h⟩ := bind_eq_ok.1 h
    simp only at h
    split at h
    · obtain ⟨keys, -, h⟩ := bind_eq_ok.1 h
      obtain ⟨v, -, h⟩ := bind_eq_ok.1 h
      obtain ⟨values, hvalues, h⟩ := bind_eq_ok.1 h
      obtain ⟨-, rfl⟩ := write_eq_ok.1 hvalues
      cases h
      refine ⟨ha.flags, ha.flag, ?_⟩
      intro i hi
      exact (ha.value i hi).trans_eq List.length_set.symm
    · cases h
      exact ha

theorem remove (ha : Slotted a) {fuel : Nat} {s : Byte} (h : Hashtable.remove d fuel a key = .ok (s, a')) :
    Slotted a' := by
  obtain ⟨p, -, h⟩ := bind_eq_ok.1 h
  cases p with
  | none =>
    cases h
    exact ha
  | some j =>
    obtain ⟨b, hb, h⟩ := bind_eq_ok.1 h
    cases h
    refine loop_inv (fun s => Slotted s.1) Slotted ?_ ?_ ha hb
    · rintro ⟨b, index, hole⟩ s' hb h
      exact hb.shiftRound h
    · rintro ⟨b, index, hole⟩ b' hb h
      exact hb.shiftRound h

theorem clear (ha : Slotted a) (h : Hashtable.clear a = .ok a') : Slotted a' := by
  unfold Hashtable.clear at h
  obtain ⟨flags, hf, h⟩ := bind_eq_ok.1 h
  obtain ⟨-, rfl⟩ := fill_eq_ok.1 hf
  cases h
  have hflags : a.flags.take 0 ++ List.replicate a.size empty ++ a.flags.drop (0 + a.size) =
      List.replicate a.size empty := by simp [← ha.flags]
  rw [hflags]
  refine ⟨List.length_replicate, fun f hf => .inl (List.eq_of_mem_replicate hf), ?_⟩
  intro i hi
  simp [List.getElem?_replicate, empty, full] at hi

theorem call (ha : Slotted a) {fuel : Nat} {c : Call K V} {r : Reply V}
    (h : Hashtable.call d fuel a c = .ok (a', r)) : Slotted a' := by
  cases c with
  | get key =>
    obtain ⟨p, -, h⟩ := bind_eq_ok.1 h
    obtain ⟨v, -, h⟩ := bind_eq_ok.1 h
    cases h
    exact ha
  | set key value =>
    obtain ⟨⟨b, p⟩, hset, h⟩ := bind_eq_ok.1 h
    obtain ⟨v, -, h⟩ := bind_eq_ok.1 h
    cases h
    exact ha.set hset
  | remove key =>
    obtain ⟨⟨s, b⟩, hrem, h⟩ := bind_eq_ok.1 h
    cases h
    exact ha.remove hrem
  | clear =>
    obtain ⟨b, hclear, h⟩ := bind_eq_ok.1 h
    cases h
    exact ha.clear hclear

theorem run {es : List (Call K V × Reply V)} (ht : Slotted t) (h : Run d t es a) : Slotted a := by
  induction h with
  | nil => exact ht
  | call fuel _ hcall ih => exact ih.call hcall

end Slotted

end SphSc.Hashtable

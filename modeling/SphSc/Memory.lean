import Mathlib.Data.List.Induction
import SphSc.SphArray
/-!
# `memory.c`: the memory register

An array of addresses, each with the handler that releases it. Only `data` says
whether there is an array: `sph_memory_init` sets nothing else, and
`sph_memory_destroy` leaves the other fields as they were.
-/
open Exec Ring

namespace SphSc.Memory

open SphArray

/-- `memreg2_t` -/
structure Memreg2 where
  address : Nat
  handler : Nat
  deriving DecidableEq

/-- `sph_array_declare_type(sph_memory, memreg2_t)`: a record of two pointers. -/
def decl : Decl Memreg2 := declareType Memreg2 16 (by decide)

/-- `sph_memory_t` -/
abbrev Register := SphArray Memreg2

def init (a : Register) : Register := { a with data := none }

def addDirectly (a : Register) (address handler : Nat) : Exec Register := add a ⟨address, handler⟩

def addWithHandler (g : Answer Memreg2) (a : Register) (address handler : Nat) : Exec (Nat × Register) := do
  let (s, a) ← ensure decl g 4 a
  if s ≠ 0 then return (s, a)
  else
    let a ← addDirectly a address handler
    return (0, a)

/-- The loop of `destroy`; `remaining` is `a->used - i`. It gives the calls it
makes, each as the handler with the address it is called with. -/
def callHandlers (a : Register) : (remaining i : Nat) → Exec (List Memreg2)
  | 0, _ => return []
  | remaining + 1, i => do
    let m ← read a.block i
    let calls ← callHandlers a remaining (i + 1)
    return m :: calls

def destroy (a : Register) : Exec (Register × List Memreg2) :=
  if a.data.isNone then return (a, []) else do
    let calls ← callHandlers a a.used 0
    return ({ a with data := none }, calls)

/-! ## Runs -/

/-- A call that returned: an add with its status, a destroy with the calls it made. -/
inductive Event where
  | add (m : Memreg2) (s : Nat)
  | destroy (calls : List Memreg2)

/-- The calls made, in order, and the register after them. -/
inductive Run : List Event → Register → Prop
  | init (a : Register) : Run [] (init a)
  | add {es : List Event} {a a' : Register} {g : Answer Memreg2} {m : Memreg2} {s : Nat} : Run es a →
      addWithHandler g a m.address m.handler = .ok (s, a') → Run (es ++ [.add m s]) a'
  | destroy {es : List Event} {a a' : Register} {calls : List Memreg2} : Run es a → destroy a = .ok (a', calls) →
      Run (es ++ [.destroy calls]) a'

/-- What was added successfully since the last destroy. -/
def pending (es : List Event) : List Memreg2 :=
  es.foldl (fun ms e => match e with
    | .add m s => if s = 0 then ms ++ [m] else ms
    | .destroy _ => []) []

def registrations (es : List Event) : Nat := es.countP fun e => match e with
  | .add _ _ => true
  | .destroy _ => false

theorem pending_add (es : List Event) (m : Memreg2) (s : Nat) :
    pending (es ++ [.add m s]) = if s = 0 then pending es ++ [m] else pending es := by
  simp [pending]

theorem pending_destroy (es : List Event) (calls : List Memreg2) : pending (es ++ [.destroy calls]) = [] := by
  simp [pending]

theorem registrations_add (es : List Event) (m : Memreg2) (s : Nat) :
    registrations (es ++ [.add m s]) = registrations es + 1 := by
  simp [registrations]

theorem registrations_destroy (es : List Event) (calls : List Memreg2) :
    registrations (es ++ [.destroy calls]) = registrations es := by
  simp [registrations]

theorem length_pending (es : List Event) : (pending es).length ≤ registrations es := by
  induction es using List.reverseRecOn with
  | nil => exact Nat.le_refl 0
  | append_singleton es e ih =>
    cases e with
    | add m s =>
      rw [pending_add, registrations_add]
      split
      · rw [List.length_append, List.length_singleton]
        exact Nat.add_le_add_right ih 1
      · exact Nat.le_succ_of_le ih
    | destroy calls => simp [pending_destroy]

/-! ## What the register holds -/

/-- Without a block, nothing; `size` and `used` mean something only with one. -/
structure Registered (a : Register) (ms : List Memreg2) : Prop where
  contents : a.contents = ms
  sound : a.data.isSome → Sound a
  small : a.data.isSome → a.size ≤ 2 * a.used + 10

variable {a a' : Register} {ms : List Memreg2} {g : Answer Memreg2}

theorem registered_none (h : a.data = none) : Registered a [] where
  contents := by simp [contents, block, h]
  sound hs := by simp [h] at hs
  small hs := by simp [h] at hs

/-- With a block, `used` is the number of registrations. -/
theorem Registered.used (h : Registered a ms) (hdata : a.data.isSome) : a.used = ms.length := by
  rw [← h.contents, (h.sound hdata).length]

/-- `ensure` fails, or makes room for four. -/
theorem ensure_register (h : Registered a ms) (hcount : ms.length < 2 ^ 58) :
    ensure decl g 4 a = .ok (statusIdMemory, a) ∨
      ∃ b, ensure decl g 4 a = .ok (0, b) ∧ Registered b ms ∧ b.data.isSome ∧ b.used < b.size := by
  by_cases hdata : a.data.isSome
  · have hs := h.sound hdata
    have hsmall := h.small hdata
    have hused := h.used hdata
    have hneed : a.size < a.used + 4 → (4 + 2 * a.size) * decl.sizeofElement < word := by
      intro hlt
      simp only [decl, declareType, word]
      omega
    rcases ensure_spec (g := g) hs hneed with he | ⟨b, he, hb, hdata', hused', hcontents, hroom, hsize⟩
    · exact .inl he
    · refine .inr ⟨b, he, ⟨hcontents.trans h.contents, fun _ => hb, fun _ => ?_⟩, hdata', by omega⟩
      omega
  · have hnone : a.data = none := by simpa using hdata
    have hms : ms = [] := by
      rw [← h.contents]
      exact (registered_none hnone).contents
    have hsize : 4 * decl.sizeofElement < word := by decide
    unfold ensure
    rw [if_neg hdata]
    rcases new_spec (g := g) hsize a with hn | ⟨data, hn, hs⟩
    · exact .inl (by rw [hn]; rfl)
    · refine .inr ⟨_, by rw [hn]; rfl, ⟨?_, fun _ => hs, fun _ => by simp⟩, rfl, by simp⟩
      rw [hms]
      exact List.take_zero

/-- An add fails and changes nothing, or registers the address after the others. -/
theorem add_register (h : Registered a ms) (hcount : ms.length < 2 ^ 58) (m : Memreg2) :
    addWithHandler g a m.address m.handler = .ok (statusIdMemory, a) ∨
      ∃ b, addWithHandler g a m.address m.handler = .ok (0, b) ∧ Registered b (ms ++ [m]) := by
  unfold addWithHandler
  rcases ensure_register (g := g) h hcount with he | ⟨b, he, hb, hdata, hroom⟩
  · exact .inl (by rw [he]; rfl)
  · obtain ⟨c, hadd, hc, hsize, hused, -, hcontents⟩ := add_spec (hb.sound hdata) hroom m
    have hsmall := hb.small hdata
    refine .inr ⟨c, ?_, ⟨by rw [hcontents, hb.contents], fun _ => hc, fun _ => by omega⟩⟩
    simp [he, addDirectly, hadd]

theorem callHandlers_eq {remaining i : Nat} (h : remaining + i ≤ a.block.length) :
    callHandlers a remaining i = .ok ((a.block.drop i).take remaining) := by
  induction remaining generalizing i with
  | zero => simp [callHandlers]
  | succ remaining ih =>
    have hi : i < a.block.length := by omega
    rw [callHandlers, read_of_lt hi, ok_bind, ih (by omega), ok_bind, List.drop_eq_getElem_cons hi, List.take_succ_cons]
    rfl

/-- A destroy calls the registered handlers in order and leaves an empty register. -/
theorem destroy_register (h : Registered a ms) : ∃ b, destroy a = .ok (b, ms) ∧ b.data = none := by
  unfold destroy
  cases hdata : a.data with
  | none =>
    have hms : ms = [] := by
      rw [← h.contents]
      exact (registered_none hdata).contents
    exact ⟨a, by rw [hms]; rfl, hdata⟩
  | some data =>
    have hs := h.sound (by rw [hdata]; rfl)
    have hused : a.used + 0 ≤ a.block.length := by
      rw [hs.block]
      exact hs.used
    refine ⟨{ a with data := none }, ?_, rfl⟩
    rw [if_neg (by simp), callHandlers_eq hused, ok_bind, List.drop_zero]
    rw [show a.block.take a.used = ms from h.contents]
    rfl

theorem destroy_none (h : a.data = none) : destroy a = .ok (a, []) := by
  rw [destroy, h]
  rfl

theorem snoc_split {α : Type} {xs ys zs : List α} {x y : α} (h : zs ++ [x] = xs ++ y :: ys) :
    (zs = xs ∧ x = y) ∨ ∃ ys', zs = xs ++ y :: ys' := by
  rcases List.eq_nil_or_concat ys with rfl | ⟨ys', z, rfl⟩
  · obtain ⟨h1, h2⟩ := List.append_inj' h rfl
    exact .inl ⟨h1, by simpa using h2⟩
  · rw [List.concat_eq_append, ← List.cons_append, ← List.append_assoc] at h
    exact .inr ⟨ys', (List.append_inj' h rfl).1⟩

theorem run_register {es : List Event} (hrun : Run es a) (hcount : registrations es ≤ 2 ^ 58) :
    Registered a (pending es) ∧ ∀ xs calls ys, es = xs ++ .destroy calls :: ys → calls = pending xs := by
  induction hrun with
  | init a => exact ⟨registered_none rfl, fun xs calls ys h => by simp at h⟩
  | @add es a a' g m s _ hadd ih =>
    have hlt : registrations es < 2 ^ 58 := by
      rw [registrations_add] at hcount
      omega
    obtain ⟨hreg, hcalls⟩ := ih (Nat.le_of_lt hlt)
    refine ⟨?_, fun xs calls ys h => ?_⟩
    · rw [pending_add]
      rcases add_register (g := g) hreg (Nat.lt_of_le_of_lt (length_pending es) hlt) m with h | ⟨b, h, hb⟩
      · rw [h] at hadd
        cases hadd
        exact hreg
      · rw [h] at hadd
        cases hadd
        exact hb
    · -- an add is no destroy
      rcases snoc_split h with ⟨-, ⟨⟩⟩ | ⟨ys', rfl⟩
      exact hcalls _ _ _ rfl
  | @destroy es a a' calls _ hdestroy ih =>
    rw [registrations_destroy] at hcount
    obtain ⟨hreg, hcalls⟩ := ih hcount
    obtain ⟨b, h, hb⟩ := destroy_register hreg
    rw [h] at hdestroy
    cases hdestroy
    refine ⟨pending_destroy es _ ▸ registered_none hb, ?_⟩
    intro xs calls ys h
    rcases snoc_split h with ⟨rfl, ⟨⟩⟩ | ⟨ys', rfl⟩
    · rfl
    · exact hcalls _ _ _ rfl

/-- Along any calls, whatever allocations fail, a destroy calls what was added
successfully since the one before, once each and in order. The next destroy does
so too, and one right after it calls nothing. The next add registers its address,
or fails and leaves the register as it is. -/
theorem destroy_releases {es : List Event} (hrun : Run es a) (hcount : registrations es < 2 ^ 58) :
    (∀ xs calls ys, es = xs ++ .destroy calls :: ys → calls = pending xs) ∧
    (∃ b, destroy a = .ok (b, pending es) ∧ destroy b = .ok (b, [])) ∧
    ∀ g (m : Memreg2), ∃ s b, addWithHandler g a m.address m.handler = .ok (s, b) ∧
      (s = 0 ∨ s = statusIdMemory ∧ b = a) := by
  obtain ⟨hreg, hcalls⟩ := run_register hrun (Nat.le_of_lt hcount)
  refine ⟨hcalls, ?_, fun g m => ?_⟩
  · obtain ⟨b, h, hb⟩ := destroy_register hreg
    exact ⟨b, h, destroy_none hb⟩
  · rcases add_register (g := g) hreg (Nat.lt_of_le_of_lt (length_pending es) hcount) m with h | ⟨b, h, -⟩
    · exact ⟨_, a, h, .inr ⟨rfl, rfl⟩⟩
    · exact ⟨0, b, h, .inl rfl⟩

/-- The address 7 is registered, 8 is not because its block is refused, and the
destroy calls the handler 1 with 7 alone. -/
theorem destroy_releases_one : ∃ a b, destroy a = .ok (b, [⟨7, 1⟩]) ∧ destroy b = .ok (b, []) ∧
    ∃ es, Run es a ∧ pending es = [⟨7, 1⟩] := by
  have hinit := Run.init ⟨5, 9, none⟩
  have hfail : addWithHandler none (init ⟨5, 9, none⟩) 8 1 = .ok (1, ⟨5, 9, none⟩) := rfl
  have hadd : addWithHandler (some fun _ => ⟨0, 0⟩) ⟨5, 9, none⟩ 7 1 =
      .ok (0, ⟨4, 1, some [⟨7, 1⟩, ⟨0, 0⟩, ⟨0, 0⟩, ⟨0, 0⟩]⟩) := rfl
  have hrun : Run ([] ++ [.add ⟨8, 1⟩ 1] ++ [.add ⟨7, 1⟩ 0]) ⟨4, 1, some [⟨7, 1⟩, ⟨0, 0⟩, ⟨0, 0⟩, ⟨0, 0⟩]⟩ :=
    .add (.add hinit hfail) hadd
  obtain ⟨-, ⟨b, hdestroy, hagain⟩, -⟩ := destroy_releases hrun (by decide)
  exact ⟨_, b, hdestroy, hagain, _, hrun, rfl⟩

end SphSc.Memory

import Mathlib.Tactic.Common
/-!
# Calls that may not return

A C call returns a value, leaves a block it was given, or runs on. `Exec` has
one outcome for each. Blocks are lists whose reads and writes are checked, and
`loop` is a `while` loop cut off after `fuel` rounds, so that "the call
returns" is "some fuel gives `.ok`" and "it never returns" is "every fuel
gives `.outOfFuel`".
-/

namespace Exec

/-- Why a call gives no value. -/
inductive Stop where
  | outOfBounds
  | outOfFuel
  deriving DecidableEq, Repr

end Exec

/-- The outcome of a call. -/
abbrev Exec (α : Type) := Except Exec.Stop α

namespace Exec

abbrev Byte := BitVec 8

variable {α β σ ρ : Type}

@[simp] theorem ok_bind (a : α) (f : α → Exec β) : (Except.ok a >>= f) = f a := rfl

@[simp] theorem pure_eq_ok (a : α) : (pure a : Exec α) = .ok a := rfl

theorem bind_eq_ok {x : Exec α} {f : α → Exec β} {b : β} :
    (x >>= f) = .ok b ↔ ∃ a, x = .ok a ∧ f a = .ok b := by
  cases x with
  | ok a => simp
  | error e => simp [bind, Except.bind]

/-- A call that only makes a value of another's stops where the other does. -/
theorem map_ne_error {x : Exec α} {e : Stop} (f : α → β) (h : x ≠ .error e) :
    (x >>= fun a => .ok (f a)) ≠ .error e := by
  cases x with
  | ok a =>
    rw [ok_bind]
    intro hok
    cases hok
  | error e' =>
    intro herror
    cases herror
    exact h rfl

/-! ## Blocks -/

/-- `block[i]`, read. -/
def read (block : List α) (i : Nat) : Exec α :=
  match block[i]? with
  | some a => .ok a
  | none => .error .outOfBounds

/-- `block[i] = a`. -/
def write (block : List α) (i : Nat) (a : α) : Exec (List α) :=
  if i < block.length then .ok (block.set i a) else .error .outOfBounds

theorem read_eq_ok {block : List α} {i : Nat} {a : α} : read block i = .ok a ↔ block[i]? = some a := by
  unfold read
  cases block[i]? <;> simp

theorem read_of_lt {block : List α} {i : Nat} (h : i < block.length) : read block i = .ok block[i] := by
  simp [read, h]

theorem read_of_le {block : List α} {i : Nat} (h : block.length ≤ i) : read block i = .error .outOfBounds := by
  simp [read, h]

/-- Past the first part of a block, the second is read. -/
theorem read_append (before after : List α) (i : Nat) : read (before ++ after) (before.length + i) = read after i := by
  unfold read
  rw [List.getElem?_append_right (Nat.le_add_right _ _), Nat.add_sub_cancel_left]

theorem read_length (before : List α) (a : α) (after : List α) : read (before ++ a :: after) before.length = .ok a :=
  read_append before (a :: after) 0

theorem write_eq_ok {block block' : List α} {i : Nat} {a : α} :
    write block i a = .ok block' ↔ i < block.length ∧ block' = block.set i a := by
  unfold write
  split
  · simp_all [eq_comm]
  · simp only [reduceCtorEq, false_iff, not_and]
    intro h
    omega

theorem write_of_lt {block : List α} {i : Nat} (a : α) (h : i < block.length) :
    write block i a = .ok (block.set i a) := by
  simp [write, h]

theorem write_length (before : List α) (a b : α) (after : List α) :
    write (before ++ a :: after) before.length b = .ok (before ++ b :: after) := by
  rw [write_of_lt _ (by simp), List.set_append_right _ _ (Nat.le_refl _), Nat.sub_self, List.set_cons_zero]

/-- The first slot that was not stored to. -/
theorem write_next (filled : List (Option α)) (n : Nat) (a : α) :
    write (filled ++ List.replicate (n + 1) none) filled.length (some a) =
      .ok (filled ++ [some a] ++ List.replicate n none) := by
  rw [List.replicate_succ, write_length, List.append_assoc, List.singleton_append]

/-- `memset` of `count` elements from `block + start` on. -/
def fill (block : List α) (start count : Nat) (a : α) : Exec (List α) :=
  if start + count ≤ block.length then
    .ok (block.take start ++ List.replicate count a ++ block.drop (start + count))
  else .error .outOfBounds

theorem fill_eq_ok {block block' : List α} {start count : Nat} {a : α} :
    fill block start count a = .ok block' ↔ start + count ≤ block.length ∧
      block' = block.take start ++ List.replicate count a ++ block.drop (start + count) := by
  unfold fill
  split
  · simp_all [eq_comm]
  · simp only [reduceCtorEq, false_iff, not_and]
    intro h
    omega

/-- `memcpy` of the first `count` elements of `source`. -/
def memcpy (block source : List α) (count : Nat) : Exec (List α) :=
  if count ≤ block.length ∧ count ≤ source.length then .ok (source.take count ++ block.drop count)
  else .error .outOfBounds

/-- `memcpy` of the first `count` elements of `source` to `block + start`. -/
def memcpyTo (block : List α) (start : Nat) (source : List α) (count : Nat) : Exec (List α) :=
  if start + count ≤ block.length ∧ count ≤ source.length then
    .ok (block.take start ++ source.take count ++ block.drop (start + count))
  else .error .outOfBounds

/-- The elements before stay, and there is less room after. -/
theorem memcpyTo_append {before room text : List α} (h : text.length ≤ room.length) (after : List α) :
    memcpyTo (before ++ room) before.length (text ++ after) text.length =
      .ok (before ++ text ++ room.drop text.length) := by
  rw [memcpyTo, if_pos ⟨by simpa using h, by simp⟩, List.take_left, List.take_left, List.drop_length_add_append]

/-! ## Allocation -/

/-- A request to the heap. -/
inductive Request where
  | calloc (count size : Nat)
  | malloc (bytes : Nat)
  deriving DecidableEq, Repr

/-- Which requests the heap grants, given all requests so far, the latest first. -/
abbrev Grants := List Request → Bool

/-! ## Loops -/

/-- At most `fuel` rounds of a loop. A round gives the next loop state, or
leaves the loop with a result. -/
def loop (body : σ → Exec (σ ⊕ ρ)) : Nat → σ → Exec ρ
  | 0, _ => .error .outOfFuel
  | fuel + 1, s => do
    match ← body s with
    | .inl s' => loop body fuel s'
    | .inr r => .ok r

theorem loop_next {body : σ → Exec (σ ⊕ ρ)} {s s' : σ} (h : body s = .ok (.inl s')) (fuel : Nat) :
    loop body (fuel + 1) s = loop body fuel s' := by
  rw [loop, h, ok_bind]

theorem loop_exit {body : σ → Exec (σ ⊕ ρ)} {s : σ} {r : ρ} (h : body s = .ok (.inr r)) (fuel : Nat) :
    loop body (fuel + 1) s = .ok r := by
  rw [loop, h, ok_bind]

/-- What every round keeps holds on the way out. -/
theorem loop_inv {body : σ → Exec (σ ⊕ ρ)} (I : σ → Prop) (Q : ρ → Prop)
    (hnext : ∀ s s', I s → body s = .ok (.inl s') → I s')
    (hexit : ∀ s r, I s → body s = .ok (.inr r) → Q r) {fuel : Nat} {s : σ} {r : ρ}
    (hI : I s) (h : loop body fuel s = .ok r) : Q r := by
  induction fuel generalizing s with
  | zero => cases h
  | succ fuel ih =>
    obtain ⟨x, hx, hr⟩ := bind_eq_ok.1 h
    cases x with
    | inl s' => exact ih (hnext s s' hI hx) hr
    | inr r' => cases hr; exact hexit s _ hI hx

/-- Loops whose rounds are the same on the states met are the same. -/
theorem loop_congr {body body' : σ → Exec (σ ⊕ ρ)} (I : σ → Prop)
    (hnext : ∀ s s', I s → body s = .ok (.inl s') → I s') (hsame : ∀ s, I s → body' s = body s) (fuel : Nat) {s : σ}
    (hI : I s) : loop body' fuel s = loop body fuel s := by
  induction fuel generalizing s with
  | zero => rfl
  | succ fuel ih =>
    simp only [loop, hsame s hI]
    cases h : body s with
    | error e => rfl
    | ok x =>
      cases x with
      | inl s' => exact ih (hnext s s' hI h)
      | inr r => rfl

/-- A loop whose rounds stay inside their blocks does. -/
theorem loop_in_bounds {body : σ → Exec (σ ⊕ ρ)} (I : σ → Prop)
    (hround : ∀ s, I s → (∃ r, body s = .ok (.inr r)) ∨ ∃ s', body s = .ok (.inl s') ∧ I s') (fuel : Nat) {s : σ}
    (hI : I s) : loop body fuel s ≠ .error .outOfBounds := by
  induction fuel generalizing s with
  | zero => simp [loop]
  | succ fuel ih =>
    rcases hround s hI with ⟨r, hr⟩ | ⟨s', hs, hI'⟩
    · simp [loop, hr]
    · simp only [loop, hs, ok_bind]
      exact ih hI'

/-- A loop returns when each round that goes on comes nearer to the end. -/
theorem loop_returns {body : σ → Exec (σ ⊕ ρ)} (I : σ → Prop) (left : σ → Nat)
    (hround : ∀ s, I s → (∃ r, body s = .ok (.inr r)) ∨ ∃ s', body s = .ok (.inl s') ∧ I s' ∧ left s' < left s)
    {fuel : Nat} {s : σ} (hI : I s) (hfuel : left s < fuel) : ∃ r, loop body fuel s = .ok r := by
  induction fuel generalizing s with
  | zero => omega
  | succ fuel ih =>
    rcases hround s hI with ⟨r, hr⟩ | ⟨s', hs, hI', hlt⟩
    · exact ⟨r, by simp only [loop, hr, ok_bind]⟩
    · obtain ⟨r, hr⟩ := ih hI' (by omega)
      exact ⟨r, by simp only [loop, hs, ok_bind, hr]⟩

/-- A loop ends when each round that goes on comes nearer to the end, even if a
round may leave its block. -/
theorem loop_ends {body : σ → Exec (σ ⊕ ρ)} (I : σ → Prop) (left : σ → Nat)
    (hround : ∀ s, I s → (∃ r, body s = .ok (.inr r)) ∨ body s = .error .outOfBounds ∨
      ∃ s', body s = .ok (.inl s') ∧ I s' ∧ left s' < left s)
    {fuel : Nat} {s : σ} (hI : I s) (hfuel : left s < fuel) : loop body fuel s ≠ .error .outOfFuel := by
  induction fuel generalizing s with
  | zero => omega
  | succ fuel ih =>
    rcases hround s hI with ⟨r, hr⟩ | hstop | ⟨s', hs, hI', hlt⟩
    · simp [loop, hr]
    · simp [loop, hstop, bind, Except.bind]
    · simp only [loop, hs, ok_bind]
      exact ih hI' (by omega)

/-- A loop whose rounds all go on never returns. -/
theorem loop_diverges {body : σ → Exec (σ ⊕ ρ)} (I : σ → Prop)
    (hnext : ∀ s, I s → ∃ s', body s = .ok (.inl s') ∧ I s') (fuel : Nat) {s : σ} (hI : I s) :
    loop body fuel s = .error .outOfFuel := by
  induction fuel generalizing s with
  | zero => rfl
  | succ fuel ih =>
    obtain ⟨s', hs, hI'⟩ := hnext s hI
    simp only [loop, hs, ok_bind]
    exact ih hI'

end Exec

import Mathlib.Data.Quot
import Mathlib.Tactic.Common
/-!
# Keys up to an equality

A hash table sees its keys through a hash and an equality. When the equality
is an equivalence and equal keys hash alike, the table is about the classes,
`Key`: classes have an equality of their own, and one home slot each.
-/

structure HashOps (K : Type) where
  hash : K → Nat → Nat
  equal : K → K → Bool

namespace HashOps

variable {K : Type} {o : HashOps K}

/-- What whoever supplies the operations owes. -/
structure Lawful (o : HashOps K) : Prop where
  hash_lt : ∀ k n, 0 < n → o.hash k n < n
  refl : ∀ a, o.equal a a = true
  symm : ∀ a b, o.equal a b = true → o.equal b a = true
  trans : ∀ a b c, o.equal a b = true → o.equal b c = true → o.equal a c = true
  hash_eq : ∀ a b, o.equal a b = true → ∀ n, o.hash a n = o.hash b n

namespace Lawful

variable (ho : o.Lawful)

def setoid : Setoid K where
  r a b := o.equal a b = true
  iseqv := ⟨ho.refl, ho.symm _ _, ho.trans _ _ _⟩

/-- Keys that are not told apart. -/
def Key : Type := Quotient ho.setoid

instance : DecidableEq ho.Key :=
  @Quotient.decidableEq K ho.setoid fun a b => inferInstanceAs (Decidable (o.equal a b = true))

def key (a : K) : ho.Key := Quotient.mk ho.setoid a

/-- The home slot among `n`. -/
def home (n : Nat) : ho.Key → Nat := Quotient.lift (fun k => o.hash k n) fun a b h => ho.hash_eq a b h n

@[simp] theorem home_key (n : Nat) (a : K) : ho.home n (ho.key a) = o.hash a n := rfl

theorem key_eq {a b : K} : ho.key a = ho.key b ↔ o.equal a b = true := Quotient.eq (r := ho.setoid)

theorem key_ne {a b : K} (h : o.equal a b = false) : ho.key a ≠ ho.key b := fun hc => by
  simp [ho.key_eq.1 hc] at h

theorem home_lt {n : Nat} (hn : 0 < n) (k : ho.Key) : ho.home n k < n := by
  induction k using Quotient.inductionOn with
  | h a => exact ho.hash_lt a n hn

end Lawful
end HashOps

import SphSc.Lib.Exec
/-!
# Calls that agree

Two calls agree when they return related values, or stop for the same reason.
Code that does the same on two representations agrees, step by step.
-/

namespace Exec

variable {α β α' β' σ τ : Type}

inductive Agree (Q : α → β → Prop) : Exec α → Exec β → Prop
  | ok {a : α} {b : β} : Q a b → Agree Q (.ok a) (.ok b)
  | error (e : Stop) : Agree Q (.error e) (.error e)

variable {Q : α → β → Prop} {x : Exec α} {y : Exec β}

theorem Agree.mono {R : α → β → Prop} (h : Agree Q x y) (hR : ∀ a b, Q a b → R a b) : Agree R x y := by
  cases h with
  | ok hab => exact .ok (hR _ _ hab)
  | error e => exact .error e

/-- What they return besides is what they return. -/
theorem Agree.returns (h : Agree Q x y) : Agree (fun a b => Q a b ∧ x = .ok a ∧ y = .ok b) x y := by
  cases h with
  | ok hab => exact .ok ⟨hab, rfl, rfl⟩
  | error e => exact .error e

theorem Agree.bind {R : α' → β' → Prop} {f : α → Exec α'} {g : β → Exec β'} (h : Agree Q x y)
    (hfg : ∀ a b, Q a b → Agree R (f a) (g b)) : Agree R (x >>= f) (y >>= g) := by
  cases h with
  | ok hab => exact hfg _ _ hab
  | error e => exact .error e

theorem agree_refl (x : Exec α) : Agree Eq x x := by
  cases x with
  | ok a => exact .ok rfl
  | error e => exact .error e

theorem Agree.eq {x y : Exec α} (h : Agree Eq x y) : x = y := by
  cases h with
  | ok hab => rw [hab]
  | error => rfl

/-- What is alike of the values is alike of the calls. -/
theorem Agree.map_eq {γ : Type} {f : α → γ} {g : β → γ} (h : Agree (fun a b => f a = g b) x y) : x.map f = y.map g := by
  cases h with
  | ok hab => exact congrArg Except.ok hab
  | error => rfl

/-- Loops whose rounds agree do. -/
theorem agree_loop {body : σ → Exec (σ ⊕ α)} {body' : τ → Exec (τ ⊕ β)} (I : σ → τ → Prop)
    (hround : ∀ s t, I s t → Agree (Sum.LiftRel I Q) (body s) (body' t)) (fuel : Nat) {s : σ} {t : τ} (h : I s t) :
    Agree Q (loop body fuel s) (loop body' fuel t) := by
  induction fuel generalizing s t with
  | zero => exact .error _
  | succ fuel ih =>
    apply (hround s t h).bind
    rintro _ _ (hst | hab)
    · exact ih hst
    · exact .ok hab

end Exec

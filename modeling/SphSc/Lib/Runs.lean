import Mathlib.Tactic.Common
/-!
# Runs of a step function

A system is a function from a state and an action to the next state, where the
action is possible. A `Run` lists the actions taken, each of which meets a
condition on the state it is taken in. What every such step keeps holds in
every state a run reaches.
-/

namespace Runs

variable {σ α : Type} {step : σ → α → Option σ} {ok ok' : σ → α → Prop} {s s' s'' : σ} {as as' : List α}

/-- Runs from `s` whose steps all meet `ok`: the actions, and the state reached. -/
inductive Run (step : σ → α → Option σ) (ok : σ → α → Prop) (s : σ) : List α → σ → Prop
  | nil : Run step ok s [] s
  | snoc {as : List α} {a : α} {s' s'' : σ} : Run step ok s as s' → ok s' a → step s' a = some s'' →
      Run step ok s (as ++ [a]) s''

/-- No condition. -/
def any (_ : σ) (_ : α) : Prop := True

theorem Run.inv {I : σ → Prop} (h : Run step ok s as s') (h0 : I s)
    (hstep : ∀ s a s', I s → ok s a → step s a = some s' → I s') : I s' := by
  induction h with
  | nil => exact h0
  | snoc _ hok hs ih => exact hstep _ _ _ ih hok hs

/-- An invariant may rest on another one. -/
theorem Run.inv₂ {I J : σ → Prop} (h : Run step ok s as s') (hJ : ∀ as' s', Run step ok s as' s' → J s') (h0 : I s)
    (hstep : ∀ s a s', J s → I s → ok s a → step s a = some s' → I s') : I s' := by
  induction h with
  | nil => exact h0
  | snoc hr hok hs ih => exact hstep _ _ _ (hJ _ _ hr) ih hok hs

theorem Run.mono (h : Run step ok s as s') (hok : ∀ s a, ok s a → ok' s a) : Run step ok' s as s' := by
  induction h with
  | nil => exact .nil
  | snoc _ ha hs ih => exact .snoc ih (hok _ _ ha) hs

theorem Run.append (h : Run step ok s as s') (h' : Run step ok s' as' s'') : Run step ok s (as ++ as') s'' := by
  induction h' with
  | nil => rwa [List.append_nil]
  | snoc _ ha hs ih => rw [← List.append_assoc]; exact .snoc ih ha hs

theorem Run.single {a : α} (ha : ok s a) (h : step s a = some s') : Run step ok s [a] s' := .snoc .nil ha h

theorem Run.cons {a : α} (ha : ok s a) (hs : step s a = some s') (h : Run step ok s' as s'') :
    Run step ok s (a :: as) s'' :=
  (Run.single ha hs).append h

/-- The last step of a run. -/
theorem Run.snoc_inv {a : α} (h : Run step ok s (as ++ [a]) s'') :
    ∃ s', Run step ok s as s' ∧ ok s' a ∧ step s' a = some s'' := by
  generalize hl : as ++ [a] = l at h
  cases h with
  | nil => simp at hl
  | snoc hr ha hs =>
    obtain ⟨rfl, hlast⟩ := List.append_inj' hl rfl
    obtain rfl := List.singleton_inj.1 hlast
    exact ⟨_, hr, ha, hs⟩

theorem Run.unique (h : Run step ok s as s') (h' : Run step ok' s as s'') : s' = s'' := by
  induction h generalizing s'' with
  | nil =>
    generalize hl : [] = l at h'
    cases h' with
    | nil => rfl
    | snoc => simp at hl
  | snoc _ _ hs ih =>
    obtain ⟨t, hr, -, hs'⟩ := h'.snoc_inv
    obtain rfl := ih hr
    exact Option.some.inj (hs.symm.trans hs')

/-- A run's steps meet another condition if the last one and those before it do. -/
theorem Run.snoc_iff {a : α} (h : Run step ok s as s') (hs : step s' a = some s'') :
    Run step ok' s (as ++ [a]) s'' ↔ Run step ok' s as s' ∧ ok' s' a := by
  constructor
  · intro h'
    obtain ⟨t, hr, ha, -⟩ := h'.snoc_inv
    obtain rfl := h.unique hr
    exact ⟨hr, ha⟩
  · rintro ⟨hr, ha⟩
    exact .snoc hr ha hs

/-- Two conditions that the steps of a run meet. -/
theorem Run.and (h : Run step ok s as s') (h' : Run step ok' s as s') :
    Run step (fun s a => ok s a ∧ ok' s a) s as s' := by
  induction h with
  | nil => exact .nil
  | snoc hr ha hs ih =>
    obtain ⟨t, hr', ha', -⟩ := h'.snoc_inv
    obtain rfl := hr.unique hr'
    exact .snoc (ih hr') ⟨ha, ha'⟩ hs

/-- Where each step is a step of another system or leaves it alone, a run is a
run of that system. -/
theorem Run.project {τ β : Type} {step₂ : τ → β → Option τ} {ok₂ : τ → β → Prop} {J : σ → Prop} (f : σ → τ)
    (h : Run step ok s as s') (hJ : ∀ as' s', Run step ok s as' s' → J s')
    (hstep : ∀ s a s', J s → ok s a → step s a = some s' →
      f s' = f s ∨ ∃ b, ok₂ (f s) b ∧ step₂ (f s) b = some (f s')) :
    ∃ bs, Run step₂ ok₂ (f s) bs (f s') := by
  induction h with
  | nil => exact ⟨[], .nil⟩
  | snoc hr ha hs ih =>
    obtain ⟨bs, hbs⟩ := ih
    rcases hstep _ _ _ (hJ _ _ hr) ha hs with hsame | ⟨b, hb, hs₂⟩
    · exact ⟨bs, hsame ▸ hbs⟩
    · exact ⟨bs ++ [b], .snoc hbs hb hs₂⟩

/-- The state after the actions, where they are all possible. -/
def exec (step : σ → α → Option σ) (s : σ) (as : List α) : Option σ := as.foldlM step s

/-- Where the condition does not depend on the state. -/
theorem run_of_exec_of (hok : ∀ a ∈ as, ∀ s, ok s a) (h : exec step s as = some s') : Run step ok s as s' := by
  induction as generalizing s with
  | nil => cases h; exact .nil
  | cons a as ih =>
    simp only [exec, List.foldlM_cons, Option.bind_eq_bind, Option.bind_eq_some_iff] at h
    obtain ⟨s₁, hs, h⟩ := h
    exact .cons (hok a List.mem_cons_self s) hs (ih (fun a ha => hok a (List.mem_cons_of_mem _ ha)) h)

theorem run_of_exec (h : exec step s as = some s') : Run step any s as s' := run_of_exec_of (fun _ _ _ => trivial) h

end Runs

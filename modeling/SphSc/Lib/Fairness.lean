import SphSc.Lib.Runs
/-!
# Endless runs and fairness

An execution takes a step at some moments and none at the others, for ever. An
agent is a set of actions. An execution is fair to an agent that is not left
out for ever: it goes on in the end, or comes to where it cannot. What an agent
can do as long as it has not done it then comes about.
-/

namespace Runs

variable {σ α : Type} {step : σ → α → Option σ} {ok : σ → α → Prop} {s s' : σ} {as : List α} {agent : α → Prop}

/-- Steps that all meet `ok`, at some of the moments. -/
structure Execution (step : σ → α → Option σ) (ok : σ → α → Prop) where
  state : Nat → σ
  action : Nat → Option α
  idle : ∀ t, action t = none → state (t + 1) = state t
  acts : ∀ t a, action t = some a → ok (state t) a ∧ step (state t) a = some (state (t + 1))

/-- One of the agent's actions is possible. -/
def CanAct (step : σ → α → Option σ) (ok : σ → α → Prop) (agent : α → Prop) (s : σ) : Prop :=
  ∃ a, agent a ∧ ok s a ∧ (step s a).isSome = true

namespace Execution

variable (x : Execution step ok)

/-- Weak fairness. -/
def FairTo (agent : α → Prop) : Prop :=
  ∀ t, ∃ u, t ≤ u ∧ (¬ CanAct step ok agent (x.state u) ∨ ∃ a, x.action u = some a ∧ agent a)

/-- What is so far is a run. -/
theorem run (t : Nat) : ∃ as, Run step ok (x.state 0) as (x.state t) := by
  induction t with
  | zero => exact ⟨[], .nil⟩
  | succ t ih =>
    obtain ⟨as, h⟩ := ih
    cases ha : x.action t with
    | none => exact ⟨as, x.idle t ha ▸ h⟩
    | some a => exact ⟨as ++ [a], h.snoc (x.acts t a ha).1 (x.acts t a ha).2⟩

/-- What every step keeps stays. -/
theorem stays {P : σ → Prop} {t u : Nat} (htu : t ≤ u) (h : P (x.state t))
    (hstep : ∀ v a, x.action v = some a → P (x.state v) → P (x.state (v + 1))) : P (x.state u) := by
  induction htu with
  | refl => exact h
  | @step u htu ih =>
    cases ha : x.action u with
    | none => exact x.idle u ha ▸ ih
    | some a => exact hstep u a ha ih

/-- As long as `P` holds the agent can go on, and `P` lasts until `Q` does, at the
latest by what the agent does. Then `Q` comes to hold. -/
theorem leads_to {P Q : σ → Prop} {t : Nat} (hfair : x.FairTo agent) (h : P (x.state t))
    (hcan : ∀ v, P (x.state v) → CanAct step ok agent (x.state v))
    (hstep : ∀ v a, x.action v = some a → P (x.state v) → (P (x.state (v + 1)) ∧ ¬ agent a) ∨ Q (x.state (v + 1))) :
    ∃ u, t ≤ u ∧ Q (x.state u) := by
  by_contra hnever
  have hlasts : ∀ u, t ≤ u → P (x.state u) := by
    intro u htu
    induction htu with
    | refl => exact h
    | @step u htu ih =>
      cases ha : x.action u with
      | none => exact x.idle u ha ▸ ih
      | some a =>
        rcases hstep u a ha ih with ⟨hp, -⟩ | hq
        · exact hp
        · exact absurd ⟨u + 1, Nat.le_succ_of_le htu, hq⟩ hnever
  obtain ⟨u, htu, hcannot | ⟨a, ha, hagent⟩⟩ := hfair t
  · exact hcannot (hcan u (hlasts u htu))
  · rcases hstep u a ha (hlasts u htu) with ⟨-, hno⟩ | hq
    · exact hno hagent
    · exact hnever ⟨u + 1, Nat.le_succ_of_le htu, hq⟩

/-- Finitely many things that come to hold, and stay, come to hold together. -/
theorem eventually_all {P : Nat → σ → Prop} {t k : Nat}
    (hstays : ∀ j < k, ∀ u v, t ≤ u → u ≤ v → P j (x.state u) → P j (x.state v))
    (h : ∀ j < k, ∃ u, t ≤ u ∧ P j (x.state u)) : ∃ u, t ≤ u ∧ ∀ j < k, P j (x.state u) := by
  induction k with
  | zero => exact ⟨t, Nat.le_refl t, fun j hj => absurd hj (Nat.not_lt_zero j)⟩
  | succ k ih =>
    obtain ⟨u, htu, hu⟩ := ih (fun j hj => hstays j (Nat.lt_succ_of_lt hj)) fun j hj => h j (Nat.lt_succ_of_lt hj)
    obtain ⟨v, htv, hv⟩ := h k (Nat.lt_succ_self k)
    refine ⟨max u v, Nat.le_trans htu (Nat.le_max_left u v), fun j hj => ?_⟩
    rcases Nat.lt_succ_iff_lt_or_eq.1 hj with hlt | rfl
    · exact hstays j hj u _ htu (Nat.le_max_left u v) (hu j hlt)
    · exact hstays j hj v _ htv (Nat.le_max_right u v) hv

/-- An agent that cannot go on any more is not left out. -/
theorem fairTo_of_cannot {t : Nat} (h : ∀ u, t ≤ u → ¬ CanAct step ok agent (x.state u)) : x.FairTo agent :=
  fun u => ⟨max t u, Nat.le_max_right t u, .inl (h _ (Nat.le_max_left t u))⟩

/-- Nothing is ever done. -/
def still (step : σ → α → Option σ) (ok : σ → α → Prop) (s : σ) : Execution step ok where
  state _ := s
  action _ := none
  idle _ _ := rfl
  acts _ _ h := by cases h

/-- One more step before all others. -/
def after {s : σ} {a : α} (ha : ok s a) (hs : step s a = some (x.state 0)) : Execution step ok where
  state
    | 0 => s
    | u + 1 => x.state u
  action
    | 0 => some a
    | u + 1 => x.action u
  idle
    | 0, h => by cases h
    | u + 1, h => x.idle u h
  acts
    | 0, _, rfl => ⟨ha, hs⟩
    | u + 1, b, h => x.acts u b h

end Execution

/-- A run, and after it an execution. -/
theorem Run.execution (h : Run step ok s as s') (x : Execution step ok) (hx : x.state 0 = s') :
    ∃ y : Execution step ok, y.state 0 = s ∧ ∀ u, y.state (as.length + u) = x.state u := by
  induction h generalizing x with
  | nil => exact ⟨x, hx, fun u => by rw [List.length_nil, Nat.zero_add]⟩
  | @snoc as a s' s'' hr ha hs ih =>
    subst hx
    obtain ⟨y, hy, hlater⟩ := ih (x.after ha hs) rfl
    refine ⟨y, hy, fun u => ?_⟩
    rw [List.length_append, List.length_singleton, Nat.add_assoc, Nat.add_comm 1 u]
    exact hlater (u + 1)

end Runs

import ArmPseudocode.Eval.Stmt

/-!
# Actions one step at a time

What an action put together from two comes to, once it is known how the first of them ends. The
equations are about a run from one environment, so that a proof can follow the run.
-/

namespace ArmPseudocode.Action

variable {β γ : Type} {env mid : Environment}

theorem reading_of_ok {f : Environment → Except EvalError β} {b : β} (h : f env = .ok b) :
    reading f env = .ok b env := by
  unfold reading
  rw [h]

theorem reading_of_error {f : Environment → Except EvalError β} {defect : EvalError}
    (h : f env = .error defect) : reading f env = .error defect env := by
  unfold reading
  rw [h]

theorem bind_of_ok {first : Action β} {next : β → Action γ} {b : β} (h : first env = .ok b mid) :
    (first >>= next) env = next b mid := by
  show EStateM.bind first next env = _
  unfold EStateM.bind
  rw [h]

theorem bind_of_error {first : Action β} {next : β → Action γ} {defect : EvalError}
    (h : first env = .error defect mid) : (first >>= next) env = .error defect mid := by
  show EStateM.bind first next env = _
  unfold EStateM.bind
  rw [h]

theorem bind_reading_of_ok {f : Environment → Except EvalError β} {next : β → Action γ} {b : β}
    (h : f env = .ok b) : (reading f >>= next) env = next b env :=
  bind_of_ok (reading_of_ok h)

theorem bind_reading_of_error {f : Environment → Except EvalError β} {next : β → Action γ}
    {defect : EvalError} (h : f env = .error defect) :
    (reading f >>= next) env = .error defect env :=
  bind_of_error (reading_of_error h)

theorem proceeds_or_ends (first : Action Outcome) (env : Environment) :
    (∃ mid, first env = .ok .proceed mid) ∨ ∀ mid, first env ≠ .ok .proceed mid := by
  rw [← not_exists]
  exact Classical.em _

theorem andThen_of_proceed {first second : Action Outcome} (h : first env = .ok .proceed mid) :
    andThen first second env = second mid := by
  unfold andThen
  rw [h]

theorem andThen_of_ends {first second : Action Outcome}
    (h : ∀ mid, first env ≠ .ok .proceed mid) : andThen first second env = first env := by
  unfold andThen
  cases hfirst : first env with
  | error defect mid => rfl
  | ok outcome mid =>
      cases outcome with
      | proceed => exact absurd hfirst (h mid)
      | _ => rfl

theorem andThen_assoc (first second third : Action Outcome) :
    andThen (andThen first second) third = andThen first (andThen second third) := by
  funext env
  rcases first.proceeds_or_ends env with ⟨mid, hmid⟩ | hends
  · rw [andThen_of_proceed hmid]
    unfold andThen
    rw [hmid]
  · have hpair : andThen first second env = first env := andThen_of_ends hends
    rw [andThen_of_ends hends, andThen_of_ends, hpair]
    rw [hpair]
    exact hends

end ArmPseudocode.Action

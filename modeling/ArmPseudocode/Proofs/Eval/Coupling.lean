import ArmPseudocode.Eval.Stmt

/-!
# Two runs side by side

Several facts about evaluation compare two runs of one program: with more iterations allowed, with
another rule for unbound names, or with other contents in names the program does not use. Each of
them is a relation between environments that every lookup respects and every binding keeps. A
`Coupling` is such a relation, together with the defects of the first run that release the second
from following it, and with the number of iterations the second run is allowed beyond the first.

This module has the steps: what follows for two computations put in sequence, under a branch or into
a loop, when it holds of their parts.
-/

namespace ArmPseudocode

open EStateM (Result)

variable {β γ : Type}

namespace Action

def ending : Result EvalError Environment β → Except EvalError β
  | .ok b _ => .ok b
  | .error e _ => .error e

def final : Result EvalError Environment β → Environment
  | .ok _ env => env
  | .error _ env => env

theorem eq_of_ending_of_final {first second : Result EvalError Environment β}
    (hending : ending first = ending second) (hfinal : final first = final second) :
    first = second := by
  cases first <;> cases second <;> simp_all [ending, final]

end Action

/-- A second computation gives what a first one gives, unless the first ends in an excused
defect. -/
inductive Follows (excused : EvalError → Prop) : Except EvalError β → Except EvalError β → Prop
  | same (x : Except EvalError β) : Follows excused x x
  | released {e : EvalError} (he : excused e) (second : Except EvalError β) :
      Follows excused (.error e) second

/-- A way to put two evaluations side by side. -/
structure Coupling where
  /-- How the environments of the two are related. -/
  Related : Environment → Environment → Prop
  /-- The names that both look up alike. -/
  Known : String → Prop
  /-- The defects of the first that leave the second free. -/
  Excused : EvalError → Prop
  /-- How many more iterations of a loop the second is allowed. -/
  extra : Nat
  lookup : ∀ {env env' : Environment} {id : String}, Related env env' → Known id →
    Follows Excused (env.lookup id) (env'.lookup id)
  bind : ∀ {env env' : Environment} (id : String) (v : Value), Related env env' →
    Related (env.bind id v) (env'.bind id v)
  loopLimit : 0 < extra → ∀ limit, Excused (.loopLimit limit)

namespace Follows

variable {excused : EvalError → Prop}

theorem bind {x y : Except EvalError β} {f g : β → Except EvalError γ} (hxy : Follows excused x y)
    (hfg : ∀ b, Follows excused (f b) (g b)) : Follows excused (x >>= f) (y >>= g) := by
  cases hxy with
  | same =>
      cases x with
      | ok b => exact hfg b
      | error e => exact .same (.error e)
  | released he => exact .released he _

theorem map {x y : Except EvalError β} (f : β → γ) (hxy : Follows excused x y) :
    Follows excused (f <$> x) (f <$> y) := by
  cases hxy with
  | same => exact .same _
  | released he => exact .released he _

theorem ite {p : Prop} [Decidable p] {x x' y y' : Except EvalError β} (hyes : Follows excused x x')
    (hno : Follows excused y y') : Follows excused (if p then x else y) (if p then x' else y') := by
  split
  · exact hyes
  · exact hno

end Follows

namespace Coupling

variable (c : Coupling)

/-- How two actions on related environments end: alike and in related environments, unless the first
ends in an excused defect. -/
inductive Ends : Result EvalError Environment β → Result EvalError Environment β → Prop
  | ok (b : β) {env env' : Environment} (henv : c.Related env env') : Ends (.ok b env) (.ok b env')
  | error (e : EvalError) {env env' : Environment} (henv : c.Related env env') :
      Ends (.error e env) (.error e env')
  | released {e : EvalError} (he : c.Excused e) (env : Environment)
      (second : Result EvalError Environment β) : Ends (.error e env) second

theorem Ends.alike {c : Coupling} {first second : Result EvalError Environment β}
    (h : c.Ends first second) (hends : ∀ e, c.Excused e → Action.ending first ≠ .error e) :
    Action.ending second = Action.ending first ∧
      c.Related (Action.final first) (Action.final second) := by
  cases h with
  | ok b henv => exact ⟨rfl, henv⟩
  | error e henv => exact ⟨rfl, henv⟩
  | released he => exact absurd rfl (hends _ he)

/-- Two actions that end alike from related environments. -/
def Coupled (first second : Action β) : Prop :=
  ∀ env env' : Environment, c.Related env env' → c.Ends (first env) (second env')

variable {c}

namespace Coupled

theorem pure (b : β) : c.Coupled (Pure.pure b) (Pure.pure b) :=
  fun _ _ henv => .ok b henv

theorem throw (e : EvalError) :
    c.Coupled (MonadExcept.throw e : Action β) (MonadExcept.throw e) :=
  fun _ _ henv => .error e henv

theorem bindName (id : String) (v : Value) : c.Coupled (Action.bind id v) (Action.bind id v) :=
  fun _ _ henv => .ok () (c.bind id v henv)

theorem reading {f g : Environment → Except EvalError β}
    (hfg : ∀ env env' : Environment, c.Related env env' → Follows c.Excused (f env) (g env')) :
    c.Coupled (Action.reading f) (Action.reading g) := by
  intro env env' henv
  have h := hfg env env' henv
  unfold Action.reading
  generalize f env = x at h ⊢
  generalize g env' = y at h ⊢
  cases h with
  | same =>
      cases x with
      | ok b => exact .ok b henv
      | error e => exact .error e henv
  | released he => exact .released he _ _

theorem bind {first second : Action β} {f g : β → Action γ} (h : c.Coupled first second)
    (hfg : ∀ b, c.Coupled (f b) (g b)) : c.Coupled (first >>= f) (second >>= g) := by
  intro env env' henv
  have hends := h env env' henv
  change c.Ends (EStateM.bind first f env) (EStateM.bind second g env')
  unfold EStateM.bind
  generalize first env = x at hends ⊢
  generalize second env' = y at hends ⊢
  cases hends with
  | ok b hnext => exact hfg b _ _ hnext
  | error e hnext => exact .error e hnext
  | released he => exact .released he _ _

theorem ite {p : Prop} [Decidable p] {first first' second second' : Action β}
    (hyes : c.Coupled first first') (hno : c.Coupled second second') :
    c.Coupled (if p then first else second) (if p then first' else second') := by
  split
  · exact hyes
  · exact hno

theorem andThen {first first' second second' : Action Outcome} (h : c.Coupled first first')
    (hnext : c.Coupled second second') :
    c.Coupled (Action.andThen first second) (Action.andThen first' second') := by
  intro env env' henv
  have hends := h env env' henv
  unfold Action.andThen
  generalize first env = x at hends ⊢
  generalize first' env' = y at hends ⊢
  cases hends with
  | ok outcome hmid =>
      cases outcome with
      | proceed => exact hnext _ _ hmid
      | _ => exact .ok _ hmid
  | error e hmid => exact .error e hmid
  | released he => exact .released he _ _

end Coupled

/-! ### Loops

The first run may use up its iterations where the second has `extra` of them left. That is the one
place where the two part, and the defect there is excused. -/

variable {test test' : Action Bool} {body body' : Action Outcome}

namespace Coupled

theorem throw_released {e : EvalError} (he : c.Excused e) (second : Action β) :
    c.Coupled (MonadExcept.throw e) second :=
  fun _ _ _ => .released he _ _

theorem whileLoop (htest : c.Coupled test test') (hbody : c.Coupled body body') (limit left : Nat) :
    c.Coupled (Action.whileLoop limit test body left)
      (Action.whileLoop (limit + c.extra) test' body' (left + c.extra)) := by
  induction left with
  | zero =>
      cases hextra : c.extra with
      | zero => exact htest.bind fun _ => .ite (.throw _) (.pure _)
      | succ k =>
          have hexcused := c.loopLimit (by omega) limit
          exact htest.bind fun _ => .ite (.throw_released hexcused _) (.pure _)
  | succ left ih =>
      rw [Nat.add_right_comm]
      exact htest.bind fun _ => .ite (.andThen hbody ih) (.pure _)

theorem repeatLoop (hbody : c.Coupled body body') (htest : c.Coupled test test')
    (limit left : Nat) :
    c.Coupled (Action.repeatLoop limit body test left)
      (Action.repeatLoop (limit + c.extra) body' test' (left + c.extra)) := by
  induction left with
  | zero =>
      cases hextra : c.extra with
      | zero => exact .throw _
      | succ k => exact .throw_released (c.loopLimit (by omega) limit) _
  | succ left ih =>
      rw [Nat.add_right_comm]
      exact .andThen hbody (htest.bind fun _ => .ite (.pure _) ih)

theorem forLoop (var : String) (last : Int) (hbody : c.Coupled body body') (limit left : Nat)
    (k : Int) :
    c.Coupled (Action.forLoop limit var last body left k)
      (Action.forLoop (limit + c.extra) var last body' (left + c.extra) k) := by
  induction left generalizing k with
  | zero =>
      cases hextra : c.extra with
      | zero => exact ite (.throw _) (.pure _)
      | succ n => exact ite (.throw_released (c.loopLimit (by omega) limit) _) (.pure _)
  | succ left ih =>
      rw [Nat.add_right_comm]
      exact ite ((bindName var _).bind fun _ => .andThen hbody (ih (k + 1))) (.pure _)

end Coupled

end Coupling

end ArmPseudocode

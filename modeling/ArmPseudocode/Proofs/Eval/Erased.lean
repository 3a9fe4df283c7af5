import ArmPseudocode.Eval.Stmt
import ArmPseudocode.Proofs.Syntax.Erase

/-!
# Evaluation does not look at spans

What an expression evaluates to, and what an assignment to it binds, depends on the tree alone. So
trees that are the same up to spans have the same value in every environment.
-/

namespace ArmPseudocode.Expr

variable {α : Type}

theorem isBlank_erase (e : Expr α) : e.erase.isBlank = e.isBlank := by
  cases e with
  | unknown _ type => cases type <;> rfl
  | _ => rfl

/-! ### Values -/

mutual

theorem eval_erase (env : Environment) (e : Expr α) : e.erase.eval env = e.eval env := by
  cases e with
  | unknown _ type =>
      cases type with
      | none => rfl
      | some type =>
          cases type with
          | bits width =>
              show (do
                let v ← width.erase.eval env
                let width ← v.asInt .bitsWidth
                Value.unknownBits width) = _
              rw [eval_erase env width]
              rfl
          | _ => rfl
  | call _ callee args => simp only [erase, eval, evalAll_eraseAll env args]
  | tuple _ items =>
      cases items with
      | nil => rfl
      | cons first rest =>
          cases rest with
          | nil => exact eval_erase env first
          | cons second rest =>
              exact congrArg (Value.tuple <$> ·) (evalAll_eraseAll env (first :: second :: rest))
  | binary _ op left right =>
      simp only [erase, eval, eval_erase env left, eval_erase env right]
  | unary _ op operand => simp only [erase, eval, eval_erase env operand]
  | slice _ base terms | index _ base terms =>
      simp only [erase, eval, eval_erase env base, evalTerms_eraseTerms env _ _ terms]
  | conditional _ test yes no =>
      simp only [erase, eval, eval_erase env test, eval_erase env yes, eval_erase env no]
  | member _ base field => simp only [erase, eval, eval_erase env base]
  | _ => rfl
termination_by structural e

theorem evalAll_eraseAll (env : Environment) (es : List (Expr α)) :
    evalAll env (eraseAll es) = evalAll env es := by
  cases es with
  | nil => rfl
  | cons e es => simp only [eraseAll, evalAll, eval_erase env e, evalAll_eraseAll env es]
termination_by structural es

theorem evalTerms_eraseTerms (env : Environment) (b selected : Bits)
    (terms : List (SliceTerm (Expr α))) :
    evalTerms env b selected (eraseTerms terms) = evalTerms env b selected terms := by
  cases terms with
  | nil => rfl
  | cons term terms =>
      cases term with
      | single position =>
          simp only [eraseTerms, evalTerms, eval_erase env position,
            evalTerms_eraseTerms env b _ terms]
      | range high low =>
          simp only [eraseTerms, evalTerms, eval_erase env high, eval_erase env low,
            evalTerms_eraseTerms env b _ terms]
termination_by structural terms

end

/-! ### Targets -/

mutual

theorem assign_erase (target : Expr α) (v : Value) : target.erase.assign v = target.assign v := by
  cases target with
  | tuple _ slots =>
      cases slots with
      | nil => cases v <;> rfl
      | cons first rest =>
          cases rest with
          | nil => exact assign_erase first v
          | cons second rest =>
              cases v with
              | tuple vs =>
                  have hlength : (eraseAll (first :: second :: rest)).length =
                      (first :: second :: rest).length := by
                    rw [eraseAll_eq_map, List.length_map]
                  simp only [erase, eraseAll, assign] at hlength ⊢
                  rw [hlength]
                  exact congrArg (ite _ · _) (assignAll_eraseAll (first :: second :: rest) vs)
              | _ => rfl
  | unknown _ type => cases type <;> rfl
  | _ => rfl
termination_by structural target

theorem assignAll_eraseAll (slots : List (Expr α)) (vs : List Value) :
    assignAll (eraseAll slots) vs = assignAll slots vs := by
  cases slots with
  | nil => rfl
  | cons slot slots =>
      cases vs with
      | nil => rfl
      | cons v vs =>
          simp only [eraseAll, assignAll, isBlank_erase, assign_erase slot v,
            assignAll_eraseAll slots vs]
termination_by structural slots

end

end ArmPseudocode.Expr

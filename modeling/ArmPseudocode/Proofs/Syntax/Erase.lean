import ArmPseudocode.Syntax.Stmt

/-!
# Trees without their annotations

Two trees are the same up to spans if they are equal once the annotations are erased.
-/

namespace ArmPseudocode

variable {α : Type}

mutual

@[simp] def Expr.erase : Expr α → Expr Unit
  | .int _ n => .int () n
  | .real _ numeral => .real () numeral
  | .bitString _ digits => .bitString () digits
  | .name _ id => .name () id
  | .declare _ type id => .declare () type.erase id
  | .unknown _ none => .unknown () none
  | .unknown _ (some type) => .unknown () (some type.erase)
  | .call _ callee args => .call () callee (Expr.eraseAll args)
  | .tuple _ items => .tuple () (Expr.eraseAll items)
  | .blank _ => .blank ()
  | .binary _ op left right => .binary () op left.erase right.erase
  | .unary _ op operand => .unary () op operand.erase
  | .slice _ base terms => .slice () base.erase (Expr.eraseTerms terms)
  | .index _ base terms => .index () base.erase (Expr.eraseTerms terms)
  | .conditional _ test yes no => .conditional () test.erase yes.erase no.erase
  | .member _ base field => .member () base.erase field
  | .malformed _ => .malformed ()
termination_by structural e => e

def Expr.eraseAll : List (Expr α) → List (Expr Unit)
  | [] => []
  | e :: es => e.erase :: Expr.eraseAll es
termination_by structural es => es

def Expr.eraseTerms : List (SliceTerm (Expr α)) → List (SliceTerm (Expr Unit))
  | [] => []
  | .single position :: terms => .single position.erase :: Expr.eraseTerms terms
  | .range high low :: terms => .range high.erase low.erase :: Expr.eraseTerms terms
termination_by structural terms => terms

@[simp] def TypeExpr.erase : TypeExpr α → TypeExpr Unit
  | .boolean => .boolean
  | .bit => .bit
  | .integer => .integer
  | .bits width => .bits width.erase
  | .named id => .named id
  | .tuple items => .tuple (TypeExpr.eraseAll items)
termination_by structural type => type

def TypeExpr.eraseAll : List (TypeExpr α) → List (TypeExpr Unit)
  | [] => []
  | type :: types => type.erase :: TypeExpr.eraseAll types
termination_by structural types => types

end

@[simp] def SliceTerm.erase : SliceTerm (Expr α) → SliceTerm (Expr Unit)
  | .single position => .single position.erase
  | .range high low => .range high.erase low.erase

@[simp] theorem Expr.eraseAll_eq_map (es : List (Expr α)) :
    Expr.eraseAll es = es.map Expr.erase := by
  induction es with
  | nil => rfl
  | cons e es ih => simp only [Expr.eraseAll, ih, List.map_cons]

@[simp] theorem Expr.eraseTerms_eq_map (terms : List (SliceTerm (Expr α))) :
    Expr.eraseTerms terms = terms.map SliceTerm.erase := by
  induction terms with
  | nil => rfl
  | cons term terms ih =>
      cases term <;> simp only [Expr.eraseTerms, ih, List.map_cons, SliceTerm.erase]

@[simp] theorem TypeExpr.eraseAll_eq_map (types : List (TypeExpr α)) :
    TypeExpr.eraseAll types = types.map TypeExpr.erase := by
  induction types with
  | nil => rfl
  | cons type types ih => simp only [TypeExpr.eraseAll, ih, List.map_cons]

theorem Expr.isDeclaration_erase (e : Expr α) : e.erase.isDeclaration = e.isDeclaration := by
  cases e with
  | unknown _ type => cases type <;> rfl
  | _ => rfl

end ArmPseudocode

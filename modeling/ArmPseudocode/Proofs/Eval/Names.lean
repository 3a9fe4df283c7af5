import ArmPseudocode.Syntax.Stmt

/-!
# Names that occur in a program

The names a body of pseudocode can ask an environment for: every name that stands as an expression
and every name that is called, wherever in the tree, also inside the types of declarations and
inside the parts that are never evaluated. A name that is only declared, only counted by a loop or
only selected as a member does not occur in this sense.
-/

namespace ArmPseudocode

variable {α : Type}

mutual

/-- The names that occur in an expression. -/
def Expr.names : Expr α → List String
  | .name _ id => [id]
  | .declare _ type _ => type.names
  | .unknown _ (some type) => type.names
  | .call _ callee args => callee :: Expr.namesAll args
  | .tuple _ items => Expr.namesAll items
  | .binary _ _ left right => left.names ++ right.names
  | .unary _ _ operand => operand.names
  | .slice _ base terms => base.names ++ Expr.namesTerms terms
  | .index _ base terms => base.names ++ Expr.namesTerms terms
  | .conditional _ test yes no => test.names ++ yes.names ++ no.names
  | .member _ base _ => base.names
  | .int _ _ | .real _ _ | .bitString _ _ | .unknown _ none | .blank _ | .malformed _ => []
termination_by structural e => e

def Expr.namesAll : List (Expr α) → List String
  | [] => []
  | e :: es => e.names ++ Expr.namesAll es
termination_by structural es => es

def Expr.namesTerms : List (SliceTerm (Expr α)) → List String
  | [] => []
  | .single position :: terms => position.names ++ Expr.namesTerms terms
  | .range high low :: terms => high.names ++ low.names ++ Expr.namesTerms terms
termination_by structural terms => terms

/-- The names that occur in a type. -/
def TypeExpr.names : TypeExpr α → List String
  | .bits width => width.names
  | .tuple items => TypeExpr.namesAll items
  | .boolean | .bit | .integer | .named _ => []
termination_by structural type => type

def TypeExpr.namesAll : List (TypeExpr α) → List String
  | [] => []
  | type :: types => type.names ++ TypeExpr.namesAll types
termination_by structural types => types

end

namespace Stmt

mutual

/-- The names that occur in a statement. -/
def names : Stmt α → List String
  | assign _ target e => target.names ++ e.names
  | expr _ e | declaration _ e | assertion _ e => e.names
  | giveBack _ values => Expr.namesAll values
  | branch _ test body elsifs otherwise =>
    test.names ++ body.names ++ namesElsifs elsifs ++ namesElse otherwise
  | repeatUntil _ body test => body.names ++ test.names
  | whileDo _ test body => test.names ++ body.names
  | forTo _ _ first last body => first.names ++ last.names ++ body.names
  | caseOf _ selector arms otherwise => selector.names ++ namesArms arms ++ namesElse otherwise
  | block _ body => namesAll body
  | undefined _ | unpredictable _ | prose _ _ _ | enumeration _ _ _ | malformed _ => []
termination_by structural s => s

def namesAll : List (Stmt α) → List String
  | [] => []
  | s :: rest => s.names ++ namesAll rest
termination_by structural ss => ss

def namesElse : Option (Stmt α) → List String
  | some last => last.names
  | none => []
termination_by structural otherwise => otherwise

def namesElsifs : List (Expr α × Stmt α) → List String
  | [] => []
  | (test, body) :: rest => test.names ++ body.names ++ namesElsifs rest
termination_by structural elsifs => elsifs

def namesArms : List (List (Expr α) × Stmt α) → List String
  | [] => []
  | (patterns, body) :: rest => Expr.namesAll patterns ++ body.names ++ namesArms rest
termination_by structural arms => arms

end

end Stmt

/-- The names that occur in a program. -/
def Program.names (p : Program α) : List String :=
  Stmt.namesAll p.body

end ArmPseudocode

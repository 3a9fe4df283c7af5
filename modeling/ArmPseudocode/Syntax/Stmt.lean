import ArmPseudocode.Syntax.Expr
import ArmPseudocode.Token.Kind

/-!
# Statements and programs

A program is a list of statements. Like expressions, statements carry information of a type `α`.
-/

namespace ArmPseudocode

inductive Stmt (α : Type) where
  | assign (info : α) (target value : Expr α)
  /-- An expression evaluated for nothing but its defects. -/
  | expr (info : α) (e : Expr α)
  /-- A declaration without a value. -/
  | declaration (info : α) (e : Expr α)
  | giveBack (info : α) (values : List (Expr α))
  | undefined (info : α)
  | unpredictable (info : α)
  /-- One of the words that are followed by prose. -/
  | prose (info : α) (word : ProseWord) (about : String)
  /-- The first of the guarded bodies whose test holds, or else the last body, if there is one. -/
  | branch (info : α) (test : Expr α) (body : Stmt α) (elsifs : List (Expr α × Stmt α))
      (otherwise : Option (Stmt α))
  | repeatUntil (info : α) (body : Stmt α) (test : Expr α)
  | whileDo (info : α) (test : Expr α) (body : Stmt α)
  | forTo (info : α) (var : String) (first last : Expr α) (body : Stmt α)
  /-- The first arm with a pattern that equals the selector, or else the last body, if there is
  one. -/
  | caseOf (info : α) (selector : Expr α) (arms : List (List (Expr α) × Stmt α))
      (otherwise : Option (Stmt α))
  | block (info : α) (body : List (Stmt α))
  | assertion (info : α) (e : Expr α)
  | enumeration (info : α) (id : String) (values : List String)
  /-- Stands for a statement that could not be read. -/
  | malformed (info : α)

namespace Stmt

variable {α : Type}

def info : Stmt α → α
  | assign info _ _ | expr info _ | declaration info _ | giveBack info _ | undefined info
  | unpredictable info | prose info _ _ | branch info _ _ _ _ | repeatUntil info _ _
  | whileDo info _ _ | forTo info _ _ _ _ | caseOf info _ _ _ | block info _ | assertion info _
  | enumeration info _ _ | malformed info => info

mutual

/-- The statement and every statement inside it, in the order of the text. -/
def walk : Stmt α → List (Stmt α)
  | s@(branch _ _ body elsifs otherwise) =>
    s :: body.walk ++ walkElsifs elsifs ++ walkElse otherwise
  | s@(repeatUntil _ body _) => s :: body.walk
  | s@(whileDo _ _ body) => s :: body.walk
  | s@(forTo _ _ _ _ body) => s :: body.walk
  | s@(caseOf _ _ arms otherwise) =>
    s :: walkArms arms ++ walkElse otherwise
  | s@(block _ body) => s :: walkAll body
  | s => [s]
termination_by structural s => s

/-- The statements of a list, each with those inside it. -/
def walkAll : List (Stmt α) → List (Stmt α)
  | [] => []
  | s :: rest => s.walk ++ walkAll rest
termination_by structural ss => ss

def walkElse : Option (Stmt α) → List (Stmt α)
  | some last => last.walk
  | none => []
termination_by structural otherwise => otherwise

def walkElsifs : List (Expr α × Stmt α) → List (Stmt α)
  | [] => []
  | (_, body) :: rest => body.walk ++ walkElsifs rest
termination_by structural elsifs => elsifs

def walkArms : List (List (Expr α) × Stmt α) → List (Stmt α)
  | [] => []
  | (_, body) :: rest => body.walk ++ walkArms rest
termination_by structural arms => arms

end

end Stmt

structure Program (α : Type) where
  body : List (Stmt α)

namespace Program

variable {α : Type}

def empty : Program α := ⟨[]⟩

def isEmpty (p : Program α) : Bool :=
  p.body.isEmpty

/-- Every statement, nested ones included, in the order of the text. -/
def walk (p : Program α) : List (Stmt α) :=
  Stmt.walkAll p.body

end Program

end ArmPseudocode

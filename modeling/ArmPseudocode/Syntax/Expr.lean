import ArmPseudocode.Syntax.Operator

/-!
# Expressions

The expressions and types of the language. Every expression carries a piece of information of a type
`α`, its span when it comes from a text; what an expression means does not depend on it.
-/

namespace ArmPseudocode

/-- One selection of a slice: a single position, or an inclusive range from its high end. -/
inductive SliceTerm (ε : Type) where
  | single (index : ε)
  | range (high low : ε)
deriving DecidableEq, Repr

mutual

inductive Expr (α : Type) where
  | int (info : α) (n : Int64)
  | real (info : α) (numeral : String)
  | bitString (info : α) (digits : String)
  | name (info : α) (id : String)
  /-- A variable with its type, as in `bits(4) imm`. -/
  | declare (info : α) (type : TypeExpr α) (id : String)
  /-- An unknown value, of a type if one is given. -/
  | unknown (info : α) (type : Option (TypeExpr α))
  | call (info : α) (callee : String) (args : List (Expr α))
  /-- Expressions in parentheses. One alone stands for itself. -/
  | tuple (info : α) (items : List (Expr α))
  /-- The slot of a tuple target whose component is thrown away. -/
  | blank (info : α)
  | binary (info : α) (op : BinaryOp) (left right : Expr α)
  | unary (info : α) (op : UnaryOp) (operand : Expr α)
  /-- Bits selected between angle brackets. -/
  | slice (info : α) (base : Expr α) (terms : List (SliceTerm (Expr α)))
  /-- Bits selected between square brackets. -/
  | index (info : α) (base : Expr α) (terms : List (SliceTerm (Expr α)))
  | conditional (info : α) (test yes no : Expr α)
  | member (info : α) (base : Expr α) (field : String)
  /-- Stands where the text held something the tokenizer could not read. -/
  | malformed (info : α)

/-- The type of a declared variable or of an unknown value. -/
inductive TypeExpr (α : Type) where
  | boolean
  | bit
  | integer
  | bits (width : Expr α)
  | named (id : String)
  | tuple (items : List (TypeExpr α))

end

namespace Expr

variable {α : Type}

def info : Expr α → α
  | int info _ | real info _ | bitString info _ | name info _ | declare info _ _ | unknown info _
  | call info _ _ | tuple info _ | blank info | binary info _ _ _ | unary info _ _ | slice info _ _
  | index info _ _ | conditional info _ _ _ | member info _ _ | malformed info => info

/-- What kind of expression it is, in messages. -/
def describe : Expr α → String
  | int _ _ | real _ _ => "numeral"
  | bitString _ _ => "bit string"
  | name _ _ => "name"
  | declare _ _ _ => "declaration"
  | unknown _ _ => "UNKNOWN"
  | call _ _ _ => "call"
  | tuple _ _ => "tuple"
  | blank _ => "blank"
  | binary _ _ _ _ => "binary expression"
  | unary _ _ _ => "unary expression"
  | slice _ _ _ => "bit slice"
  | index _ _ _ => "index"
  | conditional _ _ _ _ => "conditional expression"
  | member _ _ _ => "member access"
  | malformed _ => "error"

def isDeclaration : Expr α → Bool
  | declare _ _ _ => true
  | _ => false

/-- Whether it is a slot whose component is thrown away. -/
def isBlank : Expr α → Bool
  | blank _ => true
  | _ => false

end Expr

end ArmPseudocode

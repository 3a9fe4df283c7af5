/-!
# Operators

The binary and unary operators, how they are written, and how tightly the binary ones bind.
-/

namespace ArmPseudocode

inductive BinaryOp where
  | equal
  | notEqual
  | less
  | lessEqual
  | greater
  | greaterEqual
  | andAlso
  | orElse
  | bitAnd
  | bitOr
  | bitEor
  | concat
  | add
  | sub
  | mul
  /-- Real division, which no value supports. -/
  | divide
  /-- Integer division. -/
  | div
  | mod
  | shiftLeft
  | shiftRight
deriving DecidableEq, Repr

namespace BinaryOp

def all : List BinaryOp :=
  [equal, notEqual, less, lessEqual, greater, greaterEqual, andAlso, orElse, bitAnd, bitOr, bitEor,
    concat, add, sub, mul, divide, div, mod, shiftLeft, shiftRight]

def symbol : BinaryOp → String
  | equal => "=="
  | notEqual => "!="
  | less => "<"
  | lessEqual => "<="
  | greater => ">"
  | greaterEqual => ">="
  | andAlso => "&&"
  | orElse => "||"
  | bitAnd => "AND"
  | bitOr => "OR"
  | bitEor => "EOR"
  | concat => ":"
  | add => "+"
  | sub => "-"
  | mul => "*"
  | divide => "/"
  | div => "DIV"
  | mod => "MOD"
  | shiftLeft => "<<"
  | shiftRight => ">>"

/-- The level of the operator: one binds tightest. Operators of one level group from the left. -/
def precedence : BinaryOp → Nat
  | shiftLeft | shiftRight => 1
  | mul | divide | div | mod => 2
  | add | sub => 3
  | concat => 4
  | equal | notEqual | less | lessEqual | greater | greaterEqual => 5
  | andAlso | orElse => 6
  | bitAnd | bitOr | bitEor => 7

def loosest : Nat := 7

/-- The loosest level inside the bounds of a slice, where a colon separates the bounds and is not
the operator. -/
def boundLevel : Nat := concat.precedence - 1

/-- Whether the left operand alone may decide the value. -/
def isShortCircuit : BinaryOp → Bool
  | andAlso | orElse => true
  | _ => false

end BinaryOp

inductive UnaryOp where
  | not
  | plus
  | neg
  | twoPow
deriving DecidableEq, Repr

namespace UnaryOp

def all : List UnaryOp :=
  [not, plus, neg, twoPow]

def symbol : UnaryOp → String
  | not => "!"
  | plus => "+"
  | neg => "-"
  | twoPow => "2^"

end UnaryOp

end ArmPseudocode

import ArmPseudocode.Value.Basic

/-!
# Defects

A defect means that a program or an encoding lies outside the language: an operator on the wrong
kind of value, a bad call, an assignment that does not fit. Each defect keeps its cause, and
`EvalError.message` words it.
-/

namespace ArmPseudocode

/-- An operation on integers whose exact result may not fit 64 bits. -/
inductive IntOperation where
  | addition
  | subtraction
  | multiplication
  | quotient
  | remainder
  | leftShift
  | negation
deriving DecidableEq, Repr

def IntOperation.text : IntOperation → String
  | addition => "addition"
  | subtraction => "subtraction"
  | multiplication => "multiplication"
  | quotient => "DIV"
  | remainder => "MOD"
  | leftShift => "left shift"
  | negation => "negation"

/-- A place of a program that requires a value of one kind. -/
inductive Place where
  | ifTest
  | elsifTest
  | untilTest
  | whileTest
  | conditionalTest
  | andLeft
  | orLeft
  | loopBound
  | bitIndex
  | bitsWidth
deriving DecidableEq, Repr

def Place.text : Place → String
  | ifTest => "if condition"
  | elsifTest => "elsif condition"
  | untilTest => "until condition"
  | whileTest => "while condition"
  | conditionalTest => "conditional expression"
  | andLeft => "left operand of `&&`"
  | orLeft => "left operand of `||`"
  | loopBound => "for loop bound"
  | bitIndex => "bit index"
  | bitsWidth => "bits width"

/-- What a builtin function requires of an argument. -/
inductive ArgumentShape where
  | bits
  | int
  /-- A bit vector of twelve positions. -/
  | immediate
deriving DecidableEq, Repr

def ArgumentShape.text : ArgumentShape → String
  | bits => "bits"
  | int => "integer"
  | immediate => "12-bit bits"

/-- A construct the language has and evaluation gives no meaning to. -/
inductive Construct where
  | declarationAsValue
  | blankAsValue
  | unknownOfOtherType
  | malformedExpression
  | malformedStatement
  | returnStatement
deriving DecidableEq, Repr

def Construct.text : Construct → String
  | declarationAsValue => "declaration used as a value"
  | blankAsValue => "`-` outside a tuple assignment"
  | unknownOfOtherType => "UNKNOWN of a non-bits type"
  | malformedExpression => "malformed expression"
  | malformedStatement => "malformed statement"
  | returnStatement => "return statement"

/-- Why evaluation has no result. -/
inductive EvalError where
  /-- The operands are of two kinds. -/
  | operandsDiffer (op : BinaryOp) (left right : ValueKind)
  /-- No value of the kind supports the operator. -/
  | notSupported (op : String) (kind : ValueKind)
  | width (cause : WidthError)
  | tupleLengths (left right : Nat)
  | divisionByZero
  | overflow (operation : IntOperation)
  | shiftOutOfRange (amount : Int64)
  | exponentOutOfRange (exponent : Int64)
  | notBool (place : Place) (kind : ValueKind)
  | notInteger (place : Place) (kind : ValueKind)
  | notCallable (id : String) (kind : ValueKind)
  | argumentCount (f : Builtin) (expected got : Nat)
  | argumentKind (f : Builtin) (expected : ArgumentShape) (got : ValueKind)
  /-- Only a tuple can be assigned to a tuple of targets. -/
  | notATuple (kind : ValueKind)
  | tupleArity (targets values : Nat)
  /-- The form of expression cannot be assigned to. -/
  | notATarget (form : String)
  | caseMistyped (selector pattern : Value)
  | sliceOfNonBits (kind : ValueKind)
  | invertedRange (high low : Int64)
  | indexOutOfRange (index : Int64) (width : Nat)
  /-- Extension to a width that is smaller, or not that of a vector. -/
  | badExtension (old : Nat) (new : Int64)
  | unresolvedName (id : String)
  | unsupported (construct : Construct)
  | loopLimit (limit : Nat)
  /-- A numeral with a fraction, which denotes no value. -/
  | notAConstant (numeral : String)
deriving DecidableEq, Repr

def WidthError.message : WidthError → String
  | outOfRange width => "bit vector width " ++ toString width ++ " out of range 0..=32"
  | mismatch op left right =>
    "`" ++ op.symbol ++ "` on mismatched widths " ++ toString left ++ " and " ++ toString right

/-- A value in messages, with its kind. -/
def Value.describe (v : Value) : String :=
  v.kind.text ++ "(" ++ v.text ++ ")"

def EvalError.message : EvalError → String
  | operandsDiffer op left right =>
    "cannot apply `" ++ op.symbol ++ "` to " ++ left.text ++ " and " ++ right.text
  | notSupported op kind => kind.text ++ " does not support `" ++ op ++ "`"
  | width cause => cause.message
  | tupleLengths left right =>
    "tuples of length " ++ toString left ++ " and " ++ toString right ++ " cannot be compared"
  | divisionByZero => "division by zero"
  | overflow operation => "integer overflow in " ++ operation.text
  | shiftOutOfRange amount => "shift amount " ++ toString amount.toInt ++ " out of range"
  | exponentOutOfRange exponent => "2^" ++ toString exponent.toInt ++ " out of range"
  | notBool place kind => place.text ++ " must be boolean, got " ++ kind.text
  | notInteger place kind => place.text ++ " must be an integer, got " ++ kind.text
  | notCallable id kind => "cannot call " ++ id ++ " of type " ++ kind.text
  | argumentCount f expected got =>
    f.name ++ " expects " ++ toString expected ++ " argument(s), got " ++ toString got
  | argumentKind f expected got => f.name ++ " expects " ++ expected.text ++ ", got " ++ got.text
  | notATuple kind => "assignment of non-tuple " ++ kind.text ++ " to tuple"
  | tupleArity targets values =>
    toString targets ++ " = " ++ toString values ++ " in tuple assignment"
  | notATarget form => "cannot assign to " ++ form
  | caseMistyped selector pattern =>
    "mistyped comparison of " ++ selector.describe ++ " and " ++ pattern.describe ++
      " in case statement"
  | sliceOfNonBits kind => "bit index operator requires bits, not " ++ kind.text
  | invertedRange high low =>
    "inverted bit indexes " ++ toString high.toInt ++ ":" ++ toString low.toInt
  | indexOutOfRange index size =>
    "bit index " ++ toString index.toInt ++ " out of range for " ++ toString size ++ "-bit value"
  | badExtension old new =>
    "cannot zero-extend a " ++ toString old ++ "-bit value to " ++ toString new.toInt ++ " bits"
  | unresolvedName id => "unresolved name " ++ id
  | unsupported construct => "unsupported " ++ construct.text
  | loopLimit limit => "loop exceeded " ++ toString limit ++ " iterations"
  | notAConstant numeral => "invalid constant " ++ numeral

def EvalError.ofWidth {α : Type} : Except WidthError α → Except EvalError α
  | .ok a => .ok a
  | .error e => .error (.width e)

end ArmPseudocode

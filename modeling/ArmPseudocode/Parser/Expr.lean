import ArmPseudocode.Parser.Basic
import ArmPseudocode.Syntax.Expr

/-!
# Parsing expressions

Binary operators are read level by level, from the loosest to the tightest, and group from the left.
Under the levels stand prefix operators, under those the suffixes `<...>`, `[...]` and `.name`, and
under those the primary forms.

Each function that reads a nested expression takes the step that reads it as an argument. `exprAt`
and `typeAt` close the circle by a bound on the nesting, which the number of tokens left always
meets, since every nested expression stands behind at least one token of its own.
-/

namespace ArmPseudocode.Parse

/-- The binary operator that a token writes. -/
def binaryOp? : TokenKind → Option BinaryOp
  | .fixed .equal => some .equal
  | .fixed .notEqual => some .notEqual
  | .fixed .less => some .less
  | .fixed .lessEqual => some .lessEqual
  | .fixed .greater => some .greater
  | .fixed .greaterEqual => some .greaterEqual
  | .fixed .andAnd => some .andAlso
  | .fixed .orOr => some .orElse
  | .fixed .kwAnd => some .bitAnd
  | .fixed .kwOr => some .bitOr
  | .fixed .kwEor => some .bitEor
  | .fixed .colon => some .concat
  | .fixed .plus => some .add
  | .fixed .minus => some .sub
  | .fixed .star => some .mul
  | .fixed .slash => some .divide
  | .fixed .kwDiv => some .div
  | .fixed .kwMod => some .mod
  | .fixed .shiftLeft => some .shiftLeft
  | .fixed .shiftRight => some .shiftRight
  | _ => none

def unaryOp? : TokenKind → Option UnaryOp
  | .fixed .bang => some .not
  | .fixed .minus => some .neg
  | .fixed .plus => some .plus
  | .fixed .twoPow => some .twoPow
  | _ => none

/-- Whether a token can only begin a type. -/
def beginsType : TokenKind → Bool
  | .fixed .kwBits | .fixed .kwBit | .fixed .kwInteger | .fixed .kwBoolean => true
  | _ => false

/-- The operators of one level behind a left operand, each with its right operand. -/
def operatorsBehind (operand : Parse (Expr Span)) (level : Nat) :
    Nat → Expr Span → Parse (Expr Span)
  | 0, left => return left
  | bound + 1, left => do
    match binaryOp? (← kind) with
    | none => return left
    | some op =>
      if op.precedence = level then
        let _ ← advance
        let right ← operand
        operatorsBehind operand level bound (.binary (left.info.merge right.info) op left right)
      else
        return left

/-- Operators up to a level over operands of a tighter kind. -/
def binary (operand : Parse (Expr Span)) (bound : Nat) : Nat → Parse (Expr Span)
  | 0 => operand
  | level + 1 => do
    let left ← binary operand bound level
    operatorsBehind (binary operand bound level) (level + 1) bound left

def unary (operand : Parse (Expr Span)) : Nat → Parse (Expr Span)
  | 0 => operand
  | bound + 1 => do
    match unaryOp? (← kind) with
    | none => operand
    | some op =>
      let start ← advance
      let inner ← unary operand bound
      return .unary (start.merge inner.info) op inner

def sliceTerm (bound : Parse (Expr Span)) : Parse (SliceTerm (Expr Span)) := do
  let high ← bound
  if ← eat .colon then
    let low ← bound
    return .range high low
  else
    return .single high

/-- The selections of a slice with the brackets around them. -/
def sliceTerms (inner : Parse (Expr Span)) (bound : Nat) (delimiter : Char)
    (closing : FixedToken) : Parse (List (SliceTerm (Expr Span))) := do
  let opened ← advance
  let terms ← commaSeparated (sliceTerm inner) bound
  close opened delimiter closing
  return terms

def suffixes (inner : Parse (Expr Span)) (size : Nat) : Nat → Expr Span → Parse (Expr Span)
  | 0, base => return base
  | bound + 1, base => do
    match ← kind with
    | .fixed .openAngle =>
      let terms ← sliceTerms inner size '<' .closeAngle
      suffixes inner size bound (.slice (← spanFrom base.info) base terms)
    | .fixed .openBracket =>
      let terms ← sliceTerms inner size '[' .closeBracket
      suffixes inner size bound (.index (← spanFrom base.info) base terms)
    | .fixed .dot =>
      let _ ← advance
      let field ← expectName
      suffixes inner size bound (.member (← spanFrom base.info) base field)
    | _ => return base

/-- A slot of a tuple: `-` alone, or an expression. -/
def tupleItem (expr : Parse (Expr Span)) : Parse (Expr Span) := do
  let next ← nextKind
  if (← isAt .minus) && (next = .fixed .comma || next = .fixed .closeParen) then
    return .blank (← advance)
  else
    expr

/-- A type and the variable it declares, or the word `UNKNOWN`. -/
def typedPrimary (type : Parse (TypeExpr Span)) : Parse (Span → Expr Span) := do
  let type ← type
  if ← eat .kwUnknown then
    return (.unknown · (some type))
  else
    let id ← expectName
    return (.declare · type id)

/-- The form of expression that the token here begins. In a pattern of a case arm two identifiers in
a row are a pattern and the beginning of a statement, elsewhere they declare a variable. -/
def primaryForm (inPattern : Bool) (bound : Nat) (expr : Parse (Expr Span))
    (type : Parse (TypeExpr Span)) : Parse (Span → Expr Span) := do
  let start ← span
  match ← kind with
  | .int n =>
    let _ ← advance
    return (.int · n)
  | .real numeral =>
    let _ ← advance
    return (.real · numeral)
  | .bitString digits =>
    let _ ← advance
    return (.bitString · digits)
  | .name id =>
    let _ ← advance
    match ← kind with
    | .name var =>
      if inPattern then
        return (.name · id)
      else
        let _ ← advance
        return (.declare · (.named id) var)
    | _ => return (.name · id)
  | .call callee =>
    let _ ← advance
    let args ← if ← isAt .closeParen then pure [] else commaSeparated expr bound
    close start '(' .closeParen
    return (.call · callee args)
  | .fixed .openParen =>
    if beginsType (← nextKind) then
      typedPrimary type
    else
      let _ ← advance
      let items ← commaSeparated (tupleItem expr) bound
      close start '(' .closeParen
      return (.tuple · items)
  | .fixed .kwBits | .fixed .kwBit | .fixed .kwInteger | .fixed .kwBoolean => typedPrimary type
  | .fixed .kwUnknown =>
    let _ ← advance
    return (.unknown · none)
  | .fixed .kwIf =>
    let _ ← advance
    let test ← expr
    let _ ← expect .kwThen
    let yes ← expr
    let _ ← expect .kwElse
    let no ← expr
    return (.conditional · test yes no)
  | .error =>
    let _ ← advance
    return (.malformed ·)
  | other => throw (.expectedExpression start other.found)

/-- A primary expression with the span of its tokens. -/
def primary (inPattern : Bool) (bound : Nat) (expr : Parse (Expr Span))
    (type : Parse (TypeExpr Span)) : Parse (Expr Span) := do
  let start ← span
  let form ← primaryForm inPattern bound expr type
  return form (← spanFrom start)

/-- A type: a word, an identifier, a width behind `bits(`, or a list of types in parentheses. -/
def typeForm (bound : Nat) (expr : Parse (Expr Span)) (type : Parse (TypeExpr Span)) :
    Parse (TypeExpr Span) := do
  let start ← span
  match ← kind with
  | .fixed .kwBits =>
    let _ ← advance
    let width ← expr
    close start '(' .closeParen
    return .bits width
  | .fixed .kwBit =>
    let _ ← advance
    return .bit
  | .fixed .kwInteger =>
    let _ ← advance
    return .integer
  | .fixed .kwBoolean =>
    let _ ← advance
    return .boolean
  | .name id =>
    let _ ← advance
    return .named id
  | .fixed .openParen =>
    let _ ← advance
    let items ← commaSeparated type bound
    close start '(' .closeParen
    return .tuple items
  | other => throw (.expectedType start other.found)

mutual

/-- An expression of at most a level, nested less than `bound` deep. -/
def exprAt (inPattern : Bool) (bound : Nat) (level : Nat) : Parse (Expr Span) :=
  match bound with
  | 0 => do throw (.expectedExpression (← span) (← kind).found)
  | bound + 1 =>
    let expr := exprAt inPattern bound BinaryOp.loosest
    let type := typeForm bound expr (typeAt inPattern bound)
    let operand := do
      let base ← primary inPattern bound expr type
      suffixes (exprAt inPattern bound BinaryOp.boundLevel) bound bound base
    binary (unary operand bound) bound level
termination_by structural bound

/-- A type whose widths are nested less than `bound` deep. -/
def typeAt (inPattern : Bool) (bound : Nat) : Parse (TypeExpr Span) :=
  match bound with
  | 0 => do throw (.expectedType (← span) (← kind).found)
  | bound + 1 =>
    typeForm bound (exprAt inPattern bound BinaryOp.loosest) (typeAt inPattern bound)
termination_by structural bound

end

/-- An expression outside the patterns of a case arm. The bound is more than the number of tokens
left. -/
def expr (bound : Nat) : Parse (Expr Span) :=
  exprAt false bound BinaryOp.loosest

def patterns (bound : Nat) : Parse (List (Expr Span)) :=
  commaSeparated (exprAt true bound BinaryOp.loosest) bound

end ArmPseudocode.Parse

import ArmPseudocode.Eval.Environment
import ArmPseudocode.Eval.Operators
import ArmPseudocode.Syntax.Expr

/-!
# Evaluation of expressions

An expression has a value or a defect in an environment, and never changes it. Operands, arguments
and components are evaluated from left to right. The right operand of `&&` and `||` is evaluated
only if the left one, which must be boolean, leaves the value open; then it is the value, whatever
its kind.
-/

namespace ArmPseudocode

namespace Value

/-- The truth value that a place requires. -/
def asBool (place : Place) : Value → Except EvalError Bool
  | bool b => .ok b
  | v => .error (.notBool place v.kind)

def asInt (place : Place) : Value → Except EvalError Int64
  | int n => .ok n
  | v => .error (.notInteger place v.kind)

def member (field : String) : Value → Except EvalError Value
  | symbol id => .ok (.symbol (id ++ "." ++ field))
  | v => .error (.notSupported "." v.kind)

/-- Calls what a name stands for. -/
def applyTo (callee : String) (args : List Value) : Value → Except EvalError Value
  | func f => f.apply args
  | v => .error (.notCallable callee v.kind)

def unknownBits (width : Int64) : Except EvalError Value :=
  if width.toInt < 0 then .error (.width (.outOfRange width.toInt))
  else bits <$> EvalError.ofWidth (Bits.unknown width.toInt.toNat)

end Value

namespace Bits

/-- A position of a vector that an integer gives. -/
def position (b : Bits) (index : Int64) : Except EvalError Nat :=
  if 0 ≤ index.toInt ∧ index.toInt < b.width then .ok index.toInt.toNat
  else .error (.indexOutOfRange index b.width)

/-- Puts one more selection of a vector below those selected so far. -/
def select (b selected : Bits) (high low : Int64) : Except EvalError Bits := do
  let high ← b.position high
  let low ← b.position low
  EvalError.ofWidth (selected.concat (b.slice high low))

/-- Puts a range below the selections so far. Its high end must be above its low end. -/
def selectRange (b selected : Bits) (high low : Int64) : Except EvalError Bits :=
  if high.toInt ≤ low.toInt then .error (.invertedRange high low) else b.select selected high low

end Bits

namespace Expr

variable {α : Type}

mutual

def eval (env : Environment) : Expr α → Except EvalError Value
  | int _ n => .ok (.int n)
  | real _ numeral => .error (.notAConstant numeral)
  | bitString _ digits => Value.bits <$> EvalError.ofWidth (Bits.ofText digits.toList)
  | name _ id => env.lookup id
  | declare _ _ _ => .error (.unsupported .declarationAsValue)
  | unknown _ (some (.bits width)) => do
    let width ← (← width.eval env).asInt .bitsWidth
    Value.unknownBits width
  | unknown _ (some .bit) => Value.bits <$> EvalError.ofWidth (Bits.unknown 1)
  | unknown _ _ => .error (.unsupported .unknownOfOtherType)
  | call _ callee args => do
    -- A defect in an argument comes before one in the callee.
    let args ← evalAll env args
    (← env.lookup callee).applyTo callee args
  | tuple _ [item] => item.eval env
  | tuple _ items => Value.tuple <$> evalAll env items
  | blank _ => .error (.unsupported .blankAsValue)
  | binary _ op left right => do
    let v ← left.eval env
    match op with
    -- The right operand of these two is taken as it is, of whatever kind.
    | .andAlso => if ← v.asBool .andLeft then right.eval env else .ok (.bool false)
    | .orElse => if ← v.asBool .orLeft then .ok (.bool true) else right.eval env
    | op => Value.binary op v (← right.eval env)
  | unary _ op operand => do
    Value.unary op (← operand.eval env)
  | slice _ base terms => do
    match ← base.eval env with
    | .bits b => Value.bits <$> evalTerms env b .nil terms
    | v => .error (.sliceOfNonBits v.kind)
  | index _ base terms => do
    match ← base.eval env with
    | .bits b => Value.bits <$> evalTerms env b .nil terms
    | v => .error (.notSupported "[]" v.kind)
  | conditional _ test yes no => do
    if ← (← test.eval env).asBool .conditionalTest then yes.eval env else no.eval env
  | member _ base field => do
    (← base.eval env).member field
  | malformed _ => .error (.unsupported .malformedExpression)
termination_by structural e => e

def evalAll (env : Environment) : List (Expr α) → Except EvalError (List Value)
  | [] => .ok []
  | e :: es => do
    let v ← e.eval env
    let vs ← evalAll env es
    return v :: vs
termination_by structural es => es

/-- The bits of a vector that terms select, the first term's on top, below those selected
already. -/
def evalTerms (env : Environment) (b selected : Bits) :
    List (SliceTerm (Expr α)) → Except EvalError Bits
  | [] => .ok selected
  | .single position :: terms => do
    let i ← (← position.eval env).asInt .bitIndex
    let selected ← b.select selected i i
    evalTerms env b selected terms
  | .range high low :: terms => do
    let high ← (← high.eval env).asInt .bitIndex
    let low ← (← low.eval env).asInt .bitIndex
    let selected ← b.selectRange selected high low
    evalTerms env b selected terms
termination_by structural terms => terms

end

end Expr

end ArmPseudocode

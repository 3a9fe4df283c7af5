import ArmPseudocode.Eval.Error

/-!
# Operators on values

Both operands of an operator are of one kind. Integers compute exactly and report a result that does
not fit 64 bits; equality of bit vectors treats an `x` of the right operand as matching anything;
tuples are equal where all their components are.
-/

namespace ArmPseudocode.Value

/-! ### Integers -/

/-- The integer of 64 bits that equals a number, if there is one. -/
def toInt64? (n : Int) : Option Int64 :=
  if Int64.minValue.toInt ≤ n ∧ n ≤ Int64.maxValue.toInt then some (Int64.ofInt n) else none

/-- The exact result of an operation, or its overflow. -/
def checked (operation : IntOperation) (n : Int) : Except EvalError Value :=
  match toInt64? n with
  | some n => .ok (.int n)
  | none => .error (.overflow operation)

/-- The amount of a shift as a number from 0 to 63. -/
def shiftAmount (amount : Int64) : Except EvalError Nat :=
  if 0 ≤ amount.toInt ∧ amount.toInt < 64 then .ok amount.toInt.toNat
  else .error (.shiftOutOfRange amount)

/-- Division that rounds toward zero. -/
def intDiv (a b : Int64) : Except EvalError Value :=
  if b = 0 then .error .divisionByZero else checked .quotient (a.toInt.tdiv b.toInt)

/-- The remainder of `intDiv`, which overflows where the quotient does. -/
def intMod (a b : Int64) : Except EvalError Value :=
  if b = 0 then .error .divisionByZero
  else
    -- The remainder itself always fits; the test is for the division that goes with it.
    match toInt64? (a.toInt.tdiv b.toInt) with
    | some _ => checked .remainder (a.toInt.tmod b.toInt)
    | none => .error (.overflow .remainder)

/-- A shift to the left in 64 bits. If bits that matter are shifted out, shifting back does not give
the integer again. -/
def intShiftLeft (a : Int64) (n : Nat) : Except EvalError Value :=
  let shifted := a <<< Int64.ofNat n
  if shifted >>> Int64.ofNat n = a then .ok (.int shifted) else .error (.overflow .leftShift)

def intBinary (op : BinaryOp) (a b : Int64) : Except EvalError Value :=
  match op with
  | .equal => .ok (.bool (a = b))
  | .notEqual => .ok (.bool (a ≠ b))
  | .less => .ok (.bool (a.toInt < b.toInt))
  | .lessEqual => .ok (.bool (a.toInt ≤ b.toInt))
  | .greater => .ok (.bool (b.toInt < a.toInt))
  | .greaterEqual => .ok (.bool (b.toInt ≤ a.toInt))
  | .add => checked .addition (a.toInt + b.toInt)
  | .sub => checked .subtraction (a.toInt - b.toInt)
  | .mul => checked .multiplication (a.toInt * b.toInt)
  | .div => intDiv a b
  | .mod => intMod a b
  | .shiftLeft => do
    let n ← shiftAmount b
    intShiftLeft a n
  | .shiftRight => do
    let n ← shiftAmount b
    return .int (a >>> Int64.ofNat n)
  | .andAlso | .orElse | .bitAnd | .bitOr | .bitEor | .concat | .divide =>
    .error (.notSupported op.symbol .int)

/-! ### Booleans and bit vectors -/

def boolBinary (op : BinaryOp) (a b : Bool) : Except EvalError Value :=
  match op with
  | .equal => .ok (.bool (a == b))
  | .notEqual => .ok (.bool (a != b))
  | .andAlso => .ok (.bool (a && b))
  | .orElse => .ok (.bool (a || b))
  | _ => .error (.notSupported op.symbol .bool)

def bitsBinary (op : BinaryOp) (a b : Bits) : Except EvalError Value :=
  match op with
  | .equal => bool <$> EvalError.ofWidth (a.equals b)
  | .notEqual => (fun same => bool !same) <$> EvalError.ofWidth (a.equals b)
  | .bitAnd => bits <$> EvalError.ofWidth (a.and b)
  | .bitOr => bits <$> EvalError.ofWidth (a.or b)
  | .bitEor => bits <$> EvalError.ofWidth (a.eor b)
  | .concat => bits <$> EvalError.ofWidth (a.concat b)
  | _ => .error (.notSupported op.symbol .bits)

/-! ### Equality and the operators in general -/

/-- The defect of an operator on two values that do not support it together. -/
def unsupportedOperands (op : BinaryOp) (v w : Value) : EvalError :=
  if v.kind = w.kind then .notSupported op.symbol v.kind else .operandsDiffer op v.kind w.kind

mutual

/-- Whether two values are equal, where that is defined. -/
def equals : Value → Value → Except EvalError Bool
  | int a, int b => .ok (a = b)
  | bool a, bool b => .ok (a == b)
  | bits a, bits b => EvalError.ofWidth (a.equals b)
  | tuple vs, tuple ws =>
    if vs.length = ws.length then equalsAll vs ws
    else .error (.tupleLengths vs.length ws.length)
  | v, w => .error (unsupportedOperands .equal v w)
termination_by structural v => v

/-- Whether two lists of values are equal component by component. Every component is compared, also
behind two that differ. -/
def equalsAll : List Value → List Value → Except EvalError Bool
  | v :: vs, w :: ws => do
    let same ← v.equals w
    let rest ← equalsAll vs ws
    return same && rest
  | _, _ => .ok true
termination_by structural vs => vs

end

/-- A binary operator on tuples, which have only equality. -/
def tupleBinary (op : BinaryOp) (vs ws : List Value) : Except EvalError Value :=
  match op with
  | .equal => bool <$> (tuple vs).equals (tuple ws)
  | .notEqual => (fun same => bool !same) <$> (tuple vs).equals (tuple ws)
  | _ => .error (.notSupported op.symbol .tuple)

def binary (op : BinaryOp) : Value → Value → Except EvalError Value
  | int a, int b => intBinary op a b
  | bool a, bool b => boolBinary op a b
  | bits a, bits b => bitsBinary op a b
  | tuple vs, tuple ws => tupleBinary op vs ws
  | v, w => .error (unsupportedOperands op v w)

/-- The largest exponent whose power of two fits. -/
def maxExponent : Int := 62

def unary (op : UnaryOp) (v : Value) : Except EvalError Value :=
  match op, v with
  | .not, bool b => .ok (.bool !b)
  | .plus, int n => .ok (.int n)
  | .neg, int n => checked .negation (-n.toInt)
  | .twoPow, int n =>
    if 0 ≤ n.toInt ∧ n.toInt ≤ maxExponent then .ok (.int (Int64.ofNat (1 <<< n.toInt.toNat)))
    else .error (.exponentOutOfRange n)
  | _, v => .error (.notSupported op.symbol v.kind)

end ArmPseudocode.Value

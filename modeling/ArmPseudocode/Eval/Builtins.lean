import ArmPseudocode.Eval.Error

/-!
# Builtin functions

The functions every program can call, and the two constants. Each function checks the number of its
arguments first and then their kinds from left to right.
-/

namespace ArmPseudocode.Builtin

/-- An argument that must be a bit vector. -/
def bitsArgument (f : Builtin) : Value → Except EvalError Bits
  | .bits b => .ok b
  | v => .error (.argumentKind f .bits v.kind)

def intArgument (f : Builtin) : Value → Except EvalError Int64
  | .int n => .ok n
  | v => .error (.argumentKind f .int v.kind)

def zerosOf (n : Int64) : Except EvalError Value :=
  if n.toInt < 0 then .error (.width (.outOfRange n.toInt))
  else .bits <$> EvalError.ofWidth (Bits.zeros n.toInt.toNat)

def zeroExtended (b : Bits) (n : Int64) : Except EvalError Value :=
  if b.width ≤ n.toInt ∧ n.toInt ≤ Bits.maxWidth then .ok (.bits (b.extend n.toInt.toNat))
  else .error (.badExtension b.width n)

/-- The number that `ArchVersion` reports. -/
def architecture : Int64 := 7

/-- The immediate that twelve bits encode: the low byte, rotated right by twice the top four. -/
def expandImmediate (b : Bits) : Except EvalError Value :=
  let byte := b.value &&& 0xFF
  let rotation := 2 * (b.value >>> 8 &&& 0xF).toNat
  .bits <$> EvalError.ofWidth (Bits.ofValue 32 (byte.rotateRight rotation))

/-- Calls a function. `DecodeImmShift` only checks its arguments; decoding a shift is not modelled,
and the result is always a pair of zeros. -/
def apply (f : Builtin) (args : List Value) : Except EvalError Value :=
  match f, args with
  | uint, [x] => do
    let b ← bitsArgument f x
    return .int (Int64.ofNat b.toUnsigned)
  | sint, [x] => do
    let b ← bitsArgument f x
    return .int (Int64.ofInt b.toSigned)
  | zeroExtend, [x, n] => do
    let b ← bitsArgument f x
    let width ← intArgument f n
    zeroExtended b width
  | zeros, [n] => do
    let width ← intArgument f n
    zerosOf width
  | bitCount, [x] => do
    let b ← bitsArgument f x
    return .int (Int64.ofNat b.countOnes)
  | consistent, [x] => .ok (.bool (x ≠ .inconsistent))
  | archVersion, [] => .ok (.int architecture)
  | armExpandImm, [x] => do
    let b ← bitsArgument f x
    if b.width = 12 then expandImmediate b else .error (.argumentKind f .immediate .bits)
  | decodeImmShift, [type, imm5] => do
    let _ ← bitsArgument f type
    let _ ← bitsArgument f imm5
    return .tuple [.int 0, .int 0]
  | zeroExtend, _ | decodeImmShift, _ => .error (.argumentCount f 2 args.length)
  | archVersion, _ => .error (.argumentCount f 0 args.length)
  | _, _ => .error (.argumentCount f 1 args.length)

/-- The constants and functions with their names. -/
def table : List (String × Value) :=
  ("TRUE", .bool true) :: ("FALSE", .bool false) :: all.map fun f => (f.name, .func f)

def ofName? (id : String) : Option Value :=
  table.lookup id

end ArmPseudocode.Builtin

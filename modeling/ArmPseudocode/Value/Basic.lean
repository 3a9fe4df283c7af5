import ArmPseudocode.Value.Bits

/-!
# Values

What an expression can evaluate to. The kinds are closed, and no value is ever converted to another
kind.
-/

namespace ArmPseudocode

/-- The functions the language provides. -/
inductive Builtin where
  | uint
  | sint
  | zeroExtend
  | zeros
  | bitCount
  | consistent
  | archVersion
  | armExpandImm
  | decodeImmShift
deriving DecidableEq, Repr

namespace Builtin

def all : List Builtin :=
  [uint, sint, zeroExtend, zeros, bitCount, consistent, archVersion, armExpandImm, decodeImmShift]

/-- The name programs call it by. -/
def name : Builtin → String
  | uint => "UInt"
  | sint => "SInt"
  | zeroExtend => "ZeroExtend"
  | zeros => "Zeros"
  | bitCount => "BitCount"
  | consistent => "Consistent"
  | archVersion => "ArchVersion"
  | armExpandImm => "ARMExpandImm"
  | decodeImmShift => "DecodeImmShift"

end Builtin

inductive ValueKind where
  | bool
  | int
  | bits
  | tuple
  | symbol
  | func
  | inconsistent
deriving DecidableEq, Repr

def ValueKind.text : ValueKind → String
  | bool => "bool"
  | int => "integer"
  | bits => "bits"
  | tuple => "tuple"
  | symbol => "symbol"
  | func => "function"
  | inconsistent => "inconsistent"

inductive Value where
  | bool (b : Bool)
  | int (n : Int64)
  | bits (b : Bits)
  | tuple (items : List Value)
  /-- A name that nothing is bound to, which stands for state outside the program. -/
  | symbol (id : String)
  | func (f : Builtin)
  /-- A field of an encoding that was bound twice with different contents. -/
  | inconsistent
deriving Repr

namespace Value

def kind : Value → ValueKind
  | bool _ => .bool
  | int _ => .int
  | bits _ => .bits
  | tuple _ => .tuple
  | symbol _ => .symbol
  | func _ => .func
  | inconsistent => .inconsistent

mutual

/-- The value as text. -/
def text : Value → String
  | bool b => if b then "TRUE" else "FALSE"
  | int n => toString n.toInt
  | bits b => b.text
  | tuple items => "(" ++ String.intercalate ", " (texts items) ++ ")"
  | symbol id => id
  | func f => f.name
  | inconsistent => "INCONSISTENT"
termination_by structural v => v

def texts : List Value → List String
  | [] => []
  | v :: vs => v.text :: texts vs
termination_by structural vs => vs

end

mutual

def decEq : (v w : Value) → Decidable (v = w)
  | bool a, bool b =>
    if h : a = b then isTrue (h ▸ rfl) else isFalse fun e => h (by injection e)
  | int a, int b =>
    if h : a = b then isTrue (h ▸ rfl) else isFalse fun e => h (by injection e)
  | bits a, bits b =>
    if h : a = b then isTrue (h ▸ rfl) else isFalse fun e => h (by injection e)
  | tuple a, tuple b =>
    match decEqList a b with
    | isTrue h => isTrue (h ▸ rfl)
    | isFalse h => isFalse fun e => h (by injection e)
  | symbol a, symbol b =>
    if h : a = b then isTrue (h ▸ rfl) else isFalse fun e => h (by injection e)
  | func a, func b =>
    if h : a = b then isTrue (h ▸ rfl) else isFalse fun e => h (by injection e)
  | inconsistent, inconsistent => isTrue rfl
  | bool _, int _ | bool _, bits _ | bool _, tuple _ | bool _, symbol _ | bool _, func _
  | bool _, inconsistent | int _, bool _ | int _, bits _ | int _, tuple _ | int _, symbol _
  | int _, func _ | int _, inconsistent | bits _, bool _ | bits _, int _ | bits _, tuple _
  | bits _, symbol _ | bits _, func _ | bits _, inconsistent | tuple _, bool _ | tuple _, int _
  | tuple _, bits _ | tuple _, symbol _ | tuple _, func _ | tuple _, inconsistent
  | symbol _, bool _ | symbol _, int _ | symbol _, bits _ | symbol _, tuple _ | symbol _, func _
  | symbol _, inconsistent | func _, bool _ | func _, int _ | func _, bits _ | func _, tuple _
  | func _, symbol _ | func _, inconsistent | inconsistent, bool _ | inconsistent, int _
  | inconsistent, bits _ | inconsistent, tuple _ | inconsistent, symbol _ | inconsistent, func _ =>
    isFalse nofun
termination_by structural v => v

def decEqList : (vs ws : List Value) → Decidable (vs = ws)
  | [], [] => isTrue rfl
  | [], _ :: _ => isFalse nofun
  | _ :: _, [] => isFalse nofun
  | v :: vs, w :: ws =>
    match decEq v w, decEqList vs ws with
    | isTrue h, isTrue t => isTrue (h ▸ t ▸ rfl)
    | isFalse h, _ => isFalse fun e => h (by injection e)
    | _, isFalse t => isFalse fun e => t (by injection e)
termination_by structural vs => vs

end

instance : DecidableEq Value := decEq

end Value

end ArmPseudocode

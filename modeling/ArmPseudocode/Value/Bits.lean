import ArmPseudocode.Syntax.Operator

/-!
# Bit vectors

A bit vector has up to 32 positions, and each position is zero, one or `x`, which stands for either.
It is kept as two 32-bit payloads, one for the ones and one for the positions that are `x`. Payload
bits beyond the width are zero, and a position that is `x` has no one; `WellFormed` says so, and the
digits of a well-formed vector determine it.
-/

namespace ArmPseudocode

inductive Digit where
  | zero
  | one
  /-- Zero or one. -/
  | any
deriving DecidableEq, Repr

namespace Digit

def ofChar? (c : Char) : Option Digit :=
  if c = '0' then some zero else if c = '1' then some one else if c = 'x' then some any else none

def toChar : Digit → Char
  | zero => '0'
  | one => '1'
  | any => 'x'

end Digit

structure Bits where
  width : Nat
  /-- The positions that are one. -/
  value : BitVec 32
  /-- The positions that are `x`. -/
  dontCare : BitVec 32
deriving DecidableEq, Repr

inductive WidthError where
  /-- No vector is that wide. -/
  | outOfRange (width : Int)
  /-- The operator needs operands of one width. -/
  | mismatch (op : BinaryOp) (left right : Nat)
deriving DecidableEq, Repr

namespace Bits

def maxWidth : Nat := 32

def nil : Bits := ⟨0, 0, 0⟩

/-- The payload with the low `width` bits set. -/
def lowMask (width : Nat) : BitVec 32 :=
  BitVec.allOnes 32 >>> (32 - width)

/-- The payloads fit the width and do not overlap. -/
structure WellFormed (b : Bits) : Prop where
  width_le : b.width ≤ maxWidth
  value_lt : b.value.toNat < 1 <<< b.width
  dontCare_lt : b.dontCare.toNat < 1 <<< b.width
  disjoint : b.value &&& b.dontCare = 0

/-- The vector of a width with given payloads. Bits beyond the width are dropped, and `x` takes
precedence over one. -/
def ofPayload (width : Nat) (value dontCare : BitVec 32) : Except WidthError Bits :=
  if width > maxWidth then .error (.outOfRange width)
  else
    let dontCare := dontCare &&& lowMask width
    .ok ⟨width, value &&& lowMask width &&& ~~~dontCare, dontCare⟩

/-- The vector of a width with given ones and no `x`. -/
def ofValue (width : Nat) (value : BitVec 32) : Except WidthError Bits :=
  ofPayload width value 0

def zeros (width : Nat) : Except WidthError Bits :=
  ofValue width 0

def unknown (width : Nat) : Except WidthError Bits :=
  ofPayload width 0 (BitVec.allOnes 32)

/-- Shifts a digit in at the low end of two payloads. -/
def pushDigit (payload : BitVec 32 × BitVec 32) (d : Digit) : BitVec 32 × BitVec 32 :=
  (payload.1 <<< 1 ||| (if d = .one then 1 else 0), payload.2 <<< 1 ||| (if d = .any then 1 else 0))

/-- The vector with given digits, the most significant first. More digits than fit are refused at
the first that does not. -/
def ofDigits (digits : List Digit) : Except WidthError Bits :=
  if digits.length > maxWidth then .error (.outOfRange (maxWidth + 1))
  else
    let (value, dontCare) := digits.foldl pushDigit (0, 0)
    ofPayload digits.length value dontCare

/-- The vector that a text writes. Characters other than digits are passed over. -/
def ofText (s : List Char) : Except WidthError Bits :=
  ofDigits (s.filterMap Digit.ofChar?)

/-- The digit at a position, counted from the low end. -/
def digitAt (b : Bits) (i : Nat) : Digit :=
  if b.dontCare.getLsbD i then .any else if b.value.getLsbD i then .one else .zero

/-- The digits, the most significant first. -/
def digits (b : Bits) : List Digit :=
  (List.range b.width).reverse.map b.digitAt

def text (b : Bits) : String :=
  String.ofList ('\'' :: b.digits.map Digit.toChar ++ ['\''])

def isConcrete (b : Bits) : Bool :=
  b.dontCare = 0

/-- Whether a vector equals a pattern of its width, in which `x` equals anything. A position of the
vector itself that is `x` counts as zero. -/
def equals (b pattern : Bits) : Except WidthError Bool :=
  -- Only the pattern's `x` is masked out, so the two sides do not play the same part.
  if b.width = pattern.width then .ok (b.value &&& ~~~pattern.dontCare = pattern.value)
  else .error (.mismatch .equal b.width pattern.width)

def concat (high low : Bits) : Except WidthError Bits :=
  let width := high.width + low.width
  if width > maxWidth then .error (.outOfRange width)
  else
    .ok
      { width
        value := high.value <<< low.width ||| low.value
        dontCare := high.dontCare <<< low.width ||| low.dontCare }

/-- The positions from `high` down to `low`, of which the vector has both. -/
def slice (b : Bits) (high low : Nat) : Bits :=
  let width := high - low + 1
  ⟨width, (b.value >>> low) &&& lowMask width, (b.dontCare >>> low) &&& lowMask width⟩

/-- The same payloads under a width that is no smaller: zeros are put on top. -/
def extend (b : Bits) (width : Nat) : Bits :=
  { b with width }

def countOnes (b : Bits) : Nat :=
  (List.range 32).countP b.value.getLsbD

/-- The number the vector writes in base two, with `x` as zero. -/
def toUnsigned (b : Bits) : Nat :=
  b.value.toNat

/-- The number the vector writes in two's complement, with `x` as zero. In 64 bits the ones are
shifted up until the highest position is the sign, and down again with copies of it. -/
def toSigned (b : Bits) : Int :=
  if b.width = 0 then 0
  else
    let unused := Int64.ofNat (64 - b.width)
    (Int64.ofNat b.value.toNat <<< unused >>> unused).toInt

/-- Combines the ones of two vectors of one width. A position that is `x` in either is `x`. -/
def combine (op : BinaryOp) (f : BitVec 32 → BitVec 32 → BitVec 32) (a b : Bits) :
    Except WidthError Bits :=
  if a.width = b.width then ofPayload a.width (f a.value b.value) (a.dontCare ||| b.dontCare)
  else .error (.mismatch op a.width b.width)

def and : Bits → Bits → Except WidthError Bits := combine .bitAnd (· &&& ·)

def or : Bits → Bits → Except WidthError Bits := combine .bitOr (· ||| ·)

def eor : Bits → Bits → Except WidthError Bits := combine .bitEor (· ^^^ ·)

end Bits

end ArmPseudocode

/-!
# Numerals

Reading digits in a base, the decimal form of a field width, and the eight-digit form of a word.
-/

namespace ArmPseudocode.Text

def isDigit (c : Char) : Bool :=
  '0' ≤ c && c ≤ '9'

def isHexDigit (c : Char) : Bool :=
  isDigit c || ('a' ≤ c && c ≤ 'f') || ('A' ≤ c && c ≤ 'F')

def digitValue (c : Char) : Nat :=
  if isDigit c then c.toNat - '0'.toNat
  else if 'a' ≤ c then c.toNat - 'a'.toNat + 10
  else c.toNat - 'A'.toNat + 10

/-- The number that digits spell, the most significant first. -/
def digitsValue (base : Nat) (digits : List Char) : Nat :=
  digits.foldl (fun total c => total * base + digitValue c) 0

/-- A width as layouts write it: an optional plus sign and decimal digits, below `2^32`. -/
def readWidth? (s : List Char) : Option Nat :=
  let digits := match s with
    | '+' :: rest => rest
    | _ => s
  if digits.isEmpty || !digits.all isDigit then none
  else
    let n := digitsValue 10 digits
    if n < UInt32.size then some n else none

/-- A word as `0x` and eight lower-case hexadecimal digits. -/
def hexWord (word : BitVec 32) : String :=
  let digits := Nat.toDigits 16 word.toNat
  "0x" ++ String.ofList (List.replicate (8 - digits.length) '0' ++ digits)

end ArmPseudocode.Text

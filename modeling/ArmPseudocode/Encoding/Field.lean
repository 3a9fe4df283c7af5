import ArmPseudocode.Text.Blank
import ArmPseudocode.Text.Numeral
import ArmPseudocode.Text.Split

/-!
# Fields of an encoding

The layout of an instruction word is a row of items, the most significant first: fixed bits and
named fields. As text the items are separated by bars, a field has its width behind a colon, and a
width of one is left out.
-/

namespace ArmPseudocode

/-- The number of bits of an instruction word, which a layout covers. -/
def wordBits : Nat := 32

inductive FieldSpec where
  /-- A fixed bit. One in parentheses is a bit that should be so; it is matched like any other. -/
  | literal (bit parenthesized : Bool)
  | field (id : String) (width : Nat)
deriving DecidableEq, Repr

/-- Why a layout is not one. -/
inductive LayoutError where
  /-- The items do not cover a word. -/
  | coverage (total : Nat)
  | zeroWidth (id : String)
  | emptyName (item : String)
  | badWidth (item : String)
deriving DecidableEq, Repr

def LayoutError.message : LayoutError → String
  | coverage total => "layout covers " ++ toString total ++ " bits, expected 32"
  | zeroWidth id => "field " ++ id ++ " has zero width"
  | emptyName item => "layout item `" ++ item ++ "` has no field name"
  | badWidth item => "layout item `" ++ item ++ "` has an invalid width"

namespace FieldSpec

def width : FieldSpec → Nat
  | literal _ _ => 1
  | field _ width => width

/-- The text of an item without the blanks around it. -/
def text : FieldSpec → String
  | literal bit parenthesized =>
    let digit := if bit then "1" else "0"
    if parenthesized then "(" ++ digit ++ ")" else digit
  | field id width => if width = 1 then id else id ++ ":" ++ toString width

/-- The field of a name and a width that an item gives, unless one of them is missing. -/
def named (item id : List Char) (width : Nat) : Except LayoutError FieldSpec :=
  if id.isEmpty then .error (.emptyName (String.ofList item))
  else if width = 0 then .error (.zeroWidth (String.ofList id))
  else .ok (.field (String.ofList id) width)

/-- The field that an item which is not a fixed bit writes. -/
def readField (item : List Char) : Except LayoutError FieldSpec :=
  match Text.cutAt? ':' item with
  | none => named item item 1
  | some (id, width) =>
    match Text.readWidth? (Text.trim width) with
    | some width => named item (Text.trim id) width
    | none => .error (.badWidth (String.ofList item))

def read (item : List Char) : Except LayoutError FieldSpec :=
  match Text.trim item with
  | ['0'] => .ok (.literal false false)
  | ['1'] => .ok (.literal true false)
  | ['(', '0', ')'] => .ok (.literal false true)
  | ['(', '1', ')'] => .ok (.literal true true)
  | item => readField item

/-- Reads the items of a layout from left to right, up to the first that is not one. -/
def readAll (layout : List Char) : Except LayoutError (List FieldSpec) :=
  (Text.splitOn '|' layout).mapM read

def textAll (specs : List FieldSpec) : String :=
  String.intercalate "|" (specs.map text)

/-- The number of bits that items cover together. -/
def totalWidth : List FieldSpec → Nat
  | [] => 0
  | spec :: specs => spec.width + totalWidth specs

end FieldSpec

end ArmPseudocode

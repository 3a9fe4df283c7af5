/-!
# Line numbers

A table of the offsets at which the lines of a text start, and the number of the line that holds an
offset. Lines count from one; an offset past the end belongs to the last line.
-/

namespace ArmPseudocode

/-- The byte offset of each line's first character, ascending, the first of them zero. -/
structure LineTable where
  starts : List Nat

namespace LineTable

/-- The starts of the lines behind each line feed of a text that begins at `offset`. -/
def startsFrom (offset : Nat) : List Char → List Nat
  | [] => []
  | c :: cs =>
    let next := offset + c.utf8Size
    if c = '\n' then next :: startsFrom next cs else startsFrom next cs

def ofText (s : List Char) : LineTable :=
  ⟨0 :: startsFrom 0 s⟩

def count (t : LineTable) : Nat :=
  t.starts.length

/-- The number of the line that holds an offset: how many lines start at it or before. -/
def lineAt (t : LineTable) (offset : Nat) : Nat :=
  (t.starts.takeWhile (· ≤ offset)).length

end LineTable

end ArmPseudocode

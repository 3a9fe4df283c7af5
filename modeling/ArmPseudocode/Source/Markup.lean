import ArmPseudocode.Source.Typos
import ArmPseudocode.Text.Blank

/-!
# Block markers

Pseudocode shows its blocks by leading tabs. Marking up a text puts the changes of depth into the
text itself: a line that is one level deeper than the one before carries an opening marker in front,
and a shallower line one closing marker for each level it leaves. Lines stay where they are, so a
line number of the marked text is a line number of the text as written.

Blank lines, lines that hold only a comment and lines that continue a block comment have no depth
and are copied as they are; from every other line the line comment is cut off.
-/

namespace ArmPseudocode.Source

/-- Opens a block: the right-pointing guillemet, U+00BB. -/
def indentMarker : Char := '\u00bb'

/-- Closes a block: the left-pointing guillemet, U+00AB. -/
def unindentMarker : Char := '\u00ab'

/-- Whether a block comment is open behind a line, given whether one is open before it. A line
comment hides what follows it on its line. -/
def commentOpenAfter : Bool → List Char → Bool
  | isOpen, [] => isOpen
  | true, '*' :: '/' :: cs => commentOpenAfter false cs
  | true, _ :: cs => commentOpenAfter true cs
  | false, '/' :: '*' :: cs => commentOpenAfter true cs
  | false, '/' :: '/' :: _ => false
  | false, _ :: cs => commentOpenAfter false cs

def depth (line : List Char) : Nat :=
  (line.takeWhile (· = '\t')).length

/-- Where the marking stands between two lines. -/
structure LayoutState where
  /-- The depths of the open levels, innermost first. The last of them is the base level, and there
  is none before the first line that has a depth. -/
  levels : List Nat
  /-- A block comment runs on into the next line. -/
  inComment : Bool

/-- Leaves every level deeper than `d`: how many were left, and the rest. -/
def leaveLevels (d : Nat) : List Nat → Nat × List Nat
  | [] => (0, [])
  | level :: outer =>
    if level > d then
      let (left, rest) := leaveLevels d outer
      (left + 1, rest)
    else
      (0, level :: outer)

/-- The markers in front of a line of depth `d`, and the levels open behind it. A line shallower
than the base level becomes the new base. -/
def enterLine (d : Nat) (levels : List Nat) : List Char × List Nat :=
  let (left, rest) := leaveLevels d levels
  let closing := List.replicate left unindentMarker
  -- A base level is opened without a marker; leaving it for a shallower one closes it all the same.
  match rest with
  | [] => (closing, [d])
  | top :: _ => if top < d then (closing ++ [indentMarker], d :: rest) else (closing, rest)

def markLine (state : LayoutState) (line : List Char) : List Char × LayoutState :=
  let inComment := commentOpenAfter state.inComment line
  let code := Text.beforeLineComment line
  if state.inComment || Text.isEmptyLine code then
    (line, { state with inComment })
  else
    let (markers, levels) := enterLine (depth code) state.levels
    (markers ++ code, { levels, inComment })

/-- The marked lines, and the markers that close what is open at the end. -/
def markLines (state : LayoutState) : List (List Char) → List (List Char) × List Char
  | [] => ([], List.replicate (state.levels.length - 1) unindentMarker)
  | line :: lines =>
    let (marked, next) := markLine state line
    let (rest, closing) := markLines next lines
    (marked :: rest, closing)

def insertMarkers (s : List Char) : List Char :=
  let (lines, closing) := markLines ⟨[], false⟩ (Text.splitOn '\n' s)
  Text.joinWith ['\n'] lines ++ closing

/-- The text with its misprints put right and its blocks marked. -/
def markup (s : List Char) : List Char :=
  insertMarkers (fixTypos s)

end ArmPseudocode.Source

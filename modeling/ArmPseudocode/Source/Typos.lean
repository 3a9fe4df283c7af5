import ArmPseudocode.Text.Split

/-!
# Transcription fixes

The printed manuals hold a handful of known misprints. They are put right before anything else reads
the text, one after another, so a later fix sees what an earlier one wrote.
-/

namespace ArmPseudocode.Source

/-- Each misprint with what it should read. -/
def typos : List (String × String) := [
  ("R[i\x7d", "R[i]"),
  ("R[n\x7d", "R[n]"),
  ("(1 << (3-UInt(op)-UInt(size));", "(1 << (3-UInt(op)-UInt(size)));"),
  ("(D[n+r] AND NOT(D[m+r]);", "(D[n+r] AND NOT(D[m+r]));"),
  ("(D[d+r] AND NOT(D[m+r]);", "(D[d+r] AND NOT(D[m+r]));"),
  ("(D[n+r] AND D[d+r]) OR (D[m+r] AND NOT(D[d+r]);",
    "(D[n+r] AND D[d+r]) OR (D[m+r] AND NOT(D[d+r]));")]

def fixTypos (s : List Char) : List Char :=
  typos.foldl (fun text (wrong, right) => Text.replaceAll wrong.toList right.toList text) s

end ArmPseudocode.Source

/-!
# Cutting and replacing

Cutting a text at a character, cutting it at its first line comment, and replacing a phrase
throughout. Each function recurses on the characters themselves; `replaceAll` carries the number of
characters of the current match that are still to be passed over.
-/

namespace ArmPseudocode.Text

/-- The pieces between the separators, one more than there are separators. -/
def splitOn (sep : Char) : List Char → List (List Char)
  | [] => [[]]
  | c :: cs =>
    if c = sep then
      [] :: splitOn sep cs
    else
      match splitOn sep cs with
      | [] => [[c]]
      | piece :: pieces => (c :: piece) :: pieces

/-- The pieces put together again with the separator between them. -/
def joinWith (sep : List Char) : List (List Char) → List Char
  | [] => []
  | [piece] => piece
  | piece :: pieces => piece ++ sep ++ joinWith sep pieces

/-- What stands before the first separator and what stands behind it. -/
def cutAt? (sep : Char) : List Char → Option (List Char × List Char)
  | [] => none
  | c :: cs =>
    if c = sep then some ([], cs) else (cutAt? sep cs).map fun (before, rest) => (c :: before, rest)

/-- The text before its first `//`, or all of it. -/
def beforeLineComment : List Char → List Char
  | '/' :: '/' :: _ => []
  | c :: cs => c :: beforeLineComment cs
  | [] => []

/-- Replaces from a place on whose first `passing` characters belong to a match already replaced. -/
def replaceFrom (phrase replacement : List Char) : Nat → List Char → List Char
  | _, [] => []
  | passing + 1, _ :: cs => replaceFrom phrase replacement passing cs
  | 0, c :: cs =>
    if phrase.isPrefixOf (c :: cs) then
      replacement ++ replaceFrom phrase replacement (phrase.length - 1) cs
    else
      c :: replaceFrom phrase replacement 0 cs

/-- Replaces every occurrence of a phrase of at least one character, from left to right; occurrences
that overlap a replaced one stay. -/
def replaceAll (phrase replacement s : List Char) : List Char :=
  replaceFrom phrase replacement 0 s

end ArmPseudocode.Text

import ArmPseudocode.Token.Cursor

/-!
# Parsing steps

A parsing step reads tokens at a cursor. It yields a result or a diagnostic, and in both cases the
cursor where it stopped: recovery starts from the place of the failure.
-/

namespace ArmPseudocode

/-- A step that moves a cursor and may fail with a diagnostic. -/
abbrev Parse (α : Type) := EStateM Diagnostic Cursor α

namespace Parse

def kind : Parse TokenKind :=
  return (← get).kind

def nextKind : Parse TokenKind :=
  return (← get).nextKind

def span : Parse Span :=
  return (← get).here.span

/-- Consumes the token here and yields its span. -/
def advance : Parse Span := do
  let span ← span
  modify Cursor.advance
  return span

def isAt (token : FixedToken) : Parse Bool :=
  return (← kind) = .fixed token

def eat (token : FixedToken) : Parse Bool := do
  if ← isAt token then
    let _ ← advance
    return true
  else
    return false

/-- Fails because something else than what was expected is here. -/
def unexpected {α : Type} (expected : String) : Parse α := do
  throw (.unexpectedToken (← span) expected (← kind).found)

def expectKind (wanted : TokenKind) : Parse Span := do
  if (← kind) = wanted then advance else unexpected wanted.describe

def expect (token : FixedToken) : Parse Span :=
  expectKind (.fixed token)

def expectName : Parse String := do
  match ← kind with
  | .name id =>
    let _ ← advance
    return id
  | other => throw (.expectedName (← span) other.found)

/-- Consumes a closing token, or reports that the delimiter opened at `opened` is not closed. -/
def close (opened : Span) (delimiter : Char) (token : FixedToken) : Parse Unit := do
  if !(← eat token) then
    throw (.unclosedDelimiter opened (← span) delimiter)

/-- The span from a token on up to the last token consumed. -/
def spanFrom (start : Span) : Parse Span :=
  return start.merge (← get).lastSpan

/-- Items behind commas, none or more. The bound is at least the number of tokens left. -/
def moreItems {α : Type} (item : Parse α) : Nat → Parse (List α)
  | 0 => return []
  | bound + 1 => do
    if ← eat .comma then
      let first ← item
      let rest ← moreItems item bound
      return first :: rest
    else
      return []

/-- One item or more with commas between them. -/
def commaSeparated {α : Type} (item : Parse α) (bound : Nat) : Parse (List α) := do
  let first ← item
  let rest ← moreItems item bound
  return first :: rest

end Parse

end ArmPseudocode

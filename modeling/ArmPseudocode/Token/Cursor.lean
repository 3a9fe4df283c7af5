import ArmPseudocode.Token.Stream

/-!
# Cursors

A cursor stands on one token of a stream and knows the tokens on both sides. It moves forward one
token at a time and never past the end of the text.
-/

namespace ArmPseudocode

structure Cursor where
  /-- The tokens already consumed, the last one first. -/
  before : List Token
  here : Token
  /-- The tokens still to come. -/
  after : List Token
deriving DecidableEq, Repr

namespace Cursor

/-- On the first token of a stream. -/
def atStart (s : TokenStream) : Cursor :=
  match s.tokens with
  | [] => ⟨[], s.endToken, []⟩
  | token :: rest => ⟨[], token, rest ++ [s.endToken]⟩

def position (c : Cursor) : Nat :=
  c.before.length

def kind (c : Cursor) : TokenKind :=
  c.here.kind

/-- The span of the last token consumed, or the empty span at the start. -/
def lastSpan (c : Cursor) : Span :=
  match c.before with
  | [] => .none
  | token :: _ => token.span

def atEnd (c : Cursor) : Bool :=
  c.kind = .eof

/-- The kind of the token behind this one; at the last token, its own. -/
def nextKind (c : Cursor) : TokenKind :=
  match c.after with
  | [] => c.kind
  | token :: _ => token.kind

/-- Consumes the token here, except at the end of the text. -/
def advance (c : Cursor) : Cursor :=
  match c.after with
  | [] => c
  | token :: rest => if c.atEnd then c else ⟨c.here :: c.before, token, rest⟩

/-- Whether the token here is of a kind, whatever it carries. -/
def isAt (c : Cursor) (kind : TokenKind) : Bool :=
  c.kind.sameKind kind

/-- Consumes the token here if it is of a kind. -/
def eat (c : Cursor) (kind : TokenKind) : Bool × Cursor :=
  if c.isAt kind then (true, c.advance) else (false, c)

end Cursor

end ArmPseudocode

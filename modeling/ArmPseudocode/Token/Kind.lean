import ArmPseudocode.Source.Span

/-!
# Tokens

A token is a kind and a span. Most kinds have one fixed spelling; the others carry what the text
said: a number, digits, an identifier, or the prose behind one of the three words that introduce it.
-/

namespace ArmPseudocode

/-- The tokens with a fixed spelling: reserved words, word operators and punctuation. -/
inductive FixedToken where
  | kwReturn
  | kwUndefined
  | kwUnpredictable
  | kwIf
  | kwThen
  | kwElsif
  | kwElse
  | kwRepeat
  | kwUntil
  | kwWhile
  | kwDo
  | kwFor
  | kwTo
  | kwCase
  | kwOf
  | kwWhen
  | kwOtherwise
  | kwEnumeration
  | kwAssert
  | kwUnknown
  | kwInteger
  | kwBoolean
  | kwBit
  /-- The word `bits` with the parenthesis behind it. -/
  | kwBits
  | kwDiv
  | kwMod
  | kwAnd
  | kwOr
  | kwEor
  | andAnd
  | orOr
  | equal
  | notEqual
  /-- The relation, written with a space in front. -/
  | less
  | lessEqual
  /-- The relation, written with a space in front. -/
  | greater
  | greaterEqual
  | shiftLeft
  | shiftRight
  /-- The prefix operator `2^`. -/
  | twoPow
  /-- Opens a bit slice. -/
  | openAngle
  /-- Closes a bit slice. -/
  | closeAngle
  | openBrace
  | closeBrace
  | openParen
  | closeParen
  | openBracket
  | closeBracket
  | comma
  | colon
  | semicolon
  | dot
  | assign
  | plus
  | minus
  | star
  | slash
  | percent
  | ampersand
  | bar
  | caret
  | bang
deriving DecidableEq, Repr

namespace FixedToken

def all : List FixedToken :=
  [kwReturn, kwUndefined, kwUnpredictable, kwIf, kwThen, kwElsif, kwElse, kwRepeat, kwUntil,
    kwWhile, kwDo, kwFor, kwTo, kwCase, kwOf, kwWhen, kwOtherwise, kwEnumeration, kwAssert,
    kwUnknown, kwInteger, kwBoolean, kwBit, kwBits, kwDiv, kwMod, kwAnd, kwOr, kwEor, andAnd, orOr,
    equal, notEqual, less, lessEqual, greater, greaterEqual, shiftLeft, shiftRight, twoPow,
    openAngle, closeAngle, openBrace, closeBrace, openParen, closeParen, openBracket, closeBracket,
    comma, colon, semicolon, dot, assign, plus, minus, star, slash, percent, ampersand, bar, caret,
    bang]

/-- The token without the space that may or must stand in front of it. -/
def text : FixedToken → String
  | kwReturn => "return"
  | kwUndefined => "UNDEFINED"
  | kwUnpredictable => "UNPREDICTABLE"
  | kwIf => "if"
  | kwThen => "then"
  | kwElsif => "elsif"
  | kwElse => "else"
  | kwRepeat => "repeat"
  | kwUntil => "until"
  | kwWhile => "while"
  | kwDo => "do"
  | kwFor => "for"
  | kwTo => "to"
  | kwCase => "case"
  | kwOf => "of"
  | kwWhen => "when"
  | kwOtherwise => "otherwise"
  | kwEnumeration => "enumeration"
  | kwAssert => "assert"
  | kwUnknown => "UNKNOWN"
  | kwInteger => "integer"
  | kwBoolean => "boolean"
  | kwBit => "bit"
  | kwBits => "bits("
  | kwDiv => "DIV"
  | kwMod => "MOD"
  | kwAnd => "AND"
  | kwOr => "OR"
  | kwEor => "EOR"
  | andAnd => "&&"
  | orOr => "||"
  | equal => "=="
  | notEqual => "!="
  | less => "<"
  | lessEqual => "<="
  | greater => ">"
  | greaterEqual => ">="
  | shiftLeft => "<<"
  | shiftRight => ">>"
  | twoPow => "2^"
  | openAngle => "<"
  | closeAngle => ">"
  | openBrace => "\x7b"
  | closeBrace => "\x7d"
  | openParen => "("
  | closeParen => ")"
  | openBracket => "["
  | closeBracket => "]"
  | comma => ","
  | colon => ":"
  | semicolon => ";"
  | dot => "."
  | assign => "="
  | plus => "+"
  | minus => "-"
  | star => "*"
  | slash => "/"
  | percent => "%"
  | ampersand => "&"
  | bar => "|"
  | caret => "^"
  | bang => "!"

/-- How the token stands in a text. The relations `<` and `>` take one space in front, which tells
them from the brackets of a slice; the longer operators on angles may take it. -/
def spellings (t : FixedToken) : List String :=
  match t with
  | less | greater => [" " ++ t.text]
  | lessEqual | greaterEqual | shiftLeft | shiftRight => [t.text, " " ++ t.text]
  | _ => [t.text]

/-- A word that can only stand at the start of a statement. -/
def startsStatement : FixedToken → Bool
  | kwReturn | kwUndefined | kwUnpredictable | kwIf | kwRepeat | kwWhile | kwFor | kwCase | kwAssert
  | kwEnumeration => true
  | _ => false

end FixedToken

/-- The words that take the text up to the next semicolon as prose. -/
inductive ProseWord where
  | see
  | implementationDefined
  | subarchitectureDefined
deriving DecidableEq, Repr

def ProseWord.text : ProseWord → String
  | see => "SEE"
  | implementationDefined => "IMPLEMENTATION_DEFINED"
  | subarchitectureDefined => "SUBARCHITECTURE_DEFINED"

/-- What a token is and what it carries. -/
inductive TokenKind where
  /-- Opens a block. -/
  | indent
  /-- Closes a block. -/
  | unindent
  | int (n : Int64)
  /-- A numeral with a fraction, as written. -/
  | real (numeral : String)
  /-- The digits of a bit string without its quotes and spaces. -/
  | bitString (digits : String)
  | name (id : String)
  /-- An identifier with the parenthesis behind it. -/
  | call (id : String)
  /-- A word with its prose, which is trimmed. -/
  | prose (word : ProseWord) (about : String)
  | fixed (token : FixedToken)
  /-- Stands where the tokenizer reported a problem. -/
  | error
  /-- The end of the text. -/
  | eof
deriving DecidableEq, Repr

namespace TokenKind

/-- What the token is called in messages. -/
def describe : TokenKind → String
  | indent => "indent"
  | unindent => "unindent"
  | int _ | real _ => "number"
  | bitString _ => "bit string"
  | name _ => "identifier"
  | call _ => "call"
  | prose word _ => word.text
  | fixed token => token.text
  | error => "invalid token"
  | eof => "end of input"

/-- The token as text, where it carries some, and what it is called otherwise. -/
def text : TokenKind → String
  | int n => toString n.toInt
  | real numeral => numeral
  | bitString digits => "'" ++ digits ++ "'"
  | name id => id
  | call id => id ++ "("
  | prose .see about => "SEE " ++ about
  | kind => kind.describe

/-- What a message says was found: the identifier or number itself, or what the token is called. -/
def found : TokenKind → String
  | name id | call id => "'" ++ id ++ "'"
  | int n => toString n.toInt
  | kind => kind.describe

/-- Whether the token can only stand at the start of a statement. -/
def startsStatement : TokenKind → Bool
  | prose _ _ => true
  | fixed token => token.startsStatement
  | _ => false

/-- Whether two tokens are of one kind, whatever they carry. -/
def sameKind : TokenKind → TokenKind → Bool
  | indent, indent | unindent, unindent | int _, int _ | real _, real _ | bitString _, bitString _
  | name _, name _ | call _, call _ | error, error | eof, eof => true
  | prose v _, prose w _ => v == w
  | fixed s, fixed t => s == t
  | _, _ => false

end TokenKind

structure Token where
  kind : TokenKind
  span : Span
deriving DecidableEq, Repr

end ArmPseudocode

import ArmPseudocode.Source.Span
import ArmPseudocode.Text.Quoted

/-!
# Diagnostics

A diagnostic is one reported problem of a source text: a code, a severity, a message, where it is,
and notes. The constructors below are the problems that the tokenizer and the parser report.
-/

namespace ArmPseudocode

/-- What kind of problem a diagnostic reports. -/
inductive DiagnosticCode where
  /-- No token begins here. -/
  | noToken
  /-- A numeral that does not fit a 64-bit integer. -/
  | numeralTooLarge
  /-- A block comment without an end. -/
  | unterminatedComment
  /-- A token the grammar does not allow here. -/
  | unexpectedToken
  /-- An expression was required. -/
  | expectedExpression
  /-- An opening delimiter without its closing one. -/
  | unclosedDelimiter
  /-- An identifier was required. -/
  | expectedName
  /-- A type was required. -/
  | expectedType
  /-- The error limit was reached and the rest of the text given up. -/
  | tooManyErrors
deriving DecidableEq, Repr

namespace DiagnosticCode

/-- The code as it is printed: `E0` for the tokenizer, `E1` for the parser, `E9` for limits. -/
def text : DiagnosticCode → String
  | noToken => "E0001"
  | numeralTooLarge => "E0002"
  | unterminatedComment => "E0003"
  | unexpectedToken => "E1001"
  | expectedExpression => "E1002"
  | unclosedDelimiter => "E1003"
  | expectedName => "E1004"
  | expectedType => "E1005"
  | tooManyErrors => "E9002"

/-- Every code, by its text. -/
def all : List DiagnosticCode :=
  [noToken, numeralTooLarge, unterminatedComment, unexpectedToken, expectedExpression,
    unclosedDelimiter, expectedName, expectedType, tooManyErrors]

def isLexical : DiagnosticCode → Bool
  | noToken | numeralTooLarge | unterminatedComment => true
  | _ => false

def isSyntactic : DiagnosticCode → Bool
  | unexpectedToken | expectedExpression | unclosedDelimiter | expectedName | expectedType => true
  | _ => false

end DiagnosticCode

inductive Severity where
  | error
  | warning
  | note
deriving DecidableEq, Repr

def Severity.text : Severity → String
  | error => "error"
  | warning => "warning"
  | note => "note"

/-- One reported problem. -/
structure Diagnostic where
  code : DiagnosticCode
  severity : Severity
  message : String
  /-- Where the problem is, if anywhere in particular. -/
  span : Option Span
  notes : List String
deriving DecidableEq, Repr

namespace Diagnostic

def isError (d : Diagnostic) : Bool :=
  d.severity == .error

def text (d : Diagnostic) : String :=
  d.severity.text ++ " [" ++ d.code.text ++ "]: " ++ d.message

def errorAt (code : DiagnosticCode) (span : Span) (message : String) : Diagnostic :=
  { code, severity := .error, message, span := some span, notes := [] }

/-- No token begins at `span`; the message quotes the first ten characters from there on. -/
def noToken (span : Span) (rest : List Char) : Diagnostic :=
  errorAt .noToken span ("lexer stuck at " ++ String.ofList (Text.quoted (rest.take 10)))

/-- The digits at `span` denote a number of more than 64 bits. -/
def numeralTooLarge (span : Span) (digits : String) : Diagnostic :=
  errorAt .numeralTooLarge span ("numeral " ++ digits ++ " does not fit a 64-bit integer")

/-- The block comment that begins at `span` runs to the end of the text. -/
def unterminatedComment (span : Span) : Diagnostic :=
  { errorAt .unterminatedComment span "unterminated block comment" with
    notes := ["block comments close with `*/`"] }

def unexpectedToken (span : Span) (expected found : String) : Diagnostic :=
  errorAt .unexpectedToken span ("syntax error: expected " ++ expected ++ ", found " ++ found)

def expectedExpression (span : Span) (found : String) : Diagnostic :=
  errorAt .expectedExpression span ("syntax error: expected expression, found " ++ found)

def expectedName (span : Span) (found : String) : Diagnostic :=
  errorAt .expectedName span ("syntax error: expected identifier, found " ++ found)

def expectedType (span : Span) (found : String) : Diagnostic :=
  errorAt .expectedType span ("syntax error: expected type, found " ++ found)

/-- The character that closes an opening delimiter; any other character closes itself. -/
def closingDelimiter (delimiter : Char) : Char :=
  if delimiter = '(' then ')'
  else if delimiter = '[' then ']'
  else if delimiter = '\x7b' then '\x7d'
  else if delimiter = '<' then '>'
  else if delimiter = '\u00bb' then '\u00ab'
  else delimiter

/-- The delimiter opened at `opened` should have been closed at `found`. -/
def unclosedDelimiter (opened found : Span) (delimiter : Char) : Diagnostic :=
  let quote (c : Char) : String := String.ofList ['\'', c, '\'']
  { errorAt .unclosedDelimiter found ("syntax error: unclosed " ++ quote delimiter ++
      ", expected " ++ quote (closingDelimiter delimiter)) with
    notes := [quote delimiter ++ " opened at " ++ opened.text] }

/-- The error limit was reached at `span`. -/
def tooManyErrors (span : Span) : Diagnostic :=
  errorAt .tooManyErrors span "too many errors"

end Diagnostic

end ArmPseudocode

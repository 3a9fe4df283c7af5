import ArmPseudocode.Token.Kind
import ArmPseudocode.Source.Markup
import ArmPseudocode.Text.Numeral

/-!
# The token table

A table of patterns says what a text is made of: fixed spellings, blanks, comments, prose,
numerals, bit strings and identifiers. At each position the pattern with the longest match wins, and
of equally long matches the one that comes first in the table. Fixed spellings stand first, so a
reserved word is never an identifier, and blanks take part, so `" <"` wins over one space.

A bare `IMPLEMENTATION_DEFINED` has one exception: with exactly one space between it and a semicolon
or the end of the text, where prose would begin and does not, it is read as an identifier.
-/

namespace ArmPseudocode

inductive Pattern where
  | fixed (spelling : List Char) (kind : TokenKind)
  /-- A run of spaces, tabs, carriage returns and line feeds. -/
  | blanks
  /-- From `//` to the end of the line. -/
  | lineComment
  /-- The two characters that open a block comment. -/
  | commentOpening
  | prose (word : ProseWord)
  | decimal
  | hexadecimal
  /-- Digits, a point and digits. -/
  | real
  | bitString
  | name
  /-- An identifier with the parenthesis behind it. -/
  | call
deriving DecidableEq

namespace Pattern

def isSeparator (c : Char) : Bool :=
  c = ' ' || c = '\t' || c = '\r' || c = '\n'

def isNameStart (c : Char) : Bool :=
  ('A' ≤ c && c ≤ 'Z') || ('a' ≤ c && c ≤ 'z') || c = '_'

def isNameChar (c : Char) : Bool :=
  isNameStart c || Text.isDigit c

/-- A quote a bit string can begin with: either curly one or the straight one. -/
def isOpeningQuote (c : Char) : Bool :=
  c = '\u2018' || c = '\u2019' || c = '\''

/-- A quote a bit string can end with: the right curly one or the straight one. -/
def isClosingQuote (c : Char) : Bool :=
  c = '\u2019' || c = '\''

/-- A character that can stand between the quotes of a bit string. -/
def isBitChar (c : Char) : Bool :=
  c = ' ' || c = '0' || c = '1' || c = 'x'

/-- The text behind a phrase it begins with. -/
def behind? : List Char → List Char → Option (List Char)
  | [], s => some s
  | p :: ps, c :: cs => if p = c then behind? ps cs else none
  | _ :: _, [] => none

/-- How many characters at the start are of a class. -/
def run (p : Char → Bool) (s : List Char) : Nat :=
  (s.takeWhile p).length

/-- How many characters prose takes: a space and at least one more, up to a semicolon. -/
def proseRun? : List Char → Option Nat
  | ' ' :: cs =>
    match run (· ≠ ';') cs with
    | 0 => none
    | n => some (n + 1)
  | _ => none

/-- How much text belongs to a prose word behind it. `SEE` needs prose; the other two words stand
alone as well, unless a space stands where their prose would begin. -/
def proseLength? (word : ProseWord) (rest : List Char) : Option Nat :=
  match proseRun? rest with
  | some n => some n
  | none => if word = .see || rest.head? = some ' ' then none else some 0

def digitRun? (p : Char → Bool) (s : List Char) : Option Nat :=
  match run p s with
  | 0 => none
  | n => some n

/-- The length of an identifier, if the text begins with one. -/
def nameRun? : List Char → Option Nat
  | c :: cs => if isNameStart c then some (run isNameChar cs + 1) else none
  | [] => none

/-- The length of the pattern's match at the start of a text, if it has one. Where a pattern has
several this is the longest. -/
def longest? : Pattern → List Char → Option Nat
  | fixed spelling _, s => if spelling.isPrefixOf s then some spelling.length else none
  | blanks, s => digitRun? isSeparator s
  | lineComment, '/' :: '/' :: s => some (run (· ≠ '\n') s + 2)
  | commentOpening, '/' :: '*' :: _ => some 2
  | prose word, s =>
    let word' := word.text.toList
    (behind? word' s).bind fun rest => (proseLength? word rest).map (word'.length + ·)
  | decimal, s => digitRun? Text.isDigit s
  | hexadecimal, '0' :: 'x' :: s => (digitRun? Text.isHexDigit s).map (· + 2)
  | real, s =>
    (digitRun? Text.isDigit s).bind fun n =>
      match s.drop n with
      | '.' :: rest => (digitRun? Text.isDigit rest).map (n + 1 + ·)
      | _ => none
  | bitString, c :: s =>
    if isOpeningQuote c then
      (digitRun? isBitChar s).bind fun n =>
        if (s.drop n).head?.any isClosingQuote then some (n + 2) else none
    else none
  | name, s => nameRun? s
  | call, s =>
    (nameRun? s).bind fun n => if (s.drop n).head? = some '(' then some (n + 1) else none
  | _, _ => none

def fixedRows : List Pattern :=
  fixed [Source.indentMarker] .indent :: fixed [Source.unindentMarker] .unindent ::
    FixedToken.all.flatMap fun token =>
      token.spellings.map fun spelling => fixed spelling.toList (.fixed token)

/-- The token table. Of equally long matches the earlier row is taken. -/
def table : List Pattern :=
  fixedRows ++
    [blanks, lineComment, commentOpening, prose .see, prose .implementationDefined,
      prose .subarchitectureDefined, decimal, hexadecimal, real, bitString, name, call]

/-- The first of the longest matches that rows have at the start of a text. -/
def best? (s : List Char) : List Pattern → Option (Pattern × Nat)
  | [] => none
  | row :: rows =>
    match row.longest? s, best? s rows with
    | some n, some (other, m) => if m ≤ n then some (row, n) else some (other, m)
    | some n, none => some (row, n)
    | none, other => other

end Pattern

end ArmPseudocode

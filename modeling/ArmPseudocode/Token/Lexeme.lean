import ArmPseudocode.Diagnostic.Basic
import ArmPseudocode.Token.Pattern

/-!
# Lexemes

A lexeme is the piece of text that the tokenizer takes in one step: a token, something it skips, or
something it cannot read. The lexemes of a text follow each other without a gap from its first
character to its last.
-/

namespace ArmPseudocode

/-- Why a piece of text is not a token. -/
inductive LexicalFault where
  /-- No row of the token table matches. Carries the text from there on. -/
  | noToken (rest : List Char)
  /-- A numeral of more than 64 bits. -/
  | numeralTooLarge (numeral : List Char)
  | unterminatedComment
deriving DecidableEq

def LexicalFault.toDiagnostic (span : Span) : LexicalFault → Diagnostic
  | noToken rest => .noToken span rest
  | numeralTooLarge numeral => .numeralTooLarge span (String.ofList numeral)
  | unterminatedComment => .unterminatedComment span

/-- What a piece of text is to the tokenizer. -/
inductive Reading where
  | skipped
  | token (kind : TokenKind)
  | fault (fault : LexicalFault)
deriving DecidableEq

/-- The reading of the text at one position and how many characters it takes. -/
structure Scan where
  reading : Reading
  length : Nat
deriving DecidableEq

structure Lexeme where
  reading : Reading
  span : Span
deriving DecidableEq

namespace Lexeme

/-- A numeral as a token, or as a fault if its value does not fit. -/
def readNumeral (base : Nat) (digits numeral : List Char) : Reading :=
  let n := Text.digitsValue base digits
  -- A numeral has no sign, so the least integer cannot be written.
  if n < 1 <<< 63 then .token (.int (Int64.ofNat n)) else .fault (.numeralTooLarge numeral)

/-- The number of characters of a block comment behind its opening, up to and with `*/`. -/
def commentLength? : List Char → Option Nat
  | [] => none
  | '*' :: '/' :: _ => some 2
  | _ :: cs => (commentLength? cs).map (· + 1)

/-- The reading of what a row of the token table matched. -/
def readMatch (row : Pattern) (lexeme : List Char) : Reading :=
  match row with
  | .fixed _ kind => .token kind
  | .blanks | .lineComment | .commentOpening => .skipped
  | .prose word =>
    .token (.prose word (String.ofList (Text.trim (lexeme.drop word.text.length))))
  | .decimal => readNumeral 10 lexeme lexeme
  | .hexadecimal => readNumeral 16 (lexeme.drop 2) lexeme
  | .real => .token (.real (String.ofList lexeme))
  | .bitString =>
    .token (.bitString (String.ofList (lexeme.filter fun c => c = '0' || c = '1' || c = 'x')))
  | .name => .token (.name (String.ofList lexeme))
  | .call => .token (.call (String.ofList lexeme.dropLast))

/-- How many characters an unreadable text is passed over at once: one, and behind a quote also
what could have been the inside of a bit string. -/
def faultLength : List Char → Nat
  | [] => 0
  | c :: cs => if Pattern.isOpeningQuote c then Pattern.run Pattern.isBitChar cs + 1 else 1

/-- Reads the start of a text by the token table. A block comment reaches to its end, and without
one to the end of the text. -/
def scan (s : List Char) : Scan :=
  match Pattern.best? s Pattern.table with
  | none => ⟨.fault (.noToken s), faultLength s⟩
  | some (.commentOpening, n) =>
    match commentLength? (s.drop n) with
    | some m => ⟨.skipped, n + m⟩
    | none => ⟨.fault .unterminatedComment, s.length⟩
  | some (row, n) => ⟨readMatch row (s.take n), n⟩

def byteLength : List Char → Nat
  | [] => 0
  | c :: cs => c.utf8Size + byteLength cs

/-- The lexemes from a byte offset on, when the first `passing` characters belong to a lexeme that
has been read already. -/
def readFrom (offset : Nat) : Nat → List Char → List Lexeme
  | _, [] => []
  | passing + 1, c :: cs => readFrom (offset + c.utf8Size) passing cs
  | 0, c :: cs =>
    let found := scan (c :: cs)
    let stop := offset + byteLength ((c :: cs).take found.length)
    ⟨found.reading, .ofRange offset stop⟩ ::
      readFrom (offset + c.utf8Size) (found.length - 1) cs

def ofText (s : List Char) : List Lexeme :=
  readFrom 0 0 s

end Lexeme

end ArmPseudocode

import ArmPseudocode.Diagnostic.Listing
import ArmPseudocode.Parser.Stmt

/-!
# Parsed sources

A named source text read as a program, together with everything that was reported about it. The text
is marked up, tokenized and parsed; if the tokenizer alone exhausts the error limit, there is no
program.
-/

namespace ArmPseudocode

structure ParsedSource where
  name : String
  program : Program Span
  /-- What was reported, by line. -/
  diagnostics : List LocatedDiagnostic

/-- Why a source text is not accepted: the rendered diagnostics. -/
structure ParseFailure where
  source : String
  messages : List String
deriving DecidableEq, Repr

/-- The failure in full. Its first line counts the messages. -/
def ParseFailure.text (f : ParseFailure) : String :=
  f.source ++ ": " ++ toString f.messages.length ++ " syntax error(s)\n" ++
    String.intercalate "\n" f.messages

namespace ParsedSource

/-- Reads a text under limits on what is reported. -/
def ofText (config : DiagnosticConfig) (name : String) (text : List Char) : ParsedSource :=
  let marked := Source.markup text
  let lines := LineTable.ofText marked
  let (stream, queue) := TokenStream.ofText lines (.empty config) marked
  let (program, queue) :=
    if queue.limitReached then (Program.empty, queue) else stream.parse lines queue
  { name, program, diagnostics := queue.flush.1 }

def hasErrors (p : ParsedSource) : Bool :=
  p.diagnostics.any (·.diagnostic.isError)

/-- The diagnostics, a line for each. -/
def rendered (p : ParsedSource) : List String :=
  p.diagnostics.map (·.render p.name)

def listing (p : ParsedSource) : String :=
  Diagnostic.listAll p.name p.diagnostics

/-- The program, if no error was reported. -/
def accepted (p : ParsedSource) : Except ParseFailure (Program Span) :=
  if p.hasErrors then .error ⟨p.name, p.rendered⟩ else .ok p.program

end ParsedSource

end ArmPseudocode

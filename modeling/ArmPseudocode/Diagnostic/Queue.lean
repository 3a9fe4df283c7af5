import ArmPseudocode.Diagnostic.Basic
import ArmPseudocode.Source.LineTable

/-!
# The diagnostic queue

The tokenizer and the parser of one text report to one queue. It keeps only the first of the syntax
errors that follow each other on a line, since the later ones are mostly echoes of it, and it closes
when the error limit is reached: then one last diagnostic marks the limit and nothing more is taken.
-/

namespace ArmPseudocode

/-- Limits on what is reported. -/
structure DiagnosticConfig where
  /-- The number of errors at which the text is given up; zero for no limit. -/
  errorLimit : Nat := 20
  /-- Keep only the first of consecutive syntax errors on one line. -/
  deduplicate : Bool := true
deriving DecidableEq, Repr

structure LocatedDiagnostic where
  diagnostic : Diagnostic
  line : Nat
deriving DecidableEq, Repr

/-- The diagnostics of one text so far. -/
structure DiagnosticQueue where
  config : DiagnosticConfig
  /-- In the order in which they were reported, the limit marker last. -/
  entries : List LocatedDiagnostic
  /-- The number of errors among the entries, the limit marker not counted. -/
  errorCount : Nat
  /-- The line of the last syntax error that was taken. -/
  lastSyntaxLine : Option Nat
  /-- The error limit has been reached. -/
  limitReached : Bool
deriving DecidableEq, Repr

namespace DiagnosticQueue

def empty (config : DiagnosticConfig) : DiagnosticQueue :=
  { config, entries := [], errorCount := 0, lastSyntaxLine := none, limitReached := false }

/-- Whether a diagnostic echoes the last syntax error on its line. -/
def isEcho (q : DiagnosticQueue) (d : Diagnostic) (line : Nat) : Bool :=
  q.config.deduplicate && d.code.isSyntactic && q.lastSyntaxLine == some line

/-- Appends an entry and remembers the line of a syntax error. -/
def append (q : DiagnosticQueue) (d : Diagnostic) (line : Nat) : DiagnosticQueue :=
  { q with
    entries := q.entries ++ [⟨d, line⟩]
    lastSyntaxLine := if d.code.isSyntactic then some line else q.lastSyntaxLine }

/-- Counts an error and closes the queue if it is the last one allowed. -/
def countError (q : DiagnosticQueue) (span : Span) (line : Nat) : DiagnosticQueue :=
  let errorCount := q.errorCount + 1
  if 0 < q.config.errorLimit ∧ q.config.errorLimit ≤ errorCount then
    { q with
      errorCount
      entries := q.entries ++ [⟨.tooManyErrors span, line⟩]
      limitReached := true }
  else
    { q with errorCount }

/-- Reports a diagnostic on a line. The Boolean says whether it was taken. -/
def add (q : DiagnosticQueue) (d : Diagnostic) (line : Nat) : Bool × DiagnosticQueue :=
  if q.limitReached || q.isEcho d line then (false, q)
  else
    let q := q.append d line
    (true, if d.isError then q.countError (d.span.getD .none) line else q)

/-- The line a diagnostic belongs to; one without a span belongs to the first. -/
def lineOf (lines : LineTable) (d : Diagnostic) : Nat :=
  match d.span with
  | some span => lines.lineAt span.start
  | none => 1

def addAt (q : DiagnosticQueue) (lines : LineTable) (d : Diagnostic) : Bool × DiagnosticQueue :=
  q.add d (lineOf lines d)

/-- Reports a diagnostic whether or not the queue takes it. -/
def report (q : DiagnosticQueue) (lines : LineTable) (d : Diagnostic) : DiagnosticQueue :=
  (q.addAt lines d).2

def hasErrors (q : DiagnosticQueue) : Bool :=
  0 < q.errorCount

/-- The number of entries of any severity, the limit marker included. -/
def size (q : DiagnosticQueue) : Nat :=
  q.entries.length

/-- The entries by line, those of one line in their order. -/
def sortByLine (entries : List LocatedDiagnostic) : List LocatedDiagnostic :=
  entries.mergeSort fun a b => a.line ≤ b.line

/-- Hands out the entries by line, those of one line in the order of their report and the limit
marker last, and leaves an empty queue. -/
def flush (q : DiagnosticQueue) : List LocatedDiagnostic × DiagnosticQueue :=
  let sorted :=
    -- The limit marker is the last entry, and later lines may not pass it.
    if q.limitReached then sortByLine q.entries.dropLast ++ q.entries.getLast?.toList
    else sortByLine q.entries
  (sorted, empty q.config)

end DiagnosticQueue

end ArmPseudocode

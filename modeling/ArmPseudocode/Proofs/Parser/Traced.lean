import ArmPseudocode.Parser.Stmt

/-!
# Parsing under trace

Whether a statement was given up is not to be read off the queue, which may drop what is reported to
it. Here the parser of statements is written so that it keeps a trace of every statement that it
gives up, in whatever list the statement stands: at the top, in a block or in an arm of a case.
Apart from the trace each function does what the one it traces does.
-/

namespace ArmPseudocode

/-- A statement that was given up: where its first token stood, and the failure. -/
structure GivenUp where
  start : Span
  failure : Diagnostic
deriving DecidableEq, Repr

/-- The state of a parser and what it has given up so far, in order. -/
structure Trace where
  state : ParserState
  givenUp : List GivenUp

abbrev Traced (β : Type) := EStateM Diagnostic Trace β

namespace Traced

/-- A step that gives up no statement. -/
def untraced {β : Type} (step : ParseStmt β) : Traced β := fun t =>
  match step t.state with
  | .ok b state => .ok b { t with state }
  | .error d state => .error d { t with state }

instance : MonadLift (EStateM Diagnostic ParserState) (EStateM Diagnostic Trace) where
  monadLift := untraced

open Parse (kind span advance isAt eat expect expectKind expectName unexpected)
open ParseStmt (endsBlock endsArm recover spanFrom)

def list (lines : LineTable) (stmt : Traced (Stmt Span)) (ends : TokenKind → Bool) :
    Nat → Trace → List (Stmt Span) × Trace
  | 0, t => ([], t)
  | bound + 1, t =>
    if t.state.cursor.atEnd || ends t.state.cursor.kind || t.state.queue.limitReached then ([], t)
    else
      match stmt t with
      | .ok s next =>
        let (rest, final) := list lines stmt ends bound next
        (s :: rest, final)
      | .error d failed =>
        list lines stmt ends bound
          { state :=
              { cursor := recover t.state.cursor.position failed.state.cursor
                queue := failed.state.queue.report lines d }
            givenUp := failed.givenUp ++ [⟨t.state.cursor.here.span, d⟩] }

def statements (lines : LineTable) (stmt : Traced (Stmt Span)) (ends : TokenKind → Bool)
    (bound : Nat) : Traced (List (Stmt Span)) := fun t =>
  let (body, next) := list lines stmt ends bound t
  .ok body next

variable (lines : LineTable) (stmt : Traced (Stmt Span))

def indentedBlock (bound : Nat) : Traced (Stmt Span) := do
  let opened ← expectKind .indent
  let body ← statements lines stmt endsBlock bound
  if (← kind) = .unindent then
    let _ ← advance
  else if !(← get).state.queue.limitReached then
    throw (.unclosedDelimiter opened (← span) Source.indentMarker)
  return .block (← spanFrom opened) body

def body (bound : Nat) : Traced (Stmt Span) := do
  if (← kind) = .indent then indentedBlock lines stmt bound else stmt

def armBody (bound : Nat) : Traced (Stmt Span) := do
  if (← kind) = .indent then
    indentedBlock lines stmt bound
  else
    let start ← span
    let body ← statements lines stmt endsArm bound
    return .block (← spanFrom start) body

def elsifs (size : Nat) : Nat → Traced (List (Expr Span × Stmt Span))
  | 0 => return []
  | bound + 1 => do
    if ← eat .kwElsif then
      let test ← Parse.expr size
      let _ ← expect .kwThen
      let first ← body lines stmt size
      let rest ← elsifs size bound
      return (test, first) :: rest
    else
      return []

def branch (bound : Nat) : Traced (Span → Stmt Span) := do
  let _ ← advance
  let test ← Parse.expr bound
  let _ ← expect .kwThen
  let first ← body lines stmt bound
  let others ← elsifs lines stmt bound bound
  if ← eat .kwElse then
    let last ← body lines stmt bound
    return (.branch · test first others (some last))
  else
    return (.branch · test first others none)

def repeatUntil (bound : Nat) : Traced (Span → Stmt Span) := do
  let _ ← advance
  let inner ← body lines stmt bound
  let _ ← expect .kwUntil
  let test ← Parse.expr bound
  let _ ← expect .semicolon
  return (.repeatUntil · inner test)

def whileDo (bound : Nat) : Traced (Span → Stmt Span) := do
  let _ ← advance
  let test ← Parse.expr bound
  let _ ← expect .kwDo
  let inner ← body lines stmt bound
  return (.whileDo · test inner)

def forTo (bound : Nat) : Traced (Span → Stmt Span) := do
  let _ ← advance
  let var ← expectName
  let _ ← expect .assign
  let first ← Parse.expr bound
  let _ ← expect .kwTo
  let last ← Parse.expr bound
  let _ ← expect .kwDo
  let inner ← body lines stmt bound
  return (.forTo · var first last inner)

def arms (opened : Span) (size : Nat) : Nat → Option (Stmt Span) →
    Traced (List (List (Expr Span) × Stmt Span) × Option (Stmt Span))
  | 0, otherwise => return ([], otherwise)
  | bound + 1, otherwise => do
    match ← kind with
    | .fixed .kwWhen =>
      let _ ← advance
      let patterns ← Parse.patterns size
      let first ← armBody lines stmt size
      let (rest, otherwise) ← arms opened size bound otherwise
      return ((patterns, first) :: rest, otherwise)
    | .fixed .kwOtherwise =>
      let _ ← advance
      let last ← armBody lines stmt size
      arms opened size bound (some last)
    | .unindent =>
      let _ ← advance
      return ([], otherwise)
    | .eof => throw (.unclosedDelimiter opened (← span) Source.indentMarker)
    | _ => unexpected "when, otherwise or end of case"

def caseOf (bound : Nat) : Traced (Span → Stmt Span) := do
  let _ ← advance
  let selector ← Parse.expr bound
  let _ ← expect .kwOf
  let opened ← expectKind .indent
  let (arms, otherwise) ← arms lines stmt opened bound bound none
  return (.caseOf · selector arms otherwise)

def form (bound : Nat) : Traced (Span → Stmt Span) := do
  match ← kind with
  | .unindent => unexpected "statement"
  | .fixed .kwUndefined => ParseStmt.terminal (.undefined ·)
  | .fixed .kwUnpredictable => ParseStmt.terminal (.unpredictable ·)
  | .prose word about => ParseStmt.terminal (.prose · word about)
  | .fixed .kwReturn => ParseStmt.giveBack bound
  | .fixed .kwIf => branch lines stmt bound
  | .fixed .kwRepeat => repeatUntil lines stmt bound
  | .fixed .kwWhile => whileDo lines stmt bound
  | .fixed .kwFor => forTo lines stmt bound
  | .fixed .kwCase => caseOf lines stmt bound
  | .fixed .kwAssert => ParseStmt.assertion bound
  | .fixed .kwEnumeration => ParseStmt.enumeration bound
  | _ => ParseStmt.simple bound

def stmtAt (lines : LineTable) : Nat → Traced (Stmt Span)
  | 0 => do unexpected "statement"
  | bound + 1 => do
    if (← kind) = .indent then
      indentedBlock lines (stmtAt lines bound) bound
    else
      let start ← span
      let form ← form lines (stmtAt lines bound) (bound + 1)
      return form (← spanFrom start)

end Traced

/-- Reads a stream as a program, reporting to a queue, and traces the statements given up. -/
def TokenStream.parseTraced (lines : LineTable) (queue : DiagnosticQueue) (s : TokenStream) :
    (Program Span × DiagnosticQueue) × List GivenUp :=
  let bound := s.tokens.length + 1
  let (body, t) := Traced.list lines (Traced.stmtAt lines bound) (fun _ => false) bound
    ⟨⟨.atStart s, queue⟩, []⟩
  ((⟨body⟩, t.state.queue), t.givenUp)

end ArmPseudocode

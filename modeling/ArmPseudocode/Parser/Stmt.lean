import ArmPseudocode.Parser.Expr
import ArmPseudocode.Syntax.Stmt

/-!
# Parsing statements

A body is a single statement or a block between block markers. A case arm may also be a plain run of
statements, which ends before the next arm or the marker that closes the case.

A statement that cannot be read is reported and dropped, and reading goes on at the next place where
a statement can begin. Reading ends early only when the queue has reached its error limit.
-/

namespace ArmPseudocode

/-- Where the parser of a text stands and what it has reported. -/
structure ParserState where
  cursor : Cursor
  queue : DiagnosticQueue

/-- A step that also reports diagnostics. -/
abbrev ParseStmt (α : Type) := EStateM Diagnostic ParserState α

namespace ParseStmt

/-- A step on the cursor alone. -/
def onCursor {α : Type} (step : Parse α) : ParseStmt α := fun state =>
  match step state.cursor with
  | .ok a cursor => .ok a { state with cursor }
  | .error d cursor => .error d { state with cursor }

instance : MonadLift (EStateM Diagnostic Cursor) (EStateM Diagnostic ParserState) where
  monadLift := onCursor

open Parse (kind span advance isAt eat expect expectKind expectName close unexpected)

/-- Moves to the next place where a statement can begin: behind the next semicolon, or to a block
marker or a word that starts a statement. -/
def skipTokens (before : List Token) (here : Token) : List Token → Cursor
  | [] => ⟨before, here, []⟩
  | next :: after =>
    match here.kind with
    | .eof | .indent | .unindent => ⟨before, here, next :: after⟩
    | .fixed .semicolon => ⟨here :: before, next, after⟩
    | kind =>
      if kind.startsStatement then ⟨before, here, next :: after⟩
      else skipTokens (here :: before) next after

/-- Recovers from a failed statement that began at position `start`. If it consumed nothing, the
token here goes first; a semicolon or a block marker is then enough. -/
def recover (start : Nat) (c : Cursor) : Cursor :=
  if c.position = start && !c.atEnd then
    let moved := c.advance
    match c.kind with
    | .fixed .semicolon | .indent | .unindent => moved
    | _ => skipTokens moved.before moved.here moved.after
  else
    skipTokens c.before c.here c.after

/-- Statements up to a token that ends the list, the end of the text, or the error limit. Failed
statements are reported and skipped. The bound is at least the number of tokens left. -/
def list (lines : LineTable) (stmt : ParseStmt (Stmt Span)) (ends : TokenKind → Bool) :
    Nat → ParserState → List (Stmt Span) × ParserState
  | 0, state => ([], state)
  | bound + 1, state =>
    if state.cursor.atEnd || ends state.cursor.kind || state.queue.limitReached then ([], state)
    else
      match stmt state with
      | .ok s next =>
        let (rest, final) := list lines stmt ends bound next
        (s :: rest, final)
      | .error d failed =>
        list lines stmt ends bound
          { cursor := recover state.cursor.position failed.cursor
            queue := failed.queue.report lines d }

/-- A list of statements as a step that cannot fail. -/
def statements (lines : LineTable) (stmt : ParseStmt (Stmt Span)) (ends : TokenKind → Bool)
    (bound : Nat) : ParseStmt (List (Stmt Span)) := fun state =>
  let (body, next) := list lines stmt ends bound state
  .ok body next

def endsBlock (kind : TokenKind) : Bool :=
  kind = .unindent

def endsArm (kind : TokenKind) : Bool :=
  kind = .fixed .kwWhen || kind = .fixed .kwOtherwise || kind = .unindent

def spanFrom (start : Span) : ParseStmt Span :=
  Parse.spanFrom start

/-- A block between its markers. A missing end is forgiven where the error limit cut the block
short. -/
def indentedBlock (lines : LineTable) (stmt : ParseStmt (Stmt Span)) (bound : Nat) :
    ParseStmt (Stmt Span) := do
  let opened ← expectKind .indent
  let body ← statements lines stmt endsBlock bound
  if (← kind) = .unindent then
    let _ ← advance
  else if !(← get).queue.limitReached then
    throw (.unclosedDelimiter opened (← span) Source.indentMarker)
  return .block (← spanFrom opened) body

def body (lines : LineTable) (stmt : ParseStmt (Stmt Span)) (bound : Nat) :
    ParseStmt (Stmt Span) := do
  if (← kind) = .indent then indentedBlock lines stmt bound else stmt

/-- The body of a case arm: a block, or the statements up to the next arm. -/
def armBody (lines : LineTable) (stmt : ParseStmt (Stmt Span)) (bound : Nat) :
    ParseStmt (Stmt Span) := do
  if (← kind) = .indent then
    indentedBlock lines stmt bound
  else
    let start ← span
    let body ← statements lines stmt endsArm bound
    return .block (← spanFrom start) body

def terminal (form : Span → Stmt Span) : ParseStmt (Span → Stmt Span) := do
  let _ ← advance
  let _ ← expect .semicolon
  return form

def simple (bound : Nat) : ParseStmt (Span → Stmt Span) := do
  let target ← Parse.expr bound
  if ← eat .assign then
    let value ← Parse.expr bound
    let _ ← expect .semicolon
    return (.assign · target value)
  else
    let _ ← expect .semicolon
    return if target.isDeclaration then (.declaration · target) else (.expr · target)

/-- `return` with or without values. -/
def giveBack (bound : Nat) : ParseStmt (Span → Stmt Span) := do
  let _ ← advance
  let values ←
    if ← isAt .semicolon then pure [] else Parse.commaSeparated (Parse.expr bound) bound
  let _ ← expect .semicolon
  return (.giveBack · values)

def elsifs (lines : LineTable) (stmt : ParseStmt (Stmt Span)) (size : Nat) :
    Nat → ParseStmt (List (Expr Span × Stmt Span))
  | 0 => return []
  | bound + 1 => do
    if ← eat .kwElsif then
      let test ← Parse.expr size
      let _ ← expect .kwThen
      let first ← body lines stmt size
      let rest ← elsifs lines stmt size bound
      return (test, first) :: rest
    else
      return []

def branch (lines : LineTable) (stmt : ParseStmt (Stmt Span)) (bound : Nat) :
    ParseStmt (Span → Stmt Span) := do
  let _ ← advance
  let test ← Parse.expr bound
  let _ ← expect .kwThen
  let first ← body lines stmt bound
  let others ← elsifs lines stmt bound bound
  if ← eat .kwElse then
    let last ← body lines stmt bound
    return (.branch · test first others (some last))
  else
    return (.branch · test first others none)

def repeatUntil (lines : LineTable) (stmt : ParseStmt (Stmt Span)) (bound : Nat) :
    ParseStmt (Span → Stmt Span) := do
  let _ ← advance
  let inner ← body lines stmt bound
  let _ ← expect .kwUntil
  let test ← Parse.expr bound
  let _ ← expect .semicolon
  return (.repeatUntil · inner test)

def whileDo (lines : LineTable) (stmt : ParseStmt (Stmt Span)) (bound : Nat) :
    ParseStmt (Span → Stmt Span) := do
  let _ ← advance
  let test ← Parse.expr bound
  let _ ← expect .kwDo
  let inner ← body lines stmt bound
  return (.whileDo · test inner)

def forTo (lines : LineTable) (stmt : ParseStmt (Stmt Span)) (bound : Nat) :
    ParseStmt (Span → Stmt Span) := do
  let _ ← advance
  let var ← expectName
  let _ ← expect .assign
  let first ← Parse.expr bound
  let _ ← expect .kwTo
  let last ← Parse.expr bound
  let _ ← expect .kwDo
  let inner ← body lines stmt bound
  return (.forTo · var first last inner)

/-- The arms of a case up to the marker that closes it, and the last of the bodies behind
`otherwise`, if there is one. -/
def arms (lines : LineTable) (stmt : ParseStmt (Stmt Span)) (opened : Span) (size : Nat) :
    Nat → Option (Stmt Span) →
      ParseStmt (List (List (Expr Span) × Stmt Span) × Option (Stmt Span))
  | 0, otherwise => return ([], otherwise)
  | bound + 1, otherwise => do
    match ← kind with
    | .fixed .kwWhen =>
      let _ ← advance
      let patterns ← Parse.patterns size
      let first ← armBody lines stmt size
      let (rest, otherwise) ← arms lines stmt opened size bound otherwise
      return ((patterns, first) :: rest, otherwise)
    | .fixed .kwOtherwise =>
      let _ ← advance
      let last ← armBody lines stmt size
      arms lines stmt opened size bound (some last)
    | .unindent =>
      let _ ← advance
      return ([], otherwise)
    | .eof => throw (.unclosedDelimiter opened (← span) Source.indentMarker)
    | _ => unexpected "when, otherwise or end of case"

def caseOf (lines : LineTable) (stmt : ParseStmt (Stmt Span)) (bound : Nat) :
    ParseStmt (Span → Stmt Span) := do
  let _ ← advance
  let selector ← Parse.expr bound
  let _ ← expect .kwOf
  let opened ← expectKind .indent
  let (arms, otherwise) ← arms lines stmt opened bound bound none
  return (.caseOf · selector arms otherwise)

/-- `enumeration` with its values. The semicolon behind it may be missing. -/
def enumeration (bound : Nat) : ParseStmt (Span → Stmt Span) := do
  let _ ← advance
  let id ← expectName
  let opened ← expect .openBrace
  let values ←
    if ← isAt .closeBrace then pure [] else Parse.commaSeparated expectName bound
  close opened '\x7b' .closeBrace
  let _ ← eat .semicolon
  return (.enumeration · id values)

def assertion (bound : Nat) : ParseStmt (Span → Stmt Span) := do
  let _ ← advance
  let e ← Parse.expr bound
  let _ ← expect .semicolon
  return (.assertion · e)

/-- The form of statement that the token here begins, a block apart. -/
def form (lines : LineTable) (stmt : ParseStmt (Stmt Span)) (bound : Nat) :
    ParseStmt (Span → Stmt Span) := do
  match ← kind with
  | .unindent => unexpected "statement"
  | .fixed .kwUndefined => terminal (.undefined ·)
  | .fixed .kwUnpredictable => terminal (.unpredictable ·)
  | .prose word about => terminal (.prose · word about)
  | .fixed .kwReturn => giveBack bound
  | .fixed .kwIf => branch lines stmt bound
  | .fixed .kwRepeat => repeatUntil lines stmt bound
  | .fixed .kwWhile => whileDo lines stmt bound
  | .fixed .kwFor => forTo lines stmt bound
  | .fixed .kwCase => caseOf lines stmt bound
  | .fixed .kwAssert => assertion bound
  | .fixed .kwEnumeration => enumeration bound
  | _ => simple bound

/-- A statement, nested less than `bound` deep. -/
def stmtAt (lines : LineTable) (bound : Nat) : ParseStmt (Stmt Span) :=
  match bound with
  | 0 => do unexpected "statement"
  | bound + 1 => do
    if (← kind) = .indent then
      indentedBlock lines (stmtAt lines bound) bound
    else
      let start ← span
      let form ← form lines (stmtAt lines bound) (bound + 1)
      return form (← spanFrom start)
termination_by structural bound

end ParseStmt

namespace TokenStream

/-- Reads a stream as a program, reporting to a queue. No statement is nested deeper than the stream
is long. -/
def parse (lines : LineTable) (queue : DiagnosticQueue) (s : TokenStream) :
    Program Span × DiagnosticQueue :=
  let bound := s.tokens.length + 1
  let (body, state) := ParseStmt.list lines (ParseStmt.stmtAt lines bound) (fun _ => false) bound
    ⟨.atStart s, queue⟩
  (⟨body⟩, state.queue)

end TokenStream

end ArmPseudocode

import ArmPseudocode.Text.Blank
import ArmPseudocode.Text.Split
import ArmPseudocode.Text.Numeral
import ArmPseudocode.Text.Printable
import ArmPseudocode.Text.Quoted
import ArmPseudocode.Source.Span
import ArmPseudocode.Source.LineTable
import ArmPseudocode.Source.Typos
import ArmPseudocode.Source.Markup
import ArmPseudocode.Diagnostic.Basic
import ArmPseudocode.Diagnostic.Queue
import ArmPseudocode.Diagnostic.Listing
import ArmPseudocode.Token.Kind
import ArmPseudocode.Token.Pattern
import ArmPseudocode.Token.Lexeme
import ArmPseudocode.Token.Stream
import ArmPseudocode.Token.Cursor
import ArmPseudocode.Syntax.Operator
import ArmPseudocode.Syntax.Expr
import ArmPseudocode.Syntax.Stmt
import ArmPseudocode.Parser.Basic
import ArmPseudocode.Parser.Expr
import ArmPseudocode.Parser.Stmt
import ArmPseudocode.Parser.Source
import ArmPseudocode.Value.Bits
import ArmPseudocode.Value.Basic
import ArmPseudocode.Eval.Error
import ArmPseudocode.Eval.Operators
import ArmPseudocode.Eval.Builtins
import ArmPseudocode.Eval.Environment
import ArmPseudocode.Eval.Expr
import ArmPseudocode.Eval.Stmt
import ArmPseudocode.Encoding.Field
import ArmPseudocode.Encoding.Template
import ArmPseudocode.Encoding.Check
import ArmPseudocode.Proofs.Eval.Bindings
import ArmPseudocode.Proofs.Eval.CoupledRun
import ArmPseudocode.Proofs.Eval.Settings
import ArmPseudocode.Proofs.Encoding.Placement
import ArmPseudocode.Proofs.Encoding.Slice
import ArmPseudocode.Proofs.Encoding.Match
import ArmPseudocode.Proofs.Encoding.Relevance
import ArmPseudocode.Proofs.Value.Digits
import ArmPseudocode.Proofs.Eval.Names
import ArmPseudocode.Proofs.Eval.Coupling
import ArmPseudocode.Proofs.Parser.Lossless
import ArmPseudocode.Proofs.Parser.Unambiguous
import ArmPseudocode.Proofs.Parser.Programs
import ArmPseudocode.Proofs.Diagnostic.Queue
import ArmPseudocode.Proofs.Parser.Forward
import ArmPseudocode.Proofs.Token.Stream
import ArmPseudocode.Proofs.Parser.Rounds
import ArmPseudocode.Proofs.Parser.Conduct
import ArmPseudocode.Proofs.Parser.Recovery
import ArmPseudocode.Proofs.Source.Acceptance
import ArmPseudocode.Proofs.Eval.Watch
import ArmPseudocode.Proofs.Eval.WellFormed
import ArmPseudocode.Proofs.Eval.WatchedRun
import ArmPseudocode.Proofs.Source.Runs
import ArmPseudocode.Proofs.Parser.Replay
import ArmPseudocode.Proofs.Parser.Spelling
import ArmPseudocode.Proofs.Parser.Clean
import ArmPseudocode.Proofs.Parser.Completeness
import ArmPseudocode.Proofs.Parser.Recognition
import ArmPseudocode.Proofs.Parser.Sequence
import ArmPseudocode.Proofs.Source.Comments
import ArmPseudocode.Proofs.Source.Joined
import ArmPseudocode.Proofs.Source.Sentinels
import ArmPseudocode.Proofs.Token.LongestMatch
import ArmPseudocode.Proofs.Token.Cover
import ArmPseudocode.Proofs.Source.Nesting
import ArmPseudocode.Proofs.Source.LineNumbers
import ArmPseudocode.Proofs.Encoding.Reports
import ArmPseudocode.Proofs.Eval.Writes
import ArmPseudocode.Proofs.Parser.Bounds
import ArmPseudocode.Proofs.Parser.Levels
import ArmPseudocode.Proofs.Source.Progress
import ArmPseudocode.Proofs.Parser.Resume
import ArmPseudocode.Proofs.Source.BrokenStatement
import ArmPseudocode.Proofs.Eval.Sequencing
import ArmPseudocode.Proofs.Eval.Targets
import ArmPseudocode.Proofs.Value.Arithmetic
import ArmPseudocode.Proofs.Eval.Cases
import ArmPseudocode.Proofs.Eval.LoopFree
import ArmPseudocode.Proofs.Eval.Loops
import ArmPseudocode.Proofs.Value.Operations
import ArmPseudocode.Proofs.Value.Wildcards
import ArmPseudocode.Proofs.Value.Equality
import ArmPseudocode.Proofs.Eval.Selections
import ArmPseudocode.Proofs.Value.Numbers
import ArmPseudocode.Proofs.Token.Angles
import ArmPseudocode.Proofs.Eval.Erased
import ArmPseudocode.Proofs.Parser.Parentheses
import ArmPseudocode.Proofs.Value.Literals
import ArmPseudocode.Proofs.Eval.BitStrings
import ArmPseudocode.Proofs.Encoding.Rendering
import ArmPseudocode.Proofs.Diagnostic.Limits
import ArmPseudocode.Proofs.Token.Order
import ArmPseudocode.Proofs.Parser.Extent
import ArmPseudocode.Proofs.Source.Echoes
import ArmPseudocode.Proofs.Parser.ExprExtent
import ArmPseudocode.Proofs.Parser.StmtExtent
import ArmPseudocode.Proofs.Parser.FormExtent
import ArmPseudocode.Proofs.Source.Spans
import ArmPseudocode.Proofs.Eval.Fields
import ArmPseudocode.Proofs.Parser.Traced
import ArmPseudocode.Proofs.Parser.TracedRun
import ArmPseudocode.Proofs.Source.Verdict
import ArmPseudocode.Proofs.Eval.Encounters
import ArmPseudocode.Proofs.Eval.Record
import ArmPseudocode.Proofs.Eval.Recorded
import ArmPseudocode.Proofs.Eval.RecordedRun
import ArmPseudocode.Proofs.Eval.Provenance
import ArmPseudocode.Proofs.Eval.ProvenanceRun

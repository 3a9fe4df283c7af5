import ArmPseudocode.Diagnostic.Queue
import ArmPseudocode.Token.Lexeme

/-!
# Token streams

The tokens of a text in order, ended by one end-of-text token. Every fault of the tokenizer leaves
an error token in the stream and a diagnostic in the queue; the stream breaks off behind the fault
with which the queue reaches its limit.
-/

namespace ArmPseudocode

/-- The tokens of a text and the offset of its end, where the end-of-text token stands. -/
structure TokenStream where
  tokens : List Token
  stop : Nat
deriving DecidableEq, Repr

namespace TokenStream

def endToken (s : TokenStream) : Token :=
  ⟨.eof, .point s.stop⟩

def toList (s : TokenStream) : List Token :=
  s.tokens ++ [s.endToken]

/-- The tokens of a list of lexemes, and the queue with the faults among them reported. -/
def collect (lines : LineTable) (queue : DiagnosticQueue) :
    List Lexeme → List Token × DiagnosticQueue
  | [] => ([], queue)
  | ⟨.skipped, _⟩ :: rest => collect lines queue rest
  | ⟨.token kind, span⟩ :: rest =>
    let (tokens, queue) := collect lines queue rest
    (⟨kind, span⟩ :: tokens, queue)
  | ⟨.fault fault, span⟩ :: rest =>
    let queue := queue.report lines (fault.toDiagnostic span)
    if queue.limitReached then ([⟨.error, span⟩], queue)
    else
      let (tokens, queue) := collect lines queue rest
      (⟨.error, span⟩ :: tokens, queue)

/-- Tokenizes a text, reporting to a queue. -/
def ofText (lines : LineTable) (queue : DiagnosticQueue) (s : List Char) :
    TokenStream × DiagnosticQueue :=
  let (tokens, queue) := collect lines queue (Lexeme.ofText s)
  (⟨tokens, min (Lexeme.byteLength s) Span.maxOffset⟩, queue)

end TokenStream

end ArmPseudocode

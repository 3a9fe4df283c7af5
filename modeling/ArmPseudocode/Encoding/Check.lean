import ArmPseudocode.Encoding.Template
import ArmPseudocode.Eval.Stmt

/-!
# Validity of encodings

A word is checked against a template by binding the template's fields in a fresh environment and
running its program. A defect of the program is no verdict. A batch checks many words against many
templates and collects for each template the valid words, the number of defects and the first of
them.
-/

namespace ArmPseudocode

/-- What a template says about a word. -/
inductive Verdict where
  /-- A fixed bit of the layout differs. -/
  | notApplicable
  | valid
  /-- The encoding exists, but its behaviour is not specified. -/
  | unspecified
  /-- The encoding belongs to another instruction. -/
  | seeOther
  | undefined
deriving DecidableEq, Repr

namespace Verdict

def ofOutcome : Outcome → Verdict
  | .proceed => valid
  | .stop => unspecified
  | .seeOther => seeOther
  | .undefined => undefined

/-- Whether the word is an encoding of the template. -/
def isValid : Verdict → Bool
  | valid | unspecified => true
  | notApplicable | seeOther | undefined => false

end Verdict

structure Defect where
  word : BitVec 32
  error : EvalError
deriving DecidableEq, Repr

def Defect.text (d : Defect) : String :=
  Text.hexWord d.word ++ ": " ++ d.error.message

/-- What checking words against one template came to. -/
structure TemplateReport where
  name : String
  validWords : List (BitVec 32)
  /-- The number of words whose check ended in a defect. -/
  defectiveWords : Nat
  /-- The first defect. -/
  defect : Option Defect
deriving DecidableEq, Repr

namespace Template

def check (config : EvalConfig) (t : Template) (word : BitVec 32) : Except EvalError Verdict :=
  match t.bind word (.empty config.names) with
  | (false, _) => .ok .notApplicable
  | (true, env) =>
    match t.program.run config env with
    | .ok outcome _ => .ok (.ofOutcome outcome)
    | .error e _ => .error e

def isValid (config : EvalConfig) (t : Template) (word : BitVec 32) : Except EvalError Bool :=
  Verdict.isValid <$> t.check config word

end Template

namespace TemplateReport

def empty (name : String) : TemplateReport :=
  { name, validWords := [], defectiveWords := 0, defect := none }

/-- The report with one more word on it. -/
def record (r : TemplateReport) (word : BitVec 32) :
    Except EvalError Verdict → TemplateReport
  | .ok verdict => if verdict.isValid then { r with validWords := r.validWords ++ [word] } else r
  | .error e =>
    { r with
      defectiveWords := r.defectiveWords + 1
      defect := r.defect <|> some ⟨word, e⟩ }

def ofWords (config : EvalConfig) (t : Template) (words : List (BitVec 32)) : TemplateReport :=
  words.foldl (fun r word => r.record word (t.check config word)) (empty t.name)

def isDefective (r : TemplateReport) : Bool :=
  r.defect.isSome

end TemplateReport

/-- The reports on every template of a batch, in its order. -/
structure BatchReport where
  templates : List TemplateReport
deriving DecidableEq, Repr

namespace BatchReport

def ofBatch (config : EvalConfig) (templates : List Template) (words : List (BitVec 32)) :
    BatchReport :=
  ⟨templates.map fun t => .ofWords config t words⟩

def defective (b : BatchReport) : List TemplateReport :=
  b.templates.filter (·.isDefective)

/-- The first report on a template of a name. -/
def find? (b : BatchReport) (name : String) : Option TemplateReport :=
  b.templates.find? (·.name = name)

end BatchReport

end ArmPseudocode

import ArmPseudocode.Encoding.Field
import ArmPseudocode.Eval.Environment
import ArmPseudocode.Parser.Source

/-!
# Templates

A template is an instruction encoding: a layout that covers a 32-bit word, and the pseudocode that
decides about words of that layout. Matching a word checks it against the fixed bits and binds the
named fields.
-/

namespace ArmPseudocode

structure Template where
  name : String
  specs : List FieldSpec
  program : Program Span
  covers : FieldSpec.totalWidth specs = wordBits

/-- Why a template could not be built from its layout and source text. -/
inductive LoadError where
  | layout (cause : LayoutError)
  | source (cause : ParseFailure)
deriving DecidableEq, Repr

def LoadError.message : LoadError → String
  | layout cause => cause.message
  | source cause => cause.text

namespace Template

/-- The template of a list of items, which must cover a word. -/
def ofSpecs (name : String) (specs : List FieldSpec) (program : Program Span) :
    Except LayoutError Template :=
  if covers : FieldSpec.totalWidth specs = wordBits then .ok { name, specs, program, covers }
  else .error (.coverage (FieldSpec.totalWidth specs))

def ofLayout (name : String) (layout : List Char) (program : Program Span) :
    Except LayoutError Template := do
  ofSpecs name (← FieldSpec.readAll layout) program

/-- The template of a layout and a source text. The text is read first. -/
def ofSource (name : String) (layout text : List Char) : Except LoadError Template :=
  match (ParsedSource.ofText {} name text).accepted with
  | .error cause => .error (.source cause)
  | .ok program =>
    match ofLayout name layout program with
    | .error cause => .error (.layout cause)
    | .ok template => .ok template

def text (t : Template) : String :=
  t.name ++ ": " ++ FieldSpec.textAll t.specs

/-- The bits of a word from an offset on, counted from the most significant bit. -/
def fieldBits (word : BitVec 32) (offset width : Nat) : Bits :=
  ⟨width, (word >>> (wordBits - offset - width)) &&& Bits.lowMask width, 0⟩

/-- Matches a word against items from an offset on. Items are taken from left to right up to a fixed
bit that differs; fields in front of it stay bound. -/
def bindFrom (word : BitVec 32) : Nat → List FieldSpec → Environment → Bool × Environment
  | _, [], env => (true, env)
  | offset, .literal bit _ :: rest, env =>
    if word.getMsbD offset = bit then bindFrom word (offset + 1) rest env else (false, env)
  | offset, .field id width :: rest, env =>
    bindFrom word (offset + width) rest (env.bindField id (.bits (fieldBits word offset width)))

/-- Matches a word against the layout: whether every fixed bit is as it should be, and the
environment with the fields bound. -/
def bind (t : Template) (word : BitVec 32) (env : Environment) : Bool × Environment :=
  bindFrom word 0 t.specs env

end Template

end ArmPseudocode

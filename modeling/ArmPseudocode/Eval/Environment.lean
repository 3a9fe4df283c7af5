import ArmPseudocode.Eval.Builtins

/-!
# Environments

A body of pseudocode has one flat scope: an assignment anywhere binds in the same environment. A
name without a binding is looked up among the builtins, and a rule says what becomes of one that is
not there either.
-/

namespace ArmPseudocode

/-- What a name stands for that nothing is bound to. -/
inductive NameResolution where
  /-- Itself, as a symbol for state outside the program. -/
  | lenient
  /-- Nothing; using it is a defect. -/
  | strict
deriving DecidableEq, Repr

structure EvalConfig where
  names : NameResolution := .lenient
  /-- How often the body of a loop may run in one execution of the loop. -/
  maxIterations : Nat := 1024
deriving DecidableEq, Repr

/-- The bindings of an evaluation, every name at most once. -/
structure Environment where
  bindings : List (String × Value)
  names : NameResolution
deriving DecidableEq, Repr

namespace Environment

def empty (names : NameResolution) : Environment :=
  ⟨[], names⟩

/-- What is bound to a name. -/
def get? (env : Environment) (id : String) : Option Value :=
  env.bindings.lookup id

/-- A list of bindings with one name bound anew, in its old place if it has one. -/
def update (id : String) (v : Value) : List (String × Value) → List (String × Value)
  | [] => [(id, v)]
  | (other, w) :: rest => if other = id then (id, v) :: rest else (other, w) :: update id v rest

/-- Binds a name, replacing what was bound to it. -/
def bind (env : Environment) (id : String) (v : Value) : Environment :=
  { env with bindings := update id v env.bindings }

/-- Binds a field of an encoding. A field that is bound to something else already becomes
inconsistent, and stays so. -/
def bindField (env : Environment) (id : String) (v : Value) : Environment :=
  match env.get? id with
  | none => env.bind id v
  | some .inconsistent => env
  | some old => if old = v then env else env.bind id .inconsistent

/-- What a name stands for: its binding, the builtin of the name, or what the rule says. -/
def lookup (env : Environment) (id : String) : Except EvalError Value :=
  match env.get? id with
  | some v => .ok v
  | none =>
    match Builtin.ofName? id with
    | some v => .ok v
    | none =>
      match env.names with
      | .lenient => .ok (.symbol id)
      | .strict => .error (.unresolvedName id)

def size (env : Environment) : Nat :=
  env.bindings.length

end Environment

end ArmPseudocode

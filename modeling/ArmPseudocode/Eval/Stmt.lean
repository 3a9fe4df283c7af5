import ArmPseudocode.Eval.Expr
import ArmPseudocode.Syntax.Stmt

/-!
# Execution of statements

A statement changes the environment and has an outcome, or ends in a defect; the environment it
leaves stands in either case. An outcome other than `proceed` ends the blocks, branches and loops
around it.

A loop may run its body a limited number of times in one execution of the loop, so every execution
ends.
-/

namespace ArmPseudocode

/-- How a statement ends. -/
inductive Outcome where
  /-- Go on with the next statement. -/
  | proceed
  /-- The encoding belongs to another instruction. -/
  | seeOther
  | undefined
  /-- The behaviour is not specified from here on. -/
  | stop
deriving DecidableEq, Repr

/-- What a program that reaches a prose word comes to. -/
def ProseWord.outcome : ProseWord → Outcome
  | see => .seeOther
  | implementationDefined | subarchitectureDefined => .stop

/-- A step on an environment that may end in a defect and leaves the environment in either case. -/
abbrev Action (α : Type) := EStateM EvalError Environment α

namespace Action

/-- A computation that only reads the environment. -/
def reading {α : Type} (f : Environment → Except EvalError α) : Action α := fun env =>
  match f env with
  | .ok a => .ok a env
  | .error e => .error e env

def bind (id : String) (v : Value) : Action Unit :=
  modify (·.bind id v)

/-- One step and, if it proceeds, another. -/
def andThen (first second : Action Outcome) : Action Outcome := fun env =>
  match first env with
  | .ok .proceed env => second env
  | other => other

def whileLoop (limit : Nat) (test : Action Bool) (body : Action Outcome) : Nat → Action Outcome
  -- With no iterations left the test is still made, and the loop may end by it.
  | 0 => do
    if ← test then throw (.loopLimit limit) else return .proceed
  | left + 1 => do
    if ← test then andThen body (whileLoop limit test body left) else return .proceed

/-- Runs the body until the test holds behind it. -/
def repeatLoop (limit : Nat) (body : Action Outcome) (test : Action Bool) : Nat → Action Outcome
  | 0 => throw (.loopLimit limit)
  | left + 1 =>
    andThen body do
      if ← test then return .proceed else repeatLoop limit body test left

/-- Runs the body with the variable bound to each number from one to another. -/
def forLoop (limit : Nat) (var : String) (last : Int) (body : Action Outcome) :
    Nat → Int → Action Outcome
  -- What the body binds to the variable is overwritten; the count goes on from `k`.
  | 0, k => if k ≤ last then throw (.loopLimit limit) else return .proceed
  | left + 1, k =>
    if k ≤ last then do
      bind var (.int (Int64.ofInt k))
      andThen body (forLoop limit var last body left (k + 1))
    else
      return .proceed

end Action

namespace Expr

variable {α : Type}

/-- The value of an expression in the environment as it is. -/
def value (e : Expr α) : Action Value :=
  .reading e.eval

def truth (e : Expr α) (place : Place) : Action Bool :=
  .reading fun env => do (← e.eval env).asBool place

def integer (e : Expr α) (place : Place) : Action Int64 :=
  .reading fun env => do (← e.eval env).asInt place

mutual

/-- Binds a value to a target. A tuple of targets takes a tuple of as many components and binds them
from left to right; what was bound before a component that does not fit stays bound. -/
def assign : Expr α → Value → Action Unit
  | name _ id, v => .bind id v
  | declare _ _ id, v => .bind id v
  | tuple _ [slot], v => slot.assign v
  | tuple _ slots, .tuple vs =>
    if slots.length = vs.length then assignAll slots vs
    else throw (.tupleArity slots.length vs.length)
  | tuple _ _, v => throw (.notATuple v.kind)
  | target, _ => throw (.notATarget target.describe)
termination_by structural target => target

/-- Binds values to targets, except to blank ones. -/
def assignAll : List (Expr α) → List Value → Action Unit
  | slot :: slots, v :: vs => do
    if !slot.isBlank then slot.assign v
    assignAll slots vs
  | _, _ => return ()
termination_by structural slots => slots

end

/-- Whether a pattern of a case arm equals the selector. Both must be of one kind. -/
def isEqualTo (pattern : Expr α) (selector : Value) (env : Environment) :
    Except EvalError Bool := do
  let v ← pattern.eval env
  if selector.kind = v.kind then selector.equals v else .error (.caseMistyped selector v)

/-- Whether one of the patterns of a case arm equals the selector. Patterns behind the first that
does are not evaluated. -/
def anyEqualTo (selector : Value) (env : Environment) : List (Expr α) → Except EvalError Bool
  | [] => .ok false
  | pattern :: patterns => do
    if ← pattern.isEqualTo selector env then return true else anyEqualTo selector env patterns

end Expr

namespace Stmt

variable {α : Type}

mutual

def exec (limit : Nat) : Stmt α → Action Outcome
  | assign _ target e => do
    target.assign (← e.value)
    return .proceed
  | expr _ e => do
    let _ ← e.value
    return .proceed
  | declaration _ _ => return .proceed
  | giveBack _ _ => throw (.unsupported .returnStatement)
  | undefined _ => return .undefined
  | unpredictable _ => return .stop
  | prose _ word _ => return word.outcome
  | branch _ test body elsifs otherwise => do
    if ← test.truth .ifTest then
      body.exec limit
    else
      execElsifs limit (execElse limit otherwise) elsifs
  | repeatUntil _ body test =>
    .repeatLoop limit (body.exec limit) (test.truth .untilTest) limit
  | whileDo _ test body =>
    .whileLoop limit (test.truth .whileTest) (body.exec limit) limit
  | forTo _ var first last body => do
    let first ← first.integer .loopBound
    let last ← last.integer .loopBound
    .forLoop limit var last.toInt (body.exec limit) limit first.toInt
  | caseOf _ selector arms otherwise => do
    let v ← selector.value
    execArms limit v (execElse limit otherwise) arms
  | block _ body => execAll limit body
  | assertion _ e => do
    let _ ← e.value
    return .proceed
  | enumeration _ _ _ => return .proceed
  | malformed _ => throw (.unsupported .malformedStatement)
termination_by structural s => s

/-- Executes statements in order up to the first that does not proceed. -/
def execAll (limit : Nat) : List (Stmt α) → Action Outcome
  | [] => return .proceed
  | s :: rest => .andThen (s.exec limit) (execAll limit rest)
termination_by structural ss => ss

/-- Executes the last body of a branch or a case, if it has one. -/
def execElse (limit : Nat) : Option (Stmt α) → Action Outcome
  | some last => last.exec limit
  | none => return .proceed
termination_by structural otherwise => otherwise

/-- Executes the first body whose test holds, or else the last one. -/
def execElsifs (limit : Nat) (otherwise : Action Outcome) :
    List (Expr α × Stmt α) → Action Outcome
  | [] => otherwise
  | (test, body) :: rest => do
    if ← test.truth .elsifTest then body.exec limit else execElsifs limit otherwise rest
termination_by structural elsifs => elsifs

/-- Executes the first arm with a pattern that equals the selector, or else the last body. -/
def execArms (limit : Nat) (selector : Value) (otherwise : Action Outcome) :
    List (List (Expr α) × Stmt α) → Action Outcome
  | [] => otherwise
  | (patterns, body) :: rest => do
    if ← .reading (Expr.anyEqualTo selector · patterns) then body.exec limit
    else execArms limit selector otherwise rest
termination_by structural arms => arms

end

end Stmt

def Program.run {α : Type} (config : EvalConfig) (p : Program α) : Action Outcome :=
  Stmt.execAll config.maxIterations p.body

end ArmPseudocode

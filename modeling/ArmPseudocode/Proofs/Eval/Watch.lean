import ArmPseudocode.Eval.Stmt

/-!
# Evaluation under watch

What a run computes on its way does not show in its result. Here evaluation and execution are
written so that they keep a record: of every value, of every range of positions that is taken out of
a vector, and of every vector that is put under another width. Apart from the record each function
does what the one it watches does, and the forms and their parts come in the same order.
-/

namespace ArmPseudocode

/-- Something that happens on the way. -/
inductive Event where
  /-- A value was computed. -/
  | value (v : Value)
  /-- Positions of a vector were taken out, from `high` down to `low`. -/
  | slice (b : Bits) (high low : Nat)
  /-- A vector was put under a width that need not be its own. -/
  | extend (b : Bits) (width : Nat)
deriving DecidableEq, Repr

/-- An environment and what happened so far, the latest event first. -/
structure Watch where
  env : Environment
  events : List Event
deriving DecidableEq, Repr

abbrev Watched (β : Type) := EStateM EvalError Watch β

variable {α β : Type}

namespace Watched

def unrecorded (step : Action β) : Watched β := fun w =>
  match step w.env with
  | .ok b env => .ok b { w with env }
  | .error e env => .error e { w with env }

def given (x : Except EvalError β) : Watched β :=
  unrecorded (.reading fun _ => x)

def note (event : Event) : Watched Unit :=
  modify fun w => { w with events := event :: w.events }

/-- A result that is recorded as a value. -/
def computedAs (asValue : β → Value) (x : Except EvalError β) : Watched β := do
  let b ← given x
  note (.value (asValue b))
  return b

def computed (x : Except EvalError Value) : Watched Value :=
  computedAs (fun v => v) x

def lookup (id : String) : Watched Value := fun w =>
  computed (w.env.lookup id) w

/-! ### Operations that have events of their own -/

def select (b selected : Bits) (high low : Int64) : Watched Bits := do
  let high ← given (b.position high)
  let low ← given (b.position low)
  note (.slice b high low)
  let part ← computedAs .bits (.ok (b.slice high low))
  computedAs .bits (EvalError.ofWidth (selected.concat part))

def selectRange (b selected : Bits) (high low : Int64) : Watched Bits :=
  if high.toInt ≤ low.toInt then throw (.invertedRange high low) else select b selected high low

def zeroExtended (b : Bits) (n : Int64) : Watched Value :=
  if b.width ≤ n.toInt ∧ n.toInt ≤ Bits.maxWidth then do
    note (.extend b n.toInt.toNat)
    computed (.ok (.bits (b.extend n.toInt.toNat)))
  else
    throw (.badExtension b.width n)

def apply : Builtin → List Value → Watched Value
  | .zeroExtend, [x, n] => do
    let b ← given (Builtin.zeroExtend.bitsArgument x)
    let width ← given (Builtin.zeroExtend.intArgument n)
    zeroExtended b width
  | f, args => computed (f.apply args)

def applyTo (callee : String) (args : List Value) : Value → Watched Value
  | .func f => apply f args
  | v => throw (.notCallable callee v.kind)

/-! ### Loops -/

def andThen (first second : Watched Outcome) : Watched Outcome := fun w =>
  match first w with
  | .ok .proceed w => second w
  | other => other

def whileLoop (limit : Nat) (test : Watched Bool) (body : Watched Outcome) : Nat → Watched Outcome
  | 0 => do
    if ← test then throw (.loopLimit limit) else return .proceed
  | left + 1 => do
    if ← test then andThen body (whileLoop limit test body left) else return .proceed

def repeatLoop (limit : Nat) (body : Watched Outcome) (test : Watched Bool) : Nat → Watched Outcome
  | 0 => throw (.loopLimit limit)
  | left + 1 =>
    andThen body do
      if ← test then return .proceed else repeatLoop limit body test left

def forLoop (limit : Nat) (var : String) (last : Int) (body : Watched Outcome) :
    Nat → Int → Watched Outcome
  | 0, k => if k ≤ last then throw (.loopLimit limit) else return .proceed
  | left + 1, k =>
    if k ≤ last then do
      let v ← computed (.ok (.int (Int64.ofInt k)))
      unrecorded (.bind var v)
      andThen body (forLoop limit var last body left (k + 1))
    else
      return .proceed

end Watched

namespace Expr

open Watched

mutual

def watched : Expr α → Watched Value
  | int _ n => computed (.ok (.int n))
  | real _ numeral => throw (.notAConstant numeral)
  | bitString _ digits => computed (Value.bits <$> EvalError.ofWidth (Bits.ofText digits.toList))
  | name _ id => lookup id
  | declare _ _ _ => throw (.unsupported .declarationAsValue)
  | unknown _ (some (.bits width)) => do
    let width ← given ((← width.watched).asInt .bitsWidth)
    computed (Value.unknownBits width)
  | unknown _ (some .bit) => computed (Value.bits <$> EvalError.ofWidth (Bits.unknown 1))
  | unknown _ _ => throw (.unsupported .unknownOfOtherType)
  | call _ callee args => do
    let args ← watchedAll args
    applyTo callee args (← lookup callee)
  | tuple _ [item] => item.watched
  | tuple _ items => do
    let vs ← watchedAll items
    computed (.ok (.tuple vs))
  | blank _ => throw (.unsupported .blankAsValue)
  | binary _ op left right => do
    let v ← left.watched
    match op with
    | .andAlso =>
      if ← given (v.asBool .andLeft) then right.watched else computed (.ok (.bool false))
    | .orElse =>
      if ← given (v.asBool .orLeft) then computed (.ok (.bool true)) else right.watched
    | op => computed (Value.binary op v (← right.watched))
  | unary _ op operand => do
    computed (Value.unary op (← operand.watched))
  | slice _ base terms => do
    match ← base.watched with
    | .bits b => computed (.ok (.bits (← watchedTerms b .nil terms)))
    | v => throw (.sliceOfNonBits v.kind)
  | index _ base terms => do
    match ← base.watched with
    | .bits b => computed (.ok (.bits (← watchedTerms b .nil terms)))
    | v => throw (.notSupported "[]" v.kind)
  | conditional _ test yes no => do
    if ← given ((← test.watched).asBool .conditionalTest) then yes.watched else no.watched
  | member _ base field => do
    computed ((← base.watched).member field)
  | malformed _ => throw (.unsupported .malformedExpression)
termination_by structural e => e

def watchedAll : List (Expr α) → Watched (List Value)
  | [] => return []
  | e :: es => do
    let v ← e.watched
    let vs ← watchedAll es
    return v :: vs
termination_by structural es => es

def watchedTerms (b selected : Bits) : List (SliceTerm (Expr α)) → Watched Bits
  | [] => return selected
  | .single position :: terms => do
    let i ← given ((← position.watched).asInt .bitIndex)
    let selected ← select b selected i i
    watchedTerms b selected terms
  | .range high low :: terms => do
    let high ← given ((← high.watched).asInt .bitIndex)
    let low ← given ((← low.watched).asInt .bitIndex)
    let selected ← selectRange b selected high low
    watchedTerms b selected terms
termination_by structural terms => terms

end

def watchedTruth (e : Expr α) (place : Place) : Watched Bool := do
  given ((← e.watched).asBool place)

def watchedInteger (e : Expr α) (place : Place) : Watched Int64 := do
  given ((← e.watched).asInt place)

def watchedEqualTo (pattern : Expr α) (selector : Value) : Watched Bool := do
  let v ← pattern.watched
  if selector.kind = v.kind then computedAs .bool (selector.equals v)
  else throw (.caseMistyped selector v)

def watchedAnyEqualTo (selector : Value) : List (Expr α) → Watched Bool
  | [] => return false
  | pattern :: patterns => do
    if ← pattern.watchedEqualTo selector then return true else watchedAnyEqualTo selector patterns

end Expr

namespace Stmt

open Watched

mutual

def watched (limit : Nat) : Stmt α → Watched Outcome
  | assign _ target e => do
    unrecorded (target.assign (← e.watched))
    return .proceed
  | expr _ e => do
    let _ ← e.watched
    return .proceed
  | declaration _ _ => return .proceed
  | giveBack _ _ => throw (.unsupported .returnStatement)
  | undefined _ => return .undefined
  | unpredictable _ => return .stop
  | prose _ word _ => return word.outcome
  | branch _ test body elsifs otherwise => do
    if ← test.watchedTruth .ifTest then
      body.watched limit
    else
      watchedElsifs limit (watchedElse limit otherwise) elsifs
  | repeatUntil _ body test =>
    repeatLoop limit (body.watched limit) (test.watchedTruth .untilTest) limit
  | whileDo _ test body =>
    whileLoop limit (test.watchedTruth .whileTest) (body.watched limit) limit
  | forTo _ var first last body => do
    let first ← first.watchedInteger .loopBound
    let last ← last.watchedInteger .loopBound
    forLoop limit var last.toInt (body.watched limit) limit first.toInt
  | caseOf _ selector arms otherwise => do
    let v ← selector.watched
    watchedArms limit v (watchedElse limit otherwise) arms
  | block _ body => watchedAll limit body
  | assertion _ e => do
    let _ ← e.watched
    return .proceed
  | enumeration _ _ _ => return .proceed
  | malformed _ => throw (.unsupported .malformedStatement)
termination_by structural s => s

def watchedAll (limit : Nat) : List (Stmt α) → Watched Outcome
  | [] => return .proceed
  | s :: rest => andThen (s.watched limit) (watchedAll limit rest)
termination_by structural ss => ss

def watchedElse (limit : Nat) : Option (Stmt α) → Watched Outcome
  | some last => last.watched limit
  | none => return .proceed
termination_by structural otherwise => otherwise

def watchedElsifs (limit : Nat) (otherwise : Watched Outcome) :
    List (Expr α × Stmt α) → Watched Outcome
  | [] => otherwise
  | (test, body) :: rest => do
    if ← test.watchedTruth .elsifTest then body.watched limit
    else watchedElsifs limit otherwise rest
termination_by structural elsifs => elsifs

def watchedArms (limit : Nat) (selector : Value) (otherwise : Watched Outcome) :
    List (List (Expr α) × Stmt α) → Watched Outcome
  | [] => otherwise
  | (patterns, body) :: rest => do
    if ← Expr.watchedAnyEqualTo selector patterns then body.watched limit
    else watchedArms limit selector otherwise rest
termination_by structural arms => arms

end

end Stmt

def Program.watched (config : EvalConfig) (p : Program α) : Watched Outcome :=
  Stmt.watchedAll config.maxIterations p.body

end ArmPseudocode

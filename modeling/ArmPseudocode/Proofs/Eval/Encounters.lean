import ArmPseudocode.Proofs.Eval.Loops
import ArmPseudocode.Proofs.Eval.Watch

/-!
# What a run meets

The parts that a run comes to, each with the environment it is reached in, and the events that
happen there. A part is reached by what the parts in front of it come to where they are evaluated or
executed for themselves, so nothing here looks at a record.
-/

namespace ArmPseudocode

variable {α : Type}

/-- With this value on its left the operator needs the one on its right. -/
def BinaryOp.Needs : BinaryOp → Value → Prop
  | .andAlso, v => v = .bool true
  | .orElse, v => v = .bool false
  | _, _ => True

/-- The ends of the range that a term takes out of a vector, whether the vector has them or not. -/
inductive SliceTerm.Takes (env : Environment) : SliceTerm (Expr α) → Int64 → Int64 → Prop
  | single {position : Expr α} {i : Int64} (hposition : position.eval env = .ok (.int i)) :
      Takes env (.single position) i i
  | range {high low : Expr α} {i j : Int64} (hhigh : high.eval env = .ok (.int i))
      (hlow : low.eval env = .ok (.int j)) (hlt : j.toInt < i.toInt) :
      Takes env (.range high low) i j

namespace Expr

/-! ### Expressions -/

/-- The vector and the terms of an expression that takes bits out of a vector. -/
def cut? : Expr α → Option (Expr α × List (SliceTerm (Expr α)))
  | slice _ base terms | index _ base terms => some (base, terms)
  | _ => none

/-- The expression takes bits out of a vector, has selected some and has come to a term. -/
inductive AtTerm (env : Environment) (e : Expr α) (b selected : Bits) :
    SliceTerm (Expr α) → Prop
  | intro {base : Expr α} {before after : List (SliceTerm (Expr α))}
      {term : SliceTerm (Expr α)} (hcut : e.cut? = some (base, before ++ term :: after))
      (hbase : base.eval env = .ok (.bits b))
      (hbefore : evalTerms env b .nil before = .ok selected) : AtTerm env e b selected term

/-- The expression has come to a term that takes out positions which the vector has. -/
inductive AtRange (env : Environment) (e : Expr α) (b selected : Bits) (i j : Nat) : Prop
  | intro {term : SliceTerm (Expr α)} {high low : Int64} (hterm : AtTerm env e b selected term)
      (htakes : term.Takes env high low) (hhigh : b.position high = .ok i)
      (hlow : b.position low = .ok j) : AtRange env e b selected i j

/-- Evaluating the first expression evaluates the second, which is one of its operands. -/
inductive Evaluates (env : Environment) : Expr α → Expr α → Prop
  | width {info : α} {width : Expr α} : Evaluates env (unknown info (some (.bits width))) width
  | argument {info : α} {callee : String} {before after : List (Expr α)} {arg : Expr α}
      {vs : List Value} (hbefore : evalAll env before = .ok vs) :
      Evaluates env (call info callee (before ++ arg :: after)) arg
  | component {info : α} {before after : List (Expr α)} {item : Expr α} {vs : List Value}
      (hbefore : evalAll env before = .ok vs) :
      Evaluates env (tuple info (before ++ item :: after)) item
  | left {info : α} {op : BinaryOp} {left right : Expr α} :
      Evaluates env (binary info op left right) left
  | right {info : α} {op : BinaryOp} {left right : Expr α} {v : Value}
      (hleft : left.eval env = .ok v) (hop : op.Needs v) :
      Evaluates env (binary info op left right) right
  | operand {info : α} {op : UnaryOp} {operand : Expr α} :
      Evaluates env (unary info op operand) operand
  | base {e base : Expr α} {terms : List (SliceTerm (Expr α))}
      (hcut : e.cut? = some (base, terms)) : Evaluates env e base
  | position {e position : Expr α} {b selected : Bits}
      (hterm : AtTerm env e b selected (.single position)) : Evaluates env e position
  | high {e high low : Expr α} {b selected : Bits}
      (hterm : AtTerm env e b selected (.range high low)) : Evaluates env e high
  | low {e high low : Expr α} {b selected : Bits} {i : Int64}
      (hterm : AtTerm env e b selected (.range high low))
      (hhigh : high.eval env = .ok (.int i)) : Evaluates env e low
  | test {info : α} {test yes no : Expr α} : Evaluates env (conditional info test yes no) test
  | yes {info : α} {test yes no : Expr α} (htest : test.eval env = .ok (.bool true)) :
      Evaluates env (conditional info test yes no) yes
  | no {info : α} {test yes no : Expr α} (htest : test.eval env = .ok (.bool false)) :
      Evaluates env (conditional info test yes no) no
  | owner {info : α} {base : Expr α} {field : String} :
      Evaluates env (member info base field) base

/-- What happens in the evaluation of an expression apart from its operands. -/
inductive Causes (env : Environment) : Expr α → Event → Prop
  | value {e : Expr α} {v : Value} (he : e.eval env = .ok v) : Causes env e (.value v)
  | callee {info : α} {callee : String} {args : List (Expr α)} {vs : List Value} {v : Value}
      (hargs : evalAll env args = .ok vs) (hcallee : env.lookup callee = .ok v) :
      Causes env (call info callee args) (.value v)
  | extended {info : α} {callee : String} {args : List (Expr α)} {b : Bits} {n : Int64} {v : Value}
      (hargs : evalAll env args = .ok [.bits b, .int n])
      (hcallee : env.lookup callee = .ok (.func .zeroExtend))
      (he : (call info callee args).eval env = .ok v) :
      Causes env (call info callee args) (.extend b n.toInt.toNat)
  | taken {e : Expr α} {b selected : Bits} {i j : Nat} (hrange : AtRange env e b selected i j) :
      Causes env e (.slice b i j)
  | part {e : Expr α} {b selected : Bits} {i j : Nat} (hrange : AtRange env e b selected i j) :
      Causes env e (.value (.bits (b.slice i j)))
  | joined {e : Expr α} {b selected more : Bits} {i j : Nat}
      (hrange : AtRange env e b selected i j)
      (hmore : EvalError.ofWidth (selected.concat (b.slice i j)) = .ok more) :
      Causes env e (.value (.bits more))

/-- What happens in the evaluation of an expression. -/
inductive Meets (env : Environment) : Expr α → Event → Prop
  | here {e : Expr α} {event : Event} (h : Causes env e event) : Meets env e event
  | inside {e part : Expr α} {event : Event} (h : Evaluates env e part)
      (hpart : Meets env part event) : Meets env e event

end Expr

namespace Stmt

/-! ### Statements -/

variable (limit : Nat)

/-- Rounds of a loop that counts lead from one number to another. -/
inductive Counts (var : String) (body : Stmt α) : Int → Environment → Int → Environment → Prop
  | none (k : Int) (env : Environment) : Counts var body k env k env
  | more {k last : Int} {env next mid : Environment}
      (hbody : body.exec limit (env.bind var (.int (Int64.ofInt k))) = .ok .proceed next)
      (hrest : Counts var body (k + 1) next last mid) : Counts var body k env last mid

/-- The loop is about to run its body for a number. -/
inductive AtCount (var : String) (first last : Expr α) (body : Stmt α) (env : Environment) (k : Int)
    (mid : Environment) : Prop
  | intro {a b : Int64} (hfirst : first.eval env = .ok (.int a))
      (hlast : last.eval env = .ok (.int b)) (hrounds : Counts limit var body a.toInt env k mid)
      (hlimit : k < a.toInt + limit) (hle : k ≤ b.toInt) : AtCount var first last body env k mid

/-- The case has found no arm for its selector yet and has come to a pattern. -/
inductive AtPattern (env : Environment) (v : Value) : Stmt α → Expr α → Prop
  | intro {info : α} {selector pattern : Expr α} {before after : List (List (Expr α) × Stmt α)}
      {front behind : List (Expr α)} {body : Stmt α} {otherwise : Option (Stmt α)}
      (hselector : selector.eval env = .ok v)
      (hbefore : ∀ arm ∈ before, Expr.anyEqualTo v env arm.1 = .ok false)
      (hfront : Expr.anyEqualTo v env front = .ok false) :
      AtPattern env v
        (caseOf info selector (before ++ (front ++ pattern :: behind, body) :: after) otherwise)
        pattern

/-- Executing a statement from an environment evaluates an expression of its own in another. -/
inductive Evaluates : Stmt α → Environment → Expr α → Environment → Prop
  | assigned {info : α} {target e : Expr α} {env : Environment} :
      Evaluates (assign info target e) env e env
  | alone {info : α} {e : Expr α} {env : Environment} : Evaluates (expr info e) env e env
  | asserted {info : α} {e : Expr α} {env : Environment} : Evaluates (assertion info e) env e env
  | ifTest {info : α} {test : Expr α} {body : Stmt α} {elsifs : List (Expr α × Stmt α)}
      {otherwise : Option (Stmt α)} {env : Environment} :
      Evaluates (branch info test body elsifs otherwise) env test env
  | elsifTest {info : α} {test next : Expr α} {body body' : Stmt α}
      {before after : List (Expr α × Stmt α)} {otherwise : Option (Stmt α)} {env : Environment}
      (htest : test.eval env = .ok (.bool false))
      (hbefore : ∀ arm ∈ before, arm.1.eval env = .ok (.bool false)) :
      Evaluates (branch info test body (before ++ (next, body') :: after) otherwise) env next env
  | untilTest {info : α} {test : Expr α} {body : Stmt α} {n : Nat} {env mid next : Environment}
      (hn : n < limit) (hrounds : Completes (RepeatRound limit body test) n env mid)
      (hbody : body.exec limit mid = .ok .proceed next) :
      Evaluates (repeatUntil info body test) env test next
  | whileTest {info : α} {test : Expr α} {body : Stmt α} {n : Nat} {env mid : Environment}
      (hn : n ≤ limit) (hrounds : Completes (WhileRound limit test body) n env mid) :
      Evaluates (whileDo info test body) env test mid
  | first {info : α} {var : String} {first last : Expr α} {body : Stmt α} {env : Environment} :
      Evaluates (forTo info var first last body) env first env
  | last {info : α} {var : String} {first last : Expr α} {body : Stmt α} {a : Int64}
      {env : Environment} (hfirst : first.eval env = .ok (.int a)) :
      Evaluates (forTo info var first last body) env last env
  | selector {info : α} {selector : Expr α} {arms : List (List (Expr α) × Stmt α)}
      {otherwise : Option (Stmt α)} {env : Environment} :
      Evaluates (caseOf info selector arms otherwise) env selector env
  | pattern {s : Stmt α} {pattern : Expr α} {v : Value} {env : Environment}
      (hpattern : AtPattern env v s pattern) : Evaluates s env pattern env

/-- Executing a statement from an environment executes a statement inside it from another. -/
inductive Executes : Stmt α → Environment → Stmt α → Environment → Prop
  | ifBody {info : α} {test : Expr α} {body : Stmt α} {elsifs : List (Expr α × Stmt α)}
      {otherwise : Option (Stmt α)} {env : Environment}
      (htest : test.eval env = .ok (.bool true)) :
      Executes (branch info test body elsifs otherwise) env body env
  | elsifBody {info : α} {test next : Expr α} {body body' : Stmt α}
      {before after : List (Expr α × Stmt α)} {otherwise : Option (Stmt α)} {env : Environment}
      (htest : test.eval env = .ok (.bool false))
      (hbefore : ∀ arm ∈ before, arm.1.eval env = .ok (.bool false))
      (hnext : next.eval env = .ok (.bool true)) :
      Executes (branch info test body (before ++ (next, body') :: after) otherwise) env body' env
  | elseBody {info : α} {test : Expr α} {body last : Stmt α} {elsifs : List (Expr α × Stmt α)}
      {env : Environment} (htest : test.eval env = .ok (.bool false))
      (helsifs : ∀ arm ∈ elsifs, arm.1.eval env = .ok (.bool false)) :
      Executes (branch info test body elsifs (some last)) env last env
  | repeated {info : α} {test : Expr α} {body : Stmt α} {n : Nat} {env mid : Environment}
      (hn : n < limit) (hrounds : Completes (RepeatRound limit body test) n env mid) :
      Executes (repeatUntil info body test) env body mid
  | guarded {info : α} {test : Expr α} {body : Stmt α} {n : Nat} {env mid : Environment}
      (hn : n < limit) (hrounds : Completes (WhileRound limit test body) n env mid)
      (htest : test.eval mid = .ok (.bool true)) :
      Executes (whileDo info test body) env body mid
  | counted {info : α} {var : String} {first last : Expr α} {body : Stmt α} {k : Int}
      {env mid : Environment} (hcount : AtCount limit var first last body env k mid) :
      Executes (forTo info var first last body) env body (mid.bind var (.int (Int64.ofInt k)))
  | arm {info : α} {selector : Expr α} {v : Value} {before after : List (List (Expr α) × Stmt α)}
      {patterns : List (Expr α)} {body : Stmt α} {otherwise : Option (Stmt α)} {env : Environment}
      (hselector : selector.eval env = .ok v)
      (hbefore : ∀ arm ∈ before, Expr.anyEqualTo v env arm.1 = .ok false)
      (hpatterns : Expr.anyEqualTo v env patterns = .ok true) :
      Executes (caseOf info selector (before ++ (patterns, body) :: after) otherwise) env body env
  | otherwise {info : α} {selector : Expr α} {v : Value} {arms : List (List (Expr α) × Stmt α)}
      {last : Stmt α} {env : Environment} (hselector : selector.eval env = .ok v)
      (harms : ∀ arm ∈ arms, Expr.anyEqualTo v env arm.1 = .ok false) :
      Executes (caseOf info selector arms (some last)) env last env
  | line {info : α} {before after : List (Stmt α)} {s : Stmt α} {env mid : Environment}
      (hbefore : execAll limit before env = .ok .proceed mid) :
      Executes (block info (before ++ s :: after)) env s mid

/-- What happens in the execution of a statement from an environment. -/
inductive Meets : Stmt α → Environment → Event → Prop
  | evaluated {s : Stmt α} {e : Expr α} {env mid : Environment} {event : Event}
      (h : Evaluates limit s env e mid) (he : e.Meets mid event) : Meets s env event
  | counted {info : α} {var : String} {first last : Expr α} {body : Stmt α} {k : Int}
      {env mid : Environment} (hcount : AtCount limit var first last body env k mid) :
      Meets (forTo info var first last body) env (.value (.int (Int64.ofInt k)))
  | compared {s : Stmt α} {pattern : Expr α} {v : Value} {b : Bool} {env : Environment}
      (hpattern : AtPattern env v s pattern) (hequal : pattern.isEqualTo v env = .ok b) :
      Meets s env (.value (.bool b))
  | inside {s part : Stmt α} {env mid : Environment} {event : Event}
      (h : Executes limit s env part mid) (hpart : Meets part mid event) : Meets s env event

end Stmt

/-- What happens in a run of the program from an environment. -/
inductive Program.Meets (config : EvalConfig) (p : Program α) (env : Environment) : Event → Prop
  | intro {before after : List (Stmt α)} {s : Stmt α} {mid : Environment} {event : Event}
      (hbody : p.body = before ++ s :: after)
      (hbefore : Stmt.execAll config.maxIterations before env = .ok .proceed mid)
      (hs : s.Meets config.maxIterations mid event) : Meets config p env event

end ArmPseudocode

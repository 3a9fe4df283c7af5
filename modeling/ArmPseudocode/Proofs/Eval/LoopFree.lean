import ArmPseudocode.Eval.Expr

/-!
# Expressions run no loops

Only a loop that has used up its iterations ends in the defect that says so. Whatever is wrong with
an expression is another defect. So a loop whose test has no value differs from one that has run
out.
-/

namespace ArmPseudocode

variable {α β γ : Type}

namespace EvalError

def isLoopLimit : EvalError → Bool
  | loopLimit _ => true
  | _ => false

end EvalError

/-- No loop has used up its iterations in a computation. -/
def LoopFree (x : Except EvalError β) : Prop :=
  ∀ defect, x = .error defect → defect.isLoopLimit = false

namespace LoopFree

variable {x : Except EvalError β}

theorem ok (b : β) : LoopFree (.ok b) := by
  intro defect h
  cases h

theorem error {defect : EvalError} (h : defect.isLoopLimit = false) :
    LoopFree (.error defect : Except EvalError β) := by
  rintro _ ⟨⟩
  exact h

theorem bind {f : β → Except EvalError γ} (hx : LoopFree x) (hf : ∀ b, LoopFree (f b)) :
    LoopFree (x >>= f) := by
  cases x with
  | ok b => exact hf b
  | error defect => exact error (hx defect rfl)

theorem map (f : β → γ) (hx : LoopFree x) : LoopFree (f <$> x) :=
  hx.bind fun b => ok (f b)

theorem ite {p : Prop} [Decidable p] {y : Except EvalError β} (hx : LoopFree x) (hy : LoopFree y) :
    LoopFree (if p then x else y) := by
  split
  · exact hx
  · exact hy

theorem ofWidth (x : Except WidthError β) : LoopFree (EvalError.ofWidth x) := by
  cases x with
  | ok b => exact ok b
  | error cause => exact error rfl

theorem ne_loopLimit (hx : LoopFree x) (limit : Nat) : x ≠ .error (.loopLimit limit) := by
  intro h
  cases hx _ h

end LoopFree

/-! ### Operators -/

namespace Value

theorem loopFree_checked (operation : IntOperation) (n : Int) : LoopFree (checked operation n) := by
  unfold checked
  cases toInt64? n with
  | none => exact .error rfl
  | some n => exact .ok _

theorem loopFree_shiftAmount (amount : Int64) : LoopFree (shiftAmount amount) :=
  .ite (.ok _) (.error rfl)

theorem loopFree_intBinary (op : BinaryOp) (a b : Int64) : LoopFree (intBinary op a b) := by
  cases op with
  | equal | notEqual | less | lessEqual | greater | greaterEqual => exact .ok _
  | add | sub | mul => exact loopFree_checked _ _
  | div => exact .ite (.error rfl) (loopFree_checked _ _)
  | mod =>
      apply LoopFree.ite (.error rfl)
      cases toInt64? (a.toInt.tdiv b.toInt) with
      | none => exact .error rfl
      | some _ => exact loopFree_checked _ _
  | shiftLeft => exact (loopFree_shiftAmount b).bind fun n => .ite (.ok _) (.error rfl)
  | shiftRight => exact (loopFree_shiftAmount b).bind fun n => .ok _
  | _ => exact .error rfl

theorem loopFree_boolBinary (op : BinaryOp) (a b : Bool) : LoopFree (boolBinary op a b) := by
  cases op with
  | equal | notEqual | andAlso | orElse => exact .ok _
  | _ => exact .error rfl

theorem loopFree_bitsBinary (op : BinaryOp) (a b : Bits) : LoopFree (bitsBinary op a b) := by
  cases op with
  | equal | notEqual | bitAnd | bitOr | bitEor | concat => exact (LoopFree.ofWidth _).map _
  | _ => exact .error rfl

theorem isLoopLimit_unsupportedOperands (op : BinaryOp) (v w : Value) :
    (unsupportedOperands op v w).isLoopLimit = false := by
  unfold unsupportedOperands
  split
  · rfl
  · rfl

mutual

theorem loopFree_equals (v w : Value) : LoopFree (v.equals w) := by
  cases v with
  | tuple vs =>
      cases w with
      | tuple ws => exact .ite (loopFree_equalsAll vs ws) (.error rfl)
      | _ => exact .error (isLoopLimit_unsupportedOperands _ _ _)
  | bits a =>
      cases w with
      | bits b => exact .ofWidth _
      | _ => exact .error (isLoopLimit_unsupportedOperands _ _ _)
  | int a =>
      cases w with
      | int b => exact .ok _
      | _ => exact .error (isLoopLimit_unsupportedOperands _ _ _)
  | bool a =>
      cases w with
      | bool b => exact .ok _
      | _ => exact .error (isLoopLimit_unsupportedOperands _ _ _)
  | _ => exact .error (isLoopLimit_unsupportedOperands _ _ _)
termination_by structural v

theorem loopFree_equalsAll (vs ws : List Value) : LoopFree (equalsAll vs ws) := by
  cases vs with
  | nil => exact .ok _
  | cons v vs =>
      cases ws with
      | nil => exact .ok _
      | cons w ws =>
          exact (loopFree_equals v w).bind fun _ => (loopFree_equalsAll vs ws).bind fun _ => .ok _
termination_by structural vs

end

theorem loopFree_tupleBinary (op : BinaryOp) (vs ws : List Value) :
    LoopFree (tupleBinary op vs ws) := by
  cases op with
  | equal | notEqual => exact (loopFree_equals _ _).map _
  | _ => exact .error rfl

theorem loopFree_binary (op : BinaryOp) (v w : Value) : LoopFree (binary op v w) := by
  unfold binary
  split
  · exact loopFree_intBinary op _ _
  · exact loopFree_boolBinary op _ _
  · exact loopFree_bitsBinary op _ _
  · exact loopFree_tupleBinary op _ _
  · exact .error (isLoopLimit_unsupportedOperands _ _ _)

theorem loopFree_unary (op : UnaryOp) (v : Value) : LoopFree (unary op v) := by
  unfold unary
  split
  · exact .ok _
  · exact .ok _
  · exact loopFree_checked _ _
  · exact .ite (.ok _) (.error rfl)
  · exact .error rfl

/-! ### Names, builtins and places -/

theorem loopFree_asBool (place : Place) (v : Value) : LoopFree (v.asBool place) := by
  cases v with
  | bool b => exact .ok b
  | _ => exact .error rfl

theorem loopFree_asInt (place : Place) (v : Value) : LoopFree (v.asInt place) := by
  cases v with
  | int n => exact .ok n
  | _ => exact .error rfl

theorem loopFree_member (field : String) (v : Value) : LoopFree (v.member field) := by
  cases v with
  | symbol id => exact .ok _
  | _ => exact .error rfl

theorem loopFree_unknownBits (width : Int64) : LoopFree (unknownBits width) :=
  .ite (.error rfl) ((LoopFree.ofWidth _).map _)

end Value

namespace Builtin

theorem loopFree_bitsArgument (f : Builtin) (v : Value) : LoopFree (bitsArgument f v) := by
  cases v with
  | bits b => exact .ok b
  | _ => exact .error rfl

theorem loopFree_intArgument (f : Builtin) (v : Value) : LoopFree (intArgument f v) := by
  cases v with
  | int n => exact .ok n
  | _ => exact .error rfl

theorem loopFree_apply (f : Builtin) (args : List Value) : LoopFree (f.apply args) := by
  unfold apply
  split
  · exact (loopFree_bitsArgument _ _).bind fun b => .ok _
  · exact (loopFree_bitsArgument _ _).bind fun b => .ok _
  · refine (loopFree_bitsArgument _ _).bind fun b => (loopFree_intArgument _ _).bind fun n => ?_
    exact .ite (.ok _) (.error rfl)
  · refine (loopFree_intArgument _ _).bind fun n => ?_
    exact .ite (.error rfl) ((LoopFree.ofWidth _).map _)
  · exact (loopFree_bitsArgument _ _).bind fun b => .ok _
  · exact .ok _
  · exact .ok _
  · refine (loopFree_bitsArgument _ _).bind fun b => ?_
    exact .ite ((LoopFree.ofWidth _).map _) (.error rfl)
  · refine (loopFree_bitsArgument _ _).bind fun _ => (loopFree_bitsArgument _ _).bind fun _ => ?_
    exact .ok _
  · exact .error rfl
  · exact .error rfl
  · exact .error rfl
  · exact .error rfl

end Builtin

theorem Value.loopFree_applyTo (callee : String) (args : List Value) (v : Value) :
    LoopFree (v.applyTo callee args) := by
  cases v with
  | func f => exact f.loopFree_apply args
  | _ => exact .error rfl

theorem Environment.loopFree_lookup (env : Environment) (id : String) :
    LoopFree (env.lookup id) := by
  unfold lookup
  split
  · exact .ok _
  · split
    · exact .ok _
    · split
      · exact .ok _
      · exact .error rfl

namespace Bits

theorem loopFree_position (b : Bits) (index : Int64) : LoopFree (b.position index) :=
  .ite (.ok _) (.error rfl)

theorem loopFree_select (b selected : Bits) (high low : Int64) :
    LoopFree (b.select selected high low) :=
  (b.loopFree_position high).bind fun _ => (b.loopFree_position low).bind fun _ => .ofWidth _

theorem loopFree_selectRange (b selected : Bits) (high low : Int64) :
    LoopFree (b.selectRange selected high low) :=
  .ite (.error rfl) (b.loopFree_select selected high low)

end Bits

namespace Expr

variable (env : Environment)

/-! ### Expressions -/

mutual

theorem loopFree_eval (e : Expr α) : LoopFree (e.eval env) := by
  cases e with
  | int _ n => exact .ok _
  | real _ numeral => exact .error rfl
  | bitString _ digits => exact (LoopFree.ofWidth _).map _
  | name _ id => exact env.loopFree_lookup id
  | declare _ type id => exact .error rfl
  | unknown _ type =>
      cases type with
      | none => exact .error rfl
      | some type =>
          cases type with
          | bits width =>
              simp only [eval]
              refine (loopFree_eval width).bind fun v => (v.loopFree_asInt _).bind fun n => ?_
              exact Value.loopFree_unknownBits n
          | bit => exact (LoopFree.ofWidth _).map _
          | _ => exact .error rfl
  | call _ callee args =>
      simp only [eval]
      refine (loopFree_evalAll args).bind fun vs => (env.loopFree_lookup callee).bind fun v => ?_
      exact v.loopFree_applyTo callee vs
  | tuple _ items =>
      match items with
      | [item] =>
          simp only [eval]
          exact loopFree_eval item
      | [] => exact .ok _
      | first :: second :: rest =>
          simp only [eval]
          exact (loopFree_evalAll (first :: second :: rest)).map _
  | blank _ => exact .error rfl
  | binary _ op left right =>
      simp only [eval]
      refine (loopFree_eval left).bind fun v => ?_
      cases op with
      | andAlso => exact (v.loopFree_asBool _).bind fun b => .ite (loopFree_eval right) (.ok _)
      | orElse => exact (v.loopFree_asBool _).bind fun b => .ite (.ok _) (loopFree_eval right)
      | _ => exact (loopFree_eval right).bind fun w => Value.loopFree_binary _ v w
  | unary _ op operand =>
      simp only [eval]
      exact (loopFree_eval operand).bind fun v => Value.loopFree_unary op v
  | slice _ base terms =>
      simp only [eval]
      refine (loopFree_eval base).bind fun v => ?_
      cases v with
      | bits b => exact (loopFree_evalTerms b .nil terms).map _
      | _ => exact .error rfl
  | index _ base terms =>
      simp only [eval]
      refine (loopFree_eval base).bind fun v => ?_
      cases v with
      | bits b => exact (loopFree_evalTerms b .nil terms).map _
      | _ => exact .error rfl
  | conditional _ test yes no =>
      simp only [eval]
      refine (loopFree_eval test).bind fun v => (v.loopFree_asBool _).bind fun b => ?_
      exact .ite (loopFree_eval yes) (loopFree_eval no)
  | member _ base field =>
      simp only [eval]
      exact (loopFree_eval base).bind fun v => v.loopFree_member field
  | malformed _ => exact .error rfl
termination_by structural e

theorem loopFree_evalAll (es : List (Expr α)) : LoopFree (evalAll env es) := by
  cases es with
  | nil => exact .ok _
  | cons e es =>
      simp only [evalAll]
      exact (loopFree_eval e).bind fun v => (loopFree_evalAll es).bind fun vs => .ok _
termination_by structural es

theorem loopFree_evalTerms (b selected : Bits) (terms : List (SliceTerm (Expr α))) :
    LoopFree (evalTerms env b selected terms) := by
  cases terms with
  | nil => exact .ok _
  | cons term terms =>
      cases term with
      | single position =>
          simp only [evalTerms]
          refine (loopFree_eval position).bind fun v => (v.loopFree_asInt _).bind fun i => ?_
          refine (b.loopFree_select selected i i).bind fun selected => ?_
          exact loopFree_evalTerms b selected terms
      | range high low =>
          simp only [evalTerms]
          refine (loopFree_eval high).bind fun v => (v.loopFree_asInt _).bind fun high => ?_
          refine (loopFree_eval low).bind fun w => (w.loopFree_asInt _).bind fun low => ?_
          refine (b.loopFree_selectRange selected high low).bind fun selected => ?_
          exact loopFree_evalTerms b selected terms
termination_by structural terms

end

theorem loopFree_truth (e : Expr α) (place : Place) :
    LoopFree (do (← e.eval env).asBool place) :=
  (e.loopFree_eval env).bind fun v => v.loopFree_asBool place

end Expr

end ArmPseudocode

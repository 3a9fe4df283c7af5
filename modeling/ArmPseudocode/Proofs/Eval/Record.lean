import ArmPseudocode.Proofs.Eval.WatchedSteps

/-!
# The record of a run

The record of a watched run is complete: no step takes anything out of it, and an expression that
has a value leaves the value in it, as does an operation that takes positions out of a vector or
puts a vector under another width.
-/

namespace ArmPseudocode

variable {α β γ : Type}

namespace Watched

/-- The step only adds to the record. -/
def Appends (step : Watched β) : Prop :=
  ∀ w, w.events <:+ record (step w)

namespace Appends

variable {step : Watched β} {next : β → Watched γ} {first second : Watched Outcome}

theorem pure (b : β) : Appends (Pure.pure b : Watched β) := fun _ => List.suffix_rfl

theorem throw (e : EvalError) : Appends (throw e : Watched β) := fun _ => List.suffix_rfl

theorem bind (h : Appends step) (hnext : ∀ b, Appends (next b)) : Appends (step >>= next) := by
  intro w
  have hstep := h w
  change w.events <:+ record (EStateM.bind step next w)
  unfold EStateM.bind
  cases hrun : step w with
  | ok b mid =>
      rw [hrun] at hstep
      exact hstep.trans (hnext b mid)
  | error e mid =>
      rw [hrun] at hstep
      exact hstep

theorem ite {p : Prop} [Decidable p] {yes no : Watched β} (hyes : Appends yes)
    (hno : Appends no) : Appends (if p then yes else no) := by
  split
  · exact hyes
  · exact hno

theorem unrecorded (action : Action β) : Appends (unrecorded action) := by
  intro w
  rw [Watched.unrecorded]
  cases action w.env <;> exact List.suffix_rfl

theorem given (x : Except EvalError β) : Appends (given x) := unrecorded _

theorem note (event : Event) : Appends (note event) := fun _ => List.suffix_cons event _

theorem computedAs (asValue : β → Value) (x : Except EvalError β) :
    Appends (computedAs asValue x) :=
  (given x).bind fun _ => (note _).bind fun _ => pure _

theorem computed (x : Except EvalError Value) : Appends (computed x) := computedAs _ x

theorem lookup (id : String) : Appends (lookup id) := fun w => computed (w.env.lookup id) w

theorem select (b selected : Bits) (high low : Int64) : Appends (select b selected high low) :=
  (given _).bind fun _ => (given _).bind fun _ => (note _).bind fun _ =>
    (computedAs _ _).bind fun _ => computedAs _ _

theorem selectRange (b selected : Bits) (high low : Int64) :
    Appends (selectRange b selected high low) :=
  ite (throw _) (select b selected high low)

theorem zeroExtended (b : Bits) (n : Int64) : Appends (zeroExtended b n) :=
  ite ((note _).bind fun _ => computed _) (throw _)

theorem apply (f : Builtin) (args : List Value) : Appends (apply f args) := by
  unfold Watched.apply
  split
  · exact (given _).bind fun b => (given _).bind fun n => zeroExtended b n
  · exact computed _

theorem applyTo (callee : String) (args : List Value) (v : Value) :
    Appends (applyTo callee args v) := by
  cases v with
  | func f => exact apply f args
  | _ => exact throw _

/-! ### Loops -/

theorem andThen (h : Appends first) (hnext : Appends second) :
    Appends (andThen first second) := by
  intro w
  have hfirst := h w
  unfold Watched.andThen
  cases hrun : first w with
  | ok outcome mid =>
      rw [hrun] at hfirst
      cases outcome with
      | proceed => exact hfirst.trans (hnext mid)
      | _ => exact hfirst
  | error e mid =>
      rw [hrun] at hfirst
      exact hfirst

variable {test : Watched Bool} {body : Watched Outcome}

theorem whileLoop (htest : Appends test) (hbody : Appends body) (limit left : Nat) :
    Appends (whileLoop limit test body left) := by
  induction left with
  | zero => exact htest.bind fun _ => ite (throw _) (pure _)
  | succ left ih => exact htest.bind fun _ => ite (andThen hbody ih) (pure _)

theorem repeatLoop (hbody : Appends body) (htest : Appends test) (limit left : Nat) :
    Appends (repeatLoop limit body test left) := by
  induction left with
  | zero => exact throw _
  | succ left ih => exact andThen hbody (htest.bind fun _ => ite (pure _) ih)

theorem forLoop (var : String) (last : Int) (hbody : Appends body) (limit left : Nat) (k : Int) :
    Appends (forLoop limit var last body left k) := by
  induction left generalizing k with
  | zero => exact ite (throw _) (pure _)
  | succ left ih =>
      refine ite ?_ (pure _)
      exact (computed _).bind fun _ => (unrecorded _).bind fun _ => andThen hbody (ih (k + 1))

end Appends

end Watched

open Watched (Appends)

namespace Expr

mutual

theorem watched_appends (e : Expr α) : e.watched.Appends := by
  cases e with
  | int | bitString => exact .computed _
  | name _ id => exact .lookup id
  | real | declare | blank | malformed => exact .throw _
  | unknown _ type =>
      match type with
      | none => exact .throw _
      | some (.bits width) =>
          exact (watched_appends width).bind fun _ => (Appends.given _).bind fun _ => .computed _
      | some .bit => exact .computed _
      | some .boolean | some .integer | some (.named _) | some (.tuple _) => exact .throw _
  | call _ callee args =>
      exact (watchedAll_appends args).bind fun _ => (Appends.lookup callee).bind fun v =>
        .applyTo callee _ v
  | tuple _ items =>
      match items with
      | [] => exact (watchedAll_appends []).bind fun _ => .computed _
      | [item] => exact watched_appends item
      | first :: second :: rest =>
          exact (watchedAll_appends (first :: second :: rest)).bind fun _ => .computed _
  | binary _ op left right =>
      have hright := watched_appends right
      refine (watched_appends left).bind fun v => ?_
      cases op with
      | andAlso => exact (Appends.given _).bind fun _ => .ite hright (.computed _)
      | orElse => exact (Appends.given _).bind fun _ => .ite (.computed _) hright
      | _ => exact hright.bind fun _ => .computed _
  | unary _ op operand => exact (watched_appends operand).bind fun _ => .computed _
  | slice _ base terms | index _ base terms =>
      refine (watched_appends base).bind fun v => ?_
      cases v with
      | bits b => exact (watchedTerms_appends b .nil terms).bind fun _ => .computed _
      | _ => exact .throw _
  | conditional _ test yes no =>
      refine (watched_appends test).bind fun _ => (Appends.given _).bind fun _ => .ite ?_ ?_
      · exact watched_appends yes
      · exact watched_appends no
  | member _ base field => exact (watched_appends base).bind fun _ => .computed _
termination_by structural e

theorem watchedAll_appends (es : List (Expr α)) : (watchedAll es).Appends := by
  cases es with
  | nil => exact .pure []
  | cons e es =>
      exact (watched_appends e).bind fun _ => (watchedAll_appends es).bind fun _ => .pure _
termination_by structural es

theorem watchedTerms_appends (b selected : Bits) (terms : List (SliceTerm (Expr α))) :
    (watchedTerms b selected terms).Appends := by
  cases terms with
  | nil => exact .pure selected
  | cons term terms =>
      cases term with
      | single position =>
          refine (watched_appends position).bind fun _ => (Appends.given _).bind fun _ => ?_
          exact (Appends.select _ _ _ _).bind fun selected => watchedTerms_appends b selected terms
      | range high low =>
          refine (watched_appends high).bind fun _ => (Appends.given _).bind fun _ => ?_
          refine (watched_appends low).bind fun _ => (Appends.given _).bind fun _ => ?_
          exact (Appends.selectRange _ _ _ _).bind fun selected =>
            watchedTerms_appends b selected terms
termination_by structural terms

end

/-! ### Tests -/

theorem watchedTruth_appends (e : Expr α) (place : Place) : (e.watchedTruth place).Appends :=
  e.watched_appends.bind fun _ => .given _

theorem watchedInteger_appends (e : Expr α) (place : Place) : (e.watchedInteger place).Appends :=
  e.watched_appends.bind fun _ => .given _

theorem watchedEqualTo_appends (pattern : Expr α) (selector : Value) :
    (pattern.watchedEqualTo selector).Appends :=
  pattern.watched_appends.bind fun _ => .ite (.computedAs _ _) (.throw _)

theorem watchedAnyEqualTo_appends (selector : Value) (patterns : List (Expr α)) :
    (watchedAnyEqualTo selector patterns).Appends := by
  induction patterns with
  | nil => exact .pure false
  | cons pattern patterns ih =>
      exact (watchedEqualTo_appends pattern selector).bind fun _ => .ite (.pure true) ih

end Expr

namespace Stmt

variable (limit : Nat)

mutual

theorem watched_appends (s : Stmt α) : (s.watched limit).Appends := by
  cases s with
  | assign _ target e =>
      exact e.watched_appends.bind fun _ => (Appends.unrecorded _).bind fun _ => .pure _
  | expr _ e | assertion _ e => exact e.watched_appends.bind fun _ => .pure _
  | declaration | undefined | unpredictable | prose | enumeration => exact .pure _
  | giveBack | malformed => exact .throw _
  | branch _ test body elsifs otherwise =>
      refine (test.watchedTruth_appends .ifTest).bind fun _ => .ite (watched_appends body) ?_
      exact watchedElsifs_appends (watchedElse_appends otherwise) elsifs
  | repeatUntil _ body test =>
      exact .repeatLoop (watched_appends body) (test.watchedTruth_appends .untilTest) limit limit
  | whileDo _ test body =>
      exact .whileLoop (test.watchedTruth_appends .whileTest) (watched_appends body) limit limit
  | forTo _ var first last body =>
      refine (first.watchedInteger_appends .loopBound).bind fun a => ?_
      refine (last.watchedInteger_appends .loopBound).bind fun b => ?_
      exact .forLoop var b.toInt (watched_appends body) limit limit a.toInt
  | caseOf _ selector arms otherwise =>
      refine selector.watched_appends.bind fun v => ?_
      exact watchedArms_appends v (watchedElse_appends otherwise) arms
  | block _ body => exact watchedAll_appends body
termination_by structural s

theorem watchedAll_appends (ss : List (Stmt α)) : (watchedAll limit ss).Appends := by
  cases ss with
  | nil => exact .pure _
  | cons s rest => exact .andThen (watched_appends s) (watchedAll_appends rest)
termination_by structural ss

theorem watchedElse_appends (otherwise : Option (Stmt α)) :
    (watchedElse limit otherwise).Appends := by
  cases otherwise with
  | none => exact .pure _
  | some last => exact watched_appends last
termination_by structural otherwise

theorem watchedElsifs_appends {otherwise : Watched Outcome} (h : otherwise.Appends)
    (elsifs : List (Expr α × Stmt α)) : (watchedElsifs limit otherwise elsifs).Appends := by
  cases elsifs with
  | nil => exact h
  | cons arm rest =>
      refine (arm.1.watchedTruth_appends .elsifTest).bind fun _ => .ite ?_ ?_
      · exact watched_appends arm.2
      · exact watchedElsifs_appends h rest
termination_by structural elsifs

theorem watchedArms_appends (selector : Value) {otherwise : Watched Outcome} (h : otherwise.Appends)
    (arms : List (List (Expr α) × Stmt α)) :
    (watchedArms limit selector otherwise arms).Appends := by
  cases arms with
  | nil => exact h
  | cons arm rest =>
      refine (Expr.watchedAnyEqualTo_appends selector arm.1).bind fun _ => .ite ?_ ?_
      · exact watched_appends arm.2
      · exact watchedArms_appends selector h rest
termination_by structural arms

end

end Stmt

/-! ### What is recorded -/

namespace Watched

/-- Whatever the step gives is in the record that it leaves. -/
def Records (step : Watched Value) : Prop :=
  ∀ w v w', step w = .ok v w' → .value v ∈ w'.events

namespace Records

theorem computed (x : Except EvalError Value) : Records (computed x) := by
  intro w v w' h
  cases x with
  | ok v' =>
      cases h
      exact List.mem_cons_self
  | error e => nomatch h

theorem throw (e : EvalError) : Records (throw e) := by
  intro w v w' h
  nomatch h

theorem bind {step : Watched β} {next : β → Watched Value} (h : ∀ b, Records (next b)) :
    Records (step >>= next) := by
  intro w v w' hrun
  change EStateM.bind step next w = .ok v w' at hrun
  unfold EStateM.bind at hrun
  cases hstep : step w with
  | ok b mid =>
      rw [hstep] at hrun
      exact h b mid v w' hrun
  | error e mid =>
      rw [hstep] at hrun
      nomatch hrun

theorem ite {p : Prop} [Decidable p] {yes no : Watched Value} (hyes : Records yes)
    (hno : Records no) : Records (if p then yes else no) := by
  by_cases h : p
  · rw [if_pos h]
    exact hyes
  · rw [if_neg h]
    exact hno

theorem lookup (id : String) : Records (lookup id) :=
  fun w => computed (w.env.lookup id) w

theorem zeroExtended (b : Bits) (n : Int64) : Records (zeroExtended b n) :=
  ite (bind fun _ => computed _) (throw _)

theorem apply (f : Builtin) (args : List Value) : Records (apply f args) := by
  unfold Watched.apply
  split
  · exact bind fun b => bind fun n => zeroExtended b n
  · exact computed _

theorem applyTo (callee : String) (args : List Value) (v : Value) :
    Records (applyTo callee args v) := by
  cases v with
  | func f => exact apply f args
  | _ => exact throw _

end Records

end Watched

/-- Every value that an expression evaluates to is in the record. -/
theorem Expr.watched_records (e : Expr α) : e.watched.Records := by
  cases e with
  | int | bitString => exact .computed _
  | name info id => exact .lookup id
  | real | declare | blank | malformed => exact .throw _
  | unknown info type =>
      cases type with
      | none => exact .throw _
      | some type =>
          cases type with
          | bits width => exact .bind fun _ => .bind fun _ => .computed _
          | bit => exact .computed _
          | _ => exact .throw _
  | call info callee args => exact .bind fun args => .bind fun v => .applyTo callee args v
  | tuple info items =>
      match items with
      | [] => exact .bind fun vs => .computed _
      | [item] => exact item.watched_records
      | first :: second :: rest => exact .bind fun vs => .computed _
  | binary info op left right =>
      refine .bind fun v => ?_
      cases op with
      | andAlso => exact .bind fun holds => .ite right.watched_records (.computed _)
      | orElse => exact .bind fun holds => .ite (.computed _) right.watched_records
      | _ => exact .bind fun w => .computed _
  | unary info op operand => exact .bind fun v => .computed _
  | slice info base terms | index info base terms =>
      refine .bind fun v => ?_
      cases v with
      | bits b => exact .bind fun selected => .computed _
      | _ => exact .throw _
  | conditional info test yes no =>
      exact .bind fun v => .bind fun holds => .ite yes.watched_records no.watched_records
  | member info base field => exact .bind fun v => .computed _

end ArmPseudocode

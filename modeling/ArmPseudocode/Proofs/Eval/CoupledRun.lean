import ArmPseudocode.Proofs.Eval.Coupling
import ArmPseudocode.Proofs.Eval.Names

/-!
# Programs under a coupling

Whatever a coupling asks of environments, a whole program keeps: expressions whose names it knows
have the same values, statements end alike, and so does the run. The induction follows the syntax
tree; every construct adds only which parts it evaluates and in what order, and the loops bring in
the iterations that the second run has to spare.
-/

namespace ArmPseudocode

variable {α : Type} {c : Coupling} {env env' : Environment}

namespace Expr

/-! ### Expressions -/

mutual

theorem eval_follows (henv : c.Related env env') (e : Expr α)
    (hknown : ∀ id ∈ e.names, c.Known id) :
    Follows c.Excused (e.eval env) (e.eval env') := by
  cases e with
  | int _ n => exact .same _
  | real _ numeral => exact .same _
  | bitString _ digits => exact .same _
  | name _ id =>
      simp only [eval]
      exact c.lookup henv (hknown id (by simp [names]))
  | declare _ type id => exact .same _
  | unknown _ type =>
      cases type with
      | none => exact .same _
      | some type =>
          cases type with
          | bits width =>
              simp only [eval]
              exact (eval_follows henv width hknown).bind fun v => .same _
          | _ => exact .same _
  | call _ callee args =>
      simp only [names, List.forall_mem_cons] at hknown
      simp only [eval]
      refine (evalAll_follows henv args hknown.2).bind fun vs => ?_
      exact (c.lookup henv hknown.1).bind fun v => .same _
  | tuple _ items =>
      simp only [names] at hknown
      match items with
      | [item] =>
          simp only [namesAll, List.append_nil] at hknown
          simp only [eval]
          exact eval_follows henv item hknown
      | [] => exact .same _
      | first :: second :: rest =>
          simp only [eval]
          exact (evalAll_follows henv (first :: second :: rest) hknown).map _
  | blank _ => exact .same _
  | binary _ op left right =>
      simp only [names, List.forall_mem_append] at hknown
      have hleft := eval_follows henv left hknown.1
      have hright := eval_follows henv right hknown.2
      simp only [eval]
      refine hleft.bind fun v => ?_
      cases op with
      | andAlso => exact (Follows.same _).bind fun b => .ite hright (.same _)
      | orElse => exact (Follows.same _).bind fun b => .ite (.same _) hright
      | _ => exact hright.bind fun w => .same _
  | unary _ op operand =>
      simp only [eval]
      exact (eval_follows henv operand hknown).bind fun v => .same _
  | slice _ base terms =>
      simp only [names, List.forall_mem_append] at hknown
      simp only [eval]
      refine (eval_follows henv base hknown.1).bind fun v => ?_
      cases v with
      | bits b => exact (evalTerms_follows henv b .nil terms hknown.2).map _
      | _ => exact .same _
  | index _ base terms =>
      simp only [names, List.forall_mem_append] at hknown
      simp only [eval]
      refine (eval_follows henv base hknown.1).bind fun v => ?_
      cases v with
      | bits b => exact (evalTerms_follows henv b .nil terms hknown.2).map _
      | _ => exact .same _
  | conditional _ test yes no =>
      simp only [names, List.forall_mem_append] at hknown
      obtain ⟨⟨htest, hyes⟩, hno⟩ := hknown
      simp only [eval]
      refine (eval_follows henv test htest).bind fun v => (Follows.same _).bind fun b => ?_
      exact .ite (eval_follows henv yes hyes) (eval_follows henv no hno)
  | member _ base field =>
      simp only [eval]
      exact (eval_follows henv base hknown).bind fun v => .same _
  | malformed _ => exact .same _
termination_by structural e

theorem evalAll_follows (henv : c.Related env env') (es : List (Expr α))
    (hknown : ∀ id ∈ namesAll es, c.Known id) :
    Follows c.Excused (evalAll env es) (evalAll env' es) := by
  cases es with
  | nil => exact .same _
  | cons e es =>
      simp only [namesAll, List.forall_mem_append] at hknown
      simp only [evalAll]
      refine (eval_follows henv e hknown.1).bind fun v => ?_
      exact (evalAll_follows henv es hknown.2).bind fun vs => .same _
termination_by structural es

theorem evalTerms_follows (henv : c.Related env env') (b selected : Bits)
    (terms : List (SliceTerm (Expr α))) (hknown : ∀ id ∈ namesTerms terms, c.Known id) :
    Follows c.Excused (evalTerms env b selected terms) (evalTerms env' b selected terms) := by
  cases terms with
  | nil => exact .same _
  | cons term terms =>
      cases term with
      | single position =>
          simp only [namesTerms, List.forall_mem_append] at hknown
          simp only [evalTerms]
          obtain ⟨hposition, hrest⟩ := hknown
          refine (eval_follows henv position hposition).bind fun v => ?_
          refine (Follows.same _).bind fun i => (Follows.same _).bind fun selected => ?_
          exact evalTerms_follows henv b selected terms hrest
      | range high low =>
          simp only [namesTerms, List.forall_mem_append] at hknown
          obtain ⟨⟨hhigh, hlow⟩, hrest⟩ := hknown
          simp only [evalTerms]
          refine (eval_follows henv high hhigh).bind fun v => (Follows.same _).bind fun high => ?_
          refine (eval_follows henv low hlow).bind fun w => (Follows.same _).bind fun low => ?_
          refine (Follows.same _).bind fun selected => ?_
          exact evalTerms_follows henv b selected terms hrest
termination_by structural terms

end

theorem anyEqualTo_follows (henv : c.Related env env') (selector : Value) (patterns : List (Expr α))
    (hknown : ∀ id ∈ namesAll patterns, c.Known id) :
    Follows c.Excused (anyEqualTo selector env patterns) (anyEqualTo selector env' patterns) := by
  induction patterns with
  | nil => exact .same _
  | cons pattern patterns ih =>
      simp only [namesAll, List.forall_mem_append] at hknown
      have hequal : Follows c.Excused (pattern.isEqualTo selector env)
          (pattern.isEqualTo selector env') :=
        (eval_follows henv pattern hknown.1).bind fun v => .same _
      exact hequal.bind fun same => .ite (.same _) (ih hknown.2)

/-! ### What statements do with expressions -/

theorem value_coupled (e : Expr α) (hknown : ∀ id ∈ e.names, c.Known id) :
    c.Coupled e.value e.value :=
  .reading fun _ _ henv => eval_follows henv e hknown

theorem truth_coupled (e : Expr α) (place : Place) (hknown : ∀ id ∈ e.names, c.Known id) :
    c.Coupled (e.truth place) (e.truth place) :=
  .reading fun _ _ henv => (eval_follows henv e hknown).bind fun _ => .same _

theorem integer_coupled (e : Expr α) (place : Place) (hknown : ∀ id ∈ e.names, c.Known id) :
    c.Coupled (e.integer place) (e.integer place) :=
  .reading fun _ _ henv => (eval_follows henv e hknown).bind fun _ => .same _

mutual

/-- An assignment looks no name up: it only binds. -/
theorem assign_coupled (target : Expr α) (v : Value) :
    c.Coupled (target.assign v) (target.assign v) := by
  cases target with
  | name _ id => exact .bindName id v
  | declare _ _ id => exact .bindName id v
  | tuple _ slots =>
      match slots with
      | [slot] =>
          simp only [assign]
          exact assign_coupled slot v
      | [] =>
          cases v with
          | tuple vs => exact .ite (assignAll_coupled [] vs) (.throw _)
          | _ => exact .throw _
      | first :: second :: rest =>
          cases v with
          | tuple vs => exact .ite (assignAll_coupled (first :: second :: rest) vs) (.throw _)
          | _ => exact .throw _
  | _ => exact .throw _
termination_by structural target

theorem assignAll_coupled (slots : List (Expr α)) (vs : List Value) :
    c.Coupled (assignAll slots vs) (assignAll slots vs) := by
  cases slots with
  | nil => exact .pure _
  | cons slot slots =>
      cases vs with
      | nil => exact .pure _
      | cons v vs =>
          simp only [assignAll]
          have hrest := assignAll_coupled slots vs
          exact .ite ((assign_coupled slot v).bind fun _ => hrest) hrest
termination_by structural slots

end

end Expr

namespace Stmt

/-! ### Statements -/

variable (limit : Nat)

mutual

theorem exec_coupled (s : Stmt α) (hknown : ∀ id ∈ s.names, c.Known id) :
    c.Coupled (s.exec limit) (s.exec (limit + c.extra)) := by
  cases s with
  | assign _ target e =>
      simp only [names, List.forall_mem_append] at hknown
      simp only [exec]
      refine (e.value_coupled hknown.2).bind fun v => ?_
      exact (target.assign_coupled v).bind fun _ => .pure _
  | expr _ e =>
      simp only [exec]
      exact (e.value_coupled hknown).bind fun _ => .pure _
  | declaration _ e => exact .pure _
  | giveBack _ values => exact .throw _
  | undefined _ => exact .pure _
  | unpredictable _ => exact .pure _
  | prose _ word about => exact .pure _
  | branch _ test body elsifs otherwise =>
      simp only [names, List.forall_mem_append] at hknown
      obtain ⟨⟨⟨htest, hbody⟩, helsifs⟩, hotherwise⟩ := hknown
      simp only [exec]
      have helse := execElse_coupled otherwise hotherwise
      refine (test.truth_coupled .ifTest htest).bind fun holds => .ite ?_ ?_
      · exact exec_coupled body hbody
      · exact execElsifs_coupled helse elsifs helsifs
  | repeatUntil _ body test =>
      simp only [names, List.forall_mem_append] at hknown
      simp only [exec]
      exact .repeatLoop (exec_coupled body hknown.1) (test.truth_coupled _ hknown.2) limit limit
  | whileDo _ test body =>
      simp only [names, List.forall_mem_append] at hknown
      simp only [exec]
      exact .whileLoop (test.truth_coupled _ hknown.1) (exec_coupled body hknown.2) limit limit
  | forTo _ var first last body =>
      simp only [names, List.forall_mem_append] at hknown
      obtain ⟨⟨hfirst, hlast⟩, hbody⟩ := hknown
      simp only [exec]
      refine (first.integer_coupled _ hfirst).bind fun first => ?_
      refine (last.integer_coupled _ hlast).bind fun last => ?_
      exact .forLoop var last.toInt (exec_coupled body hbody) limit limit first.toInt
  | caseOf _ selector arms otherwise =>
      simp only [names, List.forall_mem_append] at hknown
      obtain ⟨⟨hselector, harms⟩, hotherwise⟩ := hknown
      simp only [exec]
      have helse := execElse_coupled otherwise hotherwise
      exact (selector.value_coupled hselector).bind fun v => execArms_coupled v helse arms harms
  | block _ body =>
      simp only [exec]
      exact execAll_coupled body hknown
  | assertion _ e =>
      simp only [exec]
      exact (e.value_coupled hknown).bind fun _ => .pure _
  | enumeration _ id values => exact .pure _
  | malformed _ => exact .throw _
termination_by structural s

theorem execAll_coupled (ss : List (Stmt α)) (hknown : ∀ id ∈ namesAll ss, c.Known id) :
    c.Coupled (execAll limit ss) (execAll (limit + c.extra) ss) := by
  cases ss with
  | nil => exact .pure _
  | cons s rest =>
      simp only [namesAll, List.forall_mem_append] at hknown
      simp only [execAll]
      exact .andThen (exec_coupled s hknown.1) (execAll_coupled rest hknown.2)
termination_by structural ss

theorem execElse_coupled (otherwise : Option (Stmt α))
    (hknown : ∀ id ∈ namesElse otherwise, c.Known id) :
    c.Coupled (execElse limit otherwise) (execElse (limit + c.extra) otherwise) := by
  cases otherwise with
  | none => exact .pure _
  | some last =>
      simp only [execElse]
      exact exec_coupled last hknown
termination_by structural otherwise

theorem execElsifs_coupled {otherwise otherwise' : Action Outcome}
    (hotherwise : c.Coupled otherwise otherwise') (elsifs : List (Expr α × Stmt α))
    (hknown : ∀ id ∈ namesElsifs elsifs, c.Known id) :
    c.Coupled (execElsifs limit otherwise elsifs)
      (execElsifs (limit + c.extra) otherwise' elsifs) := by
  cases elsifs with
  | nil =>
      simp only [execElsifs]
      exact hotherwise
  | cons guarded rest =>
      obtain ⟨test, body⟩ := guarded
      simp only [namesElsifs, List.forall_mem_append] at hknown
      obtain ⟨⟨htest, hbody⟩, hrest⟩ := hknown
      simp only [execElsifs]
      refine (test.truth_coupled .elsifTest htest).bind fun holds => .ite ?_ ?_
      · exact exec_coupled body hbody
      · exact execElsifs_coupled hotherwise rest hrest
termination_by structural elsifs

theorem execArms_coupled (selector : Value) {otherwise otherwise' : Action Outcome}
    (hotherwise : c.Coupled otherwise otherwise') (arms : List (List (Expr α) × Stmt α))
    (hknown : ∀ id ∈ namesArms arms, c.Known id) :
    c.Coupled (execArms limit selector otherwise arms)
      (execArms (limit + c.extra) selector otherwise' arms) := by
  cases arms with
  | nil =>
      simp only [execArms]
      exact hotherwise
  | cons arm rest =>
      obtain ⟨patterns, body⟩ := arm
      simp only [namesArms, List.forall_mem_append] at hknown
      obtain ⟨⟨hpatterns, hbody⟩, hrest⟩ := hknown
      simp only [execArms]
      have hmatch : c.Coupled (.reading (Expr.anyEqualTo selector · patterns))
          (.reading (Expr.anyEqualTo selector · patterns)) :=
        .reading fun _ _ henv => Expr.anyEqualTo_follows henv selector patterns hpatterns
      refine hmatch.bind fun holds => .ite ?_ ?_
      · exact exec_coupled body hbody
      · exact execArms_coupled selector hotherwise rest hrest
termination_by structural arms

end

end Stmt

/-! ### Programs -/

/-- A program under a coupling that knows its names: run from related environments, with the loops
of the second run allowed as many iterations more as the coupling says, it ends alike. -/
theorem Program.run_coupled (c : Coupling) (p : Program α) (hknown : ∀ id ∈ p.names, c.Known id)
    (config config' : EvalConfig)
    (hlimit : config'.maxIterations = config.maxIterations + c.extra) :
    c.Coupled (p.run config) (p.run config') := by
  unfold run
  rw [hlimit]
  exact Stmt.execAll_coupled config.maxIterations p.body hknown

end ArmPseudocode

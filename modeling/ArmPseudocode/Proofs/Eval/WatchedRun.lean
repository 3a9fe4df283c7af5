import ArmPseudocode.Proofs.Eval.WatchedSteps
import ArmPseudocode.Proofs.Syntax.Everywhere
import ArmPseudocode.Proofs.Syntax.Walk

/-!
# Watched programs

A program without empty tuples, run under watch from a well-formed environment, does nothing unsound
and is not changed by the watch. An empty tuple is the one expression that has a value which is not
well-formed. The induction follows the syntax tree: every form evaluates its parts under watch,
which gives well-formed values, and hands them to an operation that needs no more than that.
-/

namespace ArmPseudocode

open Watched (Mirrors Tracks)

variable {α : Type} {env : Environment}

namespace Expr

/-! ### Expressions -/

mutual

theorem watched_mirrors (henv : env.WellFormed) (e : Expr α)
    (hfilled : e.Filled) :
    Mirrors Value.WellFormed env e.watched (e.eval env) := by
  cases e with
  | int _ n => exact .computed (.ok (.int n))
  | real _ numeral => exact .throw _
  | bitString _ digits =>
      exact .computed (Value.wellFormed_bits (Bits.wellFormed_ofDigits _))
  | name _ id => exact .lookup henv id
  | declare _ type id => exact .throw _
  | unknown _ type =>
      cases type with
      | none => exact .throw _
      | some type =>
          cases type with
          | bits width =>
              simp only [Filled, walk, TypeExpr.walk, List.forall_mem_cons] at hfilled
              simp only [watched, eval]
              refine (watched_mirrors henv width hfilled.2).bind fun v _ => ?_
              refine (Mirrors.given (.trivial _)).bind fun n _ => ?_
              exact .computed (Value.wellFormed_unknownBits n)
          | bit => exact .computed (Value.wellFormed_bits (Bits.wellFormed_ofPayload _ _ _))
          | _ => exact .throw _
  | call _ callee args =>
      simp only [Filled, walk, List.forall_mem_cons] at hfilled
      simp only [watched, eval]
      refine (watchedAll_mirrors henv args hfilled.2).bind fun vs hvs => ?_
      refine (Mirrors.lookup henv callee).bind fun v _ => ?_
      exact .applyTo callee hvs.2 v
  | tuple _ items =>
      simp only [Filled, walk, List.forall_mem_cons] at hfilled
      match items with
      | [] => nomatch hfilled.1
      | [item] =>
          simp only [walkEach, List.append_nil] at hfilled
          simp only [watched, eval]
          exact watched_mirrors henv item hfilled.2
      | first :: second :: rest =>
          simp only [watched, eval]
          refine (watchedAll_mirrors henv (first :: second :: rest) hfilled.2).map fun vs hvs => ?_
          have hlength : 2 ≤ vs.length := by
            rw [hvs.1, List.length_cons, List.length_cons]
            omega
          exact .computed (.ok (.tuple hlength hvs.2))
  | blank _ => exact .throw _
  | binary _ op left right =>
      simp only [Filled, walk, List.forall_mem_cons, List.forall_mem_append] at hfilled
      have hleft := watched_mirrors henv left hfilled.2.1
      have hright := watched_mirrors henv right hfilled.2.2
      simp only [watched, eval]
      refine hleft.bind fun v hv => ?_
      cases op with
      | andAlso =>
          refine (Mirrors.given (.trivial _)).bind fun holds _ => .ite (fun _ => hright) fun _ => ?_
          exact .computed (.ok (.bool false))
      | orElse =>
          refine (Mirrors.given (.trivial _)).bind fun holds _ => .ite (fun _ => ?_) fun _ => hright
          exact .computed (.ok (.bool true))
      | _ => exact hright.bind fun w hw => .computed (Value.wellFormed_binary _ hv hw)
  | unary _ op operand =>
      simp only [Filled, walk, List.forall_mem_cons] at hfilled
      simp only [watched, eval]
      refine (watched_mirrors henv operand hfilled.2).bind fun v _ => ?_
      exact .computed (Value.wellFormed_unary op v)
  | slice _ base terms | index _ base terms =>
      simp only [Filled, walk, List.forall_mem_cons, List.forall_mem_append] at hfilled
      simp only [watched, eval]
      refine (watched_mirrors henv base hfilled.2.1).bind fun v hv => ?_
      cases hv with
      | bits hb =>
          have hterms := watchedTerms_mirrors henv hb Bits.wellFormed_nil terms hfilled.2.2
          exact hterms.map fun selected hselected => .computed (.ok (.bits hselected))
      | _ => exact .throw _
  | conditional _ test yes no =>
      simp only [Filled, walk, List.forall_mem_cons, List.forall_mem_append] at hfilled
      obtain ⟨-, ⟨htest, hyes⟩, hno⟩ := hfilled
      simp only [watched, eval]
      refine (watched_mirrors henv test htest).bind fun v _ => ?_
      refine (Mirrors.given (.trivial _)).bind fun holds _ => .ite (fun _ => ?_) fun _ => ?_
      · exact watched_mirrors henv yes hyes
      · exact watched_mirrors henv no hno
  | member _ base field =>
      simp only [Filled, walk, List.forall_mem_cons] at hfilled
      simp only [watched, eval]
      refine (watched_mirrors henv base hfilled.2).bind fun v _ => ?_
      exact .computed (Value.wellFormed_member field v)
  | malformed _ => exact .throw _
termination_by structural e

theorem watchedAll_mirrors (henv : env.WellFormed) (es : List (Expr α))
    (hfilled : ∀ part ∈ walkEach es, part.isEmptyTuple = false) :
    Mirrors (fun vs => vs.length = es.length ∧ ∀ v ∈ vs, v.WellFormed) env (watchedAll es)
      (evalAll env es) := by
  cases es with
  | nil => exact .pure ⟨rfl, by simp⟩
  | cons e es =>
      simp only [walkEach, List.forall_mem_append] at hfilled
      simp only [watchedAll, evalAll]
      refine (watched_mirrors henv e hfilled.1).bind fun v hv => ?_
      refine (watchedAll_mirrors henv es hfilled.2).bind fun vs hvs => ?_
      refine .pure ⟨?_, List.forall_mem_cons.mpr ⟨hv, hvs.2⟩⟩
      rw [List.length_cons, List.length_cons, hvs.1]
termination_by structural es

theorem watchedTerms_mirrors (henv : env.WellFormed) {b selected : Bits} (hb : b.WellFormed)
    (hselected : selected.WellFormed) (terms : List (SliceTerm (Expr α)))
    (hfilled : ∀ part ∈ walkTerms terms, part.isEmptyTuple = false) :
    Mirrors Bits.WellFormed env (watchedTerms b selected terms)
      (evalTerms env b selected terms) := by
  cases terms with
  | nil => exact .pure hselected
  | cons term terms =>
      cases term with
      | single position =>
          simp only [walkTerms, List.forall_mem_append] at hfilled
          simp only [watchedTerms, evalTerms]
          refine (watched_mirrors henv position hfilled.1).bind fun v _ => ?_
          refine (Mirrors.given (.trivial _)).bind fun i _ => ?_
          refine (Mirrors.select hb hselected (Int.le_refl _)).bind fun selected hselected => ?_
          exact watchedTerms_mirrors henv hb hselected terms hfilled.2
      | range high low =>
          simp only [walkTerms, List.forall_mem_append] at hfilled
          obtain ⟨⟨hhigh, hlow⟩, hrest⟩ := hfilled
          simp only [watchedTerms, evalTerms]
          refine (watched_mirrors henv high hhigh).bind fun v _ => ?_
          refine (Mirrors.given (.trivial _)).bind fun high _ => ?_
          refine (watched_mirrors henv low hlow).bind fun w _ => ?_
          refine (Mirrors.given (.trivial _)).bind fun low _ => ?_
          refine (Mirrors.selectRange hb hselected).bind fun selected hselected => ?_
          exact watchedTerms_mirrors henv hb hselected terms hrest
termination_by structural terms

end

theorem watchedEqualTo_mirrors (henv : env.WellFormed) (pattern : Expr α) (selector : Value)
    (hfilled : pattern.Filled) :
    Mirrors (fun _ => True) env (pattern.watchedEqualTo selector)
      (pattern.isEqualTo selector env) := by
  refine (watched_mirrors henv pattern hfilled).bind fun v _ => .ite (fun _ => ?_) fun _ => .throw _
  exact .computedAs (.trivial _) fun _ _ => .bool _

theorem watchedAnyEqualTo_mirrors (henv : env.WellFormed) (selector : Value)
    (patterns : List (Expr α))
    (hfilled : ∀ e ∈ patterns, e.Filled) :
    Mirrors (fun _ => True) env (watchedAnyEqualTo selector patterns)
      (anyEqualTo selector env patterns) := by
  induction patterns with
  | nil => exact .pure True.intro
  | cons pattern patterns ih =>
      obtain ⟨hpattern, hrest⟩ := List.forall_mem_cons.mp hfilled
      refine (watchedEqualTo_mirrors henv pattern selector hpattern).bind fun holds _ => ?_
      exact .ite (fun _ => .pure True.intro) fun _ => ih hrest

variable {e : Expr α}

theorem watched_tracks (hfilled : e.Filled) :
    Tracks Value.WellFormed e.watched e.value :=
  .reading fun _ henv => watched_mirrors henv e hfilled

theorem watchedTruth_tracks (place : Place)
    (hfilled : e.Filled) : Tracks (fun _ => True) (e.watchedTruth place) (e.truth place) :=
  .reading fun _ henv => (watched_mirrors henv e hfilled).bind fun _ _ => .given (.trivial _)

theorem watchedInteger_tracks (place : Place)
    (hfilled : e.Filled) :
    Tracks (fun _ => True) (e.watchedInteger place) (e.integer place) :=
  .reading fun _ henv => (watched_mirrors henv e hfilled).bind fun _ _ => .given (.trivial _)

end Expr

namespace Stmt

/-! ### Statements -/

variable (limit : Nat)

mutual

theorem watched_tracks (s : Stmt α) (hfilled : s.Everywhere Expr.Filled) :
    Tracks (fun _ => True) (s.watched limit) (s.exec limit) := by
  cases s with
  | assign _ target e =>
      obtain ⟨-, hexprs⟩ := (everywhere_of_walk rfl).mp hfilled
      have he := hexprs e (by simp [exprs])
      simp only [watched, exec]
      refine (Expr.watched_tracks he).bind fun v hv => ?_
      exact (Tracks.unrecorded (target.assign_keeps hv)).bind fun _ _ => .pure True.intro
  | expr _ e =>
      obtain ⟨-, hexprs⟩ := (everywhere_of_walk rfl).mp hfilled
      simp only [watched, exec]
      exact (Expr.watched_tracks (hexprs e List.mem_cons_self)).bind fun _ _ => .pure True.intro
  | declaration _ e => exact .pure True.intro
  | giveBack _ values => exact .throw _
  | undefined | unpredictable | prose => exact .pure True.intro
  | branch _ test body elsifs otherwise =>
      obtain ⟨htest, hbody, helsifs, hotherwise⟩ := everywhere_branch.mp hfilled
      simp only [watched, exec]
      have helse := watchedElse_tracks otherwise hotherwise
      refine (Expr.watchedTruth_tracks .ifTest htest).bind fun holds _ => .ite ?_ ?_
      · exact watched_tracks body hbody
      · exact watchedElsifs_tracks helse elsifs helsifs
  | repeatUntil _ body test =>
      obtain ⟨htest, hbody⟩ := everywhere_repeatUntil.mp hfilled
      simp only [watched, exec]
      have hbody := watched_tracks body hbody
      exact .repeatLoop hbody (Expr.watchedTruth_tracks .untilTest htest) limit limit
  | whileDo _ test body =>
      obtain ⟨htest, hbody⟩ := everywhere_whileDo.mp hfilled
      simp only [watched, exec]
      have hbody := watched_tracks body hbody
      exact .whileLoop (Expr.watchedTruth_tracks .whileTest htest) hbody limit limit
  | forTo _ var first last body =>
      obtain ⟨hfirst, hlast, hbody⟩ := everywhere_forTo.mp hfilled
      simp only [watched, exec]
      refine (Expr.watchedInteger_tracks .loopBound hfirst).bind fun first _ => ?_
      refine (Expr.watchedInteger_tracks .loopBound hlast).bind fun last _ => ?_
      exact .forLoop var last.toInt (watched_tracks body hbody) limit limit first.toInt
  | caseOf _ selector arms otherwise =>
      obtain ⟨hselector, harms, hotherwise⟩ := everywhere_caseOf.mp hfilled
      simp only [watched, exec]
      have helse := watchedElse_tracks otherwise hotherwise
      exact (Expr.watched_tracks hselector).bind fun v _ => watchedArms_tracks v helse arms harms
  | block _ body =>
      simp only [watched, exec]
      exact watchedAll_tracks body (everywhere_block.mp hfilled)
  | assertion _ e =>
      obtain ⟨-, hexprs⟩ := (everywhere_of_walk rfl).mp hfilled
      simp only [watched, exec]
      exact (Expr.watched_tracks (hexprs e List.mem_cons_self)).bind fun _ _ => .pure True.intro
  | enumeration _ id values => exact .pure True.intro
  | malformed _ => exact .throw _
termination_by structural s

theorem watchedAll_tracks (ss : List (Stmt α)) (hfilled : ∀ s ∈ ss, s.Everywhere Expr.Filled) :
    Tracks (fun _ => True) (watchedAll limit ss) (execAll limit ss) := by
  cases ss with
  | nil => exact .pure True.intro
  | cons s rest =>
      obtain ⟨hs, hrest⟩ := List.forall_mem_cons.mp hfilled
      simp only [watchedAll, execAll]
      exact .andThen (watched_tracks s hs) (watchedAll_tracks rest hrest)
termination_by structural ss

theorem watchedElse_tracks (otherwise : Option (Stmt α))
    (hfilled : ∀ last ∈ otherwise, last.Everywhere Expr.Filled) :
    Tracks (fun _ => True) (watchedElse limit otherwise) (execElse limit otherwise) := by
  cases otherwise with
  | none => exact .pure True.intro
  | some last =>
      simp only [watchedElse, execElse]
      exact watched_tracks last (hfilled last rfl)
termination_by structural otherwise

theorem watchedElsifs_tracks {otherwise : Watched Outcome} {otherwise' : Action Outcome}
    (hotherwise : Tracks (fun _ => True) otherwise otherwise')
    (elsifs : List (Expr α × Stmt α))
    (hfilled : ∀ arm ∈ elsifs, arm.1.Filled ∧ arm.2.Everywhere Expr.Filled) :
    Tracks (fun _ => True) (watchedElsifs limit otherwise elsifs)
      (execElsifs limit otherwise' elsifs) := by
  cases elsifs with
  | nil =>
      simp only [watchedElsifs, execElsifs]
      exact hotherwise
  | cons guarded rest =>
      obtain ⟨test, body⟩ := guarded
      obtain ⟨⟨htest, hbody⟩, hrest⟩ := List.forall_mem_cons.mp hfilled
      simp only [watchedElsifs, execElsifs]
      refine (Expr.watchedTruth_tracks .elsifTest htest).bind fun holds _ => .ite ?_ ?_
      · exact watched_tracks body hbody
      · exact watchedElsifs_tracks hotherwise rest hrest
termination_by structural elsifs

theorem watchedArms_tracks (selector : Value) {otherwise : Watched Outcome}
    {otherwise' : Action Outcome} (hotherwise : Tracks (fun _ => True) otherwise otherwise')
    (arms : List (List (Expr α) × Stmt α))
    (hfilled : ∀ arm ∈ arms, (∀ e ∈ arm.1, e.Filled) ∧ arm.2.Everywhere Expr.Filled) :
    Tracks (fun _ => True) (watchedArms limit selector otherwise arms)
      (execArms limit selector otherwise' arms) := by
  cases arms with
  | nil =>
      simp only [watchedArms, execArms]
      exact hotherwise
  | cons arm rest =>
      obtain ⟨patterns, body⟩ := arm
      obtain ⟨⟨hpatterns, hbody⟩, hrest⟩ := List.forall_mem_cons.mp hfilled
      simp only [watchedArms, execArms]
      have hmatch : Tracks (fun _ => True) (Expr.watchedAnyEqualTo selector patterns)
          (.reading (Expr.anyEqualTo selector · patterns)) :=
        .reading fun _ henv => Expr.watchedAnyEqualTo_mirrors henv selector patterns hpatterns
      refine hmatch.bind fun holds _ => .ite ?_ ?_
      · exact watched_tracks body hbody
      · exact watchedArms_tracks selector hotherwise rest hrest
termination_by structural arms

end

end Stmt

/-! ### Programs -/

theorem Program.watched_tracks (config : EvalConfig) (p : Program α)
    (hfilled : ∀ s ∈ p.body, s.Everywhere Expr.Filled) :
    Tracks (fun _ => True) (p.watched config) (p.run config) :=
  Stmt.watchedAll_tracks config.maxIterations p.body hfilled

end ArmPseudocode

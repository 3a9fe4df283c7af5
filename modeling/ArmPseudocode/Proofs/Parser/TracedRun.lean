import ArmPseudocode.Proofs.Diagnostic.Queue
import ArmPseudocode.Proofs.Parser.Forward
import ArmPseudocode.Proofs.Parser.Traced

/-!
# What is given up is reported

The traced parser goes the way of the parser, and the reports made on the way are the failures of
the statements given up, one report for each and in their order. A step that fails has not reported
its own failure yet: the list it stands in does that when it gives the statement up.
-/

namespace ArmPseudocode

open EStateM (Result)

variable {β γ : Type} {lines : LineTable}

/-- The second trace is the first after some statements were given up, each with an error that was
reported. -/
def Trace.Grows (lines : LineTable) (before after : Trace) : Prop :=
  ∃ more : List GivenUp, after.givenUp = before.givenUp ++ more ∧
    (∀ g ∈ more, g.failure.isError = true) ∧
    after.state.queue = before.state.queue.reportAll lines (more.map (·.failure))

namespace Trace.Grows

variable {before mid after : Trace}

theorem of_eq {c : Cursor} (before : Trace) :
    Grows lines before ⟨⟨c, before.state.queue⟩, before.givenUp⟩ :=
  ⟨[], (List.append_nil _).symm, List.forall_mem_nil _, rfl⟩

theorem refl (before : Trace) : Grows lines before before := of_eq before

theorem trans (h : Grows lines before mid) (h' : Grows lines mid after) :
    Grows lines before after := by
  obtain ⟨first, hgiven, herrors, hqueue⟩ := h
  obtain ⟨second, hgiven', herrors', hqueue'⟩ := h'
  refine ⟨first ++ second, ?_, List.forall_mem_append.mpr ⟨herrors, herrors'⟩, ?_⟩
  · rw [hgiven', hgiven, List.append_assoc]
  · rw [hqueue', hqueue, List.map_append, DiagnosticQueue.reportAll_append]

theorem giveUp (h : Grows lines before mid) {g : GivenUp} (hg : g.failure.isError = true)
    (c : Cursor) :
    Grows lines before
      ⟨⟨c, mid.state.queue.report lines g.failure⟩, mid.givenUp ++ [g]⟩ :=
  h.trans ⟨[g], rfl, List.forall_mem_singleton.mpr hg, rfl⟩

end Trace.Grows

namespace Traced

inductive Ends (lines : LineTable) (before : Trace) :
    Result Diagnostic Trace β → Result Diagnostic ParserState β → Prop
  | ok (b : β) {after : Trace} (hgrows : before.Grows lines after) :
      Ends lines before (.ok b after) (.ok b after.state)
  | error {d : Diagnostic} {after : Trace} (hd : d.isError = true)
      (hgrows : before.Grows lines after) :
      Ends lines before (.error d after) (.error d after.state)

/-- The traced step ends as the step does. -/
def Follows (lines : LineTable) (traced : Traced β) (step : ParseStmt β) : Prop :=
  ∀ t : Trace, Ends lines t (traced t) (step t.state)

namespace Follows

variable {traced : Traced β} {step : ParseStmt β}

theorem pure (b : β) : Follows lines (Pure.pure b) (Pure.pure b) :=
  fun t => .ok b (.refl t)

theorem throw {d : Diagnostic} (hd : d.isError = true) :
    Follows lines (MonadExcept.throw d : Traced β) (MonadExcept.throw d) :=
  fun t => .error hd (.refl t)

theorem bind {next : β → Traced γ} {next' : β → ParseStmt γ} (h : Follows lines traced step)
    (hnext : ∀ b, Follows lines (next b) (next' b)) :
    Follows lines (traced >>= next) (step >>= next') := by
  intro t
  have hends := h t
  change Ends lines t (EStateM.bind traced next t) (EStateM.bind step next' t.state)
  unfold EStateM.bind
  generalize traced t = r at hends ⊢
  generalize step t.state = r' at hends ⊢
  cases hends with
  | @ok b after hgrows =>
      have hends' := hnext b after
      dsimp only
      generalize next b after = r at hends' ⊢
      generalize next' b after.state = r' at hends' ⊢
      cases hends' with
      | ok d hgrows' => exact .ok d (hgrows.trans hgrows')
      | error hd hgrows' => exact .error hd (hgrows.trans hgrows')
  | error hd hgrows => exact .error hd hgrows

theorem ite {p : Prop} [Decidable p] {yes no : Traced β} {yes' no' : ParseStmt β}
    (hyes : Follows lines yes yes') (hno : Follows lines no no') :
    Follows lines (if p then yes else no) (if p then yes' else no') := by
  by_cases h : p
  · rw [if_pos h, if_pos h]
    exact hyes
  · rw [if_neg h, if_neg h]
    exact hno

theorem unlessLimited {blamed excused : Traced β} {blamed' excused' : ParseStmt β}
    (hblamed : Follows lines blamed blamed') (hexcused : Follows lines excused excused') :
    Follows lines (do if !(← get).state.queue.limitReached then blamed else excused)
      (do if !(← get).queue.limitReached then blamed' else excused') :=
  fun t => ite (p := (!t.state.queue.limitReached) = true) hblamed hexcused t

theorem forward {p : Parse β} (hforward : Parse.Forward p) :
    Follows lines (liftM p : Traced β) (liftM p) := by
  intro t
  change Ends lines t (untraced (ParseStmt.onCursor p) t) (ParseStmt.onCursor p t.state)
  unfold untraced ParseStmt.onCursor
  cases hrun : p t.state.cursor with
  | ok b c => exact .ok b (.of_eq t)
  | error d c => exact .error (hforward.isError _ d c hrun) (.of_eq t)

theorem untraced_bind {step : ParseStmt β} {next : β → ParseStmt γ}
    (h : Follows lines (untraced step) step)
    (hnext : ∀ b, Follows lines (untraced (next b)) (next b)) :
    Follows lines (untraced (step >>= next)) (step >>= next) := by
  have hbind : untraced (step >>= next) = untraced step >>= fun b => untraced (next b) := by
    funext t
    change untraced (EStateM.bind step next) t =
      EStateM.bind (untraced step) (fun b => untraced (next b)) t
    unfold EStateM.bind untraced
    dsimp only
    cases step t.state <;> rfl
  rw [hbind]
  exact h.bind hnext

/-! ### Forms without a body -/

theorem terminal (form : Span → Stmt Span) :
    Follows lines (untraced (ParseStmt.terminal form)) (ParseStmt.terminal form) := by
  refine untraced_bind (forward .advance) fun _ => ?_
  exact untraced_bind (forward (.expect _)) fun _ => .pure form

theorem simple (bound : Nat) :
    Follows lines (untraced (ParseStmt.simple bound)) (ParseStmt.simple bound) := by
  refine untraced_bind (forward (.expr bound)) fun target => ?_
  refine untraced_bind (forward (.eat _)) fun found => ?_
  split
  · refine untraced_bind (forward (.expr bound)) fun value => ?_
    exact untraced_bind (forward (.expect _)) fun _ => .pure _
  · exact untraced_bind (forward (.expect _)) fun _ => .pure _

theorem giveBack (bound : Nat) :
    Follows lines (untraced (ParseStmt.giveBack bound)) (ParseStmt.giveBack bound) := by
  refine untraced_bind (forward .advance) fun _ => ?_
  refine untraced_bind (forward (.isAt _)) fun found => ?_
  split
  · refine untraced_bind (.pure []) fun values => ?_
    exact untraced_bind (forward (.expect _)) fun _ => .pure _
  · refine untraced_bind (forward (Parse.Forward.commaSeparated (.expr bound) bound)) fun _ => ?_
    exact untraced_bind (forward (.expect _)) fun _ => .pure _

theorem assertion (bound : Nat) :
    Follows lines (untraced (ParseStmt.assertion bound)) (ParseStmt.assertion bound) := by
  refine untraced_bind (forward .advance) fun _ => ?_
  refine untraced_bind (forward (.expr bound)) fun e => ?_
  exact untraced_bind (forward (.expect _)) fun _ => .pure _

theorem enumeration (bound : Nat) :
    Follows lines (untraced (ParseStmt.enumeration bound)) (ParseStmt.enumeration bound) := by
  refine untraced_bind (forward .advance) fun _ => ?_
  refine untraced_bind (forward .expectName) fun id => ?_
  refine untraced_bind (forward (.expect _)) fun opened => ?_
  refine untraced_bind (forward (.isAt _)) fun found => ?_
  split
  · refine untraced_bind (.pure []) fun values => ?_
    refine untraced_bind (forward (.close _ _ _)) fun _ => ?_
    exact untraced_bind (forward (.eat _)) fun _ => .pure _
  · refine untraced_bind (forward (Parse.Forward.expectName.commaSeparated bound)) fun _ => ?_
    refine untraced_bind (forward (.close _ _ _)) fun _ => ?_
    exact untraced_bind (forward (.eat _)) fun _ => .pure _

end Follows

/-! ### Lists -/

variable {stmt : Traced (Stmt Span)} {stmt' : ParseStmt (Stmt Span)}

theorem list_follows (hstmt : Follows lines stmt stmt') (ends : TokenKind → Bool) (bound : Nat)
    (t : Trace) :
    (list lines stmt ends bound t).1 = (ParseStmt.list lines stmt' ends bound t.state).1 ∧
      (list lines stmt ends bound t).2.state =
        (ParseStmt.list lines stmt' ends bound t.state).2 ∧
      t.Grows lines (list lines stmt ends bound t).2 := by
  induction bound generalizing t with
  | zero => exact ⟨rfl, rfl, .refl t⟩
  | succ bound ih =>
      have hends := hstmt t
      rw [list, ParseStmt.list]
      split
      · exact ⟨rfl, rfl, .refl t⟩
      · generalize stmt t = r at hends ⊢
        generalize stmt' t.state = r' at hends ⊢
        cases hends with
        | @ok s next hgrows =>
            obtain ⟨hbody, hstate, hgrows'⟩ := ih next
            exact ⟨congrArg (s :: ·) hbody, hstate, hgrows.trans hgrows'⟩
        | @error d failed hd hgrows =>
            have hround := hgrows.giveUp (g := ⟨t.state.cursor.here.span, d⟩) hd
              (ParseStmt.recover t.state.cursor.position failed.state.cursor)
            obtain ⟨hbody, hstate, hgrows'⟩ := ih _
            exact ⟨hbody, hstate, hround.trans hgrows'⟩

theorem statements_follows (hstmt : Follows lines stmt stmt') (ends : TokenKind → Bool)
    (bound : Nat) :
    Follows lines (statements lines stmt ends bound)
      (ParseStmt.statements lines stmt' ends bound) := by
  intro t
  obtain ⟨hbody, hstate, hgrows⟩ := list_follows hstmt ends bound t
  change Ends lines t (.ok (list lines stmt ends bound t).1 (list lines stmt ends bound t).2)
    (.ok (ParseStmt.list lines stmt' ends bound t.state).1
      (ParseStmt.list lines stmt' ends bound t.state).2)
  rw [← hbody, ← hstate]
  exact .ok _ hgrows

/-! ### Forms with a body -/

section Bodies

variable (hstmt : Follows lines stmt stmt')

include hstmt

theorem indentedBlock_follows (bound : Nat) :
    Follows lines (indentedBlock lines stmt bound) (ParseStmt.indentedBlock lines stmt' bound) := by
  refine (Follows.forward (.expectKind _)).bind fun opened => ?_
  refine (statements_follows hstmt _ bound).bind fun body => ?_
  refine (Follows.forward .kind).bind fun found => ?_
  have hend : Follows lines
      (do return .block (← ParseStmt.spanFrom opened) body : Traced (Stmt Span))
      (do return .block (← ParseStmt.spanFrom opened) body) :=
    (Follows.forward (.spanFrom opened)).bind fun _ => .pure _
  refine .ite ((Follows.forward .advance).bind fun _ => hend) (.unlessLimited ?_ hend)
  exact (Follows.forward .span).bind fun _ => (Follows.throw rfl).bind fun _ => hend

theorem body_follows (bound : Nat) :
    Follows lines (body lines stmt bound) (ParseStmt.body lines stmt' bound) :=
  (Follows.forward .kind).bind fun _ => .ite (indentedBlock_follows hstmt bound) hstmt

theorem armBody_follows (bound : Nat) :
    Follows lines (armBody lines stmt bound) (ParseStmt.armBody lines stmt' bound) := by
  refine (Follows.forward .kind).bind fun _ => .ite (indentedBlock_follows hstmt bound) ?_
  refine (Follows.forward .span).bind fun start => ?_
  refine (statements_follows hstmt _ bound).bind fun body => ?_
  exact (Follows.forward (.spanFrom start)).bind fun _ => .pure _

theorem elsifs_follows (size bound : Nat) :
    Follows lines (elsifs lines stmt size bound) (ParseStmt.elsifs lines stmt' size bound) := by
  induction bound with
  | zero => exact .pure []
  | succ bound ih =>
      refine (Follows.forward (.eat _)).bind fun found => .ite ?_ (.pure [])
      refine (Follows.forward (.expr size)).bind fun test => ?_
      refine (Follows.forward (.expect _)).bind fun _ => ?_
      refine (body_follows hstmt size).bind fun first => ?_
      exact ih.bind fun rest => .pure _

theorem branch_follows (bound : Nat) :
    Follows lines (branch lines stmt bound) (ParseStmt.branch lines stmt' bound) := by
  refine (Follows.forward .advance).bind fun _ => ?_
  refine (Follows.forward (.expr bound)).bind fun test => ?_
  refine (Follows.forward (.expect _)).bind fun _ => ?_
  refine (body_follows hstmt bound).bind fun first => ?_
  refine (elsifs_follows hstmt bound bound).bind fun others => ?_
  refine (Follows.forward (.eat _)).bind fun found => .ite ?_ (.pure _)
  exact (body_follows hstmt bound).bind fun last => .pure _

theorem repeatUntil_follows (bound : Nat) :
    Follows lines (repeatUntil lines stmt bound) (ParseStmt.repeatUntil lines stmt' bound) := by
  refine (Follows.forward .advance).bind fun _ => ?_
  refine (body_follows hstmt bound).bind fun inner => ?_
  refine (Follows.forward (.expect _)).bind fun _ => ?_
  refine (Follows.forward (.expr bound)).bind fun test => ?_
  exact (Follows.forward (.expect _)).bind fun _ => .pure _

theorem whileDo_follows (bound : Nat) :
    Follows lines (whileDo lines stmt bound) (ParseStmt.whileDo lines stmt' bound) := by
  refine (Follows.forward .advance).bind fun _ => ?_
  refine (Follows.forward (.expr bound)).bind fun test => ?_
  refine (Follows.forward (.expect _)).bind fun _ => ?_
  exact (body_follows hstmt bound).bind fun inner => .pure _

theorem forTo_follows (bound : Nat) :
    Follows lines (forTo lines stmt bound) (ParseStmt.forTo lines stmt' bound) := by
  refine (Follows.forward .advance).bind fun _ => ?_
  refine (Follows.forward .expectName).bind fun var => ?_
  refine (Follows.forward (.expect _)).bind fun _ => ?_
  refine (Follows.forward (.expr bound)).bind fun first => ?_
  refine (Follows.forward (.expect _)).bind fun _ => ?_
  refine (Follows.forward (.expr bound)).bind fun last => ?_
  refine (Follows.forward (.expect _)).bind fun _ => ?_
  exact (body_follows hstmt bound).bind fun inner => .pure _

theorem arms_follows (opened : Span) (size bound : Nat) (otherwise : Option (Stmt Span)) :
    Follows lines (arms lines stmt opened size bound otherwise)
      (ParseStmt.arms lines stmt' opened size bound otherwise) := by
  have hpatterns : Parse.Forward (Parse.patterns size) :=
    ((Parse.Forward.exprAt_typeAt true size).1 _).commaSeparated size
  induction bound generalizing otherwise with
  | zero => exact .pure _
  | succ bound ih =>
      refine (Follows.forward .kind).bind fun found => ?_
      cases found with
      | fixed word =>
          cases word with
          | kwWhen =>
              refine (Follows.forward .advance).bind fun _ => ?_
              refine (Follows.forward hpatterns).bind fun patterns => ?_
              refine (armBody_follows hstmt size).bind fun first => ?_
              exact (ih otherwise).bind fun rest => .pure _
          | kwOtherwise =>
              refine (Follows.forward .advance).bind fun _ => ?_
              exact (armBody_follows hstmt size).bind fun last => ih (some last)
          | _ => exact .forward (.unexpected _)
      | unindent => exact (Follows.forward .advance).bind fun _ => .pure _
      | eof => exact (Follows.forward .span).bind fun _ => .throw rfl
      | _ => exact .forward (.unexpected _)

theorem caseOf_follows (bound : Nat) :
    Follows lines (caseOf lines stmt bound) (ParseStmt.caseOf lines stmt' bound) := by
  refine (Follows.forward .advance).bind fun _ => ?_
  refine (Follows.forward (.expr bound)).bind fun selector => ?_
  refine (Follows.forward (.expect _)).bind fun _ => ?_
  refine (Follows.forward (.expectKind _)).bind fun opened => ?_
  exact (arms_follows hstmt opened bound bound none).bind fun found => .pure _

theorem form_follows (bound : Nat) :
    Follows lines (form lines stmt bound) (ParseStmt.form lines stmt' bound) := by
  refine (Follows.forward .kind).bind fun found => ?_
  cases found with
  | fixed word =>
      cases word with
      | kwUndefined | kwUnpredictable => exact .terminal _
      | kwReturn => exact .giveBack bound
      | kwIf => exact branch_follows hstmt bound
      | kwRepeat => exact repeatUntil_follows hstmt bound
      | kwWhile => exact whileDo_follows hstmt bound
      | kwFor => exact forTo_follows hstmt bound
      | kwCase => exact caseOf_follows hstmt bound
      | kwAssert => exact .assertion bound
      | kwEnumeration => exact .enumeration bound
      | _ => exact .simple bound
  | prose => exact .terminal _
  | unindent => exact .forward (.unexpected _)
  | _ => exact .simple bound

end Bodies

theorem stmtAt_follows (lines : LineTable) (bound : Nat) :
    Follows lines (stmtAt lines bound) (ParseStmt.stmtAt lines bound) := by
  induction bound with
  | zero => exact .forward (.unexpected _)
  | succ bound ih =>
      refine (Follows.forward .kind).bind fun found => .ite (indentedBlock_follows ih bound) ?_
      refine (Follows.forward .span).bind fun start => ?_
      refine (form_follows ih (bound + 1)).bind fun form => ?_
      exact (Follows.forward (.spanFrom start)).bind fun _ => .pure _

end Traced

namespace TokenStream

variable (lines : LineTable) (q : DiagnosticQueue) (s : TokenStream)

theorem parseTraced_fst : (s.parseTraced lines q).1 = s.parse lines q := by
  obtain ⟨hbody, hstate, -⟩ := Traced.list_follows
    (Traced.stmtAt_follows lines (s.tokens.length + 1)) (fun _ => false) (s.tokens.length + 1)
    ⟨⟨.atStart s, q⟩, []⟩
  dsimp only at hbody hstate
  rw [parse]
  dsimp only
  rw [← hbody, ← hstate]
  rfl

/-- What the parse of a stream reports are the failures of the statements that it gives up. -/
theorem parse_reportAll :
    (∀ g ∈ (s.parseTraced lines q).2, g.failure.isError = true) ∧
      (s.parse lines q).2 = q.reportAll lines ((s.parseTraced lines q).2.map (·.failure)) := by
  obtain ⟨-, -, more, hgiven, herrors, hqueue⟩ := Traced.list_follows
    (Traced.stmtAt_follows lines (s.tokens.length + 1)) (fun _ => false) (s.tokens.length + 1)
    ⟨⟨.atStart s, q⟩, []⟩
  have hmore : (s.parseTraced lines q).2 = more := hgiven
  rw [← parseTraced_fst, hmore]
  exact ⟨herrors, hqueue⟩

end TokenStream

end ArmPseudocode

import ArmPseudocode.Proofs.Parser.Clean
import ArmPseudocode.Proofs.Parser.Recovery
import ArmPseudocode.Proofs.Parser.Spelling

/-!
# What is accepted is spelled

A clean run of the statement parser has read tokens that spell what it yields. Each function is
taken apart into the clean runs it is made of, and what these have read is put together by a rule of
the grammar.
-/

namespace ArmPseudocode.ParseStmt

variable {β : Type} {lines : LineTable} {start c d : Cursor} {stmt : ParseStmt (Stmt Span)}
  {size bound : Nat}

/-- What a clean run of the step has read spells a statement. -/
def Recognizes (size : Nat) (stmt : ParseStmt (Stmt Span)) : Prop :=
  ∀ c s d, c.Terminated → c.kinds.length ≤ size → Clean stmt c s d →
    ∃ ks, c.Passes ks d ∧ Spells ks d.kind (.stmt s.erase)

/-- What was read between the cursors spells a statement of the form. -/
def Recognized (c : Cursor) (form : Span → Stmt Span) (d : Cursor) : Prop :=
  ∃ ks s, c.Passes ks d ∧ Spells ks d.kind (.stmt s) ∧ ∀ span, (form span).erase = s

/-! ### Expressions -/

theorem of_expr {e : Expr Span} (hc : c.Terminated) (hbound : c.kinds.length ≤ bound)
    (h : Parse.expr bound c = .ok e d) :
    c.Passes e.erase.tokens d ∧ e.erase.StandsBefore d.kind := by
  obtain ⟨ks, hpass, hreads⟩ := Parse.steady_expr.readAs hc hbound h
  have htokens := (Parse.expr_reads bound c e d hc h).1
  have hks : ks = e.erase.tokens := by
    rw [Expr.tokens_erase]
    exact List.append_cancel_right (hpass.kinds_eq.symm.trans htokens.kinds_eq)
  rw [hks] at hpass hreads
  exact ⟨hpass, hreads⟩

theorem map_tokens_erase (es : List (Expr Span)) :
    (es.map Expr.erase).map Expr.tokens = es.map Expr.tokens := by
  rw [List.map_map]
  exact List.map_congr_left fun e _ => e.tokens_erase

theorem of_exprs {es : List (Expr Span)} (hc : c.Terminated) (hbound : c.kinds.length ≤ bound)
    (h : Parse.commaSeparated (Parse.expr bound) bound c = .ok es d) :
    c.Passes (commas ((es.map Expr.erase).map Expr.tokens)) d ∧
      Expr.StandBefore (es.map Expr.erase) d.kind := by
  obtain ⟨ks, hpass, hreads⟩ := Parse.steady_exprs.readAs hc hbound h
  have htokens := (Parse.commaSeparated_reads (Parse.expr_reads bound) bound c es d hc h).1
  have hks : ks = commas ((es.map Expr.erase).map Expr.tokens) := by
    rw [map_tokens_erase]
    exact List.append_cancel_right (hpass.kinds_eq.symm.trans htokens.kinds_eq)
  rw [hks] at hpass hreads
  exact ⟨hpass, hreads⟩

theorem of_patterns {es : List (Expr Span)} (hc : c.Terminated) (hbound : c.kinds.length ≤ bound)
    (h : Parse.patterns bound c = .ok es d) :
    c.Passes (commas ((es.map Expr.erase).map Expr.tokens)) d ∧
      Expr.StandAsPatterns (es.map Expr.erase) d.kind := by
  obtain ⟨ks, hpass, hreads⟩ := Parse.steady_patterns.readAs hc hbound h
  have htokens := (Parse.patterns_reads bound c es d hc h).1
  have hks : ks = commas ((es.map Expr.erase).map Expr.tokens) := by
    rw [map_tokens_erase]
    exact List.append_cancel_right (hpass.kinds_eq.symm.trans htokens.kinds_eq)
  rw [hks] at hpass hreads
  exact ⟨hpass, hreads⟩

theorem head?_tokens {e : Expr Span} (hc : c.Terminated) (h : Parse.expr bound c = .ok e d) :
    e.erase.tokens.head? = some c.kind := by
  obtain ⟨hpass, he⟩ := Parse.expr_reads bound c e d hc h
  obtain ⟨k, rest, htokens, -⟩ := Expr.tokens_eq_cons he
  have hkinds := hpass.kinds_eq
  rw [htokens] at hkinds
  rw [Expr.tokens_erase, htokens, Cursor.kind_eq_of_kinds hkinds, List.head?_cons]

/-! ### Statements without a body -/

theorem terminal_recognized {form : Span → Stmt Span} {s : Stmt Unit} {k : TokenKind}
    {made : Span → Stmt Span} (hplain : s.Plain) (hform : ∀ span, (form span).erase = s)
    (htokens : s.tokens = [k, .fixed .semicolon]) (hc : c.Terminated) (hkind : c.kind = k)
    (hk : k ≠ .eof) (h : Clean (terminal form) c made d) : Recognized c made d := by
  rw [terminal] at h
  obtain ⟨_, c₂, hsemicolon, h⟩ := h.advancing.of_lift_bind
  obtain ⟨rfl, rfl⟩ := h.of_pure
  have hpass := Cursor.passes_advance hc (hkind ▸ hk)
  have hpass₁ := Parse.of_expect (hpass.terminated hc) hsemicolon
  refine ⟨s.tokens, s, ?_, .plain hplain, hform⟩
  rw [htokens, ← hkind]
  exact hpass.trans hpass₁

theorem simple_recognized {form : Span → Stmt Span} (hc : c.Terminated)
    (hbound : c.kinds.length ≤ bound) (hkind : c.kind ≠ .fixed .kwIf)
    (h : Clean (simple bound) c form d) : Recognized c form d := by
  rw [simple] at h
  obtain ⟨target, c₁, htarget, h⟩ := h.of_lift_bind
  have hstart : target.erase.tokens.head? ≠ some (.fixed .kwIf) := by
    rw [head?_tokens hc htarget]
    exact fun heq => hkind (Option.some.inj heq)
  obtain ⟨hpass, hbefore⟩ := of_expr hc hbound htarget
  have hc₁ := hpass.terminated hc
  have hlength := hpass.length
  obtain ⟨found, c₂, hassign, h⟩ := h.of_lift_bind
  cases found with
  | true =>
      have hpass₁ := Parse.of_eat_true hc₁ hassign
      have hc₂ := hpass₁.terminated hc₁
      have hlength₁ := hpass₁.length
      obtain ⟨value, c₃, hvalue, h⟩ := h.of_lift_bind
      obtain ⟨hpass₂, hbefore₂⟩ := of_expr hc₂ (by omega) hvalue
      obtain ⟨_, c₄, hsemicolon, h⟩ := h.of_lift_bind
      obtain ⟨rfl, rfl⟩ := h.of_pure
      have hpass₃ := Parse.of_expect (hpass₂.terminated hc₂) hsemicolon
      rw [Cursor.kind_eq_of_kinds hpass₁.kinds_eq] at hbefore
      rw [Cursor.kind_eq_of_kinds hpass₃.kinds_eq] at hbefore₂
      exact ⟨_, _, hpass.trans (hpass₁.trans (hpass₂.trans hpass₃)),
        .plain (.assign hbefore hstart hbefore₂), fun _ => rfl⟩
  | false =>
      obtain ⟨rfl, -⟩ := Parse.of_eat_false hassign
      obtain ⟨_, c₃, hsemicolon, h⟩ := h.of_lift_bind
      obtain ⟨rfl, rfl⟩ := h.of_pure
      have hpass₁ := Parse.of_expect hc₁ hsemicolon
      rw [Cursor.kind_eq_of_kinds hpass₁.kinds_eq] at hbefore
      cases hdeclares : target.isDeclaration with
      | true =>
          refine ⟨_, .declaration () target.erase, hpass.trans hpass₁,
            .plain (.declaration hbefore hstart ?_), fun _ => rfl⟩
          rw [Expr.isDeclaration_erase, hdeclares]
      | false =>
          refine ⟨_, .expr () target.erase, hpass.trans hpass₁,
            .plain (.expr hbefore hstart ?_), fun _ => rfl⟩
          rw [Expr.isDeclaration_erase, hdeclares]

theorem giveBack_recognized {form : Span → Stmt Span} (hc : c.Terminated)
    (hbound : c.kinds.length ≤ bound) (hkind : c.kind = .fixed .kwReturn)
    (h : Clean (giveBack bound) c form d) : Recognized c form d := by
  rw [giveBack] at h
  obtain ⟨hpass, hlength⟩ := Cursor.passes_word hc hkind
  have hc₁ := hpass.terminated hc
  obtain ⟨none, c₁, hisAt, h⟩ := h.advancing.of_lift_bind
  rw [Parse.isAt_run] at hisAt
  cases hisAt
  have hend : ∀ (values : List (Expr Span)) {c₂ : Cursor},
      c.advance.Passes (commas ((values.map Expr.erase).map Expr.tokens)) c₂ →
      (values.map Expr.erase ≠ [] → Expr.StandBefore (values.map Expr.erase) c₂.kind) →
      Clean (do
        let _ ← Parse.expect .semicolon
        return (.giveBack · values) : ParseStmt (Span → Stmt Span)) c₂ form d →
      Recognized c form d := by
    intro values c₂ hpass₁ hbefore h
    obtain ⟨_, c₃, hsemicolon, h⟩ := h.of_lift_bind
    obtain ⟨rfl, rfl⟩ := h.of_pure
    have hpass₂ := Parse.of_expect (hpass₁.terminated hc₁) hsemicolon
    rw [hpass₂.kind_eq] at hbefore
    exact ⟨_, _, hpass.trans (hpass₁.trans hpass₂), .plain (.giveBack hbefore), fun _ => rfl⟩
  split at h
  · exact hend [] (.refl _) (absurd rfl) h
  · obtain ⟨values, c₂, hvalues, h⟩ := h.of_lift_bind
    obtain ⟨hpass₁, hbefore⟩ := of_exprs hc₁ (by omega) hvalues
    exact hend values hpass₁ (fun _ => hbefore) h

theorem assertion_recognized {form : Span → Stmt Span} (hc : c.Terminated)
    (hbound : c.kinds.length ≤ bound) (hkind : c.kind = .fixed .kwAssert)
    (h : Clean (assertion bound) c form d) : Recognized c form d := by
  rw [assertion] at h
  obtain ⟨hpass, hlength⟩ := Cursor.passes_word hc hkind
  have hc₁ := hpass.terminated hc
  obtain ⟨e, c₂, he, h⟩ := h.advancing.of_lift_bind
  obtain ⟨_, c₃, hsemicolon, h⟩ := h.of_lift_bind
  obtain ⟨rfl, rfl⟩ := h.of_pure
  obtain ⟨hpass₁, hbefore⟩ := of_expr hc₁ (by omega) he
  have hpass₂ := Parse.of_expect (hpass₁.terminated hc₁) hsemicolon
  rw [hpass₂.kind_eq] at hbefore
  exact ⟨_, _, hpass.trans (hpass₁.trans hpass₂), .plain (.assertion hbefore), fun _ => rfl⟩

theorem enumeration_recognized {form : Span → Stmt Span} (hc : c.Terminated)
    (hkind : c.kind = .fixed .kwEnumeration) (h : Clean (enumeration bound) c form d) :
    Recognized c form d := by
  rw [enumeration] at h
  have hpass := Cursor.passes_of_kind hc hkind (by simp)
  obtain ⟨id, c₁, hid, h⟩ := h.advancing.of_lift_bind
  have hpass₁ := Parse.of_expectName (hpass.terminated hc) hid
  obtain ⟨opened, c₂, hopen, h⟩ := h.of_lift_bind
  have hpass₂ := Parse.of_expect ((hpass.trans hpass₁).terminated hc) hopen
  have hc₂ := (hpass.trans (hpass₁.trans hpass₂)).terminated hc
  obtain ⟨none, c₃, hisAt, h⟩ := h.of_lift_bind
  rw [Parse.isAt_run] at hisAt
  cases hisAt
  have hend : ∀ (values : List String) {c₃ : Cursor},
      c₂.Passes (commas (values.map fun value => [.name value])) c₃ →
      Clean (do
        Parse.close opened '\x7b' .closeBrace
        let _ ← Parse.eat .semicolon
        return (.enumeration · id values) : ParseStmt (Span → Stmt Span)) c₃ form d →
      Recognized c form d := by
    intro values c₃ hpass₃ h
    obtain ⟨_, c₄, hclose, h⟩ := h.of_lift_bind
    obtain ⟨found, c₅, hsemicolon, h⟩ := h.of_lift_bind
    obtain ⟨rfl, rfl⟩ := h.of_pure
    have hpass₄ := Parse.of_close (hpass₃.terminated hc₂) hclose
    have hpass₀₄ := hpass.trans (hpass₁.trans (hpass₂.trans (hpass₃.trans hpass₄)))
    cases found with
    | true =>
        have hpass₅ := Parse.of_eat_true (hpass₀₄.terminated hc) hsemicolon
        refine ⟨(Stmt.enumeration () id values).tokens, .enumeration () id values, ?_,
          .plain (.enumeration id values), fun _ => rfl⟩
        exact hpass.trans (hpass₁.trans (hpass₂.trans (hpass₃.trans (hpass₄.trans hpass₅))))
    | false =>
        obtain ⟨rfl, hne⟩ := Parse.of_eat_false hsemicolon
        exact ⟨_, _, hpass₀₄, .enumeration id values hne, fun _ => rfl⟩
  split at h
  · exact hend [] (.refl _) h
  · obtain ⟨values, c₃, hvalues, h⟩ := h.of_lift_bind
    exact hend values
      (Parse.commaSeparated_reads Parse.expectName_reads bound _ _ _ hc₂ hvalues).1 h

/-! ### Statements with bodies -/

section Bodies

/-- A list that reports nothing has read its first statement without a report: what that had left in
the queue would still be there. -/
theorem first_clean {ends : TokenKind → Bool} (hstmt : ConductStmt lines start stmt)
    (hc : start.Reaches c) (hgoes : ¬(c.kind = .eof ∨ ends c.kind = true))
    (h : (list lines stmt ends (bound + 1) ⟨c, openQueue⟩).2.queue = openQueue) :
    ∃ s c', Clean stmt c s c' := by
  obtain hclean | hreports := afterOne_uniform hstmt hc
  · exact hclean
  · obtain ⟨e, he, hreported⟩ := hreports openQueue rfl
    have hmarked := (list_reported_of_afterOne hstmt bound hc (stops_eq_false hgoes rfl)
      hreported).marked (DiagnosticQueue.marked_report rfl rfl he)
    rw [h] at hmarked
    exact absurd hmarked (DiagnosticQueue.not_marked_empty _)

variable (hstart : start.Terminated) (hstmt : ConductStmt lines start stmt)
  (hreads : Recognizes size stmt)

include hstart hstmt hreads

theorem list_recognized {ends : TokenKind → Bool} {body : List (Stmt Span)}
    (hc : start.Reaches c) (hsize : c.kinds.length ≤ size)
    (h : Clean (statements lines stmt ends bound) c body d) :
    ∃ ks, c.Passes ks d ∧ Spells ks d.kind (.list (Stmt.eraseAll body)) := by
  induction bound generalizing c body with
  | zero =>
      cases h openQueue rfl
      exact ⟨[], .refl _, .nil⟩
  | succ bound ih =>
      have hrun : ∀ q : DiagnosticQueue, q.limitReached = false →
          list lines stmt ends (bound + 1) ⟨c, q⟩ = (body, ⟨d, q⟩) := by
        intro q hq
        have hrun := h q hq
        rw [statements] at hrun
        cases hlist : list lines stmt ends (bound + 1) ⟨c, q⟩
        rw [hlist] at hrun
        cases hrun
        rfl
      by_cases hstop : c.kind = .eof ∨ ends c.kind = true
      · have hnone := hrun openQueue rfl
        rw [list_of_stops (stops_of_kind hstop)] at hnone
        cases hnone
        exact ⟨[], .refl _, .nil⟩
      obtain ⟨s, c', hclean⟩ :=
        first_clean hstmt hc hstop (congrArg (·.2.queue) (hrun openQueue rfl))
      obtain ⟨ks, hpass, hspells⟩ := hreads c s c' (hc.terminated hstart) hsize hclean
      have hlength := hpass.length
      have hrest : ∀ q : DiagnosticQueue, q.limitReached = false →
          (s :: (list lines stmt ends bound ⟨c', q⟩).1, (list lines stmt ends bound ⟨c', q⟩).2) =
            (body, ⟨d, q⟩) := by
        intro q hq
        have hlist := hrun q hq
        rwa [list_of_ok (stops_eq_false hstop hq) (hclean q hq)] at hlist
      obtain ⟨body', rfl⟩ : ∃ body', s :: body' = body :=
        ⟨_, congrArg Prod.fst (hrest openQueue rfl)⟩
      have hmore : Clean (statements lines stmt ends bound) c' body' d := by
        intro q hq
        obtain ⟨hbody, hstate⟩ := Prod.mk.inj (hrest q hq)
        rw [statements]
        dsimp only
        rw [(List.cons.inj hbody).2, hstate]
      obtain ⟨ks', hpass', hspells'⟩ := ih (hc.trans hpass.reaches) (by omega) hmore
      rw [hpass'.kind_eq] at hspells
      exact ⟨ks ++ ks', hpass.trans hpass', .cons hspells hspells'⟩

theorem indentedBlock_recognized {b : Stmt Span} (hc : start.Reaches c)
    (hsize : c.kinds.length ≤ size + 1) (h : Clean (indentedBlock lines stmt bound) c b d) :
    ∃ bs ss, c.Passes (.indent :: (bs ++ [.unindent])) d ∧ Spells bs .unindent (.list ss) ∧
      b.erase = .block () ss := by
  rw [indentedBlock] at h
  obtain ⟨opened, c₁, hindent, h⟩ := h.of_lift_bind
  have hpass := Parse.of_expectKind (hc.terminated hstart) (by simp) hindent
  have hlength := hpass.length
  rw [List.length_singleton] at hlength
  have hc₁ := hc.trans hpass.reaches
  have hend : ∀ body : List (Stmt Span), Grows lines start
      (do return .block (← spanFrom opened) body : ParseStmt (Stmt Span)) :=
    fun body => .bind (.lift (.spanFrom opened)) fun _ => .pure _
  obtain ⟨body, c₂, hbody, h, hc₂, -⟩ := h.of_bind hc₁
    (statements_conduct hstart hstmt endsBlock bound hc₁)
    fun body _ => by
      refine .bind (.lift .kind) fun kind => ?_
      split
      · exact .bind (.lift .advance) fun _ => hend body
      · exact .unlessLimited (.bind (.lift .span) fun _ => .throw_bind _) (hend body)
  obtain ⟨ks, hpass₁, hspells⟩ := list_recognized hstart hstmt hreads hc₁ (by omega) hbody
  replace h := h.reading
  split at h
  · next hkind =>
      have hpass₂ := Cursor.passes_advance (hc₂.terminated hstart) (by simp [hkind])
      obtain ⟨span, c₃, hspan, h⟩ := h.advancing.of_lift_bind
      cases hspan
      obtain ⟨rfl, rfl⟩ := h.of_pure
      rw [hkind] at hspells hpass₂
      refine ⟨ks, _, ?_, hspells, rfl⟩
      exact hpass.trans (hpass₁.trans hpass₂)
  · cases h openQueue rfl

theorem body_recognized {b : Stmt Span} (hc : start.Reaches c) (hsize : c.kinds.length ≤ size)
    (h : Clean (body lines stmt bound) c b d) :
    ∃ bs, c.Passes bs d ∧ Spells bs d.kind (.stmt b.erase) := by
  rw [body] at h
  replace h := h.reading
  split at h
  · obtain ⟨bs, ss, hpass, hspells, herase⟩ :=
      indentedBlock_recognized hstart hstmt hreads hc (Nat.le_succ_of_le hsize) h
    rw [herase]
    exact ⟨_, hpass, .block hspells⟩
  · exact hreads c b d (hc.terminated hstart) hsize h

theorem armBody_recognized {b : Stmt Span} (hc : start.Reaches c) (hsize : c.kinds.length ≤ size)
    (h : Clean (armBody lines stmt bound) c b d) (hends : endsArm d.kind = true) :
    ∃ bs, c.Passes bs d ∧ Spells bs d.kind (.armBody b.erase) := by
  rw [armBody] at h
  replace h := h.reading
  split at h
  · obtain ⟨bs, ss, hpass, hspells, herase⟩ :=
      indentedBlock_recognized hstart hstmt hreads hc (Nat.le_succ_of_le hsize) h
    rw [herase]
    exact ⟨_, hpass, .armBlock hspells⟩
  · next hkind =>
      obtain ⟨body, c₁, hbody, h, -⟩ := h.reading_span.of_bind hc
        (statements_conduct hstart hstmt endsArm bound hc)
        fun _ _ => .bind (.lift (.spanFrom _)) fun _ => .pure _
      obtain ⟨span, c₂, hspan, h⟩ := h.of_lift_bind
      cases hspan
      obtain ⟨rfl, rfl⟩ := h.of_pure
      obtain ⟨bs, hpass, hspells⟩ := list_recognized hstart hstmt hreads hc hsize hbody
      refine ⟨bs, hpass, .armList hspells ?_ hends⟩
      have hfirst := hpass.kind_eq
      cases bs with
      | nil => rintro ⟨⟩
      | cons k bs =>
          rw [List.headD_cons] at hfirst
          rw [List.head?_cons, ← hfirst]
          exact fun heq => hkind (Option.some.inj heq)

theorem repeatUntil_recognized {form : Span → Stmt Span} (hc : start.Reaches c)
    (hsize : c.kinds.length ≤ size + 1) (hbound : size ≤ bound)
    (hkind : c.kind = .fixed .kwRepeat) (h : Clean (repeatUntil lines stmt bound) c form d) :
    Recognized c form d := by
  rw [repeatUntil] at h
  obtain ⟨hpass, hlength⟩ := Cursor.passes_word (hc.terminated hstart) hkind
  have hc₁ := hc.trans hpass.reaches
  obtain ⟨b, c₂, hb, h, hc₂, -⟩ := h.advancing.of_bind hc₁ (body_conduct hstart hstmt bound hc₁)
    fun _ _ => .bind (.lift (.expect _)) fun _ => .bind (.lift (.expr _)) fun _ =>
      .bind (.lift (.expect _)) fun _ => .pure _
  obtain ⟨bs, hpass₁, hspells⟩ := body_recognized hstart hstmt hreads hc₁ (by omega) hb
  obtain ⟨_, c₃, huntil, h⟩ := h.of_lift_bind
  obtain ⟨test, c₄, htest, h⟩ := h.of_lift_bind
  obtain ⟨_, c₅, hsemicolon, h⟩ := h.of_lift_bind
  obtain ⟨rfl, rfl⟩ := h.of_pure
  have hpass₂ := Parse.of_expect (hc₂.terminated hstart) huntil
  have hc₃ := hpass₂.terminated (hc₂.terminated hstart)
  have hlength₁ := hpass₁.length
  have hlength₂ := hpass₂.length
  obtain ⟨hpass₃, hbefore⟩ := of_expr hc₃ (by omega) htest
  have hpass₄ := Parse.of_expect (hpass₃.terminated hc₃) hsemicolon
  rw [hpass₂.kind_eq] at hspells
  rw [hpass₄.kind_eq] at hbefore
  exact ⟨_, _, hpass.trans (hpass₁.trans (hpass₂.trans (hpass₃.trans hpass₄))),
    .repeatUntil hspells hbefore, fun _ => rfl⟩

theorem whileDo_recognized {form : Span → Stmt Span} (hc : start.Reaches c)
    (hsize : c.kinds.length ≤ size + 1) (hbound : size ≤ bound)
    (hkind : c.kind = .fixed .kwWhile) (h : Clean (whileDo lines stmt bound) c form d) :
    Recognized c form d := by
  rw [whileDo] at h
  obtain ⟨hpass, hlength⟩ := Cursor.passes_word (hc.terminated hstart) hkind
  have hc₁ := hc.trans hpass.reaches
  obtain ⟨test, c₂, htest, h⟩ := h.advancing.of_lift_bind
  obtain ⟨_, c₃, hdo, h⟩ := h.of_lift_bind
  obtain ⟨hpass₁, hbefore⟩ := of_expr (hc₁.terminated hstart) (by omega) htest
  have hc₂ := hc₁.trans hpass₁.reaches
  have hpass₂ := Parse.of_expect (hc₂.terminated hstart) hdo
  have hc₃ := hc₂.trans hpass₂.reaches
  have hlength₁ := hpass₁.length
  have hlength₂ := hpass₂.length
  obtain ⟨b, c₄, hb, h, -⟩ := h.of_bind hc₃ (body_conduct hstart hstmt bound hc₃) fun _ _ => .pure _
  obtain ⟨rfl, rfl⟩ := h.of_pure
  obtain ⟨bs, hpass₃, hspells⟩ := body_recognized hstart hstmt hreads hc₃ (by omega) hb
  rw [hpass₂.kind_eq] at hbefore
  exact ⟨_, _, hpass.trans (hpass₁.trans (hpass₂.trans hpass₃)), .whileDo hbefore hspells,
    fun _ => rfl⟩

theorem forTo_recognized {form : Span → Stmt Span} (hc : start.Reaches c)
    (hsize : c.kinds.length ≤ size + 1) (hbound : size ≤ bound)
    (hkind : c.kind = .fixed .kwFor) (h : Clean (forTo lines stmt bound) c form d) :
    Recognized c form d := by
  rw [forTo] at h
  obtain ⟨hpass, hlength⟩ := Cursor.passes_word (hc.terminated hstart) hkind
  have hc₁ := hc.trans hpass.reaches
  obtain ⟨var, c₂, hvar, h⟩ := h.advancing.of_lift_bind
  have hpass₁ := Parse.of_expectName (hc₁.terminated hstart) hvar
  have hc₂ := hc₁.trans hpass₁.reaches
  obtain ⟨_, c₃, hassign, h⟩ := h.of_lift_bind
  have hpass₂ := Parse.of_expect (hc₂.terminated hstart) hassign
  have hc₃ := hc₂.trans hpass₂.reaches
  have hlength₁ := hpass₁.length
  have hlength₂ := hpass₂.length
  obtain ⟨first, c₄, hfirst, h⟩ := h.of_lift_bind
  obtain ⟨hpass₃, hbefore₃⟩ := of_expr (hc₃.terminated hstart) (by omega) hfirst
  have hc₄ := hc₃.trans hpass₃.reaches
  obtain ⟨_, c₅, hto, h⟩ := h.of_lift_bind
  have hpass₄ := Parse.of_expect (hc₄.terminated hstart) hto
  have hc₅ := hc₄.trans hpass₄.reaches
  have hlength₃ := hpass₃.length
  have hlength₄ := hpass₄.length
  obtain ⟨last, c₆, hlast, h⟩ := h.of_lift_bind
  obtain ⟨hpass₅, hbefore₅⟩ := of_expr (hc₅.terminated hstart) (by omega) hlast
  have hc₆ := hc₅.trans hpass₅.reaches
  obtain ⟨_, c₇, hdo, h⟩ := h.of_lift_bind
  have hpass₆ := Parse.of_expect (hc₆.terminated hstart) hdo
  have hc₇ := hc₆.trans hpass₆.reaches
  have hlength₅ := hpass₅.length
  have hlength₆ := hpass₆.length
  obtain ⟨b, c₈, hb, h, -⟩ := h.of_bind hc₇ (body_conduct hstart hstmt bound hc₇) fun _ _ => .pure _
  obtain ⟨rfl, rfl⟩ := h.of_pure
  obtain ⟨bs, hpass₇, hspells⟩ := body_recognized hstart hstmt hreads hc₇ (by omega) hb
  rw [hpass₄.kind_eq] at hbefore₃
  rw [hpass₆.kind_eq] at hbefore₅
  exact ⟨_, _, hpass.trans (hpass₁.trans (hpass₂.trans (hpass₃.trans (hpass₄.trans
    (hpass₅.trans (hpass₆.trans hpass₇)))))), .forTo var hbefore₃ hbefore₅ hspells, fun _ => rfl⟩

theorem elsifs_recognized {others : List (Expr Span × Stmt Span)} (hc : start.Reaches c)
    {big : Nat} (hsize : c.kinds.length ≤ size) (hbig : size ≤ big)
    (hbound : c.kinds.length ≤ bound) (h : Clean (elsifs lines stmt big bound) c others d) :
    ∃ es, c.Passes es d ∧ Spells es d.kind (.elsifs (Stmt.eraseElsifs others)) := by
  induction bound generalizing c others with
  | zero => exact absurd hbound c.not_length_le_zero
  | succ bound ih =>
      rw [elsifs] at h
      obtain ⟨found, c₁, heat, h⟩ := h.of_lift_bind
      cases found with
      | false =>
          obtain ⟨rfl, hne⟩ := Parse.of_eat_false heat
          obtain ⟨rfl, rfl⟩ := h.of_pure
          exact ⟨[], .refl _, .noElsif hne⟩
      | true =>
          have hpass := Parse.of_eat_true (hc.terminated hstart) heat
          have hc₁ := hc.trans hpass.reaches
          have hlength := hpass.length
          rw [List.length_singleton] at hlength
          obtain ⟨test, c₂, htest, h⟩ := h.of_lift_bind
          obtain ⟨hpass₁, hbefore⟩ := of_expr (hc₁.terminated hstart) (by omega) htest
          have hc₂ := hc₁.trans hpass₁.reaches
          obtain ⟨_, c₃, hthen, h⟩ := h.of_lift_bind
          have hpass₂ := Parse.of_expect (hc₂.terminated hstart) hthen
          have hc₃ := hc₂.trans hpass₂.reaches
          have hlength₁ := hpass₁.length
          have hlength₂ := hpass₂.length
          have hmore : Grows lines start (elsifs lines stmt big bound) :=
            .of_conduct fun _ hc => elsifs_conduct hstart hstmt big bound hc
          obtain ⟨b, c₄, hb, h, hc₄, -⟩ := h.of_bind hc₃ (body_conduct hstart hstmt big hc₃)
            fun _ _ => .bind hmore fun _ => .pure _
          obtain ⟨bs, hpass₃, hspells⟩ := body_recognized hstart hstmt hreads hc₃ (by omega) hb
          have hlength₃ := hpass₃.length
          obtain ⟨rest, c₅, hrest, h, -⟩ :=
            h.of_bind hc₄ (elsifs_conduct hstart hstmt big bound hc₄) fun _ _ => .pure _
          obtain ⟨rfl, rfl⟩ := h.of_pure
          obtain ⟨es, hpass₄, hspells₄⟩ := ih hc₄ (by omega) (by omega) hrest
          rw [hpass₂.kind_eq] at hbefore
          rw [hpass₄.kind_eq] at hspells
          refine ⟨.fixed .kwElsif :: (test.erase.tokens ++ .fixed .kwThen :: (bs ++ es)), ?_,
            .elsif hbefore hspells hspells₄⟩
          exact hpass.trans (hpass₁.trans (hpass₂.trans (hpass₃.trans hpass₄)))

theorem last_recognized {test : Expr Span} {b : Stmt Span} {others : List (Expr Span × Stmt Span)}
    {form : Span → Stmt Span} (hc : start.Reaches c) (hsize : c.kinds.length ≤ size)
    (h : Clean (do
      if ← Parse.eat .kwElse then
        let last ← body lines stmt bound
        return (.branch · test b others (some last))
      else
        return (.branch · test b others none) : ParseStmt (Span → Stmt Span)) c form d) :
    ∃ ls otherwise, c.Passes ls d ∧ Spells ls d.kind (.last otherwise) ∧ ∀ span,
      (form span).erase =
        .branch () test.erase b.erase (Stmt.eraseElsifs others) otherwise := by
  obtain ⟨found, c₁, heat, h⟩ := h.of_lift_bind
  cases found with
  | false =>
      obtain ⟨rfl, hne⟩ := Parse.of_eat_false heat
      obtain ⟨rfl, rfl⟩ := h.of_pure
      exact ⟨[], none, .refl _, .noLast hne, fun _ => rfl⟩
  | true =>
      have hpass := Parse.of_eat_true (hc.terminated hstart) heat
      have hc₁ := hc.trans hpass.reaches
      have hlength := hpass.length
      obtain ⟨last, c₂, hlast, h, -⟩ :=
        h.of_bind hc₁ (body_conduct hstart hstmt bound hc₁) fun _ _ => .pure _
      obtain ⟨rfl, rfl⟩ := h.of_pure
      obtain ⟨bs, hpass₁, hspells⟩ := body_recognized hstart hstmt hreads hc₁ (by omega) hlast
      exact ⟨_, some last.erase, hpass.trans hpass₁, .lastBody hspells, fun _ => rfl⟩

theorem branch_recognized {form : Span → Stmt Span} (hc : start.Reaches c)
    (hsize : c.kinds.length ≤ size + 1) (hbound : size ≤ bound)
    (hkind : c.kind = .fixed .kwIf) (h : Clean (branch lines stmt bound) c form d) :
    Recognized c form d := by
  rw [branch] at h
  obtain ⟨hpass, hlength⟩ := Cursor.passes_word (hc.terminated hstart) hkind
  have hc₁ := hc.trans hpass.reaches
  obtain ⟨test, c₂, htest, h⟩ := h.advancing.of_lift_bind
  obtain ⟨hpass₁, hbefore⟩ := of_expr (hc₁.terminated hstart) (by omega) htest
  have hc₂ := hc₁.trans hpass₁.reaches
  obtain ⟨_, c₃, hthen, h⟩ := h.of_lift_bind
  have hpass₂ := Parse.of_expect (hc₂.terminated hstart) hthen
  have hc₃ := hc₂.trans hpass₂.reaches
  have hlength₁ := hpass₁.length
  have hlength₂ := hpass₂.length
  have hbody : Grows lines start (body lines stmt bound) :=
    .of_conduct fun _ hc => body_conduct hstart hstmt bound hc
  have hlast : ∀ b others, Grows lines start (do
      if ← Parse.eat .kwElse then
        let last ← body lines stmt bound
        return (.branch · test b others (some last))
      else
        return (.branch · test b others none) : ParseStmt (Span → Stmt Span)) := by
    intro b others
    refine .bind (.lift (.eat _)) fun found => ?_
    split
    · exact .bind hbody fun _ => .pure _
    · exact .pure _
  have helsifs : Grows lines start (elsifs lines stmt bound bound) :=
    .of_conduct fun _ hc => elsifs_conduct hstart hstmt bound bound hc
  obtain ⟨b, c₄, hb, h, hc₄, -⟩ := h.of_bind hc₃ (body_conduct hstart hstmt bound hc₃)
    fun b _ => .bind helsifs fun others => hlast b others
  obtain ⟨bs, hpass₃, hspells⟩ := body_recognized hstart hstmt hreads hc₃ (by omega) hb
  have hlength₃ := hpass₃.length
  obtain ⟨others, c₅, hothers, h, hc₅, -⟩ :=
    h.of_bind hc₄ (elsifs_conduct hstart hstmt bound bound hc₄) fun others _ => hlast b others
  obtain ⟨es, hpass₄, hspells₄⟩ :=
    elsifs_recognized hstart hstmt hreads hc₄ (by omega) hbound (by omega) hothers
  have hlength₄ := hpass₄.length
  obtain ⟨ls, otherwise, hpass₅, hspells₅, hform⟩ :=
    last_recognized hstart hstmt hreads hc₅ (by omega) h
  rw [hpass₂.kind_eq] at hbefore
  rw [(hpass₄.trans hpass₅).kind_eq] at hspells
  rw [hpass₅.kind_eq] at hspells₄
  refine ⟨.fixed .kwIf :: (test.erase.tokens ++ .fixed .kwThen :: (bs ++ (es ++ ls))), _, ?_,
    .branch hbefore hspells hspells₄ hspells₅, hform⟩
  exact hpass.trans (hpass₁.trans (hpass₂.trans (hpass₃.trans (hpass₄.trans hpass₅))))

omit hstart hstmt hreads in
/-- Where the arms of a case go on or end, the body of an arm ends. -/
theorem endsArm_of_arms {opened : Span} {big : Nat} {met : Option (Stmt Span)}
    {found : List (List (Expr Span) × Stmt Span) × Option (Stmt Span)} (hbound : 0 < bound)
    (h : Clean (arms lines stmt opened big bound met) c found d) : endsArm c.kind = true := by
  obtain ⟨bound, rfl⟩ : ∃ fewer, bound = fewer + 1 := ⟨bound - 1, by omega⟩
  rw [arms] at h
  replace h := h.reading
  cases hkind : c.kind with
  | unindent => rfl
  | fixed word =>
      rw [hkind] at h
      cases word with
      | kwWhen | kwOtherwise => rfl
      | _ => cases h openQueue rfl
  | _ =>
      rw [hkind] at h
      cases h openQueue rfl

theorem arms_recognized {opened : Span} {big : Nat} {met : Option (Stmt Span)}
    {found : List (List (Expr Span) × Stmt Span) × Option (Stmt Span)} (hc : start.Reaches c)
    (hmet : ∀ last ∈ met, last.Everywhere (ReadFrom start)) (hsize : c.kinds.length ≤ size)
    (hbig : size ≤ big) (hbound : c.kinds.length ≤ bound)
    (h : Clean (arms lines stmt opened big bound met) c found d) :
    ∃ as, c.Passes as d ∧ Spells as d.kind
      (.arms (Stmt.eraseElse met) (Stmt.eraseArms found.1) (Stmt.eraseElse found.2)) := by
  induction bound generalizing c met found with
  | zero => exact absurd hbound c.not_length_le_zero
  | succ bound ih =>
      have hends := endsArm_of_arms (Nat.succ_pos bound) h
      have hmore : ∀ met : Option (Stmt Span), (∀ last ∈ met, last.Everywhere (ReadFrom start)) →
          Grows lines start (arms lines stmt opened big bound met) := fun met hmet =>
        .of_conduct fun _ hc => arms_conduct hstart hstmt opened big bound met hmet hc
      have hpass := Cursor.passes_advance (hc.terminated hstart)
        (by rintro heof; rw [heof] at hends; cases hends)
      have hc₁ := hc.trans hpass.reaches
      have hlength := hpass.length
      rw [List.length_singleton] at hlength
      rw [arms] at h
      replace h := h.reading
      cases hkind : c.kind with
      | unindent =>
          rw [hkind] at h hpass
          obtain ⟨rfl, rfl⟩ := h.advancing.of_pure
          exact ⟨_, hpass, .endOfCase _⟩
      | fixed word =>
          rw [hkind] at h hpass hends
          cases word with
          | kwWhen =>
              obtain ⟨patterns, c₂, hpatterns, h⟩ := h.advancing.of_lift_bind
              obtain ⟨hpass₁, hbefore⟩ :=
                of_patterns (hc₁.terminated hstart) (by omega) hpatterns
              have hc₂ := hc₁.trans hpass₁.reaches
              have hlength₁ := hpass₁.length
              obtain ⟨b, c₃, hb, h, hc₃, -⟩ := h.of_bind hc₂ (armBody_conduct hstart hstmt big hc₂)
                fun _ _ => .bind (hmore met hmet) fun _ => .pure _
              obtain ⟨⟨rest, otherwise⟩, c₄, hrest, h, -⟩ := h.of_bind hc₃
                (arms_conduct hstart hstmt opened big bound met hmet hc₃) fun _ _ => .pure _
              obtain ⟨rfl, rfl⟩ := h.of_pure
              have hpos : 0 < bound := Nat.lt_of_lt_of_le c₂.length_kinds_pos (by omega)
              obtain ⟨bs, hpass₂, hspells⟩ := armBody_recognized hstart hstmt hreads hc₂ (by omega)
                hb (endsArm_of_arms hpos hrest)
              have hlength₂ := hpass₂.length
              obtain ⟨as, hpass₃, hspells₃⟩ := ih hc₃ hmet (by omega) (by omega) hrest
              rw [(hpass₂.trans hpass₃).kind_eq] at hbefore
              rw [hpass₃.kind_eq] at hspells
              refine ⟨.fixed .kwWhen :: (commas ((patterns.map Expr.erase).map Expr.tokens) ++
                (bs ++ as)), ?_, .arm hbefore hspells hspells₃⟩
              exact hpass.trans (hpass₁.trans (hpass₂.trans hpass₃))
          | kwOtherwise =>
              have hlast : ∀ {b : Stmt Span}, b.Everywhere (ReadFrom start) →
                  ∀ last ∈ some b, last.Everywhere (ReadFrom start) := by
                intro b hb last hlast
                rwa [← Option.mem_some.mp hlast]
              obtain ⟨b, c₂, hb, h, hc₂, hgood⟩ := h.advancing.of_bind hc₁
                (armBody_conduct hstart hstmt big hc₁) fun b hb => hmore (some b) (hlast hb)
              have hpos : 0 < bound := Nat.lt_of_lt_of_le c.advance.length_kinds_pos (by omega)
              obtain ⟨bs, hpass₁, hspells⟩ := armBody_recognized hstart hstmt hreads hc₁ (by omega)
                hb (endsArm_of_arms hpos h)
              have hlength₁ := hpass₁.length
              obtain ⟨as, hpass₂, hspells₂⟩ := ih hc₂ (hlast hgood) (by omega) (by omega) h
              rw [hpass₂.kind_eq] at hspells
              refine ⟨.fixed .kwOtherwise :: (bs ++ as), ?_, .lastArm hspells hspells₂⟩
              exact hpass.trans (hpass₁.trans hpass₂)
          | _ => cases hends
      | _ =>
          rw [hkind] at hends
          cases hends

theorem caseOf_recognized {form : Span → Stmt Span} (hc : start.Reaches c)
    (hsize : c.kinds.length ≤ size + 1) (hbound : size ≤ bound)
    (hkind : c.kind = .fixed .kwCase) (h : Clean (caseOf lines stmt bound) c form d) :
    Recognized c form d := by
  rw [caseOf] at h
  obtain ⟨hpass, hlength⟩ := Cursor.passes_word (hc.terminated hstart) hkind
  have hc₁ := hc.trans hpass.reaches
  obtain ⟨selector, c₂, hselector, h⟩ := h.advancing.of_lift_bind
  obtain ⟨hpass₁, hbefore⟩ := of_expr (hc₁.terminated hstart) (by omega) hselector
  have hc₂ := hc₁.trans hpass₁.reaches
  obtain ⟨_, c₃, hof, h⟩ := h.of_lift_bind
  have hpass₂ := Parse.of_expect (hc₂.terminated hstart) hof
  have hc₃ := hc₂.trans hpass₂.reaches
  obtain ⟨opened, c₄, hindent, h⟩ := h.of_lift_bind
  have hpass₃ := Parse.of_expectKind (hc₃.terminated hstart) (by simp) hindent
  have hc₄ := hc₃.trans hpass₃.reaches
  have hlength₁ := hpass₁.length
  have hlength₂ := hpass₂.length
  have hlength₃ := hpass₃.length
  obtain ⟨⟨as, otherwise⟩, c₅, harms, h, -⟩ := h.of_bind hc₄
    (arms_conduct hstart hstmt opened bound bound none (by rintro _ ⟨⟩) hc₄) fun _ _ => .pure _
  obtain ⟨rfl, rfl⟩ := h.of_pure
  obtain ⟨ks, hpass₄, hspells⟩ := arms_recognized hstart hstmt hreads hc₄ (by rintro _ ⟨⟩)
    (by omega) hbound (by omega) harms
  rw [hpass₂.kind_eq] at hbefore
  exact ⟨_, _, hpass.trans (hpass₁.trans (hpass₂.trans (hpass₃.trans hpass₄))),
    .caseOf hbefore hspells, fun _ => rfl⟩

theorem form_recognized {form' : Span → Stmt Span} (hc : start.Reaches c)
    (hsize : c.kinds.length ≤ size + 1) (hbound : size + 1 ≤ bound)
    (h : Clean (form lines stmt bound) c form' d) : Recognized c form' d := by
  have hterminated := hc.terminated hstart
  rw [form] at h
  replace h := h.reading
  have hsimple : c.kind ≠ .fixed .kwIf → Clean (simple bound) c form' d → Recognized c form' d :=
    simple_recognized hterminated (by omega)
  cases hkind : c.kind with
  | unindent =>
      rw [hkind] at h
      cases h openQueue rfl
  | prose word about =>
      rw [hkind] at h
      exact terminal_recognized (.prose word about) (fun _ => rfl) rfl hterminated hkind
        (by simp) h
  | fixed word =>
      rw [hkind] at h hsimple
      cases word with
      | kwUndefined =>
          exact terminal_recognized .undefined (fun _ => rfl) rfl hterminated hkind (by simp) h
      | kwUnpredictable =>
          exact terminal_recognized .unpredictable (fun _ => rfl) rfl hterminated hkind
            (by simp) h
      | kwReturn => exact giveBack_recognized hterminated (by omega) hkind h
      | kwIf => exact branch_recognized hstart hstmt hreads hc hsize (by omega) hkind h
      | kwRepeat => exact repeatUntil_recognized hstart hstmt hreads hc hsize (by omega) hkind h
      | kwWhile => exact whileDo_recognized hstart hstmt hreads hc hsize (by omega) hkind h
      | kwFor => exact forTo_recognized hstart hstmt hreads hc hsize (by omega) hkind h
      | kwCase => exact caseOf_recognized hstart hstmt hreads hc hsize (by omega) hkind h
      | kwAssert => exact assertion_recognized hterminated (by omega) hkind h
      | kwEnumeration => exact enumeration_recognized hterminated hkind h
      | _ => exact hsimple (by simp) h
  | _ =>
      rw [hkind] at h hsimple
      exact hsimple (by simp) h

end Bodies

/-- What a clean run has read spells the statement that it yields. -/
theorem stmtAt_recognizes (lines : LineTable) (bound : Nat) :
    Recognizes bound (stmtAt lines bound) := by
  induction bound with
  | zero =>
      intro c s d _ hsize _
      exact absurd hsize c.not_length_le_zero
  | succ bound ih =>
      intro c s d hc hsize h
      have hstmt := stmtAt_conduct lines hc bound
      rw [stmtAt] at h
      replace h := h.reading
      split at h
      · obtain ⟨bs, ss, hpass, hspells, herase⟩ :=
          indentedBlock_recognized hc hstmt ih (.refl c) hsize h
        rw [herase]
        exact ⟨_, hpass, .block hspells⟩
      · obtain ⟨form, c₁, hform, h, -⟩ := h.reading_span.of_bind (.refl c)
          (form_conduct hc hstmt (bound + 1) (.refl c))
          fun _ _ => .bind (.lift (.spanFrom _)) fun _ => .pure _
        obtain ⟨span, c₂, hspan, h⟩ := h.of_lift_bind
        cases hspan
        obtain ⟨rfl, rfl⟩ := h.of_pure
        obtain ⟨ks, s, hpass, hspells, herase⟩ :=
          form_recognized hc hstmt ih (.refl c) hsize (Nat.le_refl _) hform
        rw [herase]
        exact ⟨ks, hpass, hspells⟩

end ArmPseudocode.ParseStmt

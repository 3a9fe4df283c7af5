import ArmPseudocode.Parser.Expr
import ArmPseudocode.Proofs.Parser.Steps
import ArmPseudocode.Proofs.Syntax.Tokens

/-!
# The bounds of the expression parser

The functions that read expressions count down bounds, on their lists and on the nesting. The number
of tokens left meets all of them: each round of a list and each level of the nesting stands behind a
token of its own. So a bound only has to be large enough, and what would be done where the nesting
runs out is never done.

Two readings are compared at one cursor, under different bounds and with different steps below the
deepest level. Both end alike, also where they fail, and all they pass on the way are tokens that
can stand in an expression.
-/

namespace ArmPseudocode.Parse

variable {β γ : Type} {c d : Cursor} {size least bound bound' : Nat}

/-- The second step ends as the first does, which passes only tokens of expressions, and so many at
least if it succeeds. -/
structure Agrees (least : Nat) (step step' : Parse β) (c : Cursor) : Prop where
  same : step' c = step c
  inside : ∃ ks, c.Passes ks (stateAfter (step c)) ∧ ∀ k ∈ ks, k.insideExpr = true
  consumes : ∀ b d, step c = .ok b d → d.kinds.length + least ≤ c.kinds.length

/-- The steps agree at every cursor that is no further from the end of the text. -/
def AgreesWithin (size least : Nat) (step step' : Parse β) : Prop :=
  ∀ c, c.Terminated → c.kinds.length ≤ size → Agrees least step step' c

namespace Agrees

variable {step step' : Parse β} {next next' : β → Parse γ}

theorem of_run_eq {first first' : Parse β} (h : Agrees least step step' c)
    (hleft : first c = step c) (hright : first' c = step' c) : Agrees least first first' c where
  same := by rw [hleft, hright, h.same]
  inside := by
    rw [hleft]
    exact h.inside
  consumes b d hrun := h.consumes b d (hleft ▸ hrun)

theorem weaken (h : Agrees least step step' c) : Agrees 0 step step' c :=
  { h with consumes := fun b d hrun => Nat.le_of_add_right_le (h.consumes b d hrun) }

theorem pure (b : β) : Agrees 0 (Pure.pure b) (Pure.pure b) c where
  same := rfl
  inside := ⟨[], .refl c, by simp⟩
  consumes b' d hrun := by
    obtain ⟨-, rfl⟩ := of_pure_eq_ok hrun
    exact Nat.le_refl _

theorem of_eq_error {e : Diagnostic} (hleft : step c = .error e c) (hright : step' c = .error e c) :
    Agrees least step step' c where
  same := by rw [hleft, hright]
  inside := by
    rw [hleft]
    exact ⟨[], .refl c, by simp⟩
  consumes b d hrun := by
    rw [hleft] at hrun
    cases hrun

theorem throw (e : Diagnostic) :
    Agrees least (MonadExcept.throw e : Parse β) (MonadExcept.throw e) c := of_eq_error rfl rfl

theorem of_advance {b : β} (hc : c.Terminated) (hinside : c.kind.insideExpr = true)
    (hleft : step c = .ok b c.advance) (hright : step' c = .ok b c.advance) :
    Agrees 1 step step' c := by
  have hkind : c.kind ≠ .eof := by
    intro heof
    rw [heof] at hinside
    cases hinside
  have hpass := Cursor.passes_advance hc hkind
  refine ⟨by rw [hleft, hright], ?_, fun b' d hrun => ?_⟩
  · rw [hleft]
    exact ⟨_, hpass, List.forall_mem_singleton.mpr hinside⟩
  · rw [hleft] at hrun
    cases hrun
    have hlength := hpass.length
    rw [List.length_singleton] at hlength
    omega

theorem bind (h : Agrees least step step' c) (hc : c.Terminated)
    (hnext : ∀ b d, d.Terminated → d.kinds.length + least ≤ c.kinds.length →
      Agrees 0 (next b) (next' b) d) :
    Agrees least (step >>= next) (step' >>= next') c := by
  obtain ⟨ks, hpass, hks⟩ := h.inside
  cases hrun : step c with
  | error e d =>
      have hrun' := h.same.trans hrun
      rw [hrun] at hpass
      refine ⟨by rw [bind_of_eq_error hrun, bind_of_eq_error hrun'], ?_, fun b d hbind => ?_⟩
      · rw [bind_of_eq_error hrun]
        exact ⟨ks, hpass, hks⟩
      · rw [bind_of_eq_error hrun] at hbind
        cases hbind
  | ok b d =>
      have hrun' := h.same.trans hrun
      rw [hrun] at hpass
      have hconsumes := h.consumes b d hrun
      have hafter := hnext b d (hpass.terminated hc) hconsumes
      refine ⟨by rw [bind_of_eq_ok hrun, bind_of_eq_ok hrun', hafter.same], ?_, fun x e hbind => ?_⟩
      · obtain ⟨ks', hpass', hks'⟩ := hafter.inside
        rw [bind_of_eq_ok hrun]
        exact ⟨ks ++ ks', hpass.trans hpass', List.forall_mem_append.mpr ⟨hks, hks'⟩⟩
      · rw [bind_of_eq_ok hrun] at hbind
        have hrest := hafter.consumes x e hbind
        omega

/-! ### Single tokens -/

theorem reading {next next' : TokenKind → Parse γ}
    (h : Agrees least (next c.kind) (next' c.kind) c) :
    Agrees least (Parse.kind >>= next) (Parse.kind >>= next') c := h.of_run_eq rfl rfl

theorem reading_next {next next' : TokenKind → Parse γ}
    (h : Agrees least (next c.nextKind) (next' c.nextKind) c) :
    Agrees least (Parse.nextKind >>= next) (Parse.nextKind >>= next') c := h.of_run_eq rfl rfl

theorem reading_isAt {token : FixedToken} {next next' : Bool → Parse γ}
    (h : Agrees least (next (c.kind = .fixed token)) (next' (c.kind = .fixed token)) c) :
    Agrees least (Parse.isAt token >>= next) (Parse.isAt token >>= next') c := h.of_run_eq rfl rfl

theorem reading_span {next next' : Span → Parse γ}
    (h : ∀ span, Agrees least (next span) (next' span) c) :
    Agrees least (Parse.span >>= next) (Parse.span >>= next') c := (h c.here.span).of_run_eq rfl rfl

theorem reading_spanFrom {start : Span} {next next' : Span → Parse γ}
    (h : ∀ span, Agrees least (next span) (next' span) c) :
    Agrees least (Parse.spanFrom start >>= next) (Parse.spanFrom start >>= next') c :=
  (h (start.merge c.lastSpan)).of_run_eq rfl rfl

theorem advance (hc : c.Terminated) (hinside : c.kind.insideExpr = true) :
    Agrees 1 Parse.advance Parse.advance c :=
  of_advance hc hinside (advance_run c) (advance_run c)

theorem expect {token : FixedToken} (hc : c.Terminated)
    (hinside : (TokenKind.fixed token).insideExpr = true) :
    Agrees 1 (Parse.expect token) (Parse.expect token) c := by
  by_cases hkind : c.kind = .fixed token
  · exact of_advance hc (by rwa [hkind]) (expect_of_kind hkind) (expect_of_kind hkind)
  · have hfails := (expectKind_run (.fixed token) c).trans (if_neg hkind)
    exact of_eq_error hfails hfails

theorem expectName (hc : c.Terminated) : Agrees 1 Parse.expectName Parse.expectName c := by
  cases hkind : c.kind with
  | name id =>
      exact of_advance hc (by rw [hkind]; rfl) (expectName_of_kind hkind) (expectName_of_kind hkind)
  | _ =>
      have hfails : Parse.expectName c = .error (.expectedName c.here.span c.kind.found) c := by
        rw [Parse.expectName, bind_of_eq_ok (kind_run c), hkind]
        rfl
      exact of_eq_error hfails hfails

theorem close {opened : Span} {delimiter : Char} {token : FixedToken} (hc : c.Terminated)
    (hinside : (TokenKind.fixed token).insideExpr = true) :
    Agrees 1 (Parse.close opened delimiter token) (Parse.close opened delimiter token) c := by
  by_cases hkind : c.kind = .fixed token
  · exact of_advance hc (by rwa [hkind]) (close_of_kind hkind) (close_of_kind hkind)
  · have hfails : Parse.close opened delimiter token c =
        .error (.unclosedDelimiter opened c.here.span delimiter) c := by
      rw [Parse.close, bind_of_eq_ok (eat_of_kind_ne hkind)]
      rfl
    exact of_eq_error hfails hfails

theorem eating {token : FixedToken} {next next' : Bool → Parse γ} (hc : c.Terminated)
    (hinside : (TokenKind.fixed token).insideExpr = true)
    (hfound : ∀ d, d.Terminated → d.kinds.length + 1 ≤ c.kinds.length →
      Agrees 0 (next true) (next' true) d)
    (hmissing : Agrees 0 (next false) (next' false) c) :
    Agrees 0 (Parse.eat token >>= next) (Parse.eat token >>= next') c := by
  by_cases hkind : c.kind = .fixed token
  · have heats : Agrees 1 (Parse.advance >>= fun _ => next true)
        (Parse.advance >>= fun _ => next' true) c :=
      (advance hc (by rwa [hkind])).bind hc fun _ d hd hlength => hfound d hd hlength
    exact heats.weaken.of_run_eq (bind_of_eq_ok (eat_of_kind hkind))
      (bind_of_eq_ok (eat_of_kind hkind))
  · exact hmissing.of_run_eq (bind_of_eq_ok (eat_of_kind_ne hkind))
      (bind_of_eq_ok (eat_of_kind_ne hkind))

/-! ### Lists -/

section Lists

variable {item item' : Parse β}

theorem moreItems (hitem : AgreesWithin size least item item') (hc : c.Terminated)
    (hsize : c.kinds.length ≤ size) (hbound : c.kinds.length ≤ bound)
    (hbound' : c.kinds.length ≤ bound') :
    Agrees 0 (Parse.moreItems item bound) (Parse.moreItems item' bound') c := by
  induction bound generalizing c bound' with
  | zero => exact absurd hbound c.not_length_le_zero
  | succ bound ih =>
      obtain ⟨bound', rfl⟩ := Cursor.exists_eq_succ hbound'
      rw [Parse.moreItems, Parse.moreItems]
      refine eating hc rfl (fun d hd hlength => ?_) (.pure [])
      refine (hitem d hd (by omega)).weaken.bind hd fun first d₁ hd₁ hlength₁ => ?_
      exact (ih hd₁ (by omega) (by omega) (by omega)).bind hd₁ fun rest _ _ _ => .pure _

theorem commaSeparated (hitem : AgreesWithin size least item item') (hc : c.Terminated)
    (hsize : c.kinds.length ≤ size) (hbound : size ≤ bound) (hbound' : size ≤ bound') :
    Agrees least (Parse.commaSeparated item bound) (Parse.commaSeparated item' bound') c := by
  refine (hitem c hc hsize).bind hc fun first d hd hlength => ?_
  exact (moreItems hitem hd (by omega) (by omega) (by omega)).bind hd fun rest _ _ _ => .pure _

end Lists

/-! ### Operators and suffixes -/

section Operators

variable {operand operand' : Parse (Expr Span)}

theorem operatorsBehind {left : Expr Span} {level : Nat}
    (hoperand : AgreesWithin size 1 operand operand') (hc : c.Terminated)
    (hsize : c.kinds.length ≤ size) (hbound : c.kinds.length ≤ bound)
    (hbound' : c.kinds.length ≤ bound') :
    Agrees 0 (Parse.operatorsBehind operand level bound left)
      (Parse.operatorsBehind operand' level bound' left) c := by
  induction bound generalizing c bound' left with
  | zero => exact absurd hbound c.not_length_le_zero
  | succ bound ih =>
      obtain ⟨bound', rfl⟩ := Cursor.exists_eq_succ hbound'
      rw [Parse.operatorsBehind, Parse.operatorsBehind]
      apply reading
      cases hop : binaryOp? c.kind with
      | none => exact .pure left
      | some op =>
          dsimp only
          split
          · have hinside : c.kind.insideExpr = true := by
              rw [BinaryOp.eq_token_of_binaryOp? hop]
              exact op.insideExpr_token
            refine ((advance hc hinside).bind hc fun _ d hd hlength => ?_).weaken
            refine (hoperand d hd (by omega)).weaken.bind hd fun right d₁ hd₁ hlength₁ => ?_
            exact ih hd₁ (by omega) (by omega) (by omega)
          · exact .pure left

theorem binary (hoperand : AgreesWithin (size + 1) 1 operand operand') (hbound : size ≤ bound)
    (hbound' : size ≤ bound') (level : Nat) :
    AgreesWithin (size + 1) 1 (Parse.binary operand bound level)
      (Parse.binary operand' bound' level) := by
  induction level with
  | zero => exact hoperand
  | succ level ih =>
      intro c hc hsize
      refine (ih c hc hsize).bind hc fun left d hd hlength => ?_
      have hshorter : d.kinds.length ≤ size := by omega
      exact operatorsBehind (fun c hc hsize' => ih c hc (Nat.le_succ_of_le hsize')) hd hshorter
        (Nat.le_trans hshorter hbound) (Nat.le_trans hshorter hbound')

theorem unary_of_none (hop : unaryOp? c.kind = none) : Parse.unary operand bound c = operand c := by
  cases bound with
  | zero => rfl
  | succ bound => rw [Parse.unary, bind_of_eq_ok (kind_run c), hop]

theorem unary (hoperand : AgreesWithin size 1 operand operand') (hc : c.Terminated)
    (hsize : c.kinds.length ≤ size) (hbound : c.kinds.length ≤ bound + 1)
    (hbound' : c.kinds.length ≤ bound' + 1) :
    Agrees 1 (Parse.unary operand bound) (Parse.unary operand' bound') c := by
  induction bound generalizing c bound' with
  | zero =>
      have hkind : c.kind = .eof := hc.kind_eq_eof (Cursor.after_eq_nil hbound)
      have hop : unaryOp? c.kind = none := by rw [hkind]; rfl
      exact (hoperand c hc hsize).of_run_eq rfl (unary_of_none hop)
  | succ bound ih =>
      cases hop : unaryOp? c.kind with
      | none => exact (hoperand c hc hsize).of_run_eq (unary_of_none hop) (unary_of_none hop)
      | some op =>
          have hinside : c.kind.insideExpr = true := by
            rw [UnaryOp.eq_token_of_unaryOp? hop]
            exact op.insideExpr_token
          have hconsumes := (advance hc hinside).consumes _ _ (advance_run c)
          obtain ⟨bound', rfl⟩ :=
            Cursor.exists_eq_succ (show c.advance.kinds.length ≤ bound' by omega)
          rw [Parse.unary, Parse.unary]
          apply reading
          rw [hop]
          refine (advance hc hinside).bind hc fun start d hd hlength => ?_
          exact (ih hd (by omega) (by omega) (by omega)).weaken.bind hd fun inner _ _ _ => .pure _

theorem sliceTerm (hoperand : AgreesWithin size 1 operand operand') :
    AgreesWithin size 1 (Parse.sliceTerm operand) (Parse.sliceTerm operand') := by
  intro c hc hsize
  refine (hoperand c hc hsize).bind hc fun high d hd hlength => ?_
  refine eating hd rfl (fun d₁ hd₁ hlength₁ => ?_) (.pure _)
  exact (hoperand d₁ hd₁ (by omega)).weaken.bind hd₁ fun low _ _ _ => .pure _

theorem sliceTerms {delimiter : Char} {closing : FixedToken}
    (hoperand : AgreesWithin size 1 operand operand') (hc : c.Terminated)
    (hinside : c.kind.insideExpr = true) (hclosing : (TokenKind.fixed closing).insideExpr = true)
    (hsize : c.kinds.length ≤ size + 1) (hbound : size ≤ bound) (hbound' : size ≤ bound') :
    Agrees 1 (Parse.sliceTerms operand bound delimiter closing)
      (Parse.sliceTerms operand' bound' delimiter closing) c := by
  refine (advance hc hinside).bind hc fun opened d hd hlength => ?_
  refine (commaSeparated (sliceTerm hoperand) hd (by omega) hbound hbound').weaken.bind hd
    fun terms d₁ hd₁ _ => ?_
  exact (close hd₁ hclosing).weaken.bind hd₁ fun _ _ _ _ => .pure terms

theorem suffixes {base : Expr Span} {big big' : Nat}
    (hoperand : AgreesWithin size 1 operand operand') (hbig : size ≤ big) (hbig' : size ≤ big')
    (hc : c.Terminated) (hsize : c.kinds.length ≤ size) (hbound : c.kinds.length ≤ bound)
    (hbound' : c.kinds.length ≤ bound') :
    Agrees 0 (Parse.suffixes operand big bound base) (Parse.suffixes operand' big' bound' base)
      c := by
  induction bound generalizing c bound' base with
  | zero => exact absurd hbound c.not_length_le_zero
  | succ bound ih =>
      obtain ⟨bound', rfl⟩ := Cursor.exists_eq_succ hbound'
      rw [Parse.suffixes, Parse.suffixes]
      apply reading
      have hbrackets : ∀ (delimiter : Char) (closing : FixedToken)
          (form : Span → List (SliceTerm (Expr Span)) → Expr Span),
          c.kind.insideExpr = true → (TokenKind.fixed closing).insideExpr = true → Agrees 0
            (do
              let terms ← Parse.sliceTerms operand big delimiter closing
              Parse.suffixes operand big bound (form (← Parse.spanFrom base.info) terms))
            (do
              let terms ← Parse.sliceTerms operand' big' delimiter closing
              Parse.suffixes operand' big' bound' (form (← Parse.spanFrom base.info) terms)) c := by
        intro delimiter closing form hinside hclosing
        refine ((sliceTerms hoperand hc hinside hclosing (by omega) hbig hbig').bind hc
          fun terms d hd hlength => ?_).weaken
        exact reading_spanFrom fun span => ih hd (by omega) (by omega) (by omega)
      generalize hkind : c.kind = kind at hbrackets
      cases kind with
      | fixed word =>
          cases word with
          | openAngle => exact hbrackets _ _ (fun span terms => .slice span base terms) rfl rfl
          | openBracket => exact hbrackets _ _ (fun span terms => .index span base terms) rfl rfl
          | dot =>
              refine ((advance hc (by rw [hkind]; rfl)).bind hc fun _ d hd hlength => ?_).weaken
              refine (expectName hd).weaken.bind hd fun field d₁ hd₁ hlength₁ => ?_
              exact reading_spanFrom fun span => ih hd₁ (by omega) (by omega) (by omega)
          | _ => exact .pure base
      | _ => exact .pure base

end Operators

/-! ### Forms -/

section Forms

variable {expr expr' : Parse (Expr Span)} {type type' : Parse (TypeExpr Span)}

theorem tupleItem (hexpr : AgreesWithin size 1 expr expr') :
    AgreesWithin size 1 (Parse.tupleItem expr) (Parse.tupleItem expr') := by
  intro c hc hsize
  refine reading_next (reading_isAt ?_)
  split
  · next hblank =>
      have hkind : c.kind = .fixed .minus := by
        simp only [Bool.and_eq_true, decide_eq_true_eq] at hblank
        exact hblank.1
      exact (advance hc (by rw [hkind]; rfl)).bind hc fun _ _ _ _ => .pure _
  · exact hexpr c hc hsize

theorem typedPrimary (htype : AgreesWithin size 1 type type') :
    AgreesWithin size 1 (Parse.typedPrimary type) (Parse.typedPrimary type') := by
  intro c hc hsize
  refine (htype c hc hsize).bind hc fun t d hd _ => ?_
  refine eating hd rfl (fun _ _ _ => .pure _) ?_
  exact (expectName hd).weaken.bind hd fun id _ _ _ => .pure _

theorem tokenForm (form : β) (hc : c.Terminated) (hinside : c.kind.insideExpr = true) :
    Agrees 1 (do let _ ← Parse.advance; return form) (do let _ ← Parse.advance; return form) c :=
  (advance hc hinside).bind hc fun _ _ _ _ => .pure form

theorem primaryForm (inPattern : Bool) (hexpr : AgreesWithin size 1 expr expr')
    (htype : AgreesWithin (size + 1) 1 type type') (hbound : size ≤ bound)
    (hbound' : size ≤ bound') :
    AgreesWithin (size + 1) 1 (Parse.primaryForm inPattern bound expr type)
      (Parse.primaryForm inPattern bound' expr' type') := by
  intro c hc hsize
  rw [Parse.primaryForm, Parse.primaryForm]
  refine reading_span fun start => reading ?_
  have hclosed : ∀ {δ : Type} {items items' : Parse δ} {d : Cursor} (form : δ → Span → Expr Span),
      d.Terminated → Agrees 0 items items' d →
      Agrees 0 (do
          let args ← items
          Parse.close start '(' .closeParen
          return (form args ·))
        (do
          let args ← items'
          Parse.close start '(' .closeParen
          return (form args ·)) d :=
    fun form hd hitems => hitems.bind hd fun args d₁ hd₁ _ =>
      (close hd₁ rfl).weaken.bind hd₁ fun _ _ _ _ => .pure _
  generalize hkind : c.kind = kind
  have hinside : kind.insideExpr = true → c.kind.insideExpr = true := by
    rw [hkind]
    exact id
  cases kind with
  | int n => exact tokenForm _ hc (hinside rfl)
  | real numeral => exact tokenForm _ hc (hinside rfl)
  | bitString digits => exact tokenForm _ hc (hinside rfl)
  | error => exact tokenForm _ hc (hinside rfl)
  | name id =>
      refine (advance hc (hinside rfl)).bind hc fun _ d hd _ => reading ?_
      cases hnext : d.kind with
      | name var =>
          cases inPattern with
          | true => exact .pure _
          | false => exact (tokenForm _ hd (by rw [hnext]; rfl)).weaken
      | _ => exact .pure _
  | call callee =>
      refine (advance hc (hinside rfl)).bind hc fun _ d hd hlength => reading_isAt ?_
      split
      · exact hclosed (fun args span => .call span callee args) hd (.pure [])
      · exact hclosed (fun args span => .call span callee args) hd
          (commaSeparated hexpr hd (by omega) hbound hbound').weaken
  | fixed word =>
      cases word with
      | openParen =>
          refine reading_next ?_
          split
          · exact typedPrimary htype c hc hsize
          · refine (advance hc (hinside rfl)).bind hc fun _ d hd hlength => ?_
            exact hclosed (fun items span => .tuple span items) hd
              (commaSeparated (tupleItem hexpr) hd (by omega) hbound hbound').weaken
      | kwBits | kwBit | kwInteger | kwBoolean => exact typedPrimary htype c hc hsize
      | kwUnknown => exact tokenForm _ hc (hinside rfl)
      | kwIf =>
          refine (advance hc (hinside rfl)).bind hc fun _ d hd hlength => ?_
          refine (hexpr d hd (by omega)).weaken.bind hd fun test d₁ hd₁ hlength₁ => ?_
          refine (expect hd₁ rfl).weaken.bind hd₁ fun _ d₂ hd₂ hlength₂ => ?_
          refine (hexpr d₂ hd₂ (by omega)).weaken.bind hd₂ fun yes d₃ hd₃ hlength₃ => ?_
          refine (expect hd₃ rfl).weaken.bind hd₃ fun _ d₄ hd₄ hlength₄ => ?_
          exact (hexpr d₄ hd₄ (by omega)).weaken.bind hd₄ fun no _ _ _ => .pure _
      | _ => exact .throw _
  | _ => exact .throw _

theorem primary (inPattern : Bool) (hexpr : AgreesWithin size 1 expr expr')
    (htype : AgreesWithin (size + 1) 1 type type') (hbound : size ≤ bound)
    (hbound' : size ≤ bound') :
    AgreesWithin (size + 1) 1 (Parse.primary inPattern bound expr type)
      (Parse.primary inPattern bound' expr' type') := by
  intro c hc hsize
  refine reading_span fun start => ?_
  refine (primaryForm inPattern hexpr htype hbound hbound' c hc hsize).bind hc fun form _ _ _ => ?_
  exact reading_spanFrom fun span => .pure _

theorem typeForm (hexpr : AgreesWithin size 1 expr expr') (htype : AgreesWithin size 1 type type')
    (hbound : size ≤ bound) (hbound' : size ≤ bound') :
    AgreesWithin (size + 1) 1 (Parse.typeForm bound expr type)
      (Parse.typeForm bound' expr' type') := by
  intro c hc hsize
  rw [Parse.typeForm, Parse.typeForm]
  refine reading_span fun start => reading ?_
  generalize hkind : c.kind = kind
  have hinside : kind.insideExpr = true → c.kind.insideExpr = true := by
    rw [hkind]
    exact id
  cases kind with
  | name id => exact tokenForm _ hc (hinside rfl)
  | fixed word =>
      cases word with
      | kwBits =>
          refine (advance hc (hinside rfl)).bind hc fun _ d hd hlength => ?_
          refine (hexpr d hd (by omega)).weaken.bind hd fun width d₁ hd₁ _ => ?_
          exact (close hd₁ rfl).weaken.bind hd₁ fun _ _ _ _ => .pure _
      | kwBit | kwInteger | kwBoolean => exact tokenForm _ hc (hinside rfl)
      | openParen =>
          refine (advance hc (hinside rfl)).bind hc fun _ d hd hlength => ?_
          refine (commaSeparated htype hd (by omega) hbound hbound').weaken.bind hd
            fun items d₁ hd₁ _ => ?_
          exact (close hd₁ rfl).weaken.bind hd₁ fun _ _ _ _ => .pure _
      | _ => exact .throw _
  | _ => exact .throw _

end Forms

end Agrees

/-! ### Levels of nesting -/

/-- The steps that read what is nested in an expression. -/
structure Nested where
  expr : Nat → Parse (Expr Span)
  type : Parse (TypeExpr Span)

namespace Nested

def level (inPattern : Bool) (bound : Nat) (inner : Nested) : Nested where
  expr level :=
    let type := typeForm bound (inner.expr BinaryOp.loosest) inner.type
    let operand := do
      let base ← primary inPattern bound (inner.expr BinaryOp.loosest) type
      suffixes (inner.expr BinaryOp.boundLevel) bound bound base
    binary (unary operand bound) bound level
  type := typeForm bound (inner.expr BinaryOp.loosest) inner.type

/-- Levels on top of each other, above steps for whatever is nested deeper. -/
def above (inPattern : Bool) (deepest : Nested) : Nat → Nested
  | 0 => deepest
  | bound + 1 => (above inPattern deepest bound).level inPattern bound

def giveUp : Nested where
  expr _ := do throw (.expectedExpression (← span) (← kind).found)
  type := do throw (.expectedType (← span) (← kind).found)

/-- Below its deepest level the parser gives up. -/
theorem exprAt_typeAt_eq_above (inPattern : Bool) (bound : Nat) :
    exprAt inPattern bound = (above inPattern giveUp bound).expr ∧
      typeAt inPattern bound = (above inPattern giveUp bound).type := by
  induction bound with
  | zero => exact ⟨rfl, rfl⟩
  | succ bound ih =>
      obtain ⟨hexpr, htype⟩ := ih
      refine ⟨funext fun level => ?_, ?_⟩
      · rw [exprAt, hexpr, htype]
        rfl
      · rw [typeAt, hexpr, htype]
        rfl

/-- The steps of both agree at every cursor that is no further from the end of the text. -/
def AgreeWithin (size : Nat) (inner inner' : Nested) : Prop :=
  (∀ level, AgreesWithin size 1 (inner.expr level) (inner'.expr level)) ∧
    AgreesWithin size 1 inner.type inner'.type

theorem AgreeWithin.level {inner inner' : Nested} (inPattern : Bool)
    (h : AgreeWithin size inner inner') (hbound : size ≤ bound) (hbound' : size ≤ bound') :
    AgreeWithin (size + 1) (inner.level inPattern bound) (inner'.level inPattern bound') := by
  obtain ⟨hexpr, htype⟩ := h
  have hform := Agrees.typeForm (hexpr BinaryOp.loosest) htype hbound hbound'
  have hoperand : AgreesWithin (size + 1) 1
      (do
        let base ← primary inPattern bound (inner.expr BinaryOp.loosest)
          (typeForm bound (inner.expr BinaryOp.loosest) inner.type)
        suffixes (inner.expr BinaryOp.boundLevel) bound bound base)
      (do
        let base ← primary inPattern bound' (inner'.expr BinaryOp.loosest)
          (typeForm bound' (inner'.expr BinaryOp.loosest) inner'.type)
        suffixes (inner'.expr BinaryOp.boundLevel) bound' bound' base) := by
    intro c hc hsize
    refine (Agrees.primary inPattern (hexpr _) hform hbound hbound' c hc hsize).bind hc
      fun base d hd hlength => ?_
    exact Agrees.suffixes (hexpr _) hbound hbound' hd (by omega) (by omega) (by omega)
  have hunary : AgreesWithin (size + 1) 1 _ _ := fun c hc hsize =>
    Agrees.unary hoperand hc hsize (Nat.le_trans hsize (Nat.succ_le_succ hbound))
      (Nat.le_trans hsize (Nat.succ_le_succ hbound'))
  exact ⟨fun level => Agrees.binary hunary hbound hbound' level, hform⟩

/-- Levels enough for the tokens left: how many they are and what is below them does not matter. -/
theorem above_agree (inPattern : Bool) (deepest deepest' : Nested) (hbound : size ≤ bound)
    (hbound' : size ≤ bound') :
    AgreeWithin size (above inPattern deepest bound) (above inPattern deepest' bound') := by
  induction size generalizing bound bound' with
  | zero =>
      exact ⟨fun level c _ hlength => absurd hlength c.not_length_le_zero,
        fun c _ hlength => absurd hlength c.not_length_le_zero⟩
  | succ size ih =>
      obtain ⟨bound, rfl⟩ : ∃ fewer, bound = fewer + 1 := ⟨bound - 1, by omega⟩
      obtain ⟨bound', rfl⟩ : ∃ fewer, bound' = fewer + 1 := ⟨bound' - 1, by omega⟩
      have hfewer : size ≤ bound := by omega
      have hfewer' : size ≤ bound' := by omega
      exact (ih hfewer hfewer').level inPattern hfewer hfewer'

end Nested

/-- With bounds no less than the number of tokens left an expression is read in one way, and reading
it passes only tokens of expressions. -/
theorem exprAt_agrees (inPattern : Bool) (level : Nat) (hbound : size ≤ bound)
    (hbound' : size ≤ bound') :
    AgreesWithin size 1 (exprAt inPattern bound level) (exprAt inPattern bound' level) := by
  rw [(Nested.exprAt_typeAt_eq_above inPattern bound).1,
    (Nested.exprAt_typeAt_eq_above inPattern bound').1]
  exact (Nested.above_agree inPattern .giveUp .giveUp hbound hbound').1 level

end ArmPseudocode.Parse

import ArmPseudocode.Parser.Expr
import ArmPseudocode.Proofs.Parser.Steps

/-!
# Steps only go forward

Reading an expression ends where it began or further on, whether it succeeds or not, and it fails
only with a syntax error, which is about the token where the reading stopped. Recovery relies on the
first, the count of errors on the second, and the lines of what is reported on the third.
-/

namespace ArmPseudocode.Parse

variable {β γ : Type}

structure Forward (step : Parse β) : Prop where
  reaches : ∀ c : Cursor, c.Reaches (stateAfter (step c))
  isError : ∀ c d c', step c = .error d c' → d.isError = true
  syntactic : ∀ c d c', step c = .error d c' → d.code.isSyntactic = true
  located : ∀ c d c', step c = .error d c' → d.span = some c'.here.span

namespace Forward

theorem of_eq_ok {step : Parse β} (value : Cursor → β) (move : Cursor → Cursor)
    (hrun : ∀ c, step c = .ok (value c) (move c)) (hmove : ∀ c : Cursor, c.Reaches (move c)) :
    Forward step := by
  constructor
  · intro c
    rw [hrun]
    exact hmove c
  all_goals
    intro c d c' h
    rw [hrun] at h
    nomatch h

theorem pure (b : β) : Forward (Pure.pure b) := of_eq_ok (fun _ => b) id (fun _ => rfl) .refl

theorem of_eq_error {step : Parse β} (d : Cursor → Diagnostic)
    (hrun : ∀ c, step c = .error (d c) c) (hd : ∀ c, (d c).isError = true)
    (hcode : ∀ c, (d c).code.isSyntactic = true) (hspan : ∀ c, (d c).span = some c.here.span) :
    Forward step := by
  constructor
  · intro c
    rw [hrun]
    exact .refl c
  · intro c d' c' h
    rw [hrun] at h
    cases h
    exact hd c
  · intro c d' c' h
    rw [hrun] at h
    cases h
    exact hcode c
  · intro c d' c' h
    rw [hrun] at h
    cases h
    exact hspan c

/-- A step that goes by the token here goes forward, or fails with an error about that token. -/
theorem reading {next : Span → TokenKind → Parse γ}
    (h : ∀ start found, Forward (next start found) ∨
      ∃ d : Diagnostic, next start found = throw d ∧ d.isError = true ∧
        d.code.isSyntactic = true ∧ d.span = some start) :
    Forward (do next (← Parse.span) (← Parse.kind)) := by
  have hrun : ∀ c : Cursor, (do next (← Parse.span) (← Parse.kind) : Parse γ) c =
      next c.here.span c.kind c := fun c => rfl
  constructor
  · intro c
    rw [hrun]
    obtain hforward | ⟨d, heq, -⟩ := h c.here.span c.kind
    · exact hforward.reaches c
    · rw [heq]
      exact .refl c
  · intro c d c' hfails
    rw [hrun] at hfails
    obtain hforward | ⟨d, heq, hd, -⟩ := h c.here.span c.kind
    · exact hforward.isError c _ c' hfails
    · rw [heq] at hfails
      cases hfails
      exact hd
  · intro c d c' hfails
    rw [hrun] at hfails
    obtain hforward | ⟨d, heq, -, hcode, -⟩ := h c.here.span c.kind
    · exact hforward.syntactic c _ c' hfails
    · rw [heq] at hfails
      cases hfails
      exact hcode
  · intro c d c' hfails
    rw [hrun] at hfails
    obtain hforward | ⟨d, heq, -, -, hspan⟩ := h c.here.span c.kind
    · exact hforward.located c _ c' hfails
    · rw [heq] at hfails
      cases hfails
      exact hspan

theorem bind {step : Parse β} {next : β → Parse γ} (h : Forward step)
    (hnext : ∀ b, Forward (next b)) : Forward (step >>= next) := by
  constructor
  · intro c
    refine stateAfter_bind (P := c.Reaches) (h.reaches c) fun b mid _ hreaches => ?_
    exact hreaches.trans ((hnext b).reaches mid)
  · intro c d c' hrun
    obtain hfails | ⟨b, mid, -, hfails⟩ := of_bind_eq_error hrun
    · exact h.isError c d c' hfails
    · exact (hnext b).isError mid d c' hfails
  · intro c d c' hrun
    obtain hfails | ⟨b, mid, -, hfails⟩ := of_bind_eq_error hrun
    · exact h.syntactic c d c' hfails
    · exact (hnext b).syntactic mid d c' hfails
  · intro c d c' hrun
    obtain hfails | ⟨b, mid, -, hfails⟩ := of_bind_eq_error hrun
    · exact h.located c d c' hfails
    · exact (hnext b).located mid d c' hfails

/-! ### Single tokens -/

theorem kind : Forward Parse.kind := of_eq_ok _ id kind_run .refl

theorem nextKind : Forward Parse.nextKind := of_eq_ok _ id nextKind_run .refl

theorem span : Forward Parse.span := of_eq_ok _ id span_run .refl

theorem spanFrom (start : Span) : Forward (Parse.spanFrom start) :=
  of_eq_ok _ id (spanFrom_run start) .refl

theorem isAt (token : FixedToken) : Forward (Parse.isAt token) :=
  of_eq_ok _ id (isAt_run token) .refl

theorem advance : Forward Parse.advance :=
  of_eq_ok _ Cursor.advance advance_run Cursor.reaches_advance

theorem eat (token : FixedToken) : Forward (Parse.eat token) := by
  rw [Parse.eat]
  apply (isAt token).bind
  intro found
  split
  · exact advance.bind fun _ => pure true
  · exact pure false

theorem unexpected (expected : String) : Forward (Parse.unexpected expected : Parse β) :=
  of_eq_error (fun c => .unexpectedToken c.here.span expected c.kind.found) (fun _ => rfl)
    (fun _ => rfl) (fun _ => rfl) fun _ => rfl

theorem expectKind (wanted : TokenKind) : Forward (Parse.expectKind wanted) := by
  rw [Parse.expectKind]
  apply kind.bind
  intro found
  split
  · exact advance
  · exact unexpected _

theorem expect (token : FixedToken) : Forward (Parse.expect token) := expectKind _

theorem expectName : Forward Parse.expectName := by
  rw [Parse.expectName]
  apply kind.bind
  intro found
  split
  · exact advance.bind fun _ => pure _
  · exact of_eq_error (fun c => .expectedName c.here.span _) (fun _ => rfl) (fun _ => rfl)
      (fun _ => rfl) fun _ => rfl

theorem close (opened : Span) (delimiter : Char) (token : FixedToken) :
    Forward (Parse.close opened delimiter token) := by
  rw [Parse.close]
  apply (eat token).bind
  intro found
  split
  · exact of_eq_error (fun c => .unclosedDelimiter opened c.here.span delimiter) (fun _ => rfl)
      (fun _ => rfl) (fun _ => rfl) fun _ => rfl
  · exact pure ()

/-! ### Lists -/

theorem moreItems {item : Parse β} (hitem : Forward item) (bound : Nat) :
    Forward (Parse.moreItems item bound) := by
  induction bound with
  | zero => exact pure []
  | succ bound ih =>
      rw [Parse.moreItems]
      apply (eat .comma).bind
      intro found
      split
      · exact hitem.bind fun _ => ih.bind fun _ => pure _
      · exact pure []

theorem commaSeparated {item : Parse β} (hitem : Forward item) (bound : Nat) :
    Forward (Parse.commaSeparated item bound) :=
  hitem.bind fun _ => (hitem.moreItems bound).bind fun _ => pure _

/-! ### Operators and suffixes -/

section Operators

variable {operand : Parse (Expr Span)}

theorem operatorsBehind (hoperand : Forward operand) (level bound : Nat) (left : Expr Span) :
    Forward (Parse.operatorsBehind operand level bound left) := by
  induction bound generalizing left with
  | zero => exact pure left
  | succ bound ih =>
      rw [Parse.operatorsBehind]
      apply kind.bind
      intro found
      split
      · exact pure left
      · split
        · exact advance.bind fun _ => hoperand.bind fun _ => ih _
        · exact pure left

theorem binary (hoperand : Forward operand) (bound level : Nat) :
    Forward (Parse.binary operand bound level) := by
  induction level with
  | zero => exact hoperand
  | succ level ih => exact ih.bind fun left => ih.operatorsBehind _ _ left

theorem unary (hoperand : Forward operand) (bound : Nat) :
    Forward (Parse.unary operand bound) := by
  induction bound with
  | zero => exact hoperand
  | succ bound ih =>
      rw [Parse.unary]
      apply kind.bind
      intro found
      split
      · exact hoperand
      · exact advance.bind fun _ => ih.bind fun _ => pure _

theorem sliceTerm (hoperand : Forward operand) : Forward (Parse.sliceTerm operand) := by
  rw [Parse.sliceTerm]
  refine hoperand.bind fun high => (eat .colon).bind fun found => ?_
  split
  · exact hoperand.bind fun _ => pure _
  · exact pure _

theorem sliceTerms (hoperand : Forward operand) (bound : Nat) (delimiter : Char)
    (closing : FixedToken) : Forward (Parse.sliceTerms operand bound delimiter closing) :=
  advance.bind fun _ => (hoperand.sliceTerm.commaSeparated bound).bind fun _ =>
    (close _ _ _).bind fun _ => pure _

theorem suffixes (hoperand : Forward operand) (size bound : Nat) (base : Expr Span) :
    Forward (Parse.suffixes operand size bound base) := by
  induction bound generalizing base with
  | zero => exact pure base
  | succ bound ih =>
      rw [Parse.suffixes]
      apply kind.bind
      intro found
      split
      · exact (hoperand.sliceTerms _ _ _).bind fun _ => (spanFrom _).bind fun _ => ih _
      · exact (hoperand.sliceTerms _ _ _).bind fun _ => (spanFrom _).bind fun _ => ih _
      · exact advance.bind fun _ => expectName.bind fun _ => (spanFrom _).bind fun _ => ih _
      · exact pure base

end Operators

/-! ### Forms -/

section Forms

variable {expr : Parse (Expr Span)} {type : Parse (TypeExpr Span)}

theorem tupleItem (hexpr : Forward expr) : Forward (Parse.tupleItem expr) := by
  rw [Parse.tupleItem]
  refine nextKind.bind fun next => (isAt .minus).bind fun found => ?_
  split
  · exact advance.bind fun _ => pure _
  · exact hexpr

theorem typedPrimary (htype : Forward type) : Forward (Parse.typedPrimary type) := by
  rw [Parse.typedPrimary]
  refine htype.bind fun type => (eat .kwUnknown).bind fun found => ?_
  split
  · exact pure _
  · exact expectName.bind fun _ => pure _

theorem primaryForm (inPattern : Bool) (bound : Nat) (hexpr : Forward expr)
    (htype : Forward type) : Forward (Parse.primaryForm inPattern bound expr type) := by
  rw [Parse.primaryForm]
  refine reading fun start found => ?_
  cases found with
  | int n => exact .inl (advance.bind fun _ => pure _)
  | real numeral => exact .inl (advance.bind fun _ => pure _)
  | bitString digits => exact .inl (advance.bind fun _ => pure _)
  | name id =>
      refine .inl (advance.bind fun _ => kind.bind fun next => ?_)
      split
      · split
        · exact pure _
        · exact advance.bind fun _ => pure _
      · exact pure _
  | call callee =>
      refine .inl (advance.bind fun _ => (isAt .closeParen).bind fun found => ?_)
      split
      · exact (close _ _ _).bind fun _ => pure _
      · exact (hexpr.commaSeparated bound).bind fun _ => (close _ _ _).bind fun _ => pure _
  | error => exact .inl (advance.bind fun _ => pure _)
  | fixed word =>
      cases word with
      | openParen =>
          refine .inl (nextKind.bind fun next => ?_)
          split
          · exact htype.typedPrimary
          · exact advance.bind fun _ => (hexpr.tupleItem.commaSeparated bound).bind fun _ =>
              (close _ _ _).bind fun _ => pure _
      | kwBits | kwBit | kwInteger | kwBoolean => exact .inl htype.typedPrimary
      | kwUnknown => exact .inl (advance.bind fun _ => pure _)
      | kwIf =>
          exact .inl (advance.bind fun _ => hexpr.bind fun _ => (expect _).bind fun _ =>
            hexpr.bind fun _ => (expect _).bind fun _ => hexpr.bind fun _ => pure _)
      | _ => exact .inr ⟨_, rfl, rfl, rfl, rfl⟩
  | _ => exact .inr ⟨_, rfl, rfl, rfl, rfl⟩

theorem primary (inPattern : Bool) (bound : Nat) (hexpr : Forward expr) (htype : Forward type) :
    Forward (Parse.primary inPattern bound expr type) :=
  span.bind fun _ => (hexpr.primaryForm inPattern bound htype).bind fun _ =>
    (spanFrom _).bind fun _ => pure _

theorem typeForm (bound : Nat) (hexpr : Forward expr) (htype : Forward type) :
    Forward (Parse.typeForm bound expr type) := by
  rw [Parse.typeForm]
  refine reading fun start found => ?_
  split
  · exact .inl (advance.bind fun _ => hexpr.bind fun _ => (close _ _ _).bind fun _ => pure _)
  · exact .inl (advance.bind fun _ => pure _)
  · exact .inl (advance.bind fun _ => pure _)
  · exact .inl (advance.bind fun _ => pure _)
  · exact .inl (advance.bind fun _ => pure _)
  · exact .inl (advance.bind fun _ => (htype.commaSeparated bound).bind fun _ =>
      (close _ _ _).bind fun _ => pure _)
  · exact .inr ⟨_, rfl, rfl, rfl, rfl⟩

end Forms

theorem exprAt_typeAt (inPattern : Bool) (bound : Nat) :
    (∀ level, Forward (exprAt inPattern bound level)) ∧ Forward (typeAt inPattern bound) := by
  induction bound with
  | zero =>
      constructor
      · intro level
        exact of_eq_error (fun c => .expectedExpression c.here.span c.kind.found) (fun _ => rfl)
          (fun _ => rfl) (fun _ => rfl) fun _ => rfl
      · exact of_eq_error (fun c => .expectedType c.here.span c.kind.found) (fun _ => rfl)
          (fun _ => rfl) (fun _ => rfl) fun _ => rfl
  | succ bound ih =>
      obtain ⟨hexpr, htype⟩ := ih
      have hform := typeForm bound (hexpr BinaryOp.loosest) htype
      refine ⟨fun level => ?_, hform⟩
      have hoperand := (primary inPattern bound (hexpr BinaryOp.loosest) hform).bind fun base =>
        (hexpr BinaryOp.boundLevel).suffixes bound bound base
      exact (hoperand.unary bound).binary bound level

theorem expr (bound : Nat) : Forward (Parse.expr bound) := (exprAt_typeAt false bound).1 _

end Forward

end ArmPseudocode.Parse

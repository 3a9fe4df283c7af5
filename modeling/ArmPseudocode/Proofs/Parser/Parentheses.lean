import ArmPseudocode.Proofs.Eval.Erased
import ArmPseudocode.Proofs.Parser.Recognition
import ArmPseudocode.Proofs.Parser.Unambiguous

/-!
# Parentheses change nothing

An expression that ends at a semicolon is read as the same tree in front of a closing parenthesis:
neither token continues an expression, and none is consumed while one is read except where it is
called for. So in parentheses the expression is read as a tuple of one component, and such a tuple
has the value of its component and binds what that one does.

The one thing in the way is the parenthesis itself, which in front of a builtin type opens a tuple
of types.
-/

namespace ArmPseudocode

/-! ### Semicolons as parentheses -/

/-- A closing parenthesis for a semicolon. -/
def TokenKind.enclosed (k : TokenKind) : TokenKind :=
  if k = .fixed .semicolon then .fixed .closeParen else k

def Token.enclosed (t : Token) : Token :=
  ⟨t.kind.enclosed, t.span⟩

namespace Cursor

variable {c : Cursor}

def enclosed (c : Cursor) : Cursor :=
  ⟨c.before.map Token.enclosed, c.here.enclosed, c.after.map Token.enclosed⟩

theorem kind_enclosed (c : Cursor) : c.enclosed.kind = c.kind.enclosed := rfl

theorem nextKind_enclosed (c : Cursor) : c.enclosed.nextKind = c.nextKind.enclosed := by
  obtain ⟨before, here, after⟩ := c
  cases after <;> rfl

theorem kinds_enclosed (c : Cursor) : c.enclosed.kinds = c.kinds.map TokenKind.enclosed := by
  simp [kinds, remaining, enclosed, Token.enclosed]

theorem Terminated.enclosed (hc : c.Terminated) : c.enclosed.Terminated := by
  rw [Terminated, kinds_enclosed, List.getLast?_map, hc]
  rfl

theorem lastSpan_enclosed (c : Cursor) : c.enclosed.lastSpan = c.lastSpan := by
  obtain ⟨before, here, after⟩ := c
  cases before <;> rfl

end Cursor

namespace TokenKind

variable {k : TokenKind}

theorem enclosed_of_ne (h : k ≠ .fixed .semicolon) : k.enclosed = k := if_neg h

/-- A token that is neither of the two is found where it was. -/
theorem enclosed_eq_iff {wanted : TokenKind} (hsemicolon : wanted ≠ .fixed .semicolon)
    (hparen : wanted ≠ .fixed .closeParen) : k.enclosed = wanted ↔ k = wanted := by
  by_cases hk : k = .fixed .semicolon
  · subst hk
    exact ⟨fun h => absurd h.symm hparen, fun h => absurd h.symm hsemicolon⟩
  · rw [enclosed_of_ne hk]

end TokenKind

theorem Cursor.kind_enclosed_of_eq {c : Cursor} {k : TokenKind} (hkind : c.kind = k)
    (hk : k ≠ .fixed .semicolon) : c.enclosed.kind = k := by
  rw [kind_enclosed, hkind, TokenKind.enclosed_of_ne hk]

theorem Cursor.advance_enclosed (c : Cursor) : c.advance.enclosed = c.enclosed.advance := by
  obtain ⟨before, here, after⟩ := c
  have hend : here.enclosed.kind = .eof ↔ here.kind = .eof :=
    TokenKind.enclosed_eq_iff (by simp) (by simp)
  cases after with
  | nil => rfl
  | cons token rest =>
      by_cases heof : here.kind = .eof
      · simp [advance, enclosed, atEnd, kind, hend, heof]
      · simp [advance, enclosed, atEnd, kind, hend, heof]

namespace Parse

variable {β γ : Type} {c : Cursor}

/-- What the step reads at the cursor it reads also with parentheses for the semicolons, and stops
at the same place. -/
def Encloses (step : Parse β) (c : Cursor) : Prop :=
  ∀ b d, step c = .ok b d → step c.enclosed = .ok b d.enclosed

/-- The step reads nothing at the cursor. -/
def Fails (step : Parse β) (c : Cursor) : Prop :=
  ∀ b d, step c ≠ .ok b d

/-- No expression is read at a semicolon, nor at a sign in front of one. -/
structure RefusesSemicolon (expr : Parse (Expr Span)) : Prop where
  here (c : Cursor) (hkind : c.kind = .fixed .semicolon) : Fails expr c
  behind_minus (c : Cursor) (hkind : c.kind = .fixed .minus)
    (hnext : c.nextKind = .fixed .semicolon) : Fails expr c

theorem Fails.bind {step : Parse β} {next : β → Parse γ} (h : Fails step c) :
    Fails (step >>= next) c := by
  intro x e hrun
  obtain ⟨b, d, hstep, -⟩ := of_bind_eq_ok hrun
  exact h b d hstep

namespace Encloses

variable {step : Parse β} {next : β → Parse γ}

theorem pure (b : β) : Encloses (Pure.pure b) c := by
  intro x d hrun
  obtain ⟨rfl, rfl⟩ := of_pure_eq_ok hrun
  rfl

theorem of_fails (h : Fails step c) : Encloses step c :=
  fun b d hrun => absurd hrun (h b d)

theorem bind (h : Encloses step c) (hnext : ∀ b d, step c = .ok b d → Encloses (next b) d) :
    Encloses (step >>= next) c := by
  intro x e hrun
  obtain ⟨b, d, hstep, hrest⟩ := of_bind_eq_ok hrun
  rw [bind_of_eq_ok (h b d hstep)]
  exact hnext b d hstep x e hrest

/-- Looking at a token, a step does the same at either of the two, or fails at a semicolon. -/
theorem at_kind {k : TokenKind} {next : TokenKind → Parse γ}
    (hsame : k = .fixed .semicolon →
      next (.fixed .closeParen) c.enclosed = next (.fixed .semicolon) c.enclosed ∨
        Fails (next (.fixed .semicolon)) c)
    (h : Encloses (next k) c) {x : γ} {e : Cursor} (hrun : next k c = .ok x e) :
    next k.enclosed c.enclosed = .ok x e.enclosed := by
  have hread := h x e hrun
  by_cases hk : k = .fixed .semicolon
  · subst hk
    obtain hsame | hfails := hsame rfl
    · exact hsame.trans hread
    · exact absurd hrun (hfails x e)
  · rwa [TokenKind.enclosed_of_ne hk]

theorem reading {next : TokenKind → Parse γ}
    (hsame : c.kind = .fixed .semicolon →
      next (.fixed .closeParen) c.enclosed = next (.fixed .semicolon) c.enclosed ∨
        Fails (next (.fixed .semicolon)) c)
    (h : Encloses (next c.kind) c) : Encloses (Parse.kind >>= next) c :=
  fun _ _ hrun => at_kind hsame h hrun

theorem reading_next {next : TokenKind → Parse γ}
    (hsame : c.nextKind = .fixed .semicolon →
      next (.fixed .closeParen) c.enclosed = next (.fixed .semicolon) c.enclosed ∨
        Fails (next (.fixed .semicolon)) c)
    (h : Encloses (next c.nextKind) c) : Encloses (Parse.nextKind >>= next) c := by
  intro x e hrun
  show next c.enclosed.nextKind c.enclosed = _
  rw [Cursor.nextKind_enclosed]
  exact at_kind hsame h hrun

theorem reading_span {next : Span → Parse γ} (h : Encloses (next c.here.span) c) :
    Encloses (Parse.span >>= next) c := h

theorem reading_spanFrom {start : Span} {next : Span → Parse γ}
    (h : ∀ span, Encloses (next span) c) : Encloses (Parse.spanFrom start >>= next) c := by
  intro x e hrun
  show next (start.merge c.enclosed.lastSpan) c.enclosed = _
  rw [Cursor.lastSpan_enclosed]
  exact h _ x e hrun

theorem advance : Encloses Parse.advance c := by
  intro span d hrun
  rw [advance_run] at hrun
  cases hrun
  rw [advance_run, Cursor.advance_enclosed]
  rfl

theorem reading_isAt {token : FixedToken} {next : Bool → Parse γ} (hsemicolon : token ≠ .semicolon)
    (hparen : token ≠ .closeParen) (h : Encloses (next (c.kind = .fixed token)) c) :
    Encloses (Parse.isAt token >>= next) c := by
  intro x e hrun
  have hfound : (c.enclosed.kind = .fixed token) = (c.kind = .fixed token) :=
    propext (TokenKind.enclosed_eq_iff (by simpa using hsemicolon) (by simpa using hparen))
  show next (c.enclosed.kind = .fixed token) c.enclosed = _
  simp only [hfound]
  exact h x e hrun

theorem eat {token : FixedToken} (hsemicolon : token ≠ .semicolon) (hparen : token ≠ .closeParen) :
    Encloses (Parse.eat token) c := by
  refine reading_isAt hsemicolon hparen ?_
  split
  · exact advance.bind fun _ _ _ => .pure true
  · exact .pure false

theorem expect {token : FixedToken} (hsemicolon : token ≠ .semicolon) :
    Encloses (Parse.expect token) c := by
  intro span d hrun
  rw [Parse.expect, expectKind_run] at hrun
  split at hrun
  · next hkind =>
      cases hrun
      rw [expect_of_kind (Cursor.kind_enclosed_of_eq hkind (by simpa using hsemicolon)),
        Cursor.advance_enclosed]
      rfl
  · cases hrun

theorem expectName : Encloses Parse.expectName c := by
  apply reading
  · intro _
    exact .inr fun _ _ hrun => by cases hrun
  · split
    · exact advance.bind fun _ _ _ => .pure _
    · exact of_fails fun _ _ hrun => by cases hrun

theorem close {opened : Span} {delimiter : Char} {token : FixedToken}
    (hsemicolon : token ≠ .semicolon) : Encloses (Parse.close opened delimiter token) c := by
  intro b d hrun
  by_cases hkind : c.kind = .fixed token
  · rw [close_of_kind hkind] at hrun
    cases hrun
    rw [close_of_kind (Cursor.kind_enclosed_of_eq hkind (by simpa using hsemicolon)),
      Cursor.advance_enclosed]
  · rw [Parse.close, bind_of_eq_ok (eat_of_kind_ne hkind)] at hrun
    cases hrun

/-! ### Lists -/

section Lists

variable {item : Parse β}

theorem moreItems (hitem : ∀ c, Encloses item c) (bound : Nat) :
    Encloses (Parse.moreItems item bound) c := by
  induction bound generalizing c with
  | zero => exact .pure []
  | succ bound ih =>
      refine bind (eat (by decide) (by decide)) fun found d _ => ?_
      cases found with
      | false => exact .pure []
      | true => exact (hitem d).bind fun _ _ _ => ih.bind fun _ _ _ => .pure _

theorem commaSeparated (hitem : ∀ c, Encloses item c) (bound : Nat) :
    Encloses (Parse.commaSeparated item bound) c :=
  (hitem c).bind fun _ _ _ => (moreItems hitem bound).bind fun _ _ _ => .pure _

end Lists

/-! ### Operators -/

section Operators

variable {operand : Parse (Expr Span)}

theorem operatorsBehind (hoperand : ∀ c, Encloses operand c) (level bound : Nat)
    (left : Expr Span) : Encloses (Parse.operatorsBehind operand level bound left) c := by
  induction bound generalizing c left with
  | zero => exact .pure left
  | succ bound ih =>
      apply reading
      · intro _
        exact .inl rfl
      · split
        · exact .pure left
        · split
          · exact advance.bind fun _ d _ => (hoperand d).bind fun _ _ _ => ih _
          · exact .pure left

theorem binary (hoperand : ∀ c, Encloses operand c) (bound level : Nat) :
    Encloses (Parse.binary operand bound level) c := by
  induction level generalizing c with
  | zero => exact hoperand c
  | succ level ih =>
      exact ih.bind fun left _ _ => operatorsBehind (fun _ => ih) (level + 1) bound left

theorem unary (hoperand : ∀ c, Encloses operand c) (bound : Nat) :
    Encloses (Parse.unary operand bound) c := by
  induction bound generalizing c with
  | zero => exact hoperand c
  | succ bound ih =>
      apply reading
      · intro _
        exact .inl rfl
      · split
        · exact hoperand c
        · exact advance.bind fun _ _ _ => ih.bind fun _ _ _ => .pure _

end Operators

/-! ### Suffixes -/

section Suffixes

variable {inner : Parse (Expr Span)}

theorem sliceTerm (hinner : ∀ c, Encloses inner c) : Encloses (Parse.sliceTerm inner) c := by
  refine (hinner c).bind fun high d _ => (eat (by decide) (by decide)).bind fun found d' _ => ?_
  cases found with
  | false => exact .pure _
  | true => exact (hinner d').bind fun _ _ _ => .pure _

theorem sliceTerms (hinner : ∀ c, Encloses inner c) (bound : Nat) (delimiter : Char)
    {closing : FixedToken} (hclosing : closing ≠ .semicolon) :
    Encloses (Parse.sliceTerms inner bound delimiter closing) c :=
  advance.bind fun _ _ _ => (commaSeparated (fun _ => sliceTerm hinner) bound).bind fun _ _ _ =>
    (close hclosing).bind fun _ _ _ => .pure _

theorem suffixes (hinner : ∀ c, Encloses inner c) (size bound : Nat) (base : Expr Span) :
    Encloses (Parse.suffixes inner size bound base) c := by
  induction bound generalizing c base with
  | zero => exact .pure base
  | succ bound ih =>
      apply reading
      · intro _
        exact .inl rfl
      · split
        · refine (sliceTerms hinner size '<' (by decide)).bind fun _ _ _ => ?_
          exact reading_spanFrom fun _ => ih _
        · refine (sliceTerms hinner size '[' (by decide)).bind fun _ _ _ => ?_
          exact reading_spanFrom fun _ => ih _
        · refine advance.bind fun _ _ _ => expectName.bind fun _ _ _ => ?_
          exact reading_spanFrom fun _ => ih _
        · exact .pure base

end Suffixes

/-! ### Primary expressions and types -/

section Forms

variable {expr : Parse (Expr Span)} {type : Parse (TypeExpr Span)}

theorem typedPrimary (htype : ∀ c, Encloses type c) : Encloses (Parse.typedPrimary type) c := by
  refine (htype c).bind fun t d _ => (eat (by decide) (by decide)).bind fun found _ _ => ?_
  cases found with
  | false => exact expectName.bind fun _ _ _ => .pure _
  | true => exact .pure _

theorem tupleItem (hexpr : ∀ c, Encloses expr c) (hrefuses : RefusesSemicolon expr) :
    Encloses (Parse.tupleItem expr) c := by
  apply reading_next
  · intro hnext
    by_cases hkind : c.kind = .fixed .minus
    · -- The sign is no slot alone, and no expression.
      refine .inr fun e d hrun => hrefuses.behind_minus c hkind hnext e d ?_
      rw [bind_of_eq_ok (isAt_run .minus c)] at hrun
      simpa using hrun
    · have hminus : c.enclosed.kind ≠ .fixed .minus :=
        mt (TokenKind.enclosed_eq_iff (by simp) (by simp)).mp hkind
      left
      rw [bind_of_eq_ok (isAt_run .minus c.enclosed), bind_of_eq_ok (isAt_run .minus c.enclosed)]
      simp only [hminus, decide_false, Bool.false_and]
  · apply reading_isAt (by decide) (by decide)
    split
    · exact advance.bind fun _ _ _ => .pure _
    · exact hexpr c

/-- What stands behind the opening of a call. At a semicolon that is no argument. -/
theorem callForm (hexpr : ∀ c, Encloses expr c) (hrefuses : RefusesSemicolon expr) (bound : Nat)
    (start : Span) (form : List (Expr Span) → Span → Expr Span) :
    Encloses (do
      let args ← if ← Parse.isAt .closeParen then Pure.pure [] else Parse.commaSeparated expr bound
      Parse.close start '(' .closeParen
      return form args) c := by
  have hclosed : ∀ (args : List (Expr Span)) (c : Cursor), Encloses (do
      Parse.close start '(' .closeParen
      return form args) c := fun _ _ => (close (by decide)).bind fun _ _ _ => .pure _
  by_cases hkind : c.kind = .fixed .semicolon
  · apply of_fails
    intro e d hrun
    rw [bind_of_eq_ok (isAt_run .closeParen c)] at hrun
    simp only [hkind, TokenKind.fixed.injEq, reduceCtorEq, decide_false, Bool.false_eq_true,
      if_false] at hrun
    exact ((hrefuses.here c hkind).bind.bind) e d hrun
  · have hfound : (c.enclosed.kind = .fixed .closeParen) = (c.kind = .fixed .closeParen) := by
      rw [Cursor.kind_enclosed, TokenKind.enclosed_of_ne hkind]
    intro e d hrun
    rw [bind_of_eq_ok (isAt_run .closeParen c)] at hrun
    rw [bind_of_eq_ok (isAt_run .closeParen c.enclosed)]
    simp only [hfound]
    revert hrun
    split
    · exact hclosed [] c e d
    · exact (commaSeparated hexpr bound).bind (fun _ _ _ => hclosed _ _) e d

theorem primaryForm (inPattern : Bool) (bound : Nat) (hexpr : ∀ c, Encloses expr c)
    (htype : ∀ c, Encloses type c) (hrefuses : RefusesSemicolon expr) :
    Encloses (Parse.primaryForm inPattern bound expr type) c := by
  apply reading_span
  apply reading
  · intro _
    exact .inr fun _ _ hrun => by cases hrun
  · cases c.kind with
    | name id =>
        refine advance.bind fun _ d _ => reading (fun _ => .inl rfl) ?_
        split
        · cases inPattern with
          | true => exact .pure _
          | false => exact advance.bind fun _ _ _ => .pure _
        · exact .pure _
    | int | real | bitString | error => exact advance.bind fun _ _ _ => .pure _
    | call callee =>
        exact advance.bind fun _ _ _ => callForm hexpr hrefuses bound _ fun args =>
          (.call · callee args)
    | fixed word =>
        cases word with
        | openParen =>
            apply reading_next
            · intro _
              exact .inl rfl
            · split
              · exact typedPrimary htype
              · refine advance.bind fun _ _ _ =>
                  (commaSeparated (fun _ => tupleItem hexpr hrefuses) bound).bind fun _ _ _ => ?_
                exact (close (by decide)).bind fun _ _ _ => .pure _
        | kwBits | kwBit | kwInteger | kwBoolean => exact typedPrimary htype
        | kwUnknown => exact advance.bind fun _ _ _ => .pure _
        | kwIf =>
            refine advance.bind fun _ d _ => (hexpr d).bind fun _ _ _ =>
              (expect (by decide)).bind fun _ d' _ => (hexpr d').bind fun _ _ _ => ?_
            exact (expect (by decide)).bind fun _ d'' _ => (hexpr d'').bind fun _ _ _ => .pure _
        | _ => exact of_fails fun _ _ hrun => by cases hrun
    | _ => exact of_fails fun _ _ hrun => by cases hrun

theorem primary (inPattern : Bool) (bound : Nat) (hexpr : ∀ c, Encloses expr c)
    (htype : ∀ c, Encloses type c) (hrefuses : RefusesSemicolon expr) :
    Encloses (Parse.primary inPattern bound expr type) c := by
  apply reading_span
  refine (primaryForm inPattern bound hexpr htype hrefuses).bind fun _ _ _ => ?_
  exact reading_spanFrom fun _ => .pure _

theorem typeForm (bound : Nat) (hexpr : ∀ c, Encloses expr c) (htype : ∀ c, Encloses type c) :
    Encloses (Parse.typeForm bound expr type) c := by
  apply reading_span
  apply reading
  · intro _
    exact .inr fun _ _ hrun => by cases hrun
  · cases c.kind with
    | name id => exact advance.bind fun _ _ _ => .pure _
    | fixed word =>
        cases word with
        | kwBits =>
            refine advance.bind fun _ d _ => (hexpr d).bind fun _ _ _ => ?_
            exact (close (by decide)).bind fun _ _ _ => .pure _
        | kwBit | kwInteger | kwBoolean => exact advance.bind fun _ _ _ => .pure _
        | openParen =>
            refine advance.bind fun _ _ _ => (commaSeparated htype bound).bind fun _ _ _ => ?_
            exact (close (by decide)).bind fun _ _ _ => .pure _
        | _ => exact of_fails fun _ _ hrun => by cases hrun
    | _ => exact of_fails fun _ _ hrun => by cases hrun

end Forms

end Encloses

/-! ### Nothing begins with a semicolon -/

theorem kind_advance_of_nextKind {k : TokenKind} (hkind : c.kind ≠ .eof) (hk : k ≠ c.kind)
    (hnext : c.nextKind = k) : c.advance.kind = k := by
  cases hafter : c.after with
  | nil =>
      rw [Cursor.nextKind, hafter] at hnext
      exact absurd hnext.symm hk
  | cons token rest =>
      rw [Cursor.nextKind, hafter] at hnext
      rw [Cursor.advance_eq hafter hkind]
      exact hnext

section Refusals

variable {operand : Parse (Expr Span)}

theorem binary_fails (h : Fails operand c) (bound level : Nat) :
    Fails (binary operand bound level) c := by
  induction level with
  | zero => exact h
  | succ level ih => exact ih.bind

theorem unary_fails (hnone : unaryOp? c.kind = none) (h : Fails operand c) (bound : Nat) :
    Fails (unary operand bound) c := by
  cases bound with
  | zero => exact h
  | succ bound =>
      intro e d hrun
      rw [unary, bind_of_eq_ok (kind_run c), hnone] at hrun
      exact h e d hrun

theorem unary_minus_fails (hkind : c.kind = .fixed .minus) (h : Fails operand c) (bound : Nat)
    (hbehind : ∀ bound, Fails (unary operand bound) c.advance) :
    Fails (unary operand bound) c := by
  cases bound with
  | zero => exact h
  | succ bound =>
      intro e d hrun
      rw [unary, bind_of_eq_ok (kind_run c), hkind] at hrun
      dsimp only [unaryOp?] at hrun
      rw [bind_of_eq_ok (advance_run c)] at hrun
      exact (hbehind bound).bind e d hrun

theorem refusesSemicolon_of_operand
    (h : ∀ c : Cursor, c.kind = .fixed .semicolon ∨ c.kind = .fixed .minus → Fails operand c)
    (bound level : Nat) : RefusesSemicolon (binary (unary operand bound) bound level) := by
  have hsemicolon : ∀ c : Cursor, c.kind = .fixed .semicolon →
      ∀ more, Fails (unary operand more) c :=
    fun c hkind => unary_fails (by rw [hkind]; rfl) (h c (.inl hkind))
  constructor
  · intro c hkind
    exact binary_fails (hsemicolon c hkind bound) bound level
  · intro c hkind hnext
    have hadvance : c.advance.kind = .fixed .semicolon :=
      kind_advance_of_nextKind (by simp [hkind]) (by simp [hkind]) hnext
    apply binary_fails
    exact unary_minus_fails hkind (h c (.inr hkind)) bound (hsemicolon c.advance hadvance)

end Refusals

theorem primary_fails {inPattern : Bool} {bound : Nat} {expr : Parse (Expr Span)}
    {type : Parse (TypeExpr Span)} (hkind : c.kind = .fixed .semicolon ∨ c.kind = .fixed .minus) :
    Fails (primary inPattern bound expr type) c := by
  have hform : Fails (primaryForm inPattern bound expr type) c := by
    intro form d hrun
    rw [primaryForm, bind_of_eq_ok (span_run c), bind_of_eq_ok (kind_run c)] at hrun
    obtain hkind | hkind := hkind <;> rw [hkind] at hrun <;> cases hrun
  intro e d hrun
  rw [primary, bind_of_eq_ok (span_run c)] at hrun
  exact hform.bind e d hrun

theorem exprAt_refusesSemicolon (inPattern : Bool) (bound level : Nat) :
    RefusesSemicolon (exprAt inPattern bound level) := by
  cases bound with
  | zero =>
      constructor
      · intro _ _ _ _ hrun
        cases hrun
      · intro _ _ _ _ _ hrun
        cases hrun
  | succ bound =>
      exact refusesSemicolon_of_operand (fun _ hkind => (primary_fails hkind).bind) bound level

/-! ### Expressions in front of a parenthesis -/

theorem exprAt_typeAt_encloses (inPattern : Bool) (bound : Nat) :
    (∀ level c, Encloses (exprAt inPattern bound level) c) ∧
      ∀ c, Encloses (typeAt inPattern bound) c := by
  induction bound with
  | zero =>
      constructor
      · intro _ _ _ _ hrun
        cases hrun
      · intro _ _ _ hrun
        cases hrun
  | succ bound ih =>
      obtain ⟨hexpr, htype⟩ := ih
      have hform : ∀ c, Encloses (typeForm bound (exprAt inPattern bound BinaryOp.loosest)
          (typeAt inPattern bound)) c := fun c => .typeForm bound (hexpr _) htype
      refine ⟨fun level c => .binary (fun _ => .unary (fun c => ?_) bound) bound level, hform⟩
      apply Encloses.bind
      · exact .primary inPattern bound (hexpr _) hform (exprAt_refusesSemicolon inPattern bound _)
      · exact fun base _ _ => .suffixes (hexpr _) bound bound base

/-- Where a semicolon ends an expression a closing parenthesis can end it. -/
theorem standsBefore_closeParen {bound : Nat} {e : Expr Span} {d : Cursor} (hc : c.Terminated)
    (hbound : c.kinds.length ≤ bound) (hrun : expr bound c = .ok e d)
    (hstop : d.kind = .fixed .semicolon) : e.erase.StandsBefore (.fixed .closeParen) := by
  have henclosed := (exprAt_typeAt_encloses false bound).1 _ c e d hrun
  have hlength : c.enclosed.kinds.length = c.kinds.length := by
    rw [Cursor.kinds_enclosed, List.length_map]
  have hstands := (ParseStmt.of_expr hc.enclosed (by rwa [hlength]) henclosed).2
  rwa [Cursor.kind_enclosed, hstop] at hstands

/-! ### Parentheses around an expression -/

/-- Where the same tree is read the same token stands first. -/
theorem kind_eq_of_erase_eq {bound bound' : Nat} {e e' : Expr Span} {c' d d' : Cursor}
    (hc : c.Terminated) (hc' : c'.Terminated) (hrun : expr bound c = .ok e d)
    (hrun' : expr bound' c' = .ok e' d') (h : e.erase = e'.erase) : c.kind = c'.kind := by
  have hfirst := ParseStmt.head?_tokens hc hrun
  rw [h, ParseStmt.head?_tokens hc' hrun'] at hfirst
  exact (Option.some.inj hfirst).symm

/-- An expression is read as one where a blank slot might stand: a sign alone is none. -/
theorem tupleItem_of_expr {bound : Nat} {e : Expr Span} {d : Cursor} (hc : c.Terminated)
    (hrun : expr bound c = .ok e d) : tupleItem (expr bound) c = .ok e d := by
  rw [tupleItem, bind_of_eq_ok (nextKind_run c), bind_of_eq_ok (isAt_run .minus c), if_neg ?_]
  · exact hrun
  intro hslot
  simp only [Bool.and_eq_true, Bool.or_eq_true, decide_eq_true_eq] at hslot
  obtain ⟨hminus, hnext⟩ := hslot
  obtain ⟨hpass, he⟩ := expr_reads bound c e d hc hrun
  have hne : c.kind ≠ .eof := by simp [hminus]
  have hkinds : c.kinds = .fixed .minus :: c.nextKind :: c.advance.after.map (·.kind) := by
    rw [(Cursor.passes_advance hc hne).kinds_eq, c.advance.kinds_eq, Cursor.kind_advance hc hne,
      hminus]
    rfl
  have hbegins := beginsExpr_behind_minus he (hpass.kinds_eq.symm.trans hkinds)
  obtain hnext | hnext := hnext
  · rw [hnext] at hbegins
    cases hbegins
  · rw [hnext] at hbegins
    cases hbegins

theorem commaSeparated_single {item : Parse β} {b : β} {d : Cursor} (hitem : item c = .ok b d)
    (hcomma : d.kind ≠ .fixed .comma) (bound : Nat) :
    commaSeparated item bound c = .ok [b] d := by
  rw [commaSeparated, bind_of_eq_ok hitem]
  cases bound with
  | zero => rfl
  | succ bound =>
      rw [moreItems, bind_assoc, bind_of_eq_ok (eat_of_kind_ne hcomma)]
      rfl

theorem expr_of_paren {bound : Nat} {e : Expr Span} {d : Cursor} (hc : c.Terminated)
    (hkind : c.kind = .fixed .openParen) (hrun : expr bound c.advance = .ok e d)
    (hclose : d.kind = .fixed .closeParen) (hstart : beginsType c.advance.kind = false)
    (hstop : Stops BinaryOp.loosest d.advance.kind) :
    expr (bound + 1) c = .ok (.tuple (c.here.span.merge d.advance.lastSpan) [e]) d.advance := by
  have hne : c.kind ≠ .eof := by simp [hkind]
  have hadvanced := (Cursor.passes_advance hc hne).terminated hc
  rw [Cursor.kind_advance hc hne] at hstart
  refine expr_of_primary (by rw [hkind]; rfl) ?_ hstop
  rw [primary, bind_of_eq_ok (span_run c), primaryForm, bind_assoc, bind_of_eq_ok (span_run c),
    bind_assoc, bind_of_eq_ok (kind_run c), hkind]
  dsimp only
  rw [bind_assoc, bind_of_eq_ok (nextKind_run c), if_neg (by simp [hstart]), bind_assoc,
    bind_of_eq_ok (advance_run c), bind_assoc,
    bind_of_eq_ok (commaSeparated_single (tupleItem_of_expr hadvanced hrun) (by simp [hclose]) _),
    bind_assoc, bind_of_eq_ok (close_of_kind hclose)]
  rfl

/-- An expression that a semicolon ends, and that begins with no builtin type, is read in
parentheses as a tuple of this one component. The tuple has the same value in every environment, and
an assignment to it binds the same. -/
theorem expr_in_parentheses {bound : Nat} {e : Expr Span} {d : Cursor} (hc : c.Terminated)
    (hbound : c.kinds.length ≤ bound) (hrun : expr bound c = .ok e d)
    (hstop : d.kind = .fixed .semicolon) (hstart : beginsType c.kind = false) :
    c.Passes e.tokens d ∧
      ∀ bound' c' rest, c'.Terminated → c'.kinds.length ≤ bound' →
        c'.kinds = .fixed .openParen ::
          (e.tokens ++ .fixed .closeParen :: .fixed .semicolon :: rest) →
        ∃ span inner d', expr bound' c' = .ok (.tuple span [inner]) d' ∧
          inner.erase = e.erase ∧
          c'.Passes (.fixed .openParen :: (e.tokens ++ [.fixed .closeParen])) d' ∧
          d'.kind = .fixed .semicolon ∧
          (∀ env, (Expr.tuple span [inner]).eval env = e.eval env) ∧
          ∀ v, (Expr.tuple span [inner]).assign v = e.assign v := by
  have hpass := (expr_reads bound c e d hc hrun).1
  refine ⟨hpass, fun bound' c' rest hc' hbound' hkinds => ?_⟩
  have hpass' := Cursor.passes_of_kind hc' (Cursor.kind_eq_of_kinds hkinds) nofun
  have hkinds' : c'.advance.kinds =
      e.erase.tokens ++ .fixed .closeParen :: .fixed .semicolon :: rest := by
    rw [Expr.tokens_erase]
    exact Cursor.kinds_advance hkinds (by simp) (by simp)
  obtain ⟨bound', rfl⟩ := Cursor.exists_eq_succ hbound'
  obtain ⟨inner, d', hinner, herase, hinside⟩ := standsBefore_closeParen hc hbound hrun hstop
    bound' c'.advance _ (hpass'.terminated hc') hkinds' (length_advance_le hkinds
      (by rw [hkinds', Expr.tokens_erase]) hbound')
  rw [Expr.tokens_erase] at hkinds' hinside
  have hbehind : d'.kinds = .fixed .closeParen :: .fixed .semicolon :: rest :=
    List.append_cancel_left (hinside.kinds_eq.symm.trans hkinds')
  have hclose := Cursor.kind_eq_of_kinds hbehind
  have hclosed := Cursor.kinds_advance hbehind (by simp) (by simp)
  have hsemicolon := Cursor.kind_eq_of_kinds hclosed
  have hfirst : c'.advance.kind = c.kind :=
    kind_eq_of_erase_eq (hpass'.terminated hc') hc hinner hrun herase
  have hlast := Cursor.passes_of_kind (hinside.terminated (hpass'.terminated hc')) hclose nofun
  refine ⟨_, inner, d'.advance, expr_of_paren hc' (Cursor.kind_eq_of_kinds hkinds) hinner hclose
    (by rwa [hfirst]) (by rw [hsemicolon]; exact stops_of_none _ rfl rfl), herase,
    hpass'.trans (hinside.trans hlast), hsemicolon, fun env => ?_, fun v => ?_⟩
  · show inner.eval env = _
    rw [← Expr.eval_erase, herase, Expr.eval_erase]
  · show inner.assign v = _
    rw [← Expr.assign_erase, herase, Expr.assign_erase]

def negatedName : Expr Unit := .unary () .neg (.name () "a")

theorem negatedName_in_parentheses :
    ∃ span inner d,
      expr 6 (beforeStatement (.tuple () [negatedName])) = .ok (.tuple span [inner]) d ∧
        inner.erase = negatedName ∧ d.kind = .fixed .semicolon := by
  obtain ⟨e, d, hrun, herase, hstop⟩ : ∃ e d, expr 4 (beforeStatement negatedName) = .ok e d ∧
      e.erase = negatedName ∧ d.kind = .fixed .semicolon := ⟨_, _, rfl, rfl, rfl⟩
  have htokens : e.tokens = negatedName.tokens := by rw [← e.tokens_erase, herase]
  obtain ⟨-, hparentheses⟩ := expr_in_parentheses (Cursor.terminated_atStart _) (by decide) hrun
    hstop rfl
  obtain ⟨span, inner, d', hread, hinner, -, hsemicolon, -, -⟩ :=
    hparentheses 6 (beforeStatement (.tuple () [negatedName])) [.eof] (Cursor.terminated_atStart _)
      (by decide) (by rw [htokens]; rfl)
  exact ⟨span, inner, d', hread, hinner.trans herase, hsemicolon⟩

/-! ### Types in the way -/

theorem steady_type : Steady (typeAt false) TypeExpr.erase :=
  fun size bound bound' hbound hbound' c hc hsize =>
    ((exprAt_typeAt_replays false size bound bound' hbound hbound').2 c hc hsize).weaken

/-- No expression is read where no primary expression is, but behind a sign. -/
theorem expr_fails_of_primary {bound : Nat} (hop : unaryOp? c.kind = none)
    (hprimary : Fails (primary false bound (expr bound) (typeAt false (bound + 1))) c) :
    Fails (expr (bound + 1)) c :=
  binary_fails (unary_fails hop hprimary.bind bound) bound BinaryOp.loosest

theorem unaryOp?_of_beginsType {k : TokenKind} (h : beginsType k = true) : unaryOp? k = none := by
  unfold beginsType at h
  split at h <;> first | rfl | cases h

def followsType : TokenKind → Bool
  | .fixed .kwUnknown | .name _ => true
  | _ => false

theorem ne_of_followsType {k : TokenKind} {word : FixedToken} (h : followsType k = true)
    (hword : word ≠ .kwUnknown) : k ≠ .fixed word := by
  rintro rfl
  unfold followsType at h
  split at h
  · next heq => exact hword (TokenKind.fixed.inj heq)
  · next heq => cases heq
  · cases h

theorem of_typedPrimary {type : Parse (TypeExpr Span)} {form : Span → Expr Span} {d : Cursor}
    (h : typedPrimary type c = .ok form d) :
    ∃ t d', type c = .ok t d' ∧ followsType d'.kind = true := by
  obtain ⟨t, d₁, htype, h⟩ := of_bind_eq_ok h
  obtain ⟨found, d₂, hfound, h⟩ := of_bind_eq_ok h
  refine ⟨t, d₁, htype, ?_⟩
  cases found with
  | true =>
      rw [eat_run] at hfound
      split at hfound
      · next hkind => rw [hkind, followsType]
      · cases hfound
  | false =>
      obtain ⟨rfl, -⟩ := of_eat_false hfound
      obtain ⟨id, d₃, hid, -⟩ := of_bind_eq_ok h
      rw [expectName, bind_of_eq_ok (kind_run d₁)] at hid
      generalize d₁.kind = kind at hid
      split at hid
      · rfl
      · cases hid

/-- An expression that begins with a builtin type begins with a declaration or an unknown value. -/
theorem exists_type_of_beginsType {bound : Nat} {e : Expr Span} {d : Cursor}
    (hrun : expr (bound + 1) c = .ok e d) (hstart : beginsType c.kind = true) :
    ∃ t d', typeAt false (bound + 1) c = .ok t d' ∧ followsType d'.kind = true := by
  refine Classical.byContradiction fun hnone => ?_
  refine expr_fails_of_primary (unaryOp?_of_beginsType hstart) (fun e d hprimary => ?_) e d hrun
  rw [primary, bind_of_eq_ok (span_run c)] at hprimary
  obtain ⟨form, d', hform, -⟩ := of_bind_eq_ok hprimary
  rw [primaryForm_of_beginsType hstart] at hform
  exact hnone (of_typedPrimary hform)

/-- Behind a parenthesis a type is read as the first one of a list, which goes on with neither a
comma nor the other parenthesis. -/
theorem expr_of_paren_fails {bound : Nat} {t : TypeExpr Span} {d : Cursor} (hc : c.Terminated)
    (hkind : c.kind = .fixed .openParen) (hstart : beginsType c.advance.kind = true)
    (htype : typeAt false bound c.advance = .ok t d) (hfollows : followsType d.kind = true) :
    Fails (expr (bound + 1)) c := by
  have hne : c.kind ≠ .eof := by simp [hkind]
  rw [Cursor.kind_advance hc hne] at hstart
  have hcomma : d.kind ≠ .fixed .comma := ne_of_followsType hfollows (by decide)
  have hclose : d.kind ≠ .fixed .closeParen := ne_of_followsType hfollows (by decide)
  refine expr_fails_of_primary (by rw [hkind]; rfl) fun e d' hrun => ?_
  rw [primary, bind_of_eq_ok (span_run c)] at hrun
  obtain ⟨form, d', hform, -⟩ := of_bind_eq_ok hrun
  rw [primaryForm, bind_of_eq_ok (span_run c), bind_of_eq_ok (kind_run c), hkind] at hform
  dsimp only at hform
  rw [bind_of_eq_ok (nextKind_run c), if_pos hstart] at hform
  obtain ⟨t', d', hlist, -⟩ := of_typedPrimary hform
  rw [typeAt, typeForm, bind_of_eq_ok (span_run c), bind_of_eq_ok (kind_run c), hkind] at hlist
  dsimp only at hlist
  rw [bind_of_eq_ok (advance_run c),
    bind_of_eq_ok (commaSeparated_single htype hcomma bound)] at hlist
  obtain ⟨_, _, hend, -⟩ := of_bind_eq_ok hlist
  rw [close, bind_of_eq_ok (eat_of_kind_ne hclose)] at hend
  cases hend

theorem exists_append_cons {front behind tokens rest : List TokenKind} {k : TokenKind}
    (h : tokens ++ rest = front ++ k :: behind) (hk : k ∉ rest) :
    ∃ more, tokens = front ++ k :: more := by
  obtain ⟨inside, rfl, hrest⟩ | ⟨inside, htokens, hinside⟩ := List.append_eq_append_iff.mp h
  · exact absurd (by simp [hrest]) hk
  · cases inside with
    | nil =>
        rw [List.nil_append] at hinside
        exact absurd (by simp [← hinside]) hk
    | cons k' more =>
        obtain ⟨rfl, -⟩ := List.cons.inj hinside
        exact ⟨more, htokens⟩

/-- An expression that begins with a builtin type is not read in parentheses. -/
theorem expr_not_in_parentheses {bound : Nat} {e : Expr Span} {d : Cursor} (hc : c.Terminated)
    (hbound : c.kinds.length ≤ bound) (hrun : expr bound c = .ok e d)
    (hstop : d.kind = .fixed .semicolon) (hstart : beginsType c.kind = true) :
    ∀ bound' c' rest, c'.Terminated → c'.kinds.length ≤ bound' →
      c'.kinds = .fixed .openParen :: (e.tokens ++ .fixed .closeParen :: rest) →
      Fails (expr bound') c' := by
  intro bound' c' rest hc' hbound' hkinds
  have hstands := (ParseStmt.of_expr hc hbound hrun).2
  obtain ⟨c₀, hc₀, hkinds₀⟩ : ∃ c₀ : Cursor, c₀.Terminated ∧
      c₀.kinds = e.erase.tokens ++ d.kind :: [.eof] := exists_cursor (by simp)
  have hlength : c₀.kinds.length ≤ c₀.after.length + 1 := Nat.le_of_eq c₀.length_kinds
  obtain ⟨e₀, d₀, hrun₀, herase, -⟩ := hstands _ c₀ _ hc₀ hkinds₀ hlength
  have hkind : c₀.kind = c.kind := kind_eq_of_erase_eq hc₀ hc hrun₀ hrun herase
  obtain ⟨t, d₁, htype, hfollows⟩ := exists_type_of_beginsType hrun₀ (by rwa [hkind])
  obtain ⟨ks, hpass, hreads⟩ := steady_type.readAs hc₀ hlength htype
  have hsplit : e.tokens ++ [d.kind, .eof] = ks ++ d₁.kind :: d₁.after.map (·.kind) := by
    rw [← Expr.tokens_erase, ← hkinds₀, hpass.kinds_eq, d₁.kinds_eq]
  have hinside : d₁.kind ∉ [d.kind, .eof] := by
    rw [hstop, List.mem_cons, List.mem_singleton, not_or]
    refine ⟨ne_of_followsType hfollows (by decide), ?_⟩
    intro hend
    rw [hend] at hfollows
    cases hfollows
  obtain ⟨more, hmore⟩ := exists_append_cons hsplit hinside
  have hpass' := Cursor.passes_of_kind hc' (Cursor.kind_eq_of_kinds hkinds) nofun
  have hadvance := Cursor.kinds_advance hkinds (by simp) (by simp)
  obtain ⟨bound', rfl⟩ := Cursor.exists_eq_succ hbound'
  have hshort := length_advance_le hkinds hadvance hbound'
  rw [hmore, List.append_assoc, List.cons_append] at hadvance
  obtain ⟨t', d', htype', -, hpass₁⟩ :=
    hreads bound' c'.advance _ (hpass'.terminated hc') hadvance hshort
  have hd' : d'.kind = d₁.kind :=
    Cursor.kind_eq_of_kinds (List.append_cancel_left (hpass₁.kinds_eq.symm.trans hadvance))
  have hfirst : c'.advance.kind = c.kind := by
    rw [← hkind, hpass.kind_eq, hpass₁.kind_eq, hd']
  exact expr_of_paren_fails hc' (Cursor.kind_eq_of_kinds hkinds) (by rwa [hfirst]) htype'
    (by rwa [hd'])

def unknownByte : Expr Unit := .unknown () (some (.bits (.int () 8)))

theorem unknownByte_not_in_parentheses :
    (∃ e d, expr 6 (beforeStatement unknownByte) = .ok e d ∧ e.erase = unknownByte ∧
        d.kind = .fixed .semicolon) ∧
      ¬ ∃ e d, expr 8 (beforeStatement (.tuple () [unknownByte])) = .ok e d := by
  refine ⟨⟨_, _, rfl, rfl, rfl⟩, ?_⟩
  intro hread
  obtain ⟨e, d, hrun⟩ := hread
  cases hrun

end Parse

end ArmPseudocode

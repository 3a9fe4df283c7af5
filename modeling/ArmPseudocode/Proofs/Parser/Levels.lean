import ArmPseudocode.Proofs.Parser.Bounds
import ArmPseudocode.Proofs.Parser.Recovery

/-!
# The bounds of the statement parser

Statements are read under bounds as expressions are, and the number of tokens left meets these as
well: a statement that was read has consumed a token, recovery from one that was not passes a token,
and each body stands behind a token of its own. So a list of statements ends only where it should,
and what would be done with a statement nested too deep is never done.
-/

namespace ArmPseudocode.ParseStmt

variable {β γ : Type} {lines : LineTable} {c d : Cursor} {size bound bound' : Nat}

/-- The second step ends as the first does, whatever was reported before. -/
structure Agrees (step step' : ParseStmt β) (c : Cursor) : Prop where
  same : ∀ q, step' ⟨c, q⟩ = step ⟨c, q⟩
  reaches : ∀ q, c.Reaches (stateAfter (step ⟨c, q⟩)).cursor

/-- The steps agree at every cursor that is no further from the end of the text. -/
def AgreesWithin (size : Nat) (step step' : ParseStmt β) : Prop :=
  ∀ c, c.Terminated → c.kinds.length ≤ size → Agrees step step' c

namespace Agrees

variable {step step' : ParseStmt β} {next next' : β → ParseStmt γ}

theorem pure (b : β) : Agrees (Pure.pure b) (Pure.pure b) c := ⟨fun _ => rfl, fun _ => .refl c⟩

theorem throw (e : Diagnostic) :
    Agrees (MonadExcept.throw e : ParseStmt β) (MonadExcept.throw e) c :=
  ⟨fun _ => rfl, fun _ => .refl c⟩

theorem throw_bind (e : Diagnostic) :
    Agrees ((MonadExcept.throw e : ParseStmt β) >>= next)
      ((MonadExcept.throw e : ParseStmt β) >>= next') c := ⟨fun _ => rfl, fun _ => .refl c⟩

theorem bind (h : Agrees step step' c) (hc : c.Terminated)
    (hnext : ∀ b d, d.Terminated → d.kinds.length ≤ c.kinds.length →
      Agrees (next b) (next' b) d) :
    Agrees (step >>= next) (step' >>= next') c := by
  have hmid : ∀ q b s, step ⟨c, q⟩ = .ok b s →
      c.Reaches s.cursor ∧ Agrees (next b) (next' b) s.cursor := by
    intro q b s hrun
    have hreaches := h.reaches q
    rw [hrun] at hreaches
    exact ⟨hreaches, hnext b s.cursor (hreaches.terminated hc) hreaches.length_le⟩
  constructor
  · intro q
    cases hrun : step ⟨c, q⟩ with
    | ok b s =>
        rw [bind_of_eq_ok hrun, bind_of_eq_ok ((h.same q).trans hrun)]
        exact (hmid q b s hrun).2.same s.queue
    | error e s => rw [bind_of_eq_error hrun, bind_of_eq_error ((h.same q).trans hrun)]
  · intro q
    refine stateAfter_bind (P := fun s : ParserState => c.Reaches s.cursor) (h.reaches q)
      fun b s hrun hreaches => ?_
    exact hreaches.trans ((hmid q b s hrun).2.reaches s.queue)

/-! ### Steps on the cursor -/

theorem lift {p p' : Parse β} {least : Nat} (h : Parse.Agrees least p p' c) :
    Agrees (liftM p) (liftM p') c := by
  obtain ⟨ks, hpass, -⟩ := h.inside
  constructor
  · intro q
    change onCursor p' ⟨c, q⟩ = onCursor p ⟨c, q⟩
    rw [onCursor, onCursor, h.same]
  · intro q
    rw [stateAfter_lift]
    exact hpass.reaches

theorem forward {p : Parse β} (hp : Parse.Forward p) : Agrees (liftM p) (liftM p) c := by
  refine ⟨fun _ => rfl, fun q => ?_⟩
  rw [stateAfter_lift]
  exact hp.reaches c

theorem reading {next next' : TokenKind → ParseStmt γ} (h : Agrees (next c.kind) (next' c.kind) c) :
    Agrees (liftM Parse.kind >>= next) (liftM Parse.kind >>= next') c := ⟨h.same, h.reaches⟩

theorem lift_bind {p : Parse β} (hc : c.Terminated) (hp : Parse.Forward p)
    (hnext : ∀ b d, p c = .ok b d → d.Terminated → Agrees (next b) (next' b) d) :
    Agrees (liftM p >>= next) (liftM p >>= next') c := by
  have hreaches := hp.reaches c
  cases hp : p c with
  | ok b d =>
      have hrun : ∀ q, (liftM p : ParseStmt β) ⟨c, q⟩ = .ok b ⟨d, q⟩ := fun _ => lift_of_eq_ok hp
      rw [hp] at hreaches
      have h := hnext b d hp (hreaches.terminated hc)
      constructor
      · intro q
        rw [bind_of_eq_ok (hrun q), bind_of_eq_ok (hrun q)]
        exact h.same q
      · intro q
        rw [bind_of_eq_ok (hrun q)]
        exact hreaches.trans (h.reaches q)
  | error e d =>
      have hrun : ∀ q, (liftM p : ParseStmt β) ⟨c, q⟩ = .error e ⟨d, q⟩ :=
        fun _ => lift_of_eq_error hp
      rw [hp] at hreaches
      constructor
      · intro q
        rw [bind_of_eq_error (hrun q), bind_of_eq_error (hrun q)]
      · intro q
        rw [bind_of_eq_error (hrun q)]
        exact hreaches

/-! Behind a token that is consumed there is one fewer. -/

theorem advancing {next next' : Span → ParseStmt γ} (hc : c.Terminated) (hkind : c.kind ≠ .eof)
    (hnext : ∀ span d, d.Terminated → d.kinds.length + 1 ≤ c.kinds.length →
      Agrees (next span) (next' span) d) :
    Agrees (liftM Parse.advance >>= next) (liftM Parse.advance >>= next') c := by
  refine lift_bind hc .advance fun span d hrun hd => hnext span d hd ?_
  rw [Parse.advance_run] at hrun
  cases hrun
  have hlength := (Cursor.passes_advance hc hkind).length
  rw [List.length_singleton] at hlength
  omega

theorem expecting {wanted : TokenKind} {next next' : Span → ParseStmt γ} (hc : c.Terminated)
    (hwanted : wanted ≠ .eof)
    (hnext : ∀ span d, d.Terminated → d.kinds.length + 1 ≤ c.kinds.length →
      Agrees (next span) (next' span) d) :
    Agrees (liftM (Parse.expectKind wanted) >>= next) (liftM (Parse.expectKind wanted) >>= next')
      c := by
  refine lift_bind hc (.expectKind wanted) fun span d hrun hd => hnext span d hd ?_
  have hlength := (Parse.of_expectKind hc hwanted hrun).length
  rw [List.length_singleton] at hlength
  omega

theorem eating {token : FixedToken} {next next' : Bool → ParseStmt γ} (hc : c.Terminated)
    (hfound : ∀ d, d.Terminated → d.kinds.length + 1 ≤ c.kinds.length →
      Agrees (next true) (next' true) d)
    (hmissing : Agrees (next false) (next' false) c) :
    Agrees (liftM (Parse.eat token) >>= next) (liftM (Parse.eat token) >>= next') c := by
  refine lift_bind hc (.eat token) fun found d hrun hd => ?_
  cases found with
  | true =>
      have hlength := (Parse.of_eat_true hc hrun).length
      rw [List.length_singleton] at hlength
      exact hfound d hd (by omega)
  | false =>
      obtain ⟨rfl, -⟩ := Parse.of_eat_false hrun
      exact hmissing

theorem unlessLimited {blamed excused : ParseStmt γ} (hblamed : Agrees blamed blamed c)
    (hexcused : Agrees excused excused c) :
    Agrees (do if !(← get).queue.limitReached then blamed else excused)
      (do if !(← get).queue.limitReached then blamed else excused) c := by
  refine ⟨fun _ => rfl, fun q => ?_⟩
  have hrun : (do if !(← get).queue.limitReached then blamed else excused : ParseStmt γ) ⟨c, q⟩ =
      (if (!q.limitReached) = true then blamed else excused) ⟨c, q⟩ := rfl
  rw [hrun]
  split
  · exact hblamed.reaches q
  · exact hexcused.reaches q

end Agrees

/-! ### Lists of statements -/

section Lists

variable {stmt stmt' : ParseStmt (Stmt Span)} {ends : TokenKind → Bool} {q : DiagnosticQueue}

theorem list_agrees (hstmt : AgreesWithin size stmt stmt')
    (hconduct : ∀ c, c.Terminated → ConductStmt lines c stmt) (hc : c.Terminated)
    (hsize : c.kinds.length ≤ size) (hbound : c.kinds.length ≤ bound)
    (hbound' : c.kinds.length ≤ bound') :
    list lines stmt' ends bound' ⟨c, q⟩ = list lines stmt ends bound ⟨c, q⟩ := by
  induction bound generalizing c q bound' with
  | zero => exact absurd hbound c.not_length_le_zero
  | succ bound ih =>
      obtain ⟨bound', rfl⟩ := Cursor.exists_eq_succ hbound'
      have hsame := (hstmt c hc hsize).same q
      have hread : readOne stmt' ⟨c, q⟩ = readOne stmt ⟨c, q⟩ := by rw [readOne, readOne, hsame]
      have hafter : afterOne lines stmt' ⟨c, q⟩ = afterOne lines stmt ⟨c, q⟩ := by
        rw [afterOne, afterOne, hsame]
      rw [list_succ, list_succ, hread, hafter]
      split
      · rfl
      · next hgoes =>
        have hreaches := (afterOne_reported (hconduct c hc) (.refl c) q).1
        have hlength := afterOne_consumes hc (hconduct c hc) (.refl c) (atEnd_of_not_stops hgoes) q
        generalize afterOne lines stmt ⟨c, q⟩ = next at hreaches hlength ⊢
        have hrest : list lines stmt' ends bound' next = list lines stmt ends bound next :=
          ih (hreaches.terminated hc) (by omega) (by omega) (by omega)
        rw [hrest]

/-- Under a bound that is met a list ends where it should. -/
theorem list_stops (hconduct : ∀ c, c.Terminated → ConductStmt lines c stmt) (hc : c.Terminated)
    (hbound : c.kinds.length ≤ bound) :
    stops ends (list lines stmt ends bound ⟨c, q⟩).2 = true := by
  induction bound generalizing c q with
  | zero => exact absurd hbound c.not_length_le_zero
  | succ bound ih =>
      rw [list_succ]
      split
      · next hstop => exact hstop
      · next hgoes =>
        have hreaches := (afterOne_reported (hconduct c hc) (.refl c) q).1
        have hlength := afterOne_consumes hc (hconduct c hc) (.refl c) (atEnd_of_not_stops hgoes) q
        generalize afterOne lines stmt ⟨c, q⟩ = next at hreaches hlength ⊢
        exact ih (hreaches.terminated hc) (by omega)

theorem statements_agrees (hstmt : AgreesWithin size stmt stmt')
    (hconduct : ∀ c, c.Terminated → ConductStmt lines c stmt) (hc : c.Terminated)
    (hsize : c.kinds.length ≤ size) (hbound : size ≤ bound) (hbound' : size ≤ bound') :
    Agrees (statements lines stmt ends bound) (statements lines stmt' ends bound') c := by
  constructor
  · intro q
    rw [statements, statements, list_agrees hstmt hconduct hc hsize (Nat.le_trans hsize hbound)
      (Nat.le_trans hsize hbound')]
  · intro q
    exact (list_reported (hconduct c hc) ends bound q (.refl c)).1

end Lists

/-! ### Forms -/

theorem expr_agrees (hc : c.Terminated) (hbound : c.kinds.length ≤ bound)
    (hbound' : c.kinds.length ≤ bound') :
    Agrees (liftM (Parse.expr bound)) (liftM (Parse.expr bound')) c :=
  .lift (Parse.exprAt_agrees false _ hbound hbound' c hc (Nat.le_refl _))

theorem exprs_agrees (inPattern : Bool) (hc : c.Terminated) (hbound : c.kinds.length ≤ bound)
    (hbound' : c.kinds.length ≤ bound') :
    Agrees (liftM (Parse.commaSeparated (Parse.exprAt inPattern bound BinaryOp.loosest) bound))
      (liftM (Parse.commaSeparated (Parse.exprAt inPattern bound' BinaryOp.loosest) bound')) c :=
  .lift (Parse.Agrees.commaSeparated (Parse.exprAt_agrees inPattern _ hbound hbound') hc
    (Nat.le_refl _) hbound hbound')

theorem terminal_agrees (form : Span → Stmt Span) (hc : c.Terminated) :
    Agrees (terminal form) (terminal form) c :=
  (Agrees.forward .advance).bind hc fun _ _ hd _ =>
    (Agrees.forward (.expect _)).bind hd fun _ _ _ _ => .pure form

theorem simple_agrees (hc : c.Terminated) (hbound : c.kinds.length ≤ bound)
    (hbound' : c.kinds.length ≤ bound') : Agrees (simple bound) (simple bound') c := by
  refine (expr_agrees hc hbound hbound').bind hc fun target d hd hlength => ?_
  refine Agrees.eating hd (fun d₁ hd₁ hlength₁ => ?_) ?_
  · refine (expr_agrees hd₁ (by omega) (by omega)).bind hd₁ fun value d₂ hd₂ _ => ?_
    exact (Agrees.forward (.expect _)).bind hd₂ fun _ _ _ _ => .pure _
  · exact (Agrees.forward (.expect _)).bind hd fun _ _ _ _ => .pure _

theorem giveBack_agrees (hc : c.Terminated) (hbound : c.kinds.length ≤ bound)
    (hbound' : c.kinds.length ≤ bound') : Agrees (giveBack bound) (giveBack bound') c := by
  refine (Agrees.forward .advance).bind hc fun _ d hd hlength => ?_
  refine (Agrees.forward (.isAt _)).bind hd fun found d₁ hd₁ hlength₁ => ?_
  have hend : ∀ (values : List (Expr Span)) (d : Cursor), d.Terminated → Agrees
      (do
        let _ ← Parse.expect .semicolon
        return (.giveBack · values) : ParseStmt (Span → Stmt Span))
      (do
        let _ ← Parse.expect .semicolon
        return (.giveBack · values)) d :=
    fun values d hd => (Agrees.forward (.expect _)).bind hd fun _ _ _ _ => .pure _
  cases found with
  | true => exact hend [] d₁ hd₁
  | false =>
      refine (exprs_agrees false hd₁ (by omega) (by omega)).bind hd₁ fun values d₂ hd₂ _ => ?_
      exact hend values d₂ hd₂

theorem assertion_agrees (hc : c.Terminated) (hbound : c.kinds.length ≤ bound)
    (hbound' : c.kinds.length ≤ bound') : Agrees (assertion bound) (assertion bound') c := by
  refine (Agrees.forward .advance).bind hc fun _ d hd hlength => ?_
  refine (expr_agrees hd (by omega) (by omega)).bind hd fun e d₁ hd₁ _ => ?_
  exact (Agrees.forward (.expect _)).bind hd₁ fun _ _ _ _ => .pure _

theorem names_agree (hc : c.Terminated) (hbound : c.kinds.length ≤ bound)
    (hbound' : c.kinds.length ≤ bound') :
    Agrees (liftM (Parse.commaSeparated Parse.expectName bound))
      (liftM (Parse.commaSeparated Parse.expectName bound')) c :=
  .lift (Parse.Agrees.commaSeparated (fun _ hc _ => Parse.Agrees.expectName hc) hc (Nat.le_refl _)
    hbound hbound')

theorem enumeration_agrees (hc : c.Terminated) (hbound : c.kinds.length ≤ bound)
    (hbound' : c.kinds.length ≤ bound') : Agrees (enumeration bound) (enumeration bound') c := by
  refine (Agrees.forward .advance).bind hc fun _ d hd hlength => ?_
  refine (Agrees.forward .expectName).bind hd fun id d₁ hd₁ hlength₁ => ?_
  refine (Agrees.forward (.expect _)).bind hd₁ fun opened d₂ hd₂ hlength₂ => ?_
  refine (Agrees.forward (.isAt _)).bind hd₂ fun found d₃ hd₃ hlength₃ => ?_
  have hend : ∀ (values : List String) (d : Cursor), d.Terminated → Agrees
      (do
        Parse.close opened '\x7b' .closeBrace
        let _ ← Parse.eat .semicolon
        return (.enumeration · id values) : ParseStmt (Span → Stmt Span))
      (do
        Parse.close opened '\x7b' .closeBrace
        let _ ← Parse.eat .semicolon
        return (.enumeration · id values)) d :=
    fun values d hd => (Agrees.forward (.close _ _ _)).bind hd fun _ d₁ hd₁ _ =>
      (Agrees.forward (.eat _)).bind hd₁ fun _ _ _ _ => .pure _
  cases found with
  | true => exact hend [] d₃ hd₃
  | false =>
      refine (names_agree hd₃ (by omega) (by omega)).bind hd₃ fun values d₄ hd₄ _ => ?_
      exact hend values d₄ hd₄

/-! ### Bodies -/

section Bodies

variable {stmt stmt' : ParseStmt (Stmt Span)} (hstmt : AgreesWithin size stmt stmt')
  (hconduct : ∀ c, c.Terminated → ConductStmt lines c stmt)

include hstmt hconduct

/-- The marker that opens a block is one token more than the statements in it. -/
theorem indentedBlock_agrees (hc : c.Terminated) (hsize : c.kinds.length ≤ size + 1)
    (hbound : size ≤ bound) (hbound' : size ≤ bound') :
    Agrees (indentedBlock lines stmt bound) (indentedBlock lines stmt' bound') c := by
  rw [indentedBlock, indentedBlock]
  refine Agrees.expecting hc (by simp) fun opened d hd hlength => ?_
  refine (statements_agrees hstmt hconduct hd (by omega) hbound hbound').bind hd
    fun body d₁ hd₁ _ => Agrees.reading ?_
  have hend : ∀ d : Cursor, d.Terminated → Agrees
      (do return .block (← spanFrom opened) body : ParseStmt (Stmt Span))
      (do return .block (← spanFrom opened) body) d :=
    fun d hd => (Agrees.forward (.spanFrom opened)).bind hd fun _ _ _ _ => .pure _
  split
  · exact (Agrees.forward .advance).bind hd₁ fun _ d₂ hd₂ _ => hend d₂ hd₂
  · exact .unlessLimited ((Agrees.forward .span).bind hd₁ fun _ _ _ _ => .throw_bind _)
      (hend d₁ hd₁)

theorem body_agrees (hc : c.Terminated) (hsize : c.kinds.length ≤ size) (hbound : size ≤ bound)
    (hbound' : size ≤ bound') :
    Agrees (body lines stmt bound) (body lines stmt' bound') c := by
  rw [body, body]
  apply Agrees.reading
  split
  · exact indentedBlock_agrees hstmt hconduct hc (Nat.le_succ_of_le hsize) hbound hbound'
  · exact hstmt c hc hsize

theorem armBody_agrees (hc : c.Terminated) (hsize : c.kinds.length ≤ size) (hbound : size ≤ bound)
    (hbound' : size ≤ bound') :
    Agrees (armBody lines stmt bound) (armBody lines stmt' bound') c := by
  rw [armBody, armBody]
  apply Agrees.reading
  split
  · exact indentedBlock_agrees hstmt hconduct hc (Nat.le_succ_of_le hsize) hbound hbound'
  · refine (Agrees.forward .span).bind hc fun start d hd hlength => ?_
    refine (statements_agrees hstmt hconduct hd (by omega) hbound hbound').bind hd
      fun body d₁ hd₁ _ => ?_
    exact (Agrees.forward (.spanFrom _)).bind hd₁ fun _ _ _ _ => .pure _

theorem repeatUntil_agrees (hc : c.Terminated) (hkind : c.kind ≠ .eof)
    (hsize : c.kinds.length ≤ size + 1) (hbound : size ≤ bound) (hbound' : size ≤ bound') :
    Agrees (repeatUntil lines stmt bound) (repeatUntil lines stmt' bound') c := by
  refine Agrees.advancing hc hkind fun _ d hd hlength => ?_
  refine (body_agrees hstmt hconduct hd (by omega) hbound hbound').bind hd fun b d₁ hd₁ h₁ => ?_
  refine (Agrees.forward (.expect _)).bind hd₁ fun _ d₂ hd₂ h₂ => ?_
  refine (expr_agrees hd₂ (by omega) (by omega)).bind hd₂ fun test d₃ hd₃ _ => ?_
  exact (Agrees.forward (.expect _)).bind hd₃ fun _ _ _ _ => .pure _

theorem whileDo_agrees (hc : c.Terminated) (hkind : c.kind ≠ .eof)
    (hsize : c.kinds.length ≤ size + 1) (hbound : size ≤ bound) (hbound' : size ≤ bound') :
    Agrees (whileDo lines stmt bound) (whileDo lines stmt' bound') c := by
  refine Agrees.advancing hc hkind fun _ d hd hlength => ?_
  refine (expr_agrees hd (by omega) (by omega)).bind hd fun test d₁ hd₁ h₁ => ?_
  refine (Agrees.forward (.expect _)).bind hd₁ fun _ d₂ hd₂ h₂ => ?_
  exact (body_agrees hstmt hconduct hd₂ (by omega) hbound hbound').bind hd₂ fun _ _ _ _ => .pure _

theorem forTo_agrees (hc : c.Terminated) (hkind : c.kind ≠ .eof)
    (hsize : c.kinds.length ≤ size + 1) (hbound : size ≤ bound) (hbound' : size ≤ bound') :
    Agrees (forTo lines stmt bound) (forTo lines stmt' bound') c := by
  refine Agrees.advancing hc hkind fun _ d hd hlength => ?_
  refine (Agrees.forward .expectName).bind hd fun var d₁ hd₁ h₁ => ?_
  refine (Agrees.forward (.expect _)).bind hd₁ fun _ d₂ hd₂ h₂ => ?_
  refine (expr_agrees hd₂ (by omega) (by omega)).bind hd₂ fun first d₃ hd₃ h₃ => ?_
  refine (Agrees.forward (.expect _)).bind hd₃ fun _ d₄ hd₄ h₄ => ?_
  refine (expr_agrees hd₄ (by omega) (by omega)).bind hd₄ fun last d₅ hd₅ h₅ => ?_
  refine (Agrees.forward (.expect _)).bind hd₅ fun _ d₆ hd₆ h₆ => ?_
  exact (body_agrees hstmt hconduct hd₆ (by omega) hbound hbound').bind hd₆ fun _ _ _ _ => .pure _

theorem elsifs_agrees {big big' : Nat} (hbig : size ≤ big) (hbig' : size ≤ big')
    (hc : c.Terminated) (hsize : c.kinds.length ≤ size) (hbound : c.kinds.length ≤ bound)
    (hbound' : c.kinds.length ≤ bound') :
    Agrees (elsifs lines stmt big bound) (elsifs lines stmt' big' bound') c := by
  induction bound generalizing c bound' with
  | zero => exact absurd hbound c.not_length_le_zero
  | succ bound ih =>
      obtain ⟨bound', rfl⟩ := Cursor.exists_eq_succ hbound'
      rw [elsifs, elsifs]
      refine Agrees.eating hc (fun d hd hlength => ?_) (.pure [])
      refine (expr_agrees hd (by omega) (by omega)).bind hd fun test d₁ hd₁ h₁ => ?_
      refine (Agrees.forward (.expect _)).bind hd₁ fun _ d₂ hd₂ h₂ => ?_
      refine (body_agrees hstmt hconduct hd₂ (by omega) hbig hbig').bind hd₂
        fun first d₃ hd₃ h₃ => ?_
      exact (ih hd₃ (by omega) (by omega) (by omega)).bind hd₃ fun rest _ _ _ => .pure _

theorem branch_agrees (hc : c.Terminated) (hkind : c.kind ≠ .eof)
    (hsize : c.kinds.length ≤ size + 1) (hbound : size ≤ bound) (hbound' : size ≤ bound') :
    Agrees (branch lines stmt bound) (branch lines stmt' bound') c := by
  refine Agrees.advancing hc hkind fun _ d hd hlength => ?_
  refine (expr_agrees hd (by omega) (by omega)).bind hd fun test d₁ hd₁ h₁ => ?_
  refine (Agrees.forward (.expect _)).bind hd₁ fun _ d₂ hd₂ h₂ => ?_
  refine (body_agrees hstmt hconduct hd₂ (by omega) hbound hbound').bind hd₂
    fun first d₃ hd₃ h₃ => ?_
  refine (elsifs_agrees hstmt hconduct hbound hbound' hd₃ (by omega) (by omega) (by omega)).bind hd₃
    fun others d₄ hd₄ h₄ => ?_
  refine Agrees.eating hd₄ (fun d₅ hd₅ h₅ => ?_) (.pure _)
  exact (body_agrees hstmt hconduct hd₅ (by omega) hbound hbound').bind hd₅ fun _ _ _ _ => .pure _

theorem arms_agrees {big big' : Nat} (opened : Span) (otherwise : Option (Stmt Span))
    (hbig : size ≤ big) (hbig' : size ≤ big') (hc : c.Terminated) (hsize : c.kinds.length ≤ size)
    (hbound : c.kinds.length ≤ bound) (hbound' : c.kinds.length ≤ bound') :
    Agrees (arms lines stmt opened big bound otherwise)
      (arms lines stmt' opened big' bound' otherwise) c := by
  induction bound generalizing c bound' otherwise with
  | zero => exact absurd hbound c.not_length_le_zero
  | succ bound ih =>
      obtain ⟨bound', rfl⟩ := Cursor.exists_eq_succ hbound'
      rw [arms, arms]
      apply Agrees.reading
      generalize hkind : c.kind = kind
      have hunexpected : Agrees
          (liftM (Parse.unexpected "when, otherwise or end of case" : Parse
            (List (List (Expr Span) × Stmt Span) × Option (Stmt Span))))
          (liftM (Parse.unexpected "when, otherwise or end of case" : Parse
            (List (List (Expr Span) × Stmt Span) × Option (Stmt Span)))) c :=
        .forward (.unexpected _)
      cases kind with
      | unindent => exact (Agrees.forward .advance).bind hc fun _ _ _ _ => .pure _
      | eof => exact (Agrees.forward .span).bind hc fun _ _ _ _ => .throw _
      | fixed word =>
          cases word with
          | kwWhen =>
              refine Agrees.advancing hc (by simp [hkind]) fun _ d hd hlength => ?_
              refine (exprs_agrees true hd (by omega) (by omega)).bind hd
                fun patterns d₁ hd₁ h₁ => ?_
              refine (armBody_agrees hstmt hconduct hd₁ (by omega) hbig hbig').bind hd₁
                fun first d₂ hd₂ h₂ => ?_
              exact (ih otherwise hd₂ (by omega) (by omega) (by omega)).bind hd₂
                fun _ _ _ _ => .pure _
          | kwOtherwise =>
              refine Agrees.advancing hc (by simp [hkind]) fun _ d hd hlength => ?_
              refine (armBody_agrees hstmt hconduct hd (by omega) hbig hbig').bind hd
                fun last d₁ hd₁ h₁ => ?_
              exact ih (some last) hd₁ (by omega) (by omega) (by omega)
          | _ => exact hunexpected
      | _ => exact hunexpected

theorem caseOf_agrees (hc : c.Terminated) (hkind : c.kind ≠ .eof)
    (hsize : c.kinds.length ≤ size + 1) (hbound : size ≤ bound) (hbound' : size ≤ bound') :
    Agrees (caseOf lines stmt bound) (caseOf lines stmt' bound') c := by
  refine Agrees.advancing hc hkind fun _ d hd hlength => ?_
  refine (expr_agrees hd (by omega) (by omega)).bind hd fun selector d₁ hd₁ h₁ => ?_
  refine (Agrees.forward (.expect _)).bind hd₁ fun _ d₂ hd₂ h₂ => ?_
  refine (Agrees.forward (.expectKind _)).bind hd₂ fun opened d₃ hd₃ h₃ => ?_
  exact (arms_agrees hstmt hconduct opened none hbound hbound' hd₃ (by omega) (by omega)
    (by omega)).bind hd₃ fun _ _ _ _ => .pure _

theorem form_agrees (hc : c.Terminated) (hsize : c.kinds.length ≤ size + 1)
    (hbound : size + 1 ≤ bound) (hbound' : size + 1 ≤ bound') :
    Agrees (form lines stmt bound) (form lines stmt' bound') c := by
  have hless : size ≤ bound := Nat.le_of_succ_le hbound
  have hless' : size ≤ bound' := Nat.le_of_succ_le hbound'
  have hmet : c.kinds.length ≤ bound := Nat.le_trans hsize hbound
  have hmet' : c.kinds.length ≤ bound' := Nat.le_trans hsize hbound'
  have hsimple := simple_agrees hc hmet hmet'
  rw [form, form]
  apply Agrees.reading
  generalize hkind : c.kind = kind
  cases kind with
  | unindent => exact .forward (.unexpected _)
  | prose word about => exact terminal_agrees _ hc
  | fixed word =>
      have hne : c.kind ≠ .eof := by simp [hkind]
      cases word with
      | kwUndefined | kwUnpredictable => exact terminal_agrees _ hc
      | kwReturn => exact giveBack_agrees hc hmet hmet'
      | kwIf => exact branch_agrees hstmt hconduct hc hne hsize hless hless'
      | kwRepeat => exact repeatUntil_agrees hstmt hconduct hc hne hsize hless hless'
      | kwWhile => exact whileDo_agrees hstmt hconduct hc hne hsize hless hless'
      | kwFor => exact forTo_agrees hstmt hconduct hc hne hsize hless hless'
      | kwCase => exact caseOf_agrees hstmt hconduct hc hne hsize hless hless'
      | kwAssert => exact assertion_agrees hc hmet hmet'
      | kwEnumeration => exact enumeration_agrees hc hmet hmet'
      | _ => exact hsimple
  | _ => exact hsimple

end Bodies

/-! ### Levels of nesting -/

def level (lines : LineTable) (bound : Nat) (stmt : ParseStmt (Stmt Span)) :
    ParseStmt (Stmt Span) := do
  if (← Parse.kind) = .indent then
    indentedBlock lines stmt bound
  else
    let start ← Parse.span
    let form ← form lines stmt (bound + 1)
    return form (← spanFrom start)

def above (lines : LineTable) (deepest : ParseStmt (Stmt Span)) : Nat → ParseStmt (Stmt Span)
  | 0 => deepest
  | bound + 1 => level lines bound (above lines deepest bound)

theorem stmtAt_eq_above (lines : LineTable) (bound : Nat) :
    stmtAt lines bound = above lines (Parse.unexpected "statement" : Parse (Stmt Span)) bound := by
  induction bound with
  | zero => rfl
  | succ bound ih =>
      rw [stmtAt, ih]
      rfl

/-- Levels enough for the tokens left: how many they are and what is below them does not matter. -/
theorem stmtAt_agrees (lines : LineTable) (deepest : ParseStmt (Stmt Span)) (hbound : size ≤ bound)
    (hbound' : size ≤ bound') :
    AgreesWithin size (stmtAt lines bound) (above lines deepest bound') := by
  induction size generalizing bound bound' with
  | zero =>
      intro c _ hlength
      exact absurd hlength c.not_length_le_zero
  | succ size ih =>
      obtain ⟨bound, rfl⟩ : ∃ fewer, bound = fewer + 1 := ⟨bound - 1, by omega⟩
      obtain ⟨bound', rfl⟩ : ∃ fewer, bound' = fewer + 1 := ⟨bound' - 1, by omega⟩
      have hless : size ≤ bound := Nat.le_of_succ_le_succ hbound
      have hless' : size ≤ bound' := Nat.le_of_succ_le_succ hbound'
      have hconduct : ∀ c : Cursor, c.Terminated → ConductStmt lines c (stmtAt lines bound) :=
        fun c hc => stmtAt_conduct lines hc bound
      intro c hc hsize
      rw [stmtAt, above, level]
      apply Agrees.reading
      split
      · exact indentedBlock_agrees (ih hless hless') hconduct hc hsize hless hless'
      · refine (Agrees.forward .span).bind hc fun start d hd hlength => ?_
        refine (form_agrees (ih hless hless') hconduct hd (Nat.le_trans hlength hsize) hbound
          hbound').bind hd fun form d₁ hd₁ _ => ?_
        exact (Agrees.forward (.spanFrom _)).bind hd₁ fun _ _ _ _ => .pure _

end ArmPseudocode.ParseStmt

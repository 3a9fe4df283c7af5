import ArmPseudocode.Proofs.Parser.Rounds
import ArmPseudocode.Proofs.Parser.Unambiguous
import ArmPseudocode.Proofs.Syntax.Statements

/-!
# Programs are read back

A program whose bodies are blocks is what its tokens are read as, and nothing is reported. Only a
branch looks past its own end, for another test or a last body; a block ends with its marker, so the
words that follow it decide nothing about what is inside.

The queue does not change on the way. All that is asked of it is that it has not reached its limit,
since then reading would stop.
-/

namespace ArmPseudocode.ParseStmt

variable {lines : LineTable} {q : DiagnosticQueue} {c c' : Cursor} {k : TokenKind}
  {rest : List TokenKind} {stmt : ParseStmt (Stmt Span)} {bound : Nat}

/-! ### Single tokens and expressions -/

theorem kinds_advance (h : c.kinds = k :: rest) (hk : k ≠ .eof) (hrest : rest ≠ []) :
    c.advance.kinds = rest ∧ c.advance.kinds.length < c.kinds.length := by
  have hadvance := Cursor.kinds_advance h hk hrest
  refine ⟨hadvance, ?_⟩
  rw [hadvance, h, List.length_cons]
  exact Nat.lt_succ_self _

theorem expect_accepts {token : FixedToken} (h : c.kinds = .fixed token :: rest)
    (hrest : rest ≠ []) :
    (liftM (Parse.expect token) : ParseStmt Span) ⟨c, q⟩ = .ok c.here.span ⟨c.advance, q⟩ ∧
      c.advance.kinds = rest ∧ c.advance.kinds.length < c.kinds.length :=
  ⟨lift_of_eq_ok (Parse.expect_of_kind (Cursor.kind_eq_of_kinds h)),
    kinds_advance h (by nofun) hrest⟩

theorem expr_accepts {e : Expr Unit} (he : e.Grammatical ⟨false, true⟩)
    (hkinds : c.kinds = e.tokens ++ k :: rest) (hk : Parse.Stops BinaryOp.loosest k)
    (hbound : c.kinds.length ≤ bound) :
    ∃ e' c', (liftM (Parse.expr bound) : ParseStmt (Expr Span)) ⟨c, q⟩ = .ok e' ⟨c', q⟩ ∧
      e'.erase = e ∧ c'.kinds = k :: rest ∧ c'.kinds.length ≤ c.kinds.length := by
  obtain ⟨e', c', hread, herase, hc'⟩ := Parse.expr_accepts bound e he c k rest hkinds hk hbound
  refine ⟨e', c', lift_of_eq_ok hread, herase, hc', ?_⟩
  rw [hkinds, hc', List.length_append]
  omega

theorem stops_fixed {token : FixedToken} (hoperator : Parse.binaryOp? (.fixed token) = none)
    (hoperand : Parse.continuesOperand (.fixed token) = false) :
    Parse.Stops BinaryOp.loosest (.fixed token) := Parse.stops_of_none _ hoperator hoperand

/-! ### Blocks -/

/-- The tokens that a statement can begin with. -/
def beginsStmt (kind : TokenKind) : Bool :=
  kind.beginsExpr || kind.startsStatement || kind = .indent

/-- A token that does not continue a branch. -/
def EndsBranch (kind : TokenKind) : Prop :=
  kind ≠ .fixed .kwElsif ∧ kind ≠ .fixed .kwElse

/-- A list that does not end where a statement begins goes on there. -/
theorem stops_of_beginsStmt {ends : TokenKind → Bool} (hbegins : beginsStmt c.kind = true)
    (hends : ∀ k, beginsStmt k = true → ends k = false) (hq : q.limitReached = false) :
    stops ends ⟨c, q⟩ = false := by
  refine stops_eq_false (not_or.mpr ⟨fun heof => ?_, ?_⟩) hq
  · rw [heof] at hbegins
    cases hbegins
  · rw [hends _ hbegins]
    exact Bool.false_ne_true

theorem endsBranch_of_beginsStmt (h : beginsStmt k = true) : EndsBranch k := by
  constructor <;> rintro rfl <;> nomatch h

theorem tokens_eq_cons {s : Stmt Unit} (hs : s.Grammatical) :
    ∃ k rest, s.tokens = k :: rest ∧ beginsStmt k = true ∧ (s.isBlock = false → k ≠ .indent) := by
  have hexpr : ∀ {e : Expr Unit} (behind : List TokenKind), e.Grammatical ⟨false, true⟩ →
      ∃ k rest, e.tokens ++ behind = k :: rest ∧ beginsStmt k = true ∧ k ≠ .indent := by
    intro e behind he
    obtain ⟨k, rest, htokens, hk⟩ := Expr.tokens_eq_cons he
    refine ⟨k, rest ++ behind, by rw [htokens, List.cons_append], ?_, ?_⟩
    · rw [beginsStmt, hk]
      rfl
    · rintro rfl
      nomatch hk
  cases hs with
  | assign _ he | expr _ he | declaration _ he =>
      obtain ⟨k, rest, htokens, hbegins, hne⟩ := hexpr _ he
      exact ⟨k, rest, htokens, hbegins, fun _ => hne⟩
  | block => exact ⟨_, _, rfl, rfl, nofun⟩
  | _ => exact ⟨_, _, rfl, rfl, fun _ => by nofun⟩

/-- Every statement is read back, reporting nothing, in front of a token that does not continue a
branch. -/
def AcceptsStmts (q : DiagnosticQueue) (stmt : ParseStmt (Stmt Span)) (bound : Nat) : Prop :=
  ∀ s : Stmt Unit, s.Grammatical → ∀ c k rest, c.kinds = s.tokens ++ k :: rest → EndsBranch k →
    c.kinds.length ≤ bound →
    ∃ s' c', stmt ⟨c, q⟩ = .ok s' ⟨c', q⟩ ∧ s'.erase = s ∧ c'.kinds = k :: rest

theorem list_accepts {ends : TokenKind → Bool} {ss : List (Stmt Unit)}
    (hq : q.limitReached = false) (hstmt : AcceptsStmts q stmt bound)
    (hends : ∀ k, beginsStmt k = true → ends k = false) (hss : ∀ s ∈ ss, s.Grammatical)
    (hk : EndsBranch k) (hstop : k = .eof ∨ ends k = true) (fuel : Nat)
    (hkinds : c.kinds = Stmt.tokensAll ss ++ k :: rest) (hbound : c.kinds.length ≤ bound)
    (hfuel : c.kinds.length ≤ fuel + 1) :
    ∃ ss' c', list lines stmt ends fuel ⟨c, q⟩ = (ss', ⟨c', q⟩) ∧ Stmt.eraseAll ss' = ss ∧
      c'.kinds = k :: rest := by
  induction ss generalizing c fuel with
  | nil =>
      have hkind : c.kind = k := Cursor.kind_eq_of_kinds hkinds
      rw [← hkind] at hstop
      exact ⟨[], c, list_of_stops (stops_of_kind hstop), rfl, hkinds⟩
  | cons s ss ih =>
      obtain ⟨hs, hss⟩ := List.forall_mem_cons.mp hss
      rw [Stmt.tokensAll, List.append_assoc] at hkinds
      obtain ⟨k₁, rest₁, hbehind, hk₁⟩ :
          ∃ k₁ rest₁, Stmt.tokensAll ss ++ k :: rest = k₁ :: rest₁ ∧ EndsBranch k₁ := by
        cases ss with
        | nil => exact ⟨k, rest, rfl, hk⟩
        | cons next ss =>
            obtain ⟨k₁, rest₁, htokens, hbegins, -⟩ := tokens_eq_cons (hss next List.mem_cons_self)
            refine ⟨k₁, rest₁ ++ Stmt.tokensAll ss ++ k :: rest, ?_,
              endsBranch_of_beginsStmt hbegins⟩
            rw [Stmt.tokensAll, htokens, List.cons_append, List.cons_append]
      obtain ⟨k₀, rest₀, hfirst, hbegins, -⟩ := tokens_eq_cons hs
      have hkind : c.kind = k₀ := by
        rw [hfirst, List.cons_append] at hkinds
        exact Cursor.kind_eq_of_kinds hkinds
      rw [hbehind] at hkinds
      obtain ⟨s', c₁, hread, herase, hc₁⟩ := hstmt s hs c k₁ rest₁ hkinds hk₁ hbound
      have hshorter : c₁.kinds.length < c.kinds.length := by
        rw [hkinds, hc₁, hfirst]
        simp only [List.length_append, List.length_cons]
        omega
      rw [← hbehind] at hc₁
      obtain ⟨fuel, rfl⟩ := Cursor.exists_eq_succ (show c₁.kinds.length ≤ fuel by omega)
      obtain ⟨ss', c₂, hmore, herases, hc₂⟩ := ih hss fuel hc₁ (by omega) (by omega)
      refine ⟨s' :: ss', c₂, ?_, by rw [Stmt.eraseAll, herase, herases], hc₂⟩
      rw [← hkind] at hbegins
      rw [list_of_ok (stops_of_beginsStmt hbegins hends hq) hread, hmore]

theorem indentedBlock_accepts {body : List (Stmt Unit)} {fuel : Nat} (hq : q.limitReached = false)
    (hstmt : AcceptsStmts q stmt bound) (hbody : ∀ s ∈ body, s.Grammatical)
    (hkinds : c.kinds = (Stmt.block () body).tokens ++ rest) (hrest : rest ≠ [])
    (hbound : c.kinds.length ≤ bound + 1) (hfuel : c.kinds.length ≤ fuel + 1) :
    ∃ b' c', indentedBlock lines stmt fuel ⟨c, q⟩ = .ok b' ⟨c', q⟩ ∧ b'.erase = .block () body ∧
      c'.kinds = rest := by
  rw [Stmt.tokens, List.cons_append, List.append_assoc] at hkinds
  obtain ⟨hadvance, hshorter⟩ := kinds_advance hkinds (by nofun) (by simp)
  have hends : ∀ k, beginsStmt k = true → endsBlock k = false := by
    intro k hk
    refine decide_eq_false ?_
    rintro rfl
    nomatch hk
  obtain ⟨body', c₁, hread, herase, hc₁⟩ := list_accepts hq hstmt hends hbody
    ⟨by nofun, by nofun⟩ (.inr rfl) fuel hadvance (by omega) (by omega)
  obtain ⟨hadvance₁, -⟩ := kinds_advance hc₁ (by nofun) hrest
  have hkind : c.kind = .indent := Cursor.kind_eq_of_kinds hkinds
  have hkind₁ : c₁.kind = .unindent := Cursor.kind_eq_of_kinds hc₁
  refine ⟨.block (c.here.span.merge c₁.advance.lastSpan) body', c₁.advance, ?_, ?_, hadvance₁⟩
  · have hbodyRead : statements lines stmt endsBlock fuel ⟨c.advance, q⟩ = .ok body' ⟨c₁, q⟩ := by
      rw [statements, hread]
    rw [indentedBlock, bind_of_eq_ok (lift_of_eq_ok (Parse.expectKind_of_kind hkind)),
      bind_of_eq_ok hbodyRead, bind_of_eq_ok (lift_of_eq_ok (Parse.kind_run c₁)), if_pos hkind₁,
      bind_of_eq_ok (lift_of_eq_ok (Parse.advance_run c₁))]
    rfl
  · rw [Stmt.erase, herase]

theorem body_accepts {b : Stmt Unit} (lines : LineTable) (fuel : Nat) (hq : q.limitReached = false)
    (hstmt : AcceptsStmts q stmt bound) (hblock : b.isBlock = true) (hb : b.Grammatical)
    (hkinds : c.kinds = b.tokens ++ rest) (hrest : rest ≠ [])
    (hbound : c.kinds.length ≤ bound + 1) (hfuel : c.kinds.length ≤ fuel + 1) :
    ∃ b' c', body lines stmt fuel ⟨c, q⟩ = .ok b' ⟨c', q⟩ ∧ armBody lines stmt fuel ⟨c, q⟩ =
      .ok b' ⟨c', q⟩ ∧ b'.erase = b ∧ c'.kinds = rest ∧ c'.kinds.length < c.kinds.length := by
  cases hb with
  | block _ hbody =>
      obtain ⟨b', c', hread, herase, hc'⟩ :=
        indentedBlock_accepts hq hstmt hbody hkinds hrest hbound hfuel
      have hkind : c.kind = .indent := Cursor.kind_eq_of_kinds hkinds
      refine ⟨b', c', ?_, ?_, herase, hc', ?_⟩
      · rw [body, bind_of_eq_ok (lift_of_eq_ok (Parse.kind_run c)), if_pos hkind, hread]
      · rw [armBody, bind_of_eq_ok (lift_of_eq_ok (Parse.kind_run c)), if_pos hkind, hread]
      · rw [hkinds, hc', List.length_append, Stmt.tokens, List.length_cons]
        omega
  | _ => nomatch hblock

/-! ### Simple statements -/

/-- A step that reads the form of a statement, reporting nothing. -/
def AcceptsForm (q : DiagnosticQueue) (step : ParseStmt (Span → Stmt Span)) (c : Cursor)
    (s : Stmt Unit) (k : TokenKind) (rest : List TokenKind) : Prop :=
  ∃ form c', step ⟨c, q⟩ = .ok form ⟨c', q⟩ ∧ (∀ span, (form span).erase = s) ∧
    c'.kinds = k :: rest

theorem simple_accepts_assign {target value : Expr Unit}
    (htarget : target.Grammatical ⟨false, true⟩) (hvalue : value.Grammatical ⟨false, true⟩)
    (hkinds : c.kinds = (Stmt.assign () target value).tokens ++ k :: rest)
    (hbound : c.kinds.length ≤ bound) :
    AcceptsForm q (simple bound) c (.assign () target value) k rest := by
  rw [Stmt.tokens, List.append_assoc, List.cons_append, List.append_assoc] at hkinds
  obtain ⟨target', c₁, hread₁, herase₁, hc₁, hle₁⟩ :=
    expr_accepts htarget hkinds (stops_fixed rfl rfl) hbound
  obtain ⟨hassign, hlt₁⟩ := kinds_advance hc₁ (by nofun) (by simp)
  have hshort : c₁.advance.kinds.length ≤ bound := by omega
  obtain ⟨value', c₂, hread₂, herase₂, hc₂, -⟩ :=
    expr_accepts hvalue hassign (stops_fixed rfl rfl) hshort
  obtain ⟨hsemicolon, hc₃, -⟩ := expect_accepts hc₂ (List.cons_ne_nil k rest)
  refine ⟨(.assign · target' value'), c₂.advance, ?_, fun span => ?_, hc₃⟩
  · rw [simple, bind_of_eq_ok hread₁,
      bind_of_eq_ok (lift_of_eq_ok (Parse.eat_of_kind (Cursor.kind_eq_of_kinds hc₁))), if_pos rfl,
      bind_of_eq_ok hread₂, bind_of_eq_ok hsemicolon]
    rfl
  · rw [Stmt.erase, herase₁, herase₂]

theorem simple_accepts {e : Expr Unit} (he : e.Grammatical ⟨false, true⟩)
    (hkinds : c.kinds = e.tokens ++ .fixed .semicolon :: k :: rest)
    (hbound : c.kinds.length ≤ bound) :
    AcceptsForm q (simple bound) c (if e.isDeclaration then .declaration () e else .expr () e) k
      rest := by
  obtain ⟨e', c₁, hread, herase, hc₁, -⟩ := expr_accepts he hkinds (stops_fixed rfl rfl) hbound
  obtain ⟨hsemicolon, hc₂, -⟩ := expect_accepts hc₁ (List.cons_ne_nil k rest)
  have hassign : c₁.kind ≠ .fixed .assign := by
    rw [Cursor.kind_eq_of_kinds hc₁]
    nofun
  refine ⟨if e'.isDeclaration then (.declaration · e') else (.expr · e'), c₁.advance, ?_, ?_, hc₂⟩
  · rw [simple, bind_of_eq_ok hread, bind_of_eq_ok (lift_of_eq_ok (Parse.eat_of_kind_ne hassign)),
      if_neg Bool.false_ne_true, bind_of_eq_ok hsemicolon]
    rfl
  · intro span
    rw [← herase, Expr.isDeclaration_erase]
    split <;> rw [Stmt.erase]

theorem terminal_accepts {token : TokenKind} {form : Span → Stmt Span} {s : Stmt Unit}
    (hkinds : c.kinds = token :: .fixed .semicolon :: k :: rest) (htoken : token ≠ .eof)
    (hform : ∀ span, (form span).erase = s) : AcceptsForm q (terminal form) c s k rest := by
  obtain ⟨hadvance, -⟩ := kinds_advance hkinds htoken (by simp)
  obtain ⟨hsemicolon, hc₁, -⟩ := expect_accepts hadvance (List.cons_ne_nil k rest)
  refine ⟨form, c.advance.advance, ?_, hform, hc₁⟩
  rw [terminal, bind_of_eq_ok (lift_of_eq_ok (Parse.advance_run c)), bind_of_eq_ok hsemicolon]
  rfl

theorem giveBack_accepts {values : List (Expr Unit)}
    (hvalues : ∀ e ∈ values, e.Grammatical ⟨false, true⟩)
    (hkinds : c.kinds = (Stmt.giveBack () values).tokens ++ k :: rest)
    (hbound : c.kinds.length ≤ bound) :
    AcceptsForm q (giveBack bound) c (.giveBack () values) k rest := by
  rw [Stmt.tokens, List.cons_append, List.append_assoc] at hkinds
  obtain ⟨hadvance, hlt⟩ := kinds_advance hkinds (by nofun) (by simp)
  have hisAt := lift_of_eq_ok (q := q) (Parse.isAt_run .semicolon c.advance)
  cases values with
  | nil =>
      have hkind : c.advance.kind = .fixed .semicolon := Cursor.kind_eq_of_kinds hadvance
      obtain ⟨hsemicolon, hc₁, -⟩ := expect_accepts hadvance (List.cons_ne_nil k rest)
      refine ⟨(.giveBack · []), c.advance.advance, ?_, fun _ => rfl, hc₁⟩
      rw [giveBack, bind_of_eq_ok (lift_of_eq_ok (Parse.advance_run c)), bind_of_eq_ok hisAt,
        if_pos (decide_eq_true hkind)]
      exact bind_of_eq_ok hsemicolon
  | cons e es =>
      obtain ⟨values', c₁, hread, herase, hc₁⟩ :=
        Parse.commaSeparated_accepts (List.cons_ne_nil e es) (Parse.stops_comma _)
          (fun e he => Parse.expr_accepts bound e (hvalues e he)) _ _ _ hadvance
          ⟨stops_fixed rfl rfl, by nofun⟩ (by omega)
      have hfirst : c.advance.kind ≠ .fixed .semicolon := by
        obtain ⟨k₁, rest₁, htokens, hbegins⟩ := Expr.tokens_eq_cons (hvalues e List.mem_cons_self)
        rw [List.map_cons, commas_cons, htokens] at hadvance
        rw [Cursor.kind_eq_of_kinds hadvance]
        rintro rfl
        nomatch hbegins
      obtain ⟨hsemicolon, hc₂, -⟩ := expect_accepts hc₁ (List.cons_ne_nil k rest)
      refine ⟨(.giveBack · values'), c₁.advance, ?_, fun span => ?_, hc₂⟩
      · rw [giveBack, bind_of_eq_ok (lift_of_eq_ok (Parse.advance_run c)), bind_of_eq_ok hisAt,
          if_neg (by simpa using hfirst), bind_of_eq_ok (lift_of_eq_ok hread)]
        exact bind_of_eq_ok hsemicolon
      · rw [Stmt.erase]
        exact congrArg (Stmt.giveBack ()) herase

theorem assertion_accepts {e : Expr Unit} (he : e.Grammatical ⟨false, true⟩)
    (hkinds : c.kinds = (Stmt.assertion () e).tokens ++ k :: rest)
    (hbound : c.kinds.length ≤ bound) :
    AcceptsForm q (assertion bound) c (.assertion () e) k rest := by
  rw [Stmt.tokens, List.cons_append, List.append_assoc] at hkinds
  obtain ⟨hadvance, hlt⟩ := kinds_advance hkinds (by nofun) (by simp)
  have hshort : c.advance.kinds.length ≤ bound := by omega
  obtain ⟨e', c₁, hread, herase, hc₁, -⟩ := expr_accepts he hadvance (stops_fixed rfl rfl) hshort
  obtain ⟨hsemicolon, hc₂, -⟩ := expect_accepts hc₁ (List.cons_ne_nil k rest)
  refine ⟨(.assertion · e'), c₁.advance, ?_, fun span => ?_, hc₂⟩
  · rw [assertion, bind_of_eq_ok (lift_of_eq_ok (Parse.advance_run c)), bind_of_eq_ok hread,
      bind_of_eq_ok hsemicolon]
    rfl
  · rw [Stmt.erase, herase]

theorem names_accepts {values : List String} (hsome : values ≠ []) :
    Parse.Accepts (Parse.commaSeparated Parse.expectName bound) (·.map id) bound
      (fun k => True ∧ k ≠ .fixed .comma) (commas (values.map fun value => [.name value]))
      values := by
  refine Parse.commaSeparated_accepts hsome trivial fun value _ => ?_
  intro c k rest hkinds _ _
  exact ⟨value, c.advance, Parse.expectName_of_kind (Cursor.kind_eq_of_kinds hkinds), rfl,
    Cursor.kinds_advance hkinds (by nofun) (List.cons_ne_nil k rest)⟩

theorem enumeration_accepts {id : String} {values : List String}
    (hkinds : c.kinds = (Stmt.enumeration () id values).tokens ++ k :: rest)
    (hbound : c.kinds.length ≤ bound) :
    AcceptsForm q (enumeration bound) c (.enumeration () id values) k rest := by
  rw [Stmt.tokens, List.cons_append, List.cons_append, List.cons_append,
    List.append_assoc] at hkinds
  obtain ⟨hname, hlt⟩ := kinds_advance hkinds (by nofun) (by simp)
  obtain ⟨hbrace, hlt₁⟩ := kinds_advance hname (by nofun) (by simp)
  obtain ⟨hopen, hvalues, hlt₂⟩ := expect_accepts (q := q) hbrace (by simp)
  have hid := lift_of_eq_ok (q := q) (Parse.expectName_of_kind (Cursor.kind_eq_of_kinds hname))
  have hisAt := lift_of_eq_ok (q := q) (Parse.isAt_run .closeBrace c.advance.advance.advance)
  rw [AcceptsForm, enumeration, bind_of_eq_ok (lift_of_eq_ok (Parse.advance_run c)),
    bind_of_eq_ok hid, bind_of_eq_ok hopen, bind_of_eq_ok hisAt]
  cases values with
  | nil =>
      have hclose := Cursor.kind_eq_of_kinds hvalues
      obtain ⟨hbehind, -⟩ := kinds_advance hvalues (by nofun) (by simp)
      have hsemicolon := Cursor.kind_eq_of_kinds hbehind
      obtain ⟨hc₁, -⟩ := kinds_advance hbehind (by nofun) (List.cons_ne_nil k rest)
      refine ⟨(.enumeration · id []), _, ?_, fun _ => rfl, hc₁⟩
      rw [if_pos (decide_eq_true hclose)]
      exact (bind_of_eq_ok (lift_of_eq_ok (Parse.close_of_kind hclose))).trans
        (bind_of_eq_ok (lift_of_eq_ok (Parse.eat_of_kind hsemicolon)))
  | cons value values =>
      have hshort : c.advance.advance.advance.kinds.length ≤ bound := by omega
      obtain ⟨values', c₁, hread, hview, hc₁⟩ := names_accepts (List.cons_ne_nil value values)
        _ _ _ hvalues ⟨trivial, by nofun⟩ hshort
      have hclose := Cursor.kind_eq_of_kinds hc₁
      obtain ⟨hbehind, -⟩ := kinds_advance hc₁ (by nofun) (by simp)
      have hsemicolon := Cursor.kind_eq_of_kinds hbehind
      obtain ⟨hc₂, -⟩ := kinds_advance hbehind (by nofun) (List.cons_ne_nil k rest)
      have hopened : c.advance.advance.advance.kind ≠ .fixed .closeBrace := by
        rw [List.map_cons, commas_cons] at hvalues
        rw [Cursor.kind_eq_of_kinds hvalues]
        nofun
      refine ⟨(.enumeration · id values'), _, ?_, fun _ => ?_, hc₂⟩
      · rw [if_neg (by simpa using hopened), bind_of_eq_ok (lift_of_eq_ok hread)]
        exact (bind_of_eq_ok (lift_of_eq_ok (Parse.close_of_kind hclose))).trans
          (bind_of_eq_ok (lift_of_eq_ok (Parse.eat_of_kind hsemicolon)))
      · rw [Stmt.erase, ← hview]
        exact congrArg (Stmt.enumeration () id) (List.map_id values').symm

/-! ### Statements with bodies -/

theorem repeatUntil_accepts {b : Stmt Unit} {test : Expr Unit} (hq : q.limitReached = false)
    (hstmt : AcceptsStmts q stmt bound) (hblock : b.isBlock = true) (hb : b.Grammatical)
    (htest : test.Grammatical ⟨false, true⟩)
    (hkinds : c.kinds = (Stmt.repeatUntil () b test).tokens ++ k :: rest)
    (hbound : c.kinds.length ≤ bound + 1) :
    AcceptsForm q (repeatUntil lines stmt (bound + 1)) c (.repeatUntil () b test) k rest := by
  rw [Stmt.tokens, List.cons_append, List.append_assoc, List.cons_append, List.append_assoc]
    at hkinds
  obtain ⟨hadvance, hlt⟩ := kinds_advance hkinds (by nofun) (by simp)
  obtain ⟨b', c₁, hread₁, -, herase₁, hc₁, hlt₁⟩ :=
    body_accepts lines (bound + 1) hq hstmt hblock hb hadvance (by simp) (by omega) (by omega)
  obtain ⟨huntil, hc₂, hlt₂⟩ := expect_accepts (q := q) hc₁ (by simp)
  have hshort : c₁.advance.kinds.length ≤ bound + 1 := by omega
  obtain ⟨test', c₃, hread₃, herase₃, hc₃, -⟩ := expr_accepts htest hc₂ (stops_fixed rfl rfl) hshort
  obtain ⟨hsemicolon, hc₄, -⟩ := expect_accepts hc₃ (List.cons_ne_nil k rest)
  refine ⟨(.repeatUntil · b' test'), c₃.advance, ?_, fun span => ?_, hc₄⟩
  · rw [repeatUntil, bind_of_eq_ok (lift_of_eq_ok (Parse.advance_run c)), bind_of_eq_ok hread₁,
      bind_of_eq_ok huntil, bind_of_eq_ok hread₃, bind_of_eq_ok hsemicolon]
    rfl
  · rw [Stmt.erase, herase₁, herase₃]

theorem whileDo_accepts {b : Stmt Unit} {test : Expr Unit} (hq : q.limitReached = false)
    (hstmt : AcceptsStmts q stmt bound) (htest : test.Grammatical ⟨false, true⟩)
    (hblock : b.isBlock = true) (hb : b.Grammatical)
    (hkinds : c.kinds = (Stmt.whileDo () test b).tokens ++ k :: rest)
    (hbound : c.kinds.length ≤ bound + 1) :
    AcceptsForm q (whileDo lines stmt (bound + 1)) c (.whileDo () test b) k rest := by
  rw [Stmt.tokens, List.cons_append, List.append_assoc, List.cons_append] at hkinds
  obtain ⟨hadvance, hlt⟩ := kinds_advance hkinds (by nofun) (by simp)
  have hshort : c.advance.kinds.length ≤ bound + 1 := by omega
  obtain ⟨test', c₁, hread₁, herase₁, hc₁, hle₁⟩ :=
    expr_accepts htest hadvance (stops_fixed rfl rfl) hshort
  obtain ⟨hdo, hc₂, hlt₂⟩ := expect_accepts (q := q) hc₁ (by simp)
  obtain ⟨b', c₃, hread₃, -, herase₃, hc₃, -⟩ :=
    body_accepts lines (bound + 1) hq hstmt hblock hb hc₂ (List.cons_ne_nil k rest) (by omega)
      (by omega)
  refine ⟨(.whileDo · test' b'), c₃, ?_, fun span => ?_, hc₃⟩
  · rw [whileDo, bind_of_eq_ok (lift_of_eq_ok (Parse.advance_run c)), bind_of_eq_ok hread₁,
      bind_of_eq_ok hdo, bind_of_eq_ok hread₃]
    rfl
  · rw [Stmt.erase, herase₁, herase₃]

theorem forTo_accepts {var : String} {first last : Expr Unit} {b : Stmt Unit}
    (hq : q.limitReached = false) (hstmt : AcceptsStmts q stmt bound)
    (hfirst : first.Grammatical ⟨false, true⟩) (hlast : last.Grammatical ⟨false, true⟩)
    (hblock : b.isBlock = true) (hb : b.Grammatical)
    (hkinds : c.kinds = (Stmt.forTo () var first last b).tokens ++ k :: rest)
    (hbound : c.kinds.length ≤ bound + 1) :
    AcceptsForm q (forTo lines stmt (bound + 1)) c (.forTo () var first last b) k rest := by
  rw [Stmt.tokens, List.cons_append, List.cons_append, List.cons_append, List.append_assoc,
    List.cons_append, List.append_assoc, List.cons_append] at hkinds
  obtain ⟨hname, hlt⟩ := kinds_advance hkinds (by nofun) (by simp)
  have hvar := lift_of_eq_ok (q := q) (Parse.expectName_of_kind (Cursor.kind_eq_of_kinds hname))
  obtain ⟨hassign, hlt₁⟩ := kinds_advance hname (by nofun) (by simp)
  obtain ⟨hsign, hc₁, hlt₂⟩ := expect_accepts (q := q) hassign (by simp)
  have hshort : c.advance.advance.advance.kinds.length ≤ bound + 1 := by omega
  obtain ⟨first', c₂, hread₂, herase₂, hc₂, hle₂⟩ :=
    expr_accepts hfirst hc₁ (stops_fixed rfl rfl) hshort
  obtain ⟨hto, hc₃, hlt₃⟩ := expect_accepts (q := q) hc₂ (by simp)
  have hshort₃ : c₂.advance.kinds.length ≤ bound + 1 := by omega
  obtain ⟨last', c₄, hread₄, herase₄, hc₄, hle₄⟩ :=
    expr_accepts hlast hc₃ (stops_fixed rfl rfl) hshort₃
  obtain ⟨hdo, hc₅, hlt₅⟩ := expect_accepts (q := q) hc₄ (by simp)
  obtain ⟨b', c₆, hread₆, -, herase₆, hc₆, -⟩ :=
    body_accepts lines (bound + 1) hq hstmt hblock hb hc₅ (List.cons_ne_nil k rest) (by omega)
      (by omega)
  refine ⟨(.forTo · var first' last' b'), c₆, ?_, fun span => ?_, hc₆⟩
  · rw [forTo, bind_of_eq_ok (lift_of_eq_ok (Parse.advance_run c)), bind_of_eq_ok hvar,
      bind_of_eq_ok hsign, bind_of_eq_ok hread₂, bind_of_eq_ok hto, bind_of_eq_ok hread₄,
      bind_of_eq_ok hdo, bind_of_eq_ok hread₆]
    rfl
  · rw [Stmt.erase, herase₂, herase₄, herase₆]

theorem elsifs_accepts {es : List (Expr Unit × Stmt Unit)} (lines : LineTable)
    (hq : q.limitReached = false)
    (hstmt : AcceptsStmts q stmt bound) (htests : ∀ arm ∈ es, arm.1.Grammatical ⟨false, true⟩)
    (hblocks : ∀ arm ∈ es, arm.2.isBlock = true) (hbodies : ∀ arm ∈ es, arm.2.Grammatical)
    (hk : k ≠ .fixed .kwElsif) (fuel : Nat) (hkinds : c.kinds = Stmt.tokensElsifs es ++ k :: rest)
    (hbound : c.kinds.length ≤ bound + 1) (hfuel : c.kinds.length ≤ fuel + 1) :
    ∃ es' c', elsifs lines stmt (bound + 1) fuel ⟨c, q⟩ = .ok es' ⟨c', q⟩ ∧
      Stmt.eraseElsifs es' = es ∧ c'.kinds = k :: rest ∧ c'.kinds.length ≤ c.kinds.length := by
  induction es generalizing c fuel with
  | nil =>
      refine ⟨[], c, ?_, rfl, hkinds, Nat.le_refl _⟩
      cases fuel with
      | zero => rfl
      | succ fuel =>
          have hkind : c.kind ≠ .fixed .kwElsif := by rwa [Cursor.kind_eq_of_kinds hkinds]
          rw [elsifs, bind_of_eq_ok (lift_of_eq_ok (Parse.eat_of_kind_ne hkind))]
          rfl
  | cons arm es ih =>
      obtain ⟨test, b⟩ := arm
      obtain ⟨htest, htests⟩ := List.forall_mem_cons.mp htests
      obtain ⟨hblock, hblocks⟩ := List.forall_mem_cons.mp hblocks
      obtain ⟨hb, hbodies⟩ := List.forall_mem_cons.mp hbodies
      rw [Stmt.tokensElsifs, List.cons_append, List.append_assoc, List.cons_append,
        List.append_assoc] at hkinds
      obtain ⟨hadvance, hlt⟩ := kinds_advance hkinds (by nofun) (by simp)
      have hshort : c.advance.kinds.length ≤ bound + 1 := by omega
      obtain ⟨test', c₁, hread₁, herase₁, hc₁, hle₁⟩ :=
        expr_accepts htest hadvance (stops_fixed rfl rfl) hshort
      obtain ⟨hthen, hc₂, hlt₂⟩ := expect_accepts (q := q) hc₁ (by simp)
      obtain ⟨b', c₃, hread₃, -, herase₃, hc₃, hlt₃⟩ :=
        body_accepts lines (bound + 1) hq hstmt hblock hb hc₂ (by simp) (by omega) (by omega)
      obtain ⟨fuel, rfl⟩ := Cursor.exists_eq_succ (show c.advance.kinds.length ≤ fuel by omega)
      obtain ⟨es', c₄, hread₄, herase₄, hc₄, hle₄⟩ :=
        ih htests hblocks hbodies fuel hc₃ (by omega) (by omega)
      refine ⟨(test', b') :: es', c₄, ?_, ?_, hc₄, by omega⟩
      · rw [elsifs, bind_of_eq_ok (lift_of_eq_ok (Parse.eat_of_kind
          (Cursor.kind_eq_of_kinds hkinds))), if_pos rfl, bind_of_eq_ok hread₁,
          bind_of_eq_ok hthen, bind_of_eq_ok hread₃, bind_of_eq_ok hread₄]
        rfl
      · rw [Stmt.eraseElsifs, herase₁, herase₃, herase₄]

theorem branch_accepts {test : Expr Unit} {b : Stmt Unit} {es : List (Expr Unit × Stmt Unit)}
    {otherwise : Option (Stmt Unit)} (hq : q.limitReached = false)
    (hstmt : AcceptsStmts q stmt bound) (htest : test.Grammatical ⟨false, true⟩)
    (hblock : b.isBlock = true) (hb : b.Grammatical)
    (htests : ∀ arm ∈ es, arm.1.Grammatical ⟨false, true⟩)
    (hblocks : ∀ arm ∈ es, arm.2.isBlock = true) (hbodies : ∀ arm ∈ es, arm.2.Grammatical)
    (hlastBlock : ∀ last ∈ otherwise, last.isBlock = true)
    (hlast : ∀ last ∈ otherwise, last.Grammatical)
    (hkinds : c.kinds = (Stmt.branch () test b es otherwise).tokens ++ k :: rest)
    (hk : EndsBranch k) (hbound : c.kinds.length ≤ bound + 1) :
    AcceptsForm q (branch lines stmt (bound + 1)) c (.branch () test b es otherwise) k rest := by
  rw [Stmt.tokens, List.cons_append, List.append_assoc, List.cons_append, List.append_assoc,
    List.append_assoc] at hkinds
  obtain ⟨hadvance, hlt⟩ := kinds_advance hkinds (by nofun) (by simp)
  have hshort : c.advance.kinds.length ≤ bound + 1 := by omega
  obtain ⟨test', c₁, hread₁, herase₁, hc₁, hle₁⟩ :=
    expr_accepts htest hadvance (stops_fixed rfl rfl) hshort
  obtain ⟨hthen, hc₂, hlt₂⟩ := expect_accepts (q := q) hc₁ (by simp)
  obtain ⟨b', c₃, hread₃, -, herase₃, hc₃, hlt₃⟩ :=
    body_accepts lines (bound + 1) hq hstmt hblock hb hc₂ (by simp) (by omega) (by omega)
  obtain ⟨k₁, rest₁, hbehind, hk₁⟩ : ∃ k₁ rest₁,
      Stmt.tokensElse .kwElse otherwise ++ k :: rest = k₁ :: rest₁ ∧ k₁ ≠ .fixed .kwElsif := by
    cases otherwise with
    | none => exact ⟨k, rest, rfl, hk.1⟩
    | some last => exact ⟨_, _, rfl, by nofun⟩
  rw [hbehind] at hc₃
  obtain ⟨es', c₄, hread₄, herase₄, hc₄, hle₄⟩ := elsifs_accepts lines hq hstmt htests
    hblocks hbodies hk₁ (bound + 1) hc₃ (by omega) (by omega)
  rw [← hbehind] at hc₄
  rw [AcceptsForm, branch, bind_of_eq_ok (lift_of_eq_ok (Parse.advance_run c)),
    bind_of_eq_ok hread₁, bind_of_eq_ok hthen, bind_of_eq_ok hread₃, bind_of_eq_ok hread₄]
  cases otherwise with
  | none =>
      have hkind : c₄.kind ≠ .fixed .kwElse := by
        rw [Cursor.kind_eq_of_kinds hc₄]
        exact hk.2
      refine ⟨(.branch · test' b' es' none), c₄, ?_, fun span => ?_, hc₄⟩
      · rw [bind_of_eq_ok (lift_of_eq_ok (Parse.eat_of_kind_ne hkind))]
        rfl
      · rw [Stmt.erase, herase₁, herase₃, herase₄, Stmt.eraseElse]
  | some last =>
      have hkind : c₄.kind = .fixed .kwElse := Cursor.kind_eq_of_kinds hc₄
      obtain ⟨hc₅, hlt₅⟩ := kinds_advance hc₄ (by nofun) (by simp)
      obtain ⟨last', c₆, hread₆, -, herase₆, hc₆, -⟩ := body_accepts lines (bound + 1) hq hstmt
        (hlastBlock last rfl) (hlast last rfl) hc₅ (List.cons_ne_nil k rest) (by omega) (by omega)
      refine ⟨(.branch · test' b' es' (some last')), c₆, ?_, fun span => ?_, hc₆⟩
      · rw [bind_of_eq_ok (lift_of_eq_ok (Parse.eat_of_kind hkind)), if_pos rfl,
          bind_of_eq_ok hread₆]
        rfl
      · rw [Stmt.erase, herase₁, herase₃, herase₄, Stmt.eraseElse, herase₆]

theorem arms_end {opened : Span} {size : Nat} (otherwise : Option (Stmt Span)) (fuel : Nat)
    (hkind : c.kind = .unindent) :
    arms lines stmt opened size (fuel + 1) otherwise ⟨c, q⟩ =
      .ok ([], otherwise) ⟨c.advance, q⟩ := by
  rw [arms, bind_of_eq_ok (lift_of_eq_ok (Parse.kind_run c)), hkind]
  dsimp only
  rw [bind_of_eq_ok (lift_of_eq_ok (Parse.advance_run c))]
  rfl

/-- Behind the arms the last body is read, if there is one, and the arms are closed. -/
theorem arms_accepts_otherwise {otherwise : Option (Stmt Unit)} (lines : LineTable) (opened : Span)
    (hq : q.limitReached = false) (hstmt : AcceptsStmts q stmt bound)
    (hlastBlock : ∀ last ∈ otherwise, last.isBlock = true)
    (hlast : ∀ last ∈ otherwise, last.Grammatical) (fuel : Nat)
    (hkinds : c.kinds = Stmt.tokensElse .kwOtherwise otherwise ++ .unindent :: k :: rest)
    (hbound : c.kinds.length ≤ bound + 1) (hfuel : c.kinds.length ≤ fuel + 1) :
    ∃ otherwise' c', arms lines stmt opened (bound + 1) fuel none ⟨c, q⟩ =
        .ok ([], otherwise') ⟨c', q⟩ ∧
      Stmt.eraseElse otherwise' = otherwise ∧ c'.kinds = k :: rest := by
  have hlength := congrArg List.length hkinds
  simp only [List.length_append, List.length_cons] at hlength
  obtain ⟨fuel, rfl⟩ : ∃ fewer, fuel = fewer + 1 := ⟨fuel - 1, by omega⟩
  cases otherwise with
  | none =>
      obtain ⟨hadvance, -⟩ := kinds_advance hkinds (by nofun) (List.cons_ne_nil k rest)
      exact ⟨none, c.advance, arms_end none fuel (Cursor.kind_eq_of_kinds hkinds), rfl, hadvance⟩
  | some last =>
      obtain ⟨hadvance, hlt⟩ := kinds_advance hkinds (by nofun) (by simp)
      obtain ⟨last', c₁, -, hread₁, herase₁, hc₁, hlt₁⟩ := body_accepts lines (bound + 1) hq hstmt
        (hlastBlock last rfl) (hlast last rfl) hadvance (by simp) (by omega) (by omega)
      obtain ⟨hadvance₁, -⟩ := kinds_advance hc₁ (by nofun) (List.cons_ne_nil k rest)
      have hlength₁ := congrArg List.length hc₁
      simp only [List.length_cons] at hlength₁
      obtain ⟨fuel, rfl⟩ : ∃ fewer, fuel = fewer + 1 := ⟨fuel - 1, by omega⟩
      refine ⟨some last', c₁.advance, ?_, by rw [Stmt.eraseElse, herase₁], hadvance₁⟩
      rw [arms, bind_of_eq_ok (lift_of_eq_ok (Parse.kind_run c)), Cursor.kind_eq_of_kinds hkinds]
      dsimp only
      rw [bind_of_eq_ok (lift_of_eq_ok (Parse.advance_run c)), bind_of_eq_ok hread₁,
        arms_end (some last') fuel (Cursor.kind_eq_of_kinds hc₁)]

theorem arms_accepts {as : List (List (Expr Unit) × Stmt Unit)} {otherwise : Option (Stmt Unit)}
    (lines : LineTable) (opened : Span) (hq : q.limitReached = false)
    (hstmt : AcceptsStmts q stmt bound) (hsome : ∀ arm ∈ as, arm.1 ≠ [])
    (hpatterns : ∀ arm ∈ as, ∀ e ∈ arm.1, e.Grammatical ⟨true, true⟩)
    (hblocks : ∀ arm ∈ as, arm.2.isBlock = true) (hbodies : ∀ arm ∈ as, arm.2.Grammatical)
    (hlastBlock : ∀ last ∈ otherwise, last.isBlock = true)
    (hlast : ∀ last ∈ otherwise, last.Grammatical) (fuel : Nat)
    (hkinds : c.kinds = Stmt.tokensArms as ++
      (Stmt.tokensElse .kwOtherwise otherwise ++ .unindent :: k :: rest))
    (hbound : c.kinds.length ≤ bound + 1) (hfuel : c.kinds.length ≤ fuel + 1) :
    ∃ as' otherwise' c', arms lines stmt opened (bound + 1) fuel none ⟨c, q⟩ =
        .ok (as', otherwise') ⟨c', q⟩ ∧ Stmt.eraseArms as' = as ∧
      Stmt.eraseElse otherwise' = otherwise ∧ c'.kinds = k :: rest := by
  induction as generalizing c fuel with
  | nil =>
      obtain ⟨otherwise', c', hread, herase, hc'⟩ := arms_accepts_otherwise lines opened hq hstmt
        hlastBlock hlast fuel hkinds hbound hfuel
      exact ⟨[], otherwise', c', hread, rfl, herase, hc'⟩
  | cons arm as ih =>
      obtain ⟨patterns, b⟩ := arm
      obtain ⟨hnonempty, hsome⟩ := List.forall_mem_cons.mp hsome
      obtain ⟨hpattern, hpatterns⟩ := List.forall_mem_cons.mp hpatterns
      obtain ⟨hblock, hblocks⟩ := List.forall_mem_cons.mp hblocks
      obtain ⟨hb, hbodies⟩ := List.forall_mem_cons.mp hbodies
      rw [Stmt.tokensArms, List.cons_append, List.append_assoc, List.append_assoc] at hkinds
      obtain ⟨hadvance, hlt⟩ := kinds_advance hkinds (by nofun) (by simp)
      -- A block begins behind the patterns, so no name there is taken for one of them.
      obtain ⟨inside, hbody⟩ : ∃ inside, b.tokens = .indent :: inside := by
        cases b with
        | block _ body => exact ⟨_, rfl⟩
        | _ => nomatch hblock
      have hstart := hadvance
      rw [hbody, List.cons_append] at hstart
      obtain ⟨patterns', c₁, hread₁, herase₁, hc₁⟩ := Parse.patterns_accepts (bound + 1) hnonempty
        hpattern _ _ _ hstart ⟨Parse.stops_of_none _ rfl rfl, by nofun⟩ (by omega)
      rw [← List.cons_append, ← hbody] at hc₁
      have hle₁ : c₁.kinds.length ≤ c.advance.kinds.length := by
        rw [hadvance, hc₁]
        simp only [List.length_append]
        omega
      obtain ⟨b', c₂, -, hread₂, herase₂, hc₂, hlt₂⟩ :=
        body_accepts lines (bound + 1) hq hstmt hblock hb hc₁ (by simp) (by omega) (by omega)
      obtain ⟨fuel, rfl⟩ : ∃ fewer, fuel = fewer + 1 := ⟨fuel - 1, by omega⟩
      obtain ⟨as', otherwise', c₃, hread₃, herase₃, herase₄, hc₃⟩ :=
        ih hsome hpatterns hblocks hbodies fuel hc₂ (by omega) (by omega)
      refine ⟨(patterns', b') :: as', otherwise', c₃, ?_, ?_, herase₄, hc₃⟩
      · rw [arms, bind_of_eq_ok (lift_of_eq_ok (Parse.kind_run c)), Cursor.kind_eq_of_kinds hkinds]
        dsimp only
        rw [bind_of_eq_ok (lift_of_eq_ok (Parse.advance_run c)),
          bind_of_eq_ok (lift_of_eq_ok hread₁), bind_of_eq_ok hread₂, bind_of_eq_ok hread₃]
        rfl
      · have hpatterns' : patterns'.map Expr.erase = patterns := herase₁
        rw [Stmt.eraseArms, herase₂, herase₃, hpatterns']

theorem caseOf_accepts {selector : Expr Unit} {as : List (List (Expr Unit) × Stmt Unit)}
    {otherwise : Option (Stmt Unit)} (hq : q.limitReached = false)
    (hstmt : AcceptsStmts q stmt bound) (hselector : selector.Grammatical ⟨false, true⟩)
    (hsome : ∀ arm ∈ as, arm.1 ≠ [])
    (hpatterns : ∀ arm ∈ as, ∀ e ∈ arm.1, e.Grammatical ⟨true, true⟩)
    (hblocks : ∀ arm ∈ as, arm.2.isBlock = true) (hbodies : ∀ arm ∈ as, arm.2.Grammatical)
    (hlastBlock : ∀ last ∈ otherwise, last.isBlock = true)
    (hlast : ∀ last ∈ otherwise, last.Grammatical)
    (hkinds : c.kinds = (Stmt.caseOf () selector as otherwise).tokens ++ k :: rest)
    (hbound : c.kinds.length ≤ bound + 1) :
    AcceptsForm q (caseOf lines stmt (bound + 1)) c (.caseOf () selector as otherwise) k rest := by
  rw [Stmt.tokens, List.cons_append, List.append_assoc, List.cons_append, List.cons_append,
    List.append_assoc, List.append_assoc] at hkinds
  obtain ⟨hadvance, hlt⟩ := kinds_advance hkinds (by nofun) (by simp)
  have hshort : c.advance.kinds.length ≤ bound + 1 := by omega
  obtain ⟨selector', c₁, hread₁, herase₁, hc₁, hle₁⟩ :=
    expr_accepts hselector hadvance (stops_fixed rfl rfl) hshort
  obtain ⟨hof, hc₂, hlt₂⟩ := expect_accepts (q := q) hc₁ (by simp)
  have hindent := lift_of_eq_ok (q := q) (Parse.expectKind_of_kind (Cursor.kind_eq_of_kinds hc₂))
  obtain ⟨hc₃, hlt₃⟩ := kinds_advance hc₂ (by nofun) (by simp)
  obtain ⟨as', otherwise', c₄, hread₄, herase₄, herase₅, hc₄⟩ := arms_accepts lines
    c₁.advance.here.span hq hstmt hsome hpatterns hblocks hbodies hlastBlock hlast (bound + 1) hc₃
    (by omega) (by omega)
  refine ⟨(.caseOf · selector' as' otherwise'), c₄, ?_, fun span => ?_, hc₄⟩
  · rw [caseOf, bind_of_eq_ok (lift_of_eq_ok (Parse.advance_run c)), bind_of_eq_ok hread₁,
      bind_of_eq_ok hof, bind_of_eq_ok hindent, bind_of_eq_ok hread₄]
    rfl
  · rw [Stmt.erase, herase₁, herase₄, herase₅]

/-! ### Statements and programs -/

/-- Only a conditional outside parentheses begins with the word that begins a branch. -/
theorem ne_kwIf {inPattern : Bool} {e : Expr Unit} {behind : List TokenKind}
    (he : e.Grammatical ⟨inPattern, true⟩) (hopen : e.isConditional = false)
    (htokens : e.tokens ++ behind = k :: rest) : k ≠ .fixed .kwIf := by
  have hlead : ∀ {type : TypeExpr Unit} {behind : List TokenKind}, type.canLead = true →
      type.tokens ++ behind = k :: rest → k ≠ .fixed .kwIf := by
    intro type behind hcan htype
    obtain ⟨k', rest', hfirst, hk'⟩ := TypeExpr.tokens_of_canLead hcan
    rw [hfirst] at htype
    rw [← (List.cons.inj htype).1]
    rintro rfl
    obtain hbegins | ⟨hparen, -⟩ := hk'
    · nomatch hbegins
    · nomatch hparen
  cases he with
  | binary _ _ hleft _ hgrammatical =>
      rw [Expr.tokens, List.append_assoc] at htokens
      exact ne_kwIf hgrammatical (hleft.closed rfl) htokens
  | slice _ hcan hgrammatical | index _ hcan hgrammatical | member _ _ hcan hgrammatical =>
      rw [Expr.tokens, List.append_assoc] at htokens
      exact ne_kwIf hgrammatical (hcan.closed rfl) htokens
  | declare _ _ hcan | unknownOf _ hcan =>
      rw [Expr.tokens, List.append_assoc] at htokens
      exact hlead hcan htokens
  | unary _ op =>
      rw [← (List.cons.inj htokens).1]
      cases op <;> nofun
  | conditional => nomatch hopen
  | _ =>
      rw [← (List.cons.inj htokens).1]
      nofun

theorem form_eq_simple {e : Expr Unit} {behind : List TokenKind}
    (he : e.Grammatical ⟨false, true⟩) (hopen : e.isConditional = false)
    (hkinds : c.kinds = e.tokens ++ behind) :
    form lines stmt bound ⟨c, q⟩ = simple bound ⟨c, q⟩ := by
  obtain ⟨k, rest, hfirst, hbegins⟩ := Expr.tokens_eq_cons he
  have htokens : e.tokens ++ behind = k :: (rest ++ behind) := by rw [hfirst, List.cons_append]
  have hnotIf := ne_kwIf he hopen htokens
  rw [htokens] at hkinds
  rw [form, bind_of_eq_ok (lift_of_eq_ok (Parse.kind_run c)), Cursor.kind_eq_of_kinds hkinds]
  split <;> first | rfl | exact absurd rfl hnotIf | nomatch hbegins

theorem form_accepts {s : Stmt Unit} (lines : LineTable) (hq : q.limitReached = false)
    (hstmt : AcceptsStmts q stmt bound) (hs : s.Grammatical) (hblock : s.isBlock = false)
    (hkinds : c.kinds = s.tokens ++ k :: rest) (hk : EndsBranch k)
    (hbound : c.kinds.length ≤ bound + 1) :
    AcceptsForm q (form lines stmt (bound + 1)) c s k rest := by
  cases hs with
  | assign _ htarget hopen hvalue =>
      have hstart := hkinds
      rw [Stmt.tokens, List.append_assoc] at hstart
      rw [AcceptsForm, form_eq_simple htarget hopen hstart]
      exact simple_accepts_assign htarget hvalue hkinds hbound
  | expr _ he hopen hplain =>
      rw [Stmt.tokens, List.append_assoc] at hkinds
      rw [AcceptsForm, form_eq_simple he hopen hkinds]
      have h := simple_accepts (q := q) he hkinds hbound
      rwa [if_neg (by rw [hplain]; exact Bool.false_ne_true)] at h
  | declaration _ he hdeclaration =>
      next e =>
      have hopen : e.isConditional = false := by
        cases e with
        | declare => rfl
        | _ => nomatch hdeclaration
      rw [Stmt.tokens, List.append_assoc] at hkinds
      rw [AcceptsForm, form_eq_simple he hopen hkinds]
      have h := simple_accepts (q := q) he hkinds hbound
      rwa [if_pos hdeclaration] at h
  | giveBack _ hvalues =>
      rw [AcceptsForm, form, bind_of_eq_ok (lift_of_eq_ok (Parse.kind_run c)),
        Cursor.kind_eq_of_kinds hkinds]
      exact giveBack_accepts hvalues hkinds hbound
  | undefined | unpredictable | prose =>
      rw [AcceptsForm, form, bind_of_eq_ok (lift_of_eq_ok (Parse.kind_run c)),
        Cursor.kind_eq_of_kinds hkinds]
      exact terminal_accepts hkinds (by nofun) fun _ => rfl
  | branch _ htest hblock' hbody htests hblocks hbodies hlastBlock hlast =>
      rw [AcceptsForm, form, bind_of_eq_ok (lift_of_eq_ok (Parse.kind_run c)),
        Cursor.kind_eq_of_kinds hkinds]
      exact branch_accepts hq hstmt htest hblock' hbody htests hblocks hbodies hlastBlock hlast
        hkinds hk hbound
  | repeatUntil _ hblock' hbody htest =>
      rw [AcceptsForm, form, bind_of_eq_ok (lift_of_eq_ok (Parse.kind_run c)),
        Cursor.kind_eq_of_kinds hkinds]
      exact repeatUntil_accepts hq hstmt hblock' hbody htest hkinds hbound
  | whileDo _ htest hblock' hbody =>
      rw [AcceptsForm, form, bind_of_eq_ok (lift_of_eq_ok (Parse.kind_run c)),
        Cursor.kind_eq_of_kinds hkinds]
      exact whileDo_accepts hq hstmt htest hblock' hbody hkinds hbound
  | forTo _ var hfirst hlast hblock' hbody =>
      rw [AcceptsForm, form, bind_of_eq_ok (lift_of_eq_ok (Parse.kind_run c)),
        Cursor.kind_eq_of_kinds hkinds]
      exact forTo_accepts hq hstmt hfirst hlast hblock' hbody hkinds hbound
  | caseOf _ hselector hsome hpatterns hblocks hbodies hlastBlock hlast =>
      rw [AcceptsForm, form, bind_of_eq_ok (lift_of_eq_ok (Parse.kind_run c)),
        Cursor.kind_eq_of_kinds hkinds]
      exact caseOf_accepts hq hstmt hselector hsome hpatterns hblocks hbodies hlastBlock hlast
        hkinds hbound
  | assertion _ he =>
      rw [AcceptsForm, form, bind_of_eq_ok (lift_of_eq_ok (Parse.kind_run c)),
        Cursor.kind_eq_of_kinds hkinds]
      exact assertion_accepts he hkinds hbound
  | enumeration =>
      rw [AcceptsForm, form, bind_of_eq_ok (lift_of_eq_ok (Parse.kind_run c)),
        Cursor.kind_eq_of_kinds hkinds]
      exact enumeration_accepts hkinds hbound
  | block => nomatch hblock

/-- Every statement is read back: the bound shrinks with the tokens, because a nested statement
stands behind a token of its own. -/
theorem stmtAt_accepts (lines : LineTable) (hq : q.limitReached = false) (bound : Nat) :
    AcceptsStmts q (stmtAt lines bound) bound := by
  induction bound with
  | zero =>
      intro s _ c k rest hkinds _ hbound
      rw [hkinds, List.length_append, List.length_cons] at hbound
      omega
  | succ bound ih =>
      intro s hs c k rest hkinds hk hbound
      rw [stmtAt, bind_of_eq_ok (lift_of_eq_ok (Parse.kind_run c))]
      cases hblock : s.isBlock with
      | true =>
          cases hs with
          | block _ hbody =>
              rw [if_pos (Cursor.kind_eq_of_kinds hkinds)]
              exact indentedBlock_accepts hq ih hbody hkinds (List.cons_ne_nil k rest) hbound hbound
          | _ => nomatch hblock
      | false =>
          have hkind : c.kind ≠ .indent := by
            obtain ⟨k₀, rest₀, hfirst, -, hne⟩ := tokens_eq_cons hs
            rw [hfirst, List.cons_append] at hkinds
            rw [Cursor.kind_eq_of_kinds hkinds]
            exact hne hblock
          obtain ⟨form, c', hread, herase, hc'⟩ :=
            form_accepts lines hq ih hs hblock hkinds hk hbound
          refine ⟨form (c.here.span.merge c'.lastSpan), c', ?_, herase _, hc'⟩
          rw [if_neg hkind, bind_of_eq_ok (lift_of_eq_ok (Parse.span_run c)), bind_of_eq_ok hread,
            spanFrom, bind_of_eq_ok (lift_of_eq_ok (Parse.spanFrom_run _ c'))]
          rfl

end ArmPseudocode.ParseStmt

namespace ArmPseudocode.TokenStream

/-- A program that can be written is what its tokens are read as, and nothing is reported. -/
theorem parse_tokens {p : Program Unit} {s : TokenStream} {q : DiagnosticQueue} (lines : LineTable)
    (hp : p.Grammatical) (hs : s.tokens.map (·.kind) = p.tokens) (hq : q.limitReached = false) :
    ∃ p', s.parse lines q = (p', q) ∧ p'.erase = p := by
  have hkinds : (Cursor.atStart s).kinds = Stmt.tokensAll p.body ++ [.eof] := by
    rw [Cursor.kinds_atStart, hs, Program.tokens]
  have hlength : (Cursor.atStart s).kinds.length ≤ s.tokens.length + 1 := by
    rw [Cursor.kinds_atStart, List.length_append, List.length_map]
    exact Nat.le_refl _
  obtain ⟨body, c', hread, herase, -⟩ := ParseStmt.list_accepts hq
    (ParseStmt.stmtAt_accepts lines hq (s.tokens.length + 1)) (fun _ _ => rfl) hp
    ⟨by nofun, by nofun⟩ (.inl rfl) (s.tokens.length + 1) hkinds hlength (Nat.le_succ_of_le hlength)
  refine ⟨⟨body⟩, ?_, by rw [Program.erase, herase]⟩
  rw [parse, hread]

def guardedCase : Program Unit :=
  ⟨[.caseOf () (.name () "op")
    [([.int () 1, .bitString () "1x"],
      .block () [.branch () (.name () "a") (.block () [.assign () (.name () "y") (.int () 1)]) []
        (some (.block () [.giveBack () [.name () "y"]]))])]
    (some (.block () [.undefined ()]))]⟩

theorem grammatical_guardedCase : guardedCase.Grammatical := by
  have hassign : (Stmt.assign () (.name () "y") (.int () 1)).Grammatical :=
    .assign _ (.name _ _) rfl (.int _ _)
  have hreturn : (Stmt.giveBack () [.name () "y"]).Grammatical :=
    .giveBack _ (List.forall_mem_singleton.mpr (.name _ _))
  have hbranch : (Stmt.branch () (.name () "a")
      (.block () [.assign () (.name () "y") (.int () 1)]) []
      (some (.block () [.giveBack () [.name () "y"]]))).Grammatical := by
    refine .branch _ (.name _ _) rfl (.block _ (List.forall_mem_singleton.mpr hassign)) (by simp)
      (by simp) (by simp) ?_ ?_
    · intro last hlast
      rw [← Option.mem_some.mp hlast]
      rfl
    · intro last hlast
      rw [← Option.mem_some.mp hlast]
      exact .block _ (List.forall_mem_singleton.mpr hreturn)
  refine List.forall_mem_singleton.mpr (.caseOf _ (.name _ _) ?_ ?_ ?_ ?_ ?_ ?_)
  · exact List.forall_mem_singleton.mpr (List.cons_ne_nil _ _)
  · refine List.forall_mem_singleton.mpr (List.forall_mem_cons.mpr ⟨.int _ _, ?_⟩)
    exact List.forall_mem_singleton.mpr (.bitString _ _)
  · exact List.forall_mem_singleton.mpr rfl
  · exact List.forall_mem_singleton.mpr (.block _ (List.forall_mem_singleton.mpr hbranch))
  · intro last hlast
    rw [← Option.mem_some.mp hlast]
    rfl
  · intro last hlast
    rw [← Option.mem_some.mp hlast]
    exact .block _ (List.forall_mem_singleton.mpr (.undefined _))

theorem guardedCase_parse_tokens :
    ∃ p', parse (.ofText []) (.empty {}) ⟨guardedCase.tokens.map (⟨·, .none⟩), 0⟩ =
        (p', .empty {}) ∧ p'.erase = guardedCase :=
  parse_tokens _ grammatical_guardedCase (by rw [List.map_map]; exact List.map_id _) rfl

end ArmPseudocode.TokenStream
